/-
Append-only logs of puts and deletions by key, and their replay.

A replay keeps a table of the live values and the keys in the order they
were put, a key once for each of its puts; it returns the live value of
each listed key. So a key put twice and still live is returned twice, with
its last value.

Compaction writes a put for each value a replay returns. `replay_compact`
says that it changes nothing a replay can see.
-/
import Mathlib.Logic.Function.Basic
import Mathlib.Data.List.Basic
import Mathlib.Data.List.Induction

namespace KeyedLog

open List Option Function

/-- One record of a log. -/
inductive Entry (κ α : Type)
  | put (k : κ) (a : α)
  | del (k : κ)
  deriving DecidableEq, Repr

variable {κ α β : Type}

namespace Entry

def key : Entry κ α → κ
  | .put k _ => k
  | .del k => k

def putKey? : Entry κ α → Option κ
  | .put k _ => some k
  | .del _ => none

/-- The table of live values after one more entry. -/
def apply [DecidableEq κ] (m : κ → Option α) : Entry κ α → κ → Option α
  | .put k a => update m k (some a)
  | .del k => update m k none

def map (f : α → β) : Entry κ α → Entry κ β
  | .put k a => .put k (f a)
  | .del k => .del k

@[simp] theorem putKey?_map (f : α → β) (e : Entry κ α) : (e.map f).putKey? = e.putKey? := by
  cases e <;> rfl

end Entry

/-- The keys in the order of their puts. -/
def putKeys (l : List (Entry κ α)) : List κ := l.filterMap Entry.putKey?

@[simp] theorem putKeys_nil : putKeys ([] : List (Entry κ α)) = [] := rfl

theorem putKeys_append (l l' : List (Entry κ α)) : putKeys (l ++ l') = putKeys l ++ putKeys l' := by
  simp [putKeys]

@[simp] theorem putKeys_concat_put (l : List (Entry κ α)) (k : κ) (a : α) :
    putKeys (l ++ [.put k a]) = putKeys l ++ [k] := putKeys_append l _

@[simp] theorem putKeys_concat_del (l : List (Entry κ α)) (k : κ) : putKeys (l ++ [.del k]) = putKeys l := by
  rw [putKeys_append]
  exact append_nil _

theorem putKeys_map (f : α → β) (l : List (Entry κ α)) : putKeys (l.map (Entry.map f)) = putKeys l := by
  simp [putKeys, filterMap_map]

variable [DecidableEq κ]

/-- The value each key is left with. -/
def final (l : List (Entry κ α)) : κ → Option α := l.foldl Entry.apply fun _ => none

/-- The live value of each key put, in the order of the puts. -/
def replay (l : List (Entry κ α)) : List α := (putKeys l).filterMap (final l)

/-- The puts of the values a replay returns. -/
def compact (l : List (Entry κ α)) : List (Entry κ α) :=
  (putKeys l).filterMap fun k => (final l k).map (.put k)

@[simp] theorem final_nil : final ([] : List (Entry κ α)) = fun _ => none := rfl

@[simp] theorem replay_nil : replay ([] : List (Entry κ α)) = [] := rfl

theorem final_concat (l : List (Entry κ α)) (e : Entry κ α) : final (l ++ [e]) = e.apply (final l) := by
  simp [final]

@[simp] theorem final_concat_put (l : List (Entry κ α)) (k : κ) (a : α) :
    final (l ++ [.put k a]) = update (final l) k (some a) := final_concat l _

@[simp] theorem final_concat_del (l : List (Entry κ α)) (k : κ) :
    final (l ++ [.del k]) = update (final l) k none := final_concat l _

theorem final_concat_of_ne {e : Entry κ α} (h : e.key ≠ k) : final (l ++ [e]) k = final l k := by
  rw [final_concat]
  cases e <;> exact update_of_ne (Ne.symm h) _ _

theorem final_append_of_ne {l : List (Entry κ α)} {k : κ} {l' : List (Entry κ α)}
    (h : ∀ e ∈ l', e.key ≠ k) : final (l ++ l') k = final l k := by
  induction l' using reverseRecOn with
  | nil => simp
  | append_singleton l' e ih =>
    rw [← append_assoc, final_concat_of_ne (h e (by simp)), ih fun e' he => h e' (by simp [he])]

theorem final_append_of_mem {l l' : List (Entry κ α)} {k : κ} (h : ∃ e ∈ l', e.key = k) :
    final (l ++ l') k = final l' k := by
  induction l' using reverseRecOn with
  | nil => simp at h
  | append_singleton l' e ih =>
    rw [← append_assoc]
    by_cases he : e.key = k
    · cases e with
      | put k' a => rw [show k' = k from he, final_concat_put, final_concat_put, update_self, update_self]
      | del k' => rw [show k' = k from he, final_concat_del, final_concat_del, update_self, update_self]
    · rw [final_concat_of_ne he, final_concat_of_ne he]
      refine ih ?_
      obtain ⟨e', he', hk⟩ := h
      rcases mem_append.mp he' with he' | he'
      · exact ⟨e', he', hk⟩
      · exact absurd (mem_singleton.mp he' ▸ hk) he

theorem final_append_eq_none {l l' : List (Entry κ α)} {k : κ} (h : final l k = none) (hput : ∀ a, .put k a ∉ l') :
    final (l ++ l') k = none := by
  induction l' using reverseRecOn with
  | nil => simpa using h
  | append_singleton l' e ih =>
    have ih := ih fun a ha => hput a (by simp [ha])
    rw [← append_assoc]
    by_cases he : e.key = k
    · cases e with
      | put k' a => exact absurd (by simp [show k' = k from he]) (hput a)
      | del k' => rw [show k' = k from he, final_concat_del, update_self]
    · rw [final_concat_of_ne he, ih]

theorem final_append_of_put {l l' : List (Entry κ α)} {k : κ} {a : α} (h : ∀ e ∈ l', e.key = k → e = .put k a)
    (hput : final l k = some a ∨ .put k a ∈ l') : final (l ++ l') k = some a := by
  induction l' using reverseRecOn with
  | nil => simpa using hput
  | append_singleton l' e ih =>
    rw [← append_assoc]
    by_cases he : e.key = k
    · rw [h e (by simp) he, final_concat_put, update_self]
    · rw [final_concat_of_ne he]
      refine ih (fun e' he' => h e' (by simp [he'])) (hput.imp_right fun hm => ?_)
      rcases mem_append.mp hm with hm | hm
      · exact hm
      · exact absurd (mem_singleton.mp hm ▸ rfl) he

theorem final_eq_some_iff {l : List (Entry κ α)} :
    final l k = some a ↔ l.reverse.find? (fun e => e.key = k) = some (.put k a) := by
  induction l using reverseRecOn with
  | nil => simp
  | append_singleton l e ih =>
    rw [reverse_append, reverse_singleton, singleton_append, find?_cons]
    by_cases he : e.key = k
    · subst he
      cases e <;> simp [Entry.key]
    · rw [final_concat_of_ne he, ih]
      simp [he]

theorem mem_putKeys_of_final {l : List (Entry κ α)} {k : κ} {a : α} (h : final l k = some a) : k ∈ putKeys l := by
  induction l using reverseRecOn with
  | nil => simp at h
  | append_singleton l e ih =>
    rw [putKeys_append, mem_append]
    by_cases he : e.key = k
    · cases e with
      | put k' a' => right; simp only [Entry.key] at he; simp [putKeys, Entry.putKey?, he]
      | del k' => simp only [Entry.key] at he; simp [he] at h
    · exact .inl (ih (by rwa [final_concat_of_ne he] at h))

theorem mem_replay {l : List (Entry κ α)} {a : α} : a ∈ replay l ↔ ∃ k, final l k = some a := by
  simp only [replay, mem_filterMap]
  constructor
  · rintro ⟨k, -, h⟩; exact ⟨k, h⟩
  · rintro ⟨k, h⟩; exact ⟨k, mem_putKeys_of_final h, h⟩

theorem replay_concat_put {l : List (Entry κ α)} {k : κ} (h : k ∉ putKeys l) (a : α) :
    replay (l ++ [.put k a]) = replay l ++ [a] := by
  have hold : (putKeys l).filterMap (update (final l) k (some a)) = replay l :=
    filterMap_congr fun k' hk' => update_of_ne (ne_of_mem_of_not_mem hk' h) _ _
  rw [replay, putKeys_concat_put, final_concat_put, filterMap_append, hold]
  simp

theorem replay_concat_del {key : α → κ} (hkey : ∀ {k a}, final l k = some a → key a = k)
    (k : κ) : replay (l ++ [.del k]) = (replay l).filter fun a => key a ≠ k := by
  rw [replay, putKeys_concat_del, final_concat_del, replay, filter_filterMap]
  refine filterMap_congr fun k' _ => ?_
  by_cases he : k' = k
  · subst he
    rw [update_self]
    refine (eq_none_iff_forall_ne_some.mpr fun a ha => ?_).symm
    obtain ⟨ha, hne⟩ := filter_eq_some_iff.mp ha
    exact of_decide_eq_true hne (hkey ha)
  · rw [update_of_ne he]
    cases hf : final l k' with
    | none => rfl
    | some a => simp [Option.filter, hkey hf, he]

theorem final_of_forall {P : κ → α → Prop} {l} (h : ∀ k a, .put k a ∈ l → P k a) {k a}
    (hf : final l k = some a) : P k a := by
  induction l using reverseRecOn with
  | nil => simp at hf
  | append_singleton l e ih =>
    by_cases he : e.key = k
    · cases e with
      | put k' a' =>
        simp only [Entry.key] at he
        subst he
        simp only [final_concat_put, update_self, some.injEq] at hf
        subst hf
        exact h _ _ (by simp)
      | del k' => simp only [Entry.key] at he; simp [he] at hf
    · rw [final_concat_of_ne he] at hf
      exact ih (fun k a hm => h k a (by simp [hm])) hf

/-- How often a replay returns the value of a key: once for each of its puts
if it is live, and never if it is not. The values must tell their keys. -/
theorem count_replay [BEq κ] [LawfulBEq κ] {key : α → κ} (hkey : ∀ {k a}, final l k = some a → key a = k)
    (k : κ) : ((replay l).map key).count k = if final l k = none then 0 else (putKeys l).count k := by
  have hcount : ∀ ks : List κ, ((ks.filterMap (final l)).map key).count k = if final l k =
    none then 0 else ks.count k := by
    intro ks
    induction ks with
    | nil => simp
    | cons k' ks ih =>
      cases hk' : final l k' with
      | none =>
        rw [filterMap_cons_none hk', ih]
        split
        · rfl
        next hlive =>
          have hne : k' ≠ k := fun he => hlive (he ▸ hk')
          rw [count_cons_of_ne hne]
      | some a =>
        rw [filterMap_cons_some hk', map_cons, hkey hk']
        by_cases he : k' = k
        · subst he
          rw [count_cons_self, count_cons_self, ih, if_neg (by simp [hk']), if_neg (by simp [hk'])]
        · rw [count_cons_of_ne he, count_cons_of_ne he, ih]
  exact hcount (putKeys l)

/-! ## Replaying a mapped log -/

theorem final_map (f : α → β) (l : List (Entry κ α)) (k : κ) : final (l.map (Entry.map f)) k = (final l k).map f := by
  induction l using reverseRecOn with
  | nil => rfl
  | append_singleton l e ih =>
    rw [map_append, map_singleton]
    cases e with
    | put k' a | del k' =>
      by_cases hk : k = k'
      · subst hk; simp [Entry.map]
      · simp [Entry.map, update_of_ne hk, ih]

theorem replay_map (f : α → β) (l : List (Entry κ α)) : replay (l.map (Entry.map f)) = (replay l).map f := by
  rw [replay, putKeys_map, replay, map_filterMap]
  exact filterMap_congr fun k _ => final_map f l k

/-! ## Compaction -/

/-- A log of puts that agree with a table leaves each key it puts with the
table's value. -/
theorem final_of_agree {m : κ → Option α} (h : ∀ e ∈ l, ∃ k a, e = .put k a ∧ m k = some a) (k : κ) :
    final l k = if k ∈ putKeys l then m k else none := by
  induction l using reverseRecOn with
  | nil => simp
  | append_singleton l e ih =>
    obtain ⟨k', a, rfl, ha⟩ := h e (by simp)
    have ih := ih fun e he => h e (by simp [he])
    by_cases hk : k = k'
    · subst hk; simp [ha]
    · simp [ih, hk]

theorem putKeys_compact (l : List (Entry κ α)) :
    putKeys (compact l) = (putKeys l).filter fun k => (final l k).isSome := by
  rw [putKeys, compact, filterMap_filterMap, ← filterMap_eq_filter]
  refine filterMap_congr fun k _ => ?_
  cases hk : final l k <;> simp [hk, Entry.putKey?, Option.guard]

theorem final_compact (l : List (Entry κ α)) (k : κ) : final (compact l) k = final l k := by
  rw [final_of_agree (m := final l), putKeys_compact]
  · cases hk : final l k with
    | none => simp
    | some a => simp [mem_putKeys_of_final hk, hk]
  · intro e he
    simp only [compact, mem_filterMap, map_eq_some_iff] at he
    obtain ⟨k, -, a, ha, rfl⟩ := he
    exact ⟨k, a, rfl, ha⟩

/-- **Compaction is invisible to a replay**: the same values, in the same
order, as often. -/
theorem replay_compact (l : List (Entry κ α)) : replay (compact l) = replay l := by
  have hf : final (compact l) = final l := funext (final_compact l)
  rw [replay, hf, putKeys_compact, replay, filterMap_filter]
  refine filterMap_congr fun k _ => ?_
  cases final l k <;> simp

end KeyedLog
