/-
Hierarchical names and patterns over their levels.

A name is split into levels at a separator. In a pattern the level `one`
stands for any one level, and `tail` in the last place for any number of
them, but for `least` at the least. The results are about the text of a
pattern: what comes before its wildcard, if anything does, ends with a
separator, and is looked for at the start of a name.
-/
import Mathlib.Data.List.Infix
import Mathlib.Data.List.Induction

namespace Levels

open List

/-! ## Levels -/

section Levels

variable {β : Type} [DecidableEq β] {one tail : β} {least : Nat} {fs ts : List β}

/-- A pattern accepts a name, level by level. -/
def accepts (one tail : β) (least : Nat) : List β → List β → Bool
  | [], ts => ts.isEmpty
  | f :: fs, ts =>
    if f = tail ∧ fs = [] then decide (least ≤ ts.length)
    else
      match ts with
      | [] => false
      | t :: ts => (f = one || f = t) && accepts one tail least fs ts

/-- A level that stands for itself. -/
def Literal (one tail f : β) : Prop := f ≠ one ∧ f ≠ tail

/-- Levels that stand for themselves are looked for one after the other. -/
theorem accepts_append {gs : List β} (hfs : ∀ f ∈ fs, Literal one tail f) :
    accepts one tail least (fs ++ gs) ts = true ↔ ∃ us, ts = fs ++ us ∧ accepts one tail least gs us = true := by
  induction fs generalizing ts with
  | nil => simp
  | cons f fs ih =>
    obtain ⟨hone, htail⟩ := hfs f mem_cons_self
    cases ts with
    | nil => simp [accepts, htail]
    | cons t ts =>
      have hstep : accepts one tail least (f :: fs ++ gs) (t :: ts) = true ↔
          f = t ∧ accepts one tail least (fs ++ gs) ts = true := by simp [accepts, hone, htail]
      rw [hstep, ih fun g hg => hfs g (mem_cons_of_mem f hg)]
      simp only [cons_append, cons.injEq, and_assoc, exists_and_left, eq_comm]

theorem accepts_literal (hfs : ∀ f ∈ fs, Literal one tail f) : accepts one tail least fs ts = true ↔ fs = ts := by
  have h : accepts one tail least (fs ++ []) ts = true ↔ _ := accepts_append hfs
  rw [append_nil] at h
  simp only [h, accepts, List.isEmpty_iff, exists_eq_right, append_nil]
  exact eq_comm

theorem accepts_tail (hfs : ∀ f ∈ fs, Literal one tail f) :
    accepts one tail least (fs ++ [tail]) ts = true ↔ fs <+: ts ∧ fs.length + least ≤ ts.length := by
  rw [accepts_append hfs]
  constructor
  · rintro ⟨us, rfl, h⟩
    simpa [accepts] using h
  · rintro ⟨⟨us, rfl⟩, h⟩
    exact ⟨us, rfl, by simpa [accepts] using h⟩

theorem accepts_one (hone : one ≠ tail) (hfs : ∀ f ∈ fs, Literal one tail f) :
    accepts one tail least (fs ++ [one]) ts = true ↔ ∃ t, ts = fs ++ [t] := by
  rw [accepts_append hfs]
  constructor
  · rintro ⟨us, rfl, h⟩
    match us, h with
    | [t], _ => exact ⟨t, rfl⟩
    | [], h => simp [accepts, hone] at h
    | _ :: _ :: _, h => simp [accepts, hone] at h
  · rintro ⟨t, rfl⟩
    exact ⟨[t], rfl, by simp [accepts, hone]⟩

end Levels

/-! ## Names -/

section Names

variable {α : Type} {sep : α} {ls : List (List α)} {l p q t : List α}

theorem intercalate_append (hl : ls ≠ []) (hm : ms ≠ []) :
    [sep].intercalate (ls ++ ms) = [sep].intercalate ls ++ sep :: [sep].intercalate ms := by
  induction ls with
  | nil => exact absurd rfl hl
  | cons l ls ih =>
    cases ls with
    | nil =>
      obtain ⟨m, ms, rfl⟩ := exists_cons_of_ne_nil hm
      simp
    | cons l' ls =>
      have hrest := ih (by simp)
      rw [cons_append] at hrest
      rw [cons_append, cons_append, intercalate_cons_cons, hrest, intercalate_cons_cons]
      simp

variable [DecidableEq α]

theorem splitOn_inj (h : q.splitOn sep = t.splitOn sep) : q = t := by
  have hq : [sep].intercalate (q.splitOn sep) = q := intercalate_splitOn sep
  rw [← hq, h, intercalate_splitOn]

theorem mem_of_mem_splitOn {x} (hl : l ∈ q.splitOn sep) (hx : x ∈ l) : x ∈ q := by
  obtain ⟨before, after, hsplit⟩ := append_of_mem hl
  have hq : [sep].intercalate (q.splitOn sep) = q := intercalate_splitOn sep
  rw [hsplit] at hq
  rw [← hq]
  cases before with
  | nil => cases after <;> simp [hx]
  | cons b before =>
    rw [intercalate_append (by simp) (by simp)]
    cases after <;> simp [hx]

theorem splitOn_prefix_iff : q.splitOn sep <+: t.splitOn sep ↔ t = q ∨ q ++ [sep] <+: t := by
  constructor
  · rintro ⟨rest, hrest⟩
    by_cases hnil : rest = []
    · rw [hnil, append_nil] at hrest
      exact .inl (splitOn_inj hrest).symm
    · refine .inr ⟨[sep].intercalate rest, ?_⟩
      have ht : [sep].intercalate (t.splitOn sep) = t := intercalate_splitOn sep
      rw [← ht, ← hrest, intercalate_append (splitOn_ne_nil sep q) hnil,
        intercalate_splitOn, append_assoc, singleton_append]
  · rintro (rfl | ⟨rest, rfl⟩)
    · exact prefix_refl _
    · rw [append_assoc, singleton_append, splitOn_append_cons_self]
      exact prefix_append _ _

theorem exists_mem_splitOn {x} (hx : x ∈ q) (hsep : x ≠ sep) : ∃ l ∈ q.splitOn sep, x ∈ l := by
  suffices hall : ∀ ls : List (List α), x ∈ [sep].intercalate ls → ∃ l ∈ ls, x ∈ l from
    hall _ (by rwa [intercalate_splitOn])
  intro ls
  induction ls with
  | nil => simp
  | cons l ls ih =>
    intro hmem
    cases ls with
    | nil => exact ⟨l, by simp, by simpa using hmem⟩
    | cons l' ls =>
      rw [intercalate_cons_cons, mem_append, mem_append, mem_singleton] at hmem
      rcases hmem with (hl | hs) | hrest
      · exact ⟨l, by simp, hl⟩
      · exact absurd hs hsep
      · obtain ⟨m, hm, hxm⟩ := ih hrest
        exact ⟨m, mem_cons_of_mem l hm, hxm⟩

/-- A name is a stem and its last level. -/
theorem exists_stem (sep : α) (q : List α) : ∃ p l, q = p ++ l ∧ (p = [] ∨ [sep] <:+ p) ∧ sep ∉ l := by
  induction q using reverseRecOn with
  | nil => exact ⟨[], [], rfl, .inl rfl, by simp⟩
  | append_singleton q c ih =>
    by_cases hc : c = sep
    · exact ⟨q ++ [c], [], by simp, .inr (hc ▸ suffix_append _ _), by simp⟩
    · obtain ⟨p, l, rfl, hp, hl⟩ := ih
      exact ⟨p, l ++ [c], by simp, hp, by simpa [hl] using Ne.symm hc⟩

theorem splitOn_stem (hp : p = [] ∨ [sep] <:+ p) : ∃ ls, (∀ l, sep ∉ l → (p ++ l).splitOn sep = ls ++ [l]) ∧
    (∀ f ∈ ls, ∀ x ∈ f, x ∈ p) ∧ ∀ x ∈ p, x ≠ sep → ∃ f ∈ ls, x ∈ f := by
  rcases hp with rfl | ⟨q, rfl⟩
  · exact ⟨[], fun l hl => by simp [splitOn_eq_singleton hl], by simp, by simp⟩
  · refine ⟨q.splitOn sep, fun l hl => ?_, fun f hf x hx => ?_, fun x hx hsep => ?_⟩
    · rw [append_assoc, singleton_append, splitOn_append_cons_self, splitOn_eq_singleton hl]
    · exact mem_append_left _ (mem_of_mem_splitOn hf hx)
    · rcases mem_append.mp hx with hx | hx
      · exact exists_mem_splitOn hx hsep
      · exact absurd (mem_singleton.mp hx) hsep

theorem not_mem_of_mem_splitOn (hl : l ∈ q.splitOn sep) : sep ∉ l := by
  induction hn : q.length using Nat.strong_induction_on generalizing q with
  | _ n ih =>
    by_cases h : sep ∈ q
    · obtain ⟨a, b, rfl, ha⟩ := eq_append_cons_of_mem h
      rw [splitOn_append_cons_self, splitOn_eq_singleton ha, singleton_append, mem_cons] at hl
      rcases hl with rfl | hl
      · exact ha
      · exact ih b.length (by simp at hn; omega) hl rfl
    · rw [splitOn_eq_singleton h, mem_singleton] at hl
      exact hl ▸ h

end Names

/-! ## Patterns with a wildcard at their end -/

section Patterns

variable {α : Type} [DecidableEq α] {sep one tail : α} {least : Nat} {p q t : List α}

def nameAccepts (sep one tail : α) (least : Nat) (pattern name : List α) : Bool :=
  accepts [one] [tail] least (pattern.splitOn sep) (name.splitOn sep)

omit [DecidableEq α] in
theorem literal_of_stem {ls : List (List α)} (hone : one ∉ p) (htail : tail ∉ p) (hletters : ∀ f ∈ ls, ∀ x ∈ f, x ∈ p) :
    ∀ f ∈ ls, Literal [one] [tail] f := fun f hf =>
  ⟨fun h => hone (hletters f hf one (by simp [h])), fun h => htail (hletters f hf tail (by simp [h]))⟩

theorem nameAccepts_literal (hone : one ∉ p) (htail : tail ∉ p) :
    nameAccepts sep one tail least p t = true ↔ p = t := by
  rw [nameAccepts, accepts_literal (literal_of_stem hone htail fun _ hf _ hx => mem_of_mem_splitOn hf hx)]
  exact ⟨splitOn_inj, fun h => by rw [h]⟩

/-- A wildcard that does not fill its level stands for itself. -/
theorem nameAccepts_inner {l c} (hp : p = [] ∨ [sep] <:+ p) (hl : sep ∉ l) (hc : c ≠ sep) (hne : l ≠ [])
    (hone : one ∉ p) (htail : tail ∉ p) :
    nameAccepts sep one tail least (p ++ (l ++ [c])) t = true ↔ p ++ (l ++ [c]) = t := by
  obtain ⟨ls, hsplit, hletters, -⟩ := splitOn_stem hp
  rw [nameAccepts, accepts_literal ?_]
  · exact ⟨splitOn_inj, fun h => by rw [h]⟩
  intro f hf
  rw [hsplit _ (by simpa [hl] using Ne.symm hc), mem_append, mem_singleton] at hf
  rcases hf with hf | rfl
  · exact literal_of_stem hone htail hletters f hf
  · -- It is longer than a wildcard.
    have hlong : ∀ x, l ++ [c] ≠ [x] := fun x h => by simp [append_eq_singleton_iff, hne] at h
    exact ⟨hlong one, hlong tail⟩

/-- A stem and `tail`: the names that start with the stem, and the stem's own
name if no further level is needed. -/
theorem nameAccepts_tail (hp : p = [] ∨ [sep] <:+ p) (hone : one ∉ p) (htail : tail ∉ p) (hsep : tail ≠ sep)
    (hleast : least ≤ 1) :
    nameAccepts sep one tail least (p ++ [tail]) t = true ↔ p <+: t ∨ least = 0 ∧ p = t ++ [sep] := by
  have hlast : ([tail] : List α).splitOn sep = [[tail]] :=
    splitOn_eq_singleton (by simpa using Ne.symm hsep)
  have hpos := length_pos_of_ne_nil (splitOn_ne_nil sep t)
  rcases hp with rfl | ⟨q, rfl⟩
  · have htrue : accepts [one] [tail] least ([] ++ [[tail]]) (t.splitOn sep) = true ↔
        [] <+: t.splitOn sep ∧ ([] : List (List α)).length + least ≤ (t.splitOn sep).length :=
          accepts_tail (by simp)
    rw [nameAccepts, nil_append, hlast]
    simp only [nil_append] at htrue
    simp only [htrue, nil_prefix, length_nil, true_and, true_or, iff_true]
    omega
  · have hq : one ∉ q ∧ tail ∉ q := by
      simp only [mem_append, not_or] at hone htail
      exact ⟨hone.1, htail.1⟩
    rw [nameAccepts, append_assoc, singleton_append, splitOn_append_cons_self, hlast,
      accepts_tail (literal_of_stem hq.1 hq.2 fun _ hf _ hx => mem_of_mem_splitOn hf hx),
        splitOn_prefix_iff, append_cancel_right_eq]
    constructor
    · rintro ⟨rfl | hlong, hlen⟩
      · exact .inr ⟨by omega, rfl⟩
      · exact .inl hlong
    · rintro (hlong | ⟨rfl, rfl⟩)
      · refine ⟨.inr hlong, ?_⟩
        obtain ⟨rest, rfl⟩ := hlong
        have hrest := length_pos_of_ne_nil (splitOn_ne_nil sep rest)
        rw [append_assoc, singleton_append, splitOn_append_cons_self, length_append]
        omega
      · exact ⟨.inl rfl, Nat.le_refl _⟩

/-- A stem and `one`: the names that start with the stem and have one level
behind it. -/
theorem nameAccepts_one (hp : p = [] ∨ [sep] <:+ p) (hone : one ∉ p) (htail : tail ∉ p) (hsep : one ≠ sep)
    (hne : one ≠ tail) : nameAccepts sep one tail least (p ++ [one]) t = true ↔ p <+: t ∧ sep ∉ t.drop p.length := by
  obtain ⟨ls, hsplit, hletters, -⟩ := splitOn_stem hp
  rw [nameAccepts, hsplit _ (by simpa using Ne.symm hsep),
    accepts_one (by simpa using hne) (literal_of_stem hone htail hletters)]
  constructor
  · rintro ⟨l, hl⟩
    have hsep := not_mem_of_mem_splitOn (l := l) (by rw [hl]; simp)
    obtain rfl := splitOn_inj (hl.trans (hsplit l hsep).symm)
    exact ⟨prefix_append .., by rwa [drop_left]⟩
  · rintro ⟨⟨l, rfl⟩, hl⟩
    rw [drop_left] at hl
    exact ⟨l, hsplit l hl⟩

end Patterns

end Levels
