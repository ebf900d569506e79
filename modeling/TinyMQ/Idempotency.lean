/-
Idempotency keys: the map of `IsIdempotent`, and the requests of
`handlePublish` that have a key.

`idempotency_cache`: the map is bounded, and a key that it has taken is there
for five minutes. A key is taken before `Publish` is called, whatever the topic
is and whatever comes of it: `ignored_of_accepted` says when a request is
ignored for one that was accepted, and in `ignored_elsewhere` it is not.
-/
import TinyMQ.Data
import TinyMQ.Lib.Codec
import Mathlib.Data.List.AList

namespace TinyMQ

open List

/-- `b.idempotencyKeys`: the keys and when they expire. -/
abbrev IdempotencyKeys := AList fun _ : GoString => Time

/-- `5 * time.Minute`. -/
def keyWindow : Time := 300000000000

namespace IdempotencyKeys

variable {keys : IdempotencyKeys} {key : GoString} {now : Time}

/-- The map after the purge step: with more than 5000 keys, those that have
expired are deleted. -/
def purged (keys : IdempotencyKeys) (now : Time) : IdempotencyKeys :=
  ⟨keys.entries.filter fun e => ¬ (5000 < keys.entries.length ∧ e.2 < now), keys.nodupKeys.sublist filter_sublist⟩

def isIdempotent (keys : IdempotencyKeys) (key : GoString) (now : Time) : Bool × IdempotencyKeys :=
  if key = [] then (false, keys)
  else if (keys.lookup key).any (now < ·) then (true, keys)
  else if 20000 ≤ (keys.purged now).entries.length then (false, keys.purged now)
  else (false, (keys.purged now).insert key (now + keyWindow))

def after (calls : List (GoString × Time)) : IdempotencyKeys :=
  calls.foldl (fun keys c => (keys.isIdempotent c.1 c.2).2) ∅

theorem after_concat (calls : List (GoString × Time)) (c : GoString × Time) :
    after (calls ++ [c]) = ((after calls).isIdempotent c.1 c.2).2 := foldl_concat ..

theorem lookup_purged : (keys.purged now).lookup key = some exp ↔
    keys.lookup key = some exp ∧ (keys.entries.length ≤ 5000 ∨ now ≤ exp) := by
  rw [← Option.mem_def, ← Option.mem_def, AList.mem_lookup_iff, AList.mem_lookup_iff]
  simp [purged]

theorem length_isIdempotent (h : keys.entries.length ≤ 20000) :
    (keys.isIdempotent key now).2.entries.length ≤ 20000 := by
  have hle : (keys.purged now).entries.length ≤ keys.entries.length := length_filter_le ..
  unfold isIdempotent
  split
  · exact h
  split
  · exact h
  split
  · exact hle.trans h
  · have herase := (kerase_sublist key (keys.purged now).entries).length_le
    rw [AList.entries_insert, length_cons]
    omega

theorem isIdempotent_live (h : keys.lookup key = some exp) (hlt : now < exp) :
    (∀ other, (keys.isIdempotent other now).2.lookup key = some exp) ∧
      (key ≠ [] → (keys.isIdempotent key now).1 = true) := by
  have hpurged := lookup_purged.mpr ⟨h, .inr hlt.le⟩
  refine ⟨fun other => ?_, fun hkey => by simp [isIdempotent, hkey, h, hlt]⟩
  unfold isIdempotent
  split
  · exact h
  split
  · exact h
  split
  · exact hpurged
  next hany _ =>
    have hne : key ≠ other := by
      rintro rfl
      simp [h, hlt] at hany
    rwa [AList.lookup_insert_ne hne]

/-- **The map is bounded and forgets no live key**: a key that was new and for
which there was room is known until its five minutes are over, if the calls in
between are not later. -/
theorem idempotency_cache {before between : List (GoString × Time)} {s t : Time} (hkey : key ≠ [])
    (htimes : ∀ c ∈ between, c.2 ≤ t) :
    (after before).entries.length ≤ 20000 ∧ (((after before).isIdempotent key s).1 = false →
      ((after before).purged s).entries.length < 20000 → t < s + keyWindow →
        ((after (before ++ (key, s) :: between)).isIdempotent key t).1 = true) := by
  constructor
  · induction before using reverseRecOn with
    | nil => decide
    | append_singleton calls c ih => exact after_concat calls c ▸ length_isIdempotent ih
  · intro hnew hroom ht
    -- The call takes the key, and the others keep it.
    suffices hkept : (after (before ++ (key, s) :: between)).lookup key = some (s + keyWindow) from
      (isIdempotent_live hkept ht).2 hkey
    induction between using reverseRecOn with
    | nil =>
      simp only [isIdempotent, hkey, if_false] at hnew
      split at hnew
      · cases hnew
      next hany => simp [after_concat, isIdempotent, hkey, hany, Nat.not_le.mpr hroom]
    | append_singleton calls c ih =>
      have hle : c.2 ≤ t := htimes c (by simp)
      have hprev := ih fun c hc => htimes c (by simp [hc])
      rw [← cons_append, ← append_assoc, after_concat]
      exact (isIdempotent_live hprev (hle.trans_lt ht)).1 _

theorem idempotency_cache_sample : ascii "k" ≠ [] ∧
    ((after [(ascii "k", 0), (ascii "j", 1)]).isIdempotent (ascii "k") 2).1 = true :=
  ⟨by decide, (@idempotency_cache (ascii "k") [] [(ascii "j", 1)] 0 2 (by decide) (by decide)).2 (by decide) (by decide)
    (by decide)⟩

end IdempotencyKeys

/-! ## Requests with keys -/

/-- What `handlePublish` reads of a request, and what comes of `Publish`. -/
structure KeyedRequest where
  topic : GoString
  body : List UInt8
  /-- The header `Idempotency-Key`. -/
  header : GoString
  /-- `idempotency=auto`. -/
  auto : Bool
  now : Time
  /-- `Publish` returns no error. -/
  accepts : Bool

inductive KeyedAnswer
  | ignored
  | accepted
  | failed
  deriving DecidableEq, Repr

section Requests

variable (sha256 : List UInt8 → List UInt8) (keys : IdempotencyKeys) (r : KeyedRequest)

def KeyedRequest.iKey : GoString := if r.auto then Codec.hex (sha256 r.body) else r.header

/-- `handlePublish`, from the key on. -/
def handlePublish : KeyedAnswer × IdempotencyKeys :=
  let (known, keys) := if r.iKey sha256 = [] then (false, keys) else keys.isIdempotent (r.iKey sha256) r.now
  (if known then .ignored else if r.accepts then .accepted else .failed, keys)

def keysAfter (rs : List KeyedRequest) : IdempotencyKeys := rs.foldl (fun keys r => (handlePublish sha256 keys r).2) ∅

def answerAfter (rs : List KeyedRequest) : KeyedAnswer := (handlePublish sha256 (keysAfter sha256 rs) r).1

/-- `q` is one of the requests: what came before it, and what it was answered. -/
def Asked (rs : List KeyedRequest) (q : KeyedRequest) (a : KeyedAnswer) : Prop :=
  ∃ before after, rs = before ++ q :: after ∧ answerAfter sha256 q before = a

variable {sha256 keys r} {rs : List KeyedRequest}

theorem handlePublish_eq : handlePublish sha256 keys r =
    (if (keys.isIdempotent (r.iKey sha256) r.now).1 then .ignored else if r.accepts then .accepted else .failed,
      (keys.isIdempotent (r.iKey sha256) r.now).2) := by
  by_cases hkey : r.iKey sha256 = [] <;> simp [handlePublish, IdempotencyKeys.isIdempotent, hkey]

theorem lookup_keysAfter (h : (keysAfter sha256 rs).lookup key = some exp) :
    ∃ q a, Asked sha256 rs q a ∧ a ≠ .ignored ∧ q.iKey sha256 = key ∧ exp = q.now + keyWindow := by
  induction rs using reverseRecOn with
  | nil => cases h
  | append_singleton rs r ih =>
    have hold : (keysAfter sha256 rs).lookup key = some exp → ∃ q a, Asked sha256 (rs ++ [r]) q a ∧ a ≠ .ignored ∧
        q.iKey sha256 = key ∧ exp = q.now + keyWindow := by
      intro hl
      obtain ⟨q, a, ⟨before, after, rfl, ha⟩, hq⟩ := ih hl
      exact ⟨q, a, ⟨before, after ++ [r], by simp, ha⟩, hq⟩
    rw [keysAfter, foldl_concat, handlePublish_eq, ← keysAfter] at h
    simp only [IdempotencyKeys.isIdempotent] at h
    split at h
    · exact hold h
    split at h
    · exact hold h
    split at h
    · exact hold (IdempotencyKeys.lookup_purged.mp h).1
    next hkey hknown hroom =>
      by_cases hk : key = r.iKey sha256
      · subst hk
        rw [AList.lookup_insert] at h
        refine ⟨r, _, ⟨rs, [], rfl, rfl⟩, ?_, rfl, (Option.some.inj h).symm⟩
        rw [answerAfter, handlePublish_eq]
        cases r.accepts <;> simp [IdempotencyKeys.isIdempotent, hkey, hknown, hroom]
      · rw [AList.lookup_insert_ne hk] at h
        exact hold (IdempotencyKeys.lookup_purged.mp h).1

/-- **Ignored means accepted**, if every request before it that had the key was
ignored too, or accepted and to the same topic. -/
theorem ignored_of_accepted (h : answerAfter sha256 r rs = .ignored)
    (hsame : ∀ q a, Asked sha256 rs q a → q.iKey sha256 =
      r.iKey sha256 → a = .ignored ∨ a = .accepted ∧ q.topic = r.topic) :
    ∃ q, Asked sha256 rs q .accepted ∧ q.iKey sha256 = r.iKey sha256 ∧ q.topic = r.topic ∧
      r.now < q.now + keyWindow := by
  rw [answerAfter, handlePublish_eq] at h
  simp only [IdempotencyKeys.isIdempotent] at h
  obtain ⟨exp, hlookup, hlt⟩ : ∃ exp, (keysAfter sha256 rs).lookup (r.iKey sha256) = some exp ∧ r.now < exp := by
    cases hl : (keysAfter sha256 rs).lookup (r.iKey sha256) with
    | none => grind
    | some exp => grind
  obtain ⟨q, a, hq, ha, hkey, rfl⟩ := lookup_keysAfter hlookup
  obtain ⟨rfl, htopic⟩ := (hsame q a hq hkey).resolve_left ha
  exact ⟨q, hq, hkey, htopic, hlt⟩

end Requests

def keyedSample (topic : GoString) (accepts : Bool) : KeyedRequest := ⟨topic, [1], ascii "k", false, 0, accepts⟩

theorem ignored_of_accepted_sample : ∃ q, Asked id [keyedSample (ascii "t") true] q .accepted ∧ q.iKey id = ascii "k" ∧
    q.topic = ascii "t" ∧ 0 < q.now + keyWindow := by
  refine ignored_of_accepted (r := keyedSample (ascii "t") true) (by decide) fun q a hq _ => ?_
  obtain ⟨before, after, hsplit, rfl⟩ := hq
  obtain ⟨rfl, rfl, -⟩ := append_eq_singleton_iff.mp hsplit.symm |>.resolve_right (by simp)
  exact .inr ⟨by decide, rfl⟩

/-- **Ignored, but never accepted**: the key was used for another topic, and
`Publish` failed there. -/
theorem ignored_elsewhere : answerAfter id (keyedSample (ascii "t") false) [] = .failed ∧
    answerAfter id (keyedSample (ascii "u") true) [keyedSample (ascii "t") false] = .ignored := by
  decide

end TinyMQ
