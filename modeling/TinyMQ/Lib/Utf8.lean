/-
UTF-8 (RFC 3629), and its repair: every byte that starts no well-formed
character becomes U+FFFD.

The repair leaves exactly the well-formed texts alone (`sanitize_eq_self`);
where it does something, the lead byte of U+FFFD shows (`replaced`).
-/
import Mathlib.Data.List.Basic

namespace Utf8

open List

variable {n : Nat} {s c : List UInt8} {b : UInt8} {cs : List (List UInt8)}

def isTail (b : UInt8) : Bool := 0x80 ≤ b && b ≤ 0xBF

/-- What follows the lead byte of a character of more than one byte: the
range of the next byte, and how many continuation bytes come after it. -/
def lead (a : UInt8) : Option (UInt8 × UInt8 × Nat) :=
  if 0xC2 ≤ a ∧ a ≤ 0xDF then some (0x80, 0xBF, 0)
  else if a = 0xE0 then some (0xA0, 0xBF, 1)
  else if a = 0xED then some (0x80, 0x9F, 1)
  else if 0xE1 ≤ a ∧ a ≤ 0xEF then some (0x80, 0xBF, 1)
  else if a = 0xF0 then some (0x90, 0xBF, 2)
  else if 0xF1 ≤ a ∧ a ≤ 0xF3 then some (0x80, 0xBF, 2)
  else if a = 0xF4 then some (0x80, 0x8F, 2)
  else none

/-- How many bytes follow the first one of the character a text starts with,
if that is well-formed. -/
def charTail : List UInt8 → Option Nat
  | [] => none
  | a :: s =>
    if a < 0x80 then some 0
    else
      match lead a, s with
      | some (lo, hi, n), b :: s =>
        if (lo ≤ b && b ≤ hi) && n ≤ s.length && (s.take n).all isTail then some (n + 1) else none
      | _, _ => none

def replacement : List UInt8 := [0xEF, 0xBF, 0xBD]

/-- The repair behind the first byte of a character, of which `n` bytes are
still to come. -/
def sanitizeFrom : Nat → List UInt8 → List UInt8
  | _, [] => []
  | n + 1, b :: s => b :: sanitizeFrom n s
  | 0, b :: s =>
    match charTail (b :: s) with
    | some n => b :: sanitizeFrom n s
    | none => replacement ++ sanitizeFrom 0 s

def sanitize (s : List UInt8) : List UInt8 := sanitizeFrom 0 s

def validFrom : Nat → List UInt8 → Bool
  | _, [] => true
  | n + 1, _ :: s => validFrom n s
  | 0, b :: s =>
    match charTail (b :: s) with
    | some n => validFrom n s
    | none => false

/-- The text is a sequence of well-formed characters. -/
def valid (s : List UInt8) : Bool := validFrom 0 s

theorem sanitizeFrom_of_valid (h : validFrom n s = true) : sanitizeFrom n s = s := by
  fun_induction validFrom n s with
  | case1 n => rfl
  | case2 n b s ih => rw [sanitizeFrom, ih h]
  | case3 b s n hchar ih => rw [sanitizeFrom, hchar]; simp only [ih h]
  | case4 b s hchar => cases h

theorem length_le_sanitizeFrom (n : Nat) (s : List UInt8) : s.length ≤ (sanitizeFrom n s).length := by
  fun_induction sanitizeFrom n s with
  | case1 n => exact Nat.le_refl _
  | case2 n b s ih => exact Nat.succ_le_succ ih
  | case3 b s n hchar ih => exact Nat.succ_le_succ ih
  | case4 b s hchar ih =>
    simp only [length_append, length_cons, replacement]
    omega

theorem sanitizeFrom_of_not_valid (h : validFrom n s = false) :
    s.length < (sanitizeFrom n s).length ∧ 0xEF ∈ sanitizeFrom n s := by
  fun_induction validFrom n s with
  | case1 n => cases h
  | case2 n b s ih =>
    obtain ⟨hlen, hmem⟩ := ih h
    exact ⟨Nat.succ_lt_succ hlen, mem_cons_of_mem b hmem⟩
  | case3 b s n hchar ih =>
    obtain ⟨hlen, hmem⟩ := ih h
    rw [sanitizeFrom, hchar]
    exact ⟨Nat.succ_lt_succ hlen, mem_cons_of_mem b hmem⟩
  | case4 b s hchar =>
    have hle := length_le_sanitizeFrom 0 s
    rw [sanitizeFrom, hchar]
    refine ⟨?_, by simp [replacement]⟩
    simp only [length_append, length_cons, replacement]
    omega

/-- **The repair leaves exactly the well-formed texts alone.** -/
theorem sanitize_eq_self : sanitize s = s ↔ valid s = true := by
  refine ⟨fun h => ?_, sanitizeFrom_of_valid⟩
  by_contra hvalid
  have hlt := (sanitizeFrom_of_not_valid (Bool.eq_false_iff.mpr hvalid)).1
  rw [show sanitizeFrom 0 s = s from h] at hlt
  exact Nat.lt_irrefl _ hlt

theorem replaced (h : valid s = false) : 0xEF ∈ sanitize s := (sanitizeFrom_of_not_valid h).2

theorem valid_of_ascii (h : ∀ c ∈ s, c < 0x80) : valid s = true := by
  rw [valid]
  induction s with
  | nil => rfl
  | cons b s ih =>
    have hb : charTail (b :: s) = some 0 := if_pos (h b mem_cons_self)
    rw [validFrom, hb]
    exact ih fun c hc => h c (mem_cons_of_mem b hc)

/-! ## Characters -/

/-- The bytes are one well-formed character. -/
def IsChar (c : List UInt8) : Prop := c ≠ [] ∧ charTail c = some (c.length - 1)

instance : DecidablePred IsChar := fun _ => inferInstanceAs (Decidable (_ ∧ _))

/-- The characters behind one of which `n` bytes are still to come. -/
def charsFrom : Nat → List UInt8 → List (Option (List UInt8))
  | _, [] => []
  | n + 1, _ :: s => charsFrom n s
  | 0, b :: s =>
    match charTail (b :: s) with
    | some n => some (b :: s.take n) :: charsFrom n s
    | none => none :: charsFrom 0 s

/-- The characters of a text, with `none` for a byte that starts none. -/
def chars (s : List UInt8) : List (Option (List UInt8)) := charsFrom 0 s

theorem charTail_take (h : charTail (b :: s) = some n) (t : List UInt8) :
    n ≤ s.length ∧ charTail (b :: (s.take n ++ t)) = some n := by
  simp only [charTail] at h ⊢
  split at h
  next hascii =>
    cases h
    exact ⟨Nat.zero_le _, if_pos hascii⟩
  next hascii =>
    rw [if_neg hascii]
    split at h
    next lo hi k b' s' hlead =>
      split at h
      next hok =>
        cases h
        simp only [Bool.and_eq_true, decide_eq_true_eq] at hok
        have hmin : min k s'.length = k := by omega
        refine ⟨by simp only [length_cons]; omega, ?_⟩
        simp [hlead, hok.1.1, hok.2, hmin]
      next => cases h
    next => cases h

theorem isChar_take (h : charTail (b :: s) = some n) : IsChar (b :: s.take n) := by
  obtain ⟨hle, htail⟩ := charTail_take h []
  rw [append_nil] at htail
  refine ⟨cons_ne_nil _ _, ?_⟩
  rw [htail, length_cons, length_take]
  simp [hle]

theorem charTail_append (h : IsChar (b :: s)) (t : List UInt8) : charTail (b :: (s ++ t)) = some s.length := by
  have htail : charTail (b :: s) = some s.length := h.2
  have h := (charTail_take htail t).2
  rwa [take_length] at h

theorem lead_ge (h : lead a = some (lo, hi, n)) : 0x80 ≤ lo := by
  simp only [lead] at h
  repeat' split at h
  all_goals cases h <;> decide

theorem IsChar.cases (h : IsChar c) : (∃ b, c = [b] ∧ b < 0x80) ∨ ∀ b ∈ c, 0x80 ≤ b := by
  cases c with
  | nil => exact absurd rfl h.1
  | cons a s =>
    have htail : charTail (a :: s) = some s.length := h.2
    simp only [charTail] at htail
    split at htail
    next hascii =>
      rw [Option.some.injEq] at htail
      rw [length_eq_zero_iff.mp htail.symm]
      exact .inl ⟨a, rfl, hascii⟩
    next hascii =>
      split at htail
      next lo hi n b s hlead =>
        split at htail
        next hok =>
          simp only [Bool.and_eq_true, decide_eq_true_eq] at hok
          rw [Option.some.injEq, length_cons, Nat.add_right_cancel_iff] at htail
          have htails : ∀ x ∈ s, 0x80 ≤ x := by
            intro x hx
            rw [htail, take_length] at hok
            have hx := List.all_eq_true.mp hok.2 x hx
            simp only [isTail, Bool.and_eq_true, decide_eq_true_eq] at hx
            exact hx.1
          refine .inr (forall_mem_cons.mpr ⟨UInt8.not_lt.mp hascii, forall_mem_cons.mpr ⟨?_, htails⟩⟩)
          exact UInt8.le_trans (lead_ge hlead) hok.1.1.1
        next => cases htail
      next => cases htail

theorem charsFrom_skip (l t : List UInt8) : charsFrom l.length (l ++ t) = charsFrom 0 t := by
  induction l with
  | nil => rfl
  | cons b l ih => exact ih

theorem chars_char (h : IsChar c) (t : List UInt8) : chars (c ++ t) = some c :: chars t := by
  cases c with
  | nil => exact absurd rfl h.1
  | cons b s =>
    rw [chars, cons_append, charsFrom, charTail_append h]
    simp only [take_left, charsFrom_skip]
    rfl

theorem chars_bad (h : charTail (b :: t) = none) : chars (b :: t) = none :: chars t := by
  rw [chars, charsFrom, h]
  rfl

/-- Induction over the characters of a text. -/
theorem chars_induction {P : List UInt8 → Prop} (nil : P []) (char : ∀ c t, IsChar c → P t → P (c ++ t))
    (bad : ∀ b t, charTail (b :: t) = none → P t → P (b :: t)) (s : List UInt8) : P s := by
  induction hn : s.length using Nat.strongRecOn generalizing s with
  | ind n ih =>
    cases s with
    | nil => exact nil
    | cons b s =>
      rw [length_cons] at hn
      cases h : charTail (b :: s) with
      | none => exact bad b s h (ih s.length (by omega) s rfl)
      | some k =>
        have hlen : (s.drop k).length ≤ s.length := by simp
        have hrest := char (b :: s.take k) (s.drop k) (isChar_take h) (ih _ (by omega) _ rfl)
        rwa [cons_append, take_append_drop] at hrest

/-- What the repair makes of a character. -/
def repair (c : Option (List UInt8)) : List UInt8 := c.getD replacement

theorem sanitizeFrom_skip (l t : List UInt8) : sanitizeFrom l.length (l ++ t) = l ++ sanitizeFrom 0 t := by
  induction l with
  | nil => rfl
  | cons b l ih => rw [length_cons, cons_append, sanitizeFrom, ih, cons_append]

theorem sanitize_char (h : IsChar c) (t : List UInt8) : sanitize (c ++ t) = c ++ sanitize t := by
  cases c with
  | nil => exact absurd rfl h.1
  | cons b s =>
    rw [sanitize, cons_append, sanitizeFrom, charTail_append h]
    simp only [sanitizeFrom_skip]
    rfl

theorem sanitize_bad (h : charTail (b :: t) = none) : sanitize (b :: t) = replacement ++ sanitize t := by
  rw [sanitize, sanitizeFrom, h]
  rfl

theorem sanitize_eq_flatMap (s : List UInt8) : sanitize s = (chars s).flatMap repair := by
  induction s using chars_induction with
  | nil => rfl
  | char c t hc ih => rw [sanitize_char hc, chars_char hc, ih, flatMap_cons]; rfl
  | bad b t hb ih =>
    rw [chars_bad hb, flatMap_cons, ← ih, sanitize_bad hb]
    rfl

theorem isChar_replacement : IsChar replacement := by decide

theorem isChar_of_mem_chars (h : some c ∈ chars s) : IsChar c := by
  induction s using chars_induction with
  | nil => cases h
  | char c' t hc' ih =>
    rw [chars_char hc', mem_cons, Option.some.injEq] at h
    rcases h with rfl | h
    · exact hc'
    · exact ih h
  | bad b t hb ih =>
    rw [chars_bad hb] at h
    exact ih ((mem_cons.mp h).resolve_left (by simp))

theorem chars_flatten (h : ∀ c ∈ cs, IsChar c) : chars cs.flatten = cs.map some := by
  induction cs with
  | nil => rfl
  | cons c cs ih =>
    rw [flatten_cons, chars_char (h c mem_cons_self), ih fun c hc => h c (mem_cons_of_mem _ hc),
      map_cons]

theorem sanitize_flatten (h : ∀ c ∈ cs, IsChar c) : sanitize cs.flatten = cs.flatten := by
  rw [sanitize_eq_flatMap, chars_flatten h, flatMap_map]
  simp [repair, flatMap_def]

end Utf8
