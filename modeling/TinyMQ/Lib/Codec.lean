/-
Text encodings of bytes and numbers: hexadecimal digits, base64 with
padding, decimal numbers. What is written is read back, and it is written
with letters, digits and a few signs only.
-/
import Mathlib.Data.Nat.Digits.Lemmas
import Mathlib.Data.List.TakeWhile

namespace Codec

open List Option

/-- The bytes an encoding writes: a letter, a digit, or one of `+ - / = _`. -/
def isPlain (c : UInt8) : Bool :=
  (65 ≤ c && c ≤ 90) || (97 ≤ c && c ≤ 122) || (48 ≤ c && c ≤ 57) || c == 43 || c == 45 || c == 47 || c == 61 || c == 95

/-! ## Hexadecimal -/

def hexDigit (n : Nat) : UInt8 := UInt8.ofNat (if n < 10 then 48 + n else 87 + n)

def hex (bs : List UInt8) : List UInt8 := bs.flatMap fun b => [hexDigit (b.toNat / 16), hexDigit (b.toNat % 16)]

theorem isPlain_hexDigit : ∀ n < 16, isPlain (hexDigit n) = true := by decide

theorem length_hex (bs : List UInt8) : (hex bs).length = 2 * bs.length := by simp [hex, Nat.mul_comm]

theorem isPlain_hex : ∀ c ∈ hex bs, isPlain c = true := by
  intro c hc
  obtain ⟨b, -, hb⟩ := mem_flatMap.mp hc
  have hlt := b.toNat_lt
  rcases mem_cons.mp hb with rfl | hb
  · exact isPlain_hexDigit _ (by omega)
  · rw [mem_singleton.mp hb]
    exact isPlain_hexDigit _ (by omega)

/-! ## Base64 -/

def base64Char (n : Nat) : UInt8 :=
  UInt8.ofNat
    (if n < 26 then 65 + n else if n < 52 then 71 + n else if n < 62 then n - 4 else if n = 62 then 43 else 47)

def base64Value (c : UInt8) : Option Nat :=
  if 65 ≤ c ∧ c ≤ 90 then some (c.toNat - 65)
  else if 97 ≤ c ∧ c ≤ 122 then some (c.toNat - 71)
  else if 48 ≤ c ∧ c ≤ 57 then some (c.toNat + 4)
  else if c = 43 then some 62
  else if c = 47 then some 63
  else none

theorem base64Value_base64Char : ∀ n < 64, base64Value (base64Char n) = some n := by decide

theorem base64Char_plain : ∀ n < 64, isPlain (base64Char n) = true ∧ base64Char n ≠ 61 := by decide

/-- Three bytes make four characters; `=` fills up the last group. -/
def base64 : List UInt8 → List UInt8
  | [] => []
  | [a] => [base64Char (a.toNat / 4), base64Char (a.toNat % 4 * 16), 61, 61]
  | [a, b] =>
    [base64Char (a.toNat / 4), base64Char (a.toNat % 4 * 16 + b.toNat / 16), base64Char (b.toNat % 16 * 4), 61]
  | a :: b :: c :: rest =>
    base64Char (a.toNat / 4) :: base64Char (a.toNat % 4 * 16 + b.toNat / 16) ::
      base64Char (b.toNat % 16 * 4 + c.toNat / 64) :: base64Char (c.toNat % 64) :: base64 rest

def quantum (x y z w : Nat) : List UInt8 :=
  [UInt8.ofNat (x * 4 + y / 16), UInt8.ofNat (y % 16 * 16 + z / 4), UInt8.ofNat (z % 4 * 64 + w)]

/-- The groups of four characters; only the last may be filled up, and bits
that do not belong to a byte are dropped. -/
def decodeQuanta : List UInt8 → Option (List UInt8)
  | [] => some []
  | [a, b, c, d] => do
    let x ← base64Value a
    let y ← base64Value b
    if d = 61 then
      if c = 61 then some ((quantum x y 0 0).take 1)
      else do
        let z ← base64Value c
        some ((quantum x y z 0).take 2)
    else do
      let z ← base64Value c
      let w ← base64Value d
      some (quantum x y z w)
  | a :: b :: c :: d :: rest => do
    let x ← base64Value a
    let y ← base64Value b
    let z ← base64Value c
    let w ← base64Value d
    let bs ← decodeQuanta rest
    some (quantum x y z w ++ bs)
  | _ => none

/-- Line ends are skipped wherever they are. -/
def decodeBase64 (s : List UInt8) : Option (List UInt8) := decodeQuanta (s.filter fun c => c != 10 && c != 13)

theorem quantum_eq (a b c : UInt8) :
    quantum (a.toNat / 4) (a.toNat % 4 * 16 + b.toNat / 16) (b.toNat % 16 * 4 + c.toNat / 64)
    (c.toNat % 64) = [a, b, c] := by
  have ha := a.toNat_lt
  have hb := b.toNat_lt
  have hc := c.toNat_lt
  have h₁ : a.toNat / 4 * 4 + (a.toNat % 4 * 16 + b.toNat / 16) / 16 = a.toNat := by omega
  have h₂ : (a.toNat % 4 * 16 + b.toNat / 16) % 16 * 16 + (b.toNat % 16 * 4 + c.toNat / 64) / 4 =
    b.toNat := by omega
  have h₃ : (b.toNat % 16 * 4 + c.toNat / 64) % 4 * 64 + c.toNat % 64 = c.toNat := by omega
  simp only [quantum, h₁, h₂, h₃, UInt8.ofNat_toNat]

theorem decodeQuanta_base64 (bs : List UInt8) : decodeQuanta (base64 bs) = some bs := by
  fun_induction base64 bs with
  | case1 => rfl
  | case2 a =>
    have ha := a.toNat_lt
    have hq := quantum_eq a 0 0
    simp only [UInt8.toNat_zero, Nat.zero_div, Nat.add_zero, Nat.zero_mod, Nat.zero_mul] at hq
    simp [decodeQuanta, base64Value_base64Char _ (show a.toNat / 4 < 64 by omega),
      base64Value_base64Char _ (show a.toNat % 4 * 16 < 64 by omega), hq]
  | case3 a b =>
    have ha := a.toNat_lt
    have hb := b.toNat_lt
    have hq := quantum_eq a b 0
    simp only [UInt8.toNat_zero, Nat.zero_div, Nat.add_zero, Nat.zero_mod] at hq
    have hne := (base64Char_plain (b.toNat % 16 * 4) (by omega)).2
    simp [decodeQuanta, base64Value_base64Char _ (show a.toNat / 4 < 64 by omega),
      base64Value_base64Char _ (show a.toNat % 4 * 16 + b.toNat / 16 < 64 by omega),
      base64Value_base64Char _ (show b.toNat % 16 * 4 < 64 by omega), hne, hq]
  | case4 a b c rest ih =>
    have ha := a.toNat_lt
    have hb := b.toNat_lt
    have hc := c.toNat_lt
    have hx := base64Value_base64Char _ (show a.toNat / 4 < 64 by omega)
    have hy := base64Value_base64Char _ (show a.toNat % 4 * 16 + b.toNat / 16 < 64 by omega)
    have hz := base64Value_base64Char _ (show b.toNat % 16 * 4 + c.toNat / 64 < 64 by omega)
    have hw := base64Value_base64Char _ (show c.toNat % 64 < 64 by omega)
    have hne := (base64Char_plain (c.toNat % 64) (by omega)).2
    -- The group is the last one or not.
    cases hrest : base64 rest with
    | nil =>
      rw [hrest] at ih
      cases ih
      simp [decodeQuanta, hx, hy, hz, hw, hne, quantum_eq]
    | cons d ds =>
      rw [hrest] at ih
      simp [decodeQuanta, hx, hy, hz, hw, ih, quantum_eq]

theorem length_base64 (bs : List UInt8) : (base64 bs).length = 4 * ((bs.length + 2) / 3) := by
  fun_induction base64 bs with
  | case1 => rfl
  | case2 a => simp
  | case3 a b => simp
  | case4 a b c rest ih =>
    simp only [length_cons, ih]
    omega

theorem isPlain_base64 (bs : List UInt8) : ∀ c ∈ base64 bs, isPlain c = true := by
  have hchar : ∀ n < 64, isPlain (base64Char n) = true := fun n hn => (base64Char_plain n hn).1
  have hpad : isPlain 61 = true := by decide
  fun_induction base64 bs with
  | case1 => simp
  | case2 a =>
    have ha := a.toNat_lt
    simp [hchar _ (show a.toNat / 4 < 64 by omega), hchar _ (show a.toNat % 4 * 16 < 64 by omega), hpad]
  | case3 a b =>
    have ha := a.toNat_lt
    have hb := b.toNat_lt
    simp [hchar _ (show a.toNat / 4 < 64 by omega),
      hchar _ (show a.toNat % 4 * 16 + b.toNat / 16 < 64 by omega),
      hchar _ (show b.toNat % 16 * 4 < 64 by omega), hpad]
  | case4 a b c rest ih =>
    have ha := a.toNat_lt
    have hb := b.toNat_lt
    have hc := c.toNat_lt
    simpa [hchar _ (show a.toNat / 4 < 64 by omega),
      hchar _ (show a.toNat % 4 * 16 + b.toNat / 16 < 64 by omega),
      hchar _ (show b.toNat % 16 * 4 + c.toNat / 64 < 64 by omega),
        hchar _ (show c.toNat % 64 < 64 by omega)] using ih

theorem not_lineEnd_of_isPlain (h : isPlain c = true) : (c != 10 && c != 13) = true := by
  by_cases h10 : c = 10
  · subst h10
    exact absurd h (by decide)
  by_cases h13 : c = 13
  · subst h13
    exact absurd h (by decide)
  simp [h10, h13]

/-- **What is encoded is decoded.** -/
theorem decodeBase64_base64 (bs : List UInt8) : decodeBase64 (base64 bs) = some bs := by
  have hall : (base64 bs).filter (fun c => c != 10 && c != 13) = base64 bs :=
    filter_eq_self.mpr fun c hc => not_lineEnd_of_isPlain (isPlain_base64 bs c hc)
  rw [decodeBase64, hall, decodeQuanta_base64]

theorem isPlain_of_base64Value (h : base64Value c = some n) : isPlain c = true := by
  unfold base64Value at h
  unfold isPlain
  split at h
  next hc => simp [hc]
  next =>
    split at h
    next hc => simp [hc]
    next =>
      split at h
      next hc => simp [hc]
      next =>
        split at h
        next hc => simp [hc]
        next =>
          split at h
          next hc => simp [hc]
          next => cases h

theorem length_quantum (x y z w : Nat) : (quantum x y z w).length = 3 := rfl

/-- What is decoded is shorter by a quarter, and only the signs of the
encoding are decoded. -/
theorem decodeQuanta_spec (h : decodeQuanta s = some d) :
    4 * d.length ≤ 3 * s.length ∧ ∀ c ∈ s, isPlain c = true := by
  have hpad : isPlain 61 = true := by decide
  fun_induction decodeQuanta s generalizing d with
  | case1 =>
    cases h
    exact ⟨Nat.le_refl _, fun c hc => absurd hc not_mem_nil⟩
  | case2 a b c e =>
    obtain ⟨x, ha, h⟩ := bind_eq_some_iff.mp h
    obtain ⟨y, hb, h⟩ := bind_eq_some_iff.mp h
    have hfirst := And.intro (isPlain_of_base64Value ha) (isPlain_of_base64Value hb)
    split at h
    next he =>
      split at h
      next hc =>
        cases h
        simp [length_quantum, hfirst, he, hc, hpad]
      next =>
        obtain ⟨z, hc, h⟩ := bind_eq_some_iff.mp h
        cases h
        simp [length_quantum, hfirst, he, hpad, isPlain_of_base64Value hc]
    next =>
      obtain ⟨z, hc, h⟩ := bind_eq_some_iff.mp h
      obtain ⟨w, he, h⟩ := bind_eq_some_iff.mp h
      cases h
      simp [length_quantum, hfirst, isPlain_of_base64Value hc, isPlain_of_base64Value he]
  | case3 a b c e rest hrest ih =>
    obtain ⟨x, ha, h⟩ := bind_eq_some_iff.mp h
    obtain ⟨y, hb, h⟩ := bind_eq_some_iff.mp h
    obtain ⟨z, hc, h⟩ := bind_eq_some_iff.mp h
    obtain ⟨w, he, h⟩ := bind_eq_some_iff.mp h
    obtain ⟨bs, hbs, h⟩ := bind_eq_some_iff.mp h
    cases h
    obtain ⟨hlen, hplain⟩ := ih hbs
    refine ⟨?_, ?_⟩
    · simp only [length_append, length_quantum, length_cons]
      omega
    · simpa [isPlain_of_base64Value ha, isPlain_of_base64Value hb, isPlain_of_base64Value hc,
        isPlain_of_base64Value he] using hplain
  | case4 => cases h

theorem eq_nil_of_decodeBase64_self (h : decodeBase64 s = some s) : s = [] := by
  have hlen := (decodeQuanta_spec h).1
  have hfilter := length_filter_le (fun c : UInt8 => c != 10 && c != 13) s
  exact length_eq_zero_iff.mp (by omega)

theorem decodeBase64_eq_none (hc : c ∈ s) (hplain : isPlain c = false)
    (hline : (c != 10 && c != 13) = true) : decodeBase64 s = none := by
  by_contra h
  obtain ⟨d, hd⟩ := ne_none_iff_exists'.mp h
  have hall := (decodeQuanta_spec hd).2 c (mem_filter.mpr ⟨hc, hline⟩)
  cases hplain.symm.trans hall

/-! ## Decimal numbers -/

def digit (d : Nat) : UInt8 := UInt8.ofNat (48 + d)

def decimal (n : Nat) : List UInt8 := if n = 0 then [48] else (Nat.digits 10 n).reverse.map digit

def formatInt (z : Int) : List UInt8 := if z < 0 then 45 :: decimal z.natAbs else decimal z.natAbs

def isDigit (c : UInt8) : Bool := 48 ≤ c && c ≤ 57

def value (ds : List UInt8) : Nat := ds.foldl (fun n c => n * 10 + (c.toNat - 48)) 0

/-- A sign, or none, before a number. -/
def scanSign (s : List UInt8) : Bool × List UInt8 :=
  if s.head? = some 45 then (true, s.tail) else if s.head? = some 43 then (false, s.tail) else (false, s)

/-- A sign, or none, and a number; what follows is not looked at. -/
def scanInt (s : List UInt8) : Option Int :=
  let (negative, s) := scanSign s
  let ds := s.takeWhile isDigit
  if ds = [] then none
  else
    let z : Int := if negative then -(value ds) else value ds
    if -2 ^ 63 ≤ z ∧ z < 2 ^ 63 then some z else none

theorem digit_spec : ∀ d < 10, isDigit (digit d) = true ∧ (digit d).toNat - 48 = d := by decide

theorem decimal_spec (n : Nat) : (∀ c ∈ decimal n, isDigit c = true) ∧ value (decimal n) = n ∧ decimal n ≠ [] := by
  unfold decimal
  split
  next h =>
    subst h
    exact ⟨fun c hc => by rw [mem_singleton.mp hc]; decide, by decide, by decide⟩
  next h =>
    have hlt : ∀ d ∈ Nat.digits 10 n, d < 10 := fun d hd => Nat.digits_lt_base (by omega) hd
    refine ⟨?_, ?_, by simpa [Nat.digits_eq_nil_iff_eq_zero] using h⟩
    · intro c hc
      obtain ⟨d, hd, rfl⟩ := List.mem_map.mp hc
      exact (digit_spec d (hlt d (mem_reverse.mp hd))).1
    · -- The digits come with the lowest first.
      have hfold : ∀ ds : List Nat, (∀ d ∈ ds, d < 10) → value (ds.reverse.map digit) =
        Nat.ofDigits 10 ds := by
        intro ds hds
        rw [value, foldl_map, foldl_reverse]
        induction ds with
        | nil => rfl
        | cons d ds ih =>
          have hd := (digit_spec d (hds d (by simp))).2
          rw [foldr_cons, ih fun d' hd' => hds d' (by simp [hd']), hd, Nat.ofDigits_cons]
          omega
      rw [hfold _ hlt, Nat.ofDigits_digits]

theorem length_decimal_le (hk : 0 < k) (h : n < 10 ^ k) : (decimal n).length ≤ k := by
  unfold decimal
  split
  next => exact hk
  next =>
    rw [length_map, length_reverse]
    exact (Nat.digits_length_le_iff (by decide) n).mpr h

theorem length_formatInt_le (hk : 0 < k) (h : z.natAbs < 10 ^ k) : (formatInt z).length ≤ k + 1 := by
  have hlen := length_decimal_le hk h
  unfold formatInt
  split
  · simpa using hlen
  · omega

theorem scanSign_decimal (n : Nat) : scanSign (decimal n) = (false, decimal n) := by
  obtain ⟨hdigits, -, hne⟩ := decimal_spec n
  obtain ⟨c, cs, hc⟩ := exists_cons_of_ne_nil hne
  have hdigit : isDigit c = true := hdigits c (by rw [hc]; exact mem_cons_self)
  have h45 : c ≠ 45 := by
    rintro rfl
    exact absurd hdigit (by decide)
  have h43 : c ≠ 43 := by
    rintro rfl
    exact absurd hdigit (by decide)
  simp [scanSign, hc, h45, h43]

/-- **A number that is written is read back.** -/
theorem scanInt_formatInt (h : -2 ^ 63 ≤ z ∧ z < 2 ^ 63) : scanInt (formatInt z) = some z := by
  obtain ⟨hdigits, hvalue, hne⟩ := decimal_spec z.natAbs
  have hall : (decimal z.natAbs).takeWhile isDigit = decimal z.natAbs :=
    takeWhile_eq_self_iff.mpr hdigits
  unfold formatInt
  split
  next hneg =>
    have hz : -((z.natAbs : Nat) : Int) = z := by omega
    have hsign : scanSign (45 :: decimal z.natAbs) = (true, decimal z.natAbs) := rfl
    simp only [scanInt, hsign, hall, hne, if_false, if_true, hvalue, hz, if_pos h]
  next hpos =>
    have hz : ((z.natAbs : Nat) : Int) = z := by omega
    simp only [scanInt, scanSign_decimal, hall, hne, if_false, hvalue, hz, if_pos h, Bool.false_eq_true]

theorem isPlain_formatInt (z : Int) : ∀ c ∈ formatInt z, isPlain c = true := by
  have hdigit : ∀ c : UInt8, isDigit c = true → isPlain c = true := by
    intro c h
    have h : (48 ≤ c && c ≤ 57) = true := h
    simp only [isPlain, h, Bool.or_true, Bool.true_or]
  obtain ⟨hdigits, -, -⟩ := decimal_spec z.natAbs
  unfold formatInt
  split
  · intro c hc
    rcases mem_cons.mp hc with rfl | hc
    · decide
    · exact hdigit c (hdigits c hc)
  · exact fun c hc => hdigit c (hdigits c hc)

end Codec
