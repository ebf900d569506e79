/-
Numbers in base 128, the lowest digit first; the high bit of a byte says
that another one follows.

The reader adds up the digits with a multiplier and takes a bounded number
of bytes. It inverts the writer on every number of so many digits
(`read_write`), whatever follows.
-/
import Mathlib.Data.List.Basic
import Mathlib.Tactic.Ring

namespace Varint

def write (n : Nat) : List UInt8 :=
  if 0 < n / 128 then ((n % 128).toUInt8 ||| 128) :: write (n / 128) else [(n % 128).toUInt8]
termination_by n
decreasing_by omega

inductive Fault
  | eof
  | tooLong
  deriving DecidableEq, Repr

/-- The loop of the reader: `k` bytes may still be read. -/
def readFrom (multiplier value : Nat) : Nat → List UInt8 → Except Fault (Nat × List UInt8)
  | 0, _ => .error .tooLong
  | _ + 1, [] => .error .eof
  | k + 1, b :: s =>
    let value := value + (b &&& 0x7F).toNat * multiplier
    if b &&& 0x80 = 0 then .ok (value, s) else readFrom (multiplier * 128) value k s

/-- A number of at most `k` bytes and what follows it. -/
def read (k : Nat) (s : List UInt8) : Except Fault (Nat × List UInt8) := readFrom 1 0 k s

theorem digit_bits : ∀ d < 128, (d.toUInt8 &&& 0x7F).toNat = d ∧ d.toUInt8 &&& 0x80 = 0 ∧
    ((d.toUInt8 ||| 128) &&& 0x7F).toNat = d ∧ (d.toUInt8 ||| 128) &&& 0x80 ≠ 0 := by decide +kernel

theorem low_bits_lt (b : UInt8) : (b &&& 0x7F).toNat < 128 := by
  have h : b.toNat &&& 0x7F ≤ 0x7F := Nat.and_le_right
  rw [UInt8.toNat_and]
  exact Nat.lt_succ_of_le h

theorem readFrom_write (multiplier value : Nat) (h : n < 128 ^ (k + 1)) (rest : List UInt8) :
    readFrom multiplier value (k + 1) (write n ++ rest) = .ok (value + n * multiplier, rest) := by
  induction k generalizing n multiplier value with
  | zero =>
    obtain ⟨hlow, hlast, -, -⟩ := digit_bits n (by simpa using h)
    have hdiv : n / 128 = 0 := by omega
    have hn : n % 128 = n := by omega
    rw [write, if_neg (by omega), hn, List.singleton_append, readFrom, if_pos hlast, hlow]
  | succ k ih =>
    obtain ⟨hlow, hlast, hlow', hmore⟩ := digit_bits (n % 128) (Nat.mod_lt _ (by decide))
    rw [Nat.pow_succ] at h
    rw [write]
    split
    next hpos =>
      have hdiv : n / 128 < 128 ^ (k + 1) := by omega
      have hsum : value + n % 128 * multiplier + n / 128 * (multiplier * 128) = value + n * multiplier := by
        conv => rhs; rw [← Nat.mod_add_div n 128]
        ring
      rw [List.cons_append, readFrom, if_neg hmore, hlow', ih _ _ hdiv, hsum]
    next hzero =>
      have hn : n % 128 = n := by omega
      rw [List.singleton_append, readFrom, if_pos hlast, hlow, hn]

/-- **What is written is read back**, whatever follows. -/
theorem read_write (hk : 0 < k) (h : n < 128 ^ k) (rest : List UInt8) : read k (write n ++ rest) = .ok (n, rest) := by
  obtain ⟨k, rfl⟩ := Nat.exists_eq_succ_of_ne_zero (by omega : k ≠ 0)
  rw [read, readFrom_write 1 0 h, Nat.zero_add, Nat.mul_one]

theorem readFrom_tooLong {digits : List UInt8} (h : ∀ b ∈ digits, b &&& 0x80 ≠ 0) (s) :
    readFrom multiplier value digits.length (digits ++ s) = .error .tooLong := by
  induction digits generalizing multiplier value with
  | nil => rfl
  | cons b digits ih =>
    rw [List.length_cons, List.cons_append, readFrom, if_neg (h b List.mem_cons_self)]
    exact ih fun b hb => h b (List.mem_cons_of_mem _ hb)

theorem readFrom_ok (h : readFrom multiplier value k s = .ok (n, rest)) :
    (∃ digits, s = digits ++ rest ∧ 0 < digits.length ∧ digits.length ≤ k) ∧
      n + multiplier ≤ value + multiplier * 128 ^ k := by
  induction k generalizing multiplier value s with
  | zero => simp [readFrom] at h
  | succ k ih =>
    cases s with
    | nil => simp [readFrom] at h
    | cons b s =>
      have hdigit : (b &&& 0x7F).toNat * multiplier + multiplier ≤ multiplier * 128 := by
        have hb := Nat.mul_le_mul_right multiplier (Nat.succ_le_of_lt (low_bits_lt b))
        rw [Nat.succ_mul] at hb
        omega
      have hpow : multiplier * 128 ≤ multiplier * 128 ^ (k + 1) :=
        Nat.mul_le_mul_left _ (Nat.le_self_pow (by omega) 128)
      rw [readFrom] at h
      split at h
      next =>
        cases h
        exact ⟨⟨[b], rfl, by simp, by simp⟩, by omega⟩
      next =>
        obtain ⟨⟨digits, rfl, -, hlen⟩, hn⟩ := ih h
        have hmul : multiplier * 128 * 128 ^ k = multiplier * 128 ^ (k + 1) := by ring
        exact ⟨⟨b :: digits, rfl, by simp, by simpa using hlen⟩, by omega⟩

theorem read_ok (h : read k s = .ok (n, rest)) :
    (∃ digits, s = digits ++ rest ∧ 0 < digits.length ∧ digits.length ≤ k) ∧ n < 128 ^ k := by
  obtain ⟨hdigits, hn⟩ := readFrom_ok h
  exact ⟨hdigits, by omega⟩

end Varint
