/-
Reading a stream of bytes: counted reads, delimited reads, numbers in
network byte order, and loops that read until they fail.

A reader takes what it needs from the front of its state or fails. `drain`
calls it again and again; when every successful call leaves less to read,
the bound on the number of calls does not show (`drain_ok`, `drain_error`).
-/
import Mathlib.Data.List.Basic
import Mathlib.Data.List.Induction
import Mathlib.Tactic.Ring

namespace Stream

open List

/-! ## Reads -/

section Reads

variable {α : Type}

/-- The next `n` elements and what follows them, if there are so many. -/
def readFull (n : Nat) (s : List α) : Option (List α × List α) :=
  if n ≤ s.length then some (s.take n, s.drop n) else none

theorem readFull_append (h : l.length = n) (rest : List α) : readFull n (l ++ rest) = some (l, rest) := by
  subst h
  simp [readFull]

theorem readFull_zero (s : List α) : readFull 0 s = some ([], s) := by simp [readFull]

theorem readFull_length (h : readFull n s = some (l, rest)) : rest.length + n = s.length := by
  unfold readFull at h
  split at h
  next hn =>
    cases h
    rw [length_drop]
    omega
  next => cases h

variable [DecidableEq α]

/-- The elements up to the first `delim`, with it, and what follows. -/
def readDelim (delim : α) : List α → Option (List α × List α)
  | [] => none
  | c :: s => if c = delim then some ([c], s) else (readDelim delim s).map fun (l, rest) => (c :: l, rest)

theorem readDelim_append (h : delim ∉ l) (rest : List α) :
    readDelim delim (l ++ delim :: rest) = some (l ++ [delim], rest) := by
  induction l with
  | nil => simp [readDelim]
  | cons c l ih =>
    obtain ⟨hc, hl⟩ := ne_and_not_mem_of_not_mem_cons h
    rw [cons_append, readDelim, if_neg (Ne.symm hc), ih hl]
    rfl

theorem readDelim_length {s l rest : List α} (h : readDelim delim s = some (l, rest)) : rest.length < s.length := by
  induction s generalizing l with
  | nil => cases h
  | cons c s ih =>
    rw [readDelim] at h
    split at h
    · cases h
      exact Nat.lt_succ_self _
    · obtain ⟨⟨l', rest'⟩, hs, h⟩ := Option.map_eq_some_iff.mp h
      cases h
      exact Nat.lt_succ_of_lt (ih hs)

end Reads

/-! ## Numbers in network byte order -/

/-- The lowest `k` bytes of a number, the highest of them first. -/
def bigEndian : Nat → Nat → List UInt8
  | 0, _ => []
  | k + 1, n => (n >>> (8 * k)).toUInt8 :: bigEndian k n

def ofBigEndian (bs : List UInt8) : Nat := bs.foldl (fun n b => n * 256 + b.toNat) 0

@[simp] theorem length_bigEndian (k n : Nat) : (bigEndian k n).length = k := by
  induction k with
  | zero => rfl
  | succ k ih => rw [bigEndian, length_cons, ih]

theorem foldl_bigEndian (acc k n : Nat) :
    (bigEndian k n).foldl (fun n b => n * 256 + b.toNat) acc = acc * 256 ^ k + n % 256 ^ k := by
  induction k generalizing acc with
  | zero => simp [bigEndian, Nat.mod_one]
  | succ k ih =>
    have hbyte : (n >>> (8 * k)).toUInt8.toNat = n / 256 ^ k % 256 := by
      rw [Nat.toUInt8_eq, UInt8.toNat_ofNat', Nat.shiftRight_eq_div_pow, Nat.pow_mul]
    rw [bigEndian, foldl_cons, ih, hbyte, Nat.pow_succ, Nat.mod_mul]
    ring

theorem ofBigEndian_bigEndian (h : n < 256 ^ k) : ofBigEndian (bigEndian k n) = n := by
  rw [ofBigEndian, foldl_bigEndian, Nat.zero_mul, Nat.zero_add, Nat.mod_eq_of_lt h]

/-- A word that is built up by shifts takes in up to eight bytes. -/
theorem toNat_foldl_shift (h : bs.length ≤ 8) :
    (bs.foldl (fun (n : UInt64) b => n <<< 8 ||| b.toUInt64) 0).toNat = ofBigEndian bs ∧
      ofBigEndian bs < 256 ^ bs.length := by
  induction bs using reverseRecOn with
  | nil => simp [ofBigEndian]
  | append_singleton bs b ih =>
    rw [length_append, length_singleton] at h
    obtain ⟨heq, hlt⟩ := ih (by omega)
    have hb := b.toNat_lt
    have hpow : 256 ^ bs.length ≤ 256 ^ 7 := Nat.pow_le_pow_right (by decide) (by omega)
    have hshift : ofBigEndian bs <<< 8 % 2 ^ 64 = ofBigEndian bs <<< 8 := by
      rw [Nat.shiftLeft_eq]
      omega
    have hor := Nat.shiftLeft_add_eq_or_of_lt (i := 8) (show b.toNat < 2 ^ 8 from hb) (ofBigEndian bs)
    have hvalue : ofBigEndian (bs ++ [b]) = ofBigEndian bs * 256 + b.toNat := by simp [ofBigEndian]
    refine ⟨?_, ?_⟩
    · rw [foldl_append, foldl_cons, foldl_nil, UInt64.toNat_or, UInt64.toNat_shiftLeft, heq,
        UInt8.toNat_toUInt64, hvalue]
      rw [show UInt64.toNat 8 % 64 = 8 from rfl, hshift, ← hor, Nat.shiftLeft_eq]
    · rw [hvalue, length_append, length_singleton, Nat.pow_succ]
      omega

/-! ## Loops -/

theorem bind_eq_ok {f : α → Except ε β} (h : (x >>= f) = .ok b) : ∃ a, x = .ok a ∧ f a = .ok b := by
  cases x with
  | error e => cases h
  | ok a => exact ⟨a, rfl, h⟩

section Paths

variable {σ α ε : Type} {read : σ → Except ε (α × σ)} {s : σ}

/-- Successful calls from one state to another, with the states they were
made in. -/
inductive Path (read : σ → Except ε (α × σ)) (s : σ) : List σ → σ → Prop
  | nil : Path read s [] s
  | snoc {l t u a} : Path read s l t → read t = .ok (a, u) → Path read s (l ++ [t]) u

/-- What only certain states can open stays closed until one of them is
passed. -/
theorem Path.closed {closed opens : σ → Prop}
    (hstep : ∀ {t a u}, closed t → ¬opens t → read t = .ok (a, u) → closed u)
    (h : Path read s l t) (hs : closed s) (hl : ∀ x ∈ l, ¬opens x) : closed t := by
  induction h with
  | nil => exact hs
  | @snoc l t u a _ ht ih =>
    refine hstep (ih fun x hx => hl x (mem_append_left _ hx)) (hl t ?_) ht
    exact mem_append_right _ (mem_singleton_self t)

end Paths

section Loops

variable {σ α ε : Type} [Inhabited ε] (read : σ → Except ε (α × σ)) (size : σ → Nat)

/-- Up to `fuel` calls of a reader: what they returned, and the error that
ended them. -/
def drainFor : Nat → σ → List α × ε
  | 0, _ => ([], default)
  | fuel + 1, s =>
    match read s with
    | .error e => ([], e)
    | .ok (a, s') => (a :: (drainFor fuel s').1, (drainFor fuel s').2)

/-- Calls of a reader until it fails. -/
def drain (s : σ) : List α × ε := drainFor read (size s + 1) s

/-- A successful call leaves less to read. -/
def Shrinks : Prop := ∀ {s a s'}, read s = .ok (a, s') → size s' < size s

variable {read size} {s : σ}

theorem drainFor_eq_drain (h : Shrinks read size) (hfuel : size s < fuel) :
    drainFor read fuel s = drain read size s := by
  suffices hall : ∀ n m s, size s < n → size s < m → drainFor read n s = drainFor read m s from
    hall _ _ _ hfuel (Nat.lt_succ_self _)
  intro n
  induction n with
  | zero => intro m s hn; omega
  | succ n ih =>
    rintro (_ | m) s hn hm
    · omega
    rw [drainFor, drainFor]
    cases hr : read s with
    | error e => rfl
    | ok r =>
      obtain ⟨a, s'⟩ := r
      have hlt := h hr
      simp only [ih m s' (by omega) (by omega)]

theorem drain_ok (h : Shrinks read size) (hr : read s = .ok (a, s')) :
    drain read size s = (a :: (drain read size s').1, (drain read size s').2) := by
  have hlt := h hr
  rw [drain, drainFor, hr]
  simp only [drainFor_eq_drain h hlt]

theorem drain_forall {P : α → Prop} (h : ∀ {s a s'}, read s = .ok (a, s') → P a) :
    ∀ a ∈ (drain read size s).1, P a := by
  suffices hall : ∀ fuel s, ∀ a ∈ (drainFor read fuel s).1, P a from hall _ s
  intro fuel
  induction fuel with
  | zero => exact fun s a ha => absurd ha not_mem_nil
  | succ fuel ih =>
    intro s a ha
    rw [drainFor] at ha
    split at ha
    next => exact absurd ha not_mem_nil
    next a₁ s₁ hs =>
      rcases mem_cons.mp ha with rfl | hrest
      · exact h hs
      · exact ih s₁ a hrest

theorem drain_error (hr : read s = .error e) : drain read size s = ([], e) := by
  rw [drain, drainFor, hr]

/-- What every successful call keeps holds of all that is returned, and of
the state of the call that fails. -/
theorem drain_invariant {I : σ → Prop} {P : α → Prop} (h : Shrinks read size)
    (hstep : ∀ {t a u}, I t → read t = .ok (a, u) → P a ∧ I u) (hs : I s) :
    (∀ a ∈ (drain read size s).1, P a) ∧ ∃ t, I t ∧ read t = .error (drain read size s).2 := by
  induction hn : size s using Nat.strong_induction_on generalizing s with
  | _ n ih =>
    cases hr : read s with
    | error e =>
      rw [drain_error hr]
      exact ⟨by simp, s, hs, hr⟩
    | ok r =>
      obtain ⟨a, t⟩ := r
      obtain ⟨ha, ht⟩ := hstep hs hr
      obtain ⟨hall, hlast⟩ := ih (size t) (hn ▸ h hr) ht rfl
      rw [drain_ok h hr]
      exact ⟨forall_mem_cons.mpr ⟨ha, hall⟩, hlast⟩

end Loops

end Stream
