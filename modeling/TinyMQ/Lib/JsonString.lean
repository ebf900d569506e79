/-
Strings in JSON texts, as `encoding/json` of Go writes and reads them.

A string is written with its control characters, quotes, backslashes and
the signs of HTML escaped, and every byte outside of UTF-8 as the escape of
U+FFFD; it is read back repaired (`unquote_quote`).
-/
import TinyMQ.Lib.Codec
import TinyMQ.Lib.Utf8

namespace JsonText

open List Option Utf8 Codec

variable {n r : Nat} {c l s : List UInt8} {b : UInt8} {ch : Option (List UInt8)}

/-! ## Strings -/

/-- The escape of a code unit: `\u` and four hexadecimal digits. -/
def hexEscape (n : Nat) : List UInt8 :=
  [92, 117, hexDigit (n / 4096 % 16), hexDigit (n / 256 % 16), hexDigit (n / 16 % 16),
    hexDigit (n % 16)]

def escapeByte (b : UInt8) : List UInt8 :=
  if b = 34 ∨ b = 92 then [92, b]
  else if b = 8 then [92, 98]
  else if b = 12 then [92, 102]
  else if b = 10 then [92, 110]
  else if b = 13 then [92, 114]
  else if b = 9 then [92, 116]
  else if b < 32 ∨ b = 60 ∨ b = 62 ∨ b = 38 then hexEscape b.toNat
  else [b]

/-- The text of a character. U+2028 and U+2029 are escaped as well. -/
def quoteChar : Option (List UInt8) → List UInt8
  | none => hexEscape 0xFFFD
  | some c =>
    if c = [0xE2, 0x80, 0xA8] then hexEscape 0x2028
    else if c = [0xE2, 0x80, 0xA9] then hexEscape 0x2029
    else c.flatMap escapeByte

/-- A string as it is written between quotes. -/
def quote (s : List UInt8) : List UInt8 := (chars s).flatMap quoteChar

def hexValue (c : UInt8) : Option Nat :=
  if 48 ≤ c ∧ c ≤ 57 then some (c.toNat - 48)
  else if 97 ≤ c ∧ c ≤ 102 then some (c.toNat - 87)
  else if 65 ≤ c ∧ c ≤ 70 then some (c.toNat - 55)
  else none

/-- The number of the four hexadecimal digits in front. -/
def hex4 : List UInt8 → Option Nat
  | a :: b :: c :: d :: _ => do
    let x ← hexValue a
    let y ← hexValue b
    let z ← hexValue c
    let w ← hexValue d
    return x * 4096 + y * 256 + z * 16 + w
  | _ => none

/-- The character of a code point; a lone surrogate is U+FFFD. -/
def encodeRune (r : Nat) : List UInt8 :=
  if r < 0x80 then [UInt8.ofNat r]
  else if r < 0x800 then [UInt8.ofNat (0xC0 + r / 64), UInt8.ofNat (0x80 + r % 64)]
  else if 0xD800 ≤ r ∧ r < 0xE000 then replacement
  else if r < 0x10000 then
    [UInt8.ofNat (0xE0 + r / 4096), UInt8.ofNat (0x80 + r / 64 % 64), UInt8.ofNat (0x80 + r % 64)]
  else
    [UInt8.ofNat (0xF0 + r / 262144), UInt8.ofNat (0x80 + r / 4096 % 64), UInt8.ofNat (0x80 + r / 64 % 64),
      UInt8.ofNat (0x80 + r % 64)]

/-- The low half of a surrogate pair, if one is written next. -/
def lowSurrogate (s : List UInt8) : Option Nat :=
  if s.take 2 = [92, 117] then (hex4 (s.drop 2)).filter fun r => 0xDC00 ≤ r && r < 0xE000 else none

/-- An escape behind its backslash: the character, and how many bytes it
takes. -/
def escape : List UInt8 → Option (List UInt8 × Nat)
  | [] => none
  | e :: s =>
    if e = 117 then
      (hex4 s).map fun r =>
        if 0xD800 ≤ r ∧ r < 0xDC00 then
          match lowSurrogate (s.drop 4) with
          | some r' => (encodeRune (0x10000 + (r - 0xD800) * 1024 + (r' - 0xDC00)), 11)
          | none => (replacement, 5)
        else (encodeRune r, 5)
    else if e = 34 ∨ e = 92 ∨ e = 47 then some ([e], 1)
    else if e = 98 then some ([8], 1)
    else if e = 102 then some ([12], 1)
    else if e = 110 then some ([10], 1)
    else if e = 114 then some ([13], 1)
    else if e = 116 then some ([9], 1)
    else none

/-- The characters of a string as it is written, when `n` bytes of the one
before are still to come. -/
def unquoteChars : Nat → List UInt8 → List (List UInt8)
  | _, [] => []
  | n + 1, _ :: s => unquoteChars n s
  | 0, b :: s =>
    if b = 92 then
      match escape s with
      | some (c, n) => c :: unquoteChars n s
      | none => unquoteChars 0 s
    else
      match charTail (b :: s) with
      | some n => (b :: s.take n) :: unquoteChars n s
      | none => replacement :: unquoteChars 0 s

def unquote (body : List UInt8) : List UInt8 := (unquoteChars 0 body).flatten

/-- How many bytes an escape takes behind its backslash. -/
def escapeLength : List UInt8 → Option Nat
  | [] => none
  | e :: s =>
    if e = 117 then if (hex4 s).isSome then some 5 else none
    else if (escape [e]).isSome then some 1 else none

/-- The text of a string, of which the next `n` bytes belong to an escape,
and what follows its closing quote. -/
def scanFrom : Nat → List UInt8 → Option (List UInt8 × List UInt8)
  | _, [] => none
  | n + 1, c :: s => (scanFrom n s).map fun (l, r) => (c :: l, r)
  | 0, c :: s =>
    if c = 34 then some ([], s)
    else if c < 32 then none
    else if c = 92 then
      match escapeLength s with
      | none => none
      | some n => (scanFrom n s).map fun (l, r) => (c :: l, r)
    else (scanFrom 0 s).map fun (l, r) => (c :: l, r)

/-- A string behind its opening quote. -/
def scanString (s : List UInt8) : Option (List UInt8 × List UInt8) := scanFrom 0 s

/-! ## Strings are read back -/

theorem hexValue_hexDigit : ∀ n < 16, hexValue (hexDigit n) = some n := by decide

theorem hex4_hexEscape (h : n < 65536) (t : List UInt8) : hex4 ((hexEscape n).drop 2 ++ t) = some n := by
  have h₁ := hexValue_hexDigit (n / 4096 % 16) (Nat.mod_lt _ (by decide))
  have h₂ := hexValue_hexDigit (n / 256 % 16) (Nat.mod_lt _ (by decide))
  have h₃ := hexValue_hexDigit (n / 16 % 16) (Nat.mod_lt _ (by decide))
  have h₄ := hexValue_hexDigit (n % 16) (Nat.mod_lt _ (by decide))
  have hsum : n / 4096 % 16 * 4096 + n / 256 % 16 * 256 + n / 16 % 16 * 16 + n % 16 = n := by omega
  simp [hexEscape, hex4, h₁, h₂, h₃, h₄, hsum]

theorem escape_hexEscape (h : n < 0xD800 ∨ 0xDC00 ≤ n ∧ n < 65536) (t : List UInt8) :
    escape (117 :: ((hexEscape n).drop 2 ++ t)) = some (encodeRune n, 5) := by
  have hn : n < 65536 := by omega
  have hlow : ¬(0xD800 ≤ n ∧ n < 0xDC00) := by omega
  simp [escape, hex4_hexEscape hn, hlow]

theorem unquoteChars_skip (l t : List UInt8) : unquoteChars l.length (l ++ t) = unquoteChars 0 t := by
  induction l with
  | nil => rfl
  | cons b l ih => exact ih

theorem unquoteChars_hexEscape (h : n < 0xD800 ∨ 0xDC00 ≤ n ∧ n < 65536) (t : List UInt8) :
    unquoteChars 0 (hexEscape n ++ t) = encodeRune n :: unquoteChars 0 t := by
  have hsplit : hexEscape n ++ t = 92 :: 117 :: ((hexEscape n).drop 2 ++ t) := rfl
  have hrest : unquoteChars 5 (117 :: ((hexEscape n).drop 2 ++ t)) = unquoteChars 0 t :=
    unquoteChars_skip (117 :: (hexEscape n).drop 2) t
  rw [hsplit, unquoteChars, if_pos rfl, escape_hexEscape h]
  simp only [hrest]

theorem unquoteChars_char (h : Utf8.IsChar c) (hc : 92 ∉ c) (t : List UInt8) :
    unquoteChars 0 (c ++ t) = c :: unquoteChars 0 t := by
  cases c with
  | nil => exact absurd rfl h.1
  | cons b s =>
    have hb : b ≠ 92 := by
      rintro rfl
      exact hc mem_cons_self
    rw [cons_append, unquoteChars, if_neg hb, charTail_append h]
    simp only [take_left, unquoteChars_skip]

theorem flatMap_escapeByte (h : ∀ b ∈ c, 0x80 ≤ b) : c.flatMap escapeByte = c := by
  have hplain : ∀ n < 256, 0x80 ≤ n → escapeByte (UInt8.ofNat n) = [UInt8.ofNat n] := by decide +kernel
  induction c with
  | nil => rfl
  | cons b c ih =>
    have hb := hplain b.toNat b.toNat_lt (h b mem_cons_self)
    rw [UInt8.ofNat_toNat] at hb
    rw [flatMap_cons, hb, ih fun b hb => h b (mem_cons_of_mem _ hb)]
    rfl

/-- What `escapeByte` makes of a byte: the byte itself, a backslash and a
letter, or a hexadecimal escape. -/
inductive Escaped (b : UInt8) : List UInt8 → Prop
  | plain : b ≠ 34 → b ≠ 92 → 32 ≤ b → Escaped b [b]
  | short {e} : escape [e] = some ([b], 1) → e ≠ 117 → 32 ≤ e → Escaped b [92, e]
  | hex : b < 0x80 → Escaped b (hexEscape b.toNat)

theorem escapeByte_escaped (h : b < 0x80) : Escaped b (escapeByte b) := by
  unfold escapeByte
  split
  next hb => rcases hb with rfl | rfl <;> exact .short (by decide) (by decide) (by decide)
  next hb =>
    iterate 5
      split
      next hb => subst hb; exact .short (by decide) (by decide) (by decide)
    split
    next => exact .hex h
    next hplain =>
      simp only [not_or] at hb hplain
      exact .plain hb.1 hb.2 (UInt8.not_lt.mp hplain.1)

theorem escape_cons {e} (he : e ≠ 117) (h : escape [e] = some ([b], 1)) (t : List UInt8) :
    escape (e :: t) = some ([b], 1) := by
  simp only [escape, if_neg he] at h ⊢
  exact h

theorem encodeRune_ascii (h : b < 0x80) : encodeRune b.toNat = [b] := by
  have hlt : b.toNat < 0x80 := h
  rw [encodeRune, if_pos hlt, UInt8.ofNat_toNat]

theorem isChar_ascii (h : b < 0x80) : Utf8.IsChar [b] := by
  refine ⟨cons_ne_nil _ _, ?_⟩
  simp [charTail, h]

theorem unquoteChars_escapeByte (h : b < 0x80) (t : List UInt8) :
    unquoteChars 0 (escapeByte b ++ t) = [b] :: unquoteChars 0 t := by
  have hlt : b.toNat < 0x80 := h
  have hesc := escapeByte_escaped h
  generalize escapeByte b = l at hesc
  cases hesc with
  | plain _ hb _ => exact unquoteChars_char (isChar_ascii h) (by simpa using Ne.symm hb) t
  | short hesc he _ =>
    rw [cons_append, unquoteChars, if_pos rfl, singleton_append, escape_cons he hesc]
    rfl
  | hex _ => rw [unquoteChars_hexEscape (.inl (by omega)), encodeRune_ascii h]

/-- **A character is read back**, a byte that starts none as U+FFFD. -/
theorem unquoteChars_quoteChar (h : ∀ c, ch = some c → Utf8.IsChar c) (t : List UInt8) :
    unquoteChars 0 (quoteChar ch ++ t) = repair ch :: unquoteChars 0 t := by
  cases ch with
  | none => exact unquoteChars_hexEscape (.inr (by decide)) t
  | some c =>
    have hc := h c rfl
    simp only [quoteChar]
    split
    next hsep =>
      rw [unquoteChars_hexEscape (.inl (by decide)), hsep]
      rfl
    next =>
      split
      next hsep =>
        rw [unquoteChars_hexEscape (.inl (by decide)), hsep]
        rfl
      next =>
        rcases hc.cases with ⟨b, rfl, hb⟩ | hhigh
        · rw [flatMap_singleton]
          exact unquoteChars_escapeByte hb t
        · rw [flatMap_escapeByte hhigh]
          exact unquoteChars_char hc (fun hmem => absurd (hhigh 92 hmem) (by decide)) t

theorem unquoteChars_flatMap {cs : List (Option (List UInt8))} (h : ∀ c, some c ∈ cs → Utf8.IsChar c) :
    unquoteChars 0 (cs.flatMap quoteChar) = cs.map repair := by
  induction cs with
  | nil => rfl
  | cons ch cs ih =>
    rw [flatMap_cons, unquoteChars_quoteChar fun c hc => h c (hc ▸ mem_cons_self),
      ih fun c hc => h c (mem_cons_of_mem _ hc), map_cons]

/-- **A string is read back repaired.** -/
theorem unquote_quote (s : List UInt8) : unquote (quote s) = sanitize s := by
  rw [unquote, quote, unquoteChars_flatMap fun c hc => isChar_of_mem_chars hc, sanitize_eq_flatMap,
    flatMap_def]

/-! ## The text of a string -/

/-- The bytes stand between quotes as one string. -/
def IsBody (b : List UInt8) : Prop := ∀ r, scanString (b ++ 34 :: r) = some (b, r)

/-- A part of a string that is scanned as it stands. -/
def Scans (l : List UInt8) : Prop := ∀ t, scanString (l ++ t) = (scanString t).map fun (b, r) => (l ++ b, r)

theorem scans_byte (h34 : b ≠ 34) (h92 : b ≠ 92) (h32 : 32 ≤ b) : Scans [b] := by
  intro t
  have h32 : ¬b < 32 := UInt8.not_lt.mpr h32
  simp [scanString, scanFrom, h34, h92, h32]

theorem scanFrom_skip (l t : List UInt8) :
    scanFrom l.length (l ++ t) = (scanFrom 0 t).map fun (b, r) => (l ++ b, r) := by
  induction l with
  | nil => simp
  | cons c l ih =>
    rw [length_cons, cons_append, scanFrom, ih, Option.map_map]
    rfl

theorem scans_escape {l} (h : ∀ t, escapeLength (l ++ t) = some l.length) : Scans (92 :: l) := by
  intro t
  have hskip := scanFrom_skip l t
  simp only [scanString, cons_append, scanFrom, h t, hskip, Option.map_map]
  rfl

theorem scans_nil : Scans [] := fun t => by simp

theorem Scans.append {l'} (h : Scans l) (h' : Scans l') : Scans (l ++ l') := by
  intro t
  rw [append_assoc, h, h', Option.map_map]
  congr 1
  funext ⟨b, r⟩
  simp

theorem scans_flatMap {α : Type} {f : α → List UInt8} {l : List α} (h : ∀ a ∈ l, Scans (f a)) :
    Scans (l.flatMap f) := by
  induction l with
  | nil => exact scans_nil
  | cons a l ih =>
    rw [flatMap_cons]
    exact (h a mem_cons_self).append (ih fun a ha => h a (mem_cons_of_mem _ ha))

theorem scans_hexEscape (h : n < 65536) : Scans (hexEscape n) := by
  refine @scans_escape (117 :: (hexEscape n).drop 2) fun t => ?_
  simp only [cons_append, escapeLength, if_true, hex4_hexEscape h]
  rfl

theorem scans_escapeByte (h : b < 0x80) : Scans (escapeByte b) := by
  have hlt : b.toNat < 0x80 := h
  have hesc := escapeByte_escaped h
  generalize escapeByte b = l at hesc
  cases hesc with
  | plain h34 h92 h32 => exact scans_byte h34 h92 h32
  | @short e hesc he _ =>
    refine scans_escape fun t => ?_
    simp [escapeLength, he, hesc]
  | hex _ => exact scans_hexEscape (by omega)

theorem scans_quoteChar (h : ∀ c, ch = some c → Utf8.IsChar c) : Scans (quoteChar ch) := by
  cases ch with
  | none => exact scans_hexEscape (by decide)
  | some c =>
    simp only [quoteChar]
    split
    next => exact scans_hexEscape (by decide)
    next =>
      split
      next => exact scans_hexEscape (by decide)
      next =>
        rcases (h c rfl).cases with ⟨b, rfl, hb⟩ | hhigh
        · rw [flatMap_singleton]
          exact scans_escapeByte hb
        · rw [flatMap_escapeByte hhigh, ← flatMap_singleton' c]
          refine scans_flatMap fun b hb => ?_
          have hb := hhigh b hb
          exact scans_byte (fun h => by subst h; exact absurd hb (by decide))
            (fun h => by subst h; exact absurd hb (by decide)) (UInt8.le_trans (by decide) hb)

theorem Scans.isBody (h : Scans l) : IsBody l := by
  intro r
  rw [h]
  simp [scanString, scanFrom]

theorem isBody_quote (s : List UInt8) : IsBody (quote s) :=
  (scans_flatMap fun _ hch => scans_quoteChar fun _ hc => isChar_of_mem_chars (hc ▸ hch)).isBody

/-! ## More bytes behind a string -/

section Append

variable {n : Nat}

variable {s r q : List UInt8}

theorem hex4_append (h : hex4 s = some n) : hex4 (s ++ q) = some n := by
  match s, h with
  | a :: b :: c :: d :: s, h => exact h

theorem escapeLength_append (h : escapeLength s = some n) : escapeLength (s ++ q) = some n := by
  cases s with
  | nil => cases h
  | cons e s =>
    simp only [cons_append, escapeLength] at h ⊢
    split
    next he =>
      rw [if_pos he] at h
      cases hhex : hex4 s with
      | none => simp [hhex] at h
      | some k => simpa [hhex, hex4_append hhex] using h
    next he =>
      rw [if_neg he] at h
      exact h

theorem scanFrom_append {l} (h : scanFrom n s = some (l, r)) : scanFrom n (s ++ q) = some (l, r ++ q) := by
  induction s generalizing n l with
  | nil => cases n <;> cases h
  | cons c s ih =>
    have hmap : ∀ {k l' : _}, (scanFrom k s).map (fun (l, r) => (c :: l, r)) = some (l', r) →
        (scanFrom k (s ++ q)).map (fun (l, r) => (c :: l, r)) = some (l', r ++ q) := by
      intro k l' hk
      obtain ⟨⟨l₁, r₁⟩, hl, heq⟩ := map_eq_some_iff.mp hk
      cases heq
      rw [ih hl]
      rfl
    cases n with
    | succ n => exact hmap h
    | zero =>
      simp only [cons_append, scanFrom] at h ⊢
      split
      next hc =>
        rw [if_pos hc] at h
        cases h
        rfl
      next hc =>
        rw [if_neg hc] at h
        split
        next hlow =>
          rw [if_pos hlow] at h
          cases h
        next hlow =>
          rw [if_neg hlow] at h
          split
          next hesc =>
            rw [if_pos hesc] at h
            cases hlen : escapeLength s with
            | none => simp [hlen] at h
            | some k =>
              simp only [hlen, escapeLength_append hlen] at h ⊢
              exact hmap h
          next hesc =>
            rw [if_neg hesc] at h
            exact hmap h

end Append

/-! ## What is read is well-formed -/

theorem ofNat_mem {lo hi : UInt8} {n} (hlo : lo.toNat ≤ n) (hhi : n ≤ hi.toNat) :
    lo ≤ UInt8.ofNat n ∧ UInt8.ofNat n ≤ hi := by
  have hlt := hi.toNat_lt
  simp only [UInt8.le_iff_toNat_le, UInt8.toNat_ofNat']
  omega

theorem isTail_ofNat (k : Nat) : isTail (UInt8.ofNat (0x80 + k % 64)) = true := by
  have h := @ofNat_mem 0x80 0xBF (0x80 + k % 64) (Nat.le_add_right _ _)
    (show 0x80 + k % 64 ≤ 0xBF by omega)
  simpa [isTail] using h

theorem isChar_of_lead {a lo hi} (hlead : lead a = some (lo, hi, n))
    (ha : 0x80 ≤ a) (hb : lo ≤ b ∧ b ≤ hi) (hlen : s.length = n) (hs : s.all isTail = true) :
    Utf8.IsChar (a :: b :: s) := by
  have hascii : ¬a < 0x80 := UInt8.not_lt.mpr ha
  subst hlen
  refine ⟨cons_ne_nil _ _, ?_⟩
  simpa [charTail, hascii, hlead, hb] using hs

theorem isChar_encodeRune (h : r < 0x110000) : Utf8.IsChar (encodeRune r) := by
  have hlead₂ : ∀ k < 32, 2 ≤ k → lead (UInt8.ofNat (0xC0 + k)) = some (0x80, 0xBF, 0) ∧
      0x80 ≤ UInt8.ofNat (0xC0 + k) := by decide
  have hlead₃ : ∀ k < 16, lead (UInt8.ofNat (0xE0 + k)) =
      some (if k = 0 then 0xA0 else 0x80, if k = 13 then 0x9F else 0xBF, 1) ∧ 0x80 ≤ UInt8.ofNat (0xE0 + k) := by decide
  have hlead₄ : ∀ k < 5, lead (UInt8.ofNat (0xF0 + k)) =
      some (if k = 0 then 0x90 else 0x80, if k = 4 then 0x8F else 0xBF, 2) ∧ 0x80 ≤ UInt8.ofNat (0xF0 + k) := by decide
  unfold encodeRune
  split
  next hr =>
    exact isChar_ascii (by rw [UInt8.lt_iff_toNat_lt, UInt8.toNat_ofNat']; exact Nat.lt_of_le_of_lt (Nat.mod_le _ _) hr)
  split
  next =>
    obtain ⟨hlead, ha⟩ := hlead₂ (r / 64) (by omega) (by omega)
    exact isChar_of_lead hlead ha (ofNat_mem (Nat.le_add_right _ _) (show 0x80 + r % 64 ≤ 0xBF by omega)) rfl rfl
  split
  next => exact isChar_replacement
  split
  next =>
    obtain ⟨hlead, ha⟩ := hlead₃ (r / 4096) (by omega)
    refine isChar_of_lead hlead ha (ofNat_mem ?_ ?_) rfl
      (by simp only [all_cons, isTail_ofNat, all_nil, Bool.and_true])
    · split
      · show 0xA0 ≤ 0x80 + r / 64 % 64
        omega
      · exact Nat.le_add_right _ _
    · split
      · show 0x80 + r / 64 % 64 ≤ 0x9F
        omega
      · show 0x80 + r / 64 % 64 ≤ 0xBF
        omega
  next =>
    obtain ⟨hlead, ha⟩ := hlead₄ (r / 262144) (by omega)
    refine isChar_of_lead hlead ha (ofNat_mem ?_ ?_) rfl
      (by simp only [all_cons, isTail_ofNat, all_nil, Bool.and_true])
    · split
      · show 0x90 ≤ 0x80 + r / 4096 % 64
        omega
      · exact Nat.le_add_right _ _
    · split
      · show 0x80 + r / 4096 % 64 ≤ 0x8F
        omega
      · show 0x80 + r / 4096 % 64 ≤ 0xBF
        omega

theorem hexValue_lt {c} (h : hexValue c = some n) : n < 16 := by
  simp only [hexValue, UInt8.le_iff_toNat_le] at h
  split at h
  next hc =>
    cases h
    have h57 : c.toNat ≤ 57 := hc.2
    omega
  split at h
  next hc =>
    cases h
    have h102 : c.toNat ≤ 102 := hc.2
    omega
  split at h
  next hc =>
    cases h
    have h70 : c.toNat ≤ 70 := hc.2
    omega
  cases h

theorem hex4_lt (h : hex4 s = some n) : n < 65536 := by
  match s, h with
  | a :: b :: c :: d :: s, h =>
    simp only [hex4, bind_eq_bind, bind_eq_some_iff] at h
    obtain ⟨x, hx, y, hy, z, hz, w, hw, heq⟩ := h
    cases heq
    have hx := hexValue_lt hx
    have hy := hexValue_lt hy
    have hz := hexValue_lt hz
    have hw := hexValue_lt hw
    omega

theorem lowSurrogate_lt (h : lowSurrogate s = some r) : r < 0xE000 := by
  unfold lowSurrogate at h
  split at h
  next =>
    have hr := (filter_eq_some_iff.mp h).2
    exact of_decide_eq_true (Bool.and_eq_true_iff.mp hr).2
  next => cases h

theorem isChar_of_escape (h : escape s = some (c, n)) : Utf8.IsChar c := by
  cases s with
  | nil => cases h
  | cons e s =>
    simp only [escape] at h
    split at h
    next =>
      obtain ⟨r, hr, h⟩ := map_eq_some_iff.mp h
      have hlt := hex4_lt hr
      split at h
      next hhigh =>
        split at h
        next r' hr' =>
          have hlow := lowSurrogate_lt hr'
          rw [← (Prod.mk.inj h).1]
          exact isChar_encodeRune (by omega)
        next =>
          cases h
          exact isChar_replacement
      next =>
        cases h
        exact isChar_encodeRune (by omega)
    next =>
      split at h
      next he =>
        cases h
        rcases he with rfl | rfl | rfl <;> exact isChar_ascii (by decide)
      repeat' split at h
      all_goals cases h
      all_goals exact isChar_ascii (by decide)

theorem isChar_unquoteChars : ∀ c ∈ unquoteChars n s, Utf8.IsChar c := by
  fun_induction unquoteChars n s with
  | case1 n => simp
  | case2 n b s ih => exact ih
  | case3 s c n hesc ih => exact forall_mem_cons.mpr ⟨isChar_of_escape hesc, ih⟩
  | case4 s hesc ih => exact ih
  | case5 b s hb n hchar ih => exact forall_mem_cons.mpr ⟨isChar_take hchar, ih⟩
  | case6 b s hb hchar ih => exact forall_mem_cons.mpr ⟨isChar_replacement, ih⟩

/-- **A string that was read is well-formed.** -/
theorem sanitize_unquote (b : List UInt8) : sanitize (unquote b) = unquote b :=
  sanitize_flatten isChar_unquoteChars

/-! ## The bytes of a string -/

theorem hexValue_ge {c} (h : (hexValue c).isSome) : 32 ≤ c := by
  unfold hexValue at h
  grind

theorem hex4_bytes (h : (hex4 s).isSome) : ∀ c ∈ s.take 4, 32 ≤ c := by
  obtain ⟨n, hn⟩ := isSome_iff_exists.mp h
  unfold hex4 at hn
  split at hn
  next a b c d t =>
    simp only [bind_eq_bind, bind_eq_some_iff] at hn
    obtain ⟨x, hx, y, hy, z, hz, w, hw, -⟩ := hn
    have hge : ∀ {e : UInt8} {k : Nat}, hexValue e = some k → 32 ≤ e := fun h => hexValue_ge (by simp [h])
    simp [hge hx, hge hy, hge hz, hge hw]
  next => cases hn

theorem escapeLength_bytes (h : escapeLength s = some n) : ∀ c ∈ s.take n, 32 ≤ c := by
  unfold escapeLength at h
  split at h
  next => cases h
  next e s =>
    split at h
    next he =>
      split at h
      next hhex =>
        cases h
        subst he
        exact forall_mem_cons.mpr ⟨by decide, hex4_bytes hhex⟩
      next => cases h
    next he =>
      split at h
      next hesc =>
        cases h
        have hge : 32 ≤ e := by
          simp only [escape, if_neg he] at hesc
          grind
        simpa using hge
      next => cases h

theorem scanFrom_bytes {r} (h : scanFrom n s = some (l, r)) (hn : ∀ c ∈ s.take n, 32 ≤ c) : ∀ c ∈ l, 32 ≤ c := by
  fun_induction scanFrom n s generalizing l with
  | case1 n => cases h
  | case2 n c s ih =>
    simp only [map_eq_some_iff, Prod.mk.injEq] at h
    obtain ⟨⟨l', r'⟩, hscan, rfl, rfl⟩ := h
    rw [take_succ_cons, forall_mem_cons] at hn
    exact forall_mem_cons.mpr ⟨hn.1, ih hscan hn.2⟩
  | case3 s => simp_all
  | case4 c s hq hlt => cases h
  | case5 c s hlt hesc => cases h
  | case6 s n hesc hq hlt ih =>
    simp only [map_eq_some_iff, Prod.mk.injEq] at h
    obtain ⟨⟨l', r'⟩, hscan, rfl, rfl⟩ := h
    exact forall_mem_cons.mpr ⟨by decide, ih hscan (escapeLength_bytes hesc)⟩
  | case7 c s hq hlt hb ih =>
    simp only [map_eq_some_iff, Prod.mk.injEq] at h
    obtain ⟨⟨l', r'⟩, hscan, rfl, rfl⟩ := h
    exact forall_mem_cons.mpr ⟨UInt8.not_lt.mp hlt, ih hscan (by simp)⟩

theorem IsBody.bytes {b} (h : IsBody b) : ∀ c ∈ b, 32 ≤ c := scanFrom_bytes (h []) (by simp)

/-! ## The size of a string -/

theorem escapeByte_length (b : UInt8) : (escapeByte b).length ≤ 6 := by
  unfold escapeByte
  repeat' split
  all_goals simp [hexEscape]

theorem flatMap_escapeByte_length (c : List UInt8) : (c.flatMap escapeByte).length ≤ 6 * c.length := by
  induction c with
  | nil => exact Nat.le_refl _
  | cons b c ih =>
    have hb := escapeByte_length b
    rw [flatMap_cons, length_append, length_cons]
    omega

theorem quoteChar_length (h : c ≠ []) : (quoteChar (some c)).length ≤ 6 * c.length := by
  have hpos := length_pos_of_ne_nil h
  simp only [quoteChar]
  split
  next => simp only [hexEscape, length_cons, length_nil]; omega
  split
  next => simp only [hexEscape, length_cons, length_nil]; omega
  next => exact flatMap_escapeByte_length c

theorem quote_char {c} (h : Utf8.IsChar c) (t : List UInt8) : quote (c ++ t) = quoteChar (some c) ++ quote t := by
  rw [quote, quote, chars_char h, flatMap_cons]

theorem quote_bad {b t} (h : charTail (b :: t) = none) : quote (b :: t) = quoteChar none ++ quote t := by
  rw [quote, quote, chars_bad h, flatMap_cons]

theorem length_quote_le (s : List UInt8) : (quote s).length ≤ 6 * s.length := by
  induction s using chars_induction with
  | nil => exact Nat.le_refl _
  | char c t hc ih =>
    have hlen := quoteChar_length hc.1
    rw [quote_char hc, length_append, length_append]
    omega
  | bad b t hb ih =>
    rw [quote_bad hb, length_append, length_cons]
    have hlen : (quoteChar none).length = 6 := rfl
    omega

/-- **A repaired string is shorter**: U+FFFD takes three bytes where the
byte it stands for was an escape of six. -/
theorem length_quote_sanitize (s : List UInt8) : (quote (sanitize s)).length ≤ (quote s).length ∧
    (sanitize s ≠ s → (quote (sanitize s)).length < (quote s).length) := by
  induction s using chars_induction with
  | nil => exact ⟨Nat.le_refl _, fun h => absurd rfl h⟩
  | char c t hc ih =>
    simp only [sanitize_char hc, quote_char hc, length_append, ne_eq, append_cancel_left_eq]
    exact ⟨Nat.add_le_add_left ih.1 _, fun h => Nat.add_lt_add_left (ih.2 h) _⟩
  | bad b t hb ih =>
    have hlen : (quoteChar none).length = 6 ∧ (quoteChar (some replacement)).length = 3 := by decide
    rw [sanitize_bad hb, quote_char isChar_replacement, quote_bad hb, length_append, length_append]
    omega

/-! ## Text that stands for itself -/

/-- Printable ASCII without quotes and backslashes. -/
def isRaw (b : UInt8) : Bool := 32 ≤ b && b < 0x80 && b != 34 && b != 92

theorem isRaw_spec (h : isRaw b = true) : 32 ≤ b ∧ b < 0x80 ∧ b ≠ 34 ∧ b ≠ 92 := by
  simpa [isRaw, and_assoc] using h

theorem unquote_raw (h : ∀ b ∈ s, isRaw b = true) : unquote s = s := by
  rw [unquote]
  induction s with
  | nil => rfl
  | cons b s ih =>
    obtain ⟨-, hascii, -, hslash⟩ := isRaw_spec (h b mem_cons_self)
    have hchar := unquoteChars_char (isChar_ascii hascii) (by simpa using hslash.symm) s
    rw [singleton_append] at hchar
    rw [hchar, flatten_cons, ih fun b hb => h b (mem_cons_of_mem _ hb)]
    rfl

theorem isBody_raw (h : ∀ b ∈ s, isRaw b = true) : IsBody s := by
  have hscans : Scans (s.flatMap fun b => [b]) := scans_flatMap fun b hb => by
    obtain ⟨hprint, -, hquote, hslash⟩ := isRaw_spec (h b hb)
    exact scans_byte hquote hslash hprint
  rw [flatMap_singleton'] at hscans
  exact hscans.isBody

theorem isRaw_of_isPlain (h : isPlain b = true) : isRaw b = true := by
  have hall : ∀ n < 256, isPlain (UInt8.ofNat n) = true → isRaw (UInt8.ofNat n) = true := by decide +kernel
  have hb := hall b.toNat b.toNat_lt
  rw [UInt8.ofNat_toNat] at hb
  exact hb h

theorem length_quote_replicate (n : Nat) : (quote (replicate n 60)).length = 6 * n := by
  rw [quote]
  induction n with
  | zero => rfl
  | succ n ih =>
    have hchar := chars_char (isChar_ascii (b := 60) (by decide)) (replicate n 60)
    rw [singleton_append] at hchar
    rw [replicate_succ, hchar, flatMap_cons, length_append, ih]
    have hone : (quoteChar (some [60])).length = 6 := by decide
    omega

end JsonText
