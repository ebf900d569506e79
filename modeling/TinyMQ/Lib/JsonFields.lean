/-
Go values in JSON: how `encoding/json` writes strings, byte slices, numbers
and maps, and how it stores a value of a text into a variable, over what is
there.

A value that was written is read back, with its strings repaired to UTF-8;
`null` leaves a variable as it is, except for pointers, maps and slices,
which it empties.
-/
import TinyMQ.Lib.JsonText
import TinyMQ.Lib.SortedMap

namespace JsonText

open List Option Utf8 Codec SortedMap

/-! ## Structs -/

/-- The characters of a name with their case folded, when `n` bytes of the
one before are still to come. Outside of ASCII, only `ſ` and the Kelvin sign
fold to a letter. -/
def foldFrom : Nat → List UInt8 → List UInt8
  | _, [] => []
  | n + 1, _ :: s => foldFrom n s
  | 0, c :: s =>
    if c = 0xC5 ∧ s.head? = some 0xBF then 83 :: foldFrom 1 s
    else if c = 0xE2 ∧ s.take 2 = [0x84, 0xAA] then 75 :: foldFrom 2 s
    else (if 97 ≤ c ∧ c ≤ 122 then c - 32 else c) :: foldFrom 0 s

def foldName (s : List UInt8) : List UInt8 := foldFrom 0 s

section Struct

variable {φ σ : Type} {tags : List (List UInt8 × φ)} {set : φ → Value → σ → Option σ}

/-- The field of a member: the one of its name, else one whose name differs
from it in case only. -/
def fieldFor (tags : List (List UInt8 × φ)) (key : List UInt8) : Option φ :=
  ((tags.find? fun t => t.1 = key).or (tags.find? fun t => foldName t.1 = foldName key)).map Prod.snd

/-- The members of an object into a struct, one after the other; a member
without a field is skipped. -/
def decodeMembers (tags : List (List UInt8 × φ)) (set : φ → Value → σ → Option σ) :
    List (List UInt8 × Value) → σ → Option σ
  | [], s => some s
  | (k, v) :: ms, s =>
    match fieldFor tags (unquote k) with
    | none => decodeMembers tags set ms s
    | some f => (set f v s).bind (decodeMembers tags set ms)

def decodeStruct (tags : List (List UInt8 × φ)) (set : φ → Value → σ → Option σ) : Value → σ → Option σ
  | .null, s => some s
  | .obj ms, s => decodeMembers tags set ms s
  | _, _ => none

theorem decodeMembers_cons (hfield : fieldFor tags (unquote k) = some f) (hset : set f v s = some s') :
    decodeMembers tags set ((k, v) :: ms) s = decodeMembers tags set ms s' := by
  simp [decodeMembers, hfield, hset]

theorem decodeMembers_invariant {P : σ → Prop} (hset : ∀ f v s s', P s → set f v s = some s' → P s')
    (hs : P s) (h : decodeMembers tags set ms s = some s') : P s' := by
  induction ms generalizing s with
  | nil =>
    cases h
    exact hs
  | cons m ms ih =>
    obtain ⟨k, v⟩ := m
    simp only [decodeMembers] at h
    split at h
    next => exact ih hs h
    next f hf =>
      obtain ⟨s₁, hs₁, h⟩ := bind_eq_some_iff.mp h
      exact ih (hset f v s s₁ hs hs₁) h

theorem decodeStruct_invariant {P : σ → Prop} (hset : ∀ f v s s', P s → set f v s = some s' → P s')
    (hs : P s) (h : decodeStruct tags set v s = some s') : P s' := by
  unfold decodeStruct at h
  split at h
  next =>
    cases h
    exact hs
  next => exact decodeMembers_invariant hset hs h
  next => cases h

end Struct

/-! ## Strings, byte slices, numbers -/

def stringValue (s : List UInt8) : Value := .str (quote s)

def decodeString : Value → List UInt8 → Option (List UInt8)
  | .null, s => some s
  | .str b, _ => some (unquote b)
  | _, _ => none

def bytesValue (bs : List UInt8) : Value := .str (base64 bs)

def intValue (z : Int) : Value := .num (formatInt z)

/-- `int`: a number without a fraction or an exponent, in its range. -/
def decodeInt : Value → Int → Option Int
  | .null, z => some z
  | .num l, _ => if (scanSign l).2.all isDigit then scanInt l else none
  | _, _ => none

/-- An unsigned number of `w` bits. -/
def decodeUint (w : Nat) : Value → Nat → Option Nat
  | .null, n => some n
  | .num l, _ => if l.all isDigit ∧ value l < 2 ^ w then some (value l) else none
  | _, _ => none

/-- `[]byte`: a string in base64, or an array of numbers. -/
def decodeBytes : Value → List UInt8 → Option (List UInt8)
  | .null, _ => some []
  | .str b, _ => decodeBase64 (unquote b)
  | .arr vs, bs => vs.zipIdx.mapM fun (v, i) => (decodeUint 8 v (bs.getD i 0).toNat).map UInt8.ofNat
  | _, _ => none

/-- A pointer to a value: a new one is made where there is none. -/
def decodePointer {α : Type} (zero : α) (dec : Value → α → Option α) : Value → Option α → Option (Option α)
  | .null, _ => some none
  | v, old => (dec v (old.getD zero)).map some

theorem decodeString_stringValue (s old : List UInt8) : decodeString (stringValue s) old = some (sanitize s) :=
  congrArg some (unquote_quote s)

theorem well_stringValue (s : List UInt8) : Well (stringValue s) := .str (isBody_quote s)

theorem isRaw_base64 (bs : List UInt8) : ∀ b ∈ base64 bs, isRaw b = true := fun b hb =>
  isRaw_of_isPlain (isPlain_base64 bs b hb)

theorem decodeBytes_bytesValue (bs old : List UInt8) : decodeBytes (bytesValue bs) old = some bs := by
  rw [bytesValue, decodeBytes, unquote_raw (isRaw_base64 bs), decodeBase64_base64]

theorem well_bytesValue (bs : List UInt8) : Well (bytesValue bs) := .str (isBody_raw (isRaw_base64 bs))

theorem decodeInt_intValue (h : -2 ^ 63 ≤ z ∧ z < 2 ^ 63) (old : Int) : decodeInt (intValue z) old = some z := by
  have hdigits := (decimal_spec z.natAbs).1
  have hall : (scanSign (formatInt z)).2.all isDigit = true := by
    unfold formatInt
    split
    · simpa [scanSign] using hdigits
    · rw [scanSign_decimal]
      simpa using hdigits
  rw [intValue, decodeInt, if_pos hall, scanInt_formatInt h]

theorem decodeUint_decimal (h : n < 2 ^ w) (old : Nat) : decodeUint w (.num (decimal n)) old = some n := by
  obtain ⟨hdigits, hvalue, -⟩ := decimal_spec n
  have hall : (decimal n).all isDigit = true := by simpa using hdigits
  rw [decodeUint, hvalue, if_pos ⟨hall, h⟩]

theorem sanitize_decodeString (hold : sanitize old = old) (h : decodeString v old = some s) : sanitize s = s := by
  unfold decodeString at h
  split at h
  next =>
    cases h
    exact hold
  next =>
    cases h
    exact sanitize_unquote _
  next => cases h

theorem decodePointer_invariant {P : α → Prop} {dec : Value → α → Option α} (hzero : P zero)
    (hdec : ∀ v a a', P a → dec v a = some a' → P a') (hold : ∀ a, old = some a → P a)
    (h : decodePointer zero dec v old = some new) : ∀ a, new = some a → P a := by
  have hstart : P (old.getD zero) := by
    cases old with
    | none => exact hzero
    | some a => exact hold a rfl
  unfold decodePointer at h
  split at h
  next =>
    cases h
    intro a ha
    cases ha
  next =>
    obtain ⟨a, ha, rfl⟩ := map_eq_some_iff.mp h
    intro a' ha'
    cases ha'
    exact hdec _ _ _ hstart ha

theorem length_stringValue_le (s : List UInt8) : (print (stringValue s)).length ≤ 6 * s.length + 2 := by
  have hquote := length_quote_le s
  simp only [stringValue, print, length_cons, length_append, length_nil]
  omega

theorem length_bytesValue (bs : List UInt8) : (print (bytesValue bs)).length = 4 * ((bs.length + 2) / 3) + 2 := by
  simp only [bytesValue, print, length_cons, length_append, length_base64, length_nil]

/-! ## Maps of strings -/

/-- A map is written in the order of its keys. -/
def mapValue (m : List (List UInt8 × List UInt8)) : Value := .obj (m.map fun kv => (quote kv.1, stringValue kv.2))

/-- The members are set in the map that is there. -/
def decodeEntries : List (List UInt8 × Value) → List (List UInt8 × List UInt8) → Option (List (List UInt8 × List UInt8))
  | [], m => some m
  | (k, v) :: ms, m => (decodeString v []).bind fun s => decodeEntries ms (insert (unquote k) s m)

def decodeMap : Value → List (List UInt8 × List UInt8) → Option (List (List UInt8 × List UInt8))
  | .null, _ => some []
  | .obj ms, m => decodeEntries ms m
  | _, _ => none

def repairPair (kv : List UInt8 × List UInt8) : List UInt8 × List UInt8 := (sanitize kv.1, sanitize kv.2)

theorem decodeEntries_map (l m : List (List UInt8 × List UInt8)) :
    decodeEntries (l.map fun kv => (quote kv.1, stringValue kv.2)) m = some (insertAll m (l.map repairPair)) := by
  induction l generalizing m with
  | nil => rfl
  | cons kv l ih =>
    rw [map_cons, decodeEntries, decodeString_stringValue, bind_some, unquote_quote, ih]
    rfl

theorem decodeMap_mapValue (l : List (List UInt8 × List UInt8)) :
    decodeMap (mapValue l) [] = some (ofList (l.map repairPair)) := decodeEntries_map l []

theorem well_mapValue (l : List (List UInt8 × List UInt8)) : Well (mapValue l) := by
  refine .obj (fun m hm => ?_) (fun m hm => ?_)
  · obtain ⟨kv, -, rfl⟩ := List.mem_map.mp hm
    exact isBody_quote kv.1
  · obtain ⟨kv, -, rfl⟩ := List.mem_map.mp hm
    exact well_stringValue kv.2

/-- A bound for the text of a map. -/
def pairsSize (l : List (List UInt8 × List UInt8)) : Nat := (l.map fun kv => 6 * (kv.1.length + kv.2.length) + 6).sum

@[simp] theorem pairsSize_nil : pairsSize [] = 0 := rfl

@[simp] theorem pairsSize_cons (kv : List UInt8 × List UInt8) (l : List (List UInt8 × List UInt8)) :
    pairsSize (kv :: l) = 6 * (kv.1.length + kv.2.length) + 6 + pairsSize l := by simp [pairsSize]

theorem pairsSize_ofList_le (l : List (List UInt8 × List UInt8)) : pairsSize (ofList l) ≤ pairsSize l :=
  sum_ofList_le _ l

theorem length_mapValue_le (l : List (List UInt8 × List UInt8)) : (print (mapValue l)).length ≤ pairsSize l + 2 := by
  have hmembers : membersSize (l.map fun kv => (quote kv.1, stringValue kv.2)) ≤ pairsSize l := by
    induction l with
    | nil => exact Nat.le_refl _
    | cons kv l ih =>
      have hkey := length_quote_le kv.1
      have hvalue := length_stringValue_le kv.2
      simp only [map_cons, membersSize_cons, pairsSize_cons]
      omega
  have hobj := (length_print_obj (l.map fun kv => (quote kv.1, stringValue kv.2))).2
  exact hobj.trans (Nat.add_le_add_right hmembers 2)

/-- What a text that is not UTF-8 is longer by, at least, than once it was repaired. -/
def flaw (valid : Bool) : Nat := if valid then 0 else 1

theorem flaw_and_le (a b : Bool) : flaw (a && b) ≤ flaw a + flaw b := by
  cases a <;> cases b <;> decide

theorem length_stringValue_sanitize (s : List UInt8) :
    (print (stringValue (sanitize s))).length + flaw (valid s) ≤ (print (stringValue s)).length := by
  obtain ⟨hle, hlt⟩ := length_quote_sanitize s
  simp only [stringValue, print, length_cons, length_append, flaw]
  split
  next => omega
  next h =>
    have hshorter := hlt (mt sanitize_eq_self.mp h)
    omega

def pairSize (kv : List UInt8 × List UInt8) : Nat :=
  (print (stringValue kv.1)).length + (print (stringValue kv.2)).length + 2

theorem length_mapValue (h : l ≠ []) : (print (mapValue l)).length = (l.map pairSize).sum + 1 := by
  rw [mapValue, length_print_obj_of_ne (by simpa using h), membersSize, List.map_map]
  refine congrArg (fun w => (l.map w).sum + 1) (funext fun kv => ?_)
  simp only [Function.comp_apply, pairSize, stringValue, print, length_cons, length_append, length_nil]
  omega

def validPairs (l : List (List UInt8 × List UInt8)) : Bool := l.all fun kv => valid kv.1 && valid kv.2

theorem sum_pairSize_repaired (l : List (List UInt8 × List UInt8)) :
    ((l.map repairPair).map pairSize).sum + flaw (validPairs l) ≤ (l.map pairSize).sum := by
  induction l with
  | nil => exact Nat.le_refl _
  | cons kv l ih =>
    have hkey := length_stringValue_sanitize kv.1
    have hvalue := length_stringValue_sanitize kv.2
    have hpair := flaw_and_le (valid kv.1) (valid kv.2)
    have hall := flaw_and_le (valid kv.1 && valid kv.2) (validPairs l)
    have hcons : validPairs (kv :: l) = (valid kv.1 && valid kv.2 && validPairs l) := rfl
    simp only [map_cons, sum_cons, hcons, pairSize, repairPair] at ih ⊢
    omega

/-- **A repaired map is shorter**, also where two names become one. -/
theorem length_mapValue_repaired (l : List (List UInt8 × List UInt8)) :
    (print (mapValue (ofList (l.map repairPair)))).length + flaw (validPairs l) ≤ (print (mapValue l)).length := by
  by_cases hnil : l = []
  · subst hnil
    exact Nat.le_refl _
  · have hmerge := sum_ofList_le pairSize (l.map repairPair)
    have hsum := sum_pairSize_repaired l
    rw [length_mapValue hnil, length_mapValue (by simpa [ofList_eq_nil] using hnil)]
    omega

/-- A map as it is read: in the order of its keys, with strings of UTF-8. -/
structure CleanMap (m : List (List UInt8 × List UInt8)) : Prop where
  sorted : SortedMap.Sorted m
  repaired : ∀ kv ∈ m, repairPair kv = kv

theorem CleanMap.nil : CleanMap [] := ⟨.nil, by simp⟩

theorem CleanMap.insert (h : CleanMap m) (hk : sanitize k = k) (hv : sanitize v = v) : CleanMap (insert k v m) := by
  refine ⟨h.sorted.insert k v, fun kv hkv => ?_⟩
  rcases mem_insert hkv with rfl | hkv
  · rw [repairPair, hk, hv]
  · exact h.repaired kv hkv

theorem cleanMap_decodeEntries (hm : CleanMap m) (h : decodeEntries ms m = some m') : CleanMap m' := by
  induction ms generalizing m with
  | nil =>
    cases h
    exact hm
  | cons kv ms ih =>
    obtain ⟨k, v⟩ := kv
    obtain ⟨s, hs, h⟩ := bind_eq_some_iff.mp h
    exact ih (hm.insert (sanitize_unquote k) (sanitize_decodeString rfl hs)) h

theorem cleanMap_decodeMap (hm : CleanMap m) (h : decodeMap v m = some m') : CleanMap m' := by
  unfold decodeMap at h
  split at h
  next =>
    cases h
    exact .nil
  next => exact cleanMap_decodeEntries hm h
  next => cases h

theorem CleanMap.ofList (h : CleanMap m) : ofList ((ofList m).map repairPair) = m := by
  have hsame : m.map repairPair = m := (map_congr_left h.repaired).trans (List.map_id' m)
  rw [ofList_sorted h.sorted, hsame, ofList_sorted h.sorted]

end JsonText
