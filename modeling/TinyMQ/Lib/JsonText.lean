/-
JSON texts, as `encoding/json` of Go writes and reads them.

A value keeps the texts of its strings and numbers, and what is printed is
parsed (`parseValue_print`), whatever follows. The parser only looks ahead
inside a number: what it has accepted it also accepts in front of more bytes
(`parseValue_append`), so no proper first part of an object is a JSON text
(`parse_part`).
-/
import TinyMQ.Lib.JsonString

namespace JsonText

open List Option Codec

variable {c : UInt8}

/-! ## Values -/

/-- A value, with its strings and numbers as they are written. -/
inductive Value
  | null
  | bool (b : Bool)
  | num (literal : List UInt8)
  | str (body : List UInt8)
  | arr (elems : List Value)
  | obj (members : List (List UInt8 × Value))

mutual

def print : Value → List UInt8
  | .null => [110, 117, 108, 108]
  | .bool true => [116, 114, 117, 101]
  | .bool false => [102, 97, 108, 115, 101]
  | .num l => l
  | .str b => 34 :: (b ++ [34])
  | .arr [] => [91, 93]
  | .arr (v :: vs) => 91 :: (print v ++ printElems vs)
  | .obj [] => [123, 125]
  | .obj ((k, v) :: ms) => 123 :: 34 :: (k ++ 34 :: 58 :: (print v ++ printMembers ms))

def printElems : List Value → List UInt8
  | [] => [93]
  | v :: vs => 44 :: (print v ++ printElems vs)

def printMembers : List (List UInt8 × Value) → List UInt8
  | [] => [125]
  | (k, v) :: ms => 44 :: 34 :: (k ++ 34 :: 58 :: (print v ++ printMembers ms))

end

mutual

def depth : Value → Nat
  | .arr vs => depthElems vs + 1
  | .obj ms => depthMembers ms + 1
  | _ => 0

def depthElems : List Value → Nat
  | [] => 0
  | v :: vs => max (depth v) (depthElems vs)

def depthMembers : List (List UInt8 × Value) → Nat
  | [] => 0
  | (_, v) :: ms => max (depth v) (depthMembers ms)

end

theorem depthMembers_le (h : ∀ m ∈ ms, depth m.2 ≤ n) : depthMembers ms ≤ n := by
  induction ms with
  | nil => exact Nat.zero_le n
  | cons m ms ih =>
    exact Nat.max_le.mpr ⟨h m mem_cons_self, ih fun m' hm' => h m' (mem_cons_of_mem _ hm')⟩

def isSpace (c : UInt8) : Bool := c == 32 || c == 9 || c == 13 || c == 10

def skipSpace (s : List UInt8) : List UInt8 := s.dropWhile isSpace

/-- What follows a sign, if it comes next. -/
def expect (c : UInt8) (s : List UInt8) : Option (List UInt8) :=
  match skipSpace s with
  | [] => none
  | d :: r => if d = c then some r else none

def isNumberByte (c : UInt8) : Bool := isDigit c || c == 43 || c == 45 || c == 46 || c == 69 || c == 101

def validExponent (s : List UInt8) : Bool :=
  match s with
  | [] => true
  | e :: s =>
    let ds := if s.head? = some 43 ∨ s.head? = some 45 then s.tail else s
    (e == 69 || e == 101) && ds != [] && ds.all isDigit

/-- What may follow the digits before the point. -/
def validFraction (s : List UInt8) : Bool :=
  match s with
  | 46 :: s => s.takeWhile isDigit != [] && validExponent (s.dropWhile isDigit)
  | s => validExponent s

def validNumber (s : List UInt8) : Bool :=
  let s := if s.head? = some 45 then s.tail else s
  let ds := s.takeWhile isDigit
  ds != [] && (ds.head? != some 48 || ds.length == 1) && validFraction (s.dropWhile isDigit)

/-- A number is read up to the first byte that is in none. -/
def parseNumber (s : List UInt8) : Option (Value × List UInt8) :=
  let l := s.takeWhile isNumberByte
  if validNumber l then some (.num l, s.dropWhile isNumberByte) else none

/-- A name of a value, behind its first letter. -/
def parseName (name : List UInt8) (v : Value) (s : List UInt8) : Option (Value × List UInt8) :=
  if name.isPrefixOf s then some (v, s.drop name.length) else none

/-- The key of a member and its colon. -/
def parseKey (s : List UInt8) : Option (List UInt8 × List UInt8) := do
  let (k, r) ← scanString (← expect 34 s)
  return (k, ← expect 58 r)

mutual

def parseValue : Nat → List UInt8 → Option (Value × List UInt8)
  | 0, _ => none
  | n + 1, s =>
    match skipSpace s with
    | [] => none
    | c :: s =>
      if c = 34 then (scanString s).map fun (b, r) => (.str b, r)
      else if c = 91 then
        match expect 93 s with
        | some r => some (.arr [], r)
        | none => do
          let (v, r) ← parseValue n s
          let (vs, r) ← parseElems n r
          return (.arr (v :: vs), r)
      else if c = 123 then
        match expect 125 s with
        | some r => some (.obj [], r)
        | none => do
          let (k, r) ← parseKey s
          let (v, r) ← parseValue n r
          let (ms, r) ← parseMembers n r
          return (.obj ((k, v) :: ms), r)
      else if c = 110 then parseName [117, 108, 108] .null s
      else if c = 116 then parseName [114, 117, 101] (.bool true) s
      else if c = 102 then parseName [97, 108, 115, 101] (.bool false) s
      else parseNumber (c :: s)

def parseElems : Nat → List UInt8 → Option (List Value × List UInt8)
  | 0, _ => none
  | n + 1, s =>
    match expect 93 s with
    | some r => some ([], r)
    | none => do
      let (v, r) ← parseValue n (← expect 44 s)
      let (vs, r) ← parseElems n r
      return (v :: vs, r)

def parseMembers : Nat → List UInt8 → Option (List (List UInt8 × Value) × List UInt8)
  | 0, _ => none
  | n + 1, s =>
    match expect 125 s with
    | some r => some ([], r)
    | none => do
      let (k, r) ← parseKey (← expect 44 s)
      let (v, r) ← parseValue n r
      let (ms, r) ← parseMembers n r
      return ((k, v) :: ms, r)

end

def maxNestingDepth : Nat := 10000

/-- The value in front of a text, and what follows it. -/
def parseFront (s : List UInt8) : Option (Value × List UInt8) :=
  (parseValue (s.length + 1) s).filter fun (v, _) => depth v ≤ maxNestingDepth

/-- The value of a whole text. -/
def parse (s : List UInt8) : Option Value := do
  let (v, r) ← parseFront s
  if skipSpace r = [] then some v else none

/-! ## What is printed is parsed -/

/-- The texts in a value are those of strings and numbers. -/
inductive Well : Value → Prop
  | null : Well .null
  | bool (b : Bool) : Well (.bool b)
  | num {l} : validNumber l = true → (∀ c ∈ l, isNumberByte c = true) → Well (.num l)
  | str {b} : IsBody b → Well (.str b)
  | arr {vs} : (∀ v ∈ vs, Well v) → Well (.arr vs)
  | obj {ms} : (∀ m ∈ ms, IsBody m.1) → (∀ m ∈ ms, Well m.2) → Well (.obj ms)

/-- The text does not go on with a byte of a number. -/
def Ends (r : List UInt8) : Prop := ∀ c, r.head? = some c → isNumberByte c = false

theorem isNumberByte_spec (h : isNumberByte c = true) : isSpace c = false ∧
    c ≠ 34 ∧ c ≠ 91 ∧ c ≠ 93 ∧ c ≠ 123 ∧ c ≠ 125 ∧ c ≠ 110 ∧ c ≠ 116 ∧ c ≠ 102 := by
  have hall : ∀ n < 256, isNumberByte (UInt8.ofNat n) = true → isSpace (UInt8.ofNat n) = false ∧
      UInt8.ofNat n ≠ 34 ∧ UInt8.ofNat n ≠ 91 ∧ UInt8.ofNat n ≠ 93 ∧ UInt8.ofNat n ≠ 123 ∧ UInt8.ofNat n ≠ 125 ∧
      UInt8.ofNat n ≠ 110 ∧ UInt8.ofNat n ≠ 116 ∧ UInt8.ofNat n ≠ 102 := by decide +kernel
  have hc := hall c.toNat c.toNat_lt
  rw [UInt8.ofNat_toNat] at hc
  exact hc h

theorem print_cons (h : Well v) : ∃ c t, print v = c :: t ∧ isSpace c = false ∧ c ≠ 93 ∧ c ≠ 125 := by
  cases h with
  | null => exact ⟨110, _, rfl, by decide⟩
  | bool b => cases b <;> exact ⟨_, _, rfl, by decide⟩
  | @num l hvalid hbytes =>
    cases l with
    | nil => cases hvalid
    | cons c l =>
      obtain ⟨hspace, -, -, h93, -, h125, -⟩ := isNumberByte_spec (hbytes c mem_cons_self)
      exact ⟨c, l, by rw [print], hspace, h93, h125⟩
  | @str b hb => exact ⟨34, _, by rw [print], by decide⟩
  | @arr vs hvs => cases vs <;> exact ⟨91, _, by rw [print], by decide⟩
  | @obj ms hks hvs =>
    cases ms with
    | nil | cons m ms => exact ⟨123, _, by rw [print], by decide⟩

theorem skipSpace_cons (h : isSpace c = false) (t : List UInt8) : skipSpace (c :: t) = c :: t := by
  simp [skipSpace, h]

theorem expect_self (h : isSpace c = false) (t : List UInt8) : expect c (c :: t) = some t := by
  simp [expect, skipSpace_cons h]

theorem expect_ne (h : isSpace c = false) (hne : c ≠ d) (t : List UInt8) : expect d (c :: t) = none := by
  simp [expect, skipSpace_cons h, hne]

theorem parseNumber_append (hvalid : validNumber l = true) (hbytes : ∀ c ∈ l, isNumberByte c = true)
    (hr : Ends r) : parseNumber (l ++ r) = some (.num l, r) := by
  have htake : (l ++ r).takeWhile isNumberByte = l := by
    rw [takeWhile_append_of_pos hbytes]
    cases r with
    | nil => simp
    | cons c r => simp [hr c rfl]
  have hdrop : (l ++ r).dropWhile isNumberByte = r := by
    rw [dropWhile_append_of_pos hbytes]
    cases r with
    | nil => simp
    | cons c r => simp [hr c rfl]
  simp [parseNumber, htake, hdrop, hvalid]

theorem parseKey_print (h : IsBody k) (r : List UInt8) : parseKey (34 :: (k ++ 34 :: 58 :: r)) = some (k, r) := by
  have hquote := expect_self (c := 34) (by decide) (k ++ 34 :: 58 :: r)
  have hcolon := expect_self (c := 58) (by decide) r
  simp [parseKey, hquote, h (58 :: r), hcolon]

theorem ends_elems (vs : List Value) (r : List UInt8) : Ends (printElems vs ++ r) := by
  intro c hc
  cases vs <;> (rw [printElems] at hc; cases hc; decide)

theorem ends_members (ms : List (List UInt8 × Value)) (r : List UInt8) : Ends (printMembers ms ++ r) := by
  intro c hc
  cases ms <;> (rw [printMembers] at hc; cases hc; decide)

mutual

theorem parseValue_print : ∀ {v : Value} {n : Nat} {r : List UInt8}, Well v → (print v).length ≤ n → Ends r →
    parseValue n (print v ++ r) = some (v, r)
  | v, 0, r, h, hn, _ => by
    obtain ⟨c, t, hv, -⟩ := print_cons h
    rw [hv, length_cons] at hn
    omega
  | .null, n + 1, r, _, _, _ => by
    simp [print, parseValue, skipSpace_cons, isSpace, parseName]
  | .bool true, n + 1, r, _, _, _ => by
    simp [print, parseValue, skipSpace_cons, isSpace, parseName]
  | .bool false, n + 1, r, _, _, _ => by
    simp [print, parseValue, skipSpace_cons, isSpace, parseName]
  | .num l, n + 1, r, h, _, hr => by
    cases h with
    | num hvalid hbytes =>
      cases l with
      | nil => cases hvalid
      | cons c l =>
        obtain ⟨hspace, h34, h91, -, h123, -, h110, h116, h102⟩ := isNumberByte_spec (hbytes c mem_cons_self)
        have hnum := parseNumber_append hvalid hbytes hr
        rw [print]
        rw [cons_append] at hnum ⊢
        simp only [parseValue, skipSpace_cons hspace, h34, h91, h123, h110, h116, h102, if_false, hnum]
  | .str b, n + 1, r, h, _, _ => by
    cases h with
    | str hb =>
      simp [print, parseValue, skipSpace_cons, isSpace, hb r]
  | .arr [], n + 1, r, _, _, _ => by
    simp [print, parseValue, skipSpace_cons, isSpace, expect]
  | .arr (v :: vs), n + 1, r, h, hn, _ => by
    cases h with
    | arr hvs =>
      rw [print, length_cons, length_append] at hn
      have hv := hvs v mem_cons_self
      obtain ⟨c, t, hc, hspace, h93, -⟩ := print_cons hv
      have hno : expect 93 (print v ++ (printElems vs ++ r)) = none := by
        rw [hc, cons_append]
        exact expect_ne hspace h93 _
      have hfirst := @parseValue_print v n (printElems vs ++ r) hv (by omega) (ends_elems vs r)
      have hrest := @parseElems_print vs n r (fun v hv => hvs v (mem_cons_of_mem _ hv)) (by omega)
      rw [print, cons_append, append_assoc, parseValue, skipSpace_cons (by decide)]
      simp [hno, hfirst, hrest]
  | .obj [], n + 1, r, _, _, _ => by
    simp [print, parseValue, skipSpace_cons, isSpace, expect]
  | .obj ((k, v) :: ms), n + 1, r, h, hn, _ => by
    cases h with
    | obj hks hvs =>
      rw [print] at hn
      simp only [length_cons, length_append] at hn
      have hv : Well v := hvs (k, v) mem_cons_self
      have hk : IsBody k := hks (k, v) mem_cons_self
      have hno : expect 125 (34 :: (k ++ 34 :: 58 :: (print v ++ (printMembers ms ++ r)))) = none :=
        expect_ne (by decide) (by decide) _
      have hkey := parseKey_print hk (print v ++ (printMembers ms ++ r))
      have hfirst := @parseValue_print v n (printMembers ms ++ r) hv (by omega) (ends_members ms r)
      have hrest := @parseMembers_print ms n r (fun m hm => hks m (mem_cons_of_mem _ hm))
        (fun m hm => hvs m (mem_cons_of_mem _ hm)) (by omega)
      have hsplit : print (.obj ((k, v) :: ms)) ++ r =
          123 :: 34 :: (k ++ 34 :: 58 :: (print v ++ (printMembers ms ++ r))) := by
        rw [print]
        simp
      rw [hsplit, parseValue, skipSpace_cons (by decide)]
      simp [hno, hkey, hfirst, hrest]

theorem parseElems_print : ∀ {vs : List Value} {n : Nat} {r : List UInt8}, (∀ v ∈ vs, Well v) →
    (printElems vs).length ≤ n → parseElems n (printElems vs ++ r) = some (vs, r)
  | vs, 0, r, _, hn => by cases vs <;> (rw [printElems] at hn; cases hn)
  | [], n + 1, r, _, _ => by
    simp [printElems, parseElems, expect_self (c := 93) (by decide)]
  | v :: vs, n + 1, r, hvs, hn => by
    rw [printElems, length_cons, length_append] at hn
    have hfirst := @parseValue_print v n (printElems vs ++ r) (hvs v mem_cons_self) (by omega) (ends_elems vs r)
    have hrest := @parseElems_print vs n r (fun v hv => hvs v (mem_cons_of_mem _ hv)) (by omega)
    have hno := expect_ne (c := 44) (d := 93) (by decide) (by decide) (print v ++ (printElems vs ++ r))
    have hcomma := expect_self (c := 44) (by decide) (print v ++ (printElems vs ++ r))
    rw [printElems, cons_append, append_assoc, parseElems]
    simp [hno, hcomma, hfirst, hrest]

theorem parseMembers_print : ∀ {ms : List (List UInt8 × Value)} {n : Nat} {r : List UInt8}, (∀ m ∈ ms, IsBody m.1) →
    (∀ m ∈ ms, Well m.2) → (printMembers ms).length ≤ n → parseMembers n (printMembers ms ++ r) = some (ms, r)
  | ms, 0, r, _, _, hn => by cases ms <;> (rw [printMembers] at hn; cases hn)
  | [], n + 1, r, _, _, _ => by
    simp [printMembers, parseMembers, expect_self (c := 125) (by decide)]
  | (k, v) :: ms, n + 1, r, hks, hvs, hn => by
    rw [printMembers] at hn
    simp only [length_cons, length_append] at hn
    have hk : IsBody k := hks (k, v) mem_cons_self
    have hv : Well v := hvs (k, v) mem_cons_self
    have hkey := parseKey_print hk (print v ++ (printMembers ms ++ r))
    have hfirst := @parseValue_print v n (printMembers ms ++ r) hv (by omega) (ends_members ms r)
    have hrest := @parseMembers_print ms n r (fun m hm => hks m (mem_cons_of_mem _ hm))
      (fun m hm => hvs m (mem_cons_of_mem _ hm)) (by omega)
    have hsplit : printMembers ((k, v) :: ms) ++ r =
        44 :: 34 :: (k ++ 34 :: 58 :: (print v ++ (printMembers ms ++ r))) := by
      rw [printMembers]
      simp
    have hno := expect_ne (c := 44) (d := 125) (by decide) (by decide)
      (34 :: (k ++ 34 :: 58 :: (print v ++ (printMembers ms ++ r))))
    have hcomma := expect_self (c := 44) (by decide) (34 :: (k ++ 34 :: 58 :: (print v ++ (printMembers ms ++ r))))
    rw [hsplit, parseMembers]
    simp [hno, hcomma, hkey, hfirst, hrest]

end

/-- **A printed value is read back**, whatever follows it. -/
theorem parseFront_print (h : Well v) (hdepth : depth v ≤ maxNestingDepth) (hr : Ends r) :
    parseFront (print v ++ r) = some (v, r) := by
  rw [parseFront, parseValue_print h (by simp; omega) hr]
  simp [hdepth]

theorem parse_print (h : Well v) (hdepth : depth v ≤ maxNestingDepth) : parse (print v) = some v := by
  have hfront := parseFront_print h hdepth (r := []) (fun c hc => by cases hc)
  rw [append_nil] at hfront
  simp [parse, hfront, skipSpace]

/-! ## More bytes behind a value -/

section Append

variable {n : Nat}

variable {s r q : List UInt8}

theorem dropWhile_append {p : UInt8 → Bool} (h : s.dropWhile p ≠ []) :
    (s ++ q).takeWhile p = s.takeWhile p ∧ (s ++ q).dropWhile p = s.dropWhile p ++ q := by
  induction s with
  | nil => exact absurd rfl h
  | cons c s ih =>
    cases hc : p c with
    | false => simp [hc]
    | true =>
      simp only [dropWhile_cons, hc, if_true] at h
      simp [hc, ih h]

theorem skipSpace_append (h : skipSpace s = c :: r) : skipSpace (s ++ q) = c :: (r ++ q) := by
  have hne : s.dropWhile isSpace ≠ [] := by
    intro hnil
    rw [skipSpace, hnil] at h
    cases h
  rw [skipSpace, (dropWhile_append hne).2]
  exact congrArg (· ++ q) h

theorem expect_append (h : expect c s = some r) : expect c (s ++ q) = some (r ++ q) := by
  unfold expect at h ⊢
  cases hs : skipSpace s with
  | nil => simp [hs] at h
  | cons d t =>
    rw [skipSpace_append hs]
    simp only [hs, ite_none_right_eq_some, some.injEq] at h ⊢
    exact ⟨h.1, by rw [h.2]⟩

theorem expect_none_append (h : expect c s = none) (hs : skipSpace s ≠ []) : expect c (s ++ q) = none := by
  obtain ⟨d, t, ht⟩ := exists_cons_of_ne_nil hs
  unfold expect at h ⊢
  rw [skipSpace_append ht]
  simp only [ht, ite_eq_right_iff, reduceCtorEq] at h ⊢
  exact h

theorem skipSpace_of_expect (h : expect c s = some r) : skipSpace s ≠ [] := by
  intro hs
  simp [expect, hs] at h

theorem parseName_append (h : parseName name v s = some (w, r)) : parseName name v (s ++ q) = some (w, r ++ q) := by
  simp only [parseName, ite_none_right_eq_some, some.injEq, Prod.mk.injEq, isPrefixOf_iff_prefix] at h ⊢
  obtain ⟨hname, rfl, rfl⟩ := h
  exact ⟨hname.trans (prefix_append _ _), rfl, drop_append_of_le_length hname.length_le⟩

theorem parseNumber_more (h : parseNumber s = some (v, r)) (hr : r ≠ []) :
    parseNumber (s ++ q) = some (v, r ++ q) := by
  simp only [parseNumber, ite_none_right_eq_some, some.injEq, Prod.mk.injEq] at h ⊢
  obtain ⟨hvalid, rfl, rfl⟩ := h
  obtain ⟨htake, hdrop⟩ := @dropWhile_append s q isNumberByte hr
  rw [htake, hdrop]
  exact ⟨hvalid, rfl, rfl⟩

theorem parseKey_append (h : parseKey s = some (k, r)) : parseKey (s ++ q) = some (k, r ++ q) := by
  simp only [parseKey, bind_eq_bind, bind_eq_some_iff, Option.pure_def, some.injEq] at h ⊢
  obtain ⟨s₁, hquote, ⟨k', s₂⟩, hscan, s₃, hcolon, heq⟩ := h
  cases heq
  exact ⟨s₁ ++ q, expect_append hquote, (k', s₂ ++ q), scanFrom_append hscan, _, expect_append hcolon, rfl⟩

def Value.isNum : Value → Bool
  | .num _ => true
  | _ => false

theorem skipSpace_of_parseValue (h : parseValue n s = some (v, r)) : skipSpace s ≠ [] := by
  intro hs
  cases n <;> simp [parseValue, hs] at h

/-- The three parsers on a text with more bytes behind it, and with more
fuel. -/
structure Extends (n : Nat) : Prop where
  value : ∀ {m s v r q}, n ≤ m → parseValue n s = some (v, r) → (r ≠ [] ∨ v.isNum = false) →
    parseValue m (s ++ q) = some (v, r ++ q)
  elems : ∀ {m s vs r q}, n ≤ m → parseElems n s = some (vs, r) → parseElems m (s ++ q) = some (vs, r ++ q)
  members : ∀ {m s ms r q}, n ≤ m → parseMembers n s = some (ms, r) → parseMembers m (s ++ q) = some (ms, r ++ q)

theorem ne_nil_of_parseElems (h : parseElems n s = some (vs, r)) : s ≠ [] := by
  rintro rfl
  cases n <;> simp [parseElems, expect, skipSpace] at h

theorem ne_nil_of_parseMembers (h : parseMembers n s = some (ms, r)) : s ≠ [] := by
  rintro rfl
  cases n <;> simp [parseMembers, expect, skipSpace] at h

theorem extends_zero : Extends 0 where
  value _ h := by simp [parseValue] at h
  elems _ h := by simp [parseElems] at h
  members _ h := by simp [parseMembers] at h

theorem Extends.succ (ih : Extends n) : Extends (n + 1) where
  value {m s v r q} hm h hr := by
    obtain ⟨m, rfl⟩ : ∃ k, m = k + 1 := ⟨m - 1, by omega⟩
    rw [parseValue] at h ⊢
    cases hs : skipSpace s with
    | nil => simp [hs] at h
    | cons c t =>
      rw [skipSpace_append hs]
      simp only [hs] at h ⊢
      by_cases hc : c = 34
      · rw [if_pos hc] at h ⊢
        obtain ⟨⟨b, r'⟩, hscan, heq⟩ := map_eq_some_iff.mp h
        cases heq
        rw [scanString, scanFrom_append hscan]
        rfl
      rw [if_neg hc] at h ⊢
      by_cases hc : c = 91
      · rw [if_pos hc] at h ⊢
        cases hend : expect 93 t with
        | some r' =>
          simp only [hend, expect_append hend] at h ⊢
          cases h
          rfl
        | none =>
          simp only [hend, bind_eq_bind, bind_eq_some_iff] at h
          obtain ⟨⟨w, r₁⟩, hw, ⟨ws, r₂⟩, hws, heq⟩ := h
          cases heq
          have hfirst := ih.value (m := m) (q := q) (by omega) hw (.inl (ne_nil_of_parseElems hws))
          have hrest := ih.elems (m := m) (q := q) (by omega) hws
          simp [expect_none_append hend (skipSpace_of_parseValue hw), hfirst, hrest]
      rw [if_neg hc] at h ⊢
      by_cases hc : c = 123
      · rw [if_pos hc] at h ⊢
        cases hend : expect 125 t with
        | some r' =>
          simp only [hend, expect_append hend] at h ⊢
          cases h
          rfl
        | none =>
          simp only [hend, bind_eq_bind, bind_eq_some_iff] at h
          obtain ⟨⟨k, r₀⟩, hk, ⟨w, r₁⟩, hw, ⟨ms, r₂⟩, hms, heq⟩ := h
          cases heq
          have hkey : skipSpace t ≠ [] := by
            simp only [parseKey, bind_eq_bind, bind_eq_some_iff] at hk
            obtain ⟨t', ht', -⟩ := hk
            exact skipSpace_of_expect ht'
          have hfirst := ih.value (m := m) (q := q) (by omega) hw (.inl (ne_nil_of_parseMembers hms))
          have hrest := ih.members (m := m) (q := q) (by omega) hms
          simp [expect_none_append hend hkey, parseKey_append hk, hfirst, hrest]
      rw [if_neg hc] at h ⊢
      iterate 3
        split
        next hc => rw [if_pos hc] at h; exact parseName_append h
        rename_i hc
        rw [if_neg hc] at h
      rw [← cons_append]
      refine parseNumber_more h (hr.resolve_right ?_)
      simp only [parseNumber, ite_none_right_eq_some, some.injEq, Prod.mk.injEq] at h
      rw [← h.2.1]
      simp [Value.isNum]
  elems {m s vs r q} hm h := by
    obtain ⟨m, rfl⟩ : ∃ k, m = k + 1 := ⟨m - 1, by omega⟩
    rw [parseElems] at h ⊢
    cases hend : expect 93 s with
    | some r' =>
      simp only [hend, expect_append hend] at h ⊢
      cases h
      rfl
    | none =>
      simp only [hend, bind_eq_bind, bind_eq_some_iff] at h
      obtain ⟨s₁, hcomma, ⟨w, r₁⟩, hw, ⟨ws, r₂⟩, hws, heq⟩ := h
      cases heq
      have hfirst := ih.value (m := m) (q := q) (by omega) hw (.inl (ne_nil_of_parseElems hws))
      have hrest := ih.elems (m := m) (q := q) (by omega) hws
      simp [expect_none_append hend (skipSpace_of_expect hcomma), expect_append hcomma, hfirst, hrest]
  members {m s ms r q} hm h := by
    obtain ⟨m, rfl⟩ : ∃ k, m = k + 1 := ⟨m - 1, by omega⟩
    rw [parseMembers] at h ⊢
    cases hend : expect 125 s with
    | some r' =>
      simp only [hend, expect_append hend] at h ⊢
      cases h
      rfl
    | none =>
      simp only [hend, bind_eq_bind, bind_eq_some_iff] at h
      obtain ⟨s₁, hcomma, ⟨k, r₀⟩, hk, ⟨w, r₁⟩, hw, ⟨ms', r₂⟩, hms, heq⟩ := h
      cases heq
      have hfirst := ih.value (m := m) (q := q) (by omega) hw (.inl (ne_nil_of_parseMembers hms))
      have hrest := ih.members (m := m) (q := q) (by omega) hms
      simp [expect_none_append hend (skipSpace_of_expect hcomma), expect_append hcomma,
        parseKey_append hk, hfirst, hrest]

theorem extends_all (n : Nat) : Extends n := by
  induction n with
  | zero => exact extends_zero
  | succ n ih => exact ih.succ

/-- **A value that is accepted is accepted in front of more bytes.** -/
theorem parseValue_append (hm : n ≤ m) (h : parseValue n s = some (v, r))
    (hr : r ≠ [] ∨ v.isNum = false) : parseValue m (s ++ q) = some (v, r ++ q) := (extends_all n).value hm h hr

end Append

/-- **No proper first part of a printed object is a JSON text.** -/
theorem parse_part (h : Well (.obj ms)) (hpq : print (.obj ms) = p ++ q) (hq : q ≠ []) : parse p = none := by
  by_contra hne
  obtain ⟨v, hv⟩ := ne_none_iff_exists'.mp hne
  simp only [parse, bind_eq_bind, bind_eq_some_iff] at hv
  obtain ⟨⟨w, r⟩, hfront, -⟩ := hv
  rw [parseFront, filter_eq_some_iff] at hfront
  have hparse := hfront.1
  -- The first byte says that the value is an object.
  have hnum : w.isNum = false := by
    cases p with
    | nil => simp [parseValue, skipSpace] at hparse
    | cons c p =>
      have hc : c = 123 := by
        have hhead := congrArg List.head? hpq
        cases ms with
        | nil | cons m ms => simpa [print] using hhead.symm
      subst hc
      rw [parseValue, skipSpace_cons (by decide)] at hparse
      simp only at hparse
      rw [if_neg (by decide), if_neg (by decide), if_pos trivial] at hparse
      split at hparse
      · cases hparse
        rfl
      · simp only [bind_eq_bind, bind_eq_some_iff] at hparse
        obtain ⟨_, _, _, _, _, _, heq⟩ := hparse
        cases heq
        rfl
  have hlong := parseValue_append (m := (print (.obj ms)).length + 1) (q := q)
    (by rw [hpq, length_append]; omega) hparse (.inr hnum)
  have hwhole := parseValue_print h (n := (print (.obj ms)).length + 1) (r := []) (by omega) (fun c hc => by cases hc)
  rw [← hpq] at hlong
  rw [append_nil, hlong, some.injEq, Prod.mk.injEq, append_eq_nil_iff] at hwhole
  exact hq hwhole.2.2

/-! ## The bytes of a text -/

theorem isNumberByte_ge (h : isNumberByte c = true) : 32 ≤ c := by
  unfold isNumberByte isDigit at h
  grind

mutual

theorem print_bytes : ∀ {v : Value}, Well v → ∀ c ∈ print v, 32 ≤ c
  | .null, _ => by simp [print]
  | .bool true, _ => by simp [print]
  | .bool false, _ => by simp [print]
  | .num l, .num _ hbytes => fun c hc => isNumberByte_ge (hbytes c hc)
  | .str b, .str hb => by
    have hbytes := hb.bytes
    simpa [print, or_imp, forall_and] using hbytes
  | .arr [], _ => by simp [print]
  | .arr (v :: vs), .arr hv => by
    have hfirst := print_bytes (hv v mem_cons_self)
    have hrest := printElems_bytes fun w hw => hv w (mem_cons_of_mem _ hw)
    simpa [print, or_imp, forall_and] using ⟨hfirst, hrest⟩
  | .obj [], _ => by simp [print]
  | .obj ((k, v) :: ms), .obj hk hv => by
    have hkey := (hk (k, v) mem_cons_self).bytes
    have hfirst := print_bytes (hv (k, v) mem_cons_self)
    have hrest := printMembers_bytes (fun m hm => hk m (mem_cons_of_mem _ hm))
      (fun m hm => hv m (mem_cons_of_mem _ hm))
    simpa [print, or_imp, forall_and] using ⟨hkey, hfirst, hrest⟩

theorem printElems_bytes : ∀ {vs : List Value}, (∀ v ∈ vs, Well v) → ∀ c ∈ printElems vs, 32 ≤ c
  | [], _ => by simp [printElems]
  | v :: vs, h => by
    have hfirst := print_bytes (h v mem_cons_self)
    have hrest := printElems_bytes fun w hw => h w (mem_cons_of_mem _ hw)
    simpa [printElems, or_imp, forall_and] using ⟨hfirst, hrest⟩

theorem printMembers_bytes : ∀ {ms : List (List UInt8 × Value)}, (∀ m ∈ ms, IsBody m.1) → (∀ m ∈ ms, Well m.2) →
    ∀ c ∈ printMembers ms, 32 ≤ c
  | [], _, _ => by simp [printMembers]
  | (k, v) :: ms, hk, hv => by
    have hkey := (hk (k, v) mem_cons_self).bytes
    have hfirst := print_bytes (hv (k, v) mem_cons_self)
    have hrest := printMembers_bytes (fun m hm => hk m (mem_cons_of_mem _ hm))
      (fun m hm => hv m (mem_cons_of_mem _ hm))
    simpa [printMembers, or_imp, forall_and] using ⟨hkey, hfirst, hrest⟩

end

/-- The members of an object with their quotes, colons and commas. -/
def membersSize (ms : List (List UInt8 × Value)) : Nat := (ms.map fun m => m.1.length + (print m.2).length + 4).sum

@[simp] theorem membersSize_nil : membersSize [] = 0 := rfl

@[simp] theorem membersSize_cons (m : List UInt8 × Value) (ms : List (List UInt8 × Value)) :
    membersSize (m :: ms) = m.1.length + (print m.2).length + 4 + membersSize ms := by simp [membersSize]

@[simp] theorem membersSize_append (ms ms' : List (List UInt8 × Value)) :
    membersSize (ms ++ ms') = membersSize ms + membersSize ms' := by simp [membersSize]

theorem length_printMembers (ms : List (List UInt8 × Value)) : (printMembers ms).length = membersSize ms + 1 := by
  induction ms with
  | nil => rfl
  | cons m ms ih =>
    obtain ⟨k, v⟩ := m
    simp only [printMembers, length_cons, length_append, ih, membersSize_cons]
    omega

theorem length_print_obj_of_ne (h : ms ≠ []) : (print (.obj ms)).length = membersSize ms + 1 := by
  obtain ⟨⟨k, v⟩, ms, rfl⟩ := exists_cons_of_ne_nil h
  simp only [print, length_cons, length_append, length_printMembers, membersSize_cons]
  omega

theorem length_print_obj (ms : List (List UInt8 × Value)) :
    membersSize ms < (print (.obj ms)).length ∧ (print (.obj ms)).length ≤ membersSize ms + 2 := by
  by_cases h : ms = []
  · simp [h, print]
  · rw [length_print_obj_of_ne h]
    omega

theorem length_member_lt (h : m ∈ ms) : (print m.2).length < (print (.obj ms)).length := by
  have hle : (print m.2).length ≤ membersSize ms := by
    induction ms with
    | nil => cases h
    | cons m' ms ih =>
      rw [membersSize_cons]
      rcases mem_cons.mp h with rfl | h
      · omega
      · have hrest := ih h
        omega
  exact hle.trans_lt (length_print_obj ms).1

/-! ## Numbers -/

theorem decimal_head (n : Nat) : (decimal n).head? ≠ some 48 ∨ (decimal n).length = 1 := by
  unfold decimal
  split
  next => exact .inr rfl
  next hn =>
    refine .inl ?_
    have hne : Nat.digits 10 n ≠ [] := Nat.digits_ne_nil_iff_ne_zero.mpr hn
    have hdigit : ∀ d < 10, d ≠ 0 → digit d ≠ 48 := by decide
    have hlast := Nat.getLast_digit_ne_zero 10 hn
    have hlt : (Nat.digits 10 n).getLast hne < 10 := Nat.digits_lt_base (by decide) (getLast_mem hne)
    rw [head?_map, head?_reverse, getLast?_eq_some_getLast hne, map_some, ne_eq, some.injEq]
    exact hdigit _ hlt hlast

theorem validNumber_decimal (n : Nat) : validNumber (decimal n) = true ∧ validNumber (45 :: decimal n) = true := by
  obtain ⟨hdigits, -, hne⟩ := decimal_spec n
  have htake : (decimal n).takeWhile isDigit = decimal n := takeWhile_eq_self_iff.mpr hdigits
  have hdrop : (decimal n).dropWhile isDigit = [] := dropWhile_eq_nil_iff.mpr hdigits
  have hsign : (decimal n).head? ≠ some 45 := by
    intro hhead
    exact absurd (hdigits 45 (mem_of_head? hhead)) (by decide)
  have hhead := decimal_head n
  simp [validNumber, hsign, htake, hdrop, hne, validFraction, validExponent, hhead]

theorem well_formatInt (z : Int) : Well (.num (formatInt z)) := by
  obtain ⟨hdigits, -, -⟩ := decimal_spec z.natAbs
  obtain ⟨hpos, hneg⟩ := validNumber_decimal z.natAbs
  have hbytes : ∀ c ∈ decimal z.natAbs, isNumberByte c = true := fun c hc => by
    simp [isNumberByte, hdigits c hc]
  unfold formatInt
  split
  · exact .num hneg (forall_mem_cons.mpr ⟨by decide, hbytes⟩)
  · exact .num hpos hbytes

theorem well_decimal (n : Nat) : Well (.num (decimal n)) := by
  have h := well_formatInt n
  rwa [formatInt, if_neg (by omega), Int.natAbs_natCast] at h

end JsonText
