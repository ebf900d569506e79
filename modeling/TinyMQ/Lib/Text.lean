/-
Strings as lists over any alphabet: the searches and substitutions a
program makes on them, and when a substitution can be undone.

`replaceAll` is the usual left-to-right, non-overlapping substitution.
`expand_undone_iff` is the law of an unescaped code: a separator `s`
written out as the three letters `u x u` is recovered by replacing them
back exactly when the text contains neither `u x u` nor `u x s`. The second
is the surprising one: the letters `u x` just before a separator and the
first letter of its code are taken for a code themselves.
-/
import Mathlib.Data.List.Infix
import Mathlib.Data.List.Basic

namespace Text

open List

variable {α : Type} [DecidableEq α]

/-! ## Search -/

/-- `sub` occurs in `s`. -/
def contains (s sub : List α) : Bool := decide (sub <:+: s)

def hasPrefix (s p : List α) : Bool := decide (p <+: s)

def hasSuffix (s p : List α) : Bool := decide (p <:+ s)

@[simp] theorem contains_iff {s sub : List α} : contains s sub = true ↔ sub <:+: s := by
  simp [contains]

@[simp] theorem hasPrefix_iff {s p : List α} : hasPrefix s p = true ↔ p <+: s := by
  simp [hasPrefix]

@[simp] theorem hasSuffix_iff {s p : List α} : hasSuffix s p = true ↔ p <:+ s := by
  simp [hasSuffix]

/-- Without the given start, if it starts so. -/
def trimPrefix (s p : List α) : List α := if p <+: s then s.drop p.length else s

/-- The text before the first `sep`, all of it if there is none. -/
def before (sep : List α) : List α → List α
  | [] => []
  | c :: cs => if sep <+: c :: cs then [] else c :: before sep cs

/-- Where a doubled letter can lie in a concatenation: in one of the parts,
or across their border. -/
theorem double_infix_append : [a, a] <:+: l ++ a :: r ↔ [a, a] <:+: l ∨ [a] <:+ l ∨ [a, a] <:+: a :: r := by
  induction l with
  | nil => simp
  | cons c l ih =>
    have hl : [a, a] <:+: c :: l ↔ [a, a] <+: c :: l ∨ [a, a] <:+: l := infix_cons_iff
    rw [cons_append, infix_cons_iff, ih, hl]
    rcases l with _ | ⟨d, l⟩
    · simp [suffix_cons_iff]
    · simp only [cons_append, cons_prefix_cons, nil_prefix, and_true,
        suffix_cons_iff (a := c), cons.injEq, nil_eq, reduceCtorEq, and_false, false_or]
      tauto

/-- A doubled letter is found where it was put, unless one comes before it or
runs into it. -/
theorem before_double (r : List α) (hl : ¬ [a, a] <:+: l) (hend : ¬ [a] <:+ l) :
    before [a, a] (l ++ a :: a :: r) = l := by
  induction l with
  | nil => simp [before]
  | cons c l ih =>
    have hstart : ¬ [a, a] <+: c :: (l ++ a :: a :: r) := by
      intro hp
      obtain ⟨rfl, hp'⟩ := cons_prefix_cons.mp hp
      cases l with
      | nil => exact hend (suffix_refl _)
      | cons d l =>
        obtain ⟨rfl, -⟩ := cons_prefix_cons.mp hp'
        exact hl ⟨[], l, rfl⟩
    have hrest := ih (fun h => hl (infix_cons h)) fun h => hend (h.trans (suffix_cons _ _))
    rw [cons_append, before, if_neg hstart, hrest]

omit [DecidableEq α] in
theorem double_infix_append_of_not_mem (h : a ∉ l) : [a, a] <:+: l ++ r ↔ [a, a] <:+: r := by
  induction l with
  | nil => simp
  | cons c l ih =>
    obtain ⟨hc, hl⟩ := ne_and_not_mem_of_not_mem_cons h
    simp [infix_cons_iff, hc, ih hl]

omit [DecidableEq α] in
theorem double_infix_append_right {l r : List α} (h : a ∉ r) : [a, a] <:+: l ++ r ↔ [a, a] <:+: l := by
  have hr : a ∉ r.reverse := by simpa using h
  have hturn : ∀ w : List α, [a, a] <:+: w ↔ [a, a] <:+: w.reverse := fun w => reverse_infix.symm
  rw [hturn (l ++ r), hturn l, reverse_append]
  exact double_infix_append_of_not_mem hr

/-- Doubled letters are where they were when the letter stands for itself in
a coding, and in no other code. -/
theorem double_infix_flatMap {f : α → List α} (ha : f a = [a]) (hf : ∀ c, c ≠ a → f c ≠ [] ∧ a ∉ f c) (t : List α) :
    [a, a] <:+: t.flatMap f ↔ [a, a] <:+: t := by
  induction t with
  | nil => simp
  | cons c t ih =>
    rw [flatMap_cons]
    by_cases hc : c = a
    · subst hc
      have hstart : [c] <+: t.flatMap f ↔ [c] <+: t := by
        cases t with
        | nil => simp
        | cons d t =>
          rw [flatMap_cons]
          by_cases hd : d = c
          · simp [hd, ha]
          · obtain ⟨hne, hnot⟩ := hf d hd
            obtain ⟨e, w, he⟩ := exists_cons_of_ne_nil hne
            rw [he] at hnot
            simp only [mem_cons, not_or] at hnot
            simp [he, hnot.1, Ne.symm hd]
      rw [ha, singleton_append, infix_cons_iff, infix_cons_iff, ih,
        cons_prefix_cons, cons_prefix_cons,
        hstart]
    · have hskip : [a, a] <:+: [c] ++ t ↔ [a, a] <:+: t :=
        double_infix_append_of_not_mem (by simpa using Ne.symm hc)
      rw [double_infix_append_of_not_mem (hf c hc).2, ih, ← hskip]
      rfl

/-! ## Lines -/

/-- The pieces between separators; what follows the last separator counts
when it is not empty. -/
def lines (sep : α) : List α → List (List α)
  | [] => []
  | c :: cs =>
    if c = sep then [] :: lines sep cs
    else match lines sep cs with
      | [] => [[c]]
      | l :: ls => (c :: l) :: ls

theorem lines_terminated : ∀ {l : List α}, sep ∉ l → lines sep (l ++ sep :: rest) = l :: lines sep rest
  | [], _ => by simp [lines]
  | c :: l, h => by
    simp only [mem_cons, not_or] at h
    simp only [cons_append, lines, if_neg (Ne.symm h.1), lines_terminated h.2]

theorem lines_flatMap {ls : List (List α)} (h : ∀ l ∈ ls, sep ∉ l) :
    lines sep (ls.flatMap fun l => l ++ [sep]) = ls := by
  induction ls with
  | nil => rfl
  | cons l ls ih =>
    rw [flatMap_cons, append_assoc, singleton_append, lines_terminated (h l (by simp)),
      ih fun l' hl => h l' (by simp [hl])]

theorem lines_ne_nil (sep : α) (h : s ≠ []) : lines sep s ≠ [] := by
  cases s with
  | nil => exact absurd rfl h
  | cons c s =>
    simp only [lines]
    split
    · simp
    · split <;> simp

theorem lines_concat_append (sep : α) (s rest : List α) :
    lines sep (s ++ [sep] ++ rest) = lines sep (s ++ [sep]) ++ lines sep rest := by
  induction s with
  | nil => simp [lines]
  | cons c s ih =>
    rw [append_assoc, singleton_append] at ih ⊢
    simp only [cons_append, lines]
    split
    · rw [ih, cons_append]
    · rw [ih]
      cases hl : lines sep (s ++ [sep]) with
      | nil => exact absurd hl (lines_ne_nil sep (by simp))
      | cons l ls => rfl

theorem lines_unterminated {sep : α} {l : List α} (h : sep ∉ l) (hne : l ≠ []) : lines sep l = [l] := by
  induction l with
  | nil => exact absurd rfl hne
  | cons c l ih =>
    simp only [mem_cons, not_or] at h
    simp only [lines, if_neg (Ne.symm h.1)]
    cases l with
    | nil => rfl
    | cons c' l => rw [ih h.2 (by simp)]

/-- The terminated pieces, the first of which has already begun with `line`. -/
def linesFrom (sep : α) (line : List α) : List α → List (List α)
  | [] => []
  | c :: cs => if c = sep then line :: linesFrom sep [] cs else linesFrom sep (line ++ [c]) cs

/-- The pieces before each separator; what follows the last one is still
incomplete. -/
def completeLines (sep : α) (s : List α) : List (List α) := linesFrom sep [] s

theorem linesFrom_terminated (line : List α) (h : sep ∉ l) :
    linesFrom sep line (l ++ sep :: rest) = (line ++ l) :: linesFrom sep [] rest := by
  induction l generalizing line with
  | nil => simp [linesFrom]
  | cons c l ih =>
    obtain ⟨hc, hl⟩ := ne_and_not_mem_of_not_mem_cons h
    rw [cons_append, linesFrom, if_neg (Ne.symm hc), ih _ hl, append_assoc, singleton_append]

theorem completeLines_flatMap {ls : List (List α)} (h : ∀ l ∈ ls, sep ∉ l) :
    completeLines sep (ls.flatMap fun l => l ++ [sep]) = ls := by
  induction ls with
  | nil => rfl
  | cons l ls ih =>
    rw [flatMap_cons, append_assoc, singleton_append, completeLines,
      linesFrom_terminated [] (h l (by simp)), nil_append]
    exact congrArg (l :: ·) (ih fun l' hl => h l' (by simp [hl]))

/-- The fields between separators, at most `n` of them: the last one is the
rest of the text. -/
def splitN (sep : α) : Nat → List α → List (List α)
  | 0, _ => []
  | 1, s => [s]
  | n + 2, s =>
    if sep ∈ s then s.takeWhile (· ≠ sep) :: splitN sep (n + 1) ((s.dropWhile (· ≠ sep)).drop 1) else [s]

theorem splitN_cons (n : Nat) (h : sep ∉ l) (rest : List α) :
    splitN sep (n + 2) (l ++ sep :: rest) = l :: splitN sep (n + 1) rest := by
  have hl : ∀ c ∈ l, decide (c ≠ sep) = true := fun c hc => decide_eq_true fun heq => h (heq ▸ hc)
  rw [splitN, if_pos (by simp), takeWhile_append_of_pos hl, dropWhile_append_of_pos hl]
  simp

theorem splitN_last {sep : α} {s : List α} (n : Nat) (h : sep ∉ s) : splitN sep (n + 1) s = [s] := by
  cases n with
  | zero => rfl
  | succ n => rw [splitN, if_neg h]

/-! ## Trimming -/

/-- Without the given sequences at its start, as often as there are any;
`fuel` bounds how often. -/
def trimStart (seqs : List (List α)) : Nat → List α → List α
  | 0, s => s
  | fuel + 1, s =>
    match seqs.find? fun w => w <+: s with
    | some w => trimStart seqs fuel (s.drop w.length)
    | none => s

/-- Without the given sequences at both ends. -/
def trim (seqs : List (List α)) (s : List α) : List α :=
  let s := trimStart seqs s.length s
  (trimStart (seqs.map List.reverse) s.length s.reverse).reverse

theorem trimStart_eq_self {seqs : List (List α)} (h : ∀ w ∈ seqs, ¬ w <+: s) (fuel : Nat) :
    trimStart seqs fuel s = s := by
  cases fuel with
  | zero => rfl
  | succ fuel =>
    have hnone : seqs.find? (fun w => decide (w <+: s)) = none := by simpa using h
    rw [trimStart, hnone]

theorem trim_eq_self {seqs : List (List α)} {s : List α} (hstart : ∀ w ∈ seqs, ¬ w <+: s)
    (hend : ∀ w ∈ seqs, ¬ w <:+ s) : trim seqs s = s := by
  have hback : ∀ w ∈ seqs.map List.reverse, ¬ w <+: s.reverse := by
    intro w hw
    obtain ⟨v, hv, rfl⟩ := List.mem_map.mp hw
    rw [ reverse_prefix]
    exact hend v hv
  rw [trim, trimStart_eq_self hstart, trimStart_eq_self hback, reverse_reverse]

/-! ## Substitution -/

/-- `replaceAll` with `skip` letters of an occurrence still to be passed. -/
def replaceFrom (old new : List α) : Nat → List α → List α
  | _, [] => []
  | skip + 1, _ :: cs => replaceFrom old new skip cs
  | 0, c :: cs =>
    if old <+: c :: cs then new ++ replaceFrom old new (old.length - 1) cs
    else c :: replaceFrom old new 0 cs

/-- Every non-overlapping occurrence of `old`, from the left, becomes `new`
(`old` is not empty). -/
def replaceAll (s old new : List α) : List α := replaceFrom old new 0 s

theorem replaceAll_nil (old new : List α) : replaceAll [] old new = [] := by
  simp [replaceAll, replaceFrom]

theorem replaceAll_cons_of_not_start {old new : List α} {c : α} {cs : List α}
    (h : ¬ old <+: c :: cs) : replaceAll (c :: cs) old new = c :: replaceAll cs old new := by
  simp [replaceAll, replaceFrom, h]

theorem replaceFrom_append (old new : List α) :
    ∀ (w cs : List α), replaceFrom old new w.length (w ++ cs) = replaceFrom old new 0 cs
  | [], _ => rfl
  | _ :: w, cs => by
    simp only [length_cons, cons_append, replaceFrom]
    exact replaceFrom_append old new w cs

theorem replaceAll_append_old {a : α} {w new cs : List α} :
    replaceAll (a :: w ++ cs) (a :: w) new = new ++ replaceAll cs (a :: w) new := by
  simp only [replaceAll, cons_append, replaceFrom]
  rw [if_pos (by simp), length_cons, Nat.add_sub_cancel, replaceFrom_append]

theorem replaceAll_of_not_contains {old new : List α} : ∀ {s : List α}, ¬ old <:+: s → replaceAll s old new = s
  | [], _ => replaceAll_nil old new
  | c :: cs, h => by
    rw [replaceAll_cons_of_not_start fun hp => h hp.isInfix,
      replaceAll_of_not_contains fun hi => h (hi.trans (suffix_cons c cs).isInfix)]

theorem mem_replaceAll_of_contains {a : α} {w : List α} {s : α} :
    ∀ {t : List α}, a :: w <:+: t → s ∈ replaceAll t (a :: w) [s]
  | [], h => by simp at h
  | c :: cs, h => by
    by_cases hp : a :: w <+: c :: cs
    · obtain ⟨rest, hr⟩ := hp
      rw [← hr, replaceAll_append_old]
      simp
    · rw [replaceAll_cons_of_not_start hp]
      rcases infix_cons_iff.mp h with h' | h'
      · exact absurd h' hp
      · exact mem_cons_of_mem _ (mem_replaceAll_of_contains h')

theorem replaceAll_singleton (a : α) (new : List α) :
    ∀ s : List α, replaceAll s [a] new = s.flatMap fun c => if c = a then new else [c]
  | [] => replaceAll_nil _ _
  | c :: cs => by
    by_cases hc : c = a
    · subst hc
      rw [show c :: cs = c :: [] ++ cs from rfl, replaceAll_append_old, replaceAll_singleton c new cs]
      simp
    · rw [replaceAll_cons_of_not_start (by simp [Ne.symm hc]), replaceAll_singleton a new cs]
      simp [hc]

/-! ## An unescaped three-letter code for a separator -/

section Code

variable {u x s : α}

/-- Each `s` written out as `u x u`. -/
def expand (u x s : α) (t : List α) : List α :=
  t.flatMap fun c => if c = s then [u, x, u] else [c]

@[simp] theorem expand_nil : expand u x s [] = [] := rfl

theorem expand_cons_sep (t : List α) : expand u x s (s :: t) = u :: x :: u :: expand u x s t := by
  simp [expand]

theorem expand_cons_of_ne (hc : c ≠ s) (t : List α) : expand u x s (c :: t) = c :: expand u x s t := by
  simp [expand, hc]

theorem expand_of_not_mem (h : s ∉ t) : expand u x s t = t := by
  induction t with
  | nil => rfl
  | cons c t ih =>
    simp only [mem_cons, not_or] at h
    rw [expand_cons_of_ne (Ne.symm h.1), ih h.2]

theorem code_infix_expand (h : s ∈ t) : [u, x, u] <:+: expand u x s t := by
  obtain ⟨t₁, t₂, rfl⟩ := append_of_mem h
  refine ⟨expand u x s t₁, expand u x s t₂, ?_⟩
  simp [expand]

/-- A text that would be misread at its start: it begins with the code, or
with `u x` and a separator. -/
theorem code_prefix_expand_iff (hux : u ≠ x) (hus : u ≠ s) (hxs : x ≠ s) (hc : c ≠ s) (t : List α) :
    [u, x, u] <+: c :: expand u x s t ↔ [u, x, u] <+: c :: t ∨ [u, x, s] <+: c :: t := by
  rcases t with _ | ⟨d, t⟩
  · simp
  by_cases hd : d = s
  · subst hd
    rw [expand_cons_sep]
    simp [hux.symm, hxs]
  rw [expand_cons_of_ne hd]
  rcases t with _ | ⟨e, t⟩
  · simp
  by_cases he : e = s
  · subst he
    rw [expand_cons_sep]
    simp [hus]
  rw [expand_cons_of_ne he]
  simp [Ne.symm he]

/-- **Undoing an unescaped code.** Replacing `u x u` back by `s` recovers
the text exactly when it contains neither `u x u` nor `u x s`. -/
theorem expand_undone_iff (hux : u ≠ x) (hus : u ≠ s) (hxs : x ≠ s) (t : List α) :
    replaceAll (expand u x s t) [u, x, u] [s] = t ↔ ¬ [u, x, u] <:+: t ∧ ¬ [u, x, s] <:+: t := by
  induction t with
  | nil => simp [replaceAll_nil]
  | cons c t ih =>
    by_cases hc : c = s
    · -- The code of a separator is read where it was written.
      subst hc
      rw [expand_cons_sep, show u :: x :: u :: expand u x c t = [u, x, u] ++ expand u x c t from rfl,
        replaceAll_append_old]
      simp only [singleton_append, cons.injEq, true_and, infix_cons_iff,
        cons_prefix_cons, hus, false_and, false_or]
      exact ih
    rw [expand_cons_of_ne hc]
    by_cases hp : [u, x, u] <+: c :: expand u x s t
    · -- Misread: a separator comes out where the text has another letter.
      have hbad := (code_prefix_expand_iff hux hus hxs hc t).mp hp
      obtain ⟨rest, hr⟩ := hp
      rw [← hr, replaceAll_append_old]
      constructor
      · intro h
        exact absurd (cons.inj h).1.symm hc
      · rintro ⟨h₁, h₂⟩
        rcases hbad with h | h
        · exact absurd h.isInfix h₁
        · exact absurd h.isInfix h₂
    · rw [replaceAll_cons_of_not_start hp]
      rw [code_prefix_expand_iff hux hus hxs hc t, not_or] at hp
      simp only [cons.injEq, true_and, infix_cons_iff, hp.1, hp.2, false_or]
      exact ih

end Code

end Text
