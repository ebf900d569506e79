/-
Wildcard names and the topics they match.

`compileWildcardRegex` turns the star of a wildcard name into `.*` and
leaves the rest as it is, so that a dot of the name matches any byte.
`prefixOk_iff` says for which topics matching is prefix matching all the
same. In every reachable state the pattern of a wildcard topic is the one of
its name (`Compiled`), which makes this a fact about the spies and consumers
of the broker.
-/
import TinyMQ.Moves

namespace TinyMQ

open Option Broker AList Text

/-! ## Matching -/

/-- What a byte of a wildcard name compiles to. -/
def regexItem (c : UInt8) : RegexItem := if c = 46 then .any else .lit c

theorem isTopicByte_star : isTopicByte 42 = false := by decide

theorem ascii_star : ascii "*" = [42] := by decide

theorem compileWildcard_stem (hp : ∀ c ∈ p, isTopicByte c = true) :
    compileWildcard (p ++ ascii "*") = some (p.map regexItem ++ [.star]) := by
  induction p with
  | nil => rfl
  | cons c p ih =>
    have hc := hp c List.mem_cons_self
    have hstar : c ≠ 42 := isTopicByte_ne hc isTopicByte_star
    have hitem : (if c = 42 then some RegexItem.star else if c = 46 then some .any
        else if isLiteralByte c then some (.lit c) else none) = some (regexItem c) := by
      unfold regexItem
      split_ifs <;> simp_all [isLiteralByte]
    have hrest := ih fun d hd => hp d (List.mem_cons_of_mem c hd)
    unfold compileWildcard at hrest ⊢
    rw [List.cons_append, List.mapM_cons, hitem, hrest]
    rfl

/-- A topic starts like a stem, a dot of which stands for any byte. -/
def covers : GoString → GoString → Bool
  | [], _ => true
  | _ :: _, [] => false
  | c :: p, d :: t => (c = 46 || c = d) && covers p t

theorem matchString_star (ht : 10 ∉ t) : Regex.matchString [.star] t = true := by
  simp only [Regex.matchString, List.any_eq_true, List.mem_range]
  exact ⟨t.length, Nat.lt_succ_self _, by simpa using ht⟩

theorem matchString_stem (ht : 10 ∉ t) : Regex.matchString (p.map regexItem ++ [.star]) t = covers p t := by
  induction p generalizing t with
  | nil => rw [List.map_nil, List.nil_append, matchString_star ht, covers]
  | cons c p ih =>
    cases t with
    | nil =>
      rw [List.map_cons, List.cons_append, covers, regexItem]
      split <;> rfl
    | cons d t =>
      obtain ⟨hd, ht'⟩ := List.ne_and_not_mem_of_not_mem_cons ht
      rw [List.map_cons, List.cons_append, covers, regexItem, ← ih ht']
      split
      next hc => simp [Regex.matchString, hc, Ne.symm hd]
      next hc =>
        have hcomm : (d == c) = decide (c = d) := by
          rw [beq_eq_decide]
          exact decide_eq_decide.mpr eq_comm
        simp [Regex.matchString, hc, hcomm]

theorem covers_of_prefix (h : p <+: t) : covers p t = true := by
  induction p generalizing t with
  | nil => rfl
  | cons c p ih =>
    obtain ⟨rest, rfl⟩ := h
    rw [List.cons_append, covers, ih (List.prefix_append p rest)]
    simp

/-- The topic starts with the stem, or it is too short, or it has another
byte where the stem has one that is not a dot. -/
def PrefixOk (p t : GoString) : Prop := p <+: t ∨ t.length < p.length ∨ ∃ x ∈ p.zip t, x.1 ≠ 46 ∧ x.1 ≠ x.2

instance (p t : GoString) : Decidable (PrefixOk p t) := inferInstanceAs (Decidable (_ ∨ _ ∨ _))

theorem covers_eq_false_iff : covers p t = false ↔ t.length < p.length ∨ ∃ x ∈ p.zip t, x.1 ≠ 46 ∧ x.1 ≠ x.2 := by
  induction p generalizing t with
  | nil => simp [covers]
  | cons c p ih =>
    cases t with
    | nil => simp [covers]
    | cons d t =>
      simp only [covers, Bool.and_eq_false_iff, ih, Bool.or_eq_false_iff, decide_eq_false_iff_not, List.length_cons,
        Nat.add_lt_add_iff_right, List.zip_cons_cons, List.mem_cons, exists_eq_or_imp]
      exact or_left_comm

/-- **When wildcard matching is prefix matching.** -/
theorem prefixOk_iff : PrefixOk p t ↔ (covers p t = true ↔ p <+: t) := by
  rw [PrefixOk, ← covers_eq_false_iff, ← Bool.not_eq_true]
  have hpre : p <+: t → covers p t = true := covers_of_prefix
  tauto

theorem validWildcardRegex_iff : validWildcardRegex (p ++ ascii "*") = true ↔ ∀ c ∈ p, isTopicByte c = true := by
  simp [validWildcardRegex, ascii_star]

theorem not_newline_of_validTopicRegex (ht : validTopicRegex t = true) : 10 ∉ t :=
  not_mem_of_validTopicRegex ht (by decide)

/-! ## Names in the broker -/

/-- A topic is one that a spy or a consumer of this name sees: it has the
name, or matches the pattern of a wildcard. -/
def nameMatches (name t : GoString) : Bool :=
  if contains name (ascii "*") then (compileWildcard name).any fun re => re.matchString t else name = t

theorem star_not_mem_of_validTopicRegex (ht : validTopicRegex t = true) : ¬ ascii "*" <:+: t := by
  intro h
  exact not_mem_of_validTopicRegex ht isTopicByte_star (h.subset (by simp [ascii_star]))

theorem nameMatches_plain (h : ¬ ascii "*" <:+: name) : nameMatches name t = true ↔ name = t := by
  have hstar : contains name (ascii "*") = false := by
    rw [Bool.eq_false_iff, ne_eq, contains_iff]
    exact h
  simp [nameMatches, hstar]

theorem nameMatches_stem (hp : ∀ c ∈ p, isTopicByte c = true) (ht : validTopicRegex t = true) :
    nameMatches (p ++ ascii "*") t = covers p t := by
  have hstar : contains (p ++ ascii "*") (ascii "*") = true :=
    contains_iff.mpr (List.suffix_append _ _).isInfix
  rw [nameMatches, if_pos hstar, compileWildcard_stem hp, any_some,
    matchString_stem (not_newline_of_validTopicRegex ht)]

namespace Broker

variable {b b' : Broker} {n : GoString} {r : TopicRef}

/-- The pattern of every wildcard topic is compiled from its name. -/
structure Compiled (b : Broker) : Prop where
  sound : ∀ {n re}, b.compiledRegex.lookup n = some re → compileWildcard n = some re
  complete : ∀ {n r}, b.topics.lookup n = some r → ascii "*" <:+: n →
    b.wildcards.lookup n = some r ∧ b.compiledRegex.lookup n = compileWildcard n

theorem Compiled.of_registry (h : b.Compiled) (hr : b'.registry = { b.registry with spyCount := spies }) :
    b'.Compiled := by
  have ht : b'.topics = b.topics := congrArg Registry.topics hr
  have hw : b'.wildcards = b.wildcards := congrArg Registry.wildcards hr
  have hc : b'.compiledRegex = b.compiledRegex := congrArg Registry.compiledRegex hr
  refine ⟨fun hl => h.sound (hc ▸ hl), fun hl hstar => ?_⟩
  rw [hw, hc]
  exact h.complete (ht ▸ hl) hstar

theorem Compiled.addTopic (h : b.Compiled) (t : Topic) : (b.addTopic t).Compiled where
  sound {n re} hl := by
    simp only [Broker.addTopic] at hl
    split at hl
    · split at hl
      next re' hre =>
        by_cases hn : n = t.name
        · subst hn
          rw [lookup_insert] at hl
          exact hl ▸ hre
        · rw [lookup_insert_ne hn] at hl
          exact h.sound hl
      next => exact h.sound hl
    · exact h.sound hl
  complete {n r} hl hstar := by
    rw [lookup_addTopic] at hl
    split at hl
    next hn =>
      subst hn
      cases hl
      have hcontains := contains_iff.mpr hstar
      refine ⟨by simp [Broker.addTopic, hcontains], ?_⟩
      simp only [Broker.addTopic, hcontains, true_and]
      split
      next hnone =>
        split
        next re hre => rw [lookup_insert, hre]
        next hre => rw [hnone, hre]
      next hsome =>
        -- An entry that was left is one of the same name.
        obtain ⟨re, hre⟩ := ne_none_iff_exists'.mp hsome
        rw [hre, h.sound hre]
    next hn =>
      obtain ⟨hw, hc⟩ := h.complete hl hstar
      refine ⟨?_, ?_⟩
      · simp only [Broker.addTopic]
        split
        · rw [lookup_insert_ne hn, hw]
        · exact hw
      · simp only [Broker.addTopic]
        split
        · split
          · rw [lookup_insert_ne hn, hc]
          · exact hc
        · exact hc

theorem Compiled.removeTopic (h : b.Compiled) (name : GoString) : (b.removeTopic name).Compiled where
  sound {n re} hl := by
    by_cases hn : n = name
    · rw [hn, Broker.removeTopic, lookup_erase] at hl
      cases hl
    · rw [Broker.removeTopic, lookup_erase_ne hn] at hl
      exact h.sound hl
  complete {n r} hl hstar := by
    by_cases hn : n = name
    · rw [hn, Broker.removeTopic, lookup_erase] at hl
      cases hl
    · rw [Broker.removeTopic, lookup_erase_ne hn] at hl ⊢
      rw [lookup_erase_ne hn]
      exact h.complete hl hstar

theorem HeapStep.compiled {P : TopicRef → Topic → Topic → Prop} (hstep : b.HeapStep b' P) (h : b.Compiled) :
    b'.Compiled := by
  cases hstep with
  | same hh hr | move hl hm hh hr | spy hl hm hh hr => exact h.of_registry hr
  | create hl hh hr => exact (h.addTopic _).of_registry hr
  | delete hn hl hh hr => exact (h.removeTopic _).of_registry hr

theorem topics_inj (h : b.topics.lookup n = some r) (h' : b.topics.lookup n' = some r) : n = n' := by
  obtain ⟨t, ht, hn⟩ := b.topics_ok h
  obtain ⟨t', ht', hn'⟩ := b.topics_ok h'
  cases ht.symm.trans ht'
  exact hn.symm.trans hn'

theorem wildcard_of_matching (h : W ∈ (b.matchingWildcards t).1) : ∃ name, b.wildcards.lookup name = some W := by
  simp only [matchingWildcards, List.mem_filterMap] at h
  obtain ⟨name, -, hname⟩ := h
  split at hname
  next =>
    split at hname
    next => exact ⟨name, hname⟩
    next => cases hname
  next => cases hname

theorem mem_matchingWildcards (h : b.Compiled) (hn : b.wildcards.lookup n = some W) :
    W ∈ (b.matchingWildcards t).1 ↔ nameMatches n t = true := by
  obtain ⟨htopic, hstar⟩ := b.wildcards_ok hn
  have hcompiled := (h.complete htopic hstar).2
  have hkeys : ∀ name, name ∈ b.env.order b.ranges b.wildcards.keys ↔ name ∈ b.wildcards.keys := fun name =>
    (b.env.order_perm _ _).mem_iff
  simp only [matchingWildcards, range, List.mem_filterMap, hkeys, nameMatches,
    contains_iff.mpr hstar, if_true,
    ← hcompiled]
  constructor
  · rintro ⟨name, -, hname⟩
    split at hname
    next re hre =>
      split at hname
      next hmatch =>
        obtain rfl := topics_inj (b.wildcards_ok hname).1 htopic
        simpa [hre] using hmatch
      next => cases hname
    next => cases hname
  · intro hmatch
    refine ⟨n, mem_keys.mpr ((lookup_isSome).mp (by simp [hn])), ?_⟩
    cases hre : b.compiledRegex.lookup n with
    | none => simp [hre] at hmatch
    | some re =>
      rw [hre, any_some] at hmatch
      simp [hmatch, hn]

theorem mem_matchingTopics (h : b.Compiled) (hn : b.wildcards.lookup n = some W) (ht : b.topics.lookup t = some r) :
    r ∈ (b.matchingTopics n).1 ↔ nameMatches n t = true := by
  obtain ⟨htopic, hstar⟩ := b.wildcards_ok hn
  have hcompiled := (h.complete htopic hstar).2
  have hkeys : ∀ name, name ∈ b.env.order b.ranges b.topics.keys ↔ name ∈ b.topics.keys := fun name =>
    (b.env.order_perm _ _).mem_iff
  simp only [matchingTopics, nameMatches, contains_iff.mpr hstar, if_true, ← hcompiled]
  cases hre : b.compiledRegex.lookup n with
  | none => simp
  | some re =>
    simp only [range, List.mem_filterMap, hkeys, any_some]
    constructor
    · rintro ⟨name, -, hname⟩
      split at hname
      next hmatch =>
        obtain rfl := topics_inj hname ht
        exact hmatch
      next => cases hname
    · intro hmatch
      exact ⟨t, mem_keys.mpr ((lookup_isSome).mp (by simp [ht])), by simp [hmatch, ht]⟩

end Broker

namespace World

variable {limits policy hooked storage env chans} {now : Time} {w : World} {p t : GoString}

theorem compiled_of_run {ok : World → WorldLabel → Prop}
    (hrun : Lts.Run step ok (init now (.new limits policy hooked storage env chans)) w) : w.broker.Compiled :=
  hrun.invariant (I := fun w => w.broker.Compiled) (fun _ _ _ hI _ hs => (step_heap hs).compiled hI)
    ⟨fun hl => by simp [init, Sys.init, broker, new] at hl,
      fun hl => by simp [init, Sys.init, broker, new] at hl⟩

/-- **Who sees a topic**: in every reachable state, what is published to `t`
is pushed to the spies of the topics whose names match `t`. -/
theorem reached_iff {name W}
    (hrun : Lts.Run step (fun _ _ => True) (init now (.new limits policy hooked storage env chans)) w)
    (hname : w.broker.topics.lookup name = some W) (ht : validTopicRegex t = true) :
    (w.broker.topics.lookup t = some W ∨ W ∈ (w.broker.matchingWildcards t).1) ↔ nameMatches name t = true := by
  have hcompiled := compiled_of_run hrun
  have hplain := star_not_mem_of_validTopicRegex ht
  by_cases hstar : ascii "*" <:+: name
  · have hW := (hcompiled.complete hname hstar).1
    rw [mem_matchingWildcards hcompiled hW]
    refine or_iff_right fun hT => ?_
    exact hplain (topics_inj hname hT ▸ hstar)
  · have hno : W ∉ (w.broker.matchingWildcards t).1 := by
      intro hmem
      -- It would be a wildcard topic of another name.
      obtain ⟨n, hn⟩ := wildcard_of_matching hmem
      obtain ⟨hn, hstar'⟩ := wildcards_ok _ hn
      exact hstar (topics_inj hname hn ▸ hstar')
    rw [nameMatches_plain hstar, or_iff_left hno]
    exact ⟨fun hT => topics_inj hname hT, fun h => h ▸ hname⟩

/-- **When a wildcard sees the topics under its prefix**: its pattern matches
a topic exactly if that starts with the prefix, and in every reachable state
its spies are sent what is published there, and its consumers look there,
exactly then. -/
theorem wildcard_sees_iff
    (hrun : Lts.Run step (fun _ _ => True) (init now (.new limits policy hooked storage env chans)) w)
    (hw : validWildcardRegex (p ++ ascii "*") = true) (ht : validTopicRegex t = true) :
    ((∃ re, compileWildcard (p ++ ascii "*") = some re ∧ (re.matchString t = true ↔ p <+: t)) ∧
      ∀ W, w.broker.wildcards.lookup (p ++ ascii "*") = some W → (W ∈ (w.broker.matchingWildcards t).1 ↔ p <+: t) ∧
        ∀ T, w.broker.topics.lookup t = some T → (T ∈ (w.broker.matchingTopics (p ++ ascii "*")).1 ↔ p <+: t)) ↔
      PrefixOk p t := by
  have hstem := validWildcardRegex_iff.mp hw
  have hmatch := matchString_stem (p := p) (not_newline_of_validTopicRegex ht)
  have hcompiled := compiled_of_run hrun
  rw [prefixOk_iff]
  constructor
  · rintro ⟨⟨re, hre, hiff⟩, -⟩
    rw [compileWildcard_stem hstem, some.injEq] at hre
    rwa [← hre, hmatch] at hiff
  · refine fun h => ⟨⟨_, compileWildcard_stem hstem, by rw [hmatch, h]⟩, fun W hW => ⟨?_, fun T hT => ?_⟩⟩
    · rw [mem_matchingWildcards hcompiled hW, nameMatches_stem hstem ht, h]
    · rw [mem_matchingTopics hcompiled hW hT, nameMatches_stem hstem ht, h]

def spyAndPublish : List WorldLabel :=
  WorldLabel.method 0 (.addSpy (ascii "t*")) 2 ++ WorldLabel.call 1 (.publish samplePublish) 11

theorem reached_iff_sample : ∃ w, Lts.Run step (fun _ _ => True) (init 0 .sample) w ∧
    (w.broker.topics.lookup (ascii "t") = some 0 ∨ 0 ∈ (w.broker.matchingWildcards (ascii "t")).1) := by
  have hrun : Lts.Run step (fun _ _ => True) (init 0 .sample) _ :=
    Lts.Run.of_exec_get spyAndPublish (by decide +kernel) (by decide +kernel)
  exact ⟨_, hrun,
    (reached_iff hrun (show AList.lookup (ascii "t*") _ = some 0 by decide +kernel) (by decide)).mpr (by decide)⟩

theorem wildcard_sees_iff_sample : ∃ w, Lts.Run step (fun _ _ => True) (init 0 .sample) w ∧
    w.broker.wildcards.lookup (ascii "t" ++ ascii "*") = some 0 ∧ w.broker.topics.lookup (ascii "t") = some 1 ∧
    0 ∈ (w.broker.matchingWildcards (ascii "t")).1 ∧ 1 ∈ (w.broker.matchingTopics (ascii "t" ++ ascii "*")).1 := by
  have hrun : Lts.Run step (fun _ _ => True) (init 0 .sample) _ :=
    Lts.Run.of_exec_get spyAndPublish (by decide +kernel) (by decide +kernel)
  have hsees := ((wildcard_sees_iff (p := ascii "t") (t := ascii "t") hrun (by decide) (by decide)).mpr (by decide)).2 0
    (by decide +kernel)
  exact ⟨_, hrun, by decide +kernel, by decide +kernel, hsees.1.mpr (by decide),
    (hsees.2 1 (by decide +kernel)).mpr (by decide)⟩

/-- The dot of `a.*` matches any byte: its spies get what is published to
`axb`, which is not under `a.`. -/
theorem wildcard_sees_more : validWildcardRegex (ascii "a." ++ ascii "*") = true ∧
    validTopicRegex (ascii "axb") = true ∧
    (compileWildcard (ascii "a." ++ ascii "*")).any (fun re => re.matchString (ascii "axb")) = true ∧
    ¬ ascii "a." <+: ascii "axb" := by
  decide

end World

end TinyMQ
