/-
Subscriptions through the MQTT and NATS gateways
(`internal/transport/mqtt`, `internal/transport/nats`).

Both protocols have patterns over levels; a gateway rewrites a pattern to a
name of the broker, whose only wildcard is a star at the end. The names
that come out are valid for patterns with at most one wildcard, at their
end (`Mqtt.stem_of_grants`, `Nats.stem_of_valid`), and there the star
stands for more or less than the wildcard did. `gateways_faithful` says for
which topics the two agree, and which patterns get names of their own.
-/
import TinyMQ.Patterns
import TinyMQ.Wire
import TinyMQ.Lib.Levels
import TinyMQ.Lib.Stream

namespace TinyMQ

open List Text Stream Levels

variable {name p t f : GoString}

/-- What the broker answers to a gateway, in the order it is asked. Other
goroutines may run between two answers; `AddSpy` checks the name first. -/
structure Hub where
  /-- The error of `Publish`, if any. -/
  publish : Nat → GoString → List UInt8 → Option GoString
  addSpy : Nat → GoString → Except GoString Spy
  addSpy_valid : ∀ {n name ch}, addSpy n name = .ok ch → isValidTopicName name = true

theorem isValidTopicName_cases (h : isValidTopicName name = true) :
    validTopicRegex name = true ∨ ∃ p, name = p ++ ascii "*" ∧ ∀ c ∈ p, isTopicByte c = true := by
  unfold isValidTopicName at h
  split at h
  · cases h
  · rcases Bool.or_eq_true_iff.mp h with ht | hw
    · exact .inl ht
    · simp only [validWildcardRegex, Bool.and_eq_true, beq_iff_eq, List.all_eq_true] at hw
      obtain ⟨p, hp⟩ := getLast?_eq_some_iff.mp hw.1
      refine .inr ⟨p, hp, fun c hc => hw.2 c ?_⟩
      rw [hp, dropLast_concat]
      exact hc

theorem topicBytes_of_isValidTopicName (h : isValidTopicName (p ++ ascii "*") = true) :
    ∀ c ∈ p, isTopicByte c = true := by
  rcases isValidTopicName_cases h with ht | ⟨q, hq, hbytes⟩
  · exact absurd (validTopicRegex_iff.mp ht |>.2 42 (by simp [ascii_star])) (by decide)
  · rw [append_cancel_right hq]
    exact hbytes

/-- Two patterns that differ in their final wildcard only. -/
def SameStem (wildcards : List (Option UInt8)) (f g : GoString) : Prop :=
  f.dropLast = g.dropLast ∧ f.getLast? ∈ wildcards ∧ g.getLast? ∈ wildcards

instance (wildcards : List (Option UInt8)) (f g : GoString) : Decidable (SameStem wildcards f g) :=
  inferInstanceAs (Decidable (_ ∧ _ ∧ _))

/-- A gateway gives a pattern its name: a topic keeps its own, a stem with a
wildcard gets a star. -/
def Named (wildcards : List (Option UInt8)) (f name : GoString) : Prop :=
  validTopicRegex f = true ∧ name = f ∨ ∃ p c, f = p ++ [c] ∧ name = p ++ ascii "*" ∧ some c ∈ wildcards

theorem getLast?_ne_of_validTopicRegex (hf : validTopicRegex f = true) (hc : isTopicByte c = false) :
    f.getLast? ≠ some c := fun h => not_mem_of_validTopicRegex hf hc (mem_of_getLast? h)

theorem Named.ne_iff (hwild : ∀ c, some c ∈ wildcards → isTopicByte c = false)
    (hf : Named wildcards f name) (hg : Named wildcards g name') (hne : f ≠ g) :
    name ≠ name' ↔ ¬ SameStem wildcards f g := by
  have hplain : ∀ {f p : GoString}, validTopicRegex f = true → f ≠ p ++ ascii "*" := by
    rintro f p hv rfl
    exact star_not_mem_of_validTopicRegex hv (suffix_append _ _).isInfix
  have hlast : ∀ {f : GoString}, validTopicRegex f = true → f.getLast? ∉ wildcards := by
    intro f hv hmem
    cases hl : f.getLast? with
    | none => exact (validTopicRegex_iff.mp hv).1 (getLast?_eq_none_iff.mp hl)
    | some c => exact getLast?_ne_of_validTopicRegex hv (hwild c (hl ▸ hmem)) hl
  rcases hf with ⟨hvf, rfl⟩ | ⟨p, c, rfl, rfl, hc⟩
  · have hstem : ¬ SameStem wildcards name g := fun h => hlast hvf h.2.1
    rcases hg with ⟨-, rfl⟩ | ⟨q, d, rfl, rfl, -⟩
    · simp [hne, hstem]
    · simp [hplain hvf, hstem]
  · rcases hg with ⟨hvg, rfl⟩ | ⟨q, d, rfl, rfl, hd⟩
    · have hstem : ¬ SameStem wildcards (p ++ [c]) name' := fun h => hlast hvg h.2.2
      simp [(hplain hvg).symm, hstem]
    · simp [SameStem, hc, hd]

theorem validTopicRegex_of_publishAccepts (h : publishAccepts t = true) : validTopicRegex t = true := by
  simp only [publishAccepts, Bool.and_eq_true] at h
  exact h.2

namespace Mqtt

variable {f t : GoString}

/-! ## MQTT -/

def translateMQTTWildcard (topic : GoString) : GoString :=
  if topic = ascii "#" then ascii "*"
  else if hasSuffix topic (ascii "/#") then replaceAll topic (ascii "/#") (ascii "/*")
  else if contains topic (ascii "+") then replaceAll topic (ascii "+") (ascii "*")
  else topic

/-- The next string of a packet and what follows it. -/
def readString (buf : List UInt8) : Option (GoString × List UInt8) :=
  (readFull 2 buf).bind fun (length, rest) => readFull (ofBigEndian length) rest

/-- The subscriptions of a connection, and those it has given up. -/
structure Subscriptions where
  spies : AList fun _ : GoString => Spy
  removed : List (GoString × Spy)
  asked : Nat

/-- `handleSubscribe` for one filter: its return code. -/
def Subscriptions.subscribe (hub : Hub) (c : Subscriptions) (topic : GoString) : UInt8 × Subscriptions :=
  let cleanTopic := translateMQTTWildcard topic
  let removed := c.removed ++ ((c.spies.lookup cleanTopic).map fun oldCh => (cleanTopic, oldCh)).toList
  let spies := c.spies.erase cleanTopic
  match hub.addSpy c.asked cleanTopic with
  | .error _ => (0x80, ⟨spies, removed, c.asked + 1⟩)
  | .ok spyChan => (0x00, ⟨spies.insert cleanTopic spyChan, removed, c.asked + 1⟩)

/-- How the loop over the filters ends: at the end of the packet or in the
middle of a filter. -/
structure SubscribeEnd where
  complete : Bool
  conn : Subscriptions

instance : Inhabited SubscribeEnd := ⟨false, ∅, [], 0⟩

/-- One pass of the loop of `handleSubscribe`. -/
def subscribeNext (hub : Hub) :
    Subscriptions × List UInt8 → Except SubscribeEnd ((GoString × UInt8) × (Subscriptions × List UInt8))
  | (c, []) => .error ⟨true, c⟩
  | (c, payload) =>
    match readString payload with
    | none => .error ⟨false, c⟩
    | some (_, []) => .error ⟨false, c⟩
    | some (topic, _ :: rest) =>
      let (code, c) := c.subscribe hub topic
      .ok ((topic, code), (c, rest))

/-- `handleSubscribe`: the filters of the packet with their return codes, in
their order, and how it ends; nothing for a packet without an identifier. -/
def handleSubscribe (hub : Hub) (c : Subscriptions) (payload : List UInt8) : List (GoString × UInt8) × SubscribeEnd :=
  match readFull 2 payload with
  | none => ([], ⟨false, c⟩)
  | some (_, rest) => drain (subscribeNext hub) (fun s => s.2.length) (c, rest)

/-- `handleSubscribe` grants a filter. -/
def Grants (f : GoString) : Prop := ∃ hub c payload, (f, 0x00) ∈ (handleSubscribe hub c payload).1

/-- A level of a filter that is not the last one. -/
def levelOk (l : GoString) : Bool := l = ascii "+" || !l.contains 35 && !l.contains 43

/-- A topic filter of MQTT 3.1.1: `+` fills a level, `#` the last one. -/
def validFilter (f : GoString) : Bool :=
  let levels := f.splitOn 47
  f ≠ [] && levels.dropLast.all levelOk && (levels.getLastD [] = ascii "#" || levelOk (levels.getLastD []))

/-- A filter matches a topic: `+` is one level, `#` any number of them. A
wildcard in the first level does not match a topic that starts with `$`. -/
def accepts (f t : GoString) : Bool :=
  !((f.head? = some 35 || f.head? = some 43) && t.head? = some 36) && nameAccepts 47 43 35 0 f t

/-- What becomes a star at the end of a filter, and the star itself. -/
def wildcards : List (Option UInt8) := [some 35, some 43, some 42]

/-- Where a filter and its name in the broker mean the same topics. -/
structure Faithful (f t : GoString) : Prop where
  /-- A dot before the wildcard makes no difference. -/
  stem : f.getLast? ∈ wildcards → PrefixOk f.dropLast t
  /-- A filter with `#` is not used for the parent. -/
  parent : f.getLast? = some 35 → f.dropLast ≠ t ++ ascii "/"
  /-- Behind the stem of a filter with `+` there is one level. -/
  level : f.getLast? = some 43 → f.dropLast <+: t → 47 ∉ t.drop f.dropLast.length
  /-- A star, which MQTT does not know, has no topic under it. -/
  star : f.getLast? = some 42 → ¬ f.dropLast <+: t

theorem subscribe_granted {hub} {c : Subscriptions} (h : (c.subscribe hub f).1 = 0x00) :
    isValidTopicName (translateMQTTWildcard f) = true := by
  unfold Subscriptions.subscribe at h
  dsimp only at h
  split at h
  next => cases h
  next ch hch => exact hub.addSpy_valid hch

theorem valid_of_grants (h : Grants f) : isValidTopicName (translateMQTTWildcard f) = true := by
  obtain ⟨hub, c, payload, hf⟩ := h
  have hnext : ∀ {s a s'}, subscribeNext hub s = .ok (a, s') →
      a.2 = 0x00 → isValidTopicName (translateMQTTWildcard a.1) = true := by
    intro s a s' hs hcode
    unfold subscribeNext at hs
    split at hs
    next => cases hs
    next c payload _ =>
      split at hs
      next => cases hs
      next => cases hs
      next topic _ rest _ =>
        cases hs
        exact subscribe_granted hcode
  unfold handleSubscribe at hf
  split at hf
  next => cases hf
  next =>
    exact drain_forall (P := fun a => a.2 = 0x00 →
      isValidTopicName (translateMQTTWildcard a.1) = true) hnext _ hf rfl

/-! ### The filters that are granted -/

theorem ascii_plus : ascii "+" = [43] := by decide
theorem ascii_hash : ascii "#" = [35] := by decide
theorem ascii_slashHash : ascii "/#" = [47, 35] := by decide
theorem ascii_slashStar : ascii "/*" = [47, 42] := by decide

/-- A wildcard at the end of a valid filter fills its level, and `#` is
nowhere else. -/
theorem stem_of_validFilter (h : validFilter (p ++ [c]) = true) (hc : c = 35 ∨ c = 43) :
    (p = [] ∨ [47] <:+ p) ∧ 35 ∉ p := by
  obtain ⟨q, l, rfl, hq, hl⟩ := exists_stem 47 p
  obtain ⟨ls, hsplit, -, hcover⟩ := splitOn_stem hq
  have hlast : (47 : UInt8) ∉ l ++ [c] := by
    rcases hc with rfl | rfl <;> simpa using hl
  have hlevels : (q ++ l ++ [c]).splitOn 47 = ls ++ [l ++ [c]] := by rw [append_assoc, hsplit _ hlast]
  simp only [validFilter, hlevels, dropLast_concat, getLastD_concat, Bool.and_eq_true,
    List.all_eq_true] at h
  obtain ⟨⟨-, hls⟩, hlevel⟩ := h
  have hlnil : l = [] := by
    by_contra hnil
    have hlong : ∀ x, l ++ [c] ≠ [x] := fun x heq => by simp [append_eq_singleton_iff, hnil] at heq
    rcases hc with rfl | rfl <;> simp [levelOk, ascii_plus, ascii_hash, hlong] at hlevel
  subst hlnil
  refine ⟨by simpa using hq, fun hmem => ?_⟩
  obtain ⟨f, hf, hin⟩ := hcover 35 (by simpa using hmem) (by decide)
  have hok := hls f hf
  simp only [levelOk, ascii_plus, Bool.or_eq_true, decide_eq_true_eq] at hok
  rcases hok with rfl | hok
  · simp at hin
  · simp [hin] at hok

theorem replaceAll_slashHash (h : 35 ∉ p) : replaceAll (p ++ [47, 35]) [47, 35] [47, 42] = p ++ [47, 42] := by
  induction p with
  | nil => decide
  | cons c p ih =>
    obtain ⟨hc, hp⟩ := ne_and_not_mem_of_not_mem_cons h
    have hstart : ¬ [47, 35] <+: c :: (p ++ [47, 35]) := by
      cases p with
      | nil => simp
      | cons d p =>
        obtain ⟨hd, -⟩ := ne_and_not_mem_of_not_mem_cons hp
        simp [hd]
    rw [cons_append, replaceAll_cons_of_not_start hstart, ih hp]
    rfl

theorem stem_of_plus (hf : validFilter f = true) (hplus : 43 ∈ f)
    (hvalid : isValidTopicName (replaceAll f (ascii "+") (ascii "*")) = true) :
    ∃ p c, f = p ++ [c] ∧ replaceAll f (ascii "+") (ascii "*") = p ++ ascii "*" ∧ (∀ d ∈ p, isTopicByte d = true) ∧
      ((c = 35 ∨ c = 43) ∧ (p = [] ∨ [47] <:+ p) ∨ c = 42) := by
  have hmap : ∀ g : GoString, replaceAll g (ascii "+") (ascii "*") = g.map fun c => if c = 43 then 42 else c := by
    intro g
    rw [ascii_plus, ascii_star, replaceAll_singleton, map_eq_flatMap]
    congr 1
    funext c
    split <;> rfl
  obtain ⟨p, c, rfl⟩ := eq_nil_or_concat f |>.resolve_left (ne_nil_of_mem hplus)
  rw [concat_eq_append] at hf hplus hvalid ⊢
  rw [hmap] at hvalid ⊢
  -- The name has a star, so it is a stem and a star at the end.
  rcases isValidTopicName_cases hvalid with ht | ⟨q, hq, hbytes⟩
  · refine absurd (not_mem_of_validTopicRegex ht isTopicByte_star) (not_not.mpr ?_)
    exact List.mem_map.mpr ⟨43, hplus, rfl⟩
  · rw [map_append, map_singleton, ascii_star] at hq
    obtain ⟨rfl, hlast⟩ := append_inj' hq rfl
    have hno : 43 ∉ p := fun hmem => by
      have := hbytes 42 (List.mem_map.mpr ⟨43, hmem, rfl⟩)
      simp [isTopicByte_star] at this
    have hsame : p.map (fun c => if c = 43 then (42 : UInt8) else c) = p := by
      conv_rhs => rw [← List.map_id p]
      refine map_congr_left fun d hd => ?_
      have hd43 : d ≠ 43 := fun h => hno (h ▸ hd)
      simp [hd43]
    obtain rfl : c = 43 := by
      rcases mem_append.mp hplus with hmem | hmem
      · exact absurd hmem hno
      · exact (mem_singleton.mp hmem).symm
    rw [hsame] at hbytes
    exact ⟨p, 43, rfl, by rw [map_append, hsame]; rfl, hbytes,
      .inl ⟨.inr rfl, (stem_of_validFilter hf (.inr rfl)).1⟩⟩

/-- **The filters that are granted**: a topic, which stays as it is, or a
stem with a wildcard at its end, which becomes a star. -/
theorem stem_of_grants (h : Grants f) (hf : validFilter f = true) :
    (validTopicRegex f = true ∧ translateMQTTWildcard f = f) ∨
    ∃ p c, f = p ++ [c] ∧ translateMQTTWildcard f = p ++ ascii "*" ∧ (∀ d ∈ p, isTopicByte d = true) ∧
      ((c = 35 ∨ c = 43) ∧ (p = [] ∨ [47] <:+ p) ∨ c = 42) := by
  have hvalid := valid_of_grants h
  unfold translateMQTTWildcard at hvalid ⊢
  split at hvalid
  next heq =>
    subst heq
    exact .inr ⟨[], 35, by decide, by decide, by simp, .inl ⟨.inl rfl, .inl rfl⟩⟩
  next hhash =>
    rw [if_neg hhash]
    split at hvalid
    next hsuffix =>
      -- The stem has no other `#`, so the substitution is made once.
      rw [if_pos hsuffix]
      obtain ⟨q, rfl⟩ := hasSuffix_iff.mp hsuffix
      have hshape : q ++ ascii "/#" = (q ++ [47]) ++ [35] := by simp [ascii_slashHash]
      obtain ⟨hstem, hno⟩ := stem_of_validFilter (hshape ▸ hf) (.inl rfl)
      have hname : replaceAll (q ++ ascii "/#") (ascii "/#") (ascii "/*") = (q ++ [47]) ++ ascii "*" := by
        rw [ascii_slashHash, ascii_slashStar, ascii_star, replaceAll_slashHash fun hmem => hno (by simp [hmem])]
        simp
      rw [hname] at hvalid ⊢
      exact .inr ⟨q ++ [47], 35, hshape, rfl, topicBytes_of_isValidTopicName hvalid, .inl ⟨.inl rfl, hstem⟩⟩
    next hsuffix =>
      rw [if_neg hsuffix]
      split at hvalid
      next hplus =>
        rw [if_pos hplus]
        exact .inr (stem_of_plus hf (by simpa [ascii_plus] using (contains_iff.mp hplus).subset) hvalid)
      next hplus =>
        rw [if_neg hplus]
        rcases isValidTopicName_cases hvalid with ht | ⟨p, rfl, hp⟩
        · exact .inl ⟨ht, rfl⟩
        · exact .inr ⟨p, 42, rfl, rfl, hp, .inr rfl⟩

theorem not_mem_of_topicBytes (hp : ∀ c ∈ p, isTopicByte c = true) (hd : isTopicByte d = false) : d ∉ p :=
  fun hmem => isTopicByte_ne (hp d hmem) hd rfl

theorem accepts_iff (ht : validTopicRegex t = true) : accepts f t = true ↔ nameAccepts 47 43 35 0 f t = true := by
  have hdollar : t.head? ≠ some 36 := fun h =>
    not_mem_of_validTopicRegex ht (d := 36) (by decide) (mem_of_mem_head? h)
  simp [accepts, hdollar]

theorem faithful_of_plain (hf : validTopicRegex f = true) : Faithful f t := by
  have hnot : ∀ {c}, isTopicByte c = false → f.getLast? ≠ some c := getLast?_ne_of_validTopicRegex hf
  refine ⟨fun h => ?_, fun h => absurd h (hnot (by decide)), fun h => absurd h (hnot (by decide)),
    fun h => absurd h (hnot (by decide))⟩
  simp [wildcards, hnot (c := 35) (by decide), hnot (c := 43) (by decide), hnot (c := 42) (by decide)] at h

theorem faithful_stem : Faithful (p ++ [c]) t ↔ (some c ∈ wildcards → PrefixOk p t) ∧ (c = 35 → p ≠ t ++ [47]) ∧
    (c = 43 → p <+: t → 47 ∉ t.drop p.length) ∧ (c = 42 → ¬ p <+: t) := by
  constructor
  · rintro ⟨hstem, hparent, hlevel, hstar⟩
    simp only [getLast?_concat, dropLast_concat, Option.some.injEq, ascii_slash] at hstem hparent hlevel hstar
    exact ⟨hstem, hparent, hlevel, hstar⟩
  · rintro ⟨hstem, hparent, hlevel, hstar⟩
    constructor <;> simpa only [getLast?_concat, dropLast_concat, Option.some.injEq, ascii_slash]

/-- **Where the name of a filter means what the filter does.** -/
theorem nameMatches_iff_accepts (h : Grants f) (hf : validFilter f = true) (ht : validTopicRegex t = true) :
    (nameMatches (translateMQTTWildcard f) t = true ↔ accepts f t = true) ↔ Faithful f t := by
  rw [accepts_iff ht]
  rcases stem_of_grants h hf with ⟨hplain, hname⟩ | ⟨p, c, rfl, hname, hp, hc⟩
  · rw [hname, nameMatches_plain (star_not_mem_of_validTopicRegex hplain),
      nameAccepts_literal (not_mem_of_validTopicRegex hplain (by decide))
        (not_mem_of_validTopicRegex hplain (by decide))]
    simp [faithful_of_plain hplain]
  · have h43 : 43 ∉ p := not_mem_of_topicBytes hp (by decide)
    have h35 : 35 ∉ p := not_mem_of_topicBytes hp (by decide)
    have hpre : p <+: t → covers p t = true := covers_of_prefix
    rw [hname, nameMatches_stem hp ht, faithful_stem, prefixOk_iff]
    rcases hc with ⟨rfl | rfl, hlevel⟩ | rfl
    · -- `#`: the two differ on the parent of the stem, which is shorter.
      have hparent : p = t ++ [47] → ¬ covers p t = true := by
        rintro rfl
        rw [Bool.not_eq_true, covers_eq_false_iff]
        exact .inl (by simp)
      have hwild : some 35 ∈ wildcards := by decide
      rw [nameAccepts_tail hlevel h43 h35 (by decide) (Nat.zero_le 1)]
      simp only [hwild]
      grind
    · -- `+`: they differ where more than one level follows.
      have hwild : some 43 ∈ wildcards := by decide
      rw [nameAccepts_one hlevel h43 h35 (by decide) (by decide)]
      simp only [hwild]
      grind
    · -- `*`: MQTT takes it for itself, and no topic has one.
      have hwild : some 42 ∈ wildcards := by decide
      have hself : p ++ [42] ≠ t := by
        rintro rfl
        exact absurd (mem_append_right p mem_cons_self) (not_mem_of_validTopicRegex ht isTopicByte_star)
      rw [nameAccepts_literal (by simpa using h43) (by simpa using h35)]
      simp only [hwild]
      grind

theorem named_of_grants (h : Grants f) (hf : validFilter f = true) : Named wildcards f (translateMQTTWildcard f) := by
  rcases stem_of_grants h hf with hplain | ⟨p, c, rfl, hname, -, hc⟩
  · exact .inl hplain
  · exact .inr ⟨p, c, rfl, hname, by rcases hc with ⟨rfl | rfl, -⟩ | rfl <;> decide⟩

end Mqtt

namespace Nats

variable {s : GoString}

/-! ## NATS -/

def translateSubject (subject : GoString) : GoString :=
  if hasSuffix subject (ascii ".>") then subject.take (subject.length - 2) ++ ascii ".*"
  else if subject = ascii ">" then ascii "*"
  else subject

structure Subscription where
  sid : GoString
  subject : GoString
  ch : Spy

/-- What `handleClient` keeps of a connection. -/
structure Conn where
  authenticated : Bool
  subs : AList fun _ : GoString => Subscription
  asked : Nat

/-- `handleSub`: its error, if any. -/
def handleSub (hub : Hub) (c : Conn) : List GoString → Option GoString × Conn
  | _ :: subject :: sid :: _ =>
    let subject := Cluster.trimSpaces subject
    let sid := Cluster.trimSpaces sid
    if sid = [] then (some (ascii "SUB sid cannot be empty"), c)
    else if (c.subs.lookup sid).isSome then (some (ascii "SUB sid '" ++ sid ++ ascii "' already in use"), c)
    else
      let topic := translateSubject subject
      if !isValidTopicName topic then (some (ascii "SUB invalid subject: " ++ subject), c)
      else
        match hub.addSpy c.asked topic with
        | .error e => (some (ascii "SUB broker error: " ++ e), { c with asked := c.asked + 1 })
        | .ok ch => (none, { c with subs := c.subs.insert sid ⟨sid, topic, ch⟩, asked := c.asked + 1 })
  | _ => (some (ascii "SUB requires subject and sid"), c)

/-- `handleSub` accepts a subject. -/
def Accepts (s : GoString) : Prop :=
  ∃ hub c fields, (handleSub hub c fields).1 = none ∧ Cluster.trimSpaces (fields.getD 1 []) = s

/-- A subject matches a topic: `*` is one token, `>` at the end one or more. -/
def accepts (s t : GoString) : Bool := nameAccepts 46 42 62 1 s t

def wildcards : List (Option UInt8) := [some 62, some 42]

/-- The star at the end of a subject is a token. -/
def StarToken (s : GoString) : Prop := s.dropLast = [] ∨ ascii "." <:+ s.dropLast

instance : DecidablePred StarToken := fun _ => inferInstanceAs (Decidable (_ ∨ _))

/-- Where a subject and its name in the broker mean the same topics. -/
structure Faithful (s t : GoString) : Prop where
  /-- A dot before the wildcard makes no difference. -/
  stem : s.getLast? ∈ wildcards → PrefixOk s.dropLast t
  /-- Where the last token is a star there is one token. -/
  token : s.getLast? = some 42 → StarToken s → s.dropLast <+: t → 46 ∉ t.drop s.dropLast.length
  /-- A star that is not a token, which stands for itself, has no topic under it. -/
  star : s.getLast? = some 42 → ¬ StarToken s → ¬ s.dropLast <+: t

theorem valid_of_accepts (h : Accepts s) : isValidTopicName (translateSubject s) = true := by
  obtain ⟨hub, c, fields, haccepts, rfl⟩ := h
  unfold handleSub at haccepts
  split at haccepts
  next first subject sid rest =>
    dsimp only at haccepts
    split at haccepts
    next => cases haccepts
    split at haccepts
    next => cases haccepts
    split at haccepts
    next => cases haccepts
    next hvalid => simpa using hvalid
  next => cases haccepts

/-- **The subjects with a valid name**: a topic, or a stem with a wildcard at
its end. -/
theorem stem_of_valid (hvalid : isValidTopicName (translateSubject s) = true) :
    (validTopicRegex s = true ∧ translateSubject s = s) ∨
    ∃ p c, s = p ++ [c] ∧ translateSubject s = p ++ ascii "*" ∧ (∀ d ∈ p, isTopicByte d = true) ∧
      (c = 62 ∧ (p = [] ∨ [46] <:+ p) ∨ c = 42) := by
  unfold translateSubject at hvalid ⊢
  split at hvalid
  next hsuffix =>
    rw [if_pos hsuffix]
    obtain ⟨q, rfl⟩ := hasSuffix_iff.mp hsuffix
    have hname : (q ++ ascii ".>").take ((q ++ ascii ".>").length - 2) ++ ascii ".*" = (q ++ [46]) ++ ascii "*" := by
      have hlen : (q ++ ascii ".>").length - 2 = q.length := by simp [ascii]
      rw [hlen, take_left, append_assoc]
      rfl
    rw [hname] at hvalid ⊢
    exact .inr ⟨q ++ [46], 62, by simp [ascii], rfl, topicBytes_of_isValidTopicName hvalid,
      .inl ⟨rfl, .inr (suffix_append _ _)⟩⟩
  next hsuffix =>
    rw [if_neg hsuffix]
    split at hvalid
    next heq =>
      rw [if_pos heq, heq]
      exact .inr ⟨[], 62, by decide, by decide, by simp, .inl ⟨rfl, .inl rfl⟩⟩
    next hne =>
      rw [if_neg hne]
      rcases isValidTopicName_cases hvalid with ht | ⟨p, rfl, hp⟩
      · exact .inl ⟨ht, rfl⟩
      · exact .inr ⟨p, 42, rfl, rfl, hp, .inr rfl⟩

theorem faithful_of_plain (hs : validTopicRegex s = true) : Faithful s t := by
  have hnot : ∀ {c}, isTopicByte c = false → s.getLast? ≠ some c := getLast?_ne_of_validTopicRegex hs
  refine ⟨fun h => ?_, fun h => absurd h (hnot (by decide)), fun h => absurd h (hnot (by decide))⟩
  simp [wildcards, hnot (c := 62) (by decide), hnot (c := 42) (by decide)] at h

theorem faithful_stem : Faithful (p ++ [c]) t ↔ (some c ∈ wildcards → PrefixOk p t) ∧
    (c = 42 → p = [] ∨ [46] <:+ p → p <+: t → 46 ∉ t.drop p.length) ∧
    (c = 42 → ¬ (p = [] ∨ [46] <:+ p) → ¬ p <+: t) := by
  constructor
  · rintro ⟨hstem, htoken, hstar⟩
    simp only [StarToken, getLast?_concat, dropLast_concat, Option.some.injEq, ascii_dot] at hstem htoken hstar
    exact ⟨hstem, htoken, hstar⟩
  · rintro ⟨hstem, htoken, hstar⟩
    constructor <;> simpa only [StarToken, getLast?_concat, dropLast_concat, Option.some.injEq, ascii_dot]

/-- **Where the name of a subject means what the subject does.** -/
theorem nameMatches_iff_accepts (h : Accepts s) (ht : validTopicRegex t = true) :
    (nameMatches (translateSubject s) t = true ↔ accepts s t = true) ↔ Faithful s t := by
  rw [accepts]
  rcases stem_of_valid (valid_of_accepts h) with ⟨hplain, hname⟩ | ⟨p, c, rfl, hname, hp, hc⟩
  · rw [hname, nameMatches_plain (star_not_mem_of_validTopicRegex hplain),
      nameAccepts_literal (not_mem_of_validTopicRegex hplain (by decide))
        (not_mem_of_validTopicRegex hplain (by decide))]
    simp [faithful_of_plain hplain]
  · have h42 : 42 ∉ p := Mqtt.not_mem_of_topicBytes hp (by decide)
    have h62 : 62 ∉ p := Mqtt.not_mem_of_topicBytes hp (by decide)
    have hpre : p <+: t → covers p t = true := covers_of_prefix
    rw [hname, nameMatches_stem hp ht, faithful_stem, prefixOk_iff]
    rcases hc with ⟨rfl, htoken⟩ | rfl
    · have hwild : some 62 ∈ wildcards := by decide
      rw [nameAccepts_tail htoken h42 h62 (by decide) (Nat.le_refl 1)]
      simp [hwild]
    have hwild : some 42 ∈ wildcards := by decide
    by_cases htoken : p = [] ∨ [46] <:+ p
    · -- A token: the two differ where more than one token follows.
      rw [nameAccepts_one htoken h42 h62 (by decide) (by decide)]
      simp only [hwild, htoken]
      grind
    · -- No token: it stands for itself, and no topic has one.
      have hself : p ++ [42] ≠ t := by
        rintro rfl
        exact absurd (by simp) (not_mem_of_validTopicRegex ht isTopicByte_star)
      have hinner : nameAccepts 46 42 62 1 (p ++ [42]) t = true ↔ p ++ [42] = t := by
        obtain ⟨q, l, rfl, hq, hl⟩ := exists_stem 46 p
        have hnil : l ≠ [] := by
          rintro rfl
          rw [append_nil] at htoken
          exact htoken hq
        rw [append_assoc, nameAccepts_inner hq hl (by decide) hnil (fun hm => h42 (by simp [hm]))
          fun hm => h62 (by simp [hm])]
      rw [hinner]
      simp only [hwild, htoken]
      grind

theorem named_of_accepts (h : Accepts s) : Named wildcards s (translateSubject s) := by
  rcases stem_of_valid (valid_of_accepts h) with hplain | ⟨p, c, rfl, hname, -, hc⟩
  · exact .inl hplain
  · exact .inr ⟨p, c, rfl, hname, by rcases hc with ⟨rfl, -⟩ | rfl <;> decide⟩

end Nats

/-! ## Both -/

/-- **Where subscriptions keep the meaning of their protocol.** The name a
filter or a subject gets matches what its protocol says exactly on the
topics that are `Faithful` to it; and two of them get two names exactly if
they do not differ in their final wildcard only. -/
theorem gateways_faithful {f g s s' t : GoString} (ht : publishAccepts t = true) :
    (Mqtt.Grants f → Mqtt.validFilter f = true →
      ((nameMatches (Mqtt.translateMQTTWildcard f) t = true ↔ Mqtt.accepts f t = true) ↔ Mqtt.Faithful f t) ∧
      (Mqtt.Grants g → Mqtt.validFilter g = true → f ≠ g →
        (Mqtt.translateMQTTWildcard f ≠ Mqtt.translateMQTTWildcard g ↔ ¬ SameStem Mqtt.wildcards f g))) ∧
    (Nats.Accepts s →
      ((nameMatches (Nats.translateSubject s) t = true ↔ Nats.accepts s t = true) ↔ Nats.Faithful s t) ∧
      (Nats.Accepts s' → s ≠ s' →
        (Nats.translateSubject s ≠ Nats.translateSubject s' ↔ ¬ SameStem Nats.wildcards s s'))) := by
  have hv := validTopicRegex_of_publishAccepts ht
  have hmqtt : ∀ c, some c ∈ Mqtt.wildcards → isTopicByte c = false := by
    simp only [Mqtt.wildcards, mem_cons, Option.some.injEq, not_mem_nil, or_false]
    rintro c (rfl | rfl | rfl) <;> decide
  have hnats : ∀ c, some c ∈ Nats.wildcards → isTopicByte c = false := by
    simp only [Nats.wildcards, mem_cons, Option.some.injEq, not_mem_nil, or_false]
    rintro c (rfl | rfl) <;> decide
  refine ⟨fun hf hf' => ⟨Mqtt.nameMatches_iff_accepts hf hf' hv, fun hg hg' => ?_⟩,
    fun hs => ⟨Nats.nameMatches_iff_accepts hs hv, fun hs' => ?_⟩⟩
  · exact (Mqtt.named_of_grants hf hf').ne_iff hmqtt (Mqtt.named_of_grants hg hg')
  · exact (Nats.named_of_accepts hs).ne_iff hnats (Nats.named_of_accepts hs')

def Hub.sample : Hub where
  publish _ _ _ := none
  addSpy n name := if isValidTopicName name then .ok n else .error (ascii "invalid topic name")
  addSpy_valid h := by
    split at h
    next hvalid => exact hvalid
    next => cases h

/-- A packet with the filters `a/#`, `b/c` and `a/+`. -/
def sampleSubscribe : List UInt8 :=
  [0, 1, 0, 3] ++ ascii "a/#" ++ [0, 0, 3] ++ ascii "b/c" ++ [0, 0, 3] ++ ascii "a/+" ++ [0]

theorem grants_sample (h : (f, 0x00) ∈ (Mqtt.handleSubscribe .sample ⟨∅, [], 0⟩ sampleSubscribe).1) : Mqtt.Grants f :=
  ⟨.sample, ⟨∅, [], 0⟩, sampleSubscribe, h⟩

theorem accepts_sample
    (h : (Nats.handleSub .sample ⟨true, ∅, 0⟩ [ascii "SUB", s, ascii "1"]).1 = none ∧ Cluster.trimSpaces s = s) :
    Nats.Accepts s :=
  ⟨.sample, ⟨true, ∅, 0⟩, [ascii "SUB", s, ascii "1"], h⟩

theorem gateways_faithful_sample : (nameMatches (Mqtt.translateMQTTWildcard (ascii "a/#")) (ascii "a/b") = true ↔
      Mqtt.accepts (ascii "a/#") (ascii "a/b") = true) ∧
    Mqtt.translateMQTTWildcard (ascii "a/#") ≠ Mqtt.translateMQTTWildcard (ascii "b/c") ∧
    (nameMatches (Nats.translateSubject (ascii "a.>")) (ascii "a.b") = true ↔
      Nats.accepts (ascii "a.>") (ascii "a.b") = true) ∧
    Nats.translateSubject (ascii "a.>") ≠ Nats.translateSubject (ascii "b") := by
  have hmqtt := (@gateways_faithful (ascii "a/#") (ascii "b/c") [] [] (ascii "a/b") (by decide)).1
    (grants_sample (by decide +kernel)) (by decide)
  have hnats := (@gateways_faithful [] [] (ascii "a.>") (ascii "b") (ascii "a.b") (by decide)).2
    (accepts_sample (by decide +kernel))
  exact ⟨hmqtt.1.mpr ⟨by decide, by decide, by decide, by decide⟩,
    (hmqtt.2 (grants_sample (by decide +kernel)) (by decide) (by decide)).mpr (by decide),
    hnats.1.mpr ⟨by decide, by decide, by decide⟩,
    (hnats.2 (accepts_sample (by decide +kernel)) (by decide)).mpr (by decide)⟩

/-- `a/#` loses the parent, `a/+` gets every level below, and both have one
name; `a.*` gets more than a token, and topics without its dot. -/
theorem gateways_unfaithful : (Mqtt.Grants (ascii "a/#") ∧ Mqtt.Grants (ascii "a/+") ∧
      Mqtt.validFilter (ascii "a/#") = true ∧ Mqtt.validFilter (ascii "a/+") = true) ∧
    (Mqtt.accepts (ascii "a/#") (ascii "a") = true ∧
      nameMatches (Mqtt.translateMQTTWildcard (ascii "a/#")) (ascii "a") = false) ∧
    (Mqtt.accepts (ascii "a/+") (ascii "a/b/c") = false ∧
      nameMatches (Mqtt.translateMQTTWildcard (ascii "a/+")) (ascii "a/b/c") = true) ∧
    Mqtt.translateMQTTWildcard (ascii "a/#") = Mqtt.translateMQTTWildcard (ascii "a/+") ∧ Nats.Accepts (ascii "a.*") ∧
    (Nats.accepts (ascii "a.*") (ascii "a.b.c") = false ∧
      nameMatches (Nats.translateSubject (ascii "a.*")) (ascii "a.b.c") = true) ∧
    (Nats.accepts (ascii "a.*") (ascii "axb") = false ∧
      nameMatches (Nats.translateSubject (ascii "a.*")) (ascii "axb") = true) :=
  ⟨⟨grants_sample (by decide +kernel), grants_sample (by decide +kernel), by decide, by decide⟩,
    by decide, by decide,
    by decide, accepts_sample (by decide +kernel), by decide, by decide⟩

end TinyMQ
