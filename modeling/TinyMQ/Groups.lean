/-
Groups and the topics they live in: `CreateGroup`, `CreateTopic` and
`DeleteTopic`, and the map of bindings a publish fans out over.

A binding is made before the topic it names is there, and it stays when the
topic is deleted; `no_dangling_iff` says which calls leave a binding without
its topic.
-/
import TinyMQ.FanOut
import TinyMQ.Lib.Lts

namespace TinyMQ

open Option Broker AList Text

/-! ## The code -/

/-- `fmt.Sprintf("%s::%s", topicName, groupName)`. -/
def virtualName (topicName groupName : GoString) : GoString := topicName ++ ascii "::" ++ groupName

/-- `DeleteLog`; `os.Remove` may fail. -/
def LogStore.deleteLog (s : LogStore) (topic : GoString) (removed : Bool) : LogStore :=
  match isSafePath topic with
  | some _ => s
  | none => if removed then { s with files := s.files.erase (logFilename topic) } else s

namespace Broker

/-- `CreateGroup`. What `OnGroupCreate` is told of does not come back to the
broker. -/
def createGroup (b : Broker) (topicName groupName : GoString) : Except GoString GoString × Broker :=
  if !validTopicRegex groupName then (.error (ascii "invalid group name format"), b)
  else
    let name := virtualName topicName groupName
    match (b.bind topicName name).getOrCreateTopic name with
    | (none, b) => (.error (ascii "broker maximum topic limit reached"), b)
    | (some _, b) => (.ok name, b)

def getGroups (b : Broker) (topicName : GoString) : List GoString × Broker :=
  let (names, b) := b.range (b.bindings topicName)
  (names.map fun vt => trimPrefix vt (topicName ++ ascii "::"), b)

/-- `CreateTopic`; the error is that of the first check that fails. -/
def createTopic (b : Broker) (topicName policy : GoString) (retention : Time) : Option GoString × Broker :=
  if topicName.length = 0 ∨ 255 < topicName.length then (some (ascii "Invalid name length (1-255 characters)"), b)
  else if !validTopicRegex topicName then
    (some (ascii "The name can only contain letters, numbers, '.', '-' and '_'"), b)
  else if b.limits.maxTopics ≤ b.topics.entries.length then (some (ascii "broker maximum topic limit reached"), b)
  else if (b.topics.lookup topicName).isSome then (some (ascii "the Topic already exists"), b)
  else
    let policy := if policy = ascii "drop-oldest" then Policy.dropOldest else Policy.reject
    (none, b.addTopic { Topic.create topicName policy with retention := retention })

/-- The entries of a name are deleted from `b.Topics`, `b.wildcards` and
`b.compiledRegex`. -/
def removeTopic (b : Broker) (topicName : GoString) : Broker :=
  { b with
    topics := b.topics.erase topicName
    wildcards := b.wildcards.erase topicName
    compiledRegex := b.compiledRegex.erase topicName
    topics_ok := by
      intro n r h
      by_cases hn : n = topicName
      · rw [hn, lookup_erase] at h
        cases h
      · rw [lookup_erase_ne hn] at h
        exact b.topics_ok h
    wildcards_ok := by
      intro n r h
      by_cases hn : n = topicName
      · rw [hn, lookup_erase] at h
        cases h
      · rw [lookup_erase_ne hn] at h ⊢
        exact b.wildcards_ok h }

/-- `DeleteTopic`, which waits for `t.mu`: first the maps, then the log. -/
def deleteTopic (b : Broker) (topicName : GoString) (removed : Bool) : Option (Option GoString × Broker) :=
  match b.topics.lookup topicName with
  | none => some (some (ascii "queue not found"), b)
  | some r =>
    (b.lock r).map fun t =>
      let b := (b.setTopic r { t with deleted := true }).removeTopic topicName
      (none, { b with storage := b.storage.map (·.deleteLog topicName removed) })

end Broker

/-- The calls that make and drop topics and bindings. -/
inductive GroupOp
  | createGroup (topicName groupName : GoString)
  | publish (p : PublishArgs)
  | createTopic (topicName policy : GoString) (retention : Time)
  | deleteTopic (topicName : GoString) (removed : Bool)

inductive GroupOp.Steps : GroupOp → Broker → Broker → Prop
  | createGroup {T g b} : Steps (.createGroup T g) b (b.createGroup T g).2
  | publish {now p r b b'} : Returns now b (Op.publish p).entry r b' → Steps (.publish p) b b'
  | createTopic {n policy retention b} :
      Steps (.createTopic n policy retention) b (b.createTopic n policy retention).2
  | deleteTopic {n removed e} {b b' : Broker} :
      b.deleteTopic n removed = some (e, b') → Steps (.deleteTopic n removed) b b'

/-! ## What a call does to topics and bindings -/

namespace Broker

variable {b b' : Broker} {T n : GoString} {names : List GoString}

/-- Every topic that a binding lists is there. -/
def Bound (b : Broker) : Prop := ∀ T, ∀ d ∈ b.bindings T, (b.topics.lookup d).isSome = true

/-- Topics of some names may have come, nothing else has. -/
structure Adds (b b' : Broker) (names : List GoString) : Prop where
  bindings : b'.bindings = b.bindings
  topics : ∀ {n r}, b.topics.lookup n = some r → b'.topics.lookup n = some r
  others : ∀ n, n ∉ names → b'.topics.lookup n = b.topics.lookup n

theorem Adds.refl (b : Broker) (names : List GoString) : b.Adds b names := ⟨rfl, id, fun _ _ => rfl⟩

theorem Adds.trans (h : b.Adds b' names) (h' : b'.Adds b'' names')
    (hsub : ∀ n ∈ names', n ∈ names) : b.Adds b'' names where
  bindings := h'.bindings.trans h.bindings
  topics hl := h'.topics (h.topics hl)
  others n hn := (h'.others n fun hm => hn (hsub n hm)).trans (h.others n hn)

theorem Adds.isSome (h : b.Adds b' names) (hn : (b.topics.lookup n).isSome = true) :
    (b'.topics.lookup n).isSome = true := by
  obtain ⟨r, hr⟩ := isSome_iff_exists.mp hn
  rw [h.topics hr]
  rfl

theorem Adds.bound (h : b.Adds b' names) (hb : b.Bound) : b'.Bound := by
  intro T d hd
  rw [h.bindings] at hd
  exact h.isSome (hb T d hd)

theorem getOrCreateTopic_adds (b : Broker) (n : GoString) : b.Adds (b.getOrCreateTopic n).2 [n] where
  bindings := (b.quiet_getOrCreateTopic n []).bindings
  topics := (b.quiet_getOrCreateTopic n []).topics
  others _ hk := getOrCreateTopic_lookup_ne (by simpa using hk)

theorem Adds.of_frame (h : (b.getOrCreateTopic n).2.Frame b') : b.Adds b' [n] where
  bindings := h.bindings.trans (b.getOrCreateTopic_adds n).bindings
  topics hl := by
    rw [h.topics]
    exact (b.getOrCreateTopic_adds n).topics hl
  others k hk := by
    rw [h.topics]
    exact (b.getOrCreateTopic_adds n).others k hk

theorem publish_adds (hg : b.Grouped p.topicName)
    (h : Returns now b (Op.publish p).entry r b') : b.Adds b' (b.tried p.topicName) := by
  refine publish_rule (I := fun c => b.Adds c (b.tried p.topicName)) hg h (.refl _ _)
    (fun _ => ⟨rfl, id, fun _ _ => rfl⟩)
    fun n hn _ c c' hc hcase => ?_
  have hframe : (c.getOrCreateTopic n).2.Frame c' := by
    rcases hcase with href | ⟨t, m, had⟩
    · exact href.frame
    · exact had.frame
  exact hc.trans (.of_frame hframe) fun k hk => List.mem_singleton.mp hk ▸ hn

theorem addTopic_adds (h : b.topics.lookup t.name = none) : b.Adds (b.addTopic t) [t.name] where
  bindings := rfl
  topics {k r} hk := by
    have hne : k ≠ t.name := by
      rintro rfl
      cases h.symm.trans hk
    rw [lookup_addTopic, if_neg hne, hk]
  others k hk := by rw [lookup_addTopic, if_neg (by simpa using hk)]

theorem createTopic_adds (b : Broker) (n policy : GoString) (retention : Time) :
    b.Adds (b.createTopic n policy retention).2 [n] := by
  unfold createTopic
  split
  · exact .refl _ _
  split
  · exact .refl _ _
  split
  · exact .refl _ _
  split
  · exact .refl _ _
  next h =>
    exact addTopic_adds (t := { Topic.create n _ with retention := retention })
      (not_isSome_iff_eq_none.mp h)

theorem deleteTopic_cases (h : b.deleteTopic n removed = some (e, b')) : b.topics.lookup n = none ∧ b' = b ∨
      (b.topics.lookup n).isSome = true ∧ b'.bindings = b.bindings ∧ b'.topics = b.topics.erase n := by
  unfold deleteTopic at h
  cases hl : b.topics.lookup n with
  | none =>
    rw [hl] at h
    cases h
    exact .inl ⟨rfl, rfl⟩
  | some r =>
    rw [hl] at h
    obtain ⟨t, -, ht⟩ := map_eq_some_iff.mp h
    cases ht
    exact .inr ⟨rfl, rfl, rfl⟩

theorem createGroup_of_not_valid (hg : validTopicRegex g = false) :
    b.createGroup T g = (.error (ascii "invalid group name format"), b) := by
  simp [createGroup, hg]

/-- A group of a good name: the binding is made in any case, the topic if it
can be. -/
theorem createGroup_of_valid (hg : validTopicRegex g = true) :
    (b.bind T (virtualName T g)).Adds (b.createGroup T g).2 [virtualName T g] ∧
      ((b.createGroup T g).2.topics.lookup (virtualName T g)).isSome = b.canGet (virtualName T g) ∧
      (b.createGroup T g).1 = (if b.canGet (virtualName T g) then .ok (virtualName T g)
        else .error (ascii "broker maximum topic limit reached")) := by
  have hcan : b.canGet (virtualName T g) = (b.bind T (virtualName T g)).canGet (virtualName T g) := rfl
  have hadds := (b.bind T (virtualName T g)).getOrCreateTopic_adds (virtualName T g)
  rw [hcan, canGet_eq]
  unfold createGroup
  simp only [hg, Bool.not_true, Bool.false_eq_true, if_false]
  rcases hget : (b.bind T (virtualName T g)).getOrCreateTopic (virtualName T g) with ⟨_ | r, c⟩
  · have hc := getOrCreateTopic_none (congrArg Prod.fst hget)
    rw [hget] at hadds hc
    have hnone : c.topics.lookup (virtualName T g) = none := by
      cases hl : c.topics.lookup (virtualName T g) with
      | none => rfl
      | some r =>
        rw [← hc] at hget
        simp [getOrCreateTopic, hl] at hget
    exact ⟨hadds, by simp [hnone], rfl⟩
  · rw [hget] at hadds
    exact ⟨hadds, by simp [getOrCreateTopic_lookup hget], rfl⟩

theorem contains_virtualName (T g : GoString) : contains (virtualName T g) (ascii "::") = true :=
  contains_iff.mpr ⟨T, g, rfl⟩

end Broker

/-! ## No binding without its topic -/

/-- What a call must meet so that no binding loses its topic: a group can get
its topic, and a topic that is deleted is not bound. -/
def GroupOp.Keeps (b : Broker) : GroupOp → Prop
  | .createGroup T g => validTopicRegex g = false ∨ b.canGet (virtualName T g) = true
  | .deleteTopic n _ => ∀ T, n ∉ b.bindings T
  | _ => True

def GroupOp.target : GroupOp → GoString
  | .createGroup T g => virtualName T g
  | .publish p => p.topicName
  | .createTopic n _ _ => n
  | .deleteTopic n _ => n

/-- What is promised of a call: bindings have their topics, a group that could
not be created is not bound, a topic that was deleted comes back only when
it is asked for. -/
structure NoDangling (op : GroupOp) (b b' : Broker) : Prop where
  bound : b'.Bound
  failed : ∀ {T g e}, op = .createGroup T g → (b.createGroup T g).1 = .error e →
    b'.bindings = b.bindings ∧ ∀ T', (b'.getGroups T').1 = (b.getGroups T').1
  deleted : ∀ {n removed c}, op = .deleteTopic n removed → Lts.RelRun GroupOp.Steps (fun _ op => op.target ≠ n) b' c →
    c.topics.lookup n = none

section Steps

variable {b b' c : Broker} {op : GroupOp} {n : GoString}

theorem GroupOp.Steps.grouped (h : op.Steps b b') (hg : ∀ T, b.Grouped T) : ∀ T, b'.Grouped T := by
  cases h with
  | @createGroup T g =>
    intro T'
    cases hv : validTopicRegex g with
    | false =>
      rw [createGroup_of_not_valid hv]
      exact hg T'
    | true =>
      obtain ⟨hadds, -, -⟩ := createGroup_of_valid (b := b) (T := T) hv
      simp only [Grouped, hadds.bindings]
      refine ⟨?_, fun d hd => ?_⟩
      · by_cases hT : T' = T
        · subst hT
          simpa [Broker.bind] using (hg T').1.insert
        · simpa [Broker.bind, hT] using (hg T').1
      · rcases mem_bind.mp hd with ⟨-, rfl⟩ | hd
        · exact contains_virtualName T g
        · exact (hg T').2 d hd
  | publish h =>
    intro T'
    rw [Grouped, (publish_adds (hg _) h).bindings]
    exact hg T'
  | createTopic =>
    intro T'
    rw [Grouped, (b.createTopic_adds _ _ _).bindings]
    exact hg T'
  | deleteTopic h =>
    rcases deleteTopic_cases h with ⟨-, rfl⟩ | ⟨-, hb, -⟩
    · exact hg
    · intro T'
      rw [Grouped, hb]
      exact hg T'

theorem GroupOp.Steps.absent (h : op.Steps b b') (hg : ∀ T, b.Grouped T) (hop : op.target ≠ n)
    (hn : b.topics.lookup n = none ∧ ∀ T, n ∉ b.bindings T) : b'.topics.lookup n = none ∧ ∀ T, n ∉ b'.bindings T := by
  have hnot : n ∉ [op.target] := by simpa using Ne.symm hop
  have hadded : ∀ {b₁ names}, b.Adds b₁ names → n ∉ names → b₁.topics.lookup n = none ∧
    ∀ T, n ∉ b₁.bindings T := by
    intro b₁ names hadds hout
    rw [hadds.bindings, hadds.others n hout]
    exact hn
  cases h with
  | @createGroup T g =>
    cases hv : validTopicRegex g with
    | false =>
      rw [createGroup_of_not_valid hv]
      exact hn
    | true =>
      obtain ⟨hadds, -, -⟩ := createGroup_of_valid (b := b) (T := T) hv
      refine ⟨(hadds.others n hnot).trans hn.1, fun T' hd => ?_⟩
      rw [hadds.bindings] at hd
      rcases mem_bind.mp hd with ⟨-, he⟩ | hd
      · exact hop he.symm
      · exact hn.2 T' hd
  | publish h =>
    refine hadded (publish_adds (hg _) h) fun hmem => ?_
    rcases tried_subset hmem with he | hd
    · exact hop he.symm
    · exact hn.2 _ hd
  | createTopic => exact hadded (b.createTopic_adds _ _ _) hnot
  | @deleteTopic k _ _ _ _ h =>
    rcases deleteTopic_cases h with ⟨-, rfl⟩ | ⟨-, hb, ht⟩
    · exact hn
    · rw [hb, ht, lookup_erase_ne (show n ≠ k from Ne.symm hop)]
      exact hn

theorem absent_run (h : Lts.RelRun GroupOp.Steps (fun _ op => op.target ≠ n) b c) (hg : ∀ T, b.Grouped T)
    (hn : b.topics.lookup n = none ∧ ∀ T, n ∉ b.bindings T) : c.topics.lookup n = none := by
  have := h.invariant (I := fun b => (∀ T, b.Grouped T) ∧ b.topics.lookup n = none ∧ ∀ T, n ∉ b.bindings T)
    (fun b op b' hI hok hs => ⟨hs.grouped hI.1, hs.absent hI.1 hok hI.2⟩) ⟨hg, hn⟩
  exact this.2.1

/-- One call: every binding still has its topic exactly when the call meets
its condition. -/
theorem GroupOp.Steps.bound_iff (h : op.Steps b b') (hb : b.Bound) (hg : ∀ T, b.Grouped T) :
    b'.Bound ↔ op.Keeps b := by
  cases h with
  | @createGroup T g =>
    cases hv : validTopicRegex g with
    | false =>
      rw [createGroup_of_not_valid hv]
      exact ⟨fun _ => .inl hv, fun _ => hb⟩
    | true =>
      obtain ⟨hadds, hsome, -⟩ := createGroup_of_valid (b := b) (T := T) hv
      have hbind : (b.createGroup T g).2.bindings = (b.bind T (virtualName T g)).bindings := hadds.bindings
      constructor
      · intro hb'
        refine .inr ?_
        rw [← hsome]
        refine hb' T _ ?_
        rw [hbind]
        exact mem_bind.mpr (.inl ⟨rfl, rfl⟩)
      · intro hkeeps T' d hd
        rw [hbind] at hd
        rcases mem_bind.mp hd with ⟨-, rfl⟩ | hd
        · rw [hsome]
          exact hkeeps.resolve_left (by simp [hv])
        · exact hadds.isSome (hb T' d hd)
  | publish h => exact ⟨fun _ => trivial, fun _ => (publish_adds (hg _) h).bound hb⟩
  | createTopic => exact ⟨fun _ => trivial, fun _ => (b.createTopic_adds _ _ _).bound hb⟩
  | @deleteTopic n _ _ _ _ h =>
    rcases deleteTopic_cases h with ⟨hnone, rfl⟩ | ⟨-, hbind, ht⟩
    · -- A bound name would have its topic.
      refine ⟨fun _ T hd => ?_, fun _ => hb⟩
      have := hb T n hd
      rw [hnone] at this
      cases this
    · constructor
      · intro hb' T hd
        have := hb' T n (by rw [hbind]; exact hd)
        rw [ht, lookup_erase] at this
        cases this
      · intro hkeeps T d hd
        rw [hbind] at hd
        have hne : d ≠ n := by
          rintro rfl
          exact hkeeps T hd
        rw [ht, lookup_erase_ne hne]
        exact hb T d hd

/-- **Bindings and topics over whole runs**: as long as each call meets its
condition no binding dangles, and the first that does not meet it breaks
what is promised. -/
theorem no_dangling_iff {b₀ : Broker} (hrun : Lts.RelRun GroupOp.Steps (fun b op => op.Keeps b) b₀ b) (hb₀ : b₀.Bound)
    (hg₀ : ∀ T, b₀.Grouped T) (h : op.Steps b b') : NoDangling op b b' ↔ op.Keeps b := by
  obtain ⟨hb, hg⟩ := hrun.invariant (I := fun b => b.Bound ∧ ∀ T, b.Grouped T)
    (fun b op b' hI hok hs => ⟨(hs.bound_iff hI.1 hI.2).mpr hok, hs.grouped hI.2⟩) ⟨hb₀, hg₀⟩
  refine ⟨fun hnd => (h.bound_iff hb hg).mp hnd.bound, fun hkeeps => ⟨(h.bound_iff hb hg).mpr hkeeps, ?_, ?_⟩⟩
  · intro T g e hop herr
    subst hop
    cases h
    rcases hkeeps with hv | hcan
    · rw [createGroup_of_not_valid hv]
      exact ⟨rfl, fun _ => rfl⟩
    · -- A group that can get its topic fails only on its name.
      cases hv : validTopicRegex g with
      | false =>
        rw [createGroup_of_not_valid hv]
        exact ⟨rfl, fun _ => rfl⟩
      | true =>
        obtain ⟨-, -, hret⟩ := createGroup_of_valid (b := b) (T := T) hv
        rw [hret, if_pos hcan] at herr
        cases herr
  · intro n removed c hop hlater
    have hg' := h.grouped hg
    subst hop
    cases h with
    | deleteTopic h =>
      refine absent_run hlater hg' ?_
      rcases deleteTopic_cases h with ⟨hnone, rfl⟩ | ⟨-, hbind, ht⟩
      · exact ⟨hnone, hkeeps⟩
      · rw [hbind, ht, lookup_erase]
        exact ⟨rfl, hkeeps⟩

end Steps

def emptyBroker (maxTopics : Nat) (h : 0 < maxTopics := by decide) : Broker :=
  .new ⟨10, maxTopics, Limits.ten_pos, h⟩ .reject false none .sample fun _ => ⟨1, []⟩

theorem emptyBroker_bound (maxTopics : Nat) (h : 0 < maxTopics) :
    (emptyBroker maxTopics h).Bound ∧ ∀ T, (emptyBroker maxTopics h).Grouped T := by
  simp [Bound, Grouped, emptyBroker, new]

theorem emptyBroker_fresh (maxTopics : Nat) (h : 0 < maxTopics) : (emptyBroker maxTopics h).Fresh := by
  intro z m hm
  cases z <;> cases hm

/-- With room for one topic, a group that could not be created is listed; and
a group that is deleted comes back with the next publish to its source. -/
theorem bindings_dangle : (∃ b, b = ((emptyBroker 1).createTopic (ascii "t") [] 0).2 ∧
      (b.createGroup (ascii "t") (ascii "g")).1 = .error (ascii "broker maximum topic limit reached") ∧
      (b.getGroups (ascii "t")).1 = [] ∧
        ((b.createGroup (ascii "t") (ascii "g")).2.getGroups (ascii "t")).1 = [ascii "g"] ∧
      ¬ NoDangling (.createGroup (ascii "t") (ascii "g")) b (b.createGroup (ascii "t") (ascii "g")).2) ∧
    ∃ b b' c r, b = ((emptyBroker 10).createGroup (ascii "t") (ascii "g")).2 ∧
      b.deleteTopic (ascii "t::g") true = some (none, b') ∧ b'.topics.lookup (ascii "t::g") = none ∧
      Returns 0 b' (Op.publish samplePublish).entry r c ∧ (c.topics.lookup (ascii "t::g")).isSome = true ∧
      ¬ NoDangling (.deleteTopic (ascii "t::g") true) b b' := by
  constructor
  · refine ⟨_, rfl, by decide +kernel, by decide +kernel, by decide +kernel, fun h => ?_⟩
    have hsame :=
      (h.failed rfl (by decide +kernel : _ = Except.error (ascii "broker maximum topic limit reached"))).2 (ascii "t")
    exact absurd hsame (by decide +kernel)
  · let b := ((emptyBroker 10).createGroup (ascii "t") (ascii "g")).2
    let del := (b.deleteTopic (ascii "t::g") true).get (by decide +kernel)
    have hdel : b.deleteTopic (ascii "t::g") true = some (none, del.2) := by
      rw [← show del.1 = none by decide +kernel]
      exact (some_get (by decide +kernel)).symm
    have hpub := returns_get 0 del.2 (.publish samplePublish)
    have hback : ((del.2.after 0 (.publish samplePublish)).topics.lookup (ascii "t::g")).isSome = true := by
      decide +kernel
    refine ⟨b, del.2, _, _, rfl, hdel, by decide +kernel, hpub, hback, fun h => ?_⟩
    have hgone :=
      h.deleted rfl (.snoc .refl (by decide : GroupOp.target (.publish samplePublish) ≠ ascii "t::g") (.publish hpub))
    rw [hgone] at hback
    cases hback

/-- A group that gets its topic keeps what is promised. -/
theorem no_dangling_sample : NoDangling (.createGroup (ascii "t") (ascii "g")) (emptyBroker 10)
    ((emptyBroker 10).createGroup (ascii "t") (ascii "g")).2 := by
  obtain ⟨hb, hg⟩ := emptyBroker_bound 10 (by decide)
  exact (no_dangling_iff .refl hb hg .createGroup).mpr (.inr (by decide))

end TinyMQ
