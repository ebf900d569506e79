/-
The bindings after a restart.

Bindings are not stored. `LoadExistingTopics` reads them off the names of
the logs: a name with `::` is bound to what stands before the first one. So
a binding comes back if its group has a log whose file name decodes to the
group's name and splits where `CreateGroup` joined it, and any other log
with `::` in its name makes a binding that was not there.
-/
import TinyMQ.Groups
import TinyMQ.Requeue
import TinyMQ.Redrive

namespace TinyMQ

open List Option Broker Text Topic

/-! ## Names that a restart binds as they were bound -/

/-- If storage takes the name, a log of that name is decoded to it, and it is
bound to what a restart binds it to. -/
def Derives (bindings : GoString → List GoString) (n : GoString) : Prop :=
  isSafePath n = none → validTopicRegex n = true ∧ FileNameSafe n ∧
    (contains n (ascii "::") = true → n ∈ bindings (before (ascii "::") n))

theorem Derives.mono {B B' : GoString → List GoString} (h : Derives B n) (hsub : ∀ T, ∀ d ∈ B T, d ∈ B' T) :
    Derives B' n := fun hsafe =>
  ⟨(h hsafe).1, (h hsafe).2.1, fun hc => hsub _ _ ((h hsafe).2.2 hc)⟩

theorem before_virtualName (hT : ¬ ascii "::" <:+: T) (hend : ¬ ascii ":" <:+ T) :
    before (ascii "::") (virtualName T g) = T := by
  have hjoin : virtualName T g = T ++ 58 :: 58 :: g := by
    rw [virtualName, ascii_colons]
    simp
  rw [ascii_colons] at hT ⊢
  rw [hjoin]
  exact before_double g hT hend

namespace Broker

/-- Every log is that of such a name, and so is every topic that has
messages, for these may come to be acked. -/
structure Stored (B : GoString → List GoString) (b : Broker) : Prop where
  files : ∀ s, b.storage = some s → ∀ f ∈ s.files, ∃ n, f = logFilename n ∧ isSafePath n = none ∧ Derives B n
  queue : ∀ n, b.queue n ≠ [] → Derives B n

/-- And every group is bound to the topic a restart would bind it to. -/
structure Traced (b : Broker) : Prop where
  grouped : ∀ T, b.Grouped T
  bound : ∀ T, ∀ d ∈ b.bindings T, Accepted d ∧ FileNameSafe d ∧ before (ascii "::") d = T
  stored : b.Stored b.bindings

variable {B : GoString → List GoString} {b b' : Broker} {n name : GoString} {t t' : Topic} {r : TopicRef}

theorem Traced.derives (h : b.Traced) (hd : d ∈ b.bindings T) : Derives b.bindings d := fun _ => by
  obtain ⟨hacc, hfile, hbefore⟩ := h.bound T d hd
  exact ⟨hacc.1, hfile, fun _ => by rw [hbefore]; exact hd⟩

/-! ## What the calls do to logs and queues -/

theorem mem_files_append {s : LogStore} (h : f ∈ (s.append n e).files) :
    f ∈ s.files ∨ isSafePath n = none ∧ f = logFilename n := by
  unfold LogStore.append at h
  split at h
  · exact .inl h
  next hsafe =>
    split at h
    · exact .inl h
    · rcases (AList.mem_insert _).mp h with he | h
      · exact .inr ⟨hsafe, he⟩
      · exact .inl h
    · rcases (AList.mem_insert _).mp h with he | h
      · exact .inr ⟨hsafe, he⟩
      · exact .inl h

theorem Stored.mono {B' : GoString → List GoString} (h : b.Stored B)
    (hsub : ∀ T, ∀ d ∈ B T, d ∈ B' T) : b.Stored B' where
  files s hs f hf := by
    obtain ⟨n, he, hsafe, hn⟩ := h.files s hs f hf
    exact ⟨n, he, hsafe, hn.mono hsub⟩
  queue n hn := (h.queue n hn).mono hsub

theorem Stored.log (h : b.Stored B) (hn : Derives B n) (e : LogEntry) : (b.log n e).Stored B where
  files s' hs' f hf := by
    obtain ⟨s, hs, rfl⟩ := map_eq_some_iff.mp hs'
    rcases mem_files_append hf with hf | ⟨hsafe, rfl⟩
    · exact h.files s hs f hf
    · exact ⟨n, rfl, hsafe, hn⟩
  queue := h.queue

theorem Stored.logs (h : b.Stored B) (hn : Derives B n) (es : List LogEntry) : (b.logs n es).Stored B := by
  induction es generalizing b with
  | nil => exact h
  | cons e es ih => exact ih (h.log hn e)

theorem queue_logs (b : Broker) (n : GoString) (es : List LogEntry) (k : GoString) :
    (b.logs n es).queue k = b.queue k := by
  induction es generalizing b with
  | nil => rfl
  | cons e es ih => exact ih (b.log n e)

theorem Stored.of_queues (h : b.Stored B) (hs : b'.storage = b.storage)
    (hq : ∀ n, b'.queue n ≠ [] → b.queue n ≠ [] ∨ Derives B n) : b'.Stored B where
  files s hs' := h.files s (hs ▸ hs')
  queue n hn := (hq n hn).elim (h.queue n) id

theorem getOrCreateTopic_storage (b : Broker) (name : GoString) :
    (b.getOrCreateTopic name).2.storage = b.storage := by
  unfold getOrCreateTopic
  split
  · rfl
  · split <;> rfl

theorem Stored.getOrCreateTopic (h : b.Stored B) (name : GoString) : (b.getOrCreateTopic name).2.Stored B :=
  h.of_queues (b.getOrCreateTopic_storage name) fun n hn => .inl (by rwa [queue_getOrCreateTopic] at hn)

theorem queue_setTopic (ht : b.lock r = some t) (t' : Topic) (n : GoString) :
    (b.setTopic r t').queue n = if b.topics.lookup n = some r then t'.queued else b.queue n := by
  have htopics : (b.setTopic r t').topics = b.topics := rfl
  unfold queue
  rw [htopics]
  cases hl : b.topics.lookup n with
  | none => simp
  | some r' =>
    simp only [map_some, getD_some, queued_setTopic ht, some.injEq]

theorem Stored.shrink (h : b.Stored B) (ht : b.lock r = some t) (hsub : t'.queued ⊆ t.queued) :
    (b.setTopic r t').Stored B := by
  refine h.of_queues rfl fun n hn => .inl ?_
  rw [queue_setTopic ht] at hn
  split at hn
  next hl =>
    obtain ⟨m, hm⟩ := exists_mem_of_ne_nil _ hn
    have hq : b.queue n = t.queued := by simp [Broker.queue, hl, queued_of_lock ht]
    rw [hq]
    exact ne_nil_of_mem (hsub hm)
  · exact hn

theorem publish_stored {p : PublishArgs} (hg : b.Grouped p.topicName)
    (h : Returns now b (Op.publish p).entry ret b') (hb : b.Stored B) (hn : ∀ n ∈ b.tried p.topicName, Derives B n) :
    b'.Stored B := by
  refine publish_rule (I := Stored B) hg h hb
    (fun _ => hb.of_queues rfl fun _ => .inl) fun n hmem _ c c' hc hcase => ?_
  have hothers : ∀ k, k ≠ n → (c'.topic? k).map shape = (c.topic? k).map shape := by
    rcases hcase with href | ⟨t, m, had⟩
    · exact href.others
    · exact had.others
  have hqueue : ∀ k, c'.queue k ≠ [] → c.queue k ≠ [] ∨ Derives B k := by
    intro k hk
    by_cases hkn : k = n
    · exact .inr (hkn ▸ hn n hmem)
    · exact .inl (by rwa [queue_of_shape (hothers k hkn)] at hk)
  rcases hcase with href | ⟨t, m, had⟩
  · rcases href.storage with hs | ⟨m, -, -, hs⟩
    · exact hc.of_queues hs hqueue
    · exact (hc.log (hn n hmem) (.put m)).of_queues hs hqueue
  · exact (hc.logs (hn n hmem) _).of_queues had.storage fun k hk => by
      rw [queue_logs]
      exact hqueue k hk

end Broker

section Calls

variable {B : GoString → List GoString} {now : Time} {b b' : Broker} {ret : Ret}

theorem requeue_stored {m} (h : Returns now b (Op.requeue m).entry ret b') (hb : b.Stored B)
    (hn : Derives B (requeued m).topic) : b'.Stored B ∧ b'.bindings = b.bindings := by
  rcases requeue_returns h with ⟨-, rfl⟩ | ⟨t, b₀, ch, hget, hto⟩
  · exact ⟨hb, rfl⟩
  · have hb₀ : b₀.Stored B := by
      have := hb.getOrCreateTopic (requeued m).topic
      rwa [hget] at this
    have hbind₀ : b₀.bindings = b.bindings := by
      have := (b.quiet_getOrCreateTopic (requeued m).topic []).bindings
      rwa [hget] at this
    obtain ⟨hs, ht, hbind, hqueue⟩ := requeueTo_spec hto
    have hsame : ∀ r, r ≠ t → b'.queued r = b₀.queued r := by
      cases ch with
      | none => exact hqueue.2.1
      | some c => exact fun r _ => hqueue.1 r
    refine ⟨(hb₀.log hn _).of_queues hs fun n hq => ?_, hbind.trans hbind₀⟩
    by_cases hnt : n = (requeued m).topic
    · exact .inr (hnt ▸ hn)
    · refine .inl ?_
      rw [queue, ht] at hq
      -- The topic of another name is another object.
      cases hl : b₀.topics.lookup n with
      | none =>
        rw [show (b₀.log _ _).topics = b₀.topics from rfl, hl] at hq
        exact absurd rfl hq
      | some r =>
        rw [show (b₀.log _ _).topics = b₀.topics from rfl, hl, map_some, getD_some,
          hsame r (lookup_ne_of_ne hl (getOrCreateTopic_lookup hget) hnt)] at hq
        have hqueue₀ : (b₀.log (requeued m).topic (.put (requeued m))).queue n = b₀.queued r := by
          simp only [queue, show (b₀.log _ _).topics = b₀.topics from rfl, hl,
            map_some, getD_some]
          rfl
        rwa [hqueue₀]

/-! ## A consumer -/

/-- A topic object that bears its name in `b.Topics`. -/
def Broker.Known (b : Broker) (r : TopicRef) : Prop := ∃ n, b.topics.lookup n = some r

/-- What a `Consume` has in its hands: topics that it has looked up, and IDs
of a topic that had messages. -/
def ConsumePc.Holds (B : GoString → List GoString) (b : Broker) : ConsumePc → Prop
  | .getTopic => True
  | .getMatching t => b.Known t
  | .scan t rest => b.Known t ∧ ∀ r ∈ rest, b.Known r
  | .scanAck t rest _ name ids => (b.Known t ∧ ∀ r ∈ rest, b.Known r) ∧ (ids ≠ [] → Derives B name)
  | .target t => b.Known t
  | .targetAck _ name ids => ids ≠ [] → Derives B name

/-- Messages are taken out of a topic that was looked up; the IDs are those of
expired ones. -/
theorem Broker.Stored.extract {t t₁ t' : Topic} (hb : b.Stored B) (hr : b.Known r) (ht : b.lock r = some t)
    (hx : t.extractMessages limit now = (results, ids, t₁))
    (hq : t'.queued = t₁.queued) : (b.setTopic r t').Stored B ∧ (ids ≠ [] → Derives B t.name) := by
  obtain ⟨-, gone, hids, -, -, hperm⟩ := extractMessages_spec hx
  refine ⟨hb.shrink ht ?_, fun hne => ?_⟩
  · rw [hq]
    exact fun m hm => hperm.mem_iff.mpr (mem_append_right _ hm)
  · obtain ⟨n, hn⟩ := hr
    obtain ⟨t₂, ht₂, hname⟩ := b.topics_ok hn
    rw [(lock_eq_some.mp ht).1] at ht₂
    cases ht₂
    rw [hname]
    refine hb.queue n ?_
    obtain ⟨m, hm⟩ := exists_mem_of_ne_nil gone (by rintro rfl; exact hne hids)
    have hq : b.queue n = t.queued := by simp [Broker.queue, hn, queued_of_lock ht]
    rw [hq]
    exact ne_nil_of_mem (hperm.mem_iff.mpr (mem_append_left _ (mem_append_right _ hm)))

theorem Broker.known_matchingTopics (b : Broker) (name : GoString) : ∀ r ∈ (b.matchingTopics name).1, b.Known r := by
  intro r hr
  unfold matchingTopics at hr
  split at hr
  · split at hr
    · cases hr
    · obtain ⟨n, -, hn⟩ := mem_filterMap.mp hr
      split at hn
      · exact ⟨n, hn⟩
      · cases hn
  · cases hr

theorem ConsumePc.step_stored {q} {pc : ConsumePc} {o} (hb : b.Stored B) (hpc : pc.Holds B b)
    (h : pc.step now b q = some o) : o.broker.Stored B ∧
      ((∃ pc', o.next = .goto (.consume q pc') ∧ pc'.Holds B o.broker) ∨ ∃ r, o.next = .ret r) := by
  have hget := hb.getOrCreateTopic q.topicName
  cases ConsumePc.steps h with
  | badName | found | done => exact ⟨hb, .inr ⟨_, rfl⟩⟩
  | full hc =>
    rw [hc] at hget
    exact ⟨hget, .inr ⟨_, rfl⟩⟩
  | getTopic hc =>
    rw [hc] at hget
    exact ⟨hget, .inl ⟨_, rfl, q.topicName, getOrCreateTopic_lookup hc⟩⟩
  | @getMatching t =>
    have hmatch := b.known_matchingTopics q.topicName
    have hsame : (b.matchingTopics q.topicName).2.topics = b.topics ∧
      (b.matchingTopics q.topicName).2.storage = b.storage ∧
        (b.matchingTopics q.topicName).2.queue = b.queue := by
      unfold matchingTopics
      split
      · split <;> exact ⟨rfl, rfl, rfl⟩
      · exact ⟨rfl, rfl, rfl⟩
    have hholds : (ConsumePc.scan t (b.matchingTopics q.topicName).1).Holds B
      (b.matchingTopics q.topicName).2 := by
      simp only [Holds, Known, hsame.1]
      exact ⟨hpc, hmatch⟩
    exact ⟨hb.of_queues hsame.2.1 fun n hn => .inl (by rwa [← hsame.2.2]), .inl ⟨_, rfl, hholds⟩⟩
  | scanned => exact ⟨hb, .inl ⟨_, rfl, hpc.1⟩⟩
  | scan hc =>
    obtain ⟨t, t₁, ht, hx, rfl, rfl⟩ := extractMatching_eq_some hc
    obtain ⟨hstored, hids⟩ := hb.extract (hpc.2 _ mem_cons_self) ht hx rfl
    exact ⟨hstored, .inl ⟨_, rfl, ⟨hpc.1, fun r' hr' => hpc.2 r' (mem_cons_of_mem _ hr')⟩, hids⟩⟩
  | scanAck =>
    have hname := hpc.2 (by simp)
    exact ⟨hb.log hname _, .inl ⟨_, rfl, hpc.1, fun _ => hname⟩⟩
  | scanNext => exact ⟨hb, .inl ⟨_, rfl, hpc.1⟩⟩
  | @target _ results _ _ _ hc =>
    obtain ⟨t, t₁, ht, hx, rfl, rfl⟩ := extractTarget_eq_some hc
    have hqueued : queued (if results.isEmpty then
        { t₁ with waitingConsumers := t₁.waitingConsumers ++ [q.notifyChan] } else t₁) = t₁.queued := by
      split <;> rfl
    obtain ⟨hstored, hids⟩ := hb.extract hpc ht hx hqueued
    exact ⟨hstored, .inl ⟨_, rfl, hids⟩⟩
  | targetAck =>
    have hname := hpc (by simp)
    exact ⟨hb.log hname _, .inl ⟨_, rfl, fun _ => hname⟩⟩

theorem consume_stored {q} (h : Returns now b (Op.consume q).entry ret b') (hb : b.Stored B) : b'.Stored B := by
  refine h.of_steps (I := fun c pc => c.Stored B ∧ ∃ pc', pc = .consume q pc' ∧ pc'.Holds B c)
    ⟨hb, _, rfl, trivial⟩ ?_
  rintro c _ o ⟨hc, pc', rfl, hpc⟩ hs
  obtain ⟨hstored, ⟨next, hnext, hnext'⟩ | hret⟩ := ConsumePc.step_stored hc hpc hs
  · exact .inl ⟨_, hnext, hstored, next, rfl, hnext'⟩
  · exact .inr ⟨hret, hstored⟩

end Calls

/-! ## Runs -/

/-- The calls a broker serves until it is restarted. -/
inductive BindOp
  | createGroup (topicName groupName : GoString)
  | publish (p : PublishArgs)
  | consume (q : ConsumeArgs)
  | requeue (m : Message)

inductive BindOp.Steps : BindOp → Broker → Broker → Prop
  | createGroup {T g b} : Steps (.createGroup T g) b (b.createGroup T g).2
  | publish {now p r b b'} : Returns now b (Op.publish p).entry r b' → Steps (.publish p) b b'
  | consume {now q r b b'} : Returns now b (Op.consume q).entry r b' → Steps (.consume q) b b'
  | requeue {now m r b b'} : Returns now b (Op.requeue m).entry r b' → Steps (.requeue m) b b'

/-- What a call must meet so that a restart can derive the bindings: a group
has a name that is stored as it is and splits where it was joined, and
messages go to names that a restart binds as they are bound. -/
def BindOp.Recoverable (b : Broker) : BindOp → Prop
  | .createGroup T g => validTopicRegex g = true →
      Accepted (virtualName T g) ∧ FileNameSafe (virtualName T g) ∧ ¬ ascii "::" <:+: T ∧ ¬ ascii ":" <:+ T
  | .publish p => nameError p.topicName = none → Derives b.bindings p.topicName
  | .consume _ => True
  | .requeue m => Derives b.bindings (requeued m).topic

section Runs

variable {b b' b₀ : Broker} {op : BindOp} {s : LogStore}

theorem BindOp.Steps.traced (h : op.Steps b b') (hok : op.Recoverable b) (hb : b.Traced) : b'.Traced := by
  have hkeep : ∀ {c : Broker}, c.bindings = b.bindings → c.Stored b.bindings → c.Traced := by
    intro c hbind hstored
    refine ⟨fun T => ?_, ?_, ?_⟩
    · rw [Grouped, hbind]
      exact hb.grouped T
    · rw [hbind]
      exact hb.bound
    · rw [hbind]
      exact hstored
  cases h with
  | @createGroup T g =>
    have hgrouped := (GroupOp.Steps.createGroup (T := T) (g := g)).grouped hb.grouped
    cases hv : validTopicRegex g with
    | false =>
      rw [createGroup_of_not_valid hv]
      exact hb
    | true =>
      obtain ⟨hadds, -, -⟩ := createGroup_of_valid (b := b) (T := T) hv
      obtain ⟨hacc, hfile, hT, hend⟩ := hok hv
      have hbind : (b.createGroup T g).2.bindings = (b.bind T (virtualName T g)).bindings := hadds.bindings
      have hsub : ∀ T', ∀ d ∈ b.bindings T', d ∈ (b.bind T (virtualName T g)).bindings T' :=
        fun T' d hd => mem_bind.mpr (.inr hd)
      refine ⟨hgrouped, fun T' d hd => ?_, ?_⟩
      · rw [hbind] at hd
        rcases mem_bind.mp hd with ⟨rfl, rfl⟩ | hd
        · exact ⟨hacc, hfile, before_virtualName hT hend⟩
        · exact hb.bound T' d hd
      · rw [hbind]
        have hstart : (b.bind T (virtualName T g)).Stored (b.bind T (virtualName T g)).bindings :=
          (hb.stored.mono hsub).of_queues rfl fun _ => .inl
        have hget := hstart.getOrCreateTopic (virtualName T g)
        have hsame : (b.createGroup T g).2 =
          ((b.bind T (virtualName T g)).getOrCreateTopic (virtualName T g)).2 := by
          simp only [Broker.createGroup, hv, Bool.not_true, Bool.false_eq_true, if_false]
          rcases (b.bind T (virtualName T g)).getOrCreateTopic (virtualName T g) with ⟨_ | r, c⟩ <;> rfl
        rw [hsame]
        exact hget
  | @publish _ p _ _ _ h =>
    refine hkeep (publish_adds (hb.grouped _) h).bindings
      (publish_stored (hb.grouped _) h hb.stored fun n hn => ?_)
    have hname : nameError p.topicName = none := by
      unfold Broker.tried at hn
      split at hn
      · cases hn
      next hnot => simpa using hnot
    rcases tried_subset hn with rfl | hd
    · exact hok hname
    · exact hb.derives hd
  | consume h => exact hkeep (consume_evolves h).bindings (consume_stored h hb.stored)
  | requeue h =>
    obtain ⟨hstored, hbind⟩ := requeue_stored h hb.stored hok
    exact hkeep hbind hstored

theorem Broker.Traced.decodes (hb : b.Traced) (hs : b.storage = some s) : s.Decodes := by
  intro f hf
  obtain ⟨n, he, hsafe, hn⟩ := hb.stored.files s hs f (AList.mem_keys.mpr hf)
  obtain ⟨hregex, hfile, -⟩ := hn hsafe
  exact ⟨n, ⟨hregex, hsafe⟩, (decodeStem_topicToFilename_iff hregex).mpr hfile, he⟩

/-- **The bindings after a restart**: when all calls have met their condition,
the bindings are what they were exactly if every bound group has a log. -/
theorem bindings_survive_iff (hrun : Lts.RelRun BindOp.Steps (fun b op => op.Recoverable b) b₀ b) (hb₀ : b₀.Traced)
    (hs : b.storage = some s) (limits : Limits) (policy : Policy) (hooked : Bool) (env : Env) (chans : Chan → Channel) :
    (∀ T n, n ∈ (restart limits policy hooked s env chans).bindings T ↔ n ∈ b.bindings T) ↔
      ∀ T, ∀ d ∈ b.bindings T, logFilename d ∈ s.files := by
  have hb : b.Traced := hrun.invariant (fun _ _ _ hI hok hstep => hstep.traced hok hI) hb₀
  have hdecodes := hb.decodes hs
  have hrestart : ∀ T n, n ∈ (restart limits policy hooked s env chans).bindings T ↔
      n ∈ topicsToRecover s.files.keys ∧ contains n (ascii "::") = true ∧ before (ascii "::") n = T := by
    intro T n
    rw [restart, mem_loadExistingTopics_bindings]
    simp [new]
  constructor
  · intro hsame T d hd
    obtain ⟨hacc, hfile, -⟩ := hb.bound T d hd
    have hdec := (decodeStem_topicToFilename_iff hacc.1).mpr hfile
    exact (hdecodes.mem_topicsToRecover hdec).mp ((hrestart T d).mp ((hsame T d).mpr hd)).1
  · intro hlogs T n
    rw [hrestart]
    constructor
    · rintro ⟨hn, hcolons, rfl⟩
      -- The log it was read off is that of a name that is bound so.
      obtain ⟨ts, hkeys, hts, hall⟩ := hdecodes.topicsToRecover
      rw [hts] at hn
      obtain ⟨hacc, hdec⟩ := hall n hn
      have hfile : logFilename n ∈ s.files := by
        rw [AList.mem_keys, hkeys]
        exact List.mem_map_of_mem hn
      obtain ⟨u, he, hsafe, hu⟩ := hb.stored.files s hs _ hfile
      obtain ⟨hregex, hufile, hbound⟩ := hu hsafe
      have hue : topicToFilename n = topicToFilename u := append_cancel_right he
      obtain rfl : n = u := by
        rw [← hdec, hue]
        exact (decodeStem_topicToFilename_iff hregex).mpr hufile
      exact hbound hcolons
    · intro hd
      obtain ⟨hacc, hfile, hbefore⟩ := hb.bound T n hd
      have hdec := (decodeStem_topicToFilename_iff hacc.1).mpr hfile
      exact ⟨(hdecodes.mem_topicsToRecover hdec).mpr (hlogs T n hd), (hb.grouped T).2 n hd, hbefore⟩

end Runs

/-! ## A group without a log, and a log without a group -/

/-- An empty broker with a storage, and the group `g` of the topic `t`. -/
def sampleGroup : Broker := (sample.createGroup (ascii "t") (ascii "g")).2

theorem sample_traced : sample.Traced where
  grouped T := ⟨nodup_nil, fun d hd => by cases hd⟩
  bound T d hd := by cases hd
  stored := ⟨fun s hs f hf => by cases hs; simp [LogStore.sample] at hf, fun n hn => absurd rfl hn⟩

theorem sampleGroup_run : Lts.RelRun BindOp.Steps (fun b op => op.Recoverable b) sample sampleGroup := by
  have hok : BindOp.Recoverable .sample (.createGroup (ascii "t") (ascii "g")) := fun _ => by decide
  exact .snoc .refl hok .createGroup

/-- The message of a consumer of the group, requeued twice before. -/
def groupMessage : Message := { sampleMessage with topic := ascii "t::g", retryCount := 2 }

/-- A new group is not bound after a restart; and a message of it that failed
three times makes its dead letter queue a group of the topic. -/
theorem bindings_lost : ∃ s s' r b', sampleGroup.storage = some s ∧ ascii "t::g" ∈ sampleGroup.bindings (ascii "t") ∧
    ascii "t::g" ∉ (restart ⟨10, 10, by decide, by decide⟩ .reject false s .sample fun _ => ⟨1, []⟩).bindings
      (ascii "t") ∧ Returns 0 sampleGroup (Op.requeue groupMessage).entry r b' ∧ b'.storage = some s' ∧
    ascii "t::g.dlq" ∉ b'.bindings (ascii "t") ∧
    ascii "t::g.dlq" ∈ (restart ⟨10, 10, by decide, by decide⟩ .reject false s' .sample
      fun _ => ⟨1, []⟩).bindings (ascii "t") := by
  let b' := sampleGroup.after 0 (.requeue groupMessage)
  exact ⟨sampleGroup.storage.get (by decide +kernel), b'.storage.get (by decide +kernel), _, b',
    (some_get _).symm, by decide +kernel, by decide +kernel, returns_get _ _ _, (some_get _).symm, by decide +kernel,
    by decide +kernel⟩

/-- A publish gives the group its log, and the binding comes back. -/
theorem bindings_survive_sample :
    ∃ s r b', Returns 0 sampleGroup (Op.publish samplePublish).entry r b' ∧ b'.storage = some s ∧
    ∀ T n, n ∈ (restart ⟨10, 10, by decide, by decide⟩ .reject false s .sample fun _ => ⟨1, []⟩).bindings T ↔
      n ∈ b'.bindings T := by
  have h := returns_get 0 sampleGroup (.publish samplePublish)
  have hs := (some_get (show (sampleGroup.after 0 (.publish samplePublish)).storage.isSome by decide +kernel)).symm
  have hok : BindOp.Recoverable sampleGroup (.publish samplePublish) := fun _ _ => by decide +kernel
  have hrun := sampleGroup_run.snoc hok (.publish h)
  have hgrouped := (GroupOp.Steps.createGroup (T := ascii "t") (g := ascii "g")).grouped sample_traced.grouped
  have hbind := (publish_adds (hgrouped _) h).bindings
  refine ⟨_, _, _, h, hs, (bindings_survive_iff hrun sample_traced hs _ _ _ _ _).mpr fun T d hd => ?_⟩
  rw [hbind] at hd
  rcases mem_bind.mp (show d ∈ (sample.bind (ascii "t") (ascii "t::g")).bindings T from hd) with ⟨-, rfl⟩ | hd
  · decide +kernel
  · cases hd

end TinyMQ
