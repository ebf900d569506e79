/-
What a step of the machine can do.

`Evolves` and `Quiet` say what a critical section leaves alone. `Role`
forgets of a program counter all but the messages and channels a call has
in its hands, and `Effect` lists the steps by what they do to the queues,
the waiting consumers, the channels and the role of the call. Every
invariant of runs is proved from `Pc.step_effect`, not from the code of
the steps.
-/
import TinyMQ.Machine

namespace TinyMQ

open List Option Broker Topic AList LogStore

variable {s s' : LogStore} {puts : List Message} {b b' : Broker} {pc : Pc} {now : Time} {o : Outcome}

/-! ## What sections leave alone -/

/-- Logs only grow, and the puts they gain are those of `puts`. -/
structure LogStore.Grows (s s' : LogStore) (puts : List Message) : Prop where
  outcome : s'.outcome = s.outcome
  exist : ∀ f, f ∈ s.files → f ∈ s'.files
  file : ∀ f, ∃ es, s'.file f = s.file f ++ es ∧ ∀ m, .put m ∈ es → m ∈ puts

theorem LogStore.Grows.refl (s : LogStore) (puts : List Message) : s.Grows s puts :=
  ⟨rfl, fun _ h => h, fun _ => ⟨[], by simp⟩⟩

theorem LogStore.Grows.trans (h : s.Grows s' puts) (h' : s'.Grows s'' puts) : s.Grows s'' puts := by
  refine ⟨h'.outcome.trans h.outcome, fun f hf => h'.exist f (h.exist f hf), fun f => ?_⟩
  obtain ⟨es, he, hp⟩ := h.file f
  obtain ⟨es', he', hp'⟩ := h'.file f
  refine ⟨es ++ es', by rw [he', he, append_assoc], fun m hm => ?_⟩
  rcases mem_append.mp hm with hm | hm
  · exact hp m hm
  · exact hp' m hm

theorem LogStore.grows_append (he : ∀ m, e = .put m → m ∈ puts) : s.Grows (s.append topic e) puts where
  outcome := by
    unfold append
    split
    · rfl
    · split <;> rfl
  exist f hf := by
    unfold append
    split
    · exact hf
    · split
      · exact hf
      · exact (mem_insert _).mpr (.inr hf)
      · exact (mem_insert _).mpr (.inr hf)
  file f := by
    rcases s.file_append_or topic e f with h | h
    · exact ⟨[], by simpa using h, by simp⟩
    · exact ⟨[e], h, fun m hm => he m (mem_singleton.mp hm).symm⟩

theorem LogStore.Grows.mono (h : s.Grows s' puts) (hp : ∀ m ∈ puts, m ∈ puts') : s.Grows s' puts' := by
  refine ⟨h.outcome, h.exist, fun f => ?_⟩
  obtain ⟨es, he, hes⟩ := h.file f
  exact ⟨es, he, fun m hm => hp m (hes m hm)⟩

namespace Broker

variable {id : GoString}

/-- What every step keeps: the configuration, the bindings, the topics that exist with
their policies and retentions, the logs but for new records. -/
structure Evolves (b b' : Broker) (puts : List Message) : Prop where
  env : b'.env = b.env
  limits : b'.limits = b.limits
  defaultPolicy : b'.defaultPolicy = b.defaultPolicy
  hooked : b'.hooked = b.hooked
  bindings : b'.bindings = b.bindings
  topics : ∀ {n r}, b.topics.lookup n = some r → b'.topics.lookup n = some r
  static : ∀ t' ∈ b'.heap, t'.policy = b.defaultPolicy ∧ t'.retention = 0 ∨
    ∃ t ∈ b.heap, t'.policy = t.policy ∧ t'.retention = t.retention
  noStorage : b.storage = none → b'.storage = none
  log : ∀ s, b.storage = some s → ∃ s', b'.storage = some s' ∧ s.Grows s' puts

/-- And a step that touches no queue, waiter, channel or goroutine either. -/
structure Quiet (b b' : Broker) (puts : List Message) : Prop extends Evolves b b' puts where
  queued : ∀ r, b'.queued r = b.queued r
  waiting : ∀ r, b'.waiting r = b.waiting r
  chans : b'.chans = b.chans
  goroutines : b'.goroutines = b.goroutines
  uuids : b'.uuids = b.uuids

variable {b b' : Broker} {r : TopicRef} {t t' : Topic}

theorem Evolves.refl (b : Broker) (puts : List Message) : Evolves b b puts where
  env := rfl
  limits := rfl
  defaultPolicy := rfl
  hooked := rfl
  bindings := rfl
  topics h := h
  static t' ht' := .inr ⟨t', ht', rfl, rfl⟩
  noStorage h := h
  log s hs := ⟨s, hs, .refl s puts⟩

theorem Evolves.trans (h : Evolves b b' puts) (h' : Evolves b' b'' puts) : Evolves b b'' puts where
  env := h'.env.trans h.env
  limits := h'.limits.trans h.limits
  defaultPolicy := h'.defaultPolicy.trans h.defaultPolicy
  hooked := h'.hooked.trans h.hooked
  bindings := h'.bindings.trans h.bindings
  topics hn := h'.topics (h.topics hn)
  static t'' ht'' := by
    rcases h'.static t'' ht'' with ⟨hp, hr⟩ | ⟨t', ht', hp, hr⟩
    · exact .inl ⟨by rw [hp, h.defaultPolicy], hr⟩
    · rw [hp, hr]
      exact h.static t' ht'
  noStorage hs := h'.noStorage (h.noStorage hs)
  log s hs := by
    obtain ⟨s', hs', hg⟩ := h.log s hs
    obtain ⟨s'', hs'', hg'⟩ := h'.log s' hs'
    exact ⟨s'', hs'', hg.trans hg'⟩

theorem Evolves.mono (h : Evolves b b' puts) (hp : ∀ m ∈ puts, m ∈ puts') : Evolves b b' puts' where
  __ := h
  log s hs := by
    obtain ⟨s', hs', hg⟩ := h.log s hs
    exact ⟨s', hs', hg.mono hp⟩

theorem Quiet.refl (b : Broker) (puts : List Message) : Quiet b b puts where
  toEvolves := .refl b puts
  queued _ := rfl
  waiting _ := rfl
  chans := rfl
  goroutines := rfl
  uuids := rfl

theorem Quiet.trans (h : Quiet b b' puts) (h' : Quiet b' b'' puts) : Quiet b b'' puts where
  toEvolves := h.toEvolves.trans h'.toEvolves
  queued r := (h'.queued r).trans (h.queued r)
  waiting r := (h'.waiting r).trans (h.waiting r)
  chans := h'.chans.trans h.chans
  goroutines := h'.goroutines.trans h.goroutines
  uuids := h'.uuids.trans h.uuids

theorem lock_eq_some : b.lock r = some t ↔ b.heap[r]? = some t ∧ t.held = false := by
  simp only [lock, filter_eq_some_iff, Bool.not_eq_eq_eq_not, Bool.not_true]

theorem queued_of_lock (h : b.lock r = some t) : b.queued r = t.queued := by
  simp [queued, (lock_eq_some.mp h).1]

theorem waiting_of_lock (h : b.lock r = some t) : b.waiting r = t.waitingConsumers := by
  simp [waiting, (lock_eq_some.mp h).1]

theorem getElem?_setTopic (h : b.lock r = some t) (hname : t'.name = t.name) (r' : TopicRef) :
    (b.setTopic r t').heap[r']? = if r' = r then some t' else b.heap[r']? := by
  by_cases hr : r' = r
  · subst hr
    simp [setTopic, (lock_eq_some.mp h).1, ← hname]
  · simp [setTopic, hr, Ne.symm hr]

theorem heap_setTopic_self (h : b.lock r = some t) : (b.setTopic r t).heap = b.heap := by
  refine ext_getElem? fun j => ?_
  rw [getElem?_setTopic h rfl]
  split
  next hj => rw [hj, (lock_eq_some.mp h).1]
  · rfl

theorem queued_setTopic (h : b.lock r = some t) (t' : Topic) (r' : TopicRef) :
    (b.setTopic r t').queued r' = if r' = r then t'.queued else b.queued r' := by
  by_cases hr : r' = r
  · subst hr
    simp [queued, setTopic, (lock_eq_some.mp h).1, Topic.queued]
  · simp [queued, setTopic, hr, Ne.symm hr]

theorem waiting_setTopic (h : b.lock r = some t) (t' : Topic) (r' : TopicRef) :
    (b.setTopic r t').waiting r' = if r' = r then t'.waitingConsumers else b.waiting r' := by
  by_cases hr : r' = r
  · subst hr
    simp [waiting, setTopic, (lock_eq_some.mp h).1]
  · simp [waiting, setTopic, hr, Ne.symm hr]

theorem evolves_setTopic (h : b.lock r = some t) (hp : t'.policy = t.policy) (hr : t'.retention = t.retention) :
    Evolves b (b.setTopic r t') puts where
  __ := Evolves.refl b puts
  static t₁ ht₁ := by
    obtain ⟨i, hi⟩ := mem_iff_getElem?.mp ht₁
    simp only [setTopic, getElem?_modify, Option.map_eq_map, map_eq_some_iff] at hi
    obtain ⟨t₀, ht₀, rfl⟩ := hi
    by_cases hri : r = i
    · subst hri
      rw [(lock_eq_some.mp h).1, some.injEq] at ht₀
      subst ht₀
      exact .inr ⟨t, mem_of_getElem? (lock_eq_some.mp h).1, by simp [hp, hr]⟩
    · exact .inr ⟨t₀, mem_of_getElem? ht₀, by simp [hri]⟩

theorem quiet_setTopic (h : b.lock r = some t) (hp : t'.policy = t.policy) (hr : t'.retention = t.retention)
    (hq : t'.queued = t.queued) (hw : t'.waitingConsumers = t.waitingConsumers) : Quiet b (b.setTopic r t') puts where
  toEvolves := evolves_setTopic h hp hr
  queued r' := by
    rw [queued_setTopic h]
    split
    next hr => rw [hr, hq, queued_of_lock h]
    · rfl
  waiting r' := by
    rw [waiting_setTopic h]
    split
    next hr => rw [hr, hw, waiting_of_lock h]
    · rfl
  chans := rfl
  goroutines := rfl
  uuids := rfl

theorem quiet_log (he : ∀ m, e = .put m → m ∈ puts) : Quiet b (b.log topic e) puts where
  __ := Quiet.refl b puts
  noStorage h := by simp [log, h]
  log s hs := ⟨s.append topic e, by simp [log, hs], grows_append he⟩

theorem quiet_ack : Quiet b (b.log topic (.ack id)) puts :=
  quiet_log (by intro m h; cases h)

theorem quiet_counters (b : Broker) (puts : List Message) (answers ranges : Nat) (spyChans : Spy → Channel) :
    Quiet b { b with answers, ranges, spyChans } puts where
  __ := Quiet.refl b puts

theorem quiet_getOrCreateTopic (b : Broker) (name : GoString) (puts : List Message) :
    Quiet b (b.getOrCreateTopic name).2 puts := by
  unfold getOrCreateTopic
  split
  · exact .refl b puts
  next hnone =>
    split
    · exact .refl b puts
    · have hget : ∀ {α : Type} (f : Topic → List α) (r : TopicRef), f (.create name b.defaultPolicy) = [] →
          (((b.heap ++ [Topic.create name b.defaultPolicy])[r]?.map f).getD []) =
            ((b.heap[r]?.map f).getD []) := by
        intro α f r hf
        rcases Nat.lt_trichotomy r b.heap.length with hr | hr | hr
        · rw [getElem?_append_left hr]
        · subst hr
          simp [hf]
        · have h₁ : (b.heap ++ [Topic.create name b.defaultPolicy])[r]? = none := by
            rw [List.getElem?_eq_none_iff]
            simp only [length_append, length_singleton]
            omega
          have h₂ : b.heap[r]? = none := List.getElem?_eq_none_iff.mpr (by omega)
          rw [h₁, h₂]
      exact { Quiet.refl b puts with
        topics := by
          intro n r hn
          have hne : n ≠ name := by
            rintro rfl
            cases hnone.symm.trans hn
          exact (lookup_insert_ne hne).trans hn
        static := by
          intro t' ht'
          rcases mem_append.mp ht' with ht' | ht'
          · exact .inr ⟨t', ht', rfl, rfl⟩
          · rw [mem_singleton.mp ht']
            exact .inl ⟨rfl, rfl⟩
        queued := fun r => hget Topic.queued r rfl
        waiting := fun r => hget Topic.waitingConsumers r rfl }

theorem quiet_sendSpies (b : Broker) (m : Message) (spies : List Spy) (puts : List Message) :
    Quiet b (b.sendSpies m spies) puts := by
  induction spies generalizing b with
  | nil => exact .refl b puts
  | cons spy spies ih =>
    rw [sendSpies]
    split
    next c hc => exact (quiet_counters b puts b.answers b.ranges _).trans (ih _)
    · exact ih b

/-- A message is stored at `r`, in place of those in `gone`. -/
structure Stores (b b' : Broker) (r : TopicRef) (m : Message) : Prop extends Evolves b b' [m] where
  queue : ∃ gone, (m :: b.queued r).Perm (gone ++ b'.queued r) ∧ ((∀ t ∈ b.heap, t.policy = .reject) → gone = [])
  queued : ∀ r', r' ≠ r → b'.queued r' = b.queued r'
  waiting : ∀ r', b'.waiting r' = b.waiting r'
  chans : b'.chans = b.chans
  goroutines : b'.goroutines = b.goroutines
  uuids : b'.uuids = b.uuids

/-- A message of that ID leaves the queues at `r`, if there is one. -/
structure Removes (b b' : Broker) (r : TopicRef) (id : GoString) : Prop extends Evolves b b' [] where
  queue : (b'.queued r = b.queued r ∧ ∀ m ∈ b.queued r, m.id ≠ id) ∨
    ∃ m, m.id = id ∧ (b.queued r).Perm (m :: b'.queued r)
  queued : ∀ r', r' ≠ r → b'.queued r' = b.queued r'
  waiting : ∀ r', b'.waiting r' = b.waiting r'
  chans : b'.chans = b.chans
  goroutines : b'.goroutines = b.goroutines
  uuids : b'.uuids = b.uuids

/-- A consumer takes `results` at `r`, and the expired messages go. When it
finds nothing it may wait there. -/
structure Extracts (now : Time) (limit : Nat) (b b' : Broker) (r : TopicRef) (results : List Message)
    (waiter : Option Chan) : Prop extends Evolves b b' [] where
  length_le : results.length ≤ limit
  left : results.length < limit → ∀ m ∈ b'.queued r, m.delayed now = true
  queue : ∃ gone, (b.queued r).Perm (results ++ gone ++ b'.queued r) ∧ ∀ m ∈ gone, m.expired now = true
  ready : ∀ m ∈ results, m.expired now = false ∧ m.delayed now = false
  queued : ∀ r', r' ≠ r → b'.queued r' = b.queued r'
  waits : b'.waiting r = b.waiting r ++ waiter.toList
  waiting : ∀ r', r' ≠ r → b'.waiting r' = b.waiting r'
  chans : b'.chans = b.chans
  goroutines : b'.goroutines = b.goroutines
  uuids : b'.uuids = b.uuids

/-- Consumers waiting at `r` are dropped, or taken by a push. -/
structure Unwaits (b b' : Broker) (r : TopicRef) : Prop extends Evolves b b' [] where
  queued : ∀ r', b'.queued r' = b.queued r'
  waiting : ∀ r', r' ≠ r → b'.waiting r' = b.waiting r'
  chans : b'.chans = b.chans
  goroutines : b'.goroutines = b.goroutines
  uuids : b'.uuids = b.uuids

theorem setTopic_unwaits (h : b.lock r = some t) (chs : List Chan) :
    Unwaits b (b.setTopic r { t with waitingConsumers := chs }) r where
  toEvolves := evolves_setTopic h rfl rfl
  queued r' := by
    rw [queued_setTopic h]
    split
    next hr => rw [hr, queued_of_lock h]; rfl
    · rfl
  waiting r' hr := by rw [waiting_setTopic h, if_neg hr]
  chans := rfl
  goroutines := rfl
  uuids := rfl

theorem setTopic_removes (h : b.lock r = some t) (hp : t'.policy = t.policy)
    (hr : t'.retention = t.retention) (hw : t'.waitingConsumers = t.waitingConsumers)
    (hq : (t'.queued = t.queued ∧ ∀ m ∈ t.queued, m.id ≠ id) ∨ ∃ m, m.id = id ∧ t.queued.Perm (m :: t'.queued)) :
    Removes b (b.setTopic r t') r id where
  toEvolves := evolves_setTopic h hp hr
  queue := by simpa [queued_setTopic h, queued_of_lock h] using hq
  queued r' hr := by rw [queued_setTopic h, if_neg hr]
  waiting r' := by
    rw [waiting_setTopic h]
    split
    next hr => rw [hr, hw, waiting_of_lock h]
    · rfl
  chans := rfl
  goroutines := rfl
  uuids := rfl

end Broker

/-! ## Roles -/

inductive Role
  | idle
  /-- A `publishCore` that has not found its topic yet, then one that has,
  then one with its message. -/
  | publishing (p : PublishArgs)
  | located (p : PublishArgs) (t : TopicRef)
  | holding (p : PublishArgs) (t : TopicRef) (m : Message)
  /-- A `pushFunc`: before it takes a consumer, with one, after the send. -/
  | pushing (p : Push)
  | sending (p : Push) (ch : Chan)
  | removing (p : Push)
  /-- A broadcast: while it collects consumers, and its goroutine. -/
  | collecting (p : Push)
  | casting (m : Message)
  /-- A `Consume`: without a result, with one, waiting. -/
  | seeking (t : Option TopicRef) (q : ConsumeArgs)
  | taken (q : ConsumeArgs) (ms : List Message)
  | registered (q : ConsumeArgs)
  /-- An `Ack` and a `RemoveWaitingConsumer`, with the topic they have found. -/
  | acking (t : Option TopicRef) (topicName id : GoString)
  | leaving (t : Option TopicRef) (topicName : GoString) (ch : Chan)
  deriving DecidableEq, Repr

def PublishPc.role (p : PublishArgs) : PublishPc → Role
  | .enter => .publishing p
  | .fanOut _ => .publishing p
  | .getTopic => .publishing p
  | .getWildcards t => .located p t
  | .newMessage t _ => .located p t
  | .onPublish t _ m => .holding p t m
  | .store t _ m _ => .holding p t m

def PushPc.role (p : Push) : PushPc → Role
  | .sendWild ch _ => .sending p ch
  | .sendOwn ch => .sending p ch
  | .remove => .removing p
  | .takeWild _ _ => .collecting p
  | .takeOwn _ => .collecting p
  | _ => .pushing p

def ConsumePc.role (q : ConsumeArgs) : ConsumePc → Role
  | .getTopic => .seeking none q
  | .getMatching t => .seeking (some t) q
  | .scan t _ => .seeking (some t) q
  | .scanAck t _ results _ _ => if results.isEmpty then .seeking (some t) q else .taken q results
  | .target t => .seeking (some t) q
  | .targetAck results _ _ => if results.isEmpty then .registered q else .taken q results

def Pc.role : Pc → Role
  | .publish _ p pc => pc.role p
  | .push p pc => pc.role p
  | .broadcast _ m => .casting m
  | .consume q pc => pc.role q
  | .ack topicName id => .acking none topicName id
  | .ackAt t topicName id => .acking (some t) topicName id
  | .removeWaiting topicName ch => .leaving none topicName ch
  | .removeWaitingAt t topicName ch => .leaving (some t) topicName ch
  | _ => .idle

/-- The topic object whose messages a `Consume` looks at next. -/
def Pc.looksAt : Pc → Option TopicRef
  | .consume _ (.scan _ (r :: _)) => some r
  | .consume _ (.target r) => some r
  | _ => none

/-- The topic object where a `Consume` waits if it finds nothing next. -/
def Pc.waitsAt : Pc → Option TopicRef
  | .consume _ (.target r) => some r
  | _ => none

/-- The role a call goes on with, or what it returns. -/
def Next.view : Next → Role ⊕ Ret
  | .goto pc => .inl pc.role
  | .call dest _ => .inl dest.role
  | .ret r => .inr r

/-- The call a role belongs to, as far as it does not change on the way. -/
inductive Job
  | none
  | publish
  | cast
  | consume (q : ConsumeArgs)
  | ack (topicName id : GoString)
  | leave (topicName : GoString) (ch : Chan)
  deriving DecidableEq, Repr

def Role.job : Role → Job
  | .idle => .none
  | .publishing _ => .publish
  | .located _ _ => .publish
  | .holding _ _ _ => .publish
  | .pushing _ => .publish
  | .sending _ _ => .publish
  | .removing _ => .publish
  | .collecting _ => .publish
  | .casting _ => .cast
  | .seeking _ q => .consume q
  | .taken q _ => .consume q
  | .registered q => .consume q
  | .acking _ topicName id => .ack topicName id
  | .leaving _ topicName ch => .leave topicName ch

def Job.Returns : Job → Ret → Prop
  | .publish, .published _ => True
  | .cast, .done => True
  | .consume _, .consumed _ => True
  | .ack _ _, .acked _ => True
  | .leave _ _, .done => True
  | _, _ => False

/-- A call goes on with its job, or returns what the job returns. -/
def Job.Continues (j : Job) : Role ⊕ Ret → Prop
  | .inl ρ => ρ.job = j
  | .inr r => j.Returns r

/-! ## Effects -/

/-- The message a `publishCore` has created and not stored. -/
def Role.held : Role → List Message
  | .holding _ _ m => [m]
  | _ => []

/-- How a call goes on after a step that touches nothing the others see. -/
inductive QuietMove (b b' : Broker) (pc : Pc) : Role ⊕ Ret → Prop
  | stay : QuietMove b b' pc (.inl pc.role)
  | fail {p e} : pc.role = .publishing p → QuietMove b b' pc (.inr (.published (.error e)))
  | call {p dest} : pc.role = .publishing p →
      QuietMove b b' pc (.inl (.publishing { p with topicName := dest }))
  | locate {p t} : pc.role = .publishing p → b'.topics.lookup p.topicName = some t →
      QuietMove b b' pc (.inl (.located p t))
  | refuse {p t m e} : pc.role = .holding p t m →
      QuietMove b b' pc (.inr (.published (.error e)))
  | collect {p} : pc.role = .pushing p → p.isBroadcast = true → QuietMove b b' pc (.inl (.collecting p))
  | finish {p} : pc.role = .pushing p → b.waiting p.t = [] → QuietMove b b' pc (.inr (.published (.ok p.msg)))
  | sendFailed {p ch v} : pc.role = .sending p ch → b.trySend ch p.msg = none →
      v = .inl (.pushing p) ∨ v = .inr (.published (.ok p.msg)) → QuietMove b b' pc v
  | castEnd {m} : pc.role = .casting m → QuietMove b b' pc (.inr .done)
  | seek {q t} : pc.role = .seeking none q → b'.topics.lookup q.topicName = some t →
      QuietMove b b' pc (.inl (.seeking (some t) q))
  | giveUp {q} : pc.role = .seeking none q → QuietMove b b' pc (.inr (.consumed none))
  | deliver {q ms} : pc.role = .taken q ms →
      QuietMove b b' pc (.inr (.consumed (some ms)))
  | wait {q} : pc.role = .registered q → QuietMove b b' pc (.inr (.consumed none))
  | ackMissing {topicName id} : pc.role = .acking none topicName id →
      QuietMove b b' pc (.inr (.acked false))
  | ackFound {t topicName id} : pc.role = .acking none topicName id →
      b.topics.lookup topicName = some t → QuietMove b b' pc (.inl (.acking (some t) topicName id))
  | leaveMissing {topicName ch} : pc.role = .leaving none topicName ch →
      b.topics.lookup topicName = none → QuietMove b b' pc (.inr .done)
  | leaveFound {t topicName ch} : pc.role = .leaving none topicName ch →
      b.topics.lookup topicName = some t → QuietMove b b' pc (.inl (.leaving (some t) topicName ch))

open Broker in
/-- **What a step of a call can do**, by the role of the call. -/
inductive Effect (now : Time) (b : Broker) (pc : Pc) : Broker → Role ⊕ Ret → List (Chan × Message) → Prop
  | quiet {b' v} : Quiet b b' pc.role.held → QuietMove b b' pc v → Effect now b pc b' v []
  | create {p t topic} : pc.role = .located p t → b.heap[t]? = some topic →
      Effect now b pc b.newUUID.2 (.inl (.holding p t (p.message b.newUUID.1 topic.retention now))) []
  | store {b' p} {push : Push} : pc.role = .holding p push.t push.msg →
      push.isBroadcast = p.isBroadcast → Stores b b' push.t push.msg → Effect now b pc b' (.inl (.pushing push)) []
  | defer {b' p} {push : Push} {due} : pc.role = .holding p push.t push.msg →
      push.isBroadcast = p.isBroadcast → Stores b b' push.t push.msg →
      Effect now b pc (b'.go (.timer due push)) (.inr (.published (.ok push.msg))) []
  | take {b' p r} : pc.role = .collecting p → Unwaits b b' r →
      Effect now b pc b' (.inl (.collecting p)) []
  | cast {b' p r chs} : pc.role = .collecting p → Unwaits b b' r →
      Effect now b pc (b'.go (.broadcast chs p.msg)) (.inr (.published (.ok p.msg))) []
  | pop {b' p r ch} : pc.role = .pushing p → Unwaits b b' r →
      b.waiting r = ch :: b'.waiting r → Effect now b pc b' (.inl (.sending p ch)) []
  | send {b' p ch} : pc.role = .sending p ch → b.trySend ch p.msg = some b' →
      Effect now b pc b' (.inl (.removing p)) [(ch, p.msg)]
  | remove {b' p} : pc.role = .removing p → Removes b b' p.t p.msg.id →
      Effect now b pc b' (.inr (.published (.ok p.msg))) []
  | castSend {b' m ch} : pc.role = .casting m → b.trySend ch m = some b' →
      Effect now b pc b' (.inl (.casting m)) [(ch, m)]
  | extract {b' t q r ms} :
      pc.role = .seeking t q → pc.looksAt = some r → Extracts now q.limit b b' r ms none →
      Effect now b pc b' (.inl (if ms.isEmpty then .seeking t q else .taken q ms)) (ms.map fun m => (q.notifyChan, m))
  | register {b' q r} : pc.role = .seeking (some r) q → pc.waitsAt = some r →
      Extracts now q.limit b b' r [] (some q.notifyChan) → Effect now b pc b' (.inl (.registered q)) []
  | ack {b' r topicName id ok} : pc.role = .acking (some r) topicName id →
      Removes b b' r id → Effect now b pc b' (.inr (.acked ok)) []
  | leave {b' r topicName ch} : pc.role = .leaving (some r) topicName ch →
      Unwaits b b' r → b'.waiting r = (b.waiting r).erase ch → Effect now b pc b' (.inr .done) []

/-- The methods whose runs are described by `Effect`: all but `Requeue`,
which brings messages of its own. -/
def Pc.isRequeue : Pc → Bool
  | .requeue _ => true
  | .requeuePut _ _ => true
  | .requeueAt _ _ => true
  | _ => false

theorem Role.job_eq_none {ρ : Role} : ρ.job = .none ↔ ρ = .idle := by
  cases ρ <;> simp [Role.job]

theorem QuietMove.job (h : QuietMove b b' pc v) : pc.role.job.Continues v := by
  cases h with
  | stay => rfl
  | sendFailed hρ ht hv => rcases hv with rfl | rfl <;> simp only [hρ] <;> trivial
  | fail hρ | call hρ | locate hρ ht | refuse hρ | collect hρ hb | finish hρ hw | castEnd hρ | seek hρ ht
  | giveUp hρ | deliver hρ | wait hρ | ackMissing hρ | ackFound hρ ht | leaveMissing hρ ht | leaveFound hρ ht =>
    rw [hρ]; trivial

theorem Effect.job (h : Effect now b pc b' v handed) : pc.role.job.Continues v := by
  cases h with
  | quiet hq hmove => exact hmove.job
  | @extract b' t q r ms hρ hat hx =>
    rw [hρ]
    cases ms <;> rfl
  | create hρ ht | store hρ hb hs | defer hρ hb hs | take hρ hu | cast hρ hu | pop hρ hu hw | send hρ ht
  | remove hρ hr | castSend hρ ht | register hρ hat hx | ack hρ hr | leave hρ hu hw => rw [hρ]; trivial

namespace Broker

variable {topicName id name : GoString} {priority : Priority} {isBroadcast : Bool} {m : Message} {t t' : Topic}
  {results : List Message} {limit : Nat} {now : Time} {ids : List GoString} {ch : Chan}

variable {b b' : Broker} {r : TopicRef}

/-- The put of a message is logged unless it is a broadcast. -/
def logPut (b : Broker) (topicName : GoString) (isBroadcast : Bool) (m : Message) : Broker :=
  if isBroadcast then b else b.log topicName (.put m)

theorem heap_logPut (b : Broker) (topicName : GoString) (isBroadcast : Bool) (m : Message) :
    (b.logPut topicName isBroadcast m).heap = b.heap := by
  unfold logPut
  split <;> rfl

/-- **The ways in which `publishCore` stores a message.** -/
inductive StoreCase (b : Broker) (r : TopicRef) (topicName : GoString) (priority : Priority)
    (isBroadcast : Bool) (m : Message)
    (t : Topic) : Option GoString → Broker → Prop
  | deleted {e} : t.deleted = true → StoreCase b r topicName priority isBroadcast m t (some e) b
  | refused {e} : t.deleted = false → b.limits.maxMessages ≤ t.queued.length → t.policy = .reject →
      StoreCase b r topicName priority isBroadcast m t (some e) (b.logPut topicName isBroadcast m)
  | evicted {oldest t₁} : t.deleted = false → b.limits.maxMessages ≤ t.queued.length →
      t.policy = .dropOldest → t.evictOldest = some (oldest, t₁) →
      StoreCase b r topicName priority isBroadcast m t none
        (((b.logPut topicName isBroadcast m).log topicName (.ack oldest.id)).setTopic r (t₁.append priority m))
  | kept : t.deleted = false → t.queued.length < b.limits.maxMessages →
      StoreCase b r topicName priority isBroadcast m t none
        ((b.logPut topicName isBroadcast m).setTopic r (t.append priority m))

theorem store_cases (h : b.store r topicName priority isBroadcast m = some (err, b')) :
    ∃ t, b.lock r = some t ∧ b.StoreCase r topicName priority isBroadcast m t err b' := by
  obtain ⟨t, ht, h⟩ := map_eq_some_iff.mp h
  have hlimits : (b.logPut topicName isBroadcast m).limits = b.limits := by
    unfold logPut
    split <;> rfl
  refine ⟨t, ht, ?_⟩
  dsimp only at h
  rw [← logPut, hlimits] at h
  split at h
  next hdel => cases h; exact .deleted hdel
  next hdel =>
    have hdel : t.deleted = false := by simpa using hdel
    split at h
    next hfull =>
      split at h
      next hpolicy =>
        split at h
        next oldest t₁ hev => cases h; exact .evicted hdel hfull hpolicy hev
        next hev =>
          -- A full topic has a message to give up.
          have hpos := b.limits.maxMessages_pos
          rw [queued_of_evictOldest hev, length_nil] at hfull
          omega
      next hpolicy => cases h; exact .refused hdel hfull hpolicy
    next hroom => cases h; exact .kept hdel (Nat.lt_of_not_le hroom)

theorem setTopic_stores (h : b.lock r = some t) (hb₁ : Quiet b b₁ [m])
    (hheap : b₁.heap = b.heap) (hp : t'.policy = t.policy) (hr : t'.retention = t.retention)
    (hw : t'.waitingConsumers = t.waitingConsumers)
    (hq : ∃ gone, (m :: t.queued).Perm (gone ++ t'.queued) ∧ (t.policy = .reject → gone = [])) :
    Stores b (b₁.setTopic r t') r m := by
  have h₁ : b₁.lock r = some t := by rw [lock, hheap]; exact h
  obtain ⟨gone, hgone, hreject⟩ := hq
  exact {
    toEvolves := hb₁.toEvolves.trans (evolves_setTopic h₁ hp hr)
    queue := ⟨gone, by rw [queued_setTopic h₁, if_pos rfl, queued_of_lock h]; exact hgone,
      fun hall => hreject (hall t (mem_of_getElem? (lock_eq_some.mp h).1))⟩
    queued := fun r' hr' => by rw [queued_setTopic h₁, if_neg hr', hb₁.queued]
    waiting := fun r' => by
      rw [waiting_setTopic h₁]
      split
      next hr' => rw [hr', hw, waiting_of_lock h]
      · exact hb₁.waiting r'
    chans := hb₁.chans
    goroutines := hb₁.goroutines
    uuids := hb₁.uuids }

theorem store_effect (h : b.store r topicName priority isBroadcast m = some (err, b')) :
    (∃ e, err = some e) ∧ Quiet b b' [m] ∨ err = none ∧ Stores b b' r m := by
  obtain ⟨t, ht, hst⟩ := store_cases h
  have hquiet : Quiet b (b.logPut topicName isBroadcast m) [m] := by
    unfold logPut
    split
    · exact .refl b _
    · exact quiet_log (by intro m' h; cases h; simp)
  have hheap := b.heap_logPut topicName isBroadcast m
  have happend : ∀ t : Topic, (t.append priority m).policy = t.policy ∧
    (t.append priority m).retention = t.retention := by
    intro t
    cases priority <;> exact ⟨rfl, rfl⟩
  cases hst with
  | deleted hdel => exact .inl ⟨⟨_, rfl⟩, .refl b _⟩
  | refused hdel hfull hpolicy => exact .inl ⟨⟨_, rfl⟩, hquiet⟩
  | @evicted oldest t' hdel hfull hpolicy hev =>
    obtain ⟨hperm, hwait⟩ := evictOldest_spec hev
    have hstatic := static_of_emptied (emptied_evictOldest hev)
    refine .inr ⟨rfl, setTopic_stores ht (hquiet.trans quiet_ack) hheap ((happend t').1.trans hstatic.1)
      ((happend t').2.trans hstatic.2) (by simp [hwait]) ⟨[oldest], ?_, by simp [hpolicy]⟩⟩
    have h₁ := hperm.cons m
    have h₂ := (queued_append t' priority m).symm.cons oldest
    exact h₁.trans ((Perm.swap oldest m t'.queued).trans h₂)
  | kept hdel hroom =>
    exact .inr ⟨rfl, setTopic_stores ht hquiet hheap (happend t).1 (happend t).2 (by simp)
      ⟨[], (queued_append t priority m).symm, by simp⟩⟩

theorem pushToSpies_quiet (h : b.pushToSpies r m = some b') : Quiet b b' puts := by
  obtain ⟨t, -, rfl⟩ := map_eq_some_iff.mp h
  exact quiet_sendSpies b m t.spies puts

theorem takeWaiting_unwaits (h : b.takeWaiting r = some (chs, b')) : Unwaits b b' r := by
  obtain ⟨t, ht, h⟩ := map_eq_some_iff.mp h
  cases h
  exact setTopic_unwaits ht []

theorem popWaiting_spec {ch} (h : b.popWaiting r = some (ch, b')) : match ch with
    | none => b' = b ∧ b.waiting r = []
    | some ch => Unwaits b b' r ∧ b.waiting r = ch :: b'.waiting r := by
  obtain ⟨t, ht, h⟩ := map_eq_some_iff.mp h
  split at h
  next hw =>
    cases h
    exact ⟨rfl, by rw [waiting_of_lock ht, hw]⟩
  next ch' chs hw =>
    cases h
    exact ⟨setTopic_unwaits ht chs, by rw [waiting_of_lock ht, hw, waiting_setTopic ht, if_pos rfl]⟩

theorem removeMessage_removes (h : b.removeMessage r id = some b') : Removes b b' r id := by
  obtain ⟨t, ht, rfl⟩ := map_eq_some_iff.mp h
  obtain ⟨hw, hq⟩ := t.removeMessageByID_spec id
  have hs := static_of_emptied (t.emptied_removeMessageByID id)
  exact setTopic_removes ht hs.1 hs.2 hw (hq.imp (fun h => ⟨by rw [h.1], h.2⟩) fun h => h)

theorem hold_quiet (h : b.hold r = some b') : Quiet b b' puts := by
  obtain ⟨t, ht, rfl⟩ := map_eq_some_iff.mp h
  exact quiet_setTopic ht rfl rfl rfl rfl

theorem setTopic_extracts (h : b.lock r = some t) (hx : t.extractMessages limit now = (results, ids, t₁))
    (hp : t'.policy = t.policy) (hr : t'.retention = t.retention) (hq : t'.queued = t₁.queued)
    (hw : t'.waitingConsumers = t.waitingConsumers ++ waiter.toList) :
    Extracts now limit b (b.setTopic r t') r results waiter := by
  obtain ⟨-, gone, -, hready, hgone, hperm⟩ := extractMessages_spec hx
  obtain ⟨hmax, hleft⟩ := extractMessages_fills hx
  exact {
    toEvolves := evolves_setTopic h hp hr
    length_le := hmax
    left := by rw [queued_setTopic h, if_pos rfl, hq]; exact hleft
    queue := ⟨gone, by rw [queued_of_lock h, queued_setTopic h, if_pos rfl, hq]; exact hperm, hgone⟩
    ready := hready
    queued := fun r' hr' => by rw [queued_setTopic h, if_neg hr']
    waits := by rw [waiting_setTopic h, if_pos rfl, waiting_of_lock h, hw]
    waiting := fun r' hr' => by rw [waiting_setTopic h, if_neg hr']
    chans := rfl
    goroutines := rfl
    uuids := rfl }

theorem extractMatching_extracts (h : b.extractMatching r limit now = some ((results, ids, name), b')) :
    Extracts now limit b b' r results none := by
  obtain ⟨t, ht, h⟩ := map_eq_some_iff.mp h
  rcases hx : t.extractMessages limit now with ⟨results', ids', t₁⟩
  simp only [hx, Prod.mk.injEq] at h
  obtain ⟨⟨rfl, -, -⟩, rfl⟩ := h
  have hs := static_of_emptied (emptied_extractMessages hx)
  exact setTopic_extracts ht hx hs.1 hs.2 rfl (by simp [(extractMessages_spec hx).1])

theorem extractTarget_extracts (h : b.extractTarget r limit now ch = some ((results, ids, name), b')) :
    Extracts now limit b b' r results (if results.isEmpty then some ch else none) := by
  obtain ⟨t, ht, h⟩ := map_eq_some_iff.mp h
  rcases hx : t.extractMessages limit now with ⟨results', ids', t₁⟩
  simp only [hx, Prod.mk.injEq] at h
  obtain ⟨⟨rfl, -, -⟩, rfl⟩ := h
  have hs := static_of_emptied (emptied_extractMessages hx)
  have hw := (extractMessages_spec hx).1
  by_cases he : results'.isEmpty = true
  · simp only [he, if_true]
    exact setTopic_extracts ht hx hs.1 hs.2 rfl (by simp [hw])
  · simp only [he, Bool.false_eq_true, if_false]
    exact setTopic_extracts ht hx hs.1 hs.2 rfl (by simp [hw])

theorem ackMessage_removes {ok} (h : b.ackMessage r topicName id = some (ok, b')) : Removes b b' r id := by
  obtain ⟨t, ht, h⟩ := map_eq_some_iff.mp h
  split at h
  next t' hrem =>
    cases h
    obtain ⟨hw, hq⟩ := remove?_eq_some hrem
    have hs := static_of_emptied (emptied_remove? hrem)
    have hr := setTopic_removes ht hs.1 hs.2 hw (.inr hq)
    exact { hr with toEvolves := hr.toEvolves.trans quiet_ack.toEvolves }
  next hrem =>
    cases h
    exact {
      toEvolves := .refl b _
      queue := .inl ⟨rfl, by rw [queued_of_lock ht]; exact remove?_eq_none.mp hrem⟩
      queued := fun _ _ => rfl
      waiting := fun _ => rfl
      chans := rfl
      goroutines := rfl
      uuids := rfl }

theorem removeWaiting_unwaits (h : b.removeWaiting r ch = some b') :
    Unwaits b b' r ∧ b'.waiting r = (b.waiting r).erase ch := by
  obtain ⟨t, ht, rfl⟩ := map_eq_some_iff.mp h
  exact ⟨setTopic_unwaits ht _, by rw [waiting_setTopic ht, if_pos rfl, waiting_of_lock ht]⟩

theorem matchingTopics_quiet : Quiet b (b.matchingTopics topicName).2 puts := by
  unfold matchingTopics
  split
  · split
    · exact .refl b _
    · exact quiet_counters b _ _ _ _
  · exact .refl b _

theorem getOrCreateTopic_lookup {t} (h : b.getOrCreateTopic name = (some t, b')) :
    b'.topics.lookup name = some t := by
  unfold getOrCreateTopic at h
  split at h
  next r hr => cases h; exact hr
  next hr =>
    split at h
    · cases h
    · cases h
      exact lookup_insert _

end Broker

theorem PublishPc.step_effect {left p} {pc : PublishPc} (h : pc.step now b left p = some o) :
    Effect now b (.publish left p pc) o.broker o.next.view o.handed := by
  have hhook : ∀ {err b' msg}, (if p.isReplication then (none, b) else b.callOnPublish) = (err, b') →
      Quiet b b' [msg] := by
    intro err b' msg he
    unfold callOnPublish at he
    split at he
    · cases he
      exact .refl b _
    · split at he <;> cases he
      · exact quiet_counters b _ _ _ _
      · exact .refl b _
  have hget := quiet_getOrCreateTopic b p.topicName []
  cases PublishPc.steps h with
  | loop | badName => exact .quiet (.refl b _) (.fail rfl)
  | group | fanned => exact .quiet (.refl b _) .stay
  | enter | getWildcards => exact .quiet (quiet_counters b _ _ _ _) .stay
  | call => exact .quiet (.refl b _) (.call rfl)
  | full hb =>
    rw [hb] at hget
    exact .quiet hget (.fail rfl)
  | getTopic hb =>
    rw [hb] at hget
    exact .quiet hget (.locate rfl (getOrCreateTopic_lookup hb))
  | newMessage ht => exact .create rfl ht
  | refused hb => exact .quiet (hhook hb) (.refuse rfl)
  | onPublish hb => exact .quiet (hhook hb) .stay
  | failed hb =>
    obtain ⟨-, hq⟩ | ⟨he, -⟩ := store_effect hb
    · exact .quiet hq (.refuse rfl)
    · cases he
  | delayed hb | stored hb =>
    obtain ⟨⟨e, he⟩, -⟩ | ⟨-, hst⟩ := store_effect hb
    · cases he
    · first | exact .defer rfl rfl hst | exact .store rfl rfl hst

theorem PushPc.step_effect {p} {pc : PushPc}
    (h : pc.step b p = some o) : Effect now b (.push p pc) o.broker o.next.view o.handed := by
  cases PushPc.steps h with
  | spies hb | wildSpy hb => exact .quiet (pushToSpies_quiet hb) .stay
  | spied =>
    cases hp : p.isBroadcast with
    | true => exact .quiet (.refl b _) (.collect rfl hp)
    | false => exact .quiet (.refl b _) .stay
  | takeWild hb => exact .take rfl (takeWaiting_unwaits hb)
  | takeOwn hb => exact .cast rfl (takeWaiting_unwaits hb)
  | tookWild | poppedWild => exact .quiet (.refl b _) .stay
  | popWild hb | popOwn hb => exact .pop rfl (popWaiting_spec hb).1 (popWaiting_spec hb).2
  | noneWild hb =>
    obtain ⟨rfl, -⟩ := popWaiting_spec hb
    exact .quiet (.refl _ _) .stay
  | noneOwn hb =>
    obtain ⟨rfl, hw⟩ := popWaiting_spec hb
    exact .quiet (.refl _ _) (.finish rfl hw)
  | sentWild hb | sentOwn hb => exact .send rfl hb
  | fullWild hb => exact .quiet (.refl b _) (.sendFailed rfl hb (.inl rfl))
  | fullOwn hb => exact .quiet (.refl b _) (.sendFailed rfl hb (.inr rfl))
  | holdWild hb => exact .quiet (hold_quiet hb) .stay
  | remove hb => exact .remove rfl (removeMessage_removes hb)

theorem ConsumePc.step_effect {q} {pc : ConsumePc}
    (h : pc.step now b q = some o) : Effect now b (.consume q pc) o.broker o.next.view o.handed := by
  have hget := quiet_getOrCreateTopic b q.topicName []
  cases ConsumePc.steps h with
  | badName => exact .quiet (.refl b _) (.giveUp rfl)
  | full hb =>
    rw [hb] at hget
    exact .quiet hget (.giveUp rfl)
  | getTopic hb =>
    rw [hb] at hget
    exact .quiet hget (.seek rfl (getOrCreateTopic_lookup hb))
  | getMatching => exact .quiet matchingTopics_quiet .stay
  | scan hb => exact .extract rfl rfl (extractMatching_extracts hb)
  | scanned | scanNext => exact .quiet (.refl b _) .stay
  | scanAck | targetAck => exact .quiet quiet_ack .stay
  | found => exact .quiet (.refl b _) (.deliver rfl)
  | @target _ results _ _ _ hb =>
    have hx := extractTarget_extracts hb
    cases results with
    | nil => exact .register rfl rfl hx
    | cons m ms => exact .extract rfl rfl hx
  | @done results =>
    cases results with
    | nil => exact .quiet (.refl b _) (.wait rfl)
    | cons m ms => exact .quiet (.refl b _) (.deliver rfl)

/-- **Every step has one of the effects.** -/
theorem Pc.step_effect (hr : pc.isRequeue = false)
    (h : pc.step now b = some o) : Effect now b pc o.broker o.next.view o.handed := by
  cases Pc.steps h with
  | publish h => exact PublishPc.step_effect h
  | push h => exact PushPc.step_effect h
  | consume h => exact ConsumePc.step_effect h
  | castSent hb => exact .castSend rfl hb
  | castFull => exact .quiet (.refl b _) .stay
  | castEnd => exact .quiet (.refl b _) (.castEnd rfl)
  | ackMissing => exact .quiet (.refl b _) (.ackMissing rfl)
  | ackFound ht => exact .quiet (.refl b _) (.ackFound rfl ht)
  | ackAt hb => exact .ack rfl (ackMessage_removes hb)
  | leaveMissing hnone => exact .quiet (.refl b _) (.leaveMissing rfl hnone)
  | leaveFound ht => exact .quiet (.refl b _) (.leaveFound rfl ht)
  | leaveAt hb => exact .leave rfl (removeWaiting_unwaits hb).1 (removeWaiting_unwaits hb).2
  | requeueFull | requeueFound | requeuePut | requeueAt => cases hr

end TinyMQ
