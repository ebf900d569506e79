/-
A publish that runs alone, in full: when it is admitted, what it writes to
the log, and where its message ends up.

`Broker.accepts` is what a publish without bound groups must find. One that
does not find it changes no queue and no channel (`Refused`); one that does
leaves its message at one place, in the queue of its topic or in the buffer
of a consumer that was waiting (`Admitted`). `tries_cases` is the case
distinction the modules on groups, dead letters and replication start from.
-/
import TinyMQ.Sequential

namespace TinyMQ

open List Option Broker Topic

/-! ## What stays as it is -/

/-- What of a topic object neither publishes nor consumers change. -/
def Topic.fixed (t : Topic) : GoString × Bool × Policy × Time := (t.name, t.deleted, t.policy, t.retention)

/-- And its three queues. -/
def Topic.shape (t : Topic) : (GoString × Bool × Policy × Time) × List Message × List Message × List Message :=
  (t.fixed, t.highMessages, t.messages, t.lowMessages)

namespace Topic

variable {t t' : Topic} {m : Message}

theorem queued_of_shape (h : t'.shape = t.shape) : t'.queued = t.queued := by
  simp only [shape, Prod.mk.injEq] at h
  simp [queued, h]

theorem fixed_of_emptied (h : t'.emptied = t.emptied) : t'.fixed = t.fixed := by
  have hfixed := congrArg Topic.fixed h
  exact hfixed

def slot (t : Topic) : Priority → List Message
  | .high => t.highMessages
  | .normal => t.messages
  | .low => t.lowMessages

theorem mem_queued_iff : m ∈ t.queued ↔ ∃ priority, m ∈ t.slot priority := by
  simp only [queued, mem_append]
  constructor
  · rintro ((h | h) | h)
    · exact ⟨.high, h⟩
    · exact ⟨.normal, h⟩
    · exact ⟨.low, h⟩
  · rintro ⟨_ | _ | _, h⟩
    · exact .inl (.inl h)
    · exact .inl (.inr h)
    · exact .inr h

theorem slot_of_shape (h : t'.shape = t.shape) (priority : Priority) : t'.slot priority = t.slot priority := by
  simp only [shape, Prod.mk.injEq] at h
  cases priority <;> simp [slot, h]

theorem slot_append (t : Topic) (priority other : Priority) (m : Message) :
    (t.append priority m).slot other = t.slot other ++ if other = priority then [m] else [] := by
  cases priority <;> cases other <;> simp [append, slot]

theorem slot_evictOldest (h : t.evictOldest = some (m, t')) (priority : Priority) :
    t'.slot priority ⊆ t.slot priority := by
  unfold evictOldest at h
  split at h
  next hl => cases h; cases priority <;> simp [slot, hl]
  · split at h
    next hm => cases h; cases priority <;> simp [slot, hm]
    · split at h
      next hh => cases h; cases priority <;> simp [slot, hh]
      · cases h

theorem slot_removeMessageByID (t : Topic) (id : GoString) (priority : Priority) :
    (t.removeMessageByID id).slot priority ⊆ t.slot priority := by
  have hsub : ∀ {queue rest}, removeFrom id queue = some rest → rest ⊆ queue := by
    intro queue rest h
    obtain ⟨m, -, hperm⟩ := removeFrom_eq_some h
    exact fun x hx => hperm.mem_iff.mpr (mem_cons_of_mem m hx)
  unfold removeMessageByID remove?
  split
  next hq => cases priority <;> simp [slot, hsub hq]
  · split
    next hq => cases priority <;> simp [slot, hsub hq]
    · cases hq : removeFrom id t.lowMessages with
      | none => exact Subset.refl _
      | some q => cases priority <;> simp [slot, hsub hq]

end Topic

namespace Broker

/-- The configuration, the bindings, and the topics with what is fixed of
them. -/
structure Frame (b b' : Broker) : Prop where
  env : b'.env = b.env
  limits : b'.limits = b.limits
  defaultPolicy : b'.defaultPolicy = b.defaultPolicy
  hooked : b'.hooked = b.hooked
  bindings : b'.bindings = b.bindings
  topics : b'.topics = b.topics
  fixed : b'.heap.map fixed = b.heap.map fixed

/-- And the logs, the counters, and the queues of every topic object but one. -/
structure Calm (r : TopicRef) (b b' : Broker) : Prop extends Frame b b' where
  others : ∀ i, i ≠ r → b'.heap[i]?.map shape = b.heap[i]?.map shape
  storage : b'.storage = b.storage
  uuids : b'.uuids = b.uuids
  answers : b'.answers = b.answers

variable {b b' : Broker} {r : TopicRef} {t t' : Topic} {m : Message}

def slot (b : Broker) (r : TopicRef) (priority : Priority) : List Message := (b.heap[r]?.map (·.slot priority)).getD []

theorem slot_of_shape (h : b'.heap[r]?.map Topic.shape = b.heap[r]?.map Topic.shape) (priority : Priority) :
    b'.slot r priority = b.slot r priority := by
  unfold slot
  cases ht : b.heap[r]? with
  | none =>
    rw [ht, map_none, map_eq_none_iff] at h
    rw [h]
  | some t =>
    rw [ht, map_some, map_eq_some_iff] at h
    obtain ⟨t', ht', hshape⟩ := h
    rw [ht', map_some, map_some, Topic.slot_of_shape hshape]

theorem slot_of_lock (h : b.lock r = some t) (priority : Priority) : b.slot r priority = t.slot priority := by
  rw [slot, (lock_eq_some.mp h).1, map_some, getD_some]

theorem slot_setTopic (h : b.lock r = some t) (t' : Topic) (priority : Priority) :
    (b.setTopic r t').slot r priority = t'.slot priority := by
  simp only [slot, setTopic, getElem?_modify_eq, (lock_eq_some.mp h).1]
  cases priority <;> rfl

theorem Frame.refl (b : Broker) : Frame b b := ⟨rfl, rfl, rfl, rfl, rfl, rfl, rfl⟩

theorem Frame.trans (h : Frame b b') (h' : Frame b' b'') : Frame b b'' where
  env := h'.env.trans h.env
  limits := h'.limits.trans h.limits
  defaultPolicy := h'.defaultPolicy.trans h.defaultPolicy
  hooked := h'.hooked.trans h.hooked
  bindings := h'.bindings.trans h.bindings
  topics := h'.topics.trans h.topics
  fixed := h'.fixed.trans h.fixed

theorem Calm.refl (r : TopicRef) (b : Broker) : Calm r b b := ⟨.refl b, fun _ _ => rfl, rfl, rfl, rfl⟩

theorem Calm.trans (h : Calm r b b') (h' : Calm r b' b'') : Calm r b b'' where
  toFrame := h.toFrame.trans h'.toFrame
  others i hi := (h'.others i hi).trans (h.others i hi)
  storage := h'.storage.trans h.storage
  uuids := h'.uuids.trans h.uuids
  answers := h'.answers.trans h.answers

theorem Calm.of_heap {goroutines} {spyChans : Spy → Channel} {chans : Chan → Channel} :
    Calm r b { b with goroutines, spyChans, chans } :=
  ⟨⟨rfl, rfl, rfl, rfl, rfl, rfl, rfl⟩, fun _ _ => rfl, rfl, rfl, rfl⟩

/-- A topic object is written back, the queues of it unchanged unless it is
the one. -/
theorem setTopic_calm (h : b.lock i = some t) (hf : t'.fixed = t.fixed) (hs : i ≠ r → t'.shape = t.shape) :
    Calm r b (b.setTopic i t') := by
  have hheap := getElem?_setTopic h (congrArg Prod.fst hf)
  refine ⟨⟨rfl, rfl, rfl, rfl, rfl, rfl, ext_getElem? fun j => ?_⟩, fun j hj => ?_, rfl, rfl, rfl⟩
  · rw [getElem?_map, getElem?_map, hheap]
    split
    next he => rw [he, (lock_eq_some.mp h).1, map_some, map_some, hf]
    · rfl
  · rw [hheap]
    split
    next he => rw [he, (lock_eq_some.mp h).1, map_some, map_some, hs (he ▸ hj)]
    · rfl

theorem popWaiting_calm (h : b.popWaiting i = some (ch, b')) : Calm r b b' := by
  obtain ⟨t, ht, h⟩ := map_eq_some_iff.mp h
  split at h <;> cases h
  · exact .refl r b
  · exact setTopic_calm ht rfl fun _ => rfl

theorem sendSpies_calm (b : Broker) (m : Message) (spies : List Spy) : Calm r b (b.sendSpies m spies) := by
  induction spies generalizing b with
  | nil => exact .refl r b
  | cons spy spies ih =>
    rw [sendSpies]
    split
    next c hc =>
      have hcalm : Calm r b { b with spyChans := Function.update b.spyChans spy c } := .of_heap
      exact hcalm.trans (ih _)
    · exact ih b

theorem trySend_calm (h : b.trySend ch m = some b') : Calm r b b' := by
  obtain ⟨-, rfl⟩ := trySend_eq_some h
  exact .of_heap

end Broker

section Push

variable {now : Time} {b b' : Broker} {p : Push} {pc : PushPc} {o : Outcome} {r : Ret}

theorem PushPc.step_calm (h : pc.step b p = some o) (hi : pc = .remove → i = p.t) : Calm i b o.broker := by
  cases PushPc.steps h with
  | spies hb | wildSpy hb =>
    obtain ⟨t, -, rfl⟩ := map_eq_some_iff.mp hb
    exact sendSpies_calm _ _ _
  | takeWild hb =>
    obtain ⟨t, ht, hb⟩ := map_eq_some_iff.mp hb
    cases hb
    exact setTopic_calm ht rfl fun _ => rfl
  | takeOwn hb =>
    obtain ⟨t, ht, hb⟩ := map_eq_some_iff.mp hb
    cases hb
    have hset : Calm i b (b.setTopic p.t { t with waitingConsumers := [] }) :=
      setTopic_calm ht rfl fun _ => rfl
    exact hset.trans .of_heap
  | popWild hb | noneWild hb | popOwn hb | noneOwn hb => exact popWaiting_calm hb
  | sentWild hb | sentOwn hb => exact trySend_calm hb
  | holdWild hb =>
    obtain ⟨t, ht, rfl⟩ := map_eq_some_iff.mp hb
    exact setTopic_calm ht rfl fun _ => rfl
  | remove hb =>
    obtain ⟨t, ht, rfl⟩ := map_eq_some_iff.mp hb
    exact setTopic_calm ht (fixed_of_emptied (t.emptied_removeMessageByID _)) fun hne => absurd (hi rfl).symm hne
  | spied | tookWild | poppedWild | fullWild | fullOwn => exact .refl i b

theorem PushPc.step_slot (h : pc.step b p = some o) (priority : Priority) :
    o.broker.slot p.t priority ⊆ b.slot p.t priority := by
  by_cases hpc : pc = .remove
  · subst hpc
    obtain ⟨b₁, hb₁, rfl⟩ := map_eq_some_iff.mp h
    obtain ⟨t, ht, rfl⟩ := map_eq_some_iff.mp hb₁
    show (b.setTopic p.t _).slot p.t priority ⊆ _
    rw [slot_setTopic ht, slot_of_lock ht]
    exact t.slot_removeMessageByID _ _
  · have hcalm : Calm (p.t + 1) b o.broker := PushPc.step_calm h fun he => absurd he hpc
    rw [slot_of_shape (hcalm.others p.t (Nat.ne_of_lt (Nat.lt_succ_self _)))]
    exact Subset.refl _

theorem PushPc.step_next (h : pc.step b p = some o) : (∃ pc', o.next = .goto (.push p pc')) ∨
    ∃ r, o.next = .ret r := by
  cases PushPc.steps h with
  | takeOwn | noneOwn | fullOwn | remove => exact .inr ⟨_, rfl⟩
  | _ => exact .inl ⟨_, rfl⟩

theorem push_calm (h : Returns now b ⟨.push p pc, []⟩ r b') :
    Calm p.t b b' ∧ ∀ priority, b'.slot p.t priority ⊆ b.slot p.t priority := by
  refine h.of_steps (Q := fun c => Calm p.t b c ∧
    ∀ priority, c.slot p.t priority ⊆ b.slot p.t priority)
    (I := fun c pc => (∃ pc', pc = .push p pc') ∧ Calm p.t b c ∧
      ∀ priority, c.slot p.t priority ⊆ b.slot p.t priority)
      ⟨⟨pc, rfl⟩, .refl _ _, fun _ => Subset.refl _⟩ ?_
  rintro c _ o ⟨⟨pc', rfl⟩, hc, hslot⟩ hs
  have hcalm := hc.trans (PushPc.step_calm hs fun _ => rfl)
  have hslot' := fun priority => Subset.trans (PushPc.step_slot hs priority) (hslot priority)
  rcases PushPc.step_next hs with ⟨next, hnext⟩ | hret
  · exact .inl ⟨_, hnext, ⟨next, rfl⟩, hcalm, hslot'⟩
  · exact .inr ⟨hret, hcalm, hslot'⟩

end Push

/-! ## Where a push leaves its message -/

/-- A push that has returned: its message stays queued, or a consumer that
was waiting got it and one message of its ID has left the queue. -/
structure Broker.Pushed (b b' : Broker) (p : Push) : Prop where
  queued : ∀ r, r ≠ p.t → b'.queued r = b.queued r
  waiting : p.isBroadcast = false → ∀ r, b'.waiting r ⊆ b.waiting r
  place : (b'.queued p.t = b.queued p.t ∧ b'.chans = b.chans) ∨
    ∃ ch r m, ch ∈ b.waiting r ∧ m.id = p.msg.id ∧ (b.queued p.t).Perm (m :: b'.queued p.t) ∧
      (b'.chans ch).buf = (b.chans ch).buf ++ [p.msg] ∧ ∀ c, c ≠ ch → b'.chans c = b.chans c

/-- What a push keeps on its way: nothing has moved until the send, then one
channel has the message. -/
structure Broker.PushRun (b₀ : Broker) (p : Push) (b : Broker) (ρ : Role) : Prop where
  role : ρ.push? = some p
  queued : ∀ r, b.queued r = b₀.queued r
  waiting : ρ ≠ .collecting p → ∀ r, b.waiting r ⊆ b₀.waiting r
  collecting : ρ = .collecting p → p.isBroadcast = true
  sending : ∀ ch, ρ = .sending p ch → ∃ r, ch ∈ b₀.waiting r
  chans : ρ ≠ .removing p → b.chans = b₀.chans
  sent : ρ = .removing p → ∃ ch r, ch ∈ b₀.waiting r ∧ (b.chans ch).buf = (b₀.chans ch).buf ++ [p.msg] ∧
    ∀ c, c ≠ ch → b.chans c = b₀.chans c

section Push

variable {now : Time} {b₀ b b' : Broker} {p : Push} {pc : Pc}

theorem Broker.Unwaits.waiting_subset {r} (h : b.Unwaits b' r) (hr : b'.waiting r ⊆ b.waiting r) (r' : TopicRef) :
    b'.waiting r' ⊆ b.waiting r' := by
  by_cases he : r' = r
  · exact he ▸ hr
  · rw [h.waiting r' he]
    exact Subset.refl _

theorem Broker.PushRun.next (h : PushRun b₀ p b pc.role) (heff : Effect now b pc b' (.inl ρ) handed) :
    PushRun b₀ p b' ρ := by
  have hrole := h.role
  cases heff with
  | quiet hq hmove =>
    have hqueued : ∀ r, b'.queued r = b₀.queued r := fun r => (hq.queued r).trans (h.queued r)
    cases hmove with
    | stay =>
      refine ⟨hrole, hqueued, fun hne r => ?_, h.collecting, h.sending, fun hne =>
        hq.chans.trans (h.chans hne), fun hr => ?_⟩
      · rw [hq.waiting]
        exact h.waiting hne r
      · rw [hq.chans]
        exact h.sent hr
    | collect hρ hb =>
      rw [hρ] at hrole
      cases hrole
      have hchans := h.chans (by rw [hρ]; exact Role.noConfusion)
      exact ⟨rfl, hqueued, fun hne => absurd rfl hne, fun _ => hb, nofun, fun _ => hq.chans.trans hchans,
        nofun⟩
    | sendFailed hρ ht hv =>
      rw [hρ] at hrole
      cases hrole
      rcases hv with hv | hv <;> cases hv
      have hchans := h.chans (by rw [hρ]; exact Role.noConfusion)
      have hwait := h.waiting (by rw [hρ]; exact Role.noConfusion)
      exact ⟨rfl, hqueued, fun _ r => by rw [hq.waiting]; exact hwait r, nofun, nofun,
        fun _ => hq.chans.trans hchans, nofun⟩
    | call hρ | locate hρ ht | seek hρ ht | ackFound hρ ht | leaveFound hρ ht => rw [hρ] at hrole; cases hrole
  | take hρ hu =>
    have hb := h.collecting
    rw [hρ] at hrole hb
    cases hrole
    have hchans := h.chans (by rw [hρ]; exact Role.noConfusion)
    exact ⟨rfl, fun r => (hu.queued r).trans (h.queued r), fun hne => absurd rfl hne, fun _ => hb rfl, nofun,
      fun _ => hu.chans.trans hchans, nofun⟩
  | @pop _ _ r ch hρ hu hw =>
    have hwait := h.waiting (by rw [hρ]; exact Role.noConfusion)
    have hchans := h.chans (by rw [hρ]; exact Role.noConfusion)
    rw [hρ] at hrole
    cases hrole
    have hless : ∀ r', b'.waiting r' ⊆ b.waiting r' :=
      hu.waiting_subset (by rw [hw]; exact subset_cons_self _ _)
    refine ⟨rfl, fun r => (hu.queued r).trans (h.queued r), fun _ r' =>
      Subset.trans (hless r') (hwait r'), nofun,
      fun ch' hr => ?_, fun _ => hu.chans.trans hchans, nofun⟩
    cases hr
    exact ⟨r, hwait r (by rw [hw]; exact mem_cons_self)⟩
  | @send _ _ ch hρ ht =>
    have hwait := h.waiting (by rw [hρ]; exact Role.noConfusion)
    have hchans := h.chans (by rw [hρ]; exact Role.noConfusion)
    have hfrom := h.sending
    rw [hρ] at hrole hfrom
    cases hrole
    obtain ⟨r, hr⟩ := hfrom ch rfl
    obtain ⟨-, rfl⟩ := trySend_eq_some ht
    refine ⟨rfl, h.queued, fun _ => hwait, nofun, nofun, fun hne => absurd rfl hne,
      fun _ => ⟨ch, r, hr, ?_, fun c hc => ?_⟩⟩
    · simp [hchans]
    · simp [hc, hchans]
  | create hρ ht | store hρ hb hs | castSend hρ ht | extract hρ hat hx | register hρ hat hx =>
    rw [hρ] at hrole; cases hrole

theorem Broker.PushRun.done (hm : p.msg ∈ b₀.queued p.t) (h : PushRun b₀ p b pc.role)
    (heff : Effect now b pc b' (.inr r) handed) : b₀.Pushed b' p := by
  have hrole := h.role
  -- All but the last step of a send leave the message where it is.
  have hstays : ∀ {b₁ : Broker}, (∀ r, b₁.queued r = b.queued r) → b₁.chans = b.chans →
    pc.role ≠ .removing p →
      (p.isBroadcast = false → ∀ r, b₁.waiting r ⊆ b₀.waiting r) → b₀.Pushed b₁ p := fun hq hc hne hw =>
    ⟨fun r _ => (hq r).trans (h.queued r), hw, .inl ⟨(hq p.t).trans (h.queued p.t), hc.trans (h.chans hne)⟩⟩
  cases heff with
  | quiet hq hmove =>
    have hquiet : pc.role ≠ .removing p → pc.role ≠ .collecting p → b₀.Pushed b' p := fun hne hne' =>
      hstays hq.queued hq.chans hne fun _ r => by rw [hq.waiting]; exact h.waiting hne' r
    cases hmove with
    | finish hρ hw => exact hquiet (by rw [hρ]; exact Role.noConfusion) (by rw [hρ]; exact Role.noConfusion)
    | sendFailed hρ ht hv =>
      exact hquiet (by rw [hρ]; exact Role.noConfusion) (by rw [hρ]; exact Role.noConfusion)
    | fail hρ | refuse hρ | castEnd hρ | giveUp hρ | deliver hρ | wait hρ | ackMissing hρ | leaveMissing hρ ht =>
      rw [hρ] at hrole; cases hrole
  | cast hρ hu =>
    have hb := h.collecting
    rw [hρ] at hrole hb
    cases hrole
    have hpush := hstays hu.queued hu.chans (by rw [hρ]; exact Role.noConfusion) fun hf =>
      absurd (hb rfl) (by simp [hf])
    exact ⟨hpush.queued, fun hf => absurd (hb rfl) (by simp [hf]), hpush.place⟩
  | remove hρ hr =>
    have hwait := h.waiting (by rw [hρ]; exact Role.noConfusion)
    have hsent := h.sent
    rw [hρ] at hrole hsent
    cases hrole
    obtain ⟨ch, r, hch, hbuf, hother⟩ := hsent rfl
    refine ⟨fun r hne => (hr.queued r hne).trans (h.queued r), fun _ r => by
      rw [hr.waiting]; exact hwait r, .inr ?_⟩
    rcases hr.queue with ⟨-, hnone⟩ | ⟨m, hid, hperm⟩
    · exact absurd rfl (hnone p.msg (by rw [h.queued]; exact hm))
    · rw [h.queued] at hperm
      exact ⟨ch, r, m, hch, hid, hperm,
        by rw [hr.chans]; exact hbuf, fun c hc => by rw [hr.chans]; exact hother c hc⟩
  | defer hρ hb hs | ack hρ hr | leave hρ hu hw => rw [hρ] at hrole; cases hrole

theorem push_pushed (h : Returns now b ⟨.push p .spies, []⟩ r b') (hm : p.msg ∈ b.queued p.t) : b.Pushed b' p := by
  have h₀ : PushRun b p b (.pushing p) :=
    ⟨rfl, fun _ => rfl, fun _ r => Subset.refl _, nofun, nofun, fun _ => rfl,
      nofun⟩
  exact h.of_effects (I := PushRun b p) (Q := fun _ b' => b.Pushed b' p) rfl h₀
    (fun b' a hp => by cases hp.role)
    PushRun.next (PushRun.done hm)

end Push

/-! ## The store -/

/-- Whether a topic takes one more message. -/
def Topic.isOpen (max : Nat) (t : Topic) : Bool :=
  !t.deleted && (decide (t.queued.length < max) || t.policy == .dropOldest)

def Topic.evicted (max : Nat) (t : Topic) : List Message :=
  if max ≤ t.queued.length then (t.evictOldest.map Prod.fst).toList else []

def storeRecords (isBroadcast : Bool) (m : Message) (evicted : List Message) : List LogEntry :=
  (if isBroadcast then [] else [.put m]) ++ evicted.map fun m => .ack m.id

namespace Broker

def logs (b : Broker) (topic : GoString) (es : List LogEntry) : Broker := es.foldl (fun b e => b.log topic e) b

variable {b b' : Broker} {r : TopicRef} {topicName : GoString} {priority : Priority} {isBroadcast : Bool} {m : Message}
  {err : Option GoString}

theorem logs_frame (b : Broker) (topic : GoString) (es : List LogEntry) :
    (b.logs topic es).heap = b.heap ∧ (b.logs topic es).chans = b.chans ∧ (b.logs topic es).limits = b.limits ∧
      b.Frame (b.logs topic es) ∧ (b.logs topic es).uuids = b.uuids ∧ (b.logs topic es).answers = b.answers := by
  induction es generalizing b with
  | nil => exact ⟨rfl, rfl, rfl, .refl b, rfl, rfl⟩
  | cons e es ih =>
    obtain ⟨hh, hc, hl, hf, hu, ha⟩ := ih (b.log topic e)
    have hlog : b.Frame (b.log topic e) := ⟨rfl, rfl, rfl, rfl, rfl, rfl, rfl⟩
    exact ⟨hh, hc, hl, hlog.trans hf, hu, ha⟩

theorem logs_storage {b b' : Broker} (h : b'.storage = b.storage) (topic : GoString) (es : List LogEntry) :
    (b'.logs topic es).storage = (b.logs topic es).storage := by
  induction es generalizing b b' with
  | nil => exact h
  | cons e es ih => exact ih (congrArg (Option.map fun s : LogStore => s.append topic e) h)

theorem store_isOpen (h : b.store r topicName priority isBroadcast m = some (err, b')) :
    ∃ t, b.lock r = some t ∧ (err = none ↔ t.isOpen b.limits.maxMessages = true) := by
  obtain ⟨t, ht, hcase⟩ := store_cases h
  refine ⟨t, ht, ?_⟩
  cases hcase with
  | deleted hd => simp [isOpen, hd]
  | refused hd hfull hp => simp [isOpen, hfull, hp]
  | evicted hd _ hp _ => simp [isOpen, hd, hp]
  | kept hd hroom => simp [isOpen, hd, hroom]

/-- What a store that succeeds leaves: the records, and the message in its
queue with the evicted one gone. -/
theorem store_admits (h : b.store r topicName priority isBroadcast m = some (none, b')) :
    ∃ t t' : Topic, b.lock r = some t ∧
      t.queued.Perm (t.evicted b.limits.maxMessages ++ t'.queued) ∧ t'.fixed = t.fixed ∧
      t'.waitingConsumers = t.waitingConsumers ∧ (∀ priority, t'.slot priority ⊆ t.slot priority) ∧
      b' = (b.logs topicName (storeRecords isBroadcast m (t.evicted b.limits.maxMessages))).setTopic
        r (t'.append priority m) := by
  obtain ⟨t, ht, hcase⟩ := store_cases h
  have hlogs : ∀ es, (b.logPut topicName isBroadcast m).logs topicName es =
      b.logs topicName ((if isBroadcast then [] else [.put m]) ++ es) := by
    intro es
    unfold logPut
    split <;> rfl
  unfold evicted
  refine ⟨t, ?_⟩
  cases hcase with
  | @evicted oldest t' _ hfull _ hev =>
    obtain ⟨hperm, hwait⟩ := evictOldest_spec hev
    rw [if_pos hfull, hev]
    exact ⟨t', ht, hperm, fixed_of_emptied (emptied_evictOldest hev), hwait, slot_evictOldest hev,
      congrArg (fun b : Broker => b.setTopic r (t'.append priority m)) (hlogs [.ack oldest.id])⟩
  | kept _ hroom =>
    rw [if_neg (Nat.not_le.mpr hroom)]
    exact ⟨t, ht, .refl _, rfl, rfl, fun _ => Subset.refl _,
      congrArg (fun b : Broker => b.setTopic r (t.append priority m)) (hlogs [])⟩

end Broker

/-! ## A publish without bound groups -/

namespace Broker

def topic? (b : Broker) (name : GoString) : Option Topic := (b.topics.lookup name).bind fun r => b.heap[r]?

/-- The topic takes one more message; a new one does. -/
def isOpen (b : Broker) (name : GoString) : Bool := ((b.topic? name).map (Topic.isOpen b.limits.maxMessages)).getD true

def evicted (b : Broker) (name : GoString) : List Message :=
  ((b.topic? name).map (Topic.evicted b.limits.maxMessages)).getD []

def retention (b : Broker) (name : GoString) : Time := ((b.topic? name).map Topic.retention).getD 0

/-- How often a publish that has its topic asks the hook. -/
def asks (b : Broker) (p : PublishArgs) : Nat := if p.isReplication ∨ b.hooked = false then 0 else 1

/-- What a publish must find after the checks on its name: a topic or room
for it, a hook that agrees, a topic that is open. -/
def accepts (b : Broker) (p : PublishArgs) : Bool :=
  b.canGet p.topicName && (b.hookError p).isNone && b.isOpen p.topicName

/-- A publish that failed: no queue, no waiter, no channel has changed. -/
structure Refused (b b' : Broker) (p : PublishArgs) : Prop where
  frame : (b.getOrCreateTopic p.topicName).2.Frame b'
  others : ∀ n, n ≠ p.topicName → (b'.topic? n).map shape = (b.topic? n).map shape
  queued : ∀ r, b'.queued r = b.queued r
  slot : ∀ r priority, b'.slot r priority ⊆ b.slot r priority
  waiting : ∀ r, b'.waiting r = b.waiting r
  chans : b'.chans = b.chans
  uuids : b.uuids ≤ b'.uuids
  answers : b'.answers = b.answers + if b.canGet p.topicName then b.asks p else 0
  storage : b'.storage = b.storage ∨
    ∃ m, m.id = b.env.newUUID b.uuids ∧ b.uuids < b'.uuids ∧ b'.storage = (b.log p.topicName (.put m)).storage

/-- A publish that succeeded: its message is in the queue of its topic, or in
the buffer of a consumer that was waiting and one of its ID has left the
queue. -/
structure Admitted (now : Time) (b b' : Broker) (p : PublishArgs) (t : TopicRef) (m : Message) : Prop where
  topic : (b.getOrCreateTopic p.topicName).1 = some t
  frame : (b.getOrCreateTopic p.topicName).2.Frame b'
  others : ∀ n, n ≠ p.topicName → (b'.topic? n).map shape = (b.topic? n).map shape
  message : m = p.message (b.env.newUUID b.uuids) (b.retention p.topicName) now
  queued : ∀ r, r ≠ t → b'.queued r = b.queued r
  waiting : p.isBroadcast = false → ∀ r, b'.waiting r ⊆ b.waiting r
  place : ∃ left, (b.queued t).Perm (b.evicted p.topicName ++ left) ∧
    ((b'.queued t).Perm (m :: left) ∧ b'.chans = b.chans ∨
      ∃ ch r m', ch ∈ b.waiting r ∧ m'.id = m.id ∧ (m :: left).Perm (m' :: b'.queued t) ∧
        (b'.chans ch).buf = (b.chans ch).buf ++ [m] ∧ ∀ c, c ≠ ch → b'.chans c = b.chans c)
  slot : ∀ r priority, b'.slot r priority ⊆
    b.slot r priority ++ if r = t ∧ priority = .ofString p.priority then [m] else []
  uuids : b'.uuids = b.uuids + 1
  answers : b'.answers = b.answers + b.asks p
  storage : b'.storage = (b.logs p.topicName (storeRecords p.isBroadcast m (b.evicted p.topicName))).storage

variable {b b₀ : Broker} {name : GoString} {t : TopicRef} {p : PublishArgs}

theorem getOrCreateTopic_topic (h : b.getOrCreateTopic name = (some t, b₀)) : ∃ topic, b₀.heap[t]? = some topic ∧
    (b.topic? name = some topic ∨ b.topic? name = none ∧ topic = .create name b.defaultPolicy) := by
  rcases getOrCreateTopic_cases h with ⟨hl, rfl⟩ | ⟨hl, rfl, rfl⟩
  · obtain ⟨topic, htopic, -⟩ := b₀.topics_ok hl
    exact ⟨topic, htopic, .inl (by simp [topic?, hl, htopic])⟩
  · exact ⟨_, by simp [addTopic], .inr ⟨by simp [topic?, hl], rfl⟩⟩

theorem getOrCreateTopic_lookup_ne {n} (hn : n ≠ name) :
    (b.getOrCreateTopic name).2.topics.lookup n = b.topics.lookup n := by
  unfold getOrCreateTopic
  split
  · rfl
  · split
    · rfl
    · exact AList.lookup_insert_ne hn

theorem slot_getOrCreateTopic (b : Broker) (name : GoString) (r : TopicRef) (priority : Priority) :
    (b.getOrCreateTopic name).2.slot r priority ⊆ b.slot r priority := by
  unfold getOrCreateTopic
  split
  · exact Subset.refl _
  · split
    · exact Subset.refl _
    · unfold slot
      show (((b.heap ++ [Topic.create name b.defaultPolicy])[r]?).map _).getD [] ⊆ _
      rw [getElem?_append]
      split
      · exact Subset.refl _
      · cases r - b.heap.length <;> cases priority <;> simp [Topic.create, Topic.slot]

theorem lookup_ne_of_ne {n n' r r'} (h : b.topics.lookup n = some r) (h' : b.topics.lookup n' = some r')
    (hne : n ≠ n') : r ≠ r' := by
  rintro rfl
  obtain ⟨topic, htopic, hname⟩ := b.topics_ok h
  obtain ⟨topic', htopic', hname'⟩ := b.topics_ok h'
  cases htopic.symm.trans htopic'
  exact hne (hname.symm.trans hname')

/-- What happens at the object of one name leaves the topics of the others
as they are. -/
theorem shape_of_others {b' : Broker} (htopics : b'.topics = (b.getOrCreateTopic name).2.topics)
    (hothers : ∀ i, (b.getOrCreateTopic name).1 ≠ some i →
      b'.heap[i]?.map shape = (b.getOrCreateTopic name).2.heap[i]?.map shape)
    (hn : n ≠ name) : (b'.topic? n).map shape = (b.topic? n).map shape := by
  unfold topic?
  rw [htopics, getOrCreateTopic_lookup_ne hn]
  cases hl : b.topics.lookup n with
  | none => rfl
  | some r =>
    have hne : (b.getOrCreateTopic name).1 ≠ some r := by
      intro he
      have hget : b.getOrCreateTopic name = (some r, (b.getOrCreateTopic name).2) := by rw [← he]
      exact lookup_ne_of_ne ((b.quiet_getOrCreateTopic name []).topics hl)
        (getOrCreateTopic_lookup hget) hn rfl
    have hheap : (b.getOrCreateTopic name).2.heap[r]? = b.heap[r]? := by
      obtain ⟨topic, htopic, -⟩ := b.topics_ok hl
      unfold getOrCreateTopic
      split
      · rfl
      · split
        · rfl
        · exact getElem?_append_left (List.getElem?_eq_some_iff.mp htopic).1
    rw [bind_some, bind_some, hothers r hne, hheap]

theorem evicted_create (b : Broker) (name : GoString) :
    (Topic.create name b.defaultPolicy).evicted b.limits.maxMessages = [] ∧
      (Topic.create name b.defaultPolicy).isOpen b.limits.maxMessages = true := by
  have hpos := b.limits.maxMessages_pos
  simp [Topic.evicted, Topic.isOpen, Topic.create, Topic.queued, Topic.evictOldest, hpos]

theorem topic_facts {topic}
    (h : b.topic? name = some topic ∨ b.topic? name = none ∧ topic = .create name b.defaultPolicy) :
    b.isOpen name = topic.isOpen b.limits.maxMessages ∧ b.evicted name = topic.evicted b.limits.maxMessages ∧
      b.retention name = topic.retention := by
  rcases h with h | ⟨h, rfl⟩
  · simp [isOpen, evicted, retention, h]
  · obtain ⟨he, ho⟩ := evicted_create b name
    simp only [isOpen, evicted, retention, h, map_none, getD_none, he, ho]
    exact ⟨trivial, trivial, rfl⟩

end Broker

section Publish

variable {now : Time} {b b' b₁ : Broker} {left : Nat} {p : PublishArgs} {t : TopicRef}
  {wildcards : List TopicRef}
  {m : Message} {delayed : Bool} {r : Ret}

/-- A publish that has stored its message pushes it, now or later, and
returns. -/
theorem stored_returns (hs : b.store t p.topicName (.ofString p.priority) p.isBroadcast m = some (none, b₁))
    (h : Returns now b ⟨.publish left p (.store t wildcards m delayed), []⟩ r b') :
    r = .published (.ok m) ∧ Calm t b₁ b' ∧ (∀ priority, b'.slot t priority ⊆ b₁.slot t priority) ∧
      b₁.Pushed b' ⟨t, m, wildcards, p.isBroadcast⟩ := by
  obtain ⟨err, b₂, hs', hcase⟩ := store_inv h
  cases hs.symm.trans hs'
  obtain ⟨e, he, -⟩ | ⟨-, -, hr, g, rfl⟩ | ⟨-, -, h⟩ := hcase
  · cases he
  · exact ⟨hr, .of_heap, fun _ => Subset.refl _, fun _ _ => rfl, fun _ _ => Subset.refl _, .inl ⟨rfl, rfl⟩⟩
  · have hq := store_queued hs
    exact ⟨(push_returns h hq).1, (push_calm h).1, (push_calm h).2, push_pushed h hq⟩

theorem Broker.frame_issue (b : Broker) (p : PublishArgs) : b.Frame (b.issue p) := ⟨rfl, rfl, rfl, rfl, rfl, rfl, rfl⟩

/-- What is known once a publish has its topic. -/
structure Broker.Found (b : Broker) (p : PublishArgs) (t : TopicRef) (topic : Topic) (b₀ : Broker) : Prop where
  get : b.getOrCreateTopic p.topicName = (some t, b₀)
  heap : b₀.heap[t]? = some topic
  isOpen : b.isOpen p.topicName = topic.isOpen b.limits.maxMessages
  evicted : b.evicted p.topicName = topic.evicted b.limits.maxMessages
  retention : b.retention p.topicName = topic.retention
  quiet : b.Quiet b₀ []
  slot : ∀ r priority, b₀.slot r priority ⊆ b.slot r priority
  limits : b₀.limits = b.limits
  storage : b₀.storage = b.storage
  uuids : (b₀.issue p).uuids = b.uuids + 1
  answers : (b₀.issue p).answers = b.answers + b.asks p

theorem Broker.found (hget : b.getOrCreateTopic p.topicName = (some t, b₁)) : ∃ topic, b.Found p t topic b₁ := by
  obtain ⟨topic, hheap, hfacts⟩ := getOrCreateTopic_topic hget
  obtain ⟨hopen, hevicted, hretention⟩ := topic_facts hfacts
  have hquiet := b.quiet_getOrCreateTopic p.topicName []
  rw [hget] at hquiet
  have hsame : b₁.limits = b.limits ∧ b₁.storage = b.storage ∧ b₁.uuids = b.uuids ∧
    b₁.answers = b.answers ∧ b₁.hooked = b.hooked := by
    rcases getOrCreateTopic_cases hget with ⟨-, rfl⟩ | ⟨-, -, rfl⟩ <;> exact ⟨rfl, rfl, rfl, rfl, rfl⟩
  obtain ⟨hlimits, hstorage, huuids, hanswers, hhooked⟩ := hsame
  have hslot := b.slot_getOrCreateTopic p.topicName
  rw [hget] at hslot
  refine ⟨topic, hget, hheap, hopen, hevicted, hretention, hquiet, hslot, hlimits, hstorage,
    congrArg (· + 1) huuids, ?_⟩
  simp only [issue, asks, hanswers, hhooked]
  split <;> rfl

section Found

variable {topic : Topic} {b₀ : Broker}

theorem Broker.Found.refused (hf : b.Found p t topic b₀) (hframe : (b₀.issue p).Frame b')
    (hheap : b'.heap = b₀.heap) (hq : ∀ r, b'.queued r = b₀.queued r)
    (hw : ∀ r, b'.waiting r = b₀.waiting r) (hc : b'.chans = b₀.chans) (hu : b'.uuids = (b₀.issue p).uuids)
    (ha : b'.answers = (b₀.issue p).answers) (hs : b'.storage = b₀.storage ∨ ∃ m, m.id = b.env.newUUID b.uuids ∧
      b'.storage = (b₀.log p.topicName (.put m)).storage) : b.Refused b' p where
  frame := by
    rw [hf.get]
    exact (b₀.frame_issue p).trans hframe
  others n hn := shape_of_others (by rw [hf.get]; exact hframe.topics)
    (fun i _ => by rw [hheap, hf.get]) hn
  queued r := (hq r).trans (hf.quiet.queued r)
  slot r priority := by
    rw [Broker.slot, hheap]
    exact hf.slot r priority
  waiting r := (hw r).trans (hf.quiet.waiting r)
  chans := hc.trans hf.quiet.chans
  uuids := by
    rw [hu, hf.uuids]
    omega
  answers := by rw [ha, hf.answers, canGet_eq, hf.get]; rfl
  storage := by
    rcases hs with hs | ⟨m, hm, hs⟩
    · exact .inl (hs.trans hf.storage)
    · refine .inr ⟨m, hm, by rw [hu, hf.uuids]; omega, ?_⟩
      rw [hs, Broker.log, Broker.log, hf.storage]

theorem Broker.Found.admitted (hf : b.Found p t topic b₀)
    (hm : m = p.message (b.env.newUUID b.uuids) topic.retention now)
    (hs : (b₀.issue p).store t p.topicName (.ofString p.priority) p.isBroadcast m = some (none, b₁))
    (hcalm : Calm t b₁ b') (hslot : ∀ priority, b'.slot t priority ⊆ b₁.slot t priority)
    (hpushed : b₁.Pushed b' ⟨t, m, wildcards, p.isBroadcast⟩) : b.Admitted now b' p t m := by
  obtain ⟨t₀, t', ht₀, hperm, hfixed, hwait, hkept, rfl⟩ := store_admits hs
  obtain rfl : topic = t₀ := some.inj (hf.heap.symm.trans (lock_eq_some.mp ht₀).1)
  have hmax : (b₀.issue p).limits = b.limits := hf.limits
  rw [hmax, ← hf.evicted] at hperm hcalm hslot hpushed
  -- The broker between the records and the queue.
  obtain ⟨b₂, hb₂⟩ : ∃ b₂, b₂ = (b₀.issue p).logs p.topicName
    (storeRecords p.isBroadcast m (b.evicted p.topicName)) := ⟨_, rfl⟩
  obtain ⟨hheap, hchans, -, hframe, huuids, hanswers⟩ :=
    (b₀.issue p).logs_frame p.topicName (storeRecords p.isBroadcast m (b.evicted p.topicName))
  rw [← hb₂] at hcalm hslot hpushed hheap hchans hframe huuids hanswers
  have ht₂ : b₂.lock t = some topic := by rw [Broker.lock, hheap]; exact ht₀
  have hqueued₂ : ∀ r, r ≠ t → (b₂.setTopic t (t'.append (.ofString p.priority) m)).queued r =
    b.queued r := by
    intro r hr
    rw [queued_setTopic ht₂, if_neg hr, ← hf.quiet.queued r, Broker.queued, hheap]
    rfl
  have hqueue : (b₂.setTopic t (t'.append (.ofString p.priority) m)).queued t =
    (t'.append (.ofString p.priority) m).queued := by
    rw [queued_setTopic ht₂, if_pos rfl]
  have hstored := queued_append t' (.ofString p.priority) m
  have hbefore : b.queued t = topic.queued := by
    rw [← hf.quiet.queued t]
    exact queued_of_lock ht₀
  have hwaiting : ∀ r, (b₂.setTopic t (t'.append (.ofString p.priority) m)).waiting r = b.waiting r := by
    intro r
    rw [waiting_setTopic ht₂, ← hf.quiet.waiting r]
    split
    next hr => rw [hr, append_waitingConsumers, hwait]; exact (waiting_of_lock ht₀).symm
    next hr => rw [Broker.waiting, hheap]; rfl
  have hset : Calm t b₂ (b₂.setTopic t (t'.append (.ofString p.priority) m)) :=
    setTopic_calm ht₂ ((fixed_of_emptied (emptied_append ..)).trans hfixed) fun hne => absurd rfl hne
  exact {
    topic := by rw [hf.get]
    frame := by
      rw [hf.get]
      exact ((b₀.frame_issue p).trans hframe).trans (hset.toFrame.trans hcalm.toFrame)
    others := fun n hn => by
      refine shape_of_others ?_ (fun i hi => ?_) hn
      · rw [hf.get, hcalm.topics, hset.topics, hframe.topics]
        rfl
      · rw [hf.get] at hi ⊢
        have hi : i ≠ t := fun he => hi (he ▸ rfl)
        rw [hcalm.others i hi, hset.others i hi, hheap]
        rfl
    message := by rw [hm, hf.retention]
    queued := fun r hr => (hpushed.queued r hr).trans (hqueued₂ r hr)
    waiting := fun hb r => by rw [← hwaiting r]; exact hpushed.waiting hb r
    place := by
      refine ⟨t'.queued, by rw [hbefore]; exact hperm, ?_⟩
      rcases hpushed.place with ⟨hq, hc⟩ | ⟨ch, r, m', hch, hid, hq, hbuf, hother⟩
      · refine .inl ⟨?_, hc.trans (hchans.trans hf.quiet.chans)⟩
        rw [hq, hqueue]
        exact hstored
      · rw [hwaiting r] at hch
        have hchans' : b₂.chans = b.chans := hchans.trans hf.quiet.chans
        rw [hqueue] at hq
        refine .inr ⟨ch, r, m', hch, hid, hstored.symm.trans hq, ?_, fun c hc => ?_⟩
        · rw [hbuf]
          exact congrArg (fun f : Chan → Channel => (f ch).buf ++ [m]) hchans'
        · rw [hother c hc]
          exact congrFun hchans' c
    slot := fun r priority => by
      by_cases hr : r = t
      · subst hr
        have hpre : t'.slot priority ⊆ b.slot r priority := by
          refine Subset.trans (hkept priority) ?_
          rw [← slot_of_lock ht₀ priority]
          exact hf.slot r priority
        refine Subset.trans (hslot priority) ?_
        rw [slot_setTopic ht₂, slot_append]
        simp only [true_and]
        exact append_subset.mpr ⟨subset_append_of_subset_left _ hpre, subset_append_right _ _⟩
      · rw [Broker.slot_of_shape ((hcalm.others r hr).trans (hset.others r hr)), Broker.slot, hheap]
        exact subset_append_of_subset_left _ (hf.slot r priority)
    uuids := hcalm.uuids.trans (huuids.trans hf.uuids)
    answers := hcalm.answers.trans (hanswers.trans hf.answers)
    storage := by
      have hissue : (b₀.issue p).storage = b.storage := hf.storage
      refine hcalm.storage.trans ?_
      show b₂.storage = _
      rw [hb₂]
      exact logs_storage hissue _ _ }

end Found

/-- **What a publish does once it looks for its topic.** -/
theorem getTopic_cases (h : Returns now b ⟨.publish left p .getTopic, []⟩ r b') :
    (b.accepts p = false ∧ (∃ e, r = .published (.error e)) ∧ b.Refused b' p) ∨
      b.accepts p = true ∧ ∃ t m, r = .published (.ok m) ∧ b.Admitted now b' p t m := by
  have hcan := b.canGet_eq p.topicName
  rcases hget : b.getOrCreateTopic p.topicName with ⟨_ | t, b₀⟩
  · -- There are too many topics.
    have hnone : (b.getOrCreateTopic p.topicName).1 = none := by rw [hget]
    obtain ⟨rfl, hb'⟩ := (getTopic_returns_none hnone).mp h
    rw [getOrCreateTopic_none hnone] at hb'
    subst hb'
    rw [hnone] at hcan
    have hfalse : b'.canGet p.topicName = false := hcan
    refine .inl ⟨by simp [accepts, hfalse], ⟨_, rfl⟩, ?_, fun _ _ => rfl, fun _ => rfl,
      fun _ _ => Subset.refl _, fun _ => rfl, rfl,
      Nat.le_refl _, ?_, .inl rfl⟩
    · rw [getOrCreateTopic_none hnone]
      exact .refl b'
    · simp [hfalse]
  · have hsome : (b.getOrCreateTopic p.topicName).1 = some t := by rw [hget]
    obtain ⟨topic, wildcards, hheap, hret⟩ := getTopic_returns now left hsome
    obtain ⟨topic', hf⟩ := found hget
    simp only [hget] at hret hheap
    obtain rfl : topic = topic' := some.inj (hheap.symm.trans hf.heap)
    have hcan : b.canGet p.topicName = true := by rw [hcan, hsome]; rfl
    rw [hret] at h
    cases hhook : b.hookError p with
    | some e =>
      rw [hhook] at h
      obtain ⟨rfl, rfl⟩ := h
      exact .inl ⟨by simp [accepts, hhook], ⟨e, rfl⟩,
        hf.refused (.refl _) rfl (fun _ => rfl) (fun _ => rfl) rfl rfl rfl (.inl rfl)⟩
    | none =>
      rw [hhook] at h
      dsimp only at h
      generalize hm : p.message (b.env.newUUID b.uuids) topic.retention now = m at h
      obtain ⟨err, b₁, hs, hcase⟩ := store_inv h
      obtain ⟨t₀, ht₀, herr⟩ := store_isOpen hs
      obtain rfl : topic = t₀ := some.inj (hheap.symm.trans (lock_eq_some.mp ht₀).1)
      rw [show (b₀.issue p).limits = b.limits from hf.limits, ← hf.isOpen] at herr
      obtain ⟨e, rfl, rfl, rfl⟩ | ⟨rfl, -⟩ | ⟨rfl, -⟩ := hcase
      · have hclosed : b.isOpen p.topicName = false := by simpa using herr
        have hb₁ : b' = b₀.issue p ∨ b' = (b₀.issue p).log p.topicName (.put m) := by
          obtain ⟨-, -, ⟨-, hb₁⟩ | ⟨-, -, -, hb₁⟩⟩ := store_eq_error hs
          · exact .inl hb₁
          · rw [hb₁]
            split
            · exact .inl rfl
            · exact .inr rfl
        refine .inl ⟨by simp [accepts, hclosed], ⟨e, rfl⟩, ?_⟩
        rcases hb₁ with rfl | rfl
        · exact hf.refused (.refl _) rfl (fun _ => rfl) (fun _ => rfl) rfl rfl rfl (.inl rfl)
        · exact hf.refused ⟨rfl, rfl, rfl, rfl, rfl, rfl, rfl⟩ rfl (fun _ => rfl) (fun _ => rfl) rfl rfl rfl
            (.inr ⟨m, by rw [← hm]; rfl, rfl⟩)
      all_goals
        obtain ⟨rfl, hcalm, hslot, hpushed⟩ := stored_returns hs h
        exact .inr ⟨by simp [accepts, hcan, hhook, herr.mp rfl], t, m, rfl,
          hf.admitted hm.symm hs hcalm hslot hpushed⟩

/-- A publish that succeeds has stored its message, and starts a timer or
pushes it. -/
theorem getTopic_stored (h : Returns now b ⟨.publish left p .getTopic, []⟩ (.published (.ok m)) b') :
    ∃ t wildcards b₁, b.Admitted now b' p t m ∧
      ((b.getOrCreateTopic p.topicName).2.issue p).store t p.topicName (.ofString p.priority) p.isBroadcast m =
        some (none, b₁) ∧ (m.delayed now = true ∧ (∃ g, b' = b₁.go g) ∨ m.delayed now = false ∧
        Returns now b₁ ⟨.push ⟨t, m, wildcards, p.isBroadcast⟩ .spies, []⟩ (.published (.ok m)) b') := by
  obtain ⟨-, ⟨e, he⟩, -⟩ | ⟨-, t, m', he, had⟩ := getTopic_cases h
  · cases he
  cases he
  obtain ⟨topic, wildcards, -, hret⟩ := getTopic_returns now left had.topic
  rw [hret] at h
  cases hhook : b.hookError p with
  | some e => rw [hhook] at h; cases h.1
  | none =>
    rw [hhook] at h
    dsimp only at h
    rw [← (store_returns_ok h).1] at h
    obtain ⟨err, b₁, hs, ⟨e, -, he, -⟩ | ⟨rfl, hd, -, hg⟩ | ⟨rfl, hd, hpush⟩⟩ := store_inv h
    · cases he
    · exact ⟨t, wildcards, b₁, had, hs, .inl ⟨hd, hg⟩⟩
    · exact ⟨t, wildcards, b₁, had, hs, .inr ⟨hd, hpush⟩⟩

/-- A publish to one name, the groups bound to it left aside. -/
inductive Tries (now : Time) (p : PublishArgs) (b : Broker) : Ret → Broker → Prop
  | badName {e} : nameError p.topicName = some e → Tries now p b (.published (.error e)) b
  | goes {left : Nat} {r : Ret} {b' : Broker} : nameError p.topicName = none →
      Returns now b ⟨.publish left p .getTopic, []⟩ r b' → Tries now p b r b'

theorem tries_of_enter (hgroup : Text.contains p.topicName (ascii "::") = true)
    (h : Returns now b ⟨.publish (left + 1) p .enter, []⟩ r b') : Tries now p b r b' := by
  cases hname : nameError p.topicName with
  | some e =>
    obtain ⟨rfl, rfl⟩ := (enter_invalid hname).mp h
    exact .badName hname
  | none => exact .goes hname ((enter_group hname hgroup).mp h)

/-- **What a publish to one name does**: it fails on its name and nothing
changes, or it goes as in `getTopic_cases`. -/
theorem tries_cases (h : Tries now p b r b') : (∃ e, r = .published (.error e)) ∧
        ((nameError p.topicName).isSome = true ∧ b' = b ∨
          (nameError p.topicName).isSome = false ∧ b.accepts p = false ∧ b.Refused b' p) ∨
      (nameError p.topicName).isSome = false ∧ b.accepts p = true ∧ ∃ t m, r = .published (.ok m) ∧
        b.Admitted now b' p t m := by
  cases h with
  | badName hname => exact .inl ⟨⟨_, rfl⟩, .inl ⟨by simp [hname], rfl⟩⟩
  | goes hname h =>
    rcases getTopic_cases h with ⟨hacc, he, href⟩ | ⟨hacc, had⟩
    · exact .inl ⟨he, .inr ⟨by simp [hname], hacc, href⟩⟩
    · exact .inr ⟨by simp [hname], hacc, had⟩

end Publish

end TinyMQ
