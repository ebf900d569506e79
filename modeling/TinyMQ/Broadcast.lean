/-
Broadcasts.

A broadcast should reach the consumers that wait and leave nothing behind.
`publishCore` keeps it out of the log, but it appends it to the queue of its
topic like any other message (`broadcast_queued`), where the next `Consume`
finds it. So a broadcast leaves no trace only where it is refused, and then
it reaches nobody (`broadcast_ephemeral_iff`).
-/
import TinyMQ.Rejection
import TinyMQ.Requeue
import TinyMQ.RingBuffer

namespace TinyMQ

open Broker Topic

/-- What a notify channel holds, and what a goroutine is about to send to it. -/
def Broker.incoming (b : Broker) (ch : Chan) : List Message :=
  (b.chans ch).buf ++ b.goroutines.flatMap fun
    | .broadcast channels m => (channels.filter (· = ch)).map fun _ => m
    | .timer _ _ => []

/-- The queues and the logs are as they were, every consumer that waited at
the topic or at a pattern that matches it gets the message once, and no
`Consume` returns it. -/
structure Broker.Ephemeral (b b' : Broker) (p : PublishArgs) : Prop where
  queues : ∀ topic, b'.queues topic = b.queues topic
  files : ∀ f, b'.file f = b.file f
  received : ∀ n r, b.topics.lookup n = some r → nameMatches n p.topicName = true → ∀ ch ∈ b.waiting r,
    ∃ m, m.payload = p.payload ∧ (b'.incoming ch).Perm (m :: b.incoming ch)
  consumed : ∀ {now q r c}, Returns now b' (Op.consume q).entry r c → ∀ m ∈ r.messages, ¬ b.Since b' m.id

/-- Where `pushFunc` is while it collects the consumers of a broadcast. -/
def PushPc.Casts : PushPc → Prop
  | .spies | .wildSpies _ | .takeWild _ _ | .takeOwn _ => True
  | _ => False

section Broadcast

variable {now : Time} {b b' : Broker} {p : PublishArgs} {r : Ret} {m : Message}

theorem Broker.queue_of_queues (h : b'.queues n = b.queues n) : b'.queue n = b.queue n := by
  have hqueue : ∀ c : Broker, c.queue n = (c.queues n).1 ++ (c.queues n).2.1 ++ (c.queues n).2.2 := by
    intro c
    rw [queue_eq, queues, topic?]
    cases (c.topics.lookup n).bind fun r => c.heap[r]? <;> rfl
  rw [hqueue, hqueue, h]

theorem push_cast {p : Push} (hcast : p.isBroadcast = true) (h : Returns now b ⟨.push p .spies, []⟩ r b') :
    b'.queued p.t = b.queued p.t := by
  have hshape : b'.heap[p.t]?.map shape = b.heap[p.t]?.map shape := by
    refine h.of_steps (Q := fun c => c.heap[p.t]?.map shape = b.heap[p.t]?.map shape)
      (I := fun c pc => c.heap[p.t]?.map shape = b.heap[p.t]?.map shape ∧ ∃ k, pc = .push p k ∧ k.Casts)
      ⟨rfl, .spies, rfl, trivial⟩ ?_
    rintro c _ o ⟨hsame, k, rfl, hk⟩ hs
    have hcalm : Calm (p.t + 1) c o.broker := PushPc.step_calm hs (by rintro rfl; exact hk.elim)
    replace hsame := (hcalm.others p.t (Nat.ne_of_lt (Nat.lt_succ_self _))).trans hsame
    cases PushPc.steps hs with
    | spies | wildSpy | takeWild | tookWild => exact .inl ⟨_, rfl, hsame, _, rfl, trivial⟩
    | spied => exact .inl ⟨_, rfl, hsame, _, rfl, by rw [if_pos hcast]; trivial⟩
    | takeOwn => exact .inr ⟨⟨_, rfl⟩, hsame⟩
    | _ => exact hk.elim
  simp only [queued_eq_slots, slot_of_shape hshape]

/-- **A broadcast that succeeds is in the queue.** -/
theorem broadcast_queued (hcast : p.isBroadcast = true)
    (h : Returns now b ⟨.publish left p .getTopic, []⟩ (.published (.ok m)) b') :
    m ∈ b'.queue p.topicName ∧ m.id = b.env.newUUID b.uuids := by
  obtain ⟨t, wildcards, b₁, had, hs, hcase⟩ := getTopic_stored h
  have hq := store_queued hs
  have hlookup : b'.topics.lookup p.topicName = some t := by
    have hlookup := had.lookup
    rwa [show m.topic = p.topicName by rw [had.message]; rfl] at hlookup
  refine ⟨?_, had.id⟩
  rw [queue, hlookup]
  show m ∈ b'.queued t
  obtain ⟨-, g, rfl⟩ | ⟨-, hpush⟩ := hcase
  · exact hq
  · rwa [push_cast hcast hpush]

theorem quiet_of_refused (hb : b.Unbound p.topicName) (hcast : p.isBroadcast = true)
    (h : Returns now b (Op.publish p).entry (.published (.error e)) b') :
    (∀ z, b'.zone [] z = b.zone [] z) ∧ ∀ ch, b'.incoming ch = b.incoming ch := by
  rcases broker_of_error hb h with rfl | ⟨b₁, ⟨u, a, n, rfl⟩, rfl | ⟨-, -, hnot, -⟩⟩
  · exact ⟨fun _ => rfl, fun _ => rfl⟩
  · have hquiet := b.quiet_getOrCreateTopic p.topicName []
    refine ⟨fun z => ?_, fun ch => ?_⟩
    · cases z with
      | queue r => exact hquiet.queued r
      | chan ch => exact congrArg (fun f : Chan → Channel => (f ch).buf) hquiet.chans
      | hand => rfl
    · simp only [incoming, hquiet.chans, hquiet.goroutines]
  · simp [hcast] at hnot

theorem consume_absent {q id} (hnone : ∀ z, ∀ m ∈ b.zone [] z, m.id ≠ id)
    (h : Returns now b (Op.consume q).entry r b') : ∀ m ∈ r.messages, m.id ≠ id := by
  have hzero : ∀ z, b.count [] id z = 0 := fun z => count_eq_zero.mpr (hnone z)
  obtain ⟨z, hle, hne⟩ := (consume_lone (n := 0) (Nat.zero_le 1) h
    ⟨⟨.hand, Nat.le_of_eq (hzero _), fun z _ => hzero z⟩, fun z m hm hid => absurd hid (hnone z m hm)⟩).place
  have hhand : b'.count r.messages id .hand = 0 := by
    by_cases hz : Zone.hand = z
    · rw [hz]
      exact Nat.le_zero.mp hle
    · exact hne _ hz
  exact count_eq_zero.mp hhand

/-- **When a broadcast is ephemeral**: it is refused, and nobody waits for it. -/
theorem broadcast_ephemeral_iff (hb : b.Unbound p.topicName) (hcast : p.isBroadcast = true) (hfresh : b.Fresh)
    (h : Returns now b (Op.publish p).entry r b') : b.Ephemeral b' p ↔
      (nameError p.topicName ≠ none ∨ b.accepts p = false) ∧ b.Unattended p.topicName := by
  have hcases : (∃ e, r = .published (.error e)) ∧ (nameError p.topicName ≠ none ∨ b.accepts p = false) ∨
      nameError p.topicName = none ∧ b.accepts p = true ∧ ∃ m, r = .published (.ok m) ∧
        m ∈ b'.queue p.topicName ∧ m.id = b.env.newUUID b.uuids := by
    cases hname : nameError p.topicName with
    | some e => exact .inl ⟨⟨e, ((enter_invalid hname).mp h).1⟩, .inl (by simp)⟩
    | none =>
      obtain ⟨ranges, henter⟩ := enter_returns now hb hname
      have hget := (henter r b').mp h
      obtain ⟨hacc, he, -⟩ | ⟨hacc, t, m, rfl, -⟩ := getTopic_cases hget
      · exact .inl ⟨he, .inr hacc⟩
      · have hqueued := broadcast_queued hcast hget
        exact .inr ⟨rfl, hacc, m, rfl, hqueued⟩
  obtain ⟨⟨e, rfl⟩, hrefused⟩ | ⟨hname, hacc, m, rfl, hm, hid⟩ := hcases
  · obtain ⟨hzone, hincoming⟩ := quiet_of_refused hb hcast h
    have hstill := untouched_of_error hb (fun hlogs => by simp [LogsRejected, hcast] at hlogs) h
    refine ⟨fun he => ⟨hrefused, fun n r hn hmatch => ?_⟩, fun hw => ⟨hstill.queues, hstill.files, ?_, ?_⟩⟩
    · refine List.eq_nil_iff_forall_not_mem.mpr fun ch hch => ?_
      obtain ⟨m, -, hperm⟩ := he.received n r hn hmatch ch hch
      have hlen := hperm.length_eq
      rw [hincoming, List.length_cons] at hlen
      omega
    · intro n r hn hmatch ch hch
      rw [hw.2 n r hn hmatch] at hch
      cases hch
    · rintro now' q r c hret m hm ⟨k, hk, -, hid⟩
      refine consume_absent (fun z x hx (hx' : x.id = m.id) => ?_) hret m hm rfl
      rw [hzone] at hx
      exact hfresh z x hx k hk (hid.trans hx'.symm)
  · refine ⟨fun he => ?_, fun hw => ?_⟩
    · rw [queue_of_queues (he.queues _), queue] at hm
      cases hl : b.topics.lookup p.topicName with
      | none => simp [hl] at hm
      | some t =>
        rw [hl] at hm
        exact absurd hid (hfresh.head t m hm)
    · rcases hw.1 with hn | hn
      · exact absurd hname hn
      · cases hacc.symm.trans hn

end Broadcast

/-- A broadcast to a topic that is full is refused and leaves nothing. -/
theorem broadcast_ephemeral_sample : ∃ b r b',
    Returns 0 b (Op.publish { groupPublish with isBroadcast := true }).entry r b' ∧ b.queue (ascii "t::g") ≠ [] ∧
      b.Ephemeral b' { groupPublish with isBroadcast := true } := by
  let b := (groupedBroker 1).after 0 (.publish groupPublish)
  obtain ⟨_, htrail, -⟩ := publish_admitted (groupedBroker_grouped _ _ _) (groupedBroker_fresh _ _)
    (returns_get 0 (groupedBroker 1) (.publish groupPublish))
  have hret := returns_get 0 b (.publish { groupPublish with isBroadcast := true })
  have hwaiting : ∀ t ∈ b.heap, t.waitingConsumers = [] := by decide +kernel
  refine
    ⟨b, _, _, hret, by decide +kernel, (broadcast_ephemeral_iff (.inr (by decide +kernel)) rfl htrail.fresh hret).mpr
    ⟨.inr (by decide +kernel), fun n r _ _ => ?_⟩⟩
  unfold waiting
  cases ht : b.heap[r]? with
  | none => rfl
  | some t => exact hwaiting t (List.mem_of_getElem? ht)

/-- A broadcast that nobody waits for is what the next `Consume` returns. -/
theorem broadcast_returned : ∃ m b' c,
    Returns 0 (emptyBroker 10) (Op.publish { samplePublish with isBroadcast := true }).entry
      (.published (.ok m)) b' ∧ b'.queue (ascii "t") = [m] ∧
      Returns 0 b' (Op.consume ⟨ascii "t", 1, 0⟩).entry (.consumed (some [m])) c := by
  exact ⟨firstMessage, _, _, returns_after, by decide +kernel, returns_after⟩

end TinyMQ
