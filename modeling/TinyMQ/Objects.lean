/-
What holds of topic objects in every run: how long their queues get, and
what still happens to one that was deleted.

`Publish` checks the capacity and the flag `Deleted` under the lock of the
topic; `Requeue`, `Consume` and `AddSpy` do not. `bounded_queues` and
`deleted_dead` say what their sections must find.
-/
import TinyMQ.Aims

namespace TinyMQ

open List Option Broker AList

/-- The sections of `Publish`, `Requeue`, `Consume` and `AddSpy` that work on
a topic object, with the name they were called with. A `Consume` of a
pattern first looks at the topics that match it. -/
inductive Section.At : Section → TopicRef → Option GoString → Prop
  | store {left p r ws m isDelayed} : At (.call (.publish left p (.store r ws m isDelayed))) r (some p.topicName)
  | requeue {r m} : At (.call (.requeueAt r m)) r (some m.topic)
  | scan {q t r rest} : At (.call (.consume q (.scan t (r :: rest)))) r none
  | target {q r} : At (.call (.consume q (.target r))) r (some q.topicName)
  | addSpy {r n} : At (.method (.addSpyAt r n)) r (some n)

namespace Broker

/-- The object is the topic its name leads to. -/
def isListed (b : Broker) (r : TopicRef) : Bool := b.heap[r]?.any fun t => b.topics.lookup t.name = some r

def isDeleted (b : Broker) (r : TopicRef) : Bool := b.heap[r]?.any Topic.deleted

/-- The first consumer that waits at `r` has room for the message. -/
def waiterTakes (b : Broker) (r : TopicRef) (m : Message) : Bool :=
  ((b.waiting r).head?.bind fun ch => b.trySend ch m).isSome

/-- `Consume` finds nothing to take out of `r`. -/
def nothingReady (b : Broker) (r : TopicRef) (limit : Nat) (now : Time) : Bool :=
  b.heap[r]?.all fun t => (t.extractMessages limit now).2.2 = t

/-- No topic holds more than `maxMessages`. -/
def Bounded (b : Broker) : Prop := ∀ n r, b.topics.lookup n = some r → (b.queued r).length ≤ b.limits.maxMessages

/-- A topic object that was not deleted is the one its name leads to, and no
other is. -/
def Listed (b : Broker) : Prop := ∀ r t, b.heap[r]? = some t → (t.deleted = false ↔ b.topics.lookup t.name = some r)

/-- Messages, consumers and spies come to a topic object only while its name
leads to it. -/
def OnlyLive (b b' : Broker) : Prop := ∀ r t t', b.heap[r]? = some t → b'.heap[r]? = some t' →
  t.Shrinks t' ∨ t.deleted = false ∧ b.topics.lookup t.name = some r

/-- Nothing is added to a topic object that was deleted, and it stays so. -/
def StaysDead (b b' : Broker) : Prop := ∀ (r : TopicRef) (t : Topic), b.heap[r]? = some t → t.deleted = true →
  ∃ t', b'.heap[r]? = some t' ∧ t.Shrinks t'

variable {b b' : Broker} {r : TopicRef} {t t' : Topic} {m : Message}

theorem eq_of_heap_setTopic (ht : b.lock r = some t) (hname : t'.name = t.name) (hb : b'.heap = b.heap)
    (h : (b'.setTopic r t').heap = b.heap) : t' = t := by
  have hget := congrArg (·[r]?) h
  have hlock : b'.lock r = some t := by rwa [lock, hb]
  simpa [getElem?_setTopic hlock hname, (lock_eq_some.mp ht).1] using hget

theorem requeueTo_heap {ch} (h : b.requeueTo r m = some (ch, b')) : ∃ t, b.lock r = some t ∧ b'.heap ≠ b.heap := by
  obtain ⟨t, ht, h⟩ := map_eq_some_iff.mp h
  refine ⟨t, ht, fun hsame => ?_⟩
  have happend : ∀ t₁ : Topic, t₁.queued = t.queued → t₁.append .normal m ≠ t := fun t₁ hq he => by
    have hlength := (t₁.queued_append .normal m).length_eq
    rw [he, length_cons, hq] at hlength
    omega
  split at h
  · cases h
    exact happend t rfl (eq_of_heap_setTopic ht rfl rfl hsame)
  next ch chs hw =>
    dsimp only at h
    split at h
    next b₁ hsent =>
      cases h
      obtain ⟨-, rfl⟩ := trySend_eq_some hsent
      have hwaiting := congrArg Topic.waitingConsumers (eq_of_heap_setTopic ht (by rfl) rfl hsame)
      rw [hw] at hwaiting
      simp at hwaiting
    · cases h
      exact happend { t with waitingConsumers := chs } rfl (eq_of_heap_setTopic ht rfl rfl hsame)

theorem extractTarget_heap {limit now ch x} (h : b.extractTarget r limit now ch = some (x, b')) :
    ∃ t, b.lock r = some t ∧ b'.heap ≠ b.heap := by
  obtain ⟨results, ids, name⟩ := x
  obtain ⟨t, t₁, ht, hx, -, rfl⟩ := extractTarget_eq_some h
  refine ⟨t, ht, fun hsame => ?_⟩
  obtain ⟨hname, -, hw, -⟩ := Topic.fields_of_emptied (Topic.emptied_extractMessages hx)
  cases results with
  | nil =>
    have hwaits : { t₁ with waitingConsumers := t₁.waitingConsumers ++ [ch] } = t :=
      eq_of_heap_setTopic ht hname rfl hsame
    have hwaiting := congrArg Topic.waitingConsumers hwaits
    simp [hw] at hwaiting
  | cons m ms =>
    obtain rfl : t₁ = t := eq_of_heap_setTopic ht hname rfl hsame
    obtain ⟨-, gone, -, -, -, hperm⟩ := Topic.extractMessages_spec hx
    have hlength := hperm.length_eq
    simp at hlength
    omega

theorem waiterTakes_eq_false (h : b.heap[r]? = some t) :
    b.waiterTakes r m = false ↔ ∀ ch, t.waitingConsumers.head? = some ch → b.trySend ch m = none := by
  rw [waiterTakes, waiting_of_getElem? h]
  cases t.waitingConsumers with
  | nil | cons ch chs => simp

theorem isDeleted_of_getElem? (h : b.heap[r]? = some t) : b.isDeleted r = t.deleted := by
  simp [isDeleted, h]

theorem Listed.step {P : TopicRef → Topic → Topic → Prop} (hl : b.Listed) (h : b.HeapStep b' P)
    (hP : ∀ r t t', P r t t' → t'.name = t.name ∧ t'.deleted = t.deleted) : b'.Listed := by
  -- One object changes, and its name and its flag do not.
  have hmove : ∀ {r₀ : TopicRef} {t₀ t₁ : Topic}, b.lock r₀ = some t₀ → P r₀ t₀ t₁ →
      (∀ r', b'.heap[r']? = if r' = r₀ then some t₁ else b.heap[r']?) → b'.topics = b.topics → b'.Listed := by
    intro r₀ t₀ t₁ hlock hp hheap htopics r t' ht'
    rw [hheap] at ht'
    rw [htopics]
    split at ht'
    next hr =>
      cases ht'
      obtain ⟨hname, hdel⟩ := hP _ _ _ hp
      rw [hname, hdel, hr]
      exact hl _ _ (lock_eq_some.mp hlock).1
    · exact hl r t' ht'
  cases h with
  | same hheap hreg =>
    intro r t' ht'
    rw [show b'.topics = b.topics from congrArg Registry.topics hreg]
    exact hl r t' (hheap ▸ ht')
  | @create name policy retention hnone hheap hreg =>
    intro r t' ht'
    rw [show b'.topics = _ from congrArg Registry.topics hreg, registry, lookup_addTopic]
    rw [hheap, getElem?_append] at ht'
    split at ht'
    next hlt =>
      have hold := hl r t' ht'
      split
      next hname =>
        rw [show t'.name = name from hname, hnone] at hold
        have hne : b.heap.length ≠ r := Nat.ne_of_gt hlt
        simpa [hne] using hold
      · exact hold
    next hge =>
      have hzero : r - b.heap.length = 0 := Nat.lt_one_iff.mp (List.getElem?_eq_some_iff.mp ht').1
      have hr : r = b.heap.length := Nat.le_antisymm (Nat.sub_eq_zero_iff_le.mp hzero) (Nat.not_lt.mp hge)
      rw [hzero] at ht'
      cases ht'
      rw [if_pos rfl, hr]
      exact iff_of_true rfl rfl
  | move hlock hp hheap hreg | spy hlock hp hheap hreg =>
    exact hmove hlock hp hheap (congrArg Registry.topics hreg)
  | @delete n r₀ t₀ hn hlock hheap hreg =>
    intro r t' ht'
    rw [show b'.topics = b.topics.erase n from congrArg Registry.topics hreg]
    obtain ⟨t₁, ht₁, hname⟩ := b.topics_ok hn
    rw [(lock_eq_some.mp hlock).1] at ht₁
    cases ht₁
    subst hname
    rw [hheap] at ht'
    split at ht'
    · cases ht'
      simp [lookup_erase]
    next hr =>
      have hold := hl r t' ht'
      by_cases hname : t'.name = t₀.name
      · rw [hname, hn] at hold
        have hne : r₀ ≠ r := fun h => hr h.symm
        rw [hname, lookup_erase]
        simpa [hne] using hold
      · rwa [lookup_erase_ne hname]

end Broker

namespace World

variable {w w' : World} {l : WorldLabel} {now limits policy hooked storage env chans}

/-! ## The length of the queues -/

/-- What a step must find: a `Requeue` at a topic that is full has a waiting
consumer that takes the message. -/
def Fits (w : World) (l : WorldLabel) : Prop :=
  match w.sectionOf l with
  | some (.call (.requeueAt r m)) => w.broker.isListed r = true →
      (w.broker.queued r).length < w.broker.limits.maxMessages ∨ w.broker.waiterTakes r m = true
  | _ => True

instance (w : World) (l : WorldLabel) : Decidable (w.Fits l) := by
  unfold Fits
  split <;> infer_instance

theorem bounded_step (hb : w.broker.Bounded) (hok : w.Fits l) (hs : w.step l = some w') : w'.broker.Bounded := by
  have hheap := step_heap hs
  intro n r hn
  obtain ⟨t', ht', -⟩ := w'.broker.topics_ok hn
  rw [queued_of_getElem? ht', hheap.limits]
  rcases hheap.lookup hn with hold | rfl
  · obtain ⟨t, ht, rfl⟩ := w.broker.topics_ok hold
    have hlen := hb t.name r hold
    rw [queued_of_getElem? ht] at hlen
    obtain ⟨t₁, ht₁, hcase⟩ := hheap.object ht
    cases ht'.symm.trans ht₁
    rcases hcase with rfl | ⟨-, sec, hsec, hmove⟩ | ⟨rfl, -⟩
    · exact hlen
    · rcases hmove.shrinks_or with hshrink | hadd
      · exact Nat.le_trans hshrink.queued.length_le hlen
      · cases hadd with
        | store hdel hmax hsub hw hsp =>
          rcases hmax with hmax | hmax
          · exact hmax
          · exact Nat.le_trans hmax hlen
        | @requeue _ m hnone hperm hw hsp =>
          have hlisted : w.broker.isListed r = true := by simp [isListed, ht, hold]
          rw [Fits, hsec] at hok
          rcases hok hlisted with hlt | htakes
          · rw [queued_of_getElem? ht] at hlt
            rw [hperm.length_eq, length_cons]
            omega
          · rw [(waiterTakes_eq_false ht).mpr hnone] at htakes
            cases htakes
        | register hnone hsub hw hsp => exact Nat.le_trans hsub.length_le hlen
        | spy heq => subst heq; exact hlen
    · exact hlen
  · -- A new topic has no messages.
    rcases hheap.origin ht' with ⟨t, ht⟩ | ⟨-, name, policy, retention, rfl⟩
    · exact absurd (List.getElem?_eq_some_iff.mp ht).1 (Nat.lt_irrefl _)
    · exact Nat.zero_le _

theorem requeue_appends {r m} (hs : w.step l = some w')
    (hsec : w.sectionOf l = some (.call (.requeueAt r m))) (hnone : w.broker.waiterTakes r m = false) :
    w'.broker.registry = w.broker.registry ∧
      ∃ t t', w.broker.heap[r]? = some t ∧ w'.broker.heap[r]? = some t' ∧ t'.queued.Perm (m :: t.queued) := by
  obtain ⟨o, ho, hbroker⟩ := step_call hs hsec
  obtain ⟨⟨ch, b'⟩, hb, rfl⟩ := map_eq_some_iff.mp ho
  obtain ⟨t, ht, hb⟩ := map_eq_some_iff.mp hb
  have hget : w.broker.heap[r]? = some t := (lock_eq_some.mp ht).1
  rw [hbroker]
  have happend : ∀ t₁ : Topic, t₁.name = t.name → t₁.queued = t.queued →
    (w.broker.setTopic r (t₁.append .normal m)).registry =
      w.broker.registry ∧ ∃ t t', w.broker.heap[r]? = some t ∧
        (w.broker.setTopic r (t₁.append .normal m)).heap[r]? = some t' ∧ t'.queued.Perm (m :: t.queued) := by
    intro t₁ hname hq
    refine ⟨rfl, t, t₁.append .normal m, hget, ?_, hq ▸ t₁.queued_append .normal m⟩
    have hname' : (t₁.append .normal m).name = t.name := hname
    rw [getElem?_setTopic ht hname', if_pos rfl]
  split at hb
  · cases hb
    exact happend t rfl rfl
  next ch chs hw =>
    dsimp only at hb
    split at hb
    next b₁ hsent =>
      have hmissed := (waiterTakes_eq_false hget).mp hnone ch (by rw [hw]; rfl)
      cases hmissed.symm.trans hsent
    · cases hb
      exact happend { t with waitingConsumers := chs } rfl rfl

/-- **Bounded queues**: in every run of any methods whose steps meet the
condition no topic holds more than `maxMessages`, and the first step that
does not meet it leaves one that does. -/
theorem bounded_queues (hrun : Lts.Run step Fits (init now (.new limits policy hooked storage env chans)) w) :
    w.broker.Bounded ∧ ∀ l w', w.step l = some w' → (w'.broker.Bounded ↔ w.Fits l) := by
  have hb : w.broker.Bounded := by
    refine hrun.invariant (I := fun w => w.broker.Bounded) (fun _ _ _ => bounded_step) fun n r hn => ?_
    simp [init, broker, Sys.init, new] at hn
  refine ⟨hb, fun l w' hs => ⟨fun hb' => ?_, fun hok => bounded_step hb hok hs⟩⟩
  by_contra hbad
  unfold Fits at hbad
  split at hbad
  next r m hsec =>
    obtain ⟨hlisted, hbad⟩ := Classical.not_imp.mp hbad
    obtain ⟨hfull, hnone⟩ := not_or.mp hbad
    obtain ⟨hreg, t, t', ht, ht', hperm⟩ := requeue_appends hs hsec (by simpa using hnone)
    have hlookup : w.broker.topics.lookup t.name = some r := by simpa [isListed, ht] using hlisted
    have hlookup' : w'.broker.topics.lookup t.name = some r := by
      rw [show w'.broker.topics = _ from congrArg Registry.topics hreg]
      exact hlookup
    have hlen := hb' t.name r hlookup'
    rw [queued_of_getElem? ht', hperm.length_eq, length_cons,
      show w'.broker.limits = _ from congrArg Registry.limits hreg] at hlen
    rw [queued_of_getElem? ht] at hfull
    exact hfull hlen
  · exact hbad trivial

/-- Goroutine 0 publishes a message and 1 consumes it, 2 publishes another
one, and 3 requeues the first. -/
def consumeThenRequeue : List WorldLabel :=
  WorldLabel.call 0 (.publish samplePublish) 11 ++ WorldLabel.call 1 (.consume ⟨ascii "t", 1, 1⟩) 5 ++
    WorldLabel.call 2 (.publish samplePublish) 11 ++ WorldLabel.call 3 (.requeue firstMessage) 3

def narrowBroker : Broker :=
  .new ⟨1, 10, Nat.one_pos, Limits.ten_pos⟩ .reject false (some .sample) .sample fun _ => ⟨1, []⟩

theorem requeue_overfills : ∃ w, Lts.Run step (fun _ _ => True) (init 0 narrowBroker) w ∧
    w.broker.topics.lookup (ascii "t") = some 0 ∧ (w.broker.queued 0).length = 2 ∧ w.broker.limits.maxMessages = 1 :=
  ⟨_, Lts.Run.of_exec_get consumeThenRequeue (by decide +kernel) (by decide +kernel),
    by decide +kernel, by decide +kernel, by decide +kernel⟩

theorem bounded_queues_sample : ∃ w, Lts.Run step Fits (init 0 .sample) w ∧ w.broker.Bounded ∧
    (w.broker.queued 0).length = 2 :=
  have hrun : Lts.Run step Fits (init 0 .sample) _ :=
    Lts.Run.of_exec_get consumeThenRequeue (by decide +kernel) (by decide +kernel)
  ⟨_, hrun, (bounded_queues hrun).1, by decide +kernel⟩

/-! ## Deleted topics -/

/-- What a step must find: `Requeue`, `Consume` and `AddSpy` are at a topic
that was not deleted, or `Consume` finds nothing in one that matches its
pattern. -/
def ActsLive (w : World) (l : WorldLabel) : Prop :=
  match w.sectionOf l with
  | some (.call (.requeueAt r _)) => w.broker.isDeleted r = false
  | some (.call (.consume q (.scan _ (r :: _)))) =>
      w.broker.isDeleted r = false ∨ w.broker.nothingReady r q.limit w.now = true
  | some (.call (.consume _ (.target r))) => w.broker.isDeleted r = false
  | some (.method (.addSpyAt r _)) => w.broker.isDeleted r = false
  | _ => True

instance (w : World) (l : WorldLabel) : Decidable (w.ActsLive l) := by
  unfold ActsLive
  split <;> infer_instance

/-- A call takes effect on a live topic, which its name leads to, or it
leaves every topic as it is. -/
def TakesEffect (w w' : World) (l : WorldLabel) : Prop :=
  ∀ sec r name, w.sectionOf l = some sec → sec.At r name → w'.broker.heap = w.broker.heap ∨
    w.broker.isDeleted r = false ∧ w.broker.isListed r = true ∧ ∀ n ∈ name, w.broker.topics.lookup n = some r

theorem listed_step (hl : w.broker.Listed) (hs : w.step l = some w') : w'.broker.Listed :=
  hl.step (step_heap hs) fun _ _ _ ⟨_, _, hmove⟩ => hmove.static

theorem onlyLive_step (hl : w.broker.Listed) (hok : w.ActsLive l) (hs : w.step l = some w') :
    w.broker.OnlyLive w'.broker := by
  intro r t t' ht ht'
  have hlive : t.deleted = false → t.Shrinks t' ∨ t.deleted = false ∧
    w.broker.topics.lookup t.name = some r :=
    fun hdel => .inr ⟨hdel, (hl r t ht).mp hdel⟩
  have hdel := isDeleted_of_getElem? ht
  obtain ⟨t₁, ht₁, hcase⟩ := (step_heap hs).object ht
  cases ht'.symm.trans ht₁
  rcases hcase with rfl | ⟨-, sec, hsec, hmove⟩ | ⟨rfl, -⟩
  · exact .inl (.refl _)
  · rcases hmove.shrinks_or with hshrink | hadd
    · exact .inl hshrink
    · rw [ActsLive, hsec] at hok
      cases hadd with
      | store hnot hmax hsub hw hsp => exact hlive hnot
      | requeue hnone hperm hw hsp | register hnone hsub hw hsp | spy heq => exact hlive (hdel ▸ hok)
  · exact .inl ⟨.refl _, .refl _, .refl _, fun _ => rfl⟩

theorem staysDead_step (hl : w.broker.Listed) (hok : w.ActsLive l) (hs : w.step l = some w') :
    w.broker.StaysDead w'.broker := by
  intro r t ht hdel
  obtain ⟨t', ht', -⟩ := (step_heap hs).object ht
  rcases onlyLive_step hl hok hs r t t' ht ht' with hshrink | ⟨hnot, -⟩
  · exact ⟨t', ht', hshrink⟩
  · cases hdel.symm.trans hnot

/-- What a call finds at the object it works on: `publishCore` fails if it
was deleted, and the others change it. -/
theorem at_step {sec r name} (hs : w.step l = some w') (hsec : w.sectionOf l = some sec) (hat : sec.At r name) :
    (∃ t, w.broker.heap[r]? = some t) ∧
      (w.broker.isDeleted r = true → (w.ActsLive l ↔ w'.broker.heap = w.broker.heap)) := by
  have hfound : ∀ {t}, w.broker.lock r = some t → ∃ t, w.broker.heap[r]? = some t :=
    fun ht => ⟨_, (lock_eq_some.mp ht).1⟩
  rw [ActsLive, hsec]
  cases hat with
  | store =>
    obtain ⟨o, ho, hbroker⟩ := step_call hs hsec
    rw [Pc.step] at ho
    have hfails : ∀ {n priority isBroadcast m err b'}, w.broker.store r n priority isBroadcast m = some (err, b') →
        (∃ t, w.broker.heap[r]? = some t) ∧ (w.broker.isDeleted r = true → b' = w.broker ∧ err.isSome) := by
      intro n priority isBroadcast m err b' hb
      obtain ⟨t, ht, hcase⟩ := store_cases hb
      refine ⟨hfound ht, fun hdel => ?_⟩
      rw [isDeleted_of_getElem? (lock_eq_some.mp ht).1] at hdel
      cases hcase with
      | deleted => exact ⟨rfl, rfl⟩
      | refused hnot | evicted hnot | kept hnot => cases hdel.symm.trans hnot
    rw [hbroker]
    cases PublishPc.steps ho with
    | failed hb => exact ⟨(hfails hb).1, fun hdel => iff_of_true trivial (congrArg heap ((hfails hb).2 hdel).1)⟩
    | delayed hb | stored hb => exact ⟨(hfails hb).1, fun hdel => by cases ((hfails hb).2 hdel).2⟩
  | requeue =>
    obtain ⟨o, ho, hbroker⟩ := step_call hs hsec
    obtain ⟨⟨ch, b'⟩, hb, rfl⟩ := map_eq_some_iff.mp ho
    rw [hbroker]
    obtain ⟨t, ht, hne⟩ := requeueTo_heap hb
    exact ⟨hfound ht, fun hdel => iff_of_false (by simp [hdel]) hne⟩
  | scan =>
    obtain ⟨o, ho, hbroker⟩ := step_call hs hsec
    obtain ⟨⟨⟨results, ids, name⟩, b'⟩, hb, rfl⟩ := map_eq_some_iff.mp ho
    obtain ⟨t, t₁, ht, hx, -, rfl⟩ := extractMatching_eq_some hb
    rw [hbroker]
    have hget := (lock_eq_some.mp ht).1
    have hname := (Topic.fields_of_emptied (Topic.emptied_extractMessages hx)).1
    refine ⟨hfound ht, fun hdel => ?_⟩
    simp only [hdel, Bool.true_eq_false, false_or, nothingReady, hget, Option.all_some, hx, decide_eq_true_eq]
    exact ⟨fun hsame => heap_setTopic_self (hsame ▸ ht), eq_of_heap_setTopic ht hname rfl⟩
  | target =>
    obtain ⟨o, ho, hbroker⟩ := step_call hs hsec
    obtain ⟨⟨⟨results, ids, name⟩, b'⟩, hb, rfl⟩ := map_eq_some_iff.mp ho
    rw [hbroker]
    obtain ⟨t, ht, hne⟩ := extractTarget_heap hb
    exact ⟨hfound ht, fun hdel => iff_of_false (by simp [hdel]) hne⟩
  | addSpy =>
    obtain ⟨ret, o, ho, hbroker⟩ := step_method hs hsec
    obtain ⟨⟨ch, b'⟩, hb, rfl⟩ := map_eq_some_iff.mp ho
    obtain ⟨t, ht, hb⟩ := map_eq_some_iff.mp hb
    cases hb
    rw [hbroker]
    refine ⟨hfound ht, fun hdel => iff_of_false (by simp [hdel]) fun hsame => ?_⟩
    have hspies := congrArg Topic.spies (eq_of_heap_setTopic ht (by rfl) rfl hsame)
    simp at hspies

theorem Aims.nameOf_at (h : w.Aims) (hsec : w.sectionOf l = some sec) (hat : sec.At r name) :
    ∀ n ∈ name, w.broker.nameOf r = some n := by
  intro n hn
  cases hat with
  | store | requeue | target =>
    cases hn
    obtain ⟨i, c, -, hc, hpc⟩ := sectionOf_call hsec
    have haimed := h.at (show w.pcAt i = some c.pc by simp [pcAt, hc])
    rw [hpc] at haimed
    first
    | exact haimed
    | exact haimed.1 ▸ haimed.2.own
  | scan => cases hn
  | addSpy =>
    cases hn
    obtain ⟨i, -, hpc⟩ := sectionOf_method hsec
    exact h.methods hpc

/-- **A call takes effect on a live topic or fails**, exactly if it meets the
condition. -/
theorem takesEffect_iff (hl : w.broker.Listed) (ha : w.Aims) (hs : w.step l = some w') :
    w.TakesEffect w' l ↔ w.ActsLive l := by
  constructor
  · intro heffect
    by_contra hno
    obtain ⟨sec, r, name, hsec, hat⟩ : ∃ sec r name, w.sectionOf l = some sec ∧ Section.At sec r name := by
      unfold ActsLive at hno
      split at hno
      next hsec => exact ⟨_, _, _, hsec, .requeue⟩
      next hsec => exact ⟨_, _, _, hsec, .scan⟩
      next hsec => exact ⟨_, _, _, hsec, .target⟩
      next hsec => exact ⟨_, _, _, hsec, .addSpy⟩
      next => exact absurd trivial hno
    have hdel : w.broker.isDeleted r = true := by
      by_contra hlive
      rw [Bool.not_eq_true] at hlive
      refine hno ?_
      rw [ActsLive, hsec]
      cases hat with
      | store => trivial
      | scan => exact .inl hlive
      | _ => exact hlive
    rcases heffect sec r name hsec hat with hsame | ⟨hlive, -⟩
    · exact hno (((at_step hs hsec hat).2 hdel).mpr hsame)
    · rw [hdel] at hlive
      cases hlive
  · intro hok sec r name hsec hat
    obtain ⟨⟨t, ht⟩, hdead⟩ := at_step hs hsec hat
    by_cases hdel : w.broker.isDeleted r = true
    · exact .inl ((hdead hdel).mp hok)
    · rw [isDeleted_of_getElem? ht, Bool.not_eq_true] at hdel
      have hlookup := (hl r t ht).mp hdel
      refine .inr ⟨by rw [isDeleted_of_getElem? ht, hdel], by simp [isListed, ht, hlookup], fun n hn => ?_⟩
      have hname := ha.nameOf_at hsec hat n hn
      rw [nameOf, ht, map_some, some.injEq] at hname
      rw [← hname, hlookup]

/-- **Deleted topics are dead**: in every run of any methods whose steps meet
the condition, nothing comes to a topic object after it was deleted. A step
meets it exactly if what comes to an object comes while its name leads to it
and the call takes effect on a live topic of its name or fails. -/
theorem deleted_dead (hrun : Lts.Run step ActsLive (init now (.new limits policy hooked storage env chans)) w) :
    (∀ w', Lts.Run step ActsLive w w' → w.broker.StaysDead w'.broker) ∧
      ∀ l w', w.step l = some w' → (w.broker.OnlyLive w'.broker ∧ w.TakesEffect w' l ↔ w.ActsLive l) := by
  have hl : w.broker.Listed := by
    refine hrun.invariant (I := fun w => w.broker.Listed) (fun _ _ _ hl _ => listed_step hl) fun r t ht => ?_
    cases ht
  refine ⟨fun w' hrun' => ?_, fun l w' hs => ?_⟩
  · refine (hrun'.invariant (I := fun w' => w'.broker.Listed ∧ w.broker.StaysDead w'.broker) ?_
      ⟨hl, fun r t ht _ => ⟨t, ht, .refl t⟩⟩).2
    rintro w₁ l w₂ ⟨hl₁, hdead⟩ hok hs
    refine ⟨listed_step hl₁ hs, fun r t ht hdel => ?_⟩
    obtain ⟨t₁, ht₁, hshrink₁⟩ := hdead r t ht hdel
    obtain ⟨t₂, ht₂, hshrink₂⟩ := staysDead_step hl₁ hok hs r t₁ ht₁ (hshrink₁.deleted hdel)
    exact ⟨t₂, ht₂, hshrink₁.trans hshrink₂⟩
  · rw [takesEffect_iff hl (aims_of_run hrun) hs]
    exact ⟨fun h => h.2, fun hok => ⟨onlyLive_step hl hok hs, hok⟩⟩

/-- Goroutine 0 publishes a message and 1 consumes it; 2 requeues it, and
the topic is deleted when it has found it. -/
def deleteDuringRequeue : List WorldLabel :=
  WorldLabel.call 0 (.publish samplePublish) 11 ++ WorldLabel.call 1 (.consume ⟨ascii "t", 1, 1⟩) 5 ++
    WorldLabel.call 2 (.requeue firstMessage) 2 ++ WorldLabel.method 3 (.deleteTopic (ascii "t") true) 2

/-- The requeued message goes to the topic that was deleted. -/
theorem requeue_after_delete : ∃ w w' t t', Lts.Run step (fun _ _ => True) (init 0 .sample) w ∧
    w.step (.sys (.run 2)) = some w' ∧ w.broker.heap[0]? = some t ∧ w'.broker.heap[0]? = some t' ∧
    t.deleted = true ∧ t.queued = [] ∧ t'.queued = [requeued firstMessage] ∧
      w'.broker.topics.lookup (ascii "t") = none :=
  ⟨_, _, _, _, Lts.Run.of_exec_get deleteDuringRequeue (by decide +kernel) (by decide +kernel),
    (some_get (by decide +kernel)).symm, (some_get (by decide +kernel)).symm,
    (some_get (by decide +kernel)).symm,
      by decide +kernel, by decide +kernel, by decide +kernel, by decide +kernel⟩

/-- A topic is deleted, and goroutine 4 publishes to a new one of its name. -/
def publishAfterDelete : List WorldLabel :=
  WorldLabel.call 0 (.publish samplePublish) 11 ++ WorldLabel.method 3 (.deleteTopic (ascii "t") true) 2 ++
    WorldLabel.call 4 (.publish samplePublish) 11

theorem deleted_dead_sample : ∃ w, Lts.Run step ActsLive (init 0 .sample) w ∧ w.broker.isDeleted 0 = true ∧
    w.broker.isListed 1 = true ∧ ∀ w', Lts.Run step ActsLive w w' → w.broker.StaysDead w'.broker :=
  have hrun : Lts.Run step ActsLive (init 0 .sample) _ :=
    Lts.Run.of_exec_get publishAfterDelete (by decide +kernel) (by decide +kernel)
  ⟨_, hrun, by decide +kernel, by decide +kernel, (deleted_dead hrun).1⟩

end World

end TinyMQ
