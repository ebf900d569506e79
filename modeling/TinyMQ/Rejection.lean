/-
A publish that is rejected: what is left of it.

Of the errors of `publishCore`, all but one are returned before anything is
written. The exception is a full topic with the policy `reject`: its put
record is written first (`rejected_untouched_iff`).
-/
import TinyMQ.Sequential

namespace TinyMQ

open Option Broker LogStore

namespace LogStore

/-- Nothing comes back from logs that have the records they had. A file that
is new and empty may hide one with the legacy name. -/
theorem mem_recovered_of_file {s s' : LogStore} (hexist : ∀ f, f ∈ s.files → f ∈ s'.files)
    (hfile : ∀ f, s'.file f = s.file f) (hm : m ∈ s'.recovered topic) : m ∈ s.recovered topic := by
  by_cases hsafe : isSafePath topic = none
  · rw [recovered_of_safe hsafe] at hm ⊢
    rw [source_eq, hfile, hfile] at hm
    rw [source_eq]
    by_cases hown : logFilename topic ∈ s.files
    · rw [if_pos (hexist _ hown)] at hm
      rw [if_pos hown]
      exact hm
    · rw [if_neg hown]
      split at hm
      · have hnil : s.file (logFilename topic) = [] := by
          rw [file, AList.lookup_eq_none.mpr hown]
          rfl
        rw [hnil] at hm
        cases hm
      · exact hm
  · rw [ recovered_of_unsafe hsafe] at hm
    cases hm

end LogStore

namespace Broker

def queues (b : Broker) (topic : GoString) : List Message × List Message × List Message :=
  (((b.topics.lookup topic).bind fun r => b.heap[r]?).map fun t => (t.highMessages, t.messages, t.lowMessages)).getD
    ([], [], [])

/-- No trace of a call: the queues of every topic and the records of every
log are as they were, and a restart brings nothing back that it would not
have brought back before. -/
structure Untouched (b b' : Broker) : Prop where
  queues : ∀ topic, b'.queues topic = b.queues topic
  files : ∀ f, b'.file f = b.file f
  restart : ∀ topic, ∀ m ∈ b'.recovered topic, m ∈ b.recovered topic

/-- The publish finds a full topic that rejects, and its put record gets
into the log before. -/
def LogsRejected (b : Broker) (p : PublishArgs) : Prop :=
  nameError p.topicName = none ∧ b.hookError p = none ∧ p.isBroadcast = false ∧
    (∃ s, b.storage = some s ∧ s.Writable p.topicName) ∧
    ∃ r t, b.topics.lookup p.topicName = some r ∧ b.lock r = some t ∧ t.deleted = false ∧
      b.limits.maxMessages ≤ t.queued.length ∧ t.policy = .reject

variable {b b' : Broker} {p : PublishArgs}

theorem Untouched.of_counted (h : Counted b b') : b.Untouched b' := by
  obtain ⟨u, a, n, rfl⟩ := h
  exact ⟨fun _ => rfl, fun _ => rfl, fun _ _ hm => hm⟩

theorem Untouched.trans (h : b.Untouched b') (h' : b'.Untouched b'') : b.Untouched b'' where
  queues topic := (h'.queues topic).trans (h.queues topic)
  files f := (h'.files f).trans (h.files f)
  restart topic m hm := h.restart topic m (h'.restart topic m hm)

theorem untouched_getOrCreateTopic (b : Broker) (name : GoString) : b.Untouched (b.getOrCreateTopic name).2 := by
  unfold getOrCreateTopic
  split
  · exact .of_counted (.refl b)
  next hnone =>
    split
    · exact .of_counted (.refl b)
    · refine ⟨fun topic => ?_, fun _ => rfl, fun _ _ hm => hm⟩
      have hheap : (b.addTopic (.create name b.defaultPolicy)).heap =
        b.heap ++ [.create name b.defaultPolicy] := rfl
      simp only [queues, lookup_addTopic, hheap]
      split
      next hn =>
        have hn : topic = name := hn
        subst hn
        simp [hnone, Topic.create]
      · cases hl : b.topics.lookup topic with
        | none => rfl
        | some r =>
          obtain ⟨t, ht, -⟩ := b.topics_ok hl
          simp only [bind_some, List.getElem?_append_left (List.getElem?_eq_some_iff.mp ht).1]

theorem untouched_log {topic e} (h : ∀ s, b.storage = some s → ¬ s.Writable topic) : b.Untouched (b.log topic e) := by
  cases hs : b.storage with
  | none => exact ⟨fun _ => rfl, by simp [file, log, hs], by simp [recovered, log, hs]⟩
  | some s =>
    have hfile : ∀ f, (s.append topic e).file f = s.file f := fun f => by
      rw [file_append, if_neg fun hw => h s hs hw.2]
    have hexist : ∀ f, f ∈ s.files → f ∈ (s.append topic e).files := by
      cases e with
      | put m =>
        have hgrows : s.Grows (s.append topic (.put m)) [m] := grows_append (by simp)
        exact hgrows.exist
      | ack id =>
        have hgrows : s.Grows (s.append topic (.ack id)) [] := grows_append (by simp)
        exact hgrows.exist
    refine ⟨fun _ => rfl, fun f => ?_, fun topic' m hm => ?_⟩
    · simp [file, log, hs, hfile f]
    · simp only [recovered, log, hs, map_some, getD_some] at hm ⊢
      exact mem_recovered_of_file hexist hfile hm

end Broker

section Publish

variable {now : Time} {b b' : Broker} {p : PublishArgs} {e : GoString}

theorem Broker.full_of_getOrCreateTopic (hget : b.getOrCreateTopic name = (some r, b₀)) (ht : b₀.lock r = some t)
    (hfull : b.limits.maxMessages ≤ t.queued.length) : b.topics.lookup name = some r ∧ b₀ = b := by
  rcases getOrCreateTopic_cases hget with h | ⟨-, rfl, rfl⟩
  · exact h
  · have hnew : (b.addTopic (.create name b.defaultPolicy)).heap[b.heap.length]? =
      some (.create name b.defaultPolicy) := by
      simp [addTopic]
    rw [lock_eq_some, hnew] at ht
    have hpos := b.limits.maxMessages_pos
    rw [← some.inj ht.1] at hfull
    simp only [Topic.create, Topic.queued, List.append_nil, List.length_nil] at hfull
    omega

/-- What a publish that fails has done: it has looked for its topic, and
written its put record if that was full. -/
theorem broker_of_error (hb : b.Unbound p.topicName)
    (h : Returns now b (Op.publish p).entry (.published (.error e)) b') :
    b' = b ∨ ∃ b₁, Counted (b.getOrCreateTopic p.topicName).2 b₁ ∧
      (b' = b₁ ∨ nameError p.topicName = none ∧ b.hookError p = none ∧ p.isBroadcast = false ∧
        ∃ m r t, (b.getOrCreateTopic p.topicName).1 = some r ∧ b₁.lock r = some t ∧ t.deleted = false ∧
          b₁.limits.maxMessages ≤ t.queued.length ∧ t.policy = .reject ∧ b' = b₁.log p.topicName (.put m)) := by
  cases hname : nameError p.topicName with
  | some e' => exact .inl ((enter_invalid hname).mp h).2
  | none =>
    obtain ⟨ranges, henter⟩ := enter_returns now hb hname
    rw [henter] at h
    have hranges : Counted b { b with ranges } := ⟨_, _, ranges, rfl⟩
    obtain ⟨hsame, hcount⟩ := hranges.getOrCreateTopic p.topicName
    cases hget : (b.getOrCreateTopic p.topicName).1 with
    | none => exact .inr ⟨_, hcount, .inl ((getTopic_returns_none (hsame.trans hget)).mp h).2⟩
    | some r =>
      obtain ⟨topic, wildcards, -, hret⟩ := getTopic_returns now 11 (hsame.trans hget)
      refine .inr ⟨_, hcount.trans (counted_issue _ p), ?_⟩
      rw [hret, show hookError { b with ranges } p = b.hookError p from rfl] at h
      cases hhook : b.hookError p with
      | some e' => rw [hhook] at h; exact .inl h.2
      | none =>
        rw [hhook] at h
        obtain ⟨t, ht, ⟨-, hb'⟩ | ⟨hd, hfull, hreject, hb'⟩⟩ := store_eq_error (store_returns_error.mp h)
        · exact .inl hb'
        · cases hcast : p.isBroadcast <;> rw [hcast] at hb'
          · exact .inr ⟨rfl, rfl, rfl, _, r, t, rfl, ht, hd, hfull, hreject, hb'⟩
          · exact .inl hb'

/-- A publish that fails leaves a trace only by its put record. -/
theorem untouched_of_error (hb : b.Unbound p.topicName) (hlogs : ¬ b.LogsRejected p)
    (h : Returns now b (Op.publish p).entry (.published (.error e)) b') : b.Untouched b' := by
  rcases broker_of_error hb h with rfl | ⟨b₁, hcount, hcase⟩
  · exact .of_counted (.refl b')
  have hb₁ := (b.untouched_getOrCreateTopic p.topicName).trans (.of_counted hcount)
  rcases hcase with rfl | ⟨hname, hhook, hcast, m, r, t, hr, ht, hd, hfull, hreject, rfl⟩
  · exact hb₁
  · -- Were the record stored, the topic would have been there and full.
    refine hb₁.trans (untouched_log fun s hs hw => hlogs ?_)
    rcases hget : b.getOrCreateTopic p.topicName with ⟨r', b₀⟩
    rw [hget] at hr hcount
    cases hr
    obtain ⟨u, a, n, rfl⟩ := hcount
    have hlimits : b₀.limits = b.limits := by
      rcases getOrCreateTopic_cases hget with ⟨-, rfl⟩ | ⟨-, -, rfl⟩ <;> rfl
    have hfull : b₀.limits.maxMessages ≤ t.queued.length := hfull
    rw [hlimits] at hfull
    obtain ⟨hlookup, rfl⟩ := full_of_getOrCreateTopic hget ht hfull
    exact ⟨hname, hhook, hcast, ⟨s, hs, hw⟩, r, t, hlookup, ht, hd, hfull, hreject⟩

/-- **When a rejected publish leaves no trace**: unless it finds a full topic
that rejects and its record has been stored. -/
theorem rejected_untouched_iff (hb : b.Unbound p.topicName) :
    (∀ e b', Returns now b (Op.publish p).entry (.published (.error e)) b' → b.Untouched b') ↔ ¬ b.LogsRejected p := by
  refine ⟨fun hall hlogs => ?_, fun hlogs e b' h => untouched_of_error hb hlogs h⟩
  obtain ⟨hname, hhook, hcast, ⟨s, hs, hw⟩, r, t, hlookup, ht, hd, hfull, hreject⟩ := hlogs
  obtain ⟨ranges, henter⟩ := enter_returns now hb hname
  have hget' : Broker.getOrCreateTopic { b with ranges } p.topicName = (some r, { b with ranges }) := by
    unfold Broker.getOrCreateTopic
    dsimp only
    rw [hlookup]
  obtain ⟨topic, wildcards, -, hret⟩ := getTopic_returns now 11 (by rw [hget'])
  rw [hget'] at hret
  obtain ⟨u, a, n, hcount⟩ := counted_issue { b with ranges } p
  rw [hcount] at hret
  let m := p.message (b.env.newUUID b.uuids) topic.retention now
  rw [show Broker.hookError { b with ranges } p = b.hookError p from rfl, hhook] at hret
  have hstore : Broker.store { b with uuids := u, answers := a, ranges := n } r p.topicName
    (.ofString p.priority)
      p.isBroadcast m = some (some b.capacityError,
        Broker.log { b with uuids := u, answers := a, ranges := n } p.topicName (.put m)) := by
    have ht' : Broker.lock { b with uuids := u, answers := a, ranges := n } r = some t := ht
    have hfull' : (Broker.log { b with uuids := u, answers := a, ranges := n } p.topicName
      (.put m)).limits.maxMessages ≤
      t.queued.length := hfull
    simp only [Broker.store, ht', map_some, hd, Bool.false_eq_true, if_false, hcast,
      if_pos hfull', hreject]
    rfl
  have htrace := (hall _ _ ((henter _ _).mpr
    ((hret _ _).mpr (store_returns_error.mpr hstore)))).files (logFilename p.topicName)
  simp only [Broker.file, Broker.log, hs, map_some, getD_some,
    file_append_of_writable hw] at htrace
  simp at htrace

end Publish

/-! ## A full topic -/

/-- A broker with room for one message, after a first publish to `t`. -/
def fullBroker (storage : Option LogStore) : Broker :=
  Broker.after (.new ⟨1, 10, Nat.one_pos, Limits.ten_pos⟩ .reject false storage .sample fun _ => ⟨1, []⟩) 0
    (.publish samplePublish)

/-- The second publish is refused and its record is in the log. -/
theorem rejected_logged : ∃ e b', (fullBroker (some .sample)).Unbound samplePublish.topicName ∧
    Returns 0 (fullBroker (some .sample)) (Op.publish samplePublish).entry (.published (.error e)) b' ∧
      ¬ (fullBroker (some .sample)).Untouched b' := by
  refine ⟨(fullBroker none).capacityError, _, .inr (by decide +kernel), returns_after, fun h => ?_⟩
  have hfile := congrArg List.length (h.files (logFilename (ascii "t")))
  revert hfile
  decide +kernel

/-- Without storage there is nothing to be left in. -/
theorem rejected_untouched_sample : ∃ e b',
    Returns 0 (fullBroker none) (Op.publish samplePublish).entry (.published (.error e)) b' ∧
      (fullBroker none).Untouched b' := by
  have hret : Returns 0 (fullBroker none) (Op.publish samplePublish).entry
      (.published (.error (fullBroker none).capacityError)) _ := returns_after
  refine ⟨_, _, hret, (rejected_untouched_iff (.inr (by decide +kernel))).mpr ?_ _ _ hret⟩
  rintro ⟨-, -, -, ⟨s, hs, -⟩, -⟩
  have hnone : (fullBroker none).storage.isSome = false := by decide +kernel
  rw [hs] at hnone
  cases hnone

end TinyMQ
