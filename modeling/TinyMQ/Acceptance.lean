/-
What the name checks mean for a message.

On a name that `Consume` and storage accept, a successful publish has its
record in the log and a message that is queued there can be consumed. The
names `Publish` accepts and the others do not are those of
`validators_agree_iff`; `accepted_usable_iff` puts the two together.
-/
import TinyMQ.Sequential

namespace TinyMQ

open Broker Text

/-! ## A publish that succeeds -/

/-- There is a storage, and its writes do not fail. -/
def Broker.Storing (b : Broker) : Prop := ∃ s, b.storage = some s ∧ ∀ k, s.outcome k = .stored

section Publish

variable {b b' : Broker} {c : Call} {p : PublishArgs}

theorem Broker.Storing.evolves (h : b.Storing) (hev : b.Evolves b' puts) : b'.Storing := by
  obtain ⟨s, hs, hout⟩ := h
  obtain ⟨s', hs', hgrows⟩ := hev.log s hs
  exact ⟨s', hs', fun k => by rw [hgrows.outcome]; exact hout k⟩

theorem Broker.Storing.returns (h : Returns now b c r b') (hs : c.Sound) (hb : b.Storing) : b'.Storing := by
  induction h with
  | done hstep hr => exact hb.evolves (Pc.step_effect hs.pc hstep).evolves
  | next hstep hr _ ih => exact ih (hs.resume hstep hr) (hb.evolves (Pc.step_effect hs.pc hstep).evolves)

theorem fanOut_getTopic (hb : b.Storing) (h : Returns now b ⟨.publish 11 p (.fanOut dests), []⟩ r b') :
    ∃ b₁, b₁.Storing ∧ Returns now b₁ ⟨.publish 11 p .getTopic, []⟩ r b' := by
  induction dests generalizing b with
  | nil => exact ⟨b, hb, fanOut_nil.mp h⟩
  | cons dest dests ih =>
    obtain ⟨r₁, b₁, hdest, hrest⟩ := fanOut_cons h
    exact ih (hb.returns hdest ⟨rfl, by simp, by simp⟩) hrest

theorem publish_getTopic (h : Returns now b (Op.publish p).entry (.published (.ok m)) b') (hb : b.Storing) :
    ∃ b₁, b₁.Storing ∧ Returns now b₁ ⟨.publish 11 p .getTopic, []⟩ (.published (.ok m)) b' := by
  cases hname : nameError p.topicName with
  | some e => cases ((enter_invalid hname).mp h).1
  | none =>
    by_cases hgroup : contains p.topicName (ascii "::") = true
    · exact ⟨b, hb, (enter_group hname hgroup).mp h⟩
    · have hb' : Storing { b with ranges := b.ranges + 1 } := hb
      exact fanOut_getTopic hb' ((enter_fanOut hname hgroup).mp h)

/-- **A successful publish to a name storage accepts**: its record is in the
log, and its message is queued or was sent to a consumer. -/
theorem publish_recorded (hb : b.Storing) (hsafe : isSafePath p.topicName = none) (hcast : p.isBroadcast = false)
    (h : Returns now b (Op.publish p).entry (.published (.ok m)) b') : .put m ∈ b'.file (logFilename p.topicName) ∧
      ((∃ r, b'.topics.lookup p.topicName = some r ∧ m ∈ b'.queued r) ∨ ∃ ch, m ∈ (b'.chans ch).buf) := by
  obtain ⟨b₁, hb₁, h⟩ := publish_getTopic h hb
  rcases hget : b₁.getOrCreateTopic p.topicName with ⟨_ | r, b₀⟩
  · have hnone : (b₁.getOrCreateTopic p.topicName).1 = none := by rw [hget]
    cases ((getTopic_returns_none hnone).mp h).1
  · obtain ⟨topic, wildcards, -, hret⟩ := getTopic_returns now 11 (show _ = some r by rw [hget])
    rw [hret] at h
    cases hhook : b₁.hookError p with
    | some e =>
      rw [hhook] at h
      cases h.1
    | none =>
      rw [hhook] at h
      obtain ⟨hm, b₃, hstore, hev, hdel⟩ := store_returns_ok h
      rw [← hm] at hstore hdel
      have hcount := counted_issue b₀ p
      simp only [hget] at hstore
      have hquiet := b₁.quiet_getOrCreateTopic p.topicName []
      rw [hget] at hquiet
      obtain ⟨s, hs, hout⟩ := hb₁.evolves hquiet.toEvolves
      obtain ⟨u, a, n, hissue⟩ := hcount
      rw [hissue] at hstore
      obtain ⟨b₄, t, t', ht, -, hheap, rfl, hlog⟩ := store_eq_ok hstore
      simp only [hcast, Bool.false_eq_true, if_false] at hlog
      have hs' : (log { b₀ with uuids := u, answers := a, ranges := n } p.topicName (.put m)).storage =
          some (s.append p.topicName (.put m)) := by
        show b₀.storage.map _ = _
        rw [show b₀.storage = some s from hs]
        rfl
      obtain ⟨s₄, hs₄, hgrows⟩ := hlog.log _ hs'
      obtain ⟨s', hs'', hgrows'⟩ := hev.log s₄ hs₄
      have hlookup : b₀.topics.lookup p.topicName = some r := getOrCreateTopic_lookup hget
      refine ⟨?_, hdel.imp_left fun hq => ⟨r, hev.topics (hlog.topics hlookup), hq⟩⟩
      have hw : s.Writable p.topicName := ⟨hsafe, hout _⟩
      obtain ⟨es, hes, -⟩ := hgrows.file (logFilename p.topicName)
      obtain ⟨es', hes', -⟩ := hgrows'.file (logFilename p.topicName)
      simp only [file, hs'', Option.map_some, Option.getD_some, hes', hes,
        LogStore.file_append_of_writable hw]
      simp

end Publish

/-! ## A consume of a topic -/

section Consume

variable {b : Broker}

theorem targetAck_returns (now : Time) (b : Broker) (q : ConsumeArgs) (results : List Message)
    (name : GoString) (ids : List GoString) :
    ∃ b', Returns now b ⟨.consume q (.targetAck results name ids), []⟩ (consumed results) b' := by
  induction ids generalizing b with
  | nil => exact ⟨b, (returns_ret (o := .ret b _) rfl rfl).mpr ⟨rfl, rfl⟩⟩
  | cons id ids ih =>
    obtain ⟨b', hb'⟩ := ih (b.log name (.ack id))
    exact ⟨b', (returns_goto (o := .goto _ _) rfl rfl).mpr hb'⟩

theorem consume_target (hvalid : isValidTopicName q.topicName = true)
    (hstar : contains q.topicName (ascii "*") = false) (hget : b.getOrCreateTopic q.topicName = (some r, b₁)) :
    Returns now b (Op.consume q).entry x b' ↔ Returns now b₁ ⟨.consume q (.target r), []⟩ x b' := by
  have hfirst : Pc.step now b (.consume q .getTopic) = some (.goto b₁ (.consume q (.getMatching r))) := by
    simp [Pc.step, ConsumePc.step, hvalid, hget]
  have hmatching : Pc.step now b₁ (.consume q (.getMatching r)) =
    some (.goto b₁ (.consume q (.scan r []))) := by
    simp [Pc.step, ConsumePc.step, matchingTopics, hstar]
  rw [Op.entry, returns_goto hfirst rfl]
  exact (returns_goto hmatching rfl).trans (returns_goto (o := .goto b₁ _) rfl rfl)

theorem consume_returns (hvalid : isValidTopicName q.topicName = true)
    (hstar : contains q.topicName (ascii "*") = false) (hlookup : b.topics.lookup q.topicName = some r)
    (ht : b.lock r = some t) (hx : t.extractMessages q.limit now = (results, ids, t')) :
    ∃ b', Returns now b (Op.consume q).entry (consumed results) b' := by
  have hget : b.getOrCreateTopic q.topicName = (some r, b) := by simp [getOrCreateTopic, hlookup]
  have htarget : ∃ o, Pc.step now b (.consume q (.target r)) = some o ∧
      o.next = .goto (.consume q (.targetAck results t.name ids)) := by
    simp only [Pc.step, ConsumePc.step, extractTarget, ht, Option.map_some, hx]
    exact ⟨_, rfl, rfl⟩
  obtain ⟨o, ho, hnext⟩ := htarget
  obtain ⟨b', hb'⟩ := targetAck_returns now o.broker q results t.name ids
  exact ⟨b', (consume_target hvalid hstar hget).mpr ((returns_goto ho hnext).mpr hb')⟩

/-- **A message that is queued and ready can be consumed**, at a topic whose
name `Consume` accepts. -/
theorem consume_returns_ready (hvalid : isValidTopicName q.topicName = true)
    (hstar : contains q.topicName (ascii "*") = false) (hlookup : b.topics.lookup q.topicName = some r)
    (ht : b.lock r = some t) (hm : m ∈ t.queued) (hexp : m.expired now = false) (hdel : m.delayed now = false)
    (hroom : t.queued.length ≤ q.limit) :
    ∃ ms b', m ∈ ms ∧ Returns now b (Op.consume q).entry (.consumed (some ms)) b' := by
  rcases hx : t.extractMessages q.limit now with ⟨results, ids, t'⟩
  have hmem := Topic.mem_results_of_ready hx hm hexp hdel hroom
  obtain ⟨b', hb'⟩ := consume_returns hvalid hstar hlookup ht hx
  refine ⟨results, b', hmem, ?_⟩
  rwa [consumed, if_neg (by simpa using List.ne_nil_of_mem hmem)] at hb'

end Consume

/-! ## The names on which all agree -/

/-- What the checks on a name are good for. -/
structure Usable (name : GoString) : Prop where
  /-- `Consume`, `AddSpy` and storage accept the name. -/
  valid : isValidTopicName name = true
  safe : isSafePath name = none
  /-- The record of a message that was published is in the log. -/
  recorded : ∀ {now : Time} {b b' : Broker} {p : PublishArgs} {m : Message}, p.topicName = name →
    p.isBroadcast = false →
    b.Storing → Returns now b (Op.publish p).entry (.published (.ok m)) b' → .put m ∈ b'.file (logFilename name)
  /-- The message is queued, unless a waiting consumer has got it. -/
  delivered : ∀ {now : Time} {b b' : Broker} {p : PublishArgs} {m : Message}, p.topicName = name →
    p.isBroadcast = false →
    b.Storing → Returns now b (Op.publish p).entry (.published (.ok m)) b' →
    (∃ r, b'.topics.lookup name = some r ∧ m ∈ b'.queued r) ∨ ∃ ch, m ∈ (b'.chans ch).buf
  /-- A queued message is consumed when it is ready. -/
  consumed : ∀ {now : Time} {b : Broker} {r : TopicRef} {t : Topic} {m : Message} {limit : Nat} {ch : Chan},
    b.topics.lookup name = some r → b.lock r = some t → m ∈ t.queued → m.expired now = false → m.delayed now = false →
    t.queued.length ≤ limit → ∃ ms b', m ∈ ms ∧
      Returns now b (Op.consume ⟨name, limit, ch⟩).entry (.consumed (some ms)) b'

theorem Usable.of_checks (hregex : validTopicRegex name = true) (hvalid : isValidTopicName name = true)
    (hsafe : isSafePath name = none) : Usable name where
  valid := hvalid
  safe := hsafe
  recorded := by
    rintro now b b' p m rfl hcast hb h
    exact (publish_recorded hb hsafe hcast h).1
  delivered := by
    rintro now b b' p m rfl hcast hb h
    exact (publish_recorded hb hsafe hcast h).2
  consumed hlookup ht hm hexp hdel hroom := by
    refine consume_returns_ready hvalid ?_ hlookup ht hm hexp hdel hroom
    rw [Bool.eq_false_iff]
    intro hstar
    exact not_mem_of_validTopicRegex hregex (d := 42) (by decide)
      ((contains_iff.mp hstar).subset (by decide))

theorem nameError_eq_none : nameError name = none ↔ publishAccepts name = true := by
  unfold nameError publishAccepts
  by_cases hlen : name.length = 0 ∨ 255 < name.length
  · have hnot : ¬ (name.length ≠ 0 ∧ name.length ≤ 255) := by omega
    rw [if_pos hlen, decide_eq_false hnot]
    simp
  · have hok : name.length ≠ 0 ∧ name.length ≤ 255 := by omega
    rw [if_neg hlen, decide_eq_true hok]
    cases validTopicRegex name <;> simp

/-- **When the names agree.** A name `Publish` accepts, and that of its dead
letter queue, can be used for everything unless it contains `..`, starts
with `/` or ends with a dot. -/
theorem accepted_usable_iff {name : GoString} (h : nameError name = none) :
    Usable name ∧ Usable (dlqName name) ↔ ¬ ascii ".." <:+: name ∧ ¬ ascii "/" <+: name ∧ ¬ ascii "." <:+ name := by
  have haccept := nameError_eq_none.mp h
  have hregex : validTopicRegex name = true := by
    simp only [publishAccepts, Bool.and_eq_true] at haccept
    exact haccept.2
  rw [← validators_agree_iff haccept]
  constructor
  · rintro ⟨hname, hdlq⟩
    exact ⟨⟨hname.valid, hname.safe⟩, hdlq.valid, hdlq.safe⟩
  · rintro ⟨⟨hvalid, hsafe⟩, hvalid', hsafe'⟩
    exact ⟨.of_checks hregex hvalid hsafe, .of_checks (validTopicRegex_dlqName hregex) hvalid' hsafe'⟩

/-- `Publish` accepts `a..b` and keeps the message, of which there is no
record; no `Consume` will find it. -/
theorem dots_published : nameError (ascii "a..b") = none ∧ ¬ Usable (ascii "a..b") ∧ ∃ m b',
      Returns 0 .sample (Op.publish { samplePublish with topicName := ascii "a..b" }).entry (.published (.ok m)) b' ∧
      b'.file (logFilename (ascii "a..b")) = [] ∧
      Returns 0 b' (Op.consume ⟨ascii "a..b", 1, 0⟩).entry (.consumed none) b' := by
  have hinvalid : isValidTopicName (ascii "a..b") = false := by decide
  have hne : ascii "a..b" ≠ [] := by decide
  have hconsume : ∀ b, Returns 0 b (Op.consume ⟨ascii "a..b", 1, 0⟩).entry (.consumed none) b := fun b =>
    (returns_ret (o := .ret b (.consumed none)) (by simp [Pc.step, ConsumePc.step, hinvalid, hne]) rfl).mpr ⟨rfl, rfl⟩
  exact ⟨by decide, fun h => absurd h.valid (by rw [hinvalid]; exact Bool.false_ne_true),
    { firstMessage with topic := ascii "a..b" }, _, returns_after, by decide +kernel, hconsume _⟩

theorem accepted_usable_sample : Usable (ascii "orders") ∧ Usable (dlqName (ascii "orders")) :=
  (accepted_usable_iff (by decide)).mpr (by decide)

/-! ## The path of an acknowledgement -/

/-- The arguments `handleAck` takes from the path for `Ack`, or its error. -/
def handleAck (path : GoString) : Except GoString (GoString × GoString) :=
  match splitN 47 2 (trimPrefix path (ascii "/ack/")) with
  | [topic, msgID] =>
    if topic = [] ∨ msgID = [] then .error (ascii "Topic and Message ID required") else .ok (topic, msgID)
  | _ => .error (ascii "Topic and Message ID required")

/-- **The path of a topic and an ID is read back** exactly when the topic has no
slash: the path is cut at the first one. -/
theorem handleAck_iff (t id : GoString) : handleAck (ascii "/ack/" ++ t ++ ascii "/" ++ id) = .ok (t, id) ↔
    (47 : UInt8) ∉ t ∧ t ≠ [] ∧ id ≠ [] := by
  have htrim : trimPrefix (ascii "/ack/" ++ t ++ ascii "/" ++ id) (ascii "/ack/") = t ++ 47 :: id := by
    simp [trimPrefix, show ascii "/" = [47] from rfl]
  rw [handleAck, htrim]
  by_cases ht : (47 : UInt8) ∈ t
  · refine ⟨fun h => ?_, fun h => absurd ht h.1⟩
    rw [splitN, if_pos (by simp), splitN] at h
    dsimp only at h
    split at h
    · cases h
    · rw [Except.ok.injEq, Prod.mk.injEq] at h
      rw [← h.1] at ht
      simpa using List.all_eq_true.mp List.all_takeWhile _ ht
  · rw [splitN_cons 0 ht]
    simp [splitN, ht]

/-- `orders/eu` is a topic for `Publish`; its acknowledgement goes to `orders`. -/
theorem handleAck_slash : publishAccepts (ascii "orders/eu") = true ∧
    handleAck (ascii "/ack/" ++ ascii "orders/eu" ++ ascii "/" ++ ascii "1") = .ok (ascii "orders", ascii "eu/1") := by
  decide +kernel

end TinyMQ
