/-
Calls that run alone: what a method returns, and the broker it leaves, when
no other goroutine runs in between (`Returns`).

`enter_returns` and `locate_returns` follow a `Publish` on a topic without
bound groups up to the critical section in which it stores its message.
-/
import TinyMQ.Acknowledge

namespace TinyMQ

open Broker Text

/-! ## Runs of a call -/

section Returns

variable {now : Time} {b b' : Broker} {pc : Pc} {o : Outcome} {r : Ret}

theorem returns_goto (h : pc.step now b = some o) (ho : o.next = .goto pc') :
    Returns now b ⟨pc, stack⟩ r b' ↔ Returns now o.broker ⟨pc', stack⟩ r b' := by
  have hresume : Call.resume stack o.next = .inl ⟨pc', stack⟩ := by rw [ho]; rfl
  constructor
  · intro hr
    cases hr with
    | done hs hret =>
      cases h.symm.trans hs
      cases hresume.symm.trans hret
    | next hs hnext hr =>
      cases h.symm.trans hs
      cases hresume.symm.trans hnext
      exact hr
  · exact .next h hresume

theorem returns_ret (h : pc.step now b = some o) (ho : o.next = .ret r') :
    Returns now b ⟨pc, []⟩ r b' ↔ r = r' ∧ b' = o.broker := by
  have hresume : Call.resume [] o.next = .inr r' := by rw [ho]; rfl
  constructor
  · intro hr
    cases hr with
    | done hs hret =>
      cases h.symm.trans hs
      cases hresume.symm.trans hret
      exact ⟨rfl, rfl⟩
    | next hs hnext hr =>
      cases h.symm.trans hs
      cases hresume.symm.trans hnext
  · rintro ⟨rfl, rfl⟩
    exact .done h hresume

/-- The broker after a call that nothing comes between. -/
def Broker.after (b : Broker) (now : Time) (op : Op) : Broker := ((Call.run now 40 b op.entry).map Prod.snd).getD b

theorem returns_after (h : (Call.run now 40 b op.entry).map Prod.fst = some r := by decide +kernel) :
    Returns now b op.entry r (b.after now op) := by
  obtain ⟨⟨_, b'⟩, hrun, rfl⟩ := Option.map_eq_some_iff.mp h
  rw [Broker.after, hrun]
  exact Call.run_returns hrun

theorem returns_get (now b op) (h : (Call.run now 40 b op.entry).isSome = true := by decide +kernel) :
    Returns now b op.entry ((Call.run now 40 b op.entry).get h).1 (b.after now op) :=
  returns_after (Option.map_eq_some_iff.mpr ⟨_, (Option.some_get h).symm, rfl⟩)

theorem not_returns (h : pc.step now b = none) : ¬ Returns now b ⟨pc, stack⟩ r b' := by
  intro hr
  cases hr with
  | done hs _ | next hs _ _ => cases h.symm.trans hs

theorem Returns.of_stack (h : Returns now b ⟨pc, front ++ caller :: stack⟩ r b') :
    ∃ r₁ b₁, Returns now b ⟨pc, front⟩ r₁ b₁ ∧ Returns now b₁ ⟨caller, stack⟩ r b' := by
  generalize hc : (⟨pc, front ++ caller :: stack⟩ : Call) = c at h
  induction h generalizing pc front with
  | @done b c o r hs hr =>
    subst hc
    cases hnext : o.next with
    | goto pc' | call dest caller' => rw [hnext] at hr; cases hr
    | ret r' => cases front <;> rw [hnext] at hr <;> cases hr
  | @next b b' c c' o r hs hr hret ih =>
    subst hc
    cases hnext : o.next with
    | goto pc' =>
      rw [hnext] at hr
      cases hr
      obtain ⟨r₁, b₁, h₁, h₂⟩ := ih rfl
      exact ⟨r₁, b₁, .next hs (by rw [hnext]; rfl) h₁, h₂⟩
    | call dest caller' =>
      rw [hnext] at hr
      cases hr
      obtain ⟨r₁, b₁, h₁, h₂⟩ := @ih dest (caller' :: front) rfl
      exact ⟨r₁, b₁, .next hs (by rw [hnext]; rfl) h₁, h₂⟩
    | ret r' =>
      rw [hnext] at hr
      cases front with
      | nil =>
        cases hr
        exact ⟨r', o.broker, .done hs (by rw [hnext]; rfl), hret⟩
      | cons f front =>
        cases hr
        obtain ⟨r₁, b₁, h₁, h₂⟩ := ih rfl
        exact ⟨r₁, b₁, .next hs (by rw [hnext]; rfl) h₁, h₂⟩

/-- The rule for calls that call no other: what every effect keeps, until
the one that returns. -/
theorem Returns.of_effects {I : Broker → Role → Prop} {Q : Ret → Broker → Prop} (h : Returns now b ⟨pc, []⟩ r b')
    (hreq : pc.isRequeue = false) (h₀ : I b pc.role) (hpub : ∀ b p, ¬ I b (.publishing p))
    (hnext : ∀ {b pc b' ρ handed}, I b pc.role → Effect now b pc b' (.inl ρ) handed → I b' ρ)
    (hdone : ∀ {b pc b' r handed}, I b pc.role → Effect now b pc b' (.inr r) handed → Q r b') : Q r b' := by
  generalize hc : (⟨pc, []⟩ : Call) = c at h
  induction h generalizing pc with
  | @done b c o r hs hr =>
    subst hc
    have heff := Pc.step_effect hreq hs
    have hview : o.next.view = .inr r := by
      cases hnext : o.next with
      | goto pc' | call dest caller => rw [hnext] at hr; cases hr
      | ret r' => rw [hnext] at hr; cases hr; rfl
    rw [hview] at heff
    exact hdone h₀ heff
  | @next b b' c c' o r hs hr _ ih =>
    subst hc
    have heff := Pc.step_effect hreq hs
    have hsound := Pc.step_sound hreq hs
    rcases Call.resume_eq_inl hr with ⟨hgoto, hstack⟩ | ⟨caller, hcall, -⟩ | ⟨r', -, hstack⟩
    · rw [hgoto] at heff hsound
      exact ih hsound (hnext h₀ heff) (by rw [show c' = ⟨c'.pc, c'.stack⟩ from rfl, hstack])
    · rw [hcall] at hsound
      obtain ⟨-, ⟨-, p, hp⟩, hrole⟩ := hsound
      rw [← hrole, hp] at h₀
      exact absurd h₀ (hpub b p)
    · cases hstack

/-- The rule for calls that call no other, from their steps. -/
theorem Returns.of_steps {I : Broker → Pc → Prop} {Q : Broker → Prop} (h : Returns now b ⟨pc, []⟩ r b') (h₀ : I b pc)
    (hstep : ∀ {b pc o}, I b pc → pc.step now b = some o →
      (∃ pc', o.next = .goto pc' ∧ I o.broker pc') ∨ (∃ r, o.next = .ret r) ∧ Q o.broker) : Q b' := by
  generalize hc : (⟨pc, []⟩ : Call) = c at h
  induction h generalizing pc with
  | done hs hr =>
    subst hc
    rcases hstep h₀ hs with ⟨pc', hgoto, -⟩ | ⟨-, hq⟩
    · rw [hgoto] at hr
      cases hr
    · exact hq
  | next hs hr _ ih =>
    subst hc
    rcases hstep h₀ hs with ⟨pc', hgoto, hI⟩ | ⟨⟨r, hret⟩, -⟩
    · rw [hgoto] at hr
      cases hr
      exact ih hI rfl
    · rw [hret] at hr
      cases hr

end Returns

/-! ## A publish up to the store -/

namespace Broker

/-- The broker after some uses of the environment. -/
def Counted (b b' : Broker) : Prop := ∃ uuids answers ranges, b' = { b with uuids, answers, ranges }

variable {b b' : Broker} {name : GoString} {p : PublishArgs}

theorem Counted.refl (b : Broker) : Counted b b := ⟨b.uuids, b.answers, b.ranges, rfl⟩

theorem Counted.trans (h : Counted b b') (h' : Counted b' b'') : Counted b b'' := by
  obtain ⟨u, a, n, rfl⟩ := h
  obtain ⟨u', a', n', rfl⟩ := h'
  exact ⟨u', a', n', rfl⟩

theorem getOrCreateTopic_cases (h : b.getOrCreateTopic name = (some r, b')) : b.topics.lookup name = some r ∧ b' = b ∨
      b.topics.lookup name = none ∧ r = b.heap.length ∧ b' = b.addTopic (.create name b.defaultPolicy) := by
  unfold getOrCreateTopic at h
  split at h
  next r' hr => cases h; exact .inl ⟨hr, rfl⟩
  next hr =>
    split at h
    · cases h
    · cases h
      exact .inr ⟨hr, rfl, rfl⟩

theorem Counted.getOrCreateTopic (h : Counted b b') (name : GoString) :
    (b'.getOrCreateTopic name).1 = (b.getOrCreateTopic name).1 ∧
      Counted (b.getOrCreateTopic name).2 (b'.getOrCreateTopic name).2 := by
  obtain ⟨u, a, n, rfl⟩ := h
  unfold getOrCreateTopic
  dsimp only
  cases b.topics.lookup name with
  | some r => exact ⟨rfl, u, a, n, rfl⟩
  | none =>
    dsimp only
    split
    · exact ⟨rfl, u, a, n, rfl⟩
    · exact ⟨rfl, u, a, n, rfl⟩

/-- `getOrCreateTopic` gives a topic. -/
def canGet (b : Broker) (name : GoString) : Bool :=
  (b.topics.lookup name).isSome || decide (b.topics.entries.length < b.limits.maxTopics)

theorem canGet_eq (b : Broker) (name : GoString) : b.canGet name = (b.getOrCreateTopic name).1.isSome := by
  unfold canGet getOrCreateTopic
  cases b.topics.lookup name with
  | some r => rfl
  | none =>
    by_cases h : b.limits.maxTopics ≤ b.topics.entries.length
    · simp [h]
    · simp [h, Nat.lt_of_not_le h]

theorem getOrCreateTopic_none (h : (b.getOrCreateTopic name).1 = none) : (b.getOrCreateTopic name).2 = b := by
  unfold getOrCreateTopic at h ⊢
  split
  · rfl
  next hl =>
    rw [hl] at h
    split
    · rfl
    next hroom =>
      rw [if_neg hroom] at h
      cases h

/-- The next write to the log of the topic stores its record. -/
def Writes (b : Broker) (topic : GoString) : Prop := ∃ s, b.storage = some s ∧ s.Writable topic

theorem file_log (b : Broker) (topic : GoString) (e : LogEntry) (f : GoString) [Decidable (b.Writes topic)] :
    (b.log topic e).file f = if f = logFilename topic ∧ b.Writes topic then b.file f ++ [e] else b.file f := by
  cases hs : b.storage with
  | none => simp [file, log, Writes, hs]
  | some s => simp [file, log, Writes, hs, LogStore.file_append]

/-- No group is bound to the topic, or it is a group itself. -/
def Unbound (b : Broker) (topicName : GoString) : Prop :=
  contains topicName (ascii "::") = true ∨ b.bindings topicName = []

/-- The error of `OnPublish` on the next publish. -/
def hookError (b : Broker) (p : PublishArgs) : Option GoString :=
  if p.isReplication ∨ b.hooked = false then none else b.env.onPublish b.answers

/-- The broker after a publish has ranged over the wildcards, made its ID and
asked the hook. -/
def issue (b : Broker) (p : PublishArgs) : Broker :=
  { b with
    uuids := b.uuids + 1
    answers := if p.isReplication ∨ b.hooked = false then b.answers else b.answers + 1
    ranges := b.ranges + 1 }

theorem counted_issue (b : Broker) (p : PublishArgs) : Counted b (b.issue p) := ⟨_, _, _, rfl⟩

theorem ask_hook (b : Broker) (p : PublishArgs) :
    (if p.isReplication then (none, b) else b.callOnPublish) = (b.hookError p,
      { b with answers := if p.isReplication ∨ b.hooked = false then b.answers else b.answers + 1 }) := by
  unfold hookError callOnPublish
  by_cases hr : p.isReplication = true
  · simp [hr]
  · by_cases hh : b.hooked = true
    · simp [hr, hh]
    · have hfalse : b.hooked = false := by simpa using hh
      rw [if_neg hr, if_neg hh, if_pos (.inr hfalse), if_pos (.inr hfalse)]

/-- How a publish that has found its topic goes on: it returns the error of
`OnPublish`, or comes to store its message. -/
theorem locate_steps (now : Time) (left : Nat) (p : PublishArgs) (ht : b.heap[t]? = some topic) :
    Returns now b ⟨.publish left p (.getWildcards t), []⟩ r b' ↔ match b.hookError p with
      | some e => r = .published (.error e) ∧ b' = b.issue p
      | none =>
        let m := p.message (b.env.newUUID b.uuids) topic.retention now
        Returns now (b.issue p)
          ⟨.publish left p (.store t (b.matchingWildcards p.topicName).1 m (m.delayed now)), []⟩ r b' := by
  let b₀ := (b.matchingWildcards p.topicName).2
  let wildcards := (b.matchingWildcards p.topicName).1
  let m := p.message (b.env.newUUID b.uuids) topic.retention now
  have hm : Pc.step now b₀ (.publish left p (.newMessage t wildcards)) =
      some (.goto b₀.newUUID.2 (.publish left p (.onPublish t wildcards m))) := by
    have ht₀ : b₀.heap[t]? = some topic := ht
    simp only [Pc.step, PublishPc.step, ht₀, Option.map_some]
    rfl
  have hask : (if p.isReplication then (none, b₀.newUUID.2) else b₀.newUUID.2.callOnPublish) =
    (b.hookError p, b.issue p) :=
    ask_hook b₀.newUUID.2 p
  have hstart : Returns now b ⟨.publish left p (.getWildcards t), []⟩ r b' ↔
      Returns now b₀.newUUID.2 ⟨.publish left p (.onPublish t wildcards m), []⟩ r b' :=
    (returns_goto (o := .goto b₀ (.publish left p (.newMessage t wildcards))) rfl rfl).trans
      (returns_goto hm rfl)
  rw [hstart]
  cases he : b.hookError p with
  | some e =>
    refine returns_ret (o := .ret (b.issue p) (.published (.error e))) ?_ rfl
    simp only [Pc.step, PublishPc.step, hask, he]
  | none =>
    refine returns_goto (o := .goto (b.issue p)
      (.publish left p (.store t wildcards m (m.delayed now)))) ?_ rfl
    simp only [Pc.step, PublishPc.step, hask, he]

theorem locate_returns (now : Time) (left : Nat) (p : PublishArgs) (ht : b.heap[t]? = some topic) :
    ∃ wildcards, ∀ r b', Returns now b ⟨.publish left p (.getWildcards t), []⟩ r b' ↔ match b.hookError p with
      | some e => r = .published (.error e) ∧ b' = b.issue p
      | none =>
        let m := p.message (b.env.newUUID b.uuids) topic.retention now
        Returns now (b.issue p) ⟨.publish left p (.store t wildcards m (m.delayed now)), []⟩ r b' :=
  ⟨_, fun _ _ => locate_steps now left p ht⟩

/-- A publish that can find or create its topic: it returns the error of
`OnPublish`, or what the store of its message leads to. -/
theorem getTopic_returns (now : Time) (left : Nat) (ht : (b.getOrCreateTopic p.topicName).1 = some t) :
    ∃ topic wildcards, (b.getOrCreateTopic p.topicName).2.heap[t]? = some topic ∧
      ∀ r b', Returns now b ⟨.publish left p .getTopic, []⟩ r b' ↔ match b.hookError p with
        | some e => r = .published (.error e) ∧ b' = (b.getOrCreateTopic p.topicName).2.issue p
        | none =>
          let m := p.message (b.env.newUUID b.uuids) topic.retention now
          Returns now ((b.getOrCreateTopic p.topicName).2.issue p)
            ⟨.publish left p (.store t wildcards m (m.delayed now)), []⟩ r b' := by
  rcases hget : b.getOrCreateTopic p.topicName with ⟨t', b₀⟩
  rw [hget] at ht
  cases ht
  obtain ⟨topic, htopic, -⟩ := b₀.topics_ok (getOrCreateTopic_lookup hget)
  obtain ⟨wildcards, hlocate⟩ := locate_returns now left p htopic
  have hsame : b₀.hookError p = b.hookError p ∧ b₀.env.newUUID b₀.uuids = b.env.newUUID b.uuids := by
    rcases getOrCreateTopic_cases hget with ⟨-, rfl⟩ | ⟨-, -, rfl⟩ <;> exact ⟨rfl, rfl⟩
  refine ⟨topic, wildcards, htopic, fun r b' => ?_⟩
  rw [← hsame.1, ← hsame.2, ← hlocate]
  exact returns_goto (o := .goto b₀ _) (by simp only [Pc.step, PublishPc.step, hget]) rfl

theorem getTopic_returns_none (ht : (b.getOrCreateTopic p.topicName).1 = none) :
    Returns now b ⟨.publish left p .getTopic, []⟩ r b' ↔
      r = .published (.error (ascii "broker maximum topic limit reached")) ∧
        b' = (b.getOrCreateTopic p.topicName).2 := by
  rcases hget : b.getOrCreateTopic p.topicName with ⟨t', b₀⟩
  rw [hget] at ht
  cases ht
  exact returns_ret (o := .ret b₀ _) (by simp only [Pc.step, PublishPc.step, hget]) rfl

section Enter

variable {now : Time} {left : Nat} {r : Ret}

theorem enter_invalid (hname : nameError p.topicName = some e) :
    Returns now b ⟨.publish (left + 1) p .enter, []⟩ r b' ↔ r = .published (.error e) ∧ b' = b :=
  returns_ret (o := .ret b _) (by simp [Pc.step, PublishPc.step, hname]) rfl

theorem enter_group (hname : nameError p.topicName = none) (hgroup : contains p.topicName (ascii "::") = true) :
    Returns now b ⟨.publish (left + 1) p .enter, []⟩ r b' ↔
      Returns now b ⟨.publish (left + 1) p .getTopic, []⟩ r b' := by
  refine returns_goto (o := .goto b _) ?_ rfl
  simp only [Pc.step, PublishPc.step, hname, hgroup, if_true, Nat.add_one_ne_zero, if_false]

theorem enter_fanOut (hname : nameError p.topicName = none) (hgroup : ¬ contains p.topicName (ascii "::") = true) :
    Returns now b ⟨.publish (left + 1) p .enter, []⟩ r b' ↔ Returns now { b with ranges := b.ranges + 1 }
        ⟨.publish (left + 1) p (.fanOut (b.env.order b.ranges (b.bindings p.topicName))), []⟩ r b' := by
  refine returns_goto (o := .goto { b with ranges := b.ranges + 1 } _) ?_ rfl
  simp only [Pc.step, PublishPc.step, hname, hgroup, Nat.add_one_ne_zero, if_false, Bool.false_eq_true,
    boundTopics, range]

theorem fanOut_nil : Returns now b ⟨.publish left p (.fanOut []), []⟩ r b' ↔
      Returns now b ⟨.publish left p .getTopic, []⟩ r b' :=
  returns_goto (o := .goto b _) rfl rfl

theorem fanOut_cons (h : Returns now b ⟨.publish left p (.fanOut (dest :: dests)), []⟩ r b') :
    ∃ r₁ b₁, Returns now b ⟨.publish (left - 1) { p with topicName := dest } .enter, []⟩ r₁ b₁ ∧
      Returns now b₁ ⟨.publish left p (.fanOut dests), []⟩ r b' := by
  have hcall : Returns now b ⟨.publish (left - 1) { p with topicName := dest } .enter,
      [] ++ .publish left p (.fanOut dests) :: []⟩ r b' := by
    cases h with
    | done hs hr => cases hs; cases hr
    | next hs hr hret => cases hs; cases hr; exact hret
  exact hcall.of_stack

/-- A publish with a valid name on a topic without bound groups gets to its
topic. -/
theorem enter_returns (now : Time) (hb : b.Unbound p.topicName) (hname : nameError p.topicName = none) :
    ∃ ranges, ∀ r b', Returns now b (Op.publish p).entry r b' ↔
      Returns now { b with ranges } ⟨.publish 11 p .getTopic, []⟩ r b' := by
  by_cases hgroup : contains p.topicName (ascii "::") = true
  · exact ⟨b.ranges, fun r b' => enter_group hname hgroup⟩
  · have hnone : b.env.order b.ranges (b.bindings p.topicName) = [] := by
      rw [hb.resolve_left hgroup]
      exact List.perm_nil.mp (b.env.order_perm b.ranges [])
    refine ⟨b.ranges + 1, fun r b' => (enter_fanOut hname hgroup).trans ?_⟩
    rw [hnone]
    exact fanOut_nil

end Enter

end Broker

/-! ## A push -/

/-- Where a message is that was pushed: still queued at its topic, or sent
to a consumer. -/
def Broker.Delivers (b : Broker) (p : Push) : Prop := p.msg ∈ b.queued p.t ∨ ∃ ch, p.msg ∈ (b.chans ch).buf

section Push

variable {now : Time} {b b' : Broker} {p : Push} {pc : Pc} {handed : List (Chan × Message)}

theorem Broker.Delivers.congr (h : b.Delivers p) (hq : ∀ r, b'.queued r = b.queued r) (hc : b'.chans = b.chans) :
    b'.Delivers p := by
  unfold Delivers
  rw [hq, hc]
  exact h

theorem Broker.Delivers.send (ht : b.trySend ch p.msg = some b') : ∃ ch, p.msg ∈ (b'.chans ch).buf := by
  obtain ⟨-, rfl⟩ := trySend_eq_some ht
  exact ⟨ch, by simp⟩

/-- What a push keeps: the message is delivered, and it has been sent when
the call comes to remove it. -/
structure Pushing (b₀ : Broker) (p : Push) (b : Broker) (ρ : Role) : Prop where
  role : ρ.push? = some p
  evolves : b₀.Evolves b []
  delivers : b.Delivers p
  sent : ρ = .removing p → ∃ ch, p.msg ∈ (b.chans ch).buf

theorem Role.held_of_push {ρ : Role} (h : ρ.push? = some p) : ρ.held = [] := by
  cases ρ with
  | holding a t m => cases h
  | _ => rfl

theorem Pushing.evolves_effect {b₀ v} (h : Pushing b₀ p b pc.role)
    (heff : Effect now b pc b' v handed) : b₀.Evolves b' [] := by
  have hev := heff.evolves
  rw [Role.held_of_push h.role] at hev
  exact h.evolves.trans hev

theorem Pushing.next {b₀ ρ} (h : Pushing b₀ p b pc.role) (heff : Effect now b pc b' (.inl ρ) handed) :
    Pushing b₀ p b' ρ := by
  have hev := h.evolves_effect heff
  have hrole := h.role
  cases heff with
  | quiet hq hmove =>
    have hdel := h.delivers.congr hq.queued hq.chans
    cases hmove with
    | stay => exact ⟨hrole, hev, hdel, fun hr => by rw [hq.chans]; exact h.sent hr⟩
    | collect hρ hb =>
      rw [hρ] at hrole
      cases hrole
      exact ⟨rfl, hev, hdel, fun hr => by cases hr⟩
    | sendFailed hρ ht hv =>
      rw [hρ] at hrole
      cases hrole
      rcases hv with hv | hv <;> cases hv
      exact ⟨rfl, hev, hdel, fun hr => by cases hr⟩
    | call hρ | locate hρ ht | seek hρ ht | ackFound hρ ht | leaveFound hρ ht => rw [hρ] at hrole; cases hrole
  | take hρ hu | pop hρ hu hw =>
    rw [hρ] at hrole
    cases hrole
    exact ⟨rfl, hev, h.delivers.congr hu.queued hu.chans, fun hr => by cases hr⟩
  | send hρ ht =>
    rw [hρ] at hrole
    cases hrole
    have hsent := Delivers.send ht
    exact ⟨rfl, hev, .inr hsent, fun _ => hsent⟩
  | create hρ ht | store hρ hb hs | castSend hρ ht | extract hρ hat hx | register hρ hat hx =>
    rw [hρ] at hrole; cases hrole

theorem Pushing.done {b₀ r} (h : Pushing b₀ p b pc.role) (heff : Effect now b pc b' (.inr r) handed) :
    r = .published (.ok p.msg) ∧ b₀.Evolves b' [] ∧ b'.Delivers p := by
  have hev := h.evolves_effect heff
  have hrole := h.role
  cases heff with
  | quiet hq hmove =>
    have hdel := h.delivers.congr hq.queued hq.chans
    cases hmove with
    | finish hρ hw =>
      rw [hρ] at hrole
      cases hrole
      exact ⟨rfl, hev, hdel⟩
    | sendFailed hρ ht hv =>
      rw [hρ] at hrole
      cases hrole
      rcases hv with hv | hv <;> cases hv
      exact ⟨rfl, hev, hdel⟩
    | fail hρ | refuse hρ | castEnd hρ | giveUp hρ | deliver hρ | wait hρ | ackMissing hρ | leaveMissing hρ ht =>
      rw [hρ] at hrole; cases hrole
  | cast hρ hu =>
    rw [hρ] at hrole
    cases hrole
    exact ⟨rfl, hev, h.delivers.congr hu.queued hu.chans⟩
  | remove hρ hr =>
    rw [hρ] at hrole
    cases hrole
    refine ⟨rfl, hev, .inr ?_⟩
    rw [hr.chans]
    exact h.sent hρ
  | defer hρ hb hs | ack hρ hr | leave hρ hu hw => rw [hρ] at hrole; cases hrole

/-- **A push that returns has delivered its message.** -/
theorem push_returns (h : Returns now b ⟨.push p .spies, []⟩ r b') (hq : p.msg ∈ b.queued p.t) :
    r = .published (.ok p.msg) ∧ b.Evolves b' [] ∧ b'.Delivers p := by
  have h₀ : Pushing b p b (.pushing p) := ⟨rfl, .refl b [], .inl hq, fun hr => by cases hr⟩
  exact h.of_effects (I := Pushing b p)
    (Q := fun r b' => r = .published (.ok p.msg) ∧ b.Evolves b' [] ∧ b'.Delivers p) rfl h₀
    (fun b' a hp => by cases hp.role) Pushing.next Pushing.done

end Push

/-! ## The store -/

namespace Broker

variable {b b' : Broker} {r : TopicRef} {topicName : GoString} {priority : Priority}
  {isBroadcast : Bool} {m : Message}

/-- How a store fails: the topic was deleted, or it is full, once the record
is written. -/
theorem store_eq_error (h : b.store r topicName priority isBroadcast m = some (some e, b')) : ∃ t, b.lock r = some t ∧
      (t.deleted = true ∧ b' = b ∨ t.deleted = false ∧ b.limits.maxMessages ≤ t.queued.length ∧ t.policy = .reject ∧
        b' = if isBroadcast then b else b.log topicName (.put m)) := by
  obtain ⟨t, ht, hcase⟩ := store_cases h
  refine ⟨t, ht, ?_⟩
  cases hcase with
  | deleted hd => exact .inl ⟨hd, rfl⟩
  | refused hd hfull hp => exact .inr ⟨hd, hfull, hp, rfl⟩

/-- How it succeeds: the record is written, an eviction may be, and the
message is appended. -/
theorem store_eq_ok (h : b.store r topicName priority isBroadcast m = some (none, b')) :
    ∃ (b₁ : Broker) (t t' : Topic), b.lock r = some t ∧ t.deleted = false ∧ b₁.heap = b.heap ∧
      b' = b₁.setTopic r (t'.append priority m) ∧
      (if isBroadcast then b else b.log topicName (.put m)).Quiet b₁ [] := by
  obtain ⟨t, ht, hcase⟩ := store_cases h
  have hheap := heap_logPut b topicName isBroadcast m
  cases hcase with
  | @evicted oldest t' hd _ _ _ =>
    exact ⟨(b.logPut topicName isBroadcast m).log topicName (.ack oldest.id), t, t', ht, hd, hheap, rfl, quiet_ack⟩
  | kept hd _ => exact ⟨b.logPut topicName isBroadcast m, t, t, ht, hd, hheap, rfl, .refl _ []⟩

theorem store_queued (h : b.store r topicName priority isBroadcast m = some (none, b')) : m ∈ b'.queued r := by
  obtain ⟨b₁, t, t', ht, -, hheap, rfl, -⟩ := store_eq_ok h
  have ht₁ : b₁.lock r = some t := by rw [lock, hheap]; exact ht
  rw [queued_setTopic ht₁, if_pos rfl]
  exact (Topic.queued_append t' priority m).mem_iff.mpr (by simp)

end Broker

section Store

variable {now : Time} {b b' : Broker} {left : Nat} {p : PublishArgs} {t : TopicRef}
  {wildcards : List TopicRef} {m : Message}
  {delayed : Bool}

/-- How a publish that stores its message goes on: the store may fail, a timer
may be started, or the message is pushed. -/
theorem store_inv {r} (h : Returns now b ⟨.publish left p (.store t wildcards m delayed), []⟩ r b') :
    ∃ err b₁, b.store t p.topicName (.ofString p.priority) p.isBroadcast m = some (err, b₁) ∧
      ((∃ e, err = some e ∧ r = .published (.error e) ∧ b' = b₁) ∨
        err = none ∧ delayed = true ∧ r = .published (.ok m) ∧ (∃ g, b' = b₁.go g) ∨
        err = none ∧ delayed = false ∧ Returns now b₁ ⟨.push ⟨t, m, wildcards, p.isBroadcast⟩ .spies, []⟩ r b') := by
  cases hs : b.store t p.topicName (.ofString p.priority) p.isBroadcast m with
  | none => exact absurd h (not_returns (by simp [Pc.step, PublishPc.step, hs]))
  | some res =>
    obtain ⟨err, b₁⟩ := res
    refine ⟨err, b₁, rfl, ?_⟩
    cases err with
    | some e =>
      rw [returns_ret (o := .ret b₁ (.published (.error e))) (by simp [Pc.step, PublishPc.step, hs]) rfl] at h
      exact .inl ⟨e, rfl, h⟩
    | none =>
      cases delayed with
      | true =>
        rw [returns_ret (o := .ret _ (.published (.ok m))) (by simp [Pc.step, PublishPc.step, hs]; rfl) rfl] at h
        exact .inr (.inl ⟨rfl, rfl, h.1, _, h.2⟩)
      | false =>
        rw [returns_goto (o := .goto b₁ _) (by simp [Pc.step, PublishPc.step, hs]; rfl) rfl] at h
        exact .inr (.inr ⟨rfl, rfl, h⟩)

theorem store_returns_error {e} :
    Returns now b ⟨.publish left p (.store t wildcards m delayed), []⟩ (.published (.error e)) b' ↔
      b.store t p.topicName (.ofString p.priority) p.isBroadcast m = some (some e, b') := by
  refine ⟨fun h => ?_, fun hs => ?_⟩
  · obtain ⟨err, b₁, hs, ⟨e', rfl, he, rfl⟩ | ⟨-, -, he, -⟩ | ⟨rfl, -, hpush⟩⟩ := store_inv h
    · cases he
      exact hs
    · cases he
    · cases (push_returns hpush (store_queued hs)).1
  · rw [returns_ret (o := .ret b' (.published (.error e))) (by simp [Pc.step, PublishPc.step, hs]) rfl]
    exact ⟨rfl, rfl⟩

theorem store_returns_ok {m'} (h : Returns now b ⟨.publish left p (.store t wildcards m delayed), []⟩
    (.published (.ok m')) b') :
    m' = m ∧ ∃ b₁, b.store t p.topicName (.ofString p.priority) p.isBroadcast m = some (none, b₁) ∧
      b₁.Evolves b' [] ∧ (m ∈ b'.queued t ∨ ∃ ch, m ∈ (b'.chans ch).buf) := by
  obtain ⟨err, b₁, hs, ⟨e, -, he, -⟩ | ⟨rfl, -, hm, g, rfl⟩ | ⟨rfl, -, hpush⟩⟩ := store_inv h
  · cases he
  · cases hm
    have hq := store_queued hs
    exact ⟨rfl, b₁, hs, (Evolves.refl b₁ []).go _, .inl hq⟩
  · obtain ⟨hr, hev, hdel⟩ := push_returns hpush (store_queued hs)
    cases hr
    exact ⟨rfl, b₁, hs, hev, hdel⟩

end Store

/-! ## Where a message is -/

/-- The places of a message: a queue, the buffer of a channel, the hands of
a consumer. -/
inductive Zone
  | queue (r : TopicRef)
  | chan (ch : Chan)
  | hand
  deriving DecidableEq

namespace Broker

def zone (b : Broker) (hand : List Message) : Zone → List Message
  | .queue r => b.queued r
  | .chan ch => (b.chans ch).buf
  | .hand => hand

def count (b : Broker) (hand : List Message) (id : GoString) (z : Zone) : Nat :=
  ((b.zone hand z).map Message.id).count id

theorem count_eq_zero {b : Broker} {hand id z} : b.count hand id z = 0 ↔ ∀ m ∈ b.zone hand z, m.id ≠ id := by
  rw [count, List.count_eq_zero]
  simp

end Broker

end TinyMQ
