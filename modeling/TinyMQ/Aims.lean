/-
The topics that calls work on, by their names.

`publishCore` looks its topic up by name and the wildcard topics by their
patterns, and goes on with the objects it has found while topics are made
and deleted. An object keeps its name, so they are the right ones to the
end: `Aims` says so of every call and every timer, and `spySends_seen` what
follows for the spies.
-/
import TinyMQ.Calls
import TinyMQ.Patterns

namespace TinyMQ

open List Option Broker

namespace Broker

variable {b b' : Broker} {r : TopicRef} {n : GoString}

def nameOf (b : Broker) (r : TopicRef) : Option GoString := b.heap[r]?.map Topic.name

/-- The object has a name that matches the topic. -/
def Sees (b : Broker) (topic : GoString) (W : TopicRef) : Prop :=
  ∃ name, b.nameOf W = some name ∧ nameMatches name topic = true

def KeepsNames (b b' : Broker) : Prop := ∀ r n, b.nameOf r = some n → b'.nameOf r = some n

theorem nameOf_of_lookup (h : b.topics.lookup n = some r) : b.nameOf r = some n := by
  obtain ⟨t, ht, rfl⟩ := b.topics_ok h
  simp [nameOf, ht]

theorem HeapStep.keepsNames {P : TopicRef → Topic → Topic → Prop} (h : b.HeapStep b' P)
    (hP : ∀ r t t', P r t t' → t'.name = t.name) : b.KeepsNames b' := by
  intro r n hn
  obtain ⟨t, ht, rfl⟩ := map_eq_some_iff.mp hn
  obtain ⟨t', ht', hcase⟩ := h.object ht
  have hname : t'.name = t.name := by
    rcases hcase with rfl | ⟨-, hmove⟩ | ⟨rfl, -⟩
    · rfl
    · exact hP _ _ _ hmove
    · rfl
  simp [nameOf, ht', hname]

theorem KeepsNames.sees (h : b.KeepsNames b') (hs : b.Sees topic W) : b'.Sees topic W := by
  obtain ⟨name, hname, hmatch⟩ := hs
  exact ⟨name, h _ _ hname, hmatch⟩

theorem sees_of_matching (hc : b.Compiled) (h : W ∈ (b.matchingWildcards t).1) : b.Sees t W := by
  obtain ⟨name, hname⟩ := wildcard_of_matching h
  exact ⟨name, nameOf_of_lookup (b.wildcards_ok hname).1, (mem_matchingWildcards hc hname).mp h⟩

end Broker

/-! ## Calls -/

/-- The push goes to the object of its topic and to those that match it. -/
structure Push.Aimed (b : Broker) (p : Push) : Prop where
  valid : validTopicRegex p.msg.topic = true
  own : b.nameOf p.t = some p.msg.topic
  wild : ∀ W ∈ p.matchingWildcards, b.Sees p.msg.topic W

def PublishPc.Aimed (b : Broker) (a : PublishArgs) : PublishPc → Prop
  | .enter => True
  | .fanOut _ => validTopicRegex a.topicName = true
  | .getTopic => validTopicRegex a.topicName = true
  | .getWildcards t => validTopicRegex a.topicName = true ∧ b.nameOf t = some a.topicName
  | .newMessage t wildcards => validTopicRegex a.topicName = true ∧ b.nameOf t = some a.topicName ∧
    ∀ W ∈ wildcards, b.Sees a.topicName W
  | .onPublish t wildcards m => m.topic = a.topicName ∧ Push.Aimed b ⟨t, m, wildcards, a.isBroadcast⟩
  | .store t wildcards m _ => m.topic = a.topicName ∧ Push.Aimed b ⟨t, m, wildcards, a.isBroadcast⟩

def ConsumePc.Aimed (b : Broker) (q : ConsumeArgs) : ConsumePc → Prop
  | .getTopic => True
  | .getMatching t => b.nameOf t = some q.topicName
  | .scan t _ => b.nameOf t = some q.topicName
  | .scanAck t _ _ _ _ => b.nameOf t = some q.topicName
  | .target t => b.nameOf t = some q.topicName
  | .targetAck _ _ _ => True

/-- The call works on the objects that its topic name leads to. -/
def Pc.Aimed (b : Broker) : Pc → Prop
  | .publish _ a k => k.Aimed b a
  | .push p (.wildSpies rest) => p.Aimed b ∧ rest ⊆ p.matchingWildcards
  | .push p _ => p.Aimed b
  | .consume q k => k.Aimed b q
  | .requeuePut t m => b.nameOf t = some m.topic
  | .requeueAt t m => b.nameOf t = some m.topic
  | _ => True

theorem Push.Aimed.mono {b b' : Broker} {p : Push} (hn : b.KeepsNames b') (h : p.Aimed b) : p.Aimed b' :=
  ⟨h.valid, hn _ _ h.own, fun W hW => hn.sees (h.wild W hW)⟩

theorem Pc.Aimed.mono {b b' : Broker} {pc : Pc} (hn : b.KeepsNames b') (h : pc.Aimed b) : pc.Aimed b' := by
  cases pc with
  | publish left a k =>
    cases k with
    | enter | fanOut | getTopic => exact h
    | getWildcards t => exact ⟨h.1, hn _ _ h.2⟩
    | newMessage t ws => exact ⟨h.1, hn _ _ h.2.1, fun W hW => hn.sees (h.2.2 W hW)⟩
    | onPublish t ws m | store t ws m isDelayed => exact ⟨h.1, h.2.mono hn⟩
  | push p k =>
    cases k with
    | wildSpies rest => exact ⟨h.1.mono hn, h.2⟩
    | _ => exact Push.Aimed.mono hn h
  | consume q k =>
    cases k with
    | getTopic | targetAck => trivial
    | getMatching t | scan t | scanAck t | target t => exact hn _ _ h
  | requeuePut t m | requeueAt t m => exact hn _ _ h
  | _ => trivial

theorem PublishPc.Aimed.next {b : Broker} {left a} {k : PublishPc} {o}
    (hc : b.Compiled) (ho : k.step now b left a = some o) (hn : b.KeepsNames o.broker) (h : k.Aimed b a) :
    o.next.All (Pc.Aimed o.broker) := by
  cases PublishPc.steps ho with
  | group hname | enter hname => exact validTopicRegex_of_nameError hname
  | fanned => exact h
  | call => exact ⟨trivial, h⟩
  | getTopic hb => exact ⟨h, nameOf_of_lookup (getOrCreateTopic_lookup hb)⟩
  | getWildcards => exact ⟨h.1, hn _ _ h.2, fun W hW => hn.sees (sees_of_matching hc hW)⟩
  | newMessage => exact ⟨rfl, h.1, hn _ _ h.2.1, fun W hW => hn.sees (h.2.2 W hW)⟩
  | onPublish => exact ⟨h.1, h.2.mono hn⟩
  | stored => exact h.2.mono hn
  | _ => trivial

theorem Pc.Aimed.next {b : Broker} {pc : Pc} {o} (hc : b.Compiled)
    (ho : pc.step now b = some o) (hn : b.KeepsNames o.broker) (h : pc.Aimed b) : o.next.All (Pc.Aimed o.broker) := by
  cases pc with
  | publish left a k => exact PublishPc.Aimed.next hc ho hn h
  | push p k =>
    have hflow := Pc.step_flow ho
    cases hnext : o.next with
    | ret r => trivial
    | call dest caller => rw [hnext] at hflow; cases hflow
    | goto pc' =>
      rw [hnext] at hflow
      cases hflow with
      | spies => exact ⟨h.mono hn, Subset.refl _⟩
      | wildSpies => exact ⟨h.1.mono hn, fun W hW => h.2 (mem_cons_of_mem _ hW)⟩
      | broadcasts | pushes => exact h.1.mono hn
      | _ => exact Push.Aimed.mono hn h
  | consume q k =>
    cases ConsumePc.steps ho with
    | getTopic hb => exact nameOf_of_lookup (getOrCreateTopic_lookup hb)
    | getMatching | scan hb | scanned | scanAck | scanNext => exact hn _ _ h
    | _ => trivial
  | requeue m =>
    cases Pc.steps ho with
    | requeueFound hb => exact nameOf_of_lookup (getOrCreateTopic_lookup hb)
    | requeueFull => trivial
  | requeuePut t m =>
    cases ho
    exact hn _ _ h
  | _ =>
    have hflow := Pc.step_flow ho
    cases hnext : o.next with
    | ret r => trivial
    | call dest caller => rw [hnext] at hflow; cases hflow
    | goto pc' => rw [hnext] at hflow; cases hflow <;> trivial

theorem MethodPc.lookup_of_addSpyAt (h : MethodPc.step now b ret pc = some o)
    (hn : o.next = .addSpyAt r n) : o.broker.topics.lookup n = some r := by
  cases pc with
  | addSpy n' =>
    simp only [step] at h
    split at h
    · cases h; cases hn
    split at h
    next => cases h; cases hn
    next hb =>
      cases h
      cases hn
      exact getOrCreateTopic_lookup hb
  | redrive _ _ l | sweepAck _ _ _ l | sweepTopics _ l => cases l <;> grind [step, MethodOutcome.goto, map_eq_some_iff]
  | _ => grind [step, MethodOutcome.goto, map_eq_some_iff]

/-! ## Runs -/

namespace World

variable {w w' : World} {limits policy hooked storage env chans} {now : Time}

/-- **Calls and timers work on the objects their topic names lead to.** -/
structure Aims (w : World) : Prop where
  framed : w.Framed
  compiled : w.broker.Compiled
  calls : w.sys.AllCalls (Call.All (Pc.Aimed w.broker))
  timers : ∀ due p, .timer due p ∈ w.broker.goroutines → p.Aimed w.broker
  methods : ∀ {i r n}, w.methods i = some (.addSpyAt r n) → w.broker.nameOf r = some n

theorem keepsNames_step (hs : w.step l = some w') : w.broker.KeepsNames w'.broker :=
  (step_heap hs).keepsNames fun _ _ _ ⟨_, _, hmove⟩ => hmove.static.1

theorem Aims.at (h : w.Aims) (hpc : w.pcAt i = some pc) : pc.Aimed w.broker := by
  obtain ⟨c, hc, rfl⟩ := map_eq_some_iff.mp hpc
  exact h.calls i c hc _ mem_cons_self

theorem Aims.step (h : w.Aims) (hs : w.step l = some w') : w'.Aims where
  framed := h.framed.step hs
  compiled := (step_heap hs).compiled h.compiled
  calls := by
    have hn := keepsNames_step hs
    refine all_step h.calls hs (fun _ hp => hp.mono hn) (fun i op _ => ?_) (fun g hg c hc => ?_)
      (fun _ _ _ _ _ _ _ _ => trivial)
      fun i pc o hl hpc ho hb hp => ?_
    · cases op <;> trivial
    · rcases Goroutine.entry_eq hc with ⟨due, push, rfl, -, rfl⟩ | ⟨channels, m, -, rfl⟩
      · exact (h.timers due push hg).mono hn
      · trivial
    · rw [hb] at hn ⊢
      exact hp.next h.compiled ho hn
  timers due p hp := by
    have hn := keepsNames_step hs
    cases spawned h.framed hs hp with
    | old hold => exact (h.timers due p hold).mono hn
    | timer hl hadv hnext => exact (h.at hadv.at_pc).2.mono hn
  methods {i r n} hm := by
    have hn := keepsNames_step hs
    by_cases hl : l = .run i
    · subst hl
      obtain ⟨pc, o, -, ho, rfl⟩ := step_run hs
      exact nameOf_of_lookup (MethodPc.lookup_of_addSpyAt ho (by simpa using hm))
    · rcases methods_of_step hs hl with hsame | ⟨-, m, hnew⟩
      · exact hn _ _ (h.methods (hsame.symm.trans hm))
      · rw [hm] at hnew
        cases m <;> cases hnew

theorem Aims.init (now limits policy hooked storage env chans) :
    (init now (.new limits policy hooked storage env chans)).Aims where
  framed := init_framed
  compiled := by
    have hrun : Lts.Run World.step (fun _ _ => True)
      (World.init now (.new limits policy hooked storage env chans))
      (World.init now (.new limits policy hooked storage env chans)) := .refl
    exact compiled_of_run hrun
  calls _ _ hc := by cases hc
  timers _ _ hp := absurd hp not_mem_nil
  methods hm := by cases hm

theorem aims_of_run {ok : World → WorldLabel → Prop}
    (hrun : Lts.Run step ok (World.init now (.new limits policy hooked storage env chans)) w) : w.Aims :=
  hrun.invariant (I := Aims) (fun _ _ _ hI _ => hI.step) (.init now limits policy hooked storage env chans)

/-- **A spy is sent what its topic is to see.** -/
theorem Aims.spySends (h : w.Aims) (hx : (ch, m) ∈ w.spySends l) : validTopicRegex m.topic = true ∧
      ∃ (r : TopicRef) (t : Topic), w.broker.heap[r]? = some t ∧ ch ∈ t.spies ∧
        nameMatches t.name m.topic = true := by
  unfold World.spySends at hx
  split at hx
  next r m' hat =>
    obtain ⟨ch', hch, heq⟩ := List.mem_map.mp hx
    cases heq
    obtain ⟨pc, hruns, hspies⟩ := bind_eq_some_iff.mp hat
    have haimed : pc.Aimed w.broker := by
      cases l with
      | sys l =>
        cases l with
        | run i => exact h.at hruns
        | _ => cases hruns
      | _ => cases hruns
    -- The push sends to its own topic or to one of its wildcards.
    have hsees : validTopicRegex m.topic = true ∧ w.broker.Sees m.topic r := by
      unfold Pc.spiesAt at hspies
      split at hspies
      next p =>
        cases hspies
        refine ⟨haimed.valid, _, haimed.own, ?_⟩
        exact (nameMatches_plain (star_not_mem_of_validTopicRegex haimed.valid)).mpr rfl
      next p W rest =>
        cases hspies
        exact ⟨haimed.1.valid, haimed.1.wild _ (haimed.2 mem_cons_self)⟩
      next => cases hspies
    obtain ⟨hvalid, name, hname, hmatch⟩ := hsees
    obtain ⟨t, ht, rfl⟩ := map_eq_some_iff.mp hname
    refine ⟨hvalid, r, t, ht, ?_, hmatch⟩
    have hmem := mem_of_mem_filter hch
    rwa [ht] at hmem
  next => exact absurd hx not_mem_nil

end World

end TinyMQ
