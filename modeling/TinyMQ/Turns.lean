/-
Publishes that take turns.

A publish stores its message in one section and sends it to spies and to a
waiting consumer in later ones, so of two publishes on one topic the second
may come to the spies, or to the consumers, first.
-/
import TinyMQ.Order
import TinyMQ.Spies

namespace TinyMQ

open List Option Broker

/-! ## Spies -/

namespace Broker

variable {b : Broker}

def spiesOf (b : Broker) (r : TopicRef) : List Spy := (b.heap[r]?.map Topic.spies).getD []

theorem spiesOf_subset (r : TopicRef) : b.spiesOf r ⊆ b.spies := by
  intro s hs
  cases ht : b.heap[r]? with
  | none => simp [spiesOf, ht] at hs
  | some t => exact mem_spies ht (by simpa [spiesOf, ht] using hs)

theorem readySpies_subset (r : TopicRef) : b.readySpies r ⊆ b.spiesOf r := fun _ hs => mem_of_mem_filter hs

end Broker

namespace Pc

/-- The topic objects to whose spies a push has still to send. -/
def spyTopics : Pc → List TopicRef
  | .push p .spies => p.t :: p.matchingWildcards
  | .push _ (.wildSpies rest) => rest
  | _ => []

def spiesAhead (b : Broker) (pc : Pc) : List Spy := pc.spyTopics.flatMap b.spiesOf

def pushOf : Pc → Option Push
  | .push p _ => some p
  | _ => none

theorem spiesAt_push {pc : Pc} (h : pc.spiesAt = some (X, m)) :
    ∃ p k, pc = .push p k ∧ m = p.msg ∧ X ∈ pc.spyTopics := by
  unfold spiesAt at h
  split at h <;> cases h
  · exact ⟨_, _, rfl, rfl, mem_cons_self⟩
  · exact ⟨_, _, rfl, rfl, mem_cons_self⟩

theorem Flow.spyTopics
    (h : (Pc.push p k).Flow now b (.goto (.push p k'))) : (Pc.push p k').spyTopics ⊆ (Pc.push p k).spyTopics := by
  cases h with
  | spies | wildSpies => exact subset_cons_self _ _
  | _ => exact nil_subset _

end Pc

namespace World

variable {w w' : World} {l : WorldLabel} {i j : Nat} {R : TopicRef} {m : Message} {pr : Priority} {s : Spy}

theorem spiesOf_step (hs : w.step l = some w') (h : s ∈ w'.broker.spiesOf X) :
    s ∈ w.broker.spiesOf X ∨ s = w.broker.spyCount := by
  have hheap := step_heap hs
  cases ht' : w'.broker.heap[X]? with
  | none => simp [spiesOf, ht'] at h
  | some t' =>
    simp only [spiesOf, ht', map_some, getD_some] at h
    rcases hheap.origin ht' with ⟨t, ht⟩ | ⟨-, name, policy, retention, rfl⟩
    · simp only [spiesOf, ht, map_some, getD_some]
      obtain ⟨t₂, ht₂, hcases⟩ := hheap.object ht
      cases ht'.symm.trans ht₂
      rcases hcases with rfl | ⟨-, sec, hsec, hmove⟩ | ⟨rfl, -⟩
      · exact .inl h
      · rcases hmove.shrinks_or with hshrink | hadd
        · exact .inl (hshrink.spies.subset h)
        · cases hadd with
          | store hdel hmax hsub hw hspies | requeue hnone hperm hw hspies | register hnone hsub hw hspies =>
            exact .inl (hspies ▸ h)
          | spy heq =>
            subst heq
            exact (mem_append.mp h).imp id mem_singleton.mp
      · exact .inl h
    · cases h

/-- The messages of a topic object that were sent to a spy. -/
def spiedFrom (w : World) (s : Spy) (R : TopicRef) : List Message :=
  ((w.past.spied.filter fun x => x.1 = s).map Prod.snd).filter fun m => m ∈ w.appendedTo R

theorem mem_spiedFrom : m ∈ w.spiedFrom s R ↔ (s, m) ∈ w.past.spied ∧ (R, m) ∈ w.past.appended := by
  simp [spiedFrom, mem_appendedTo]

/-- The push at `pc` sends to no spy to which the one at `pc'` has still to
send an earlier message of the same topic. -/
def SpiesBefore (w : World) (pc pc' : Pc) : Prop :=
  ∀ p ∈ pc.pushOf, ∀ p' ∈ pc'.pushOf, p'.t = p.t → ∀ x ∈ pc.spiesAt, ∀ s ∈ w.broker.readySpies x.1,
    s ∈ pc'.spiesAhead w.broker → Fifo.Le (w.appendedTo p.t) p.msg p'.msg

instance (w : World) (pc pc' : Pc) : Decidable (w.SpiesBefore pc pc') := by
  unfold SpiesBefore
  infer_instance

def SpiesFirst (w : World) (pc : Pc) : Prop := ∀ j, ∀ pc' ∈ w.pcAt j, w.SpiesBefore pc pc'

/-- **Spies are sent messages in the order of appending**, and a push that
has still to send to a spy is not late. -/
structure Watched (w : World) : Prop where
  spiesOpen : w.SpiesOpen
  untimed : ∀ due p, .timer due p ∉ w.broker.goroutines
  known : ∀ x ∈ w.past.spied, x.1 < w.broker.spyCount ∧ ∃ r, (r, x.2) ∈ w.past.appended
  sorted : ∀ s R, (w.spiedFrom s R).Pairwise (Fifo.Le (w.appendedTo R))
  ahead : ∀ j p k s m, w.pcAt j = some (.push p k) → s ∈ (Pc.push p k).spiesAhead w.broker → m ∈ w.spiedFrom s p.t →
    Fifo.Le (w.appendedTo p.t) m p.msg

theorem push_origin (h : w.InLine pr) (huntimed : ∀ due p, .timer due p ∉ w.broker.goroutines)
    (hs : w.step l = some w') (hpc' : w'.pcAt j = some (.push p k)) :
    (∃ k₀, w.pcAt j = some (.push p k₀) ∧ (Pc.push p k).spyTopics ⊆ (Pc.push p k₀).spyTopics) ∨
      ∃ left a o, l = .sys (.run j) ∧
        Advances w w' j (.publish left a (.store p.t p.matchingWildcards p.msg false)) o ∧
        (Pc.publish left a (.store p.t p.matchingWildcards p.msg false)).appends w.broker = some (p.t, p.msg) := by
  cases arrives h.traced.framed hs hpc' with
  | stays hpc => exact .inl ⟨k, hpc, Subset.refl _⟩
  | @start op hl hpc => cases op <;> cases hpc
  | timer hmem => exact absurd hmem (huntimed _ _)
  | broadcast hmem hpc => cases hpc
  | @goes pc o hl hadv hn =>
    rcases Pc.step_push hadv.step hn with ⟨k₀, rfl⟩ | ⟨left, a, rfl, happ, -⟩
    · exact .inl ⟨k₀, hadv.at_pc, (Pc.step_goto hadv.step hn).spyTopics⟩
    · exact .inr ⟨left, a, o, hl, hadv, happ⟩
  | outset hout => exact hout.elim

theorem mem_spySends {x} (h : x ∈ w.spySends l) : ∃ i p k, l = .sys (.run i) ∧
    w.pcAt i = some (.push p k) ∧ x.2 = p.msg ∧ x.1 ∈ (Pc.push p k).spiesAhead w.broker ∧
    ∃ X, (Pc.push p k).spiesAt = some (X, p.msg) ∧ x.1 ∈ w.broker.readySpies X := by
  unfold spySends at h
  split at h
  next X m hat =>
    obtain ⟨pc, hpc, hpush⟩ := bind_eq_some_iff.mp hat
    obtain ⟨p, k, rfl, rfl, hX⟩ := Pc.spiesAt_push hpush
    obtain ⟨s, hs, rfl⟩ := List.mem_map.mp h
    unfold runs at hpc
    split at hpc
    next i =>
      refine ⟨i, p, k, rfl, hpc, rfl, ?_, X, hpush, hs⟩
      exact mem_flatMap.mpr ⟨X, hX, readySpies_subset X hs⟩
    · cases hpc
  · cases h

namespace Watched

variable {p : Push}

theorem untimed_step (h : w.Watched) (hline : w.InLine pr) (hs : w.step l = some w') (due : Time) (p : Push) :
    .timer due p ∉ w'.broker.goroutines := by
  intro hg
  cases spawned hline.traced.framed hs hg with
  | old hold => exact h.untimed due p hold
  | timer hl hadv => exact (plain_at hline.plain hadv.at_pc).2.2.2 _ _ _ rfl

theorem sent_known (h : w.Watched) (hline : w.InLine pr) (hx : x ∈ w.spySends l) :
    x.1 < w.broker.spyCount ∧ ∃ r, (r, x.2) ∈ w.past.appended := by
  obtain ⟨i, p, k, -, hpc, hm, -, X, -, hready⟩ := mem_spySends hx
  refine ⟨h.spiesOpen.known _ (mem_append_left _ ?_), p.t, ?_⟩
  · exact spiesOf_subset X (readySpies_subset X hready)
  · rw [hm]
    exact (mem_filter.mp (hline.traced.pushes i p k hpc)).1

theorem known_step (h : w.Watched) (hline : w.InLine pr) (hs : w.step l = some w')
    (hx : x ∈ w'.past.spied) : x.1 < w'.broker.spyCount ∧ ∃ r, (r, x.2) ∈ w'.past.appended := by
  have hold : x.1 < w.broker.spyCount ∧ ∃ r, (r, x.2) ∈ w.past.appended := by
    rw [spied_step hs] at hx
    rcases mem_append.mp hx with hx | hx
    · exact h.known x hx
    · exact h.sent_known hline hx
  obtain ⟨new, hnew, -⟩ := appended_prefix hline.traced.framed hs
  obtain ⟨hlt, r, hr⟩ := hold
  exact ⟨Nat.lt_of_lt_of_le hlt (step_heap hs).spyCount_le, r, hnew ▸ mem_append_left _ hr⟩

theorem appended_before (h : w.Watched) (hline : w.InLine pr) (hline' : w'.InLine pr)
    (hs : w.step l = some w') (hx : x ∈ w'.past.spied) (hR : (R, x.2) ∈ w'.past.appended) :
    (R, x.2) ∈ w.past.appended := by
  obtain ⟨new, hnew, -⟩ := appended_prefix hline.traced.framed hs
  have hold : ∃ r, (r, x.2) ∈ w.past.appended := by
    rw [spied_step hs] at hx
    rcases mem_append.mp hx with hx | hx
    · exact (h.known x hx).2
    · exact (h.sent_known hline hx).2
  obtain ⟨r, hr⟩ := hold
  rw [hline'.one_topic (hnew ▸ mem_append_left _ hr) hR]
  exact hr

theorem le_step (hline : w.InLine pr) (hs : w.step l = some w')
    (h : Fifo.Le (w.appendedTo R) m m') (hm : (R, m) ∈ w.past.appended) (hm' : (R, m') ∈ w.past.appended) :
    Fifo.Le (w'.appendedTo R) m m' := by
  obtain ⟨new, hnew, -⟩ := appended_prefix hline.traced.framed hs
  rw [appendedTo_append hnew]
  exact h.grow (mem_appendedTo.mpr hm) (mem_appendedTo.mpr hm') _

theorem sent_last (h : w.Watched) (hline : w.InLine pr) (hx : x ∈ w.spySends l)
    (hR : (R, x.2) ∈ w.past.appended) (hm : m ∈ w.spiedFrom x.1 R) : Fifo.Le (w.appendedTo R) m x.2 := by
  obtain ⟨i, p, k, -, hpc, heq, hahead, -⟩ := mem_spySends hx
  have ht : R = p.t := by
    rw [heq] at hR
    exact hline.one_topic (mem_filter.mp (hline.traced.pushes i p k hpc)).1 hR
  subst ht
  rw [heq]
  exact h.ahead i p k x.1 m hpc hahead hm

theorem sorted_step (h : w.Watched) (hline : w.InLine pr) (hline' : w'.InLine pr) (hs : w.step l = some w')
    (s : Spy) (R : TopicRef) : (w'.spiedFrom s R).Pairwise (Fifo.Le (w'.appendedTo R)) := by
  -- The log says the same of what was sent before and after the step.
  have hlog : ∀ x ∈ w'.past.spied, decide (x.2 ∈ w'.appendedTo R) = decide (x.2 ∈ w.appendedTo R) := by
    intro x hx
    obtain ⟨new, hnew, -⟩ := appended_prefix hline.traced.framed hs
    refine decide_eq_decide.mpr ⟨fun hR => ?_, fun hR => ?_⟩
    · exact mem_appendedTo.mpr (h.appended_before hline hline' hs hx (mem_appendedTo.mp hR))
    · exact mem_appendedTo.mpr (hnew ▸ mem_append_left _ (mem_appendedTo.mp hR))
  have hsplit : w'.spiedFrom s R = w.spiedFrom s R ++
      (((w.spySends l).filter fun x => x.1 = s).map Prod.snd).filter fun m => m ∈ w.appendedTo R := by
    have hcongr : w'.spiedFrom s R =
        ((w'.past.spied.filter fun x => x.1 = s).map Prod.snd).filter fun m => m ∈ w.appendedTo R := by
      refine filter_congr fun m hm => ?_
      obtain ⟨x, hx, rfl⟩ := List.mem_map.mp hm
      exact hlog x (mem_filter.mp hx).1
    rw [hcongr, spied_step hs, filter_append, map_append, filter_append, spiedFrom]
  have hsends : ∀ m, m ∈ (((w.spySends l).filter fun x => x.1 = s).map Prod.snd).filter
    (fun m => m ∈ w.appendedTo R) →
      (s, m) ∈ w.spySends l ∧ (R, m) ∈ w.past.appended := by
    intro m hm
    simpa [mem_appendedTo] using hm
  rw [hsplit, pairwise_append]
  refine ⟨?_, ?_, fun m hm m' hm' => ?_⟩
  · refine (h.sorted s R).imp_of_mem fun hm hm' hle => ?_
    exact le_step hline hs hle (mem_spiedFrom.mp hm).2 (mem_spiedFrom.mp hm').2
  · refine pairwise_of_forall_mem_list fun m hm m' hm' => ?_
    obtain ⟨i, p, k, hl, hpc, heq, -⟩ := mem_spySends (hsends m hm).1
    obtain ⟨i', p', k', hl', hpc', heq', -⟩ := mem_spySends (hsends m' hm').1
    cases hl.symm.trans hl'
    cases hpc.symm.trans hpc'
    have hsame : m = m' := heq.trans heq'.symm
    exact hsame ▸ .refl _ _
  · obtain ⟨hsend, hR⟩ := hsends m' hm'
    exact le_step hline hs (h.sent_last hline hsend hR hm) (mem_spiedFrom.mp hm).2 hR

theorem ahead_step (h : w.Watched) (hline : w.InLine pr) (hline' : w'.InLine pr) (hs : w.step l = some w')
    (hfirst : ∀ i pc, l = .sys (.run i) → w.pcAt i = some pc → w.SpiesFirst pc)
    (hpc' : w'.pcAt j = some (.push p k)) (hahead : s ∈ (Pc.push p k).spiesAhead w'.broker)
    (hm : m ∈ w'.spiedFrom s p.t) : Fifo.Le (w'.appendedTo p.t) m p.msg := by
  obtain ⟨hspied, hR⟩ := mem_spiedFrom.mp hm
  have hbefore : (p.t, m) ∈ w.past.appended := h.appended_before hline hline' hs hspied hR
  rcases push_origin hline h.untimed hs hpc' with ⟨k₀, hpc, hsub⟩ | ⟨left, a, o, rfl, hadv, happ⟩
  · refine le_step hline hs ?_ hbefore (mem_filter.mp (hline.traced.pushes j p k₀ hpc)).1
    rw [spied_step hs] at hspied
    -- A spy that was sent something is no new one, and was ahead before the step.
    have hcount : s < w.broker.spyCount := by
      rcases mem_append.mp hspied with hx | hx
      · exact (h.known _ hx).1
      · exact (h.sent_known hline hx).1
    have hahead₀ : s ∈ (Pc.push p k₀).spiesAhead w.broker := by
      obtain ⟨X, hX, hspy⟩ := mem_flatMap.mp hahead
      refine mem_flatMap.mpr ⟨X, hsub hX, (spiesOf_step hs hspy).resolve_right ?_⟩
      exact Nat.ne_of_lt hcount
    rcases mem_append.mp hspied with hx | hx
    · exact h.ahead j p k₀ s m hpc hahead₀ (mem_spiedFrom.mpr ⟨hx, hbefore⟩)
    · obtain ⟨i, p₁, k₁, hl, hpc₁, heq, -, X, hat, hready⟩ := mem_spySends hx
      have hmsg : m = p₁.msg := heq
      subst hmsg
      have ht : p.t = p₁.t :=
        hline.one_topic (mem_filter.mp (hline.traced.pushes i p₁ k₁ hpc₁)).1 hbefore
      rw [ht]
      exact hfirst i _ hl hpc₁ j _ hpc p₁ rfl p rfl ht _ hat s hready hahead₀
  · have hlog := appendedTo_append hadv.appended p.t
    rw [happ] at hlog
    simp only [toList_some, filter_singleton, decide_true, cond_true, map_cons,
      map_nil] at hlog
    obtain ⟨-, -, hfresh⟩ := hline.fresh hadv.at_pc happ
    rw [hlog]
    exact Fifo.le_last (mem_appendedTo.mpr hbefore) fun hin => hfresh p.t (mem_appendedTo.mp hin)

theorem step (h : w.Watched) (hline : w.InLine pr) (hline' : w'.InLine pr)
    (hfirst : ∀ i pc, l = .sys (.run i) → w.pcAt i = some pc → w.SpiesFirst pc) (hs : w.step l = some w') :
    w'.Watched where
  spiesOpen := h.spiesOpen.step hs
  untimed := h.untimed_step hline hs
  known _ := h.known_step hline hs
  sorted := h.sorted_step hline hline' hs
  ahead _ _ _ _ _ := h.ahead_step hline hline' hs hfirst

theorem init (now limits policy hooked storage env chans) :
    (World.init now (.new limits policy hooked storage env chans)).Watched where
  spiesOpen := ⟨nodup_nil, fun _ hch => absurd hch not_mem_nil, rfl⟩
  untimed _ _ h := by cases h
  known _ hx := by cases hx
  sorted _ _ := .nil
  ahead _ _ _ _ _ h := by cases h

end Watched

/-! ## Runs -/

section Runs

variable {now limits policy hooked storage env chans}

/-- Publishes take turns: what one sends to a consumer is the first message
of its queue, and what it sends to a spy comes after what an earlier one
sends to it. -/
def InTurn (w : World) : WorldLabel → Prop
  | .sys (.run i) => ∀ pc ∈ w.pcAt i, w.SendsFirst pc ∧ w.SpiesFirst pc
  | _ => True

/-- **First in, first out**, in every run in which publishes take turns:
the messages of a topic, all of one priority and without a delay, are handed
to consumers, and sent to each spy, in the order in which they were
appended. -/
theorem fifo_in_turn (hrun : Lts.Run step (fun w l => w.Lined pr l ∧ w.InTurn l)
      (init now (.new limits policy hooked storage env chans)) w) :
    (∀ R, (w.handedFrom R).Pairwise (Fifo.Le (w.appendedTo R))) ∧
      ∀ s R, (w.spiedFrom s R).Pairwise (Fifo.Le (w.appendedTo R)) := by
  have hstep : ∀ (w : World) l (w' : World), (w.InLine pr ∧ w.Watched) → (w.Lined pr l ∧ w.InTurn l) →
      w.step l = some w' → w'.InLine pr ∧ w'.Watched := by
    rintro w l w' ⟨hline, hwatched⟩ ⟨hlined, hturn⟩ hs
    have hfirst : ∀ i pc, l = .sys (.run i) → w.pcAt i = some pc → w.SendsFirst pc ∧ w.SpiesFirst pc := by
      rintro i pc rfl hpc
      exact hturn pc hpc
    have hline' := hline.step hlined (fun i pc hl hpc => (hfirst i pc hl hpc).1) hs
    exact ⟨hline', hwatched.step hline hline' (fun i pc hl hpc => (hfirst i pc hl hpc).2) hs⟩
  obtain ⟨hline, hwatched⟩ := hrun.invariant (I := fun w => w.InLine pr ∧ w.Watched) hstep
    ⟨.init now limits policy hooked storage env chans, .init now limits policy hooked storage env chans⟩
  exact ⟨fun R => (hline.fifo R).sorted.sublist (sublist_append_left _ _), hwatched.sorted⟩

/-- Two consumers wait and a spy is there. A publish stores its message, a
second one runs to its end, and then the first one. -/
def overtake : List WorldLabel :=
  WorldLabel.method 0 (.addSpy (ascii "t")) 2 ++ WorldLabel.call 1 (.consume ⟨ascii "t", 1, 0⟩) 5 ++
    WorldLabel.call 2 (.consume ⟨ascii "t", 1, 1⟩) 5 ++ WorldLabel.call 3 (.publish samplePublish) 7 ++
    WorldLabel.call 4 (.publish samplePublish) 13 ++ replicate 6 (.sys (.run 3))

theorem overtaken : ∃ w m m', Lts.Run step (Lined .normal) (init 0 .sample) w ∧ w.appendedTo 0 = [m, m'] ∧
    w.past.handed = [(0, 0, m'), (0, 1, m)] ∧ w.spiedFrom 0 0 = [m', m] ∧
    ¬ (w.handedFrom 0).Pairwise (Fifo.Le (w.appendedTo 0)) ∧ ¬ (w.spiedFrom 0 0).Pairwise (Fifo.Le (w.appendedTo 0)) :=
  ⟨_, firstMessage, samplePublish.message [97, 97] 0 0,
    Lts.Run.of_exec_get overtake (by decide +kernel) (by decide +kernel),
      by decide +kernel, by decide +kernel,
    by decide +kernel, by decide +kernel, by decide +kernel⟩

/-- `InTurn`, where the goroutines have numbers below `n`. -/
def turnsBelow (n : Nat) (w : World) (l : WorldLabel) : Bool :=
  l.goroutine.all (· < n) && match l with
    | .sys (.run i) => decide (∀ pc ∈ w.pcAt i, w.SendsFirst pc ∧ ∀ j < n, ∀ pc' ∈ w.pcAt j, w.SpiesBefore pc pc')
    | _ => true

/-- No call has a number from `n` on. -/
structure Below (n : Nat) (w : World) : Prop where
  framed : w.Framed
  free : ∀ j, n ≤ j → w.pcAt j = none

theorem Below.step (h : w.Below n) (hok : w.turnsBelow n l = true) (hs : w.step l = some w') : w'.Below n := by
  refine ⟨h.framed.step hs, fun j hj => ?_⟩
  rw [pcAt_step h.framed hs fun hl => ?_]
  · exact h.free j hj
  · have hlt := (Bool.and_eq_true _ _ ▸ hok).1
    rw [hl] at hlt
    exact Nat.not_le_of_lt (of_decide_eq_true hlt) hj

theorem Below.inTurn (h : w.Below n) (hok : w.turnsBelow n l = true) : w.InTurn l := by
  have hturn := (Bool.and_eq_true _ _ ▸ hok).2
  unfold InTurn
  split
  next i =>
    intro pc hpc
    obtain ⟨hsends, hspies⟩ := of_decide_eq_true hturn pc hpc
    refine ⟨hsends, fun j pc' hpc' => hspies j ?_ pc' hpc'⟩
    by_contra hj
    cases (h.free j (Nat.not_lt.mp hj)).symm.trans hpc'
  · trivial

/-- The same publishes, one after the other, and a third one that a `Consume`
returns. -/
def takeTurns : List WorldLabel :=
  WorldLabel.method 0 (.addSpy (ascii "t")) 2 ++ WorldLabel.call 1 (.consume ⟨ascii "t", 1, 0⟩) 5 ++
    WorldLabel.call 2 (.consume ⟨ascii "t", 1, 1⟩) 5 ++ WorldLabel.call 3 (.publish samplePublish) 13 ++
    WorldLabel.call 4 (.publish samplePublish) 13 ++ WorldLabel.call 5 (.publish samplePublish) 11 ++
    WorldLabel.call 6 (.consume ⟨ascii "t", 1, 2⟩) 4

theorem fifo_in_turn_sample : ∃ w, Lts.Run step (fun w l => w.Lined .normal l ∧ w.InTurn l) (init 0 .sample) w ∧
    (w.handedFrom 0).length = 3 ∧ (w.spiedFrom 0 0).length = 3 ∧
    (w.handedFrom 0).Pairwise (Fifo.Le (w.appendedTo 0)) ∧ (w.spiedFrom 0 0).Pairwise (Fifo.Le (w.appendedTo 0)) :=
  have hbelow : Lts.Run step (fun w l => w.Lined .normal l ∧ w.turnsBelow 7 l = true) (init 0 .sample) _ :=
    Lts.Run.of_exec_get takeTurns (by decide +kernel) (by decide +kernel)
  have hrun := hbelow.mono_of_invariant (I := Below 7) (fun _ _ _ h hok => h.step hok.2)
    (fun _ _ h hok => And.intro hok.1 (h.inTurn hok.2)) ⟨init_framed, fun _ _ => rfl⟩
  have hfifo := fifo_in_turn hrun
  ⟨_, hrun, by decide +kernel, by decide +kernel, hfifo.1 0, hfifo.2 0 0⟩

end Runs

end World

end TinyMQ
