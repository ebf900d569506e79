/-
Consumers that were taken off their topics for a message.

A push takes waiting consumers in one section and sends to them in another
one, a broadcast in other goroutines even. Whatever holds of the message
when the consumer is taken has to last until it is sent: that it has not
expired, and, if it was delayed, that it is still in its topic.
-/
import TinyMQ.Provenance

namespace TinyMQ

open List Option Broker

variable {b : Broker} {pc : Pc} {x : TopicRef × Message} {now : Time} {o : Outcome} {m : Message} {ch : Chan}

namespace Pc

variable {b : Broker} {pc : Pc} {r : TopicRef} {x : TopicRef × Message}

/-- The message for which a call has taken consumers off their topics. -/
def holds : Pc → Option Message
  | .push p (.takeWild _ (_ :: _)) => some p.msg
  | .push p (.takeOwn (_ :: _)) => some p.msg
  | .push p (.sendWild _ _) => some p.msg
  | .push p (.sendOwn _) => some p.msg
  | .broadcast (_ :: _) m => some m
  | _ => none

/-- The topic whose waiting consumers a section looks at, and the message it
wants to give them with its own topic. -/
def looks : Pc → Option (TopicRef × TopicRef × Message)
  | .push p (.takeWild (r :: _) _) => some (r, p.t, p.msg)
  | .push p (.takeOwn _) => some (p.t, p.t, p.msg)
  | .push p (.popWild (r :: _)) => some (r, p.t, p.msg)
  | .push p .popOwn => some (p.t, p.t, p.msg)
  | .requeueAt r m => some (r, r, m)
  | _ => none

def takes (b : Broker) (pc : Pc) : Option (TopicRef × Message) :=
  pc.looks.bind fun (r, x) => if b.waiting r = [] then none else some x

def results : Pc → List Message
  | .consume _ (.scanAck _ _ results _ _) => results
  | .consume _ (.targetAck results _ _) => results
  | _ => []

theorem takes_of_waiting (h : pc.looks = some (r, x)) (hw : b.waiting r ≠ []) : pc.takes b = some x := by
  simp [takes, h, hw]

theorem looks_of_takes (h : pc.takes b = some x) : ∃ r, pc.looks = some (r, x) ∧ b.waiting r ≠ [] := by
  simp only [takes, bind_eq_some_iff, Prod.exists] at h
  obtain ⟨r, t, m, hlooks, h⟩ := h
  split at h
  · cases h
  next hw =>
    cases h
    exact ⟨r, hlooks, hw⟩

theorem takes_push (h : (Pc.push p k).takes b = some x) : x = (p.t, p.msg) := by
  obtain ⟨r, hlooks, -⟩ := looks_of_takes h
  unfold looks at hlooks
  split at hlooks <;> grind

theorem takes_requeueAt (h : (Pc.requeueAt r m).takes b = some x) : x = (r, m) := by
  obtain ⟨r, hlooks, -⟩ := looks_of_takes h
  cases hlooks
  rfl

end Pc

def Goroutine.holds : Goroutine → Option Message
  | .broadcast (_ :: _) m => some m
  | _ => none

/-! ## What a section does with consumers -/

theorem Pc.appends_of_delays (h : pc.delays b = some x) :
    pc.appends b = some x ∧ x.2 ∈ pc.draft ∧ pc.takes b = none := by
  unfold Pc.delays at h
  split at h
  · rcases mem_draft_of_appends h with hdraft | hreq
    · exact ⟨h, hdraft, rfl⟩
    · cases hreq
  · cases h

theorem Pc.step_holds (h : pc.step now b = some o) (hn : o.next = .goto pc') (hm : pc'.holds = some m) :
    pc.holds = some m ∨ ∃ t, pc.takes b = some (t, m) := by
  cases Pc.step_goto h hn with
  | @takeWild p r rest channels =>
    cases channels with
    | cons ch channels => exact .inl hm
    | nil =>
      cases hw : b.waiting r with
      | nil => rw [hw] at hm; cases hm
      | cons ch chs =>
        rw [hw] at hm
        cases hm
        exact .inr ⟨p.t, takes_of_waiting rfl (hw ▸ cons_ne_nil _ _)⟩
  | @tookWild p channels => cases channels <;> exact .inl hm
  | popWild hw | popOwn hw => cases hm; exact .inr ⟨_, takes_of_waiting rfl hw⟩
  | @broadcast ch channels m₀ =>
    cases channels with
    | nil => cases hm
    | cons ch' channels => exact .inl hm
  | _ => cases hm

theorem Pc.holds_of_sendsTo (h : pc.sendsTo b = some (ch, m)) :
    pc.holds = some m ∨ ∃ r, pc = .requeueAt r m ∧ pc.takes b = some (r, m) := by
  unfold Pc.sendsTo at h
  split at h
  · cases h; exact .inl rfl
  · cases h; exact .inl rfl
  · cases h; exact .inl rfl
  next t m' =>
    obtain ⟨ch', hhead, heq⟩ := map_eq_some_iff.mp h
    cases heq
    refine .inr ⟨t, rfl, takes_of_waiting rfl fun hnil => ?_⟩
    rw [hnil] at hhead
    cases hhead
  · cases h

theorem Pc.step_sends (h : pc.step now b = some o) (hc : pc.isConsume = false) (hm : (ch, m) ∈ o.handed) :
    pc.holds = some m ∨ ∃ r, pc = .requeueAt r m ∧ pc.takes b = some (r, m) := by
  rcases Pc.step_sent h hc with hnone | ⟨ch', m', hto, -, hsent⟩
  · rw [hnone] at hm
    cases hm
  · rw [hsent] at hm
    cases mem_singleton.mp hm
    exact holds_of_sendsTo hto

theorem ConsumePc.step_handed {q} {k : ConsumePc}
    (h : k.step now b q = some o) : ∀ x ∈ o.handed, x.2.expired now = false := by
  have hready : ∀ {results : List Message} {o : Outcome},
      (∀ m ∈ results, m.expired now = false ∧ m.delayed now = false) →
      o.handed = results.map (fun m => (q.notifyChan, m)) → ∀ x ∈ o.handed, x.2.expired now = false := by
    intro results o hready ho x hx
    rw [ho] at hx
    obtain ⟨m, hm, rfl⟩ := List.mem_map.mp hx
    exact (hready m hm).1
  cases k with
  | scan t rest =>
    cases rest with
    | nil => cases h; exact nofun
    | cons r rest =>
      obtain ⟨⟨⟨results, ids, name⟩, b'⟩, hb, rfl⟩ := map_eq_some_iff.mp h
      exact hready (extractMatching_extracts hb).ready rfl
  | target t =>
    obtain ⟨⟨⟨results, ids, name⟩, b'⟩, hb, rfl⟩ := map_eq_some_iff.mp h
    exact hready (extractTarget_extracts hb).ready rfl
  | _ =>
    unfold step at h
    grind [Outcome.goto, Outcome.ret]

theorem Pc.step_results (h : pc.step now b = some o) (hn : o.next = .goto pc') (hm : m ∈ pc'.results) :
    m ∈ pc.results ∨ m.expired now = false := by
  cases Pc.step_goto h hn with
  | scan hready | target hready => exact .inr (hready m hm)
  | scanAck | targetAck => exact .inl hm
  | _ => cases hm

/-! ## Runs -/

namespace World

variable {w : World} {l : WorldLabel} {i : Nat} {m : Message}

/-- Consumers were taken off their topics for the message and wait for it. -/
def Holding (w : World) (m : Message) : Prop :=
  (∃ i pc, w.pcAt i = some pc ∧ pc.holds = some m) ∨ ∃ g ∈ w.broker.goroutines, g.holds = some m

theorem holding_step (hf : w.Framed) (hs : w.step l = some w') (h : w'.Holding m) :
    w.Holding m ∨ ∃ i pc t, l = .sys (.run i) ∧ w.pcAt i = some pc ∧ pc.takes w.broker = some (t, m) := by
  rcases h with ⟨j, pc', hpc', hm⟩ | ⟨g, hg, hm⟩
  · cases arrives hf hs hpc' with
    | stays hpc => exact .inl (.inl ⟨j, pc', hpc, hm⟩)
    | @start op hl hpc => subst hpc; cases op <;> cases hm
    | timer hmem hdue hpc => subst hpc; cases hm
    | @broadcast channels m₀ hmem hpc =>
      subst hpc
      cases channels <;> cases hm
      exact .inl (.inr ⟨_, hmem, rfl⟩)
    | @goes pc o hl hadv hn =>
      rcases Pc.step_holds hadv.step hn hm with hold | ⟨t, ht⟩
      · exact .inl (.inl ⟨j, pc, hadv.at_pc, hold⟩)
      · exact .inr ⟨j, pc, t, hl, hadv.at_pc, ht⟩
    | outset hout =>
      obtain ⟨left, a, k, rfl, -⟩ := hout.eq
      cases hm
  · cases spawned hf hs hg with
    | old hg => exact .inl (.inr ⟨g, hg, hm⟩)
    | timer => cases hm
    | @cast i p channels o hl hadv =>
      cases channels with
      | cons ch channels =>
        cases hm
        exact .inl (.inl ⟨i, _, hadv.at_pc, rfl⟩)
      | nil =>
        cases hw : w.broker.waiting p.t with
        | nil => rw [hw] at hm; cases hm
        | cons ch chs =>
          rw [hw] at hm
          cases hm
          exact .inr ⟨i, _, p.t, hl, hadv.at_pc, Pc.takes_of_waiting rfl (hw ▸ cons_ne_nil _ _)⟩

/-! ## Expired messages -/

/-- The message is on its way to a consumer. -/
def UnderWay (w : World) (m : Message) : Prop :=
  w.Holding m ∨ ∃ i pc, w.pcAt i = some pc ∧ m ∈ pc.results

/-- A push or a `Requeue` takes a consumer for a message that has not
expired, and no time passes that a message on its way expires in. -/
def InTime (w : World) : WorldLabel → Prop
  | .sys (.run i) => ∀ pc x, w.pcAt i = some pc → pc.takes w.broker = some x → x.2.expired w.now = false
  | .sys (.tick d) => ∀ m, w.UnderWay m → m.expired (w.now + d) = false
  | _ => True

/-- What was handed over, and what is on its way, has not expired. -/
structure Timely (w : World) : Prop where
  framed : w.Framed
  handed : ∀ τ ch m, (τ, ch, m) ∈ w.past.handed → m.expired τ = false
  underWay : ∀ m, w.UnderWay m → m.expired w.now = false

theorem underWay_step (hf : w.Framed) (hs : w.step l = some w') (h : w'.UnderWay m) :
    w.UnderWay m ∨ ∃ i pc, l = .sys (.run i) ∧ w.pcAt i = some pc ∧
      (m.expired w.now = false ∨ ∃ t, pc.takes w.broker = some (t, m)) := by
  rcases h with hhold | ⟨j, pc', hpc', hm⟩
  · rcases holding_step hf hs hhold with hold | ⟨i, pc, t, hl, hpc, ht⟩
    · exact .inl (.inl hold)
    · exact .inr ⟨i, pc, hl, hpc, .inr ⟨t, ht⟩⟩
  · cases arrives hf hs hpc' with
    | stays hpc => exact .inl (.inr ⟨j, pc', hpc, hm⟩)
    | @start op hl hpc => subst hpc; cases op <;> cases hm
    | timer hmem hdue hpc | broadcast hmem hpc => subst hpc; cases hm
    | @goes pc o hl hadv hn =>
      rcases Pc.step_results hadv.step hn hm with hold | hnew
      · exact .inl (.inr ⟨j, pc, hadv.at_pc, hold⟩)
      · exact .inr ⟨j, pc, hl, hadv.at_pc, .inl hnew⟩
    | outset hout =>
      obtain ⟨left, a, k, rfl, -⟩ := hout.eq
      cases hm

theorem Timely.step (h : w.Timely) (hok : w.InTime l) (hs : w.step l = some w') : w'.Timely where
  framed := h.framed.step hs
  handed τ ch m hm := by
    rcases advances_or_rests h.framed hs with ⟨i, pc, o, rfl, hadv⟩ | ⟨-, hrest⟩
    · rw [hadv.past_handed] at hm
      rcases mem_append.mp hm with hm | hm
      · exact h.handed τ ch m hm
      · obtain ⟨x, hx, heq⟩ := List.mem_map.mp hm
        cases heq
        cases hc : pc.isConsume with
        | true =>
          cases pc with
          | consume q k => exact ConsumePc.step_handed hadv.step _ hx
          | _ => cases hc
        | false =>
          rcases Pc.step_sends hadv.step hc hx with hold | ⟨r, -, htake⟩
          · exact h.underWay m (.inl (.inl ⟨i, pc, hadv.at_pc, hold⟩))
          · exact hok pc _ hadv.at_pc htake
    · rw [hrest.handed] at hm
      exact h.handed τ ch m hm
  underWay m hm := by
    rcases underWay_step h.framed hs hm with hold | ⟨i, pc, rfl, hpc, hnew⟩
    · rcases now_step hs with hnow | ⟨d, rfl, hnow⟩
      · rw [hnow]
        exact h.underWay m hold
      · rw [hnow]
        exact hok m hold
    · rcases now_step hs with hnow | ⟨d, hl, -⟩
      · rw [hnow]
        rcases hnew with hnew | ⟨t, ht⟩
        · exact hnew
        · exact hok pc _ hpc ht
      · cases hl

/-- **Expired messages are not delivered**: in every run of any methods whose
steps meet the condition, no message was sent to a consumer or taken out for
one after it had expired, and none that a `Consume` is about to return has
expired by now. -/
theorem expired_undelivered {now : Time} {b : Broker} (hb : b.goroutines = [])
    (hrun : Lts.Run step InTime (init now b) w) : (∀ τ ch m, (τ, ch, m) ∈ w.past.handed → m.expired τ = false) ∧
      ∀ i pc m, w.pcAt i = some pc → m ∈ pc.results → m.expired w.now = false := by
  have h : w.Timely := by
    refine hrun.invariant (I := Timely) (fun _ _ _ => Timely.step) ⟨init_framed, nofun, fun m hm => ?_⟩
    rcases hm with (⟨i, pc, hpc, -⟩ | ⟨g, hg, -⟩) | ⟨i, pc, hpc, -⟩
    · cases hpc
    · rw [show (init now b).broker.goroutines = [] from hb] at hg
      cases hg
    · cases hpc
  exact ⟨h.handed, fun i pc m hpc hm => h.underWay m (.inr ⟨i, pc, hpc, hm⟩)⟩

def expiringPublish (e : Time) : PublishArgs := { samplePublish with expiresAt := some e }

/-- A consumer waits at time 2, and a message is published that expired at 1. -/
def publishExpired : List WorldLabel :=
  WorldLabel.call 0 (.consume ⟨ascii "t", 1, 0⟩) 5 ++ WorldLabel.call 1 (.publish (expiringPublish 1)) 12

/-- It is sent to the consumer. -/
theorem expired_sent : ∃ w, Lts.Run step (fun _ _ => True) (init 2 .sample) w ∧
    w.past.handed = [(2, 0, (expiringPublish 1).message [97] 0 2)] ∧
    ((expiringPublish 1).message [97] 0 2).expired 2 = true :=
  ⟨_, Lts.Run.of_exec_get publishExpired (by decide +kernel) (by decide +kernel),
    by decide +kernel, by decide +kernel⟩

def inTimeNow (w : World) : WorldLabel → Bool
  | .sys (.run i) => ((w.pcAt i).bind fun pc => pc.takes w.broker).all fun x => !x.2.expired w.now
  | .sys (.tick _) => false
  | _ => true

theorem inTime_of_now (h : w.inTimeNow l = true) : w.InTime l := by
  unfold InTime
  split
  · intro pc x hpc hx
    simpa [inTimeNow, hpc, hx] using h
  · cases h
  · trivial

/-- A message is sent to a consumer that waits, and another one is returned. -/
def publishInTime : List WorldLabel :=
  WorldLabel.call 0 (.consume ⟨ascii "t", 1, 0⟩) 5 ++ WorldLabel.call 1 (.publish (expiringPublish 3)) 13 ++
    WorldLabel.call 2 (.publish (expiringPublish 4)) 11 ++ WorldLabel.call 3 (.consume ⟨ascii "t", 1, 1⟩) 4

theorem expired_undelivered_sample : ∃ w, Lts.Run step InTime (init 2 .sample) w ∧
    w.past.handed = [(2, 0, (expiringPublish 3).message [97] 0 2), (2, 1, (expiringPublish 4).message [97, 97] 0 2)] ∧
    ∀ τ ch m, (τ, ch, m) ∈ w.past.handed → m.expired τ = false :=
  have hrun : Lts.Run step (fun w l => w.inTimeNow l = true) (init 2 .sample) _ :=
    Lts.Run.of_exec_get publishInTime (by decide +kernel) (by decide +kernel)
  ⟨_, hrun.mono fun _ _ => inTime_of_now, by decide +kernel,
    (expired_undelivered rfl (hrun.mono fun _ _ => inTime_of_now)).1⟩

/-! ## Delayed messages that were removed -/

end World

namespace Broker

variable {x : TopicRef × Message}

theorem mem_present : x ∈ b.present ↔ ∃ t, b.heap[x.1]? = some t ∧ t.deleted = false ∧ x.2 ∈ t.queued := by
  obtain ⟨r, m⟩ := x
  simp only [present, mem_flatMap, Prod.exists, mem_zipIdx_iff_getElem?]
  constructor
  · rintro ⟨t, r', ht, hm⟩
    split at hm
    · cases hm
    next hdel =>
      obtain ⟨m', hm', heq⟩ := List.mem_map.mp hm
      cases heq
      exact ⟨t, ht, by simpa using hdel, hm'⟩
  · rintro ⟨t, ht, hdel, hm⟩
    exact ⟨t, r, ht, by simpa [hdel] using hm⟩

theorem present_setTopic_waiting (ht : b.lock r = some t) (chs : List Chan)
    (hx : x ∈ b.present) : x ∈ (b.setTopic r { t with waitingConsumers := chs }).present := by
  have hset : ∀ r', (b.setTopic r { t with waitingConsumers := chs }).heap[r']? =
      if r' = r then some { t with waitingConsumers := chs } else b.heap[r']? := getElem?_setTopic ht rfl
  obtain ⟨t₁, ht₁, hdel, hm⟩ := mem_present.mp hx
  rw [mem_present, hset]
  split
  next hr =>
    rw [hr, (lock_eq_some.mp ht).1] at ht₁
    cases ht₁
    exact ⟨_, rfl, hdel, hm⟩
  · exact ⟨t₁, ht₁, hdel, hm⟩

end Broker

theorem PushPc.step_present (h : k.step b p = some o) (ht : (Pc.push p k).takes b = some y) (hx : x ∈ b.present) :
    x ∈ o.broker.present := by
  cases PushPc.steps h with
  | takeWild hb | takeOwn hb =>
    obtain ⟨t, hl, hb⟩ := map_eq_some_iff.mp hb
    cases hb
    exact present_setTopic_waiting hl _ hx
  | popWild hb | noneWild hb | popOwn hb | noneOwn hb =>
    obtain ⟨t, hl, hb⟩ := map_eq_some_iff.mp hb
    split at hb <;> cases hb
    first
    | exact hx
    | exact present_setTopic_waiting hl _ hx
  | _ => cases ht

namespace World

variable {x : TopicRef × Message}

variable {w w' : World} {l : WorldLabel} {i : Nat} {m : Message}

/-- A message that is in a topic was there before, or is appended by the
section. -/
theorem present_step (hs : w.step l = some w') (hx : x ∈ w'.broker.present) : x ∈ w.broker.present ∨
      ∃ i pc, l = .sys (.run i) ∧ w.pcAt i = some pc ∧ pc.appends w.broker = some x := by
  obtain ⟨t', ht', hdel, hm⟩ := mem_present.mp hx
  have hheap := step_heap hs
  rcases hheap.origin ht' with ⟨t, ht⟩ | ⟨-, name, policy, retention, rfl⟩
  · obtain ⟨t₂, ht₂, hcases⟩ := hheap.object ht
    cases ht'.symm.trans ht₂
    have hold : t.deleted = false → x.2 ∈ t.queued → x ∈ w.broker.present :=
      fun hd hq => mem_present.mpr ⟨t, ht, hd, hq⟩
    rcases hcases with rfl | ⟨-, sec, hsec, hmove⟩ | ⟨rfl, -⟩
    · exact .inl (hold hdel hm)
    · have hdel₀ : t.deleted = false := by rw [← hmove.static.2]; exact hdel
      rcases hmove.queued with hsub | ⟨pc, m, rfl, happ, hsub⟩
      · exact .inl (hold hdel₀ (hsub.subset hm))
      · rcases mem_cons.mp (hsub.subset hm) with heq | hq
        · obtain ⟨i, c, rfl, hc, rfl⟩ := sectionOf_call hsec
          refine .inr ⟨i, c.pc, rfl, by simp [pcAt, hc], ?_⟩
          rw [happ, ← heq]
        · exact .inl (hold hdel₀ hq)
    · cases hdel
  · cases hm

def takenOut (w : World) (l : WorldLabel) : List (TopicRef × Message) :=
  ((w.step l).map fun w' => w.broker.present.filter fun x => x ∉ w'.broker.present).getD []

/-- A push takes a consumer for a delayed message while it is in its topic,
and no delayed message is taken out of its topic between that and the send. -/
def KeepsDelayed (w : World) (l : WorldLabel) : Prop :=
  (∀ i pc x, l = .sys (.run i) → w.pcAt i = some pc → pc.takes w.broker = some x → x ∈ w.past.delayed →
    x ∈ w.broker.present) ∧
  ∀ x ∈ w.takenOut l, x ∈ w.past.delayed → ¬ w.Holding x.2

structure Kept (w : World) : Prop where
  traced : w.Traced
  delayed : ∀ x ∈ w.past.delayed, x ∈ w.originals
  removed : ∀ x ∈ w.past.removed, x ∈ w.past.appended
  gone : ∀ x ∈ w.past.removed, x.2.original = true → x ∉ w.broker.present
  held : ∀ x ∈ w.past.delayed, w.Holding x.2 → x ∈ w.broker.present

theorem mem_takenOut (hs : w.step l = some w') : x ∈ w.takenOut l ↔ x ∈ w.broker.present ∧ x ∉ w'.broker.present := by
  simp [takenOut, hs]

theorem removed_step (hs : w.step l = some w') (hx : x ∈ w'.past.removed) :
    x ∈ w.past.removed ∨ x ∈ w.takenOut l := by
  rw [mem_takenOut hs]
  have hrecord : ∀ {s : Sys}, x ∈ (w.record l s).removed →
      x ∈ w.past.removed ∨ x ∈ w.broker.present ∧ x ∉ s.broker.present := by
    intro s hx
    simpa [record] using hx
  cases l with
  | sys l => obtain ⟨-, s, -, rfl⟩ := step_sys hs; exact hrecord hx
  | start i m => obtain ⟨-, -, rfl⟩ := step_start hs; exact .inl hx
  | run i => obtain ⟨pc, o, -, -, rfl⟩ := step_run hs; exact hrecord hx
  | recvSpy ch => obtain ⟨spyChans, rfl⟩ := step_recvSpy hs; exact .inl hx

theorem delayed_step (hf : w.Framed) (hs : w.step l = some w') (hx : x ∈ w'.past.delayed) :
    x ∈ w.past.delayed ∨ ∃ i pc o, l = .sys (.run i) ∧ Advances w w' i pc o ∧ pc.delays w.broker = some x := by
  rcases advances_or_rests hf hs with ⟨i, pc, o, rfl, hadv⟩ | ⟨-, hrest⟩
  · rw [hadv.delayed] at hx
    rcases mem_append.mp hx with hx | hx
    · exact .inl hx
    · exact .inr ⟨i, pc, o, rfl, hadv, mem_toList.mp hx⟩
  · exact .inl (hrest.delayed ▸ hx)

theorem Traced.holding (h : w.Traced) (hm : w.Holding m) : ∃ r, (r, m) ∈ w.originals := by
  rcases hm with ⟨i, pc, hpc, hm⟩ | ⟨g, hg, hm⟩
  · cases pc with
    | push p k =>
      have hmsg : p.msg = m := by
        unfold Pc.holds at hm
        split at hm <;> grind
      exact ⟨p.t, hmsg ▸ h.pushes i p k hpc⟩
    | broadcast channels m₀ =>
      cases channels <;> cases hm
      exact h.broadcasts i _ m hpc
    | _ => cases hm
  · cases g with
    | timer due p => cases hm
    | broadcast channels m₀ =>
      cases channels <;> cases hm
      exact h.casts _ m hg

namespace Kept

theorem gone_step (h : w.Kept) (hs : w.step l = some w') (hx : x ∈ w'.past.removed)
    (ho : x.2.original = true) : x ∉ w'.broker.present := by
  rcases removed_step hs hx with hx | hx
  · intro hpres
    rcases present_step hs hpres with hold | ⟨i, pc, rfl, hpc, happ⟩
    · exact h.gone x hx ho hold
    · rcases Pc.mem_draft_of_appends happ with hdraft | hreq
      · exact h.traced.unstored hpc hdraft (mem_filter.mpr ⟨h.removed x hx, ho⟩) rfl
      · rw [h.traced.requeues i pc x.2 hpc hreq] at ho
        cases ho
  · exact ((mem_takenOut hs).mp hx).2

theorem held_step (h : w.Kept) (hok : w.KeepsDelayed l) (hs : w.step l = some w')
    (hx : x ∈ w'.past.delayed) (hhold : w'.Holding x.2) : x ∈ w'.broker.present := by
  have hhold' := holding_step h.traced.framed hs hhold
  rcases delayed_step h.traced.framed hs hx with hx | ⟨i, pc, o, rfl, hadv, hdelay⟩
  · rcases hhold' with hold | ⟨i, pc, t, rfl, hpc, htake⟩
    · by_contra hgone
      exact hok.2 x ((mem_takenOut hs).mpr ⟨h.held x hx hold, hgone⟩) hx hold
    · obtain ⟨pc', o, hadv⟩ := advances h.traced.framed hs
      cases hpc.symm.trans hadv.at_pc
      have horig := mem_filter.mp (h.delayed x hx)
      cases pc with
      | push p k =>
        have htopic : x = (t, x.2) := by
          have hp : (t, x.2) = (p.t, p.msg) := Pc.takes_push htake
          exact h.traced.unique (h.delayed x hx) (hp ▸ h.traced.pushes i p k hpc) rfl
        rw [hadv.broker]
        exact PushPc.step_present hadv.step htake (hok.1 i _ x rfl hpc (htopic ▸ htake) hx)
      | requeueAt r m =>
        have hm : x.2 = m := congrArg Prod.snd (Pc.takes_requeueAt htake)
        have hnot := h.traced.requeues i _ m hpc rfl
        rw [← hm, horig.2] at hnot
        cases hnot
      | _ => cases htake
  · obtain ⟨happ, hdraft, hnone⟩ := Pc.appends_of_delays hdelay
    rcases hhold' with hold | ⟨j, pc', t, hl, hpc', htake⟩
    · obtain ⟨r, hr⟩ := h.traced.holding hold
      exact absurd rfl (h.traced.unstored (x := (r, x.2)) hadv.at_pc hdraft hr)
    · cases hl
      cases hpc'.symm.trans hadv.at_pc
      cases hnone.symm.trans htake

theorem step (h : w.Kept) (hok : w.KeepsDelayed l) (hs : w.step l = some w') : w'.Kept where
  traced := h.traced.step hs
  delayed x hx := by
    rcases delayed_step h.traced.framed hs hx with hx | ⟨i, pc, o, rfl, hadv, hdelay⟩
    · exact originals_mono h.traced.framed hs (h.delayed x hx)
    · obtain ⟨happ, hdraft, -⟩ := Pc.appends_of_delays hdelay
      exact hadv.mem_originals happ (h.traced.draft i pc x.2 hadv.at_pc hdraft)
  removed x hx := by
    obtain ⟨new, happ, -⟩ := appended_prefix h.traced.framed hs
    rw [happ]
    refine mem_append_left _ ?_
    rcases removed_step hs hx with hx | hx
    · exact h.removed x hx
    · obtain ⟨t, ht, -, hm⟩ := mem_present.mp ((mem_takenOut hs).mp hx).1
      exact h.traced.mem_appended (queued_of_getElem? ht ▸ hm)
  gone _ := h.gone_step hs
  held _ := h.held_step hok hs

theorem init (now limits policy hooked storage env chans) :
    (World.init now (.new limits policy hooked storage env chans)).Kept where
  traced := .init ..
  delayed := nofun
  removed := nofun
  gone := nofun
  held := nofun

end Kept

/-- **Removed means gone**: in every run of any methods whose steps meet the
condition, no step sends a delayed message that was removed from its topic
before. -/
theorem removed_unsent {now limits policy hooked storage env chans} {r : TopicRef} {ch : Chan}
    (hrun : Lts.Run step KeepsDelayed (init now (.new limits policy hooked storage env chans)) w)
    (hs : w.step l = some w') (hsent : w'.past.sent = w.past.sent ++ [(ch, m)]) (hm : (r, m) ∈ w.past.delayed) :
    (r, m) ∉ w.past.removed := by
  have h : w.Kept := hrun.invariant (I := Kept) (fun _ _ _ => Kept.step) (.init ..)
  intro hgone
  have horig := h.delayed _ hm
  rcases advances_or_rests h.traced.framed hs with ⟨i, pc, o, rfl, hadv⟩ | ⟨-, hrest⟩
  · rw [hadv.sent] at hsent
    have hnew := append_cancel_left hsent
    cases hc : pc.isConsume with
    | true => rw [hc] at hnew; cases hnew
    | false =>
      rw [hc] at hnew
      have hmem : (ch, m) ∈ o.handed := by
        rw [show o.handed = [(ch, m)] from hnew]
        exact mem_singleton.mpr rfl
      rcases Pc.step_sends hadv.step hc hmem with hold | ⟨r', rfl, -⟩
      · exact h.gone _ hgone (mem_filter.mp horig).2 (h.held _ hm (.inl ⟨i, pc, hadv.at_pc, hold⟩))
      · have hnot := h.traced.requeues i _ m hadv.at_pc rfl
        exact absurd (mem_filter.mp horig).2 (by simp [hnot])
  · rw [hrest.sent] at hsent
    exact absurd (congrArg List.length hsent) (by simp)

def delayedPublish : PublishArgs := { samplePublish with deliverAt := some 5 }

/-- A message is published with a delay and acknowledged before it is due;
then a consumer waits, and the timer goes off. -/
def ackBeforeDue : List WorldLabel :=
  WorldLabel.call 0 (.publish delayedPublish) 7 ++ WorldLabel.call 1 (.ack (ascii "t") [97]) 2 ++ [.sys (.tick 5)] ++
    WorldLabel.call 2 (.consume ⟨ascii "t", 1, 0⟩) 5 ++ .sys (.fire 0 3) :: replicate 4 (.sys (.run 3))

/-- The consumer gets it all the same. -/
theorem removed_sent : ∃ w w' m, Lts.Run step (fun _ _ => True) (init 0 .sample) w ∧
    w.step (.sys (.run 3)) = some w' ∧ m.deliverAt = some 5 ∧ w.past.delayed = [(0, m)] ∧ w.past.removed = [(0, m)] ∧
    w.past.sent = [] ∧ w'.past.sent = [(0, m)] :=
  ⟨_, _, delayedPublish.message [97] 0 0, Lts.Run.of_exec_get ackBeforeDue (by decide +kernel)
    (by decide +kernel),
    (some_get (by decide +kernel)).symm, by decide +kernel, by decide +kernel, by decide +kernel,
    by decide +kernel, by decide +kernel⟩

def keepsAllDelayed (w : World) (l : WorldLabel) : Bool :=
  (((w.runs l).bind fun pc => pc.takes w.broker).all fun x => x ∈ w.past.delayed → x ∈ w.broker.present) &&
    (w.takenOut l).all fun x => x ∉ w.past.delayed

theorem keepsDelayed_of_all (h : w.keepsAllDelayed l = true) : w.KeepsDelayed l := by
  obtain ⟨htakes, hout⟩ := Bool.and_eq_true_iff.mp h
  refine ⟨fun i pc x hl hpc hx hd => ?_, fun x hx hd => ?_⟩
  · subst hl
    have hruns : w.runs (.sys (.run i)) = some pc := hpc
    have himp : x ∉ w.past.delayed ∨ x ∈ w.broker.present := by simpa [hruns, hx] using htakes
    exact himp.resolve_left (not_not_intro hd)
  · exact absurd hd (of_decide_eq_true (List.all_eq_true.mp hout x hx))

def waitUntilDue : List WorldLabel :=
  WorldLabel.call 0 (.publish delayedPublish) 7 ++ WorldLabel.call 2 (.consume ⟨ascii "t", 1, 0⟩) 5 ++
    [.sys (.tick 5), .sys (.fire 0 3)] ++ replicate 4 (.sys (.run 3))

theorem removed_unsent_sample : ∃ w w' m, Lts.Run step KeepsDelayed (init 0 .sample) w ∧
    w.step (.sys (.run 3)) = some w' ∧ w'.past.sent = w.past.sent ++ [(0, m)] ∧ (0, m) ∈ w.past.delayed ∧
    (0, m) ∉ w.past.removed :=
  have hrun : Lts.Run step (fun w l => w.keepsAllDelayed l = true) (init 0 .sample) _ :=
    Lts.Run.of_exec_get waitUntilDue (by decide +kernel) (by decide +kernel)
  have hs := (some_get (by decide +kernel)).symm
  ⟨_, _, delayedPublish.message [97] 0 0, hrun.mono fun _ _ => keepsDelayed_of_all, hs, by decide +kernel,
    by decide +kernel,
    removed_unsent (hrun.mono fun _ _ => keepsDelayed_of_all) hs
      (show _ = _ ++ [((0 : Chan), _)] by decide +kernel)
      (by decide +kernel)⟩

end World

end TinyMQ
