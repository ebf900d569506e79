/-
Messages that are handed out twice, and runs in which none is.

A `publishCore` queues its message, and its push later hands the same
message to a waiting consumer without looking at the queue, which it cleans
up in yet another critical section. So a message can be handed out twice in
two ways: a `Consume` takes it before the push sends it, or between the
send and the removal. A run that does neither (`Orderly`) hands every
message out once at most.
-/
import TinyMQ.Ownership

namespace TinyMQ

open List Broker

/-- The push whose message a call sends next. -/
def Role.sending? : Role → Option Push
  | .sending p _ => some p
  | _ => none

/-- The push whose message a call has sent and removes next. -/
def Role.removing? : Role → Option Push
  | .removing p => some p
  | _ => none

theorem Effect.handed_cases (h : Effect now b pc b' v handed) : handed = [] ∨
      (∃ p ch, pc.role = .sending p ch ∧ handed = [(ch, p.msg)] ∧ v = .inl (.removing p)) ∨
      (∃ m, pc.role = .casting m) ∨ ∃ ch limit r ms, pc.looksAt = some r ∧ handed = ms.map (fun m => (ch, m)) ∧
        Extracts now limit b b' r ms none := by
  cases h with
  | send hρ ht => exact .inr (.inl ⟨_, _, hρ, rfl, rfl⟩)
  | castSend hρ ht => exact .inr (.inr (.inl ⟨_, hρ⟩))
  | extract hρ hat hx => exact .inr (.inr (.inr ⟨_, _, _, _, hat, rfl, hx⟩))
  | _ => exact .inl rfl

theorem Effect.removing (h : Effect now b pc b' v handed) (hρ : pc.role = .removing p) :
    v = .inl (.removing p) ∨ b.Removes b' p.t p.msg.id := by
  cases h with
  | quiet hq hmove =>
    cases hmove with
    | stay => exact .inl (by rw [hρ])
    | _ => simp_all [Pc.role]
  | remove hρ' hr =>
    cases hρ.symm.trans hρ'
    exact .inr hr
  | _ => simp_all [Pc.role]

namespace Sys

variable {s s' : Sys} {l : Label} {i : Nat} {pc : Pc} {v : Role ⊕ Ret}
  {handed : List (Chan × Message)} {p : Push}
  {m : Message} {ch : Chan} {r : TopicRef}

/-- Goroutine `i` sends no message but one that is still queued. -/
def SendsQueued (s : Sys) (i : Nat) : Prop := ∀ p ∈ (s.role i).sending?, p.msg ∈ s.broker.queued p.t

/-- What goroutine `i` looks at has no message that goroutine `j` has sent
and has still to remove. -/
def LooksPast (s : Sys) (i j : Nat) : Prop :=
  ∀ c ∈ s.calls i, ∀ r ∈ c.pc.looksAt, ∀ p ∈ (s.role j).removing?, p.msg ∉ s.broker.queued r

/-- The steps that keep hand-outs apart: a push sends only a message that is
still queued, and a `Consume` looks at no topic with a message that was sent
and has still to be removed. No broadcast and no `Requeue` starts. -/
def Orderly (s : Sys) (l : Label) : Prop := l.Unicast ∧ ∀ i, l = .run i → s.SendsQueued i ∧ ∀ j, s.LooksPast i j

/-- No message was handed out twice, and one that was handed out and is
still queued is about to be removed. -/
structure HandedOnce (s : Sys) : Prop where
  nodup : (s.handed.map Prod.snd).Nodup
  pending : ∀ {ch m r}, (ch, m) ∈ s.handed → m ∈ s.broker.queued r → ∃ i p, s.role i = .removing p ∧ p.msg = m

theorem Regular.not_queued_of_removes (hs : s.Regular) (hrole : s.role i = .removing p)
    (h : s.broker.Removes s'.broker p.t p.msg.id) : p.msg ∉ s'.broker.queued r := by
  intro hm
  have hq := h.mem_queued hm
  have hhome := hs.homed.queue hq
  rw [(hs.homed.call i).push (p := p) (by rw [hrole]; rfl), Option.some.injEq] at hhome
  subst hhome
  rcases h.queue with ⟨-, hnone⟩ | ⟨m', hid, hperm⟩
  · exact hnone _ hq rfl
  · have hm' : m' = p.msg :=
      hs.fresh.stored_inj (.inl ⟨p.t, hperm.mem_iff.mpr (by simp)⟩) (.inl ⟨p.t, hq⟩) hid
    subst hm'
    exact (nodup_cons.mp (hperm.nodup_iff.mp (hs.owned.queue p.t))).1 hm

theorem Regular.not_queued_of_extracts {ms w now limit r'}
    (hs : s.Regular) (h : Extracts now limit s.broker s'.broker r ms w) (hm : m ∈ ms) : m ∉ s'.broker.queued r' := by
  intro hq
  have hhome := hs.homed.queue (h.mem_queued hq)
  rw [hs.homed.queue (h.mem_of_mem_results hm), Option.some.injEq] at hhome
  subst hhome
  obtain ⟨gone, hperm, -⟩ := h.queue
  have hnodup := hperm.nodup_iff.mp (hs.owned.queue r)
  exact (nodup_append'.mp hnodup).2.2 (by simp [hm]) hq

theorem Ran.queued_of_stored (hs : s.Regular) (h : Ran s s' i pc v handed) (hst : s.Stored m)
    (hm : m ∈ s'.broker.queued r) : m ∈ s.broker.queued r := by
  rcases mem_append.mp ((h.effect.queued_subperm r).subset hm) with hm | hm
  · obtain ⟨a, hρ⟩ := Role.mem_heldAt hm
    exact absurd rfl (hs.fresh.ne_of_holds (h.holds hρ) hst)
  · exact hm

theorem HandedOnce.ran (ho : s.HandedOnce) (hs : s.Regular) (hok : s.Orderly (.run i)) (h : Ran s s' i pc v handed) :
    s'.HandedOnce := by
  obtain ⟨hsend, hlook⟩ := hok.2 i rfl
  -- A message that was handed out before and is still queued is still about to be removed.
  have hold : ∀ {ch m r}, (ch, m) ∈ s.handed → m ∈ s'.broker.queued r →
    ∃ i p, s'.role i = .removing p ∧ p.msg = m := by
    intro ch m r hch hm
    obtain ⟨j, p, hj, rfl⟩ := ho.pending hch (h.queued_of_stored hs (.inr (.inr (.inr ⟨ch, hch⟩))) hm)
    by_cases hji : j = i
    · subst hji
      rcases h.effect.removing (h.role_eq.symm.trans hj) with hv | hr
      · have hgoes := h.goes
        rw [hv] at hgoes
        exact ⟨j, p, hgoes.1, rfl⟩
      · exact absurd hm (hs.not_queued_of_removes hj hr)
    · exact ⟨j, p, (h.roles j hji).trans hj, rfl⟩
  rcases h.effect.handed_cases with hnil | ⟨p, ch, hρ, heq, hv⟩ | ⟨m, hρ⟩ | ⟨ch, limit, r, ms, hat, heq, hx⟩
  · have hsame : s'.handed = s.handed := by rw [h.handed, hnil, append_nil]
    exact ⟨hsame ▸ ho.nodup, fun hch hm => hold (hsame ▸ hch) hm⟩
  · -- A send: the message was queued, so nobody has it.
    have hrole : s.role i = .sending p ch := h.role_eq.trans hρ
    have hnew : ∀ ch', (ch', p.msg) ∉ s.handed := by
      intro ch' hch'
      obtain ⟨j, p', hj, he⟩ := ho.pending hch' (hsend p (by rw [hrole]; rfl))
      have hji := hs.owned.calls (i := j) (j := i) (p := p') (q := p) (by rw [hj]; rfl)
        (by rw [hrole]; rfl) he
      rw [hji, hrole] at hj
      cases hj
    refine ⟨?_, fun {ch' m r} hch hm => ?_⟩
    · rw [h.handed, heq, map_append, nodup_append']
      refine ⟨ho.nodup, nodup_singleton _, ?_⟩
      intro m hm hin
      rw [mem_singleton.mp hin] at hm
      obtain ⟨⟨ch', m'⟩, hx, rfl⟩ := List.mem_map.mp hm
      exact hnew ch' hx
    · rw [h.handed, heq, mem_append, mem_singleton] at hch
      rcases hch with hch | hch
      · exact hold hch hm
      · cases hch
        have hgoes := h.goes
        rw [hv] at hgoes
        exact ⟨i, p, hgoes.1, rfl⟩
  · have huni := hs.unicast.role i
    rw [h.role_eq, hρ] at huni
    exact huni.elim
  · -- A `Consume`: nothing it takes has been sent.
    obtain ⟨stack, hc⟩ := h.at_pc
    have hnew : ∀ m ∈ ms, ∀ ch', (ch', m) ∉ s.handed := by
      intro m hm ch' hch'
      have hq := hx.mem_of_mem_results hm
      obtain ⟨j, p, hj, rfl⟩ := ho.pending hch' hq
      exact hlook j _ hc r hat p (by rw [hj]; rfl) hq
    refine ⟨?_, fun {ch' m r'} hch hm => ?_⟩
    · rw [h.handed, heq, map_append, List.map_map, nodup_append']
      refine ⟨ho.nodup, ?_, ?_⟩
      · obtain ⟨gone, hperm, -⟩ := hx.queue
        have hms := (nodup_append'.mp (hperm.nodup_iff.mp (hs.owned.queue r))).1
        simpa [Function.comp_def] using (nodup_append'.mp hms).1
      · intro m hm hin
        obtain ⟨⟨ch', m'⟩, hx', rfl⟩ := List.mem_map.mp hm
        exact hnew m' (by simpa using hin) ch' hx'
    · rw [h.handed, heq, mem_append] at hch
      rcases hch with hch | hch
      · exact hold hch hm
      · obtain ⟨m', hm', he⟩ := List.mem_map.mp hch
        cases he
        exact absurd hm (hs.not_queued_of_extracts hx hm')

theorem HandedOnce.step (ho : s.HandedOnce) (hs : s.Regular) (hok : s.Orderly l) (h : s.step l = some s') :
    s'.HandedOnce := by
  cases l with
  | run i =>
    obtain ⟨pc, v, handed, hran⟩ := ran_of_step hs.sound h
    exact ho.ran hs hok hran
  | tick d => cases h; exact ⟨ho.nodup, ho.pending⟩
  | start i op =>
    obtain ⟨hidle, -, rfl⟩ := step_start h
    refine ⟨ho.nodup, fun hch hm => ?_⟩
    obtain ⟨j, p, hj, hp⟩ := ho.pending hch hm
    have hji : j ≠ i := fun he => by rw [he, hidle] at hj; cases hj
    exact ⟨j, p, (setCall_role_ne _ hji _).trans hj, hp⟩
  | fire k i =>
    obtain ⟨g, hfired⟩ := fired_of_step h
    refine ⟨hfired.handed ▸ ho.nodup, fun hch hm => ?_⟩
    rw [hfired.handed] at hch
    rw [hfired.broker] at hm
    obtain ⟨j, p, hj, hp⟩ := ho.pending hch hm
    have hji : j ≠ i := fun he => by rw [he, hfired.idle] at hj; cases hj
    exact ⟨j, p, (hfired.roles j hji).trans hj, hp⟩
  | recv ch =>
    obtain ⟨m, rest, -, rfl⟩ := step_recv h
    exact ⟨ho.nodup, ho.pending⟩

/-- **At most once.** In every run on a broker at rest whose steps are
orderly, the messages handed to consumers, sent to their channels or taken
by their `Consume`, have different identifiers. -/
theorem handed_ids_nodup {now : Time} {b : Broker} (hb : b.Settled)
    (hrun : Lts.Run Sys.step Sys.Orderly (init now b) s) : (s.handed.map fun x => x.2.id).Nodup := by
  have hinv : s.Regular ∧ s.HandedOnce := by
    refine hrun.invariant (I := fun s => s.Regular ∧ s.HandedOnce)
      (fun s l s' hs hok hstep => ⟨hs.1.step hok.1 hstep, hs.2.step hs.1 hok hstep⟩)
      ⟨init_regular now hb, nodup_nil, ?_⟩
    intro ch m r hch
    cases hch
  obtain ⟨hs, ho⟩ := hinv
  have hids : (s.handed.map fun x => x.2.id) = (s.handed.map Prod.snd).map Message.id := by simp
  rw [hids]
  refine Nodup.map_on (fun m hm m' hm' hid => ?_) ho.nodup
  obtain ⟨⟨ch, m₁⟩, hx, rfl⟩ := List.mem_map.mp hm
  obtain ⟨⟨ch', m₂⟩, hx', rfl⟩ := List.mem_map.mp hm'
  exact hs.fresh.stored_inj (.inr (.inr (.inr ⟨ch, hx⟩))) (.inr (.inr (.inr ⟨ch', hx'⟩))) hid

/-- `Orderly` for a run of goroutines below `n`, which can be decided. -/
def OrderlyBelow (n : Nat) (s : Sys) (l : Label) : Prop :=
  l.Unicast ∧ ∀ i ∈ l.goroutine?, i < n ∧ s.SendsQueued i ∧ ∀ j < n, s.LooksPast i j

instance (n : Nat) (s : Sys) (l : Label) : Decidable (OrderlyBelow n s l) := by
  unfold OrderlyBelow SendsQueued LooksPast
  infer_instance

theorem run_orderly_of_below (hs : s.Below n) (h : Lts.Run Sys.step (OrderlyBelow n) s s') :
    Lts.Run Sys.step Orderly s s' ∧ s'.Below n := by
  induction h with
  | refl => exact ⟨.refl, hs⟩
  | @snoc s' s'' l hrun hok hstep ih =>
    obtain ⟨hrun', hbelow⟩ := ih
    refine ⟨.snoc hrun' ⟨hok.1, fun i hi => ?_⟩ hstep, hbelow.step (fun i hi => (hok.2 i hi).1) hstep⟩
    subst hi
    obtain ⟨-, hsend, hlook⟩ := hok.2 i rfl
    refine ⟨hsend, fun j => ?_⟩
    by_cases hj : j < n
    · exact hlook j hj
    · -- A goroutine that does nothing has nothing to remove.
      intro c hc r hr p hp
      rw [role, hbelow j (by omega)] at hp
      cases hp

end Sys

/-! ## Two runs -/

/-- Goroutine 0 queues a message, 1 consumes it, 2 waits, and 0 goes on to
send it to 2. -/
def consumeBeforePush : List Label :=
  [.start 0 (.publish samplePublish)] ++ replicate 7 (.run 0) ++
    [.start 1 (.consume ⟨ascii "t", 1, 1⟩)] ++ replicate 5 (.run 1) ++
    [.start 2 (.consume ⟨ascii "t", 1, 2⟩)] ++ replicate 5 (.run 2) ++ replicate 5 (.run 0)

/-- One message is returned by a `Consume` and sent to another consumer. -/
theorem handed_twice : ∃ s : Sys, Lts.Run Sys.step (fun _ l => l.Unicast) (Sys.init 0 .sample) s ∧
    s.results 1 = some (.consumed (some [firstMessage])) ∧ s.results 2 = some (.consumed none) ∧
    (s.broker.chans 2).buf = [firstMessage] ∧ s.handed = [(1, firstMessage), (2, firstMessage)] :=
  ⟨_, Lts.Run.of_exec_get consumeBeforePush (by decide +kernel) (by decide +kernel),
    by decide +kernel, by decide +kernel,
    by decide +kernel, by decide +kernel⟩

/-- Goroutine 1 waits, 0 publishes a message and sends it to 1, then 2
publishes another one and 3 consumes it. -/
def pushThenConsume : List Label :=
  [.start 1 (.consume ⟨ascii "t", 1, 1⟩)] ++ replicate 5 (.run 1) ++
    [.start 0 (.publish samplePublish)] ++ replicate 13 (.run 0) ++
    [.start 2 (.publish samplePublish)] ++ replicate 11 (.run 2) ++
    [.start 3 (.consume ⟨ascii "t", 1, 3⟩)] ++ replicate 5 (.run 3)

theorem handed_ids_nodup_sample : ∃ s : Sys, Settled .sample ∧ Lts.Run Sys.step Sys.Orderly (Sys.init 0 .sample) s ∧
    s.handed.length = 2 ∧ (s.handed.map fun x => x.2.id).Nodup := by
  have hrun : Lts.Run Sys.step (Sys.OrderlyBelow 4) (Sys.init 0 .sample) _ :=
    Lts.Run.of_exec_get pushThenConsume (by decide +kernel) (by decide +kernel)
  have horderly := (Sys.run_orderly_of_below (fun _ _ => rfl) hrun).1
  exact ⟨_, settled_new, horderly, by decide +kernel, Sys.handed_ids_nodup settled_new horderly⟩

end TinyMQ
