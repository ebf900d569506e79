/-
How messages leave their queues, on a broker where they do not expire.

From an empty broker whose topics reject when they are full, with publishes
without a TTL (`Lasting`), a message leaves its queue in three ways only
(`Effect.leaves`): a `Consume` takes it, the push that has sent it removes
it, an `Ack` removes it.
-/
import TinyMQ.Ownership

namespace TinyMQ

open List

/-! ## Messages that last -/

def Role.Lasts : Role → Prop
  | .publishing p => p.expiresAt = none
  | .located p _ => p.expiresAt = none
  | .holding p _ m => p.expiresAt = none ∧ m.expiresAt = none
  | _ => True

theorem Effect.lasts (h : Effect now b pc b' v handed) (hpc : pc.role.Lasts) (hb : ∀ t ∈ b.heap, t.retention = 0)
    (hv : v = .inl ρ) : ρ.Lasts := by
  cases h with
  | quiet hq hmove =>
    cases hmove with
    | stay => cases hv; exact hpc
    | call hρ | locate hρ ht => cases hv; rw [hρ] at hpc; exact hpc
    | sendFailed hρ ht hv' =>
      rcases hv' with rfl | rfl
      · cases hv; trivial
      · cases hv
    | _ => cases hv <;> trivial
  | create hρ ht =>
    cases hv
    rw [hρ] at hpc
    refine ⟨hpc, ?_⟩
    simp only [PublishArgs.message, PublishArgs.expiry, show _ = none from hpc,
      hb _ (mem_of_getElem? ht)]
    rfl
  | @extract b' t q r ms hρ hat hx => cases ms <;> cases hv <;> trivial
  | _ => cases hv <;> trivial

namespace Sys

variable {s : Sys}

/-- Messages do not expire, and topics reject when they are full. -/
structure Lasting (s : Sys) : Prop where
  calls : s.AllCalls (Call.AllRoles Role.Lasts)
  queue : ∀ {r m}, m ∈ s.broker.queued r → m.expiresAt = none
  topics : ∀ t ∈ s.broker.heap, t.policy = .reject ∧ t.retention = 0
  policy : s.broker.defaultPolicy = .reject

theorem Lasting.role (hs : s.Lasting) (i : Nat) : (s.role i).Lasts := by
  unfold Sys.role
  cases hc : s.calls i with
  | none => trivial
  | some c => exact (hs.calls i c hc).1

def LastingLabel : Label → Prop
  | .start _ (.publish p) => p.expiresAt = none
  | _ => True

theorem Lasting.step (hs : s.Lasting) (hsound : s.Sound) (hl : LastingLabel l)
    (h : s.step l = some s') : s'.Lasting := by
  obtain ⟨puts, hev, -⟩ := (passes_of_step hsound h).evolves
  refine ⟨?_, ?_, fun t' ht' => ?_, hev.defaultPolicy.trans hs.policy⟩
  · refine hs.calls.step h ?_ ?_ ?_
    · intro i op he
      subst he
      refine Op.entry_allRoles ?_
      cases op with
      | publish p => exact hl
      | _ => trivial
    · intro g c hg hc
      refine Goroutine.entry_allRoles hc ?_
      rcases Goroutine.entry_role hc with ⟨due, push, rfl, hr⟩ | ⟨chs, m, rfl, hr⟩ <;> rw [hr] <;> trivial
    · intro i c o c' hc hroles ho hres
      have hcall := hsound.calls i c hc
      exact hroles.resume hcall ho hres fun ρ hρ =>
        (Pc.step_effect hcall.pc ho).lasts hroles.1 (fun t ht => (hs.topics t ht).2) hρ
  · intro r m hm
    cases l with
    | tick d => cases h; exact hs.queue hm
    | start i op => obtain ⟨-, -, rfl⟩ := step_start h; exact hs.queue hm
    | run i =>
      obtain ⟨pc, v, handed, hran⟩ := ran_of_step hsound h
      rcases mem_append.mp ((hran.effect.queued_subperm r).subset hm) with hm | hm
      · obtain ⟨p, hρ⟩ := Role.mem_heldAt hm
        have hlast := hs.role i
        rw [hran.role_eq, hρ] at hlast
        exact hlast.2
      · exact hs.queue hm
    | fire k i =>
      obtain ⟨g, hfired⟩ := fired_of_step h
      rw [hfired.broker] at hm
      exact hs.queue hm
    | recv ch => obtain ⟨m, rest, -, rfl⟩ := step_recv h; exact hs.queue hm
  · rcases hev.static t' ht' with ⟨hp, hr⟩ | ⟨t, ht, hp, hr⟩
    · exact ⟨hp.trans hs.policy, hr⟩
    · rw [hp, hr]
      exact hs.topics t ht

end Sys

/-! ## How a message leaves its queue -/

section Effect

variable {r r' : TopicRef} {m : Message}

variable {b b' : Broker} {pc : Pc}

theorem Broker.Removes.mem_or {id} (h : b.Removes b' r id) (hm : m ∈ b.queued r') : m ∈ b'.queued r' ∨ m.id = id := by
  by_cases hr : r' = r
  · subst hr
    rcases h.queue with ⟨hq, -⟩ | ⟨m', hid, hp⟩
    · exact .inl (hq ▸ hm)
    · rcases mem_cons.mp (hp.mem_iff.mp hm) with rfl | hm
      · exact .inr hid
      · exact .inl hm
  · exact .inl (h.queued r' hr ▸ hm)

theorem Broker.Extracts.mem_or (h : Extracts now limit b b' r ms w) (hm : m ∈ b.queued r') :
    m ∈ b'.queued r' ∨ m ∈ ms ∨ m.expired now = true := by
  by_cases hr : r' = r
  · subst hr
    obtain ⟨gone, hp, hgone⟩ := h.queue
    have hm' := hp.mem_iff.mp hm
    simp only [mem_append] at hm'
    rcases hm' with (hm' | hm') | hm'
    · exact .inr (.inl hm')
    · exact .inr (.inr (hgone m hm'))
    · exact .inl hm'
  · exact .inl (h.queued r' hr ▸ hm)

theorem Broker.Stores.mem_of_reject {m'} (h : b.Stores b' r m)
    (hb : ∀ t ∈ b.heap, t.policy = .reject) (hm : m' ∈ b.queued r') : m' ∈ b'.queued r' := by
  by_cases hr : r' = r
  · subst hr
    obtain ⟨gone, hp, hgone⟩ := h.queue
    rw [hgone hb, nil_append] at hp
    exact hp.mem_iff.mp (mem_cons_of_mem _ hm)
  · exact h.queued r' hr ▸ hm

theorem Broker.Stores.mem_self (h : b.Stores b' r m) (hb : ∀ t ∈ b.heap, t.policy = .reject) : m ∈ b'.queued r := by
  obtain ⟨gone, hp, hgone⟩ := h.queue
  rw [hgone hb, nil_append] at hp
  exact hp.mem_iff.mp (by simp)

/-- **How a message leaves its queue.** -/
theorem Effect.leaves (h : Effect now b pc b' v handed)
    (hb : ∀ t ∈ b.heap, t.policy = .reject) (hlast : m.expired now = false) (hm : m ∈ b.queued r) :
    m ∈ b'.queued r ∨ (∃ t q ms, pc.role = .seeking t q ∧ v = .inl (.taken q ms) ∧ m ∈ ms) ∨
      (∃ p, pc.role = .removing p ∧ m.id = p.msg.id) ∨ ∃ t n id, pc.role = .acking t n id ∧ m.id = id := by
  have hlast' : m.expired now ≠ true := by rw [hlast]; exact Bool.false_ne_true
  cases h with
  | quiet hq hmove => exact .inl (by rw [hq.queued]; exact hm)
  | create hρ ht => exact .inl hm
  | store hρ hbr hs | defer hρ hbr hs => exact .inl (hs.mem_of_reject hb hm)
  | take hρ hu | pop hρ hu hw | leave hρ hu hw => exact .inl (by rw [hu.queued]; exact hm)
  | cast hρ hu => exact .inl (hu.queued r ▸ hm)
  | send hρ ht | castSend hρ ht => obtain ⟨-, rfl⟩ := trySend_eq_some ht; exact .inl hm
  | @remove b' p hρ hr =>
    rcases hr.mem_or hm with hm | hid
    · exact .inl hm
    · exact .inr (.inr (.inl ⟨p, hρ, hid⟩))
  | @extract b' t q r ms hρ hat hx =>
    rcases hx.mem_or hm with hm | hm | hexp
    · exact .inl hm
    · cases ms with
      | nil => cases hm
      | cons m' ms => exact .inr (.inl ⟨t, q, m' :: ms, hρ, rfl, hm⟩)
    · exact absurd hexp hlast'
  | register hρ hat hx =>
    rcases hx.mem_or hm with hm | hm | hexp
    · exact .inl hm
    · cases hm
    · exact absurd hexp hlast'
  | @ack b' r topicName id ok hρ hr =>
    rcases hr.mem_or hm with hm | hid
    · exact .inl hm
    · exact .inr (.inr (.inr ⟨_, topicName, id, hρ, hid⟩))

theorem Effect.buf_subset (h : Effect now b pc b' v handed) (hm : m ∈ (b.chans ch).buf) : m ∈ (b'.chans ch).buf := by
  have hsent : ∀ {ch' : Chan} {m' : Message} {b₁ : Broker}, b.trySend ch' m' = some b₁ →
    m ∈ (b₁.chans ch).buf := by
    intro ch' m' b₁ ht
    obtain ⟨-, rfl⟩ := trySend_eq_some ht
    by_cases hch : ch = ch'
    · subst hch
      simp [hm]
    · simpa [hch] using hm
  cases h with
  | quiet hq hmove => rw [hq.chans]; exact hm
  | create hρ ht => exact hm
  | store hρ hbr hs => rw [hs.chans]; exact hm
  | defer hρ hbr hs => exact hs.chans ▸ hm
  | take hρ hu | pop hρ hu hw | leave hρ hu hw => rw [hu.chans]; exact hm
  | cast hρ hu => exact hu.chans ▸ hm
  | send hρ ht | castSend hρ ht => exact hsent ht
  | remove hρ hr | ack hρ hr => rw [hr.chans]; exact hm
  | extract hρ hat hx | register hρ hat hx => rw [hx.chans]; exact hm

theorem Effect.taken (h : Effect now b pc b' v handed) (hρ : pc.role = .taken q ms) :
    v = .inl (.taken q ms) ∨ v = .inr (.consumed (some ms)) := by
  cases h with
  | quiet hq hmove =>
    cases hmove with
    | stay => exact .inl (by rw [hρ])
    | deliver hρ' => rw [hρ] at hρ'; cases hρ'; exact .inr rfl
    | _ => simp_all
  | _ => simp_all

theorem Effect.registered (h : Effect now b pc b' v handed) (hρ : pc.role = .registered q) :
    v = .inl (.registered q) ∨ v = .inr (.consumed none) := by
  cases h with
  | quiet hq hmove =>
    cases hmove with
    | stay => exact .inl (by rw [hρ])
    | wait hρ' => exact .inr rfl
    | _ => simp_all
  | _ => simp_all

/-- A `RemoveWaitingConsumer` that returns has removed the channel, unless
there was no topic. -/
theorem Effect.leaving (h : Effect now b pc b' (.inr ret) handed) (hρ : pc.role = .leaving t n ch) :
    (t = none ∧ b.topics.lookup n = none ∧ ∀ r, b'.waiting r = b.waiting r) ∨
      ∃ r, t = some r ∧ b.Unwaits b' r ∧ b'.waiting r = (b.waiting r).erase ch := by
  generalize hv : (Sum.inr ret : Role ⊕ Ret) = v at h
  cases h with
  | quiet hq hmove =>
    cases hmove with
    | leaveMissing hρ' ht =>
      cases hρ.symm.trans hρ'
      exact .inl ⟨rfl, ht, hq.waiting⟩
    | _ => simp_all
  | @leave b' r n' ch' hρ' hu hw =>
    cases hρ.symm.trans hρ'
    exact .inr ⟨r, rfl, hu, hw⟩
  | _ => simp_all

theorem Effect.of_holding {a t} (h : Effect now b pc b' v handed)
    (hb : ∀ t ∈ b.heap, t.policy = .reject) (hρ : pc.role = .holding a t m) :
    v = .inl (.holding a t m) ∨ (∃ e, v = .inr (.published (.error e))) ∨ m ∈ b'.queued t := by
  cases h with
  | quiet hq hmove =>
    cases hmove with
    | stay => exact .inl (by rw [hρ])
    | refuse hρ' => exact .inr (.inl ⟨_, rfl⟩)
    | _ => simp_all
  | store hρ' hbr hs | defer hρ' hbr hs =>
    cases hρ.symm.trans hρ'
    exact .inr (.inr (hs.mem_self hb))
  | _ => simp_all

theorem Effect.published (h : Effect now b pc b' (.inr (.published (.ok m))) handed) :
    (∃ p, pc.role.push? = some p ∧ p.msg = m) ∨ ∃ a t, pc.role = .holding a t m := by
  generalize hv : (Sum.inr (Ret.published (.ok m)) : Role ⊕ Ret) = v at h
  cases h with
  | quiet hq hmove =>
    cases hmove with
    | @finish p hρ hw => cases hv; exact .inl ⟨p, by rw [hρ]; rfl, rfl⟩
    | @sendFailed p ch v hρ ht hv' =>
      subst hv
      rcases hv' with hv' | hv'
      · cases hv'
      · cases hv'; exact .inl ⟨p, by rw [hρ]; rfl, rfl⟩
    | _ => cases hv
  | @defer b' p push due hρ hbr hs => cases hv; exact .inr ⟨_, _, hρ⟩
  | @cast b' p r chs hρ hu | @remove b' p hρ hr => cases hv; exact .inl ⟨p, by rw [hρ]; rfl, rfl⟩
  | _ => cases hv

theorem Effect.to_removing (h : Effect now b pc b' (.inl (.removing p)) handed) :
    pc.role = .removing p ∨ ∃ ch, pc.role = .sending p ch ∧ b.trySend ch p.msg = some b' := by
  generalize hv : (Sum.inl (Role.removing p) : Role ⊕ Ret) = v at h
  cases h with
  | quiet hq hmove =>
    cases hmove with
    | stay => exact .inl (Sum.inl.inj hv).symm
    | sendFailed hρ ht hv' => subst hv; rcases hv' with hv' | hv' <;> cases hv'
    | _ => cases hv
  | @send b' p' ch hρ ht => cases hv; exact .inr ⟨ch, hρ, ht⟩
  | @extract b' t q r ms hρ hat hx => cases ms <;> cases hv
  | _ => cases hv

theorem Effect.to_taken (h : Effect now b pc b' (.inl (.taken q ms)) handed) :
    pc.role = .taken q ms ∨ handed = ms.map (fun m => (q.notifyChan, m)) ∧ ms.length ≤ q.limit := by
  generalize hv : (Sum.inl (Role.taken q ms) : Role ⊕ Ret) = v at h
  cases h with
  | quiet hq hmove =>
    cases hmove with
    | stay => exact .inl (Sum.inl.inj hv).symm
    | sendFailed hρ ht hv' => subst hv; rcases hv' with hv' | hv' <;> cases hv'
    | _ => cases hv
  | @extract b' t q r ms hρ hat hx =>
    cases ms with
    | nil => cases hv
    | cons m ms => cases hv; exact .inr ⟨rfl, hx.length_le⟩
  | _ => cases hv

theorem Effect.consumed (h : Effect now b pc b' (.inr (.consumed (some ms))) handed) :
    ∃ q, pc.role = .taken q ms := by
  generalize hv : (Sum.inr (Ret.consumed (some ms)) : Role ⊕ Ret) = v at h
  cases h with
  | quiet hq hmove =>
    cases hmove with
    | deliver hρ => cases hv; exact ⟨_, hρ⟩
    | sendFailed hρ ht hv' => subst hv; rcases hv' with hv' | hv' <;> cases hv'
    | _ => cases hv
  | _ => cases hv

theorem Effect.buf_new (h : Effect now b pc b' v handed) (hm : m ∈ (b'.chans ch).buf) :
    m ∈ (b.chans ch).buf ∨ (ch, m) ∈ handed := by
  have hsent : ∀ {ch' : Chan} {m' : Message} {b₁ : Broker}, b.trySend ch' m' = some b₁ →
    m ∈ (b₁.chans ch).buf →
      m ∈ (b.chans ch).buf ∨ (ch, m) ∈ [(ch', m')] := by
    intro ch' m' b₁ ht hm
    obtain ⟨-, rfl⟩ := trySend_eq_some ht
    by_cases hch : ch = ch'
    · subst hch
      simpa using hm
    · exact .inl (by simpa [hch] using hm)
  cases h with
  | quiet hq hmove => exact .inl (hq.chans ▸ hm)
  | create hρ ht => exact .inl hm
  | store hρ hbr hs | defer hρ hbr hs => exact .inl (hs.chans ▸ hm)
  | take hρ hu | cast hρ hu | pop hρ hu hw | leave hρ hu hw => exact .inl (hu.chans ▸ hm)
  | send hρ ht | castSend hρ ht => exact hsent ht hm
  | remove hρ hr | ack hρ hr => exact .inl (hr.chans ▸ hm)
  | extract hρ hat hx | register hρ hat hx => exact .inl (hx.chans ▸ hm)

end Effect

end TinyMQ
