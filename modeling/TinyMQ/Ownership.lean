/-
Where a message may be.

A message is queued at the topic object its topic name leads to and nowhere
else (`Homed`), once, and at most one push is on its way with it (`Owned`).
Runs whose publishes are no broadcasts stay so (`Unicast`). `Regular` is
all of it.
-/
import TinyMQ.Custody

namespace TinyMQ

open List Broker

variable {ρ : Role} {p : Push} {b b' : Broker} {pc : Pc} {handed : List (Chan × Message)}

/-! ## What an effect does to queues and pushes -/

def Role.heldAt (r : TopicRef) : Role → List Message
  | .holding _ t m => if t = r then [m] else []
  | _ => []

theorem Role.mem_heldAt (h : m ∈ ρ.heldAt r) : ∃ p, ρ = .holding p r m := by
  cases ρ with
  | holding p t m' =>
    simp only [heldAt] at h
    split at h
    next ht => rw [mem_singleton.mp h, ← ht]; exact ⟨p, rfl⟩
    · cases h
  | _ => cases h

theorem Role.push?_mail (h : ρ.push? = some p) : p.msg ∈ ρ.mail := by
  cases ρ with
  | pushing p' | sending p' ch | removing p' | collecting p' => cases h; exact mem_singleton.mpr rfl
  | _ => cases h

section Effect

variable {b b' : Broker} {pc : Pc} {v : Role ⊕ Ret} {ρ : Role} {handed : List (Chan × Message)} {p : Push}
  {r : TopicRef}

theorem Broker.Stores.queued_subperm (h : b.Stores b' r m) (r' : TopicRef) :
    (b'.queued r').Subperm ((if r = r' then [m] else []) ++ b.queued r') := by
  by_cases hr : r' = r
  · subst hr
    obtain ⟨gone, hperm, -⟩ := h.queue
    rw [if_pos rfl]
    exact (sublist_append_right gone _).subperm.trans hperm.symm.subperm
  · rw [h.queued r' hr, if_neg (Ne.symm hr)]
    exact Subperm.refl _

theorem Broker.Removes.queued_subperm {id} (h : b.Removes b' r id) (r' : TopicRef) :
    (b'.queued r').Subperm (b.queued r') := by
  by_cases hr : r' = r
  · subst hr
    rcases h.queue with ⟨hq, -⟩ | ⟨m, -, hp⟩
    · rw [hq]
    · exact (sublist_cons_self m _).subperm.trans hp.symm.subperm
  · rw [h.queued r' hr]

theorem Broker.Extracts.queued_subperm (h : Extracts now limit b b' r ms w)
    (r' : TopicRef) : (b'.queued r').Subperm (b.queued r') := by
  by_cases hr : r' = r
  · subst hr
    obtain ⟨gone, hp, -⟩ := h.queue
    exact (sublist_append_right _ _).subperm.trans hp.symm.subperm
  · rw [h.queued r' hr]

/-- **Queues lose messages or gain the one the call held.** -/
theorem Effect.queued_subperm (h : Effect now b pc b' v handed) (r : TopicRef) :
    (b'.queued r).Subperm (pc.role.heldAt r ++ b.queued r) := by
  have hsame : ∀ {q : List Message}, q.Subperm (b.queued r) → q.Subperm (pc.role.heldAt r ++ b.queued r) :=
    fun hq => hq.trans (sublist_append_right _ _).subperm
  cases h with
  | quiet hq hmove => exact hsame (by rw [hq.queued])
  | create hρ ht => exact hsame (Subperm.refl _)
  | store hρ hb hs | defer hρ hb hs => rw [hρ]; exact hs.queued_subperm r
  | take hρ hu | pop hρ hu hw | leave hρ hu hw => exact hsame (by rw [hu.queued])
  | cast hρ hu => exact hsame (hu.queued r ▸ Subperm.refl _)
  | send hρ ht | castSend hρ ht => obtain ⟨-, rfl⟩ := trySend_eq_some ht; exact hsame (Subperm.refl _)
  | remove hρ hr | ack hρ hr => exact hsame (hr.queued_subperm r)
  | extract hρ hat hx | register hρ hat hx => exact hsame (hx.queued_subperm r)

/-- A call that makes a push after a step made it before, or has just
stored its message. -/
theorem Effect.push (h : Effect now b pc b' (.inl ρ) handed) (hp : ρ.push? = some p) :
    pc.role.push? = some p ∨ ∃ a, pc.role = .holding a p.t p.msg ∧ p.isBroadcast = a.isBroadcast := by
  generalize hv : (Sum.inl ρ : Role ⊕ Ret) = v at h
  cases h with
  | quiet hq hmove =>
    cases hmove with
    | stay => cases hv; exact .inl hp
    | collect hρ hb => cases hv; rw [hρ]; exact .inl hp
    | sendFailed hρ ht hv' =>
      rcases hv' with rfl | rfl
      · cases hv; rw [hρ]; exact .inl hp
      · cases hv
    | _ => cases hv <;> cases hp
  | create hρ ht | castSend hρ ht | register hρ hat hx => cases hv; cases hp
  | store hρ hb hs => cases hv; cases hp; exact .inr ⟨_, hρ, hb⟩
  | take hρ hu | pop hρ hu hw | send hρ ht => cases hv; rw [hρ]; exact .inl hp
  | @extract b' t q r ms hρ hat hx => cases ms <;> cases hv <;> cases hp
  | _ => cases hv

/-- A goroutine that a step starts: the timer of a message that was held, or
the sends of a broadcast. -/
theorem Effect.goroutines (h : Effect now b pc b' v handed) :
    b'.goroutines = b.goroutines ∨ ∃ g p, b'.goroutines = b.goroutines ++ [g] ∧ v = .inr (.published (.ok p.msg)) ∧
      ((∃ due a, g = .timer due p ∧ pc.role = .holding a p.t p.msg ∧ p.isBroadcast = a.isBroadcast) ∨
        ∃ chs, g = .broadcast chs p.msg ∧ pc.role = .collecting p) := by
  cases h with
  | quiet hq hmove => exact .inl hq.goroutines
  | create hρ ht => exact .inl rfl
  | store hρ hb hs => exact .inl hs.goroutines
  | defer hρ hb hs =>
    exact .inr ⟨_, _, by rw [go, hs.goroutines], rfl, .inl ⟨_, _, rfl, hρ, hb⟩⟩
  | take hρ hu | pop hρ hu hw | leave hρ hu hw => exact .inl hu.goroutines
  | cast hρ hu => exact .inr ⟨_, _, by rw [go, hu.goroutines], rfl, .inr ⟨_, rfl, hρ⟩⟩
  | send hρ ht | castSend hρ ht => obtain ⟨-, rfl⟩ := trySend_eq_some ht; exact .inl rfl
  | remove hρ hr | ack hρ hr => exact .inl hr.goroutines
  | extract hρ hat hx | register hρ hat hx => exact .inl hx.goroutines

end Effect

/-! ## Homes -/

/-- What a call has in its hands goes with the topic object its topic name
leads to. -/
def Role.Homed (b : Broker) : Role → Prop
  | .located p t => b.topics.lookup p.topicName = some t
  | .holding _ t m => b.topics.lookup m.topic = some t
  | .pushing p => b.topics.lookup p.msg.topic = some p.t
  | .sending p _ => b.topics.lookup p.msg.topic = some p.t
  | .removing p => b.topics.lookup p.msg.topic = some p.t
  | .collecting p => b.topics.lookup p.msg.topic = some p.t
  | .seeking (some t) q => b.topics.lookup q.topicName = some t
  | .acking (some t) topicName _ => b.topics.lookup topicName = some t
  | .leaving (some t) topicName _ => b.topics.lookup topicName = some t
  | _ => True

theorem Role.Homed.evolves {puts} (h : ρ.Homed b) (hev : b.Evolves b' puts) : ρ.Homed b' := by
  cases ρ with
  | located p t | holding p t m | pushing p | sending p ch | removing p | collecting p => exact hev.topics h
  | seeking t q | acking t topicName id | leaving t topicName ch =>
    cases t with
    | none => trivial
    | some t => exact hev.topics h
  | _ => trivial

theorem Role.Homed.push (h : ρ.Homed b) (hp : ρ.push? = some p) : b.topics.lookup p.msg.topic = some p.t := by
  cases ρ with
  | pushing p' | sending p' ch | removing p' | collecting p' => cases hp; exact h
  | _ => cases hp

theorem Effect.homed (h : Effect now b pc b' (.inl ρ) handed) (hpc : pc.role.Homed b) : ρ.Homed b' := by
  have hev := h.evolves
  have hpc' := hpc.evolves hev
  generalize hv : (Sum.inl ρ : Role ⊕ Ret) = v at h
  cases h with
  | quiet hq hmove =>
    cases hmove with
    | stay => cases hv; exact hpc'
    | call hρ => cases hv; trivial
    | locate hρ ht | seek hρ ht => cases hv; exact ht
    | collect hρ hb => cases hv; rw [hρ] at hpc'; exact hpc'
    | sendFailed hρ ht hv' =>
      rcases hv' with rfl | rfl
      · cases hv; rw [hρ] at hpc'; exact hpc'
      · cases hv
    | ackFound hρ ht | leaveFound hρ ht => cases hv; exact hev.topics ht
    | _ => cases hv
  | create hρ ht | store hρ hb hs | take hρ hu | pop hρ hu hw | send hρ ht =>
    cases hv; rw [hρ] at hpc'; exact hpc'
  | castSend hρ ht | register hρ hat hx => cases hv; trivial
  | @extract b' t q r ms hρ hat hx =>
    cases ms with
    | nil => cases hv; rw [hρ] at hpc'; exact hpc'
    | cons m ms => cases hv; trivial
  | _ => cases hv

theorem Op.entry_homed (op : Op) (b : Broker) : op.entry.pc.role.Homed b := by
  rcases op.entry_role with h | ⟨p, h⟩ | ⟨q, h⟩ | ⟨n, id, h⟩ | ⟨n, ch, h⟩ <;> rw [h] <;> trivial

namespace Sys

variable {i : Nat} {m : Message}

variable {s s' : Sys} {l : Label}

/-- Messages are queued, and pushes work, at the topic object that the
name of the topic leads to. -/
structure Homed (s : Sys) : Prop where
  queue : ∀ {r m}, m ∈ s.broker.queued r → s.broker.topics.lookup m.topic = some r
  call : ∀ i, (s.role i).Homed s.broker
  timer : ∀ {due p}, .timer due p ∈ s.broker.goroutines → s.broker.topics.lookup p.msg.topic = some p.t

theorem Homed.step (hs : s.Homed) (hsound : s.Sound) (h : s.step l = some s') : s'.Homed := by
  obtain ⟨puts, hev, -⟩ := (passes_of_step hsound h).evolves
  have hcall : ∀ j, (s'.role j).Homed s'.broker := by
    intro j
    rcases role_of_step hsound h j with hr | ⟨op, -, hr⟩ | ⟨k, g, c, -, hg, hc, hr⟩ | ⟨-, pc, v, handed, hran⟩
    · rw [hr]
      exact (hs.call j).evolves hev
    · rw [hr]
      exact op.entry_homed _
    · rw [hr]
      rcases Goroutine.entry_role hc with ⟨due, push, rfl, hg'⟩ | ⟨chs, m, -, hg'⟩ <;> rw [hg']
      · exact hev.topics (hs.timer (mem_of_getElem? hg))
      · trivial
    · have hgoes := hran.goes
      cases v with
      | inl ρ =>
        rw [hgoes.1]
        exact hran.effect.homed (hran.role_eq ▸ hs.call j)
      | inr ret =>
        rcases hgoes with ⟨hr, -⟩ | ⟨⟨p, hr⟩, -, -⟩ <;> rw [hr] <;> trivial
  cases l with
  | tick d => cases h; exact ⟨hs.queue, hcall, hs.timer⟩
  | start i op =>
    obtain ⟨-, -, rfl⟩ := step_start h
    exact ⟨hs.queue, hcall, hs.timer⟩
  | run i =>
    obtain ⟨pc, v, handed, hran⟩ := ran_of_step hsound h
    have hpc : pc.role.Homed s.broker := hran.role_eq ▸ hs.call i
    refine ⟨fun {r m} hm => ?_, hcall, fun {due p} hp => ?_⟩
    · rcases mem_append.mp ((hran.effect.queued_subperm r).subset hm) with hm | hm
      · obtain ⟨p, hρ⟩ := Role.mem_heldAt hm
        rw [hρ] at hpc
        exact hev.topics hpc
      · exact hev.topics (hs.queue hm)
    · rcases hran.effect.goroutines with hg | ⟨g, p', hg, -, hnew⟩
      · exact hev.topics (hs.timer (hg ▸ hp))
      · rw [hg, mem_append, mem_singleton] at hp
        rcases hp with hp | hp
        · exact hev.topics (hs.timer hp)
        · rcases hnew with ⟨due', a, rfl, hρ, -⟩ | ⟨chs, rfl, -⟩
          · cases hp
            rw [hρ] at hpc
            exact hev.topics hpc
          · cases hp
  | fire k i =>
    obtain ⟨g, c, hg, hc, -, -, rfl⟩ := step_fire h
    exact ⟨hs.queue, hcall, fun hp => hs.timer (mem_of_mem_eraseIdx hp)⟩
  | recv ch =>
    obtain ⟨m, rest, -, rfl⟩ := step_recv h
    exact ⟨hs.queue, hcall, hs.timer⟩

/-! ## Owners -/

def timers (s : Sys) : List Message := s.broker.goroutines.filterMap fun g => g.push?.map Push.msg

/-- A message is queued once, and one push at most is on its way with it. -/
structure Owned (s : Sys) : Prop where
  queue : ∀ r, (s.broker.queued r).Nodup
  timers : s.timers.Nodup
  calls : ∀ {i j p q}, (s.role i).push? = some p → (s.role j).push? = some q → p.msg = q.msg → i = j
  timer_call : ∀ {i p}, (s.role i).push? = some p → p.msg ∉ s.timers

theorem stored_of_push {p} (h : (s.role i).push? = some p) : s.Stored p.msg :=
  .inr (.inl ⟨i, Role.push?_mail h⟩)

theorem stored_of_timer (h : m ∈ s.timers) : s.Stored m := by
  obtain ⟨g, hg, hm⟩ := mem_filterMap.mp h
  obtain ⟨p, hp, rfl⟩ := Option.map_eq_some_iff.mp hm
  cases g with
  | timer due p' => cases hp; exact .inr (.inr (.inl ⟨_, hg, rfl⟩))
  | broadcast chs m => cases hp

theorem Issued.ne_of_holds (hs : s.Issued) (h : s.Holds i m) (h' : s.Stored m') : m ≠ m' :=
  fun he => hs.held_stored h h' (congrArg Message.id he)

section Owned

variable {i : Nat} {pc : Pc} {v : Role ⊕ Ret} {handed : List (Chan × Message)}

theorem Ran.holds {a t m} (h : Ran s s' i pc v handed) (hρ : pc.role = .holding a t m) : s.Holds i m :=
  Holds.iff.mpr ⟨a, t, h.role_eq.trans hρ⟩

theorem Ran.push {p} (h : Ran s s' i pc v handed) (hp : (s'.role i).push? = some p) :
    (s.role i).push? = some p ∨ s.Holds i p.msg := by
  have heff := h.effect
  rw [h.view_eq (by intro he; rw [he] at hp; cases hp) fun a he => by rw [he] at hp; cases hp] at heff
  rw [h.role_eq]
  rcases heff.push hp with hp | ⟨a, hρ, -⟩
  · exact .inl hp
  · exact .inr (h.holds hρ)

/-- The timers after a step of a call: as before, or a new one for the
message it held, and then it makes no push itself. -/
theorem Ran.timers (h : Ran s s' i pc v handed) :
    s'.timers = s.timers ∨ ∃ m, s'.timers = s.timers ++ [m] ∧ v = .inr (.published (.ok m)) ∧ s.Holds i m ∧
      (s'.role i).push? = none := by
  rcases h.effect.goroutines with hg | ⟨g, p, hg, hv, hnew⟩
  · exact .inl (by rw [Sys.timers, hg]; rfl)
  · rcases hnew with ⟨due, a, rfl, hρ, -⟩ | ⟨chs, rfl, -⟩
    · refine .inr ⟨p.msg, by rw [Sys.timers, hg]; simp [Sys.timers, Goroutine.push?], hv, h.holds hρ, ?_⟩
      have hgoes := h.goes
      rw [hv] at hgoes
      rcases hgoes with ⟨hr, -⟩ | ⟨⟨p, hr⟩, -, -⟩ <;> rw [hr] <;> rfl
    · exact .inl (by rw [Sys.timers, hg]; simp [Sys.timers, Goroutine.push?])

theorem Owned.ran (hs : s.Owned) (hi : s.Issued) (h : Ran s s' i pc v handed) : s'.Owned where
  queue r := by
    obtain ⟨l, hperm, hsub⟩ := h.effect.queued_subperm r
    refine hperm.nodup_iff.mp (Nodup.sublist hsub (nodup_append'.mpr ⟨?_, hs.queue r, ?_⟩))
    · cases hρ : pc.role with
      | holding a t m => simp only [Role.heldAt]; split <;> simp
      | _ => exact nodup_nil
    · intro m hm hq
      obtain ⟨a, hρ⟩ := Role.mem_heldAt hm
      exact hi.ne_of_holds (h.holds hρ) (.inl ⟨r, hq⟩) rfl
  timers := by
    rcases h.timers with ht | ⟨m, ht, -, hm, -⟩
    · rw [ht]; exact hs.timers
    · rw [ht, nodup_append']
      refine ⟨hs.timers, nodup_singleton m, ?_⟩
      intro m' hm' hin
      rw [mem_singleton.mp hin] at hm'
      exact hi.ne_of_holds hm (stored_of_timer hm') rfl
  calls := by
    -- The goroutine that has run against another one.
    have hother : ∀ {j p q}, j ≠ i → (s'.role i).push? = some p → (s'.role j).push? = some q →
      p.msg ≠ q.msg := by
      intro j p q hj hp hq
      rw [h.roles j hj] at hq
      rcases h.push hp with hp | hp
      · exact fun he => hj (hs.calls hp hq he).symm
      · exact hi.ne_of_holds hp (stored_of_push hq)
    intro j k p q hp hq he
    by_cases hj : j = i
    · by_cases hk : k = i
      · rw [hj, hk]
      · subst hj
        exact absurd he (hother hk hp hq)
    · by_cases hk : k = i
      · subst hk
        exact absurd he.symm (hother hj hq hp)
      · rw [h.roles j hj] at hp
        rw [h.roles k hk] at hq
        exact hs.calls hp hq he
  timer_call := by
    intro j p hp
    have hold : (s.role j).push? = some p ∨ s.Holds i p.msg := by
      by_cases hj : j = i
      · subst hj
        exact h.push hp
      · exact .inl (h.roles j hj ▸ hp)
    rcases h.timers with ht | ⟨m, ht, -, hm, hnone⟩
    · rw [ht]
      rcases hold with hold | hold
      · exact hs.timer_call hold
      · exact fun hin => hi.ne_of_holds hold (stored_of_timer hin) rfl
    · rw [ht, mem_append, mem_singleton, not_or]
      have hj : j ≠ i := fun hj => by rw [hj, hnone] at hp; cases hp
      have hp' : (s.role j).push? = some p := h.roles j hj ▸ hp
      exact ⟨hs.timer_call hp', fun he => hi.ne_of_holds hm (stored_of_push hp') he.symm⟩

end Owned

theorem Owned.fired (hs : s.Owned) (h : Fired s s' i g) : s'.Owned := by
  have hperm : ((g.push?.map Push.msg).toList ++ s'.timers).Perm s.timers := by
    have hp := h.goroutines.filterMap fun g => g.push?.map Push.msg
    rw [filterMap_cons] at hp
    cases hg : g.push? with
    | none | some p => rw [hg] at hp; exact hp
  have hnodup := hperm.nodup_iff.mpr hs.timers
  -- The call at `i` makes the push of the timer; the others are as before.
  have hrole : ∀ {j p}, (s'.role j).push? = some p → j = i ∧ g.push? = some p ∨
    (s.role j).push? = some p := by
    intro j p hp
    by_cases hj : j = i
    · subst hj
      rcases h.role with ⟨due, push, rfl, hr⟩ | ⟨chs, m, rfl, hr⟩ <;> rw [hr] at hp
      · exact .inl ⟨rfl, hp⟩
      · cases hp
    · exact .inr (h.roles j hj ▸ hp)
  have htimer : ∀ {p}, g.push? = some p → p.msg ∈ s.timers := fun hp => hperm.subset (by simp [hp])
  refine ⟨fun r => ?_, (nodup_append'.mp hnodup).2.1, ?_, ?_⟩
  · rw [h.broker]
    exact hs.queue r
  · intro j j' p q hp hq he
    rcases hrole hp with ⟨hj, hgp⟩ | hp
    · rcases hrole hq with ⟨hj', -⟩ | hq
      · rw [hj, hj']
      · exact absurd (he ▸ htimer hgp) (hs.timer_call hq)
    · rcases hrole hq with ⟨-, hgq⟩ | hq
      · exact absurd (he ▸ htimer hgq) (hs.timer_call hp)
      · exact hs.calls hp hq he
  · intro j p hp hin
    rcases hrole hp with ⟨-, hgp⟩ | hp
    · exact (nodup_append'.mp hnodup).2.2 (by simp [hgp]) hin
    · exact hs.timer_call hp (hperm.subset (mem_append_right _ hin))

theorem Owned.step (hs : s.Owned) (hi : s.Issued) (hsound : s.Sound) (h : s.step l = some s') : s'.Owned := by
  cases l with
  | tick d => cases h; exact ⟨hs.queue, hs.timers, hs.calls, hs.timer_call⟩
  | start i op =>
    obtain ⟨-, -, rfl⟩ := step_start h
    have hnone : ((s.setCall i (.inl op.entry)).role i).push? = none := by
      rw [setCall_role_self]
      exact op.entry_mail.2.2
    have hpush : ∀ {j p}, ((s.setCall i (.inl op.entry)).role j).push? = some p →
      (s.role j).push? = some p := by
      intro j p hp
      have hj : j ≠ i := fun hj => by rw [hj, hnone] at hp; cases hp
      rwa [setCall_role_ne _ hj] at hp
    exact ⟨hs.queue, hs.timers, fun hp hq => hs.calls (hpush hp) (hpush hq), fun hp =>
      hs.timer_call (hpush hp)⟩
  | run i =>
    obtain ⟨pc, v, handed, hran⟩ := ran_of_step hsound h
    exact hs.ran hi hran
  | fire k i =>
    obtain ⟨g, hfired⟩ := fired_of_step h
    exact hs.fired hfired
  | recv ch =>
    obtain ⟨m, rest, -, rfl⟩ := step_recv h
    exact ⟨hs.queue, hs.timers, hs.calls, hs.timer_call⟩

end Sys

/-! ## Runs without broadcasts -/

def Role.Unicast : Role → Prop
  | .publishing p => p.isBroadcast = false
  | .located p _ => p.isBroadcast = false
  | .holding p _ _ => p.isBroadcast = false
  | .pushing p => p.isBroadcast = false
  | .sending p _ => p.isBroadcast = false
  | .removing p => p.isBroadcast = false
  | .collecting _ => False
  | .casting _ => False
  | _ => True

def Goroutine.Unicast : Goroutine → Prop
  | .timer _ p => p.isBroadcast = false
  | .broadcast _ _ => False

theorem QuietMove.unicast (h : QuietMove b b' pc v) (hpc : pc.role.Unicast) (hv : v = .inl ρ) : ρ.Unicast := by
  cases h with
  | stay => cases hv; exact hpc
  | call hρ | locate hρ ht => cases hv; rw [hρ] at hpc; exact hpc
  | collect hρ hb =>
    rw [hρ] at hpc
    exact absurd hb (by rw [show _ = false from hpc]; exact Bool.false_ne_true)
  | sendFailed hρ ht hv' =>
    rcases hv' with rfl | rfl
    · cases hv; rw [hρ] at hpc; exact hpc
    · cases hv
  | seek hρ ht | ackFound hρ ht | leaveFound hρ ht => cases hv; trivial
  | _ => cases hv

theorem Effect.unicast (h : Effect now b pc b' v handed) (hpc : pc.role.Unicast) (hv : v = .inl ρ) : ρ.Unicast := by
  cases h with
  | quiet hq hmove => exact hmove.unicast hpc hv
  | create hρ ht | pop hρ hu hw | send hρ ht => cases hv; rw [hρ] at hpc; exact hpc
  | store hρ hb hs => cases hv; rw [hρ] at hpc; exact hb.trans hpc
  | take hρ hu | castSend hρ ht => rw [hρ] at hpc; exact hpc.elim
  | @extract b' t q r ms hρ hat hx => cases ms <;> cases hv <;> trivial
  | register hρ hat hx => cases hv; trivial
  | _ => cases hv

theorem Effect.unicast_goroutines (h : Effect now b pc b' v handed) (hpc : pc.role.Unicast)
    (hb : ∀ g ∈ b.goroutines, g.Unicast) : ∀ g ∈ b'.goroutines, g.Unicast := by
  rcases h.goroutines with hg | ⟨g, p, hg, -, ⟨due, a, rfl, hρ, hbr⟩ | ⟨chs, rfl, hρ⟩⟩
  · rw [hg]
    exact hb
  · intro g' hg'
    rw [hg, mem_append, mem_singleton] at hg'
    rcases hg' with hg' | rfl
    · exact hb g' hg'
    · rw [hρ] at hpc
      exact hbr.trans hpc
  · rw [hρ] at hpc
    exact hpc.elim

def Label.Unicast : Label → Prop
  | .start _ (.publish p) => p.isBroadcast = false
  | .start _ (.requeue _) => False
  | _ => True

instance : DecidablePred Label.Unicast := fun l => by
  unfold Label.Unicast
  split <;> infer_instance

theorem Label.Unicast.noRequeue {l : Label} (h : l.Unicast) : l.NoRequeue := by
  cases l with
  | start i op =>
    cases op with
    | requeue m => exact h.elim
    | _ => rfl
  | _ => trivial

namespace Sys

variable {s s' : Sys} {l : Label}

/-- No broadcast is under way. -/
structure Unicast (s : Sys) : Prop where
  calls : s.AllCalls (Call.AllRoles Role.Unicast)
  goroutines : ∀ g ∈ s.broker.goroutines, g.Unicast

theorem Unicast.role (hs : s.Unicast) (i : Nat) : (s.role i).Unicast := by
  unfold Sys.role
  cases hc : s.calls i with
  | none => trivial
  | some c => exact (hs.calls i c hc).1

theorem Unicast.step (hs : s.Unicast) (hsound : s.Sound) (hl : l.Unicast) (h : s.step l = some s') : s'.Unicast where
  calls := by
    refine hs.calls.step h ?_ ?_ ?_
    · intro i op he
      subst he
      refine Op.entry_allRoles ?_
      cases op with
      | publish p => exact hl
      | _ => trivial
    · intro g c hg hc
      refine Goroutine.entry_allRoles hc ?_
      rcases Goroutine.entry_role hc with ⟨due, push, rfl, hr⟩ | ⟨chs, m, rfl, hr⟩
      · rw [hr]
        exact hs.goroutines _ hg
      · exact (hs.goroutines _ hg).elim
    · intro i c o c' hc hroles ho hres
      have hcall := hsound.calls i c hc
      exact hroles.resume hcall ho hres fun ρ hρ => (Pc.step_effect hcall.pc ho).unicast hroles.1 hρ
  goroutines := by
    cases l with
    | tick d => cases h; exact hs.goroutines
    | start i op => obtain ⟨-, -, rfl⟩ := step_start h; exact hs.goroutines
    | run i =>
      obtain ⟨pc, v, handed, hran⟩ := ran_of_step hsound h
      exact hran.effect.unicast_goroutines (hran.role_eq ▸ hs.role i) hs.goroutines
    | fire k i =>
      obtain ⟨g, hfired⟩ := fired_of_step h
      exact fun g' hg' => hs.goroutines g' (hfired.goroutines.subset (mem_cons_of_mem _ hg'))
    | recv ch => obtain ⟨m, rest, -, rfl⟩ := step_recv h; exact hs.goroutines

end Sys

/-! ## All of it -/

/-- A broker at rest: its messages are queued once each, under their topic,
with identifiers that were issued, and nothing is about to run. -/
structure Broker.Settled (b : Broker) : Prop where
  goroutines : b.goroutines = []
  home : ∀ {r m}, m ∈ b.queued r → b.topics.lookup m.topic = some r
  nodup : ∀ r, (b.queued r).Nodup
  inj : ∀ {r r' m m'}, m ∈ b.queued r → m' ∈ b.queued r' → m.id = m'.id → m = m'
  issued : ∀ {r m k}, m ∈ b.queued r → b.uuids ≤ k → b.env.newUUID k ≠ m.id

theorem Broker.settled_new {limits policy hooked storage env}
    {chans : Chan → Channel} : (new limits policy hooked storage env chans).Settled where
  goroutines := rfl
  home hm := by simp [new, queued] at hm
  nodup r := by simp [new, queued]
  inj hm := by simp [new, queued] at hm
  issued hm := by simp [new, queued] at hm

namespace Sys

variable {s s' : Sys} {l : Label}

/-- What holds all along a run without `Requeue` and broadcasts. -/
structure Regular (s : Sys) : Prop where
  sound : s.Sound
  fresh : s.Fresh
  homed : s.Homed
  owned : s.Owned
  unicast : s.Unicast

theorem Regular.step (hs : s.Regular) (hl : l.Unicast) (h : s.step l = some s') : s'.Regular where
  sound := hs.sound.step hl.noRequeue h
  fresh := hs.fresh.step (passes_of_step hs.sound h)
  homed := hs.homed.step hs.sound h
  owned := hs.owned.step hs.fresh.toIssued hs.sound h
  unicast := hs.unicast.step hs.sound hl h

theorem init_regular (now : Time) (hb : b.Settled) : (init now b).Regular := by
  have hstored : ∀ {m}, (init now b).Stored m → ∃ r, m ∈ b.queued r := by
    intro m hm
    rcases hm with hm | ⟨i, hm⟩ | ⟨g, hg, -⟩ | ⟨ch, hm⟩
    · exact hm
    · cases hm
    · rw [show (init now b).broker.goroutines = [] from hb.goroutines] at hg
      cases hg
    · cases hm
  have hgoroutines : (init now b).broker.goroutines = [] := hb.goroutines
  refine ⟨init_sound now b, ⟨init_issued fun m hm k hk => ?_, fun {m m'} hm hm' hid => ?_⟩,
    ⟨hb.home, fun i => trivial, ?_⟩,
    ⟨hb.nodup, ?_, ?_, ?_⟩, fun i c hc => ?_, ?_⟩
  · obtain ⟨r, hr⟩ := hstored hm
    exact hb.issued hr hk
  · obtain ⟨r, hr⟩ := hstored hm
    obtain ⟨r', hr'⟩ := hstored hm'
    exact hb.inj hr hr' hid
  · intro due p hp
    rw [hgoroutines] at hp
    cases hp
  · simp [timers, hgoroutines]
  · intro i j p q hp
    cases hp
  · intro i p hp
    cases hp
  · cases hc
  · intro g hg
    rw [hgoroutines] at hg
    cases hg

end Sys

end TinyMQ
