/-
Who has a message.

A message is created with a fresh identifier, held by its `publishCore`
until it is stored, and from then on is `Stored`: queued, in the hands of a
push or of a consumer, or handed out. In every run without `Requeue`,
identifiers are never confused (`Fresh`), a message is in one queue at most
and at most one push is on its way with it (`Owned`).
-/
import TinyMQ.Steps

namespace TinyMQ

open List Broker

/-- The stored messages a call has in its hands. -/
def Role.mail : Role → List Message
  | .pushing p => [p.msg]
  | .sending p _ => [p.msg]
  | .removing p => [p.msg]
  | .collecting p => [p.msg]
  | .casting m => [m]
  | .taken _ ms => ms
  | _ => []

/-- The push a call is making. -/
def Role.push? : Role → Option Push
  | .pushing p => some p
  | .sending p _ => some p
  | .removing p => some p
  | .collecting p => some p
  | _ => none

def Goroutine.msg : Goroutine → Message
  | .timer _ push => push.msg
  | .broadcast _ m => m

/-- The push a goroutine is going to make. -/
def Goroutine.push? : Goroutine → Option Push
  | .timer _ push => some push
  | .broadcast _ _ => none

/-- The stored messages a step leaves in the hands of its call. -/
def viewMail : Role ⊕ Ret → List Message
  | .inl ρ => ρ.mail
  | .inr _ => []

theorem Op.entry_mail (op : Op) : op.entry.pc.role.mail = [] ∧ op.entry.pc.role.held = [] ∧
    op.entry.pc.role.push? = none := by
  rcases op.entry_role with h | ⟨p, h⟩ | ⟨q, h⟩ | ⟨n, id, h⟩ | ⟨n, ch, h⟩ <;> rw [h] <;> exact ⟨rfl, rfl, rfl⟩

/-! ## What an effect does to the messages -/

section Effect

variable {r r' : TopicRef} {ch : Chan}

variable {now : Time} {b b' : Broker} {pc : Pc} {v : Role ⊕ Ret} {handed : List (Chan × Message)}
  {p : PublishArgs} {t : TopicRef} {m : Message}

/-- The messages a call can reach: queued, in its hands, or with a goroutine. -/
def Reach (b : Broker) (mail : List Message) (m : Message) : Prop :=
  (∃ r, m ∈ b.queued r) ∨ m ∈ mail ∨ ∃ g ∈ b.goroutines, g.msg = m

theorem Reach.of_eq (hq : ∀ r, m ∈ b'.queued r → m ∈ b.queued r)
    (hm : m ∈ mail' → m ∈ mail) (hg : b'.goroutines = b.goroutines) (h : Reach b' mail' m) : Reach b mail m := by
  rcases h with ⟨r, h⟩ | h | ⟨g, hg', h⟩
  · exact .inl ⟨r, hq r h⟩
  · exact .inr (.inl (hm h))
  · exact .inr (.inr ⟨g, hg ▸ hg', h⟩)

theorem Broker.Stores.mem_queued (h : b.Stores b' r m) (hm : m' ∈ b'.queued r') :
    m' ∈ b.queued r' ∨ m' = m ∧ r' = r := by
  by_cases hr : r' = r
  · subst hr
    obtain ⟨gone, hperm, -⟩ := h.queue
    have hm' : m' ∈ m :: b.queued r' := hperm.mem_iff.mpr (mem_append_right _ hm)
    rcases mem_cons.mp hm' with hm' | hm'
    · exact .inr ⟨hm', rfl⟩
    · exact .inl hm'
  · exact .inl (h.queued r' hr ▸ hm)

theorem Broker.Removes.mem_queued {id} (h : b.Removes b' r id) (hm : m ∈ b'.queued r') : m ∈ b.queued r' := by
  by_cases hr : r' = r
  · subst hr
    rcases h.queue with ⟨hq, -⟩ | ⟨m', -, hp⟩
    · exact hq ▸ hm
    · exact hp.mem_iff.mpr (mem_cons_of_mem _ hm)
  · exact h.queued r' hr ▸ hm

theorem Broker.Extracts.mem_queued
    (h : Extracts now limit b b' r ms w) (hm : m ∈ b'.queued r') : m ∈ b.queued r' := by
  by_cases hr : r' = r
  · subst hr
    obtain ⟨gone, hp, -⟩ := h.queue
    exact hp.mem_iff.mpr (mem_append_right _ hm)
  · exact h.queued r' hr ▸ hm

theorem Broker.Extracts.mem_of_mem_results (h : Extracts now limit b b' r ms w) (hm : m ∈ ms) : m ∈ b.queued r := by
  obtain ⟨gone, hp, -⟩ := h.queue
  exact hp.mem_iff.mpr (by simp [hm])

theorem trySend_eq_some (h : b.trySend ch m = some b') : (b.chans ch).buf.length < (b.chans ch).cap ∧
      b' = { b with chans := Function.update b.chans ch { b.chans ch with buf := (b.chans ch).buf ++ [m] } } := by
  obtain ⟨c, hc, rfl⟩ := Option.map_eq_some_iff.mp h
  unfold Channel.trySend at hc
  split at hc
  next hlt => cases hc; exact ⟨hlt, rfl⟩
  · cases hc

theorem QuietMove.mail_subset (h : QuietMove b b' pc v) (hm : m ∈ viewMail v) : m ∈ pc.role.mail := by
  cases h with
  | stay => exact hm
  | fail hρ | call hρ | locate hρ ht | refuse hρ | finish hρ hw | castEnd hρ | giveUp hρ | deliver hρ | wait hρ
  | seek hρ ht | ackMissing hρ | ackFound hρ ht | leaveMissing hρ ht | leaveFound hρ ht => cases hm
  | collect hρ hb => rw [hρ]; exact hm
  | sendFailed hρ ht hv =>
    rcases hv with rfl | rfl
    · rw [hρ]; exact hm
    · cases hm

/-- **A message that is stored after a step was stored before it, or the
call held it.** -/
theorem Effect.reach (h : Effect now b pc b' v handed) (hm : Reach b' (viewMail v) m ∨ ∃ ch, (ch, m) ∈ handed) :
    Reach b pc.role.mail m ∨ (∃ p t, pc.role = .holding p t m) ∧ ∀ p t m', v ≠ .inl (.holding p t m') := by
  cases h with
  | quiet hq hmove =>
    have hm := hm.resolve_right (by simp)
    exact .inl (hm.of_eq (fun r h => hq.queued r ▸ h) hmove.mail_subset hq.goroutines)
  | create hρ ht =>
    have hm := hm.resolve_right (by simp)
    exact .inl (hm.of_eq (fun r h => h) (by simp [viewMail, Role.mail]) rfl)
  | @store b' p push hρ hb hs =>
    rcases hm.resolve_right (by simp) with ⟨r, h⟩ | h | ⟨g, hg, h⟩
    · rcases hs.mem_queued h with h | ⟨rfl, -⟩
      · exact .inl (.inl ⟨r, h⟩)
      · exact .inr ⟨⟨p, push.t, hρ⟩, by simp⟩
    · rw [mem_singleton.mp h]
      exact .inr ⟨⟨p, push.t, hρ⟩, by simp⟩
    · exact .inl (.inr (.inr ⟨g, hs.goroutines ▸ hg, h⟩))
  | @defer b' p push due hρ hb hs =>
    rcases hm.resolve_right (by simp) with ⟨r, h⟩ | h | ⟨g, hg, h⟩
    · rcases hs.mem_queued h with h | ⟨rfl, -⟩
      · exact .inl (.inl ⟨r, h⟩)
      · exact .inr ⟨⟨p, push.t, hρ⟩, by simp⟩
    · cases h
    · rcases mem_append.mp hg with hg | hg
      · exact .inl (.inr (.inr ⟨g, hs.goroutines ▸ hg, h⟩))
      · rw [mem_singleton.mp hg] at h
        rw [← h]
        exact .inr ⟨⟨p, push.t, hρ⟩, by simp⟩
  | take hρ hu | pop hρ hu hw =>
    have hm := hm.resolve_right (by simp)
    exact .inl (hm.of_eq (fun r h => hu.queued r ▸ h) (by rw [hρ]; exact id) hu.goroutines)
  | cast hρ hu =>
    rcases hm.resolve_right (by simp) with ⟨r, h⟩ | h | ⟨g, hg, h⟩
    · exact .inl (.inl ⟨r, hu.queued r ▸ h⟩)
    · cases h
    · rcases mem_append.mp hg with hg | hg
      · exact .inl (.inr (.inr ⟨g, hu.goroutines ▸ hg, h⟩))
      · rw [mem_singleton.mp hg] at h
        rw [← h, hρ]
        exact .inl (.inr (.inl (by simp [Role.mail, Goroutine.msg])))
  | send hρ ht | castSend hρ ht =>
    obtain ⟨-, rfl⟩ := trySend_eq_some ht
    rw [hρ]
    rcases hm with hm | ⟨ch, hm⟩
    · exact .inl (hm.of_eq (fun r h => h) (by exact id) rfl)
    · cases mem_singleton.mp hm
      exact .inl (.inr (.inl (by simp [Role.mail])))
  | remove hρ hr | ack hρ hr =>
    have hm := hm.resolve_right (by simp)
    exact .inl (hm.of_eq (fun r h => hr.mem_queued h) (by simp [viewMail]) hr.goroutines)
  | @extract b' t q r ms hρ hat hx =>
    have htaken : m ∈ ms → Reach b pc.role.mail m := fun h => .inl ⟨r, hx.mem_of_mem_results h⟩
    rcases hm with (⟨r', h⟩ | h | ⟨g, hg, h⟩) | ⟨ch', h⟩
    · exact .inl (.inl ⟨r', hx.mem_queued h⟩)
    · refine .inl (htaken ?_)
      cases ms with
      | nil => cases h
      | cons m' ms => exact h
    · exact .inl (.inr (.inr ⟨g, hx.goroutines ▸ hg, h⟩))
    · simp only [List.mem_map, Prod.mk.injEq, exists_eq_right_right] at h
      exact .inl (htaken h.1)
  | register hρ hat hx =>
    have hm := hm.resolve_right (by simp)
    exact .inl (hm.of_eq (fun r h => hx.mem_queued h) (by simp [viewMail, Role.mail]) hx.goroutines)
  | leave hρ hu hw =>
    have hm := hm.resolve_right (by simp)
    exact .inl (hm.of_eq (fun r h => hu.queued r ▸ h) (by simp [viewMail]) hu.goroutines)

/-- A call that holds a message after a step held it before, or has just
created it. -/
theorem Effect.holding (h : Effect now b pc b' (.inl (.holding p t m)) handed) :
    pc.role = .holding p t m ∨ pc.role = .located p t ∧ m.id = b.env.newUUID b.uuids ∧ b'.uuids = b.uuids + 1 := by
  generalize hv : (Sum.inl (Role.holding p t m) : Role ⊕ Ret) = v at h
  cases h with
  | quiet hq hmove =>
    cases hmove with
    | stay => exact .inl (Sum.inl.inj hv).symm
    | sendFailed hρ ht hv' =>
      rcases hv' with rfl | rfl
      · cases hv
      · cases hv
    | _ => cases hv
  | create hρ ht =>
    cases hv
    exact .inr ⟨hρ, rfl, rfl⟩
  | @extract b' t q r ms hρ hat hx =>
    cases ms <;> cases hv
  | _ => cases hv

theorem Broker.Evolves.congr (henv : b'.env = b.env) (hlimits : b'.limits = b.limits)
    (hpolicy : b'.defaultPolicy = b.defaultPolicy) (hhooked : b'.hooked = b.hooked)
    (hbindings : b'.bindings = b.bindings) (htopics : b'.topics = b.topics) (hheap : b'.heap = b.heap)
    (hstorage : b'.storage = b.storage) : b.Evolves b' puts where
  env := henv
  limits := hlimits
  defaultPolicy := hpolicy
  hooked := hhooked
  bindings := hbindings
  topics hn := htopics ▸ hn
  static t' ht' := .inr ⟨t', hheap ▸ ht', rfl, rfl⟩
  noStorage hs := hstorage ▸ hs
  log s hs := ⟨s, hstorage ▸ hs, .refl s puts⟩

theorem Broker.Evolves.go (h : b.Evolves b' puts) (g : Goroutine) : b.Evolves (b'.go g) puts :=
  h.trans (.congr rfl rfl rfl rfl rfl rfl rfl rfl)

theorem Broker.evolves_trySend (h : b.trySend ch m = some b') : b.Evolves b' puts := by
  obtain ⟨-, rfl⟩ := trySend_eq_some h
  exact .congr rfl rfl rfl rfl rfl rfl rfl rfl

/-- Every step keeps the configuration, and logs at most the put of the
message it held. -/
theorem Effect.evolves (h : Effect now b pc b' v handed) : b.Evolves b' pc.role.held := by
  cases h with
  | quiet hq hmove => exact hq.toEvolves
  | create hρ ht => exact .congr rfl rfl rfl rfl rfl rfl rfl rfl
  | store hρ hb hs => exact hρ ▸ hs.toEvolves
  | defer hρ hb hs => exact hρ ▸ hs.toEvolves.go _
  | take hρ hu | pop hρ hu hw | leave hρ hu hw => exact hu.toEvolves.mono (by simp)
  | cast hρ hu => exact (hu.toEvolves.mono (by simp)).go _
  | send hρ ht | castSend hρ ht => exact evolves_trySend ht
  | remove hρ hr | ack hρ hr => exact hr.toEvolves.mono (by simp)
  | extract hρ hat hx | register hρ hat hx => exact hx.toEvolves.mono (by simp)

theorem Effect.uuids_le (h : Effect now b pc b' v handed) : b.uuids ≤ b'.uuids := by
  cases h with
  | quiet hq hmove => exact Nat.le_of_eq hq.uuids.symm
  | create hρ ht => exact Nat.le_succ _
  | store hρ hb hs | defer hρ hb hs => exact Nat.le_of_eq hs.uuids.symm
  | take hρ hu | cast hρ hu | pop hρ hu hw | leave hρ hu hw => exact Nat.le_of_eq hu.uuids.symm
  | send hρ ht | castSend hρ ht => obtain ⟨-, rfl⟩ := trySend_eq_some ht; exact Nat.le_refl _
  | remove hρ hr | ack hρ hr => exact Nat.le_of_eq hr.uuids.symm
  | extract hρ hat hx | register hρ hat hx => exact Nat.le_of_eq hx.uuids.symm

end Effect

/-! ## Identifiers -/

namespace Sys

variable {now : Time}

variable {s s' : Sys} {i j : Nat} {p : PublishArgs} {t : TopicRef} {m : Message}

/-- A message that has been stored: it is queued, in the hands of a call or
of a goroutine, or was handed out. -/
def Stored (s : Sys) (m : Message) : Prop :=
  (∃ r, m ∈ s.broker.queued r) ∨ (∃ i, m ∈ (s.role i).mail) ∨ (∃ g ∈ s.broker.goroutines, g.msg = m) ∨
    ∃ ch, (ch, m) ∈ s.handed

def Holds (s : Sys) (i : Nat) (m : Message) : Prop := m ∈ (s.role i).held

/-- What every step does with messages: those stored were stored or held,
those held were held or are new, and only those held are put in a log. -/
structure Passes (s s' : Sys) : Prop where
  evolves : ∃ puts, s.broker.Evolves s'.broker puts ∧ ∀ m ∈ puts, ∃ i, s.Holds i m
  uuids : s.broker.uuids ≤ s'.broker.uuids
  stored : ∀ m, s'.Stored m → s.Stored m ∨ ∃ i, s.Holds i m ∧ ∀ m', ¬ s'.Holds i m'
  held : ∀ i m, s'.Holds i m → s.Holds i m ∨
    m.id = s.broker.env.newUUID s.broker.uuids ∧ s.broker.uuids < s'.broker.uuids ∧ (∀ m', ¬ s.Holds i m') ∧
      ∀ j, j ≠ i → s'.role j = s.role j
  handed : s.handed <+: s'.handed

theorem Passes.env (h : s.Passes s') : s'.broker.env = s.broker.env := by
  obtain ⟨puts, hev, -⟩ := h.evolves
  exact hev.env

/-- The identifiers in use have been issued, and a message that is held
shares its identifier with no other. -/
structure Issued (s : Sys) : Prop where
  held_issued : ∀ {i m k}, s.Holds i m → s.broker.uuids ≤ k → s.broker.env.newUUID k ≠ m.id
  stored_issued : ∀ {m k}, s.Stored m → s.broker.uuids ≤ k → s.broker.env.newUUID k ≠ m.id
  held_ne : ∀ {i j m m'}, s.Holds i m → s.Holds j m' → i ≠ j → m.id ≠ m'.id
  held_stored : ∀ {i m m'}, s.Holds i m → s.Stored m' → m.id ≠ m'.id

/-- Identifiers tell messages apart. -/
structure Fresh (s : Sys) : Prop extends Issued s where
  stored_inj : ∀ {m m'}, s.Stored m → s.Stored m' → m.id = m'.id → m = m'

theorem Holds.unique (h : s.Holds i m) (h' : s.Holds i m') : m = m' := by
  unfold Holds at h h'
  cases hr : s.role i with
  | holding p t m₀ =>
    rw [hr] at h h'
    rw [mem_singleton.mp h, mem_singleton.mp h']
  | _ => rw [hr] at h; cases h

theorem Issued.step (hs : s.Issued) (h : s.Passes s') : s'.Issued := by
  have held_issued : ∀ {i m k}, s'.Holds i m → s'.broker.uuids ≤ k → s'.broker.env.newUUID k ≠ m.id := by
    intro i m k hm hk
    rw [h.env]
    rcases h.held i m hm with hm | ⟨hid, hlt, -, -⟩
    · exact hs.held_issued hm (Nat.le_trans h.uuids hk)
    · rw [hid]
      intro he
      have := s.broker.env.newUUID_inj he
      omega
  have held_ne : ∀ {i j m m'}, s'.Holds i m → s'.Holds j m' → i ≠ j → m.id ≠ m'.id := by
    intro i j m m' hi hj hij
    rcases h.held i m hi with hi | ⟨hid, -, hnot, hroles⟩
    · rcases h.held j m' hj with hj | ⟨hid', -, hnot', hroles'⟩
      · exact hs.held_ne hi hj hij
      · rw [hid']
        exact (hs.held_issued hi (Nat.le_refl _)).symm
    · have hj' : s.Holds j m' := by
        unfold Holds at hj ⊢
        rwa [hroles j (Ne.symm hij)] at hj
      rw [hid]
      exact hs.held_issued hj' (Nat.le_refl _)
  have held_stored : ∀ {i m m'}, s'.Holds i m → s'.Stored m' → m.id ≠ m'.id := by
    intro i m m' hi hm'
    rcases h.stored m' hm' with hst | ⟨j, hj, hgone⟩
    · rcases h.held i m hi with hi | ⟨hid, -, -, -⟩
      · exact hs.held_stored hi hst
      · rw [hid]
        exact hs.stored_issued hst (Nat.le_refl _)
    · have hij : i ≠ j := fun hij => hgone m (hij ▸ hi)
      rcases h.held i m hi with hi | ⟨hid, -, -, -⟩
      · exact hs.held_ne hi hj hij
      · rw [hid]
        exact hs.held_issued hj (Nat.le_refl _)
  refine ⟨held_issued, ?_, held_ne, held_stored⟩
  intro m k hm hk
  rw [h.env]
  rcases h.stored m hm with hst | ⟨j, hj, -⟩
  · exact hs.stored_issued hst (Nat.le_trans h.uuids hk)
  · exact hs.held_issued hj (Nat.le_trans h.uuids hk)

theorem Fresh.step (hs : s.Fresh) (h : s.Passes s') : s'.Fresh := by
  refine ⟨hs.toIssued.step h, ?_⟩
  intro m m' hm hm' hid
  rcases h.stored m hm with hst | ⟨i, hi, -⟩
  · rcases h.stored m' hm' with hst' | ⟨j, hj, -⟩
    · exact hs.stored_inj hst hst' hid
    · exact absurd hid.symm (hs.held_stored hj hst)
  · rcases h.stored m' hm' with hst' | ⟨j, hj, -⟩
    · exact absurd hid (hs.held_stored hi hst')
    · by_cases hij : i = j
      · subst hij
        exact hi.unique hj
      · exact absurd hid (hs.held_ne hi hj hij)

theorem not_stored_new {limits policy hooked storage env} {chans : Chan → Channel} :
    ¬ (init now (.new limits policy hooked storage env chans)).Stored m := by
  intro h
  rcases h with ⟨r, h⟩ | ⟨i, h⟩ | ⟨g, h, -⟩ | ⟨ch, h⟩ <;> simp [init, new, queued,
    role, Role.mail] at h

theorem init_issued {b}
    (h : ∀ m, (init now b).Stored m → ∀ k, b.uuids ≤ k → b.env.newUUID k ≠ m.id) : (init now b).Issued where
  held_issued h := by cases h
  stored_issued hm hk := h _ hm _ hk
  held_ne h := by cases h
  held_stored h := by cases h

theorem Holds.iff : s.Holds i m ↔ ∃ p t, s.role i = .holding p t m := by
  unfold Holds
  constructor
  · intro h
    cases hr : s.role i with
    | holding p t m' =>
      rw [hr] at h
      rw [mem_singleton.mp h]
      exact ⟨p, t, rfl⟩
    | _ => rw [hr] at h; cases h
  · rintro ⟨p, t, h⟩
    rw [h]
    exact mem_singleton.mpr rfl

section Passes

variable {pc : Pc} {v : Role ⊕ Ret} {handed : List (Chan × Message)}

theorem Ran.mail_subset (h : Ran s s' i pc v handed) (hm : m ∈ (s'.role i).mail) : m ∈ viewMail v := by
  have hg := h.goes
  cases v with
  | inl ρ => rw [hg.1] at hm; exact hm
  | inr r =>
    rcases hg with ⟨hr, -⟩ | ⟨⟨p, hr⟩, -⟩
    · rw [hr] at hm; cases hm
    · rw [hr] at hm; cases hm

theorem Ran.holding (h : Ran s s' i pc v handed) (hm : s'.role i = .holding p t m) : v = .inl (.holding p t m) :=
  h.view_of_role hm nofun nofun

theorem Ran.passes (h : Ran s s' i pc v handed) : s.Passes s' where
  evolves := ⟨pc.role.held, h.effect.evolves, fun m hm => ⟨i, by unfold Holds; rw [h.role_eq]; exact hm⟩⟩
  handed := ⟨handed, h.handed.symm⟩
  uuids := h.effect.uuids_le
  stored m hm := by
    -- Either an untouched part of the state has the message, or the effect brings it.
    have hcase : s.Stored m ∨ Reach s'.broker (viewMail v) m ∨ ∃ ch, (ch, m) ∈ handed := by
      rcases hm with hq | ⟨j, hj⟩ | hg | ⟨ch, hch⟩
      · exact .inr (.inl (.inl hq))
      · by_cases hji : j = i
        · subst hji
          exact .inr (.inl (.inr (.inl (h.mail_subset hj))))
        · exact .inl (.inr (.inl ⟨j, by rw [← h.roles j hji]; exact hj⟩))
      · exact .inr (.inl (.inr (.inr hg)))
      · rw [h.handed, mem_append] at hch
        rcases hch with hch | hch
        · exact .inl (.inr (.inr (.inr ⟨ch, hch⟩)))
        · exact .inr (.inr ⟨ch, hch⟩)
    rcases hcase with hst | hreach
    · exact .inl hst
    rcases h.effect.reach hreach with (hq | hmail | hg) | ⟨⟨p, t, hρ⟩, hv⟩
    · exact .inl (.inl hq)
    · exact .inl (.inr (.inl ⟨i, by rw [h.role_eq]; exact hmail⟩))
    · exact .inl (.inr (.inr (.inl hg)))
    · refine .inr ⟨i, Holds.iff.mpr ⟨p, t, by rw [h.role_eq, hρ]⟩, fun m' hm' => ?_⟩
      obtain ⟨p', t', hr⟩ := Holds.iff.mp hm'
      exact hv p' t' m' (h.holding hr)
  held j m hm := by
    by_cases hji : j = i
    · subst hji
      obtain ⟨p, t, hr⟩ := Holds.iff.mp hm
      have heff := h.effect
      rw [h.holding hr] at heff
      rcases heff.holding with hold | ⟨hloc, hid, hu⟩
      · exact .inl (Holds.iff.mpr ⟨p, t, by rw [h.role_eq, hold]⟩)
      · refine .inr ⟨hid, by omega, fun m' hm' => ?_, fun j' hj' => h.roles j' hj'⟩
        obtain ⟨p', t', hr'⟩ := Holds.iff.mp hm'
        rw [h.role_eq, hloc] at hr'
        cases hr'
    · refine .inl ?_
      unfold Holds at hm ⊢
      rwa [h.roles j hji] at hm

theorem Passes.of_quiet (hev : s.broker.Evolves s'.broker []) (huuids : s'.broker.uuids = s.broker.uuids)
    (hhanded : s'.handed = s.handed) (hstored : ∀ m, s'.Stored m → s.Stored m)
    (hheld : ∀ i m, s'.Holds i m → s.Holds i m) : s.Passes s' where
  evolves := ⟨[], hev, by simp⟩
  uuids := Nat.le_of_eq huuids.symm
  stored m hm := .inl (hstored m hm)
  held i m hm := .inl (hheld i m hm)
  handed := hhanded ▸ prefix_refl _

theorem passes_of_step (hs : s.Sound) (h : s.step l = some s') : s.Passes s' := by
  cases l with
  | tick d => cases h; exact .of_quiet (.refl _ []) rfl rfl (fun m hm => hm) fun i m hm => hm
  | start i op =>
    obtain ⟨hidle, -, rfl⟩ := step_start h
    obtain ⟨hmail, hheld, -⟩ := op.entry_mail
    refine .of_quiet (.congr rfl rfl rfl rfl rfl rfl rfl rfl) rfl rfl (fun m hm => ?_) fun j m hm => ?_
    · rcases hm with hq | ⟨j, hj⟩ | hg
      · exact .inl hq
      · by_cases hji : j = i
        · subst hji
          rw [setCall_role_self, hmail] at hj
          cases hj
        · rw [setCall_role_ne _ hji] at hj
          exact .inr (.inl ⟨j, hj⟩)
      · exact .inr (.inr hg)
    · unfold Holds at hm ⊢
      by_cases hji : j = i
      · subst hji
        rw [setCall_role_self, hheld] at hm
        cases hm
      · rwa [setCall_role_ne _ hji] at hm
  | run i =>
    obtain ⟨pc, v, handed, hran⟩ := ran_of_step hs h
    exact hran.passes
  | fire k i =>
    obtain ⟨g, c, hg, hc, hidle, -, rfl⟩ := step_fire h
    have hmail : ∀ m, m ∈ c.pc.role.mail → g.msg = m := by
      intro m hm
      rcases Goroutine.entry_role hc with ⟨due, push, rfl, hr⟩ | ⟨chs, m', rfl, hr⟩ <;> rw [hr] at hm <;>
        exact (mem_singleton.mp hm).symm
    have hheld : c.pc.role.held = [] := by
      rcases Goroutine.entry_role hc with ⟨due, push, rfl, hr⟩ | ⟨chs, m', rfl, hr⟩ <;> rw [hr] <;> rfl
    refine .of_quiet (.congr rfl rfl rfl rfl rfl rfl rfl rfl) rfl rfl (fun m hm => ?_) fun j m hm => ?_
    · rcases hm with hq | ⟨j, hj⟩ | ⟨g', hg', hm⟩ | hch
      · exact .inl hq
      · by_cases hji : j = i
        · subst hji
          rw [setCall_role_self] at hj
          exact .inr (.inr (.inl ⟨g, mem_of_getElem? hg, hmail m hj⟩))
        · rw [setCall_role_ne _ hji] at hj
          exact .inr (.inl ⟨j, hj⟩)
      · exact .inr (.inr (.inl ⟨g', mem_of_mem_eraseIdx hg', hm⟩))
      · exact .inr (.inr (.inr hch))
    · unfold Holds at hm ⊢
      by_cases hji : j = i
      · subst hji
        rw [setCall_role_self, hheld] at hm
        cases hm
      · rwa [setCall_role_ne _ hji] at hm
  | recv ch =>
    obtain ⟨m, rest, -, rfl⟩ := step_recv h
    exact .of_quiet (.congr rfl rfl rfl rfl rfl rfl rfl rfl) rfl rfl (fun m hm => hm) fun i m hm => hm

end Passes

end Sys

end TinyMQ
