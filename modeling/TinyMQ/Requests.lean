/-
REST requests and the messages they have: the invariant, and its
preservation by the steps of the broker.

Whenever a message leaves its queue a request has it, in its channel or in
its hands (`Has`). That is so as long as nobody sends to the channel of a
request that is not reading it: `Finds` and `LeavesInTime` are the conditions
on a step that keep it so.
-/
import TinyMQ.Rest
import TinyMQ.Wiring
import TinyMQ.Lasting

namespace TinyMQ

open List

/-- The call a handler in request `i` is waiting for. -/
def Handler.job (i : Nat) : Handler → Job
  | .publishing _ => .publish
  | .consuming req => .consume (req.args i)
  | .leaving req _ => .leave req.topic i
  | .acking req _ id _ => .ack req.topic id
  | _ => .none

/-- The messages a handler answers or has answered with. -/
def Handler.hands : Handler → List Message
  | .acking _ msgs _ _ => msgs
  | .done (.messages msgs) => msgs
  | _ => []

/-- The topic from which a handler may get a message through its channel. -/
def Handler.awaits : Handler → Option GoString
  | .consuming req => some req.topic
  | .selecting req _ => some req.topic
  | .leaving req _ => some req.topic
  | _ => none

namespace Rest

variable {R R' : Rest} {i j : Nat} {m : Message}

/-! ## What holds of the requests -/

/-- The goroutine of a request does what its handler is waiting for; the
others are timers. -/
structure Served (R : Rest) (i : Nat) : Prop where
  timer : R.handlers i = none → (R.sys.role i).job = .none ∨ (R.sys.role i).job = .publish
  busy : ∀ {h}, R.handlers i = some h → (R.sys.role i).job = .none ∨ (R.sys.role i).job = h.job i
  returned : ∀ {h r}, R.handlers i = some h → R.sys.results i = some r → (h.job i).Returns r

/-- Request `i` may still get a message through its channel, from the topic
object `r`. -/
inductive Placed (R : Rest) (i : Nat) (r : TopicRef) : Prop
  | consuming {req} : R.handlers i = some (.consuming req) → 0 < req.timeout →
      R.sys.broker.topics.lookup req.topic = some r →
      (R.sys.role i = .registered (req.args i) ∨ R.sys.results i = some (.consumed none)) → Placed R i r
  | selecting {req deadline} : R.handlers i = some (.selecting req deadline) →
      R.sys.broker.topics.lookup req.topic = some r → Placed R i r
  | leaving {req cancelled} : R.handlers i = some (.leaving req cancelled) →
      R.sys.broker.topics.lookup req.topic = some r → R.sys.results i = none → Placed R i r

/-- Request `i` has the message: in its channel, as the result of its
`Consume`, or in its answer. -/
inductive Has (R : Rest) (i : Nat) (m : Message) : Prop
  | buffered {h} : R.handlers i = some h → m ∈ (R.sys.broker.chans i).buf → Has R i m
  | taken {h q ms} : R.handlers i = some h →
      R.sys.role i = .taken q ms → m ∈ ms → Has R i m
  | returned {h ms} : R.handlers i = some h →
      R.sys.results i = some (.consumed (some ms)) → m ∈ ms → Has R i m
  | answered {h} : R.handlers i = some h → m ∈ h.hands → Has R i m

/-- The message is queued, or a request has it. -/
def Safe (R : Rest) (m : Message) : Prop := (∃ r, m ∈ R.sys.broker.queued r) ∨ ∃ i, R.Has i m

/-- A message that was accepted is safe, and a request acknowledges only
what it has. -/
def Fair (R : Rest) : Handler → Prop
  | .done (.accepted m) => R.Safe m
  | .acking _ msgs id todo => ∀ id' ∈ id :: todo, ∃ m ∈ msgs, m.id = id'
  | _ => True

/-- What goroutine `i` has pushed or published is safe. What it removes
after a send, a request has. -/
structure SecureAt (R : Rest) (i : Nat) : Prop where
  push : ∀ {p}, (R.sys.role i).push? = some p → R.Safe p.msg
  removing : ∀ {p}, R.sys.role i = .removing p → ∃ j, R.Has j p.msg
  published : ∀ {m}, R.sys.results i = some (.published (.ok m)) → R.Safe m
  fair : ∀ {h}, R.handlers i = some h → R.Fair h
  taken : ∀ {q ms}, R.sys.role i = .taken q ms → ms.length ≤ q.limit
  returned : ∀ {req ms}, R.handlers i = some (.consuming req) → R.sys.results i = some (.consumed (some ms)) →
    ms.length ≤ req.limit

structure Secure (R : Rest) : Prop where
  goroutine : ∀ i, R.SecureAt i
  timer : ∀ {m}, m ∈ R.sys.timers → R.Safe m
  handed : ∀ {i m}, R.Has i m → ∃ ch, (ch, m) ∈ R.sys.handed

/-- All that holds along careful runs. -/
structure Inv (R : Rest) : Prop where
  regular : R.sys.Regular
  lasting : R.sys.Lasting
  served : ∀ i, R.Served i
  wired : R.sys.Wired R.Placed
  secure : R.Secure

/-! ## Requests that a step leaves alone -/

/-- Goroutine `i` and its request are as they were. -/
structure Same (R R' : Rest) (i : Nat) : Prop where
  handler : R'.handlers i = R.handlers i
  role : R'.sys.role i = R.sys.role i
  result : R'.sys.results i = R.sys.results i

theorem Served.same (hs : R.Served i) (h : Same R R' i) : R'.Served i := by
  refine ⟨fun hh => ?_, fun hh => ?_, fun hh hr => ?_⟩
  · rw [h.role]
    exact hs.timer (h.handler ▸ hh)
  · rw [h.role]
    exact hs.busy (h.handler ▸ hh)
  · exact hs.returned (h.handler ▸ hh) (h.result ▸ hr)

theorem Placed.same (hp : R.Placed i r) (h : Same R R' i)
    (ht : ∀ {n r}, R.sys.broker.topics.lookup n = some r → R'.sys.broker.topics.lookup n = some r) :
    R'.Placed i r := by
  cases hp with
  | consuming hh hpos hl hor =>
    exact .consuming (h.handler.trans hh) hpos (ht hl) (by rw [h.role, h.result]; exact hor)
  | selecting hh hl => exact .selecting (h.handler.trans hh) (ht hl)
  | leaving hh hl hr => exact .leaving (h.handler.trans hh) (ht hl) (h.result.trans hr)

theorem Has.same (hm : R.Has i m) (h : Same R R' i)
    (hb : m ∈ (R.sys.broker.chans i).buf → m ∈ (R'.sys.broker.chans i).buf) : R'.Has i m := by
  cases hm with
  | buffered hh hm => exact .buffered (h.handler.trans hh) (hb hm)
  | taken hh hr hm => exact .taken (h.handler.trans hh) (h.role.trans hr) hm
  | returned hh hr hm => exact .returned (h.handler.trans hh) (h.result.trans hr) hm
  | answered hh hm => exact .answered (h.handler.trans hh) hm

theorem Fair.mono (hf : R.Fair h) (hsafe : ∀ m, R.Safe m → R'.Safe m) : R'.Fair h := by
  cases h with
  | acking req msgs id todo => exact hf
  | done res =>
    cases res with
    | accepted m => exact hsafe m hf
    | _ => trivial
  | _ => trivial

theorem SecureAt.same (hs : R.SecureAt i) (h : Same R R' i) (hsafe : ∀ m, R.Safe m → R'.Safe m)
    (hhas : ∀ j m, R.Has j m → R'.Has j m) : R'.SecureAt i := by
  refine ⟨fun hp => ?_, fun hr => ?_, fun hr => ?_, fun hh => ?_, fun hr => ?_, fun hh hr => ?_⟩
  · exact hsafe _ (hs.push (h.role ▸ hp))
  · obtain ⟨j, hj⟩ := hs.removing (h.role ▸ hr)
    exact ⟨j, hhas j _ hj⟩
  · exact hsafe _ (hs.published (h.result ▸ hr))
  · exact (hs.fair (h.handler ▸ hh)).mono hsafe
  · exact hs.taken (h.role ▸ hr)
  · exact hs.returned (h.handler ▸ hh) (h.result ▸ hr)

/-! ## Places -/

theorem Placed.lookup (hp : R.Placed i r) :
    ∃ h n, R.handlers i = some h ∧ h.awaits = some n ∧ R.sys.broker.topics.lookup n = some r := by
  cases hp with
  | consuming hh _ hl _ | selecting hh hl | leaving hh hl _ => exact ⟨_, _, hh, rfl, hl⟩

/-- A request is placed at one topic object, also across steps that keep
its handler. -/
theorem Placed.unique (h : R.Placed i r) (h' : R'.Placed i r') (hh : R'.handlers i = R.handlers i)
    (ht : ∀ {n r}, R.sys.broker.topics.lookup n = some r → R'.sys.broker.topics.lookup n = some r) : r = r' := by
  obtain ⟨h₁, n, hh₁, hn, hl⟩ := h.lookup
  obtain ⟨h₂, n', hh₂, hn', hl'⟩ := h'.lookup
  rw [hh, hh₁] at hh₂
  cases hh₂
  cases hn.symm.trans hn'
  exact Option.some.inj ((ht hl).symm.trans hl')

/-! ## A goroutine of the broker runs -/

theorem Served.handler (hs : R.Served i) (hj : (R.sys.role i).job = job) (hne : job ≠ .none)
    (hp : job ≠ .publish) : ∃ h, R.handlers i = some h ∧ h.job i = job := by
  cases hh : R.handlers i with
  | none =>
    rcases hs.timer hh with h | h <;> rw [hj] at h
    · exact absurd h hne
    · exact absurd h hp
  | some h =>
    rcases hs.busy hh with hb | hb <;> rw [hj] at hb
    · exact absurd hb hne
    · exact ⟨h, rfl, hb.symm⟩

theorem Served.consumer (hs : R.Served i) (hj : R.sys.role i = .seeking t q ∨ ∃ ms, R.sys.role i = .taken q ms) :
    ∃ req, R.handlers i = some (.consuming req) ∧ q = req.args i := by
  have hjob : (R.sys.role i).job = .consume q := by
    rcases hj with hj | ⟨ms, hj⟩ <;> rw [hj] <;> rfl
  obtain ⟨h, hh, hj⟩ := hs.handler hjob (by simp) (by simp)
  cases h with
  | consuming req => cases hj; exact ⟨req, hh, rfl⟩
  | _ => cases hj

section Ran

theorem same_of_ran (h : Sys.Ran R.sys s' i pc v handed) (hj : j ≠ i) : Same R { R with sys := s' } j :=
  ⟨rfl, h.roles j hj, h.results j hj⟩

theorem Inv.running (hI : R.Inv) (h : Sys.Ran R.sys s' i pc v handed) : R.sys.results i = none := by
  obtain ⟨stack, hc⟩ := h.at_pc
  exact hI.regular.sound.running i _ hc

theorem Inv.result (hI : R.Inv) (h : Sys.Ran R.sys s' i pc v handed) (hr : s'.results i = some r) : v = .inr r := by
  have hnone := hI.running h
  have hgoes := h.goes
  cases v with
  | inl ρ =>
    rw [hgoes.2, hnone] at hr
    cases hr
  | inr r' =>
    rcases hgoes with ⟨-, hr'⟩ | ⟨-, -, hr'⟩
    · cases hr.symm.trans hr'
      rfl
    · rw [hr', hnone] at hr
      cases hr

theorem Inv.served_ran (hI : R.Inv) (h : Sys.Ran R.sys s' i pc v handed) : Served { R with sys := s' } j := by
  by_cases hji : j = i
  swap
  · exact (hI.served j).same (same_of_ran h hji)
  subst hji
  have hs := hI.served j
  have hjob := h.effect.job
  rw [← h.role_eq] at hjob
  -- The job of the goroutine that has run: as before, or it has returned.
  have hself : (s'.role j).job = .none ∨ (s'.role j).job = (R.sys.role j).job := by
    have hgoes := h.goes
    cases v with
    | inl ρ =>
      rw [hgoes.1]
      exact .inr hjob
    | inr r =>
      rcases hgoes with ⟨hr, -⟩ | ⟨⟨p, hr⟩, ⟨e, rfl⟩, -⟩
      · exact .inl (by rw [hr]; rfl)
      · rw [hr]
        cases hj : (R.sys.role j).job with
        | publish => exact .inr rfl
        | _ => rw [hj] at hjob; exact hjob.elim
  refine ⟨fun hh => ?_, fun hh => ?_, fun hh hr => ?_⟩
  · rcases hself with hn | he
    · exact .inl hn
    · exact he ▸ hs.timer hh
  · rcases hself with hn | he
    · exact .inl hn
    · exact he ▸ hs.busy hh
  · rw [hI.result h hr] at hjob
    rcases hs.busy hh with hb | hb <;> rw [hb] at hjob
    · exact hjob.elim
    · exact hjob

theorem Has.ran (hm : R.Has j m) (hI : R.Inv) (h : Sys.Ran R.sys s' i pc v handed) :
    Has { R with sys := s' } j m := by
  by_cases hji : j = i
  swap
  · exact hm.same (same_of_ran h hji) h.effect.buf_subset
  subst hji
  cases hm with
  | buffered hh hm => exact .buffered hh (h.effect.buf_subset hm)
  | taken hh hr hm =>
    have hgoes := h.goes
    rcases h.effect.taken (h.role_eq.symm.trans hr) with hv | hv <;> rw [hv] at hgoes
    · exact .taken hh hgoes.1 hm
    · rcases hgoes with ⟨-, hr'⟩ | ⟨-, ⟨e, he⟩, -⟩
      · exact .returned hh hr' hm
      · cases he
  | returned hh hr hm => rw [hI.running h] at hr; cases hr
  | answered hh hm => exact .answered hh hm

theorem Secure.stored (hs : R.Secure) (hm : R.Has i m) : R.sys.Stored m := .inr (.inr (.inr (hs.handed hm)))

theorem Safe.ran (hm : R.Safe m) (hI : R.Inv) (h : Sys.Ran R.sys s' i pc v handed) : Safe { R with sys := s' } m := by
  have hhas : (∃ j, R.Has j m) → Safe { R with sys := s' } m := fun ⟨j, hj⟩ => .inr ⟨j, hj.ran hI h⟩
  rcases hm with ⟨r, hm⟩ | hm
  swap
  · exact hhas hm
  have hst : R.sys.Stored m := .inl ⟨r, hm⟩
  have hexp : m.expired R.sys.now = false := by simp [Message.expired, hI.lasting.queue hm]
  rcases h.effect.leaves (fun t ht => (hI.lasting.topics t ht).1) hexp hm with
    hm | ⟨t, q, ms, hρ, hv, hm⟩ | ⟨p, hρ, hid⟩ | ⟨t, n, id, hρ, hid⟩
  · exact .inl ⟨r, hm⟩
  · -- A request has consumed it.
    obtain ⟨req, hh, -⟩ := (hI.served i).consumer (.inl (h.role_eq.trans hρ))
    have hgoes := h.goes
    rw [hv] at hgoes
    exact .inr ⟨i, .taken hh hgoes.1 hm⟩
  · -- It was sent to a request.
    have hrole := h.role_eq.trans hρ
    have he : m = p.msg := hI.regular.fresh.stored_inj hst
      (Sys.stored_of_push (i := i) (by rw [hrole]; rfl)) hid
    exact hhas (he ▸ (hI.secure.goroutine i).removing hrole)
  · -- A request acknowledges it.
    obtain ⟨h', hh, hj⟩ := (hI.served i).handler (by rw [h.role_eq, hρ]) (by simp [Role.job])
      (by simp [Role.job])
    cases h' with
    | acking req msgs id' todo =>
      cases hj
      obtain ⟨m', hm', hid'⟩ := (hI.secure.goroutine i).fair hh id (by simp)
      have hm' : R.Has i m' := .answered hh hm'
      have he : m = m' := hI.regular.fresh.stored_inj hst (hI.secure.stored hm') (hid.trans hid'.symm)
      exact hhas ⟨i, he ▸ hm'⟩
    | _ => cases hj

/-- A message that was held is held, or its publish has failed, or it is
safe. -/
theorem Inv.of_holds (hI : R.Inv) (h : Sys.Ran R.sys s' i pc v handed) (hm : R.sys.Holds i m) :
    (∃ a t, v = .inl (.holding a t m)) ∨ (∃ e, v = .inr (.published (.error e))) ∨ Safe { R with sys := s' } m := by
  obtain ⟨a, t, hρ⟩ := Sys.Holds.iff.mp hm
  rw [h.role_eq] at hρ
  rcases h.effect.of_holding (fun t ht => (hI.lasting.topics t ht).1) hρ with hv | hv | hm
  · exact .inl ⟨a, t, hv⟩
  · exact .inr (.inl hv)
  · exact .inr (.inr (.inl ⟨t, hm⟩))

theorem Inv.secureAt_ran (hI : R.Inv) (h : Sys.Ran R.sys s' i pc v handed) : SecureAt { R with sys := s' } i where
  push {p} hp := by
    rcases h.push hp with hp' | hm
    · exact ((hI.secure.goroutine i).push hp').ran hI h
    · have hv : v = .inl (s'.role i) := h.view_eq (fun he => by rw [he] at hp; cases hp) fun a he => by
        rw [he] at hp; cases hp
      rcases hI.of_holds h hm with ⟨a, t, hv'⟩ | ⟨e, hv'⟩ | hsafe
      · rw [hv] at hv'
        rw [Sum.inl.inj hv'] at hp
        cases hp
      · cases hv.symm.trans hv'
      · exact hsafe
  removing {p} hr := by
    have heff := h.effect
    rw [h.view_of_role hr nofun nofun] at heff
    rcases heff.to_removing with hρ | ⟨ch, hρ, hsent⟩
    · obtain ⟨j, hj⟩ := (hI.secure.goroutine i).removing (h.role_eq.trans hρ)
      exact ⟨j, hj.ran hI h⟩
    · -- The request whose channel it was has the message now.
      obtain ⟨⟨r, hplaced⟩, -, -⟩ := hI.wired.sending (h.role_eq.trans hρ)
      obtain ⟨h', n, hh, -, -⟩ := hplaced.lookup
      obtain ⟨-, hb⟩ := trySend_eq_some hsent
      exact ⟨ch, .buffered (h := h') hh (by rw [hb]; simp)⟩
  published {m} hr := by
    have heff := h.effect
    have hv := hI.result h hr
    rw [hv] at heff
    rcases heff.published with ⟨p, hp, rfl⟩ | ⟨a, t, hρ⟩
    · exact ((hI.secure.goroutine i).push (h.role_eq ▸ hp)).ran hI h
    · rcases hI.of_holds h (h.holds hρ) with ⟨a, t, hv'⟩ | ⟨e, hv'⟩ | hsafe
      · cases hv.symm.trans hv'
      · cases hv.symm.trans hv'
      · exact hsafe
  fair hh := ((hI.secure.goroutine i).fair hh).mono fun m hm => hm.ran hI h
  taken {q ms} hr := by
    have heff := h.effect
    rw [h.view_of_role hr nofun nofun] at heff
    rcases heff.to_taken with hρ | ⟨-, hle⟩
    · exact (hI.secure.goroutine i).taken (h.role_eq.trans hρ)
    · exact hle
  returned {req ms} hh hr := by
    have heff := h.effect
    rw [hI.result h hr] at heff
    obtain ⟨q, hρ⟩ := heff.consumed
    have hrole := h.role_eq.trans hρ
    obtain ⟨req', hh', rfl⟩ := (hI.served i).consumer (t := none) (.inr ⟨ms, hrole⟩)
    rw [show R.handlers i = _ from hh] at hh'
    cases hh'
    exact (hI.secure.goroutine i).taken hrole

theorem Inv.handed_ran (hI : R.Inv) (h : Sys.Ran R.sys s' i pc v handed) (hm : Has { R with sys := s' } j m) :
    ∃ ch, (ch, m) ∈ s'.handed := by
  have hold : R.Has j m → ∃ ch, (ch, m) ∈ s'.handed := by
    intro hm
    obtain ⟨ch, hch⟩ := hI.secure.handed hm
    exact ⟨ch, by rw [h.handed]; exact mem_append_left _ hch⟩
  have hnew : ∀ {ch}, (ch, m) ∈ handed → ∃ ch, (ch, m) ∈ s'.handed := fun {ch} hch =>
    ⟨ch, by rw [h.handed]; exact mem_append_right _ hch⟩
  cases hm with
  | buffered hh hm =>
    rcases h.effect.buf_new hm with hm | hm
    · exact hold (.buffered hh hm)
    · exact hnew hm
  | @taken h' q ms hh hr hm =>
    by_cases hji : j = i
    · subst hji
      have heff := h.effect
      have hr' : s'.role j = .taken q ms := hr
      rw [h.view_of_role hr' nofun nofun] at heff
      rcases heff.to_taken with hρ | ⟨rfl, -⟩
      · exact hold (.taken hh (h.role_eq.trans hρ) hm)
      · exact hnew (List.mem_map_of_mem hm)
    · exact hold (.taken hh ((h.roles j hji).symm.trans hr) hm)
  | @returned h' ms hh hr hm =>
    by_cases hji : j = i
    · subst hji
      have heff := h.effect
      rw [hI.result h hr] at heff
      obtain ⟨q, hρ⟩ := heff.consumed
      exact hold (.taken hh (h.role_eq.trans hρ) hm)
    · exact hold (.returned hh ((h.results j hji).symm.trans hr) hm)
  | answered hh hm => exact hold (.answered hh hm)

theorem Inv.secure_ran (hI : R.Inv) (h : Sys.Ran R.sys s' i pc v handed) : Secure { R with sys := s' } where
  goroutine j := by
    by_cases hji : j = i
    · subst hji
      exact hI.secureAt_ran h
    · exact (hI.secure.goroutine j).same (same_of_ran h hji) (fun m hm => hm.ran hI h) fun j m hm =>
        hm.ran hI h
  timer {m} hm := by
    rcases h.timers with ht | ⟨m', ht, hv, hm', -⟩
    · exact (hI.secure.timer (ht ▸ hm)).ran hI h
    · rw [show Sys.timers s' = _ from ht, mem_append, mem_singleton] at hm
      rcases hm with hm | rfl
      · exact (hI.secure.timer hm).ran hI h
      · rcases hI.of_holds h hm' with ⟨a, t, hv'⟩ | ⟨e, hv'⟩ | hsafe
        · cases hv.symm.trans hv'
        · cases hv.symm.trans hv'
        · exact hsafe
  handed hm := hI.handed_ran h hm

end Ran

end Rest

/-! ## Careful runs -/

/-- A handler in `Consume` that will not wait for a message. -/
def Handler.hasty : Handler → Bool
  | .consuming req => !decide (0 < req.timeout)
  | _ => false

/-- The channel of a `RemoveWaitingConsumer` that is about to remove it. -/
def Role.leaving? : Role → Option Chan
  | .leaving (some _) _ ch => some ch
  | _ => none

/-- The topic object where goroutine `i` waits if it finds nothing next. -/
def Sys.waitsAt (s : Sys) (i : Nat) : Option TopicRef := (s.calls i).bind fun c => c.pc.waitsAt

theorem ConsumeRequest.limit_pos (req : ConsumeRequest) : 0 < req.limit := by
  cases req with
  | consume topic limit timeout autoAck =>
    cases limit with
    | none => exact Nat.one_pos
    | some n =>
      simp only [limit]
      split <;> omega
  | queueConsume queue => exact Nat.one_pos

namespace Rest

variable {R R' : Rest} {i : Nat} {m : Message}

/-- If request `i` does not wait for a message and is about to register its
channel, there is one for it. -/
def Finds (R : Rest) (i : Nat) : Prop :=
  ∀ h ∈ R.handlers i, h.hasty = true → ∀ r ∈ R.sys.waitsAt i, ∃ m ∈ R.sys.broker.queued r, m.delayed R.sys.now = false

/-- If goroutine `i` is about to remove a channel from its topic, no push has
taken the channel. -/
def LeavesInTime (R : Rest) (i : Nat) : Prop := ∀ ch ∈ (R.sys.role i).leaving?, ¬ R.sys.Taken ch

theorem Placed.ran (hp : R.Placed ch r) (hI : R.Inv) (h : Sys.Ran R.sys s' i pc v handed)
    (hleave : R.LeavesInTime i) : Placed { R with sys := s' } ch r ∨ ¬ s'.Uses ch := by
  have hev := h.effect.evolves
  by_cases hji : ch = i
  swap
  · exact .inl (hp.same (same_of_ran h hji) hev.topics)
  subst hji
  have hgoes := h.goes
  cases hp with
  | consuming hh hpos hl hor =>
    rcases hor with hr | hr
    · rcases h.effect.registered (h.role_eq.symm.trans hr) with hv | hv <;> rw [hv] at hgoes
      · exact .inl (.consuming hh hpos (hev.topics hl) (.inl hgoes.1))
      · rcases hgoes with ⟨-, hr'⟩ | ⟨-, ⟨e, he⟩, -⟩
        · exact .inl (.consuming hh hpos (hev.topics hl) (.inr hr'))
        · cases he
    · rw [hI.running h] at hr
      cases hr
  | selecting hh hl => exact .inl (.selecting hh (hev.topics hl))
  | @leaving req cancelled hh hl hnone =>
    cases hr : s'.results ch with
    | none => exact .inl (.leaving hh (hev.topics hl) hr)
    | some ret =>
      -- `RemoveWaitingConsumer` has returned: the channel is in use no longer.
      right
      have hv := hI.result h hr
      subst hv
      have hjob := h.effect.job
      have hbusy := (hI.served ch).busy hh
      rw [h.role_eq] at hbusy
      obtain ⟨t, hρ⟩ : ∃ t, pc.role = .leaving t req.topic ch := by
        rcases hbusy with hb | hb <;> rw [hb] at hjob
        · exact hjob.elim
        · cases hρ : pc.role with
          | leaving t n ch' => rw [hρ] at hb; cases hb; exact ⟨t, rfl⟩
          | _ => rw [hρ] at hb; cases hb
      rcases h.effect.leaving hρ with ⟨-, hnotopic, -⟩ | ⟨r', rfl, hun, herase⟩
      · cases hl.symm.trans hnotopic
      have hr' : r' = r := by
        have hhome := hI.regular.homed.call ch
        rw [h.role_eq, hρ] at hhome
        exact Option.some.inj (hhome.symm.trans hl)
      subst hr'
      have hidle : ¬ R.sys.Taken ch := hleave ch (by rw [h.role_eq, hρ]; rfl)
      rintro (⟨r'', hw⟩ | ⟨k, p, hk⟩ | hbuf)
      · by_cases hrr : r'' = r'
        · rw [hrr, herase] at hw
          exact (hI.wired.nodup r').not_mem_erase hw
        · rw [hun.waiting r'' hrr] at hw
          exact hrr ((hI.wired.waiting hw).1.unique (.leaving hh hl hnone) rfl id)
      · by_cases hk' : k = ch
        · subst hk'
          cases h.sending_self hk
        · exact hidle (.inl ⟨k, p, h.sending_of_ne hk' hk⟩)
      · exact hidle (.inr (by rw [← hun.chans]; exact hbuf))

theorem Inv.registers (hI : R.Inv) (h : Sys.Ran R.sys s' i pc v handed)
    (hfinds : R.Finds i) (hrole : R.sys.role i = .seeking (some r) q) (hat : pc.waitsAt = some r)
    (hv : v = .inl (.registered q))
    (hx : Broker.Extracts R.sys.now q.limit R.sys.broker s'.broker r [] (some q.notifyChan)) :
    Placed { R with sys := s' } q.notifyChan r ∧ ¬ R.sys.Uses q.notifyChan := by
  obtain ⟨req, hh, rfl⟩ := (hI.served i).consumer (.inl hrole)
  have hlookup : s'.broker.topics.lookup req.topic = some r := by
    have hhome := hI.regular.homed.call i
    rw [hrole] at hhome
    exact hx.topics hhome
  have hwaits : 0 < req.timeout := by
    by_contra hnot
    obtain ⟨stack, hc⟩ := h.at_pc
    obtain ⟨m, hm, hready⟩ := hfinds _ hh (by simpa [Handler.hasty] using hnot) r
      (by simp [Sys.waitsAt, hc, hat])
    -- The message would have been found.
    rcases hx.mem_or hm with hm' | hm' | hexp
    · rw [hx.left req.limit_pos m hm'] at hready
      cases hready
    · cases hm'
    · simp [Message.expired, hI.lasting.queue hm] at hexp
  have hgoes := h.goes
  rw [hv] at hgoes
  refine ⟨.consuming hh hwaits hlookup (.inl hgoes.1), fun huses => ?_⟩
  obtain ⟨r', hp⟩ := hI.wired.expects huses
  cases hp with
  | consuming hh' _ _ hor =>
    rcases hor with hr | hr
    · rw [show R.sys.role (req.args i).notifyChan = _ from hrole] at hr
      cases hr
    · rw [show R.sys.results (req.args i).notifyChan = _ from hI.running h] at hr
      cases hr
  | selecting hh' _ | leaving hh' _ _ =>
    rw [show R.handlers (req.args i).notifyChan = _ from hh] at hh'; cases hh'

theorem Inv.wired_ran (hI : R.Inv) (h : Sys.Ran R.sys s' i pc v handed) (hfinds : R.Finds i)
    (hleave : R.LeavesInTime i) : s'.Wired (Placed { R with sys := s' }) := by
  have htopics : ∀ {n r}, R.sys.broker.topics.lookup n = some r → s'.broker.topics.lookup n = some r :=
    h.effect.evolves.topics
  -- During the step a channel may be where it was placed or where it will be.
  have hwired : s'.Wired fun ch r => R.Placed ch r ∨ Placed { R with sys := s' } ch r := by
    refine (hI.wired.mono fun ch r _ hp => .inl hp).ran ?_ (hI.regular.unicast.role i) h ?_
    · intro ch r r' hr hr'
      rcases hr with hr | hr <;> rcases hr' with hr' | hr'
      · exact hr.unique hr' rfl id
      · exact hr.unique hr' rfl htopics
      · exact (hr'.unique hr rfl htopics).symm
      · exact hr.unique hr' rfl id
    · intro q r hrole hat hv hx
      obtain ⟨hp, huses⟩ := hI.registers h hfinds hrole hat hv hx
      exact ⟨.inr hp, huses⟩
  refine hwired.mono fun ch r huses hp => ?_
  rcases hp with hp | hp
  · exact (hp.ran hI h hleave).resolve_right fun hnot => hnot huses
  · exact hp

/-! ## Time passes, or a timer fires -/

theorem Safe.mono (hm : R.Safe m) (hq : ∀ r, R'.sys.broker.queued r = R.sys.broker.queued r)
    (hhas : ∀ j m, R.Has j m → R'.Has j m) : R'.Safe m := by
  rcases hm with ⟨r, hm⟩ | ⟨j, hm⟩
  · exact .inl ⟨r, by rw [hq]; exact hm⟩
  · exact .inr ⟨j, hhas j m hm⟩

theorem Inv.tick (hI : R.Inv) (h : R.sys.step (.tick d) = some s') : Inv { R with sys := s' } := by
  have hregular := hI.regular.step (l := .tick d) trivial h
  have hlasting := hI.lasting.step (l := .tick d) hI.regular.sound trivial h
  cases h
  have hsame : ∀ j, Same R { R with sys := { R.sys with now := R.sys.now + d } } j := fun j => ⟨rfl, rfl, rfl⟩
  have hhas : ∀ j m, R.Has j m → Has { R with sys := { R.sys with now := R.sys.now + d } } j m :=
    fun j m hm => hm.same (hsame j) id
  have hsafe : ∀ m, R.Safe m → Safe { R with sys := { R.sys with now := R.sys.now + d } } m :=
    fun m hm => hm.mono (fun r => rfl) hhas
  refine ⟨hregular, hlasting, fun j => (hI.served j).same (hsame j), ?_, fun j => ?_, fun hm => ?_,
    fun hm => ?_⟩
  · exact (hI.wired.mono fun ch r _ hp => hp.same (hsame ch) id).of_sublist (fun r => Sublist.refl _) rfl
      fun j p ch hj => hj
  · exact (hI.secure.goroutine j).same (hsame j) hsafe hhas
  · exact hsafe _ (hI.secure.timer hm)
  · exact hI.secure.handed (hm.same ⟨rfl, rfl, rfl⟩ id)

theorem Inv.fire (hI : R.Inv) (hfree : R.handlers i = none) (h : R.sys.step (.fire k i) = some s') :
    Inv { R with sys := s' } := by
  have hregular := hI.regular.step (l := .fire k i) trivial h
  have hlasting := hI.lasting.step (l := .fire k i) hI.regular.sound trivial h
  obtain ⟨g, hf⟩ := Sys.fired_of_step h
  have hsame : ∀ j, j ≠ i → Same R { R with sys := s' } j := fun j hj =>
    ⟨rfl, hf.roles j hj, congrFun hf.results j⟩
  have hchans : s'.broker.chans = R.sys.broker.chans := by rw [hf.broker]
  have hhas : ∀ j m, R.Has j m ↔ Has { R with sys := s' } j m := by
    intro j m
    by_cases hj : j = i
    · subst hj
      constructor <;> intro hm <;> cases hm <;> simp_all
    · exact ⟨fun hm => hm.same (hsame j hj) (hchans ▸ id),
        fun hm => hm.same ⟨rfl, (hsame j hj).role.symm, (hsame j hj).result.symm⟩ (hchans ▸ id)⟩
  have hsafe : ∀ m, R.Safe m → Safe { R with sys := s' } m :=
    fun m hm => hm.mono (fun r => by rw [hf.broker]; rfl) fun j m => (hhas j m).mp
  -- It was a timer that fired, for no broadcast is under way.
  obtain ⟨push, hg, hrole⟩ : ∃ push, g.push? = some push ∧ s'.role i = .pushing push := by
    rcases hf.role with ⟨due, push, rfl, hr⟩ | ⟨chs, m, rfl, -⟩
    · exact ⟨push, rfl, hr⟩
    · exact (hI.regular.unicast.goroutines (.broadcast chs m) (hf.goroutines.subset (by simp))).elim
  have htimers : ∀ m ∈ s'.timers, m ∈ R.sys.timers := by
    intro m hm
    obtain ⟨g', hg', hm⟩ := mem_filterMap.mp hm
    exact mem_filterMap.mpr ⟨g', hf.goroutines.subset (mem_cons_of_mem _ hg'), hm⟩
  have hpush : push.msg ∈ R.sys.timers :=
    mem_filterMap.mpr ⟨g, hf.goroutines.subset (by simp), by rw [hg]; rfl⟩
  refine ⟨hregular, hlasting, fun j => ?_, ?_, fun j => ?_, fun hm => ?_, fun {j m} hm => ?_⟩
  · by_cases hj : j = i
    · subst hj
      exact ⟨fun _ => .inr (by rw [hrole]; rfl), fun hh => by simp_all, fun hh => by simp_all⟩
    · exact (hI.served j).same (hsame j hj)
  · refine (hI.wired.fired hf).mono fun ch r _ hp => hp.same (hsame ch ?_) (by rw [hf.broker]; exact id)
    rintro rfl
    obtain ⟨h', n, hh, -, -⟩ := hp.lookup
    cases hfree.symm.trans hh
  · by_cases hj : j = i
    · subst hj
      refine ⟨fun hp => ?_, fun hr => ?_, fun hr => ?_, fun hh => ?_, fun hr => ?_, fun hh => ?_⟩
      · rw [hrole] at hp
        cases hp
        exact hsafe _ (hI.secure.timer hpush)
      · cases hrole.symm.trans hr
      · exact hsafe _ ((hI.secure.goroutine j).published ((congrFun hf.results j).symm.trans hr))
      · rw [show R.handlers j = some _ from hh] at hfree
        cases hfree
      · cases hrole.symm.trans hr
      · rw [show R.handlers j = some _ from hh] at hfree
        cases hfree
    · exact (hI.secure.goroutine j).same (hsame j hj) hsafe fun j m => (hhas j m).mp
  · exact hsafe _ (hI.secure.timer (htimers _ hm))
  · rw [show s'.handed = _ from hf.handed]
    exact hI.secure.handed ((hhas j m).mpr hm)

end Rest

end TinyMQ
