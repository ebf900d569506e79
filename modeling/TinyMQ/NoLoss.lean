/-
What becomes of a message that a REST request has published.

A message is lost when a push sends it to a channel that nobody reads any
more: that of a request that does not wait, or that has stopped waiting
while a push had already taken its channel. In runs where neither happens
(`Careful`), no message is lost.
-/
import TinyMQ.Requests

namespace TinyMQ

open List Option Function Broker

/-! ## The turns of a handler -/

theorem Sys.take_eq_self {s : Sys} (h : s.results i = none) : s.take i = s := by
  simp [Sys.take, ← h]

theorem Sys.Regular.take {s : Sys} (hs : s.Regular) (i : Nat) : (s.take i).Regular where
  sound := by
    refine ⟨hs.sound.calls, fun j c hc => ?_⟩
    by_cases hj : j = i
    · simp [Sys.take, hj]
    · simpa [Sys.take, hj] using hs.sound.running j c hc
  fresh := ⟨⟨hs.fresh.held_issued, hs.fresh.stored_issued, hs.fresh.held_ne, hs.fresh.held_stored⟩,
    hs.fresh.stored_inj⟩
  homed := ⟨hs.homed.queue, hs.homed.call, hs.homed.timer⟩
  owned := ⟨hs.owned.queue, hs.owned.timers, hs.owned.calls, hs.owned.timer_call⟩
  unicast := ⟨hs.unicast.calls, hs.unicast.goroutines⟩

/-- The call that a handler makes as it goes on. -/
def Handler.Calls (i : Nat) (next : Option Op × Handler) : Prop :=
  match next.1 with
  | none => next.2.job i = .none
  | some op => op.entry.pc.role.job = next.2.job i

namespace Rest

variable {R R' : Rest} {i j : Nat} {m : Message} {s : Sys} {next : Option Op × Handler}

/-- Between two turns: the handler of request `i` has taken the result of
its call, or a message from its channel. -/
structure Freed (R : Rest) (i : Nat) (s : Sys) : Prop where
  regular : s.Regular
  lasting : s.Lasting
  wired : s.Wired R.Placed
  idle : s.role i = .idle
  result : s.results i = none
  roles : ∀ j, s.role j = R.sys.role j
  results : ∀ j, j ≠ i → s.results j = R.sys.results j
  topics : s.broker.topics = R.sys.broker.topics
  queued : ∀ r, s.broker.queued r = R.sys.broker.queued r
  chans : ∀ j, j ≠ i → s.broker.chans j = R.sys.broker.chans j
  buf : ∀ m ∈ (s.broker.chans i).buf, m ∈ (R.sys.broker.chans i).buf
  timers : s.timers = R.sys.timers
  handed : s.handed = R.sys.handed

theorem Inv.freed_take (hI : R.Inv) (hidle : R.sys.role i = .idle) : R.Freed i (R.sys.take i) where
  regular := hI.regular.take i
  lasting := ⟨hI.lasting.calls, hI.lasting.queue, hI.lasting.topics, hI.lasting.policy⟩
  wired := hI.wired.of_sublist (fun r => Sublist.refl _) rfl fun j p ch hj => hj
  idle := hidle
  result := by simp [Sys.take]
  roles j := rfl
  results j hj := by simp [Sys.take, hj]
  topics := rfl
  queued r := rfl
  chans j hj := rfl
  buf m hm := hm
  timers := rfl
  handed := rfl

theorem Inv.freed_recv (hI : R.Inv) (hidle : R.sys.role i = .idle) (hres : R.sys.results i = none)
    (h : R.sys.step (.recv i) = some s) : R.Freed i s ∧ (s.broker.chans i).buf = [] ∧ ¬ s.Uses i := by
  have hregular := hI.regular.step (l := .recv i) trivial h
  have hlasting := hI.lasting.step (l := .recv i) hI.regular.sound trivial h
  obtain ⟨hwired, hempty⟩ := hI.wired.recv h
  obtain ⟨m, rest, hbuf, rfl⟩ := Sys.step_recv h
  refine ⟨⟨hregular, hlasting, hwired, hidle, hres, fun j => rfl, fun j hj => rfl, rfl, fun r =>
    rfl, fun j hj => ?_,
    fun m hm => ?_, rfl, rfl⟩, hempty, ?_⟩
  · simp [hj]
  · rw [hempty] at hm
    cases hm
  · rintro (⟨r, hw⟩ | ⟨j, p, hj⟩ | hb)
    · have := (hI.wired.waiting hw).2.1
      rw [hbuf] at this
      cases this
    · have := (hI.wired.sending hj).2.1
      rw [hbuf] at this
      cases this
    · exact hb hempty

/-- **The handler of request `i` goes on** from `s` as `next` says. -/
structure Turn (R R' : Rest) (i : Nat) (s : Sys) (next : Option Op × Handler) : Prop where
  freed : R.Freed i s
  regular : R'.sys.Regular
  lasting : R'.sys.Lasting
  wired : R'.sys.Wired R.Placed
  handlers : R'.handlers = update R.handlers i (some next.2)
  broker : R'.sys.broker = s.broker
  results : R'.sys.results = s.results
  handed : R'.sys.handed = s.handed
  roles : ∀ j, j ≠ i → R'.sys.role j = s.role j
  role : R'.sys.role i = .idle ∨ ∃ op, next.1 = some op ∧ R'.sys.role i = op.entry.pc.role

theorem Freed.turn (hf : R.Freed i s) (h : R.go i s next = some R')
    (hop : ∀ op ∈ next.1, (Label.start i op).Unicast ∧ Sys.LastingLabel (.start i op)) : Turn R R' i s next := by
  obtain ⟨o, h'⟩ := next
  cases o with
  | none =>
    cases h
    exact ⟨hf, hf.regular, hf.lasting, hf.wired, rfl, rfl, rfl, rfl, fun j hj => rfl, .inl hf.idle⟩
  | some op =>
    obtain ⟨s', hs', rfl⟩ := map_eq_some_iff.mp h
    obtain ⟨hu, hl⟩ := hop op rfl
    have hregular := hf.regular.step hu hs'
    have hlasting := hf.lasting.step hf.regular.sound hl hs'
    have hwired := hf.wired.start hs'
    obtain ⟨-, -, rfl⟩ := Sys.step_start hs'
    exact ⟨hf, hregular, hlasting, hwired, rfl, rfl, rfl, rfl, fun j hj =>
      Sys.setCall_role_ne s hj (.inl op.entry),
      .inr ⟨op, rfl, Sys.setCall_role_self s i op.entry⟩⟩

section Turn

variable (ht : Turn R R' i s next)
include ht

theorem Turn.handler : R'.handlers i = some next.2 := by
  rw [ht.handlers]
  simp

theorem Turn.result : R'.sys.results i = none := (congrFun ht.results i).trans ht.freed.result

theorem Turn.same (hj : j ≠ i) : Same R R' j where
  handler := by
    rw [ht.handlers]
    exact update_of_ne hj _ _
  role := (ht.roles j hj).trans (ht.freed.roles j)
  result := (congrFun ht.results j).trans (ht.freed.results j hj)

theorem Turn.empty : (R'.sys.role i).mail = [] ∧ (R'.sys.role i).push? = none := by
  rcases ht.role with hr | ⟨op, -, hr⟩ <;> rw [hr]
  · exact ⟨rfl, rfl⟩
  · exact ⟨op.entry_mail.1, op.entry_mail.2.2⟩

theorem Turn.uses (h : R'.sys.Uses ch) : s.Uses ch := by
  rcases h with ⟨r, hw⟩ | ⟨k, p, hk⟩ | hb
  · exact .inl ⟨r, by rw [← ht.broker]; exact hw⟩
  · have hne : k ≠ i := fun hki => by
      have hpush := ht.empty.2
      rw [← hki, hk] at hpush
      cases hpush
    exact .inr (.inl ⟨k, p, by rw [← ht.roles k hne]; exact hk⟩)
  · exact .inr (.inr (by rw [← ht.broker]; exact hb))

/-- **A turn of a handler keeps the invariant**, if it leaves the channel of
the request in place or out of use, keeps what the request has, and is
fair. -/
theorem Inv.turn (hI : R.Inv) (hcall : Handler.Calls i next) (hplace : ∀ r, R.Placed i r → R'.Placed i r ∨ ¬ s.Uses i)
    (hkeep : ∀ m, R.Has i m → m ∈ (s.broker.chans i).buf ∨ m ∈ next.2.hands)
    (hhands : ∀ m ∈ next.2.hands, R.Has i m) (hfair : R.Fair next.2) : R'.Inv := by
  have hchans : ∀ j, j ≠ i → R'.sys.broker.chans j = R.sys.broker.chans j := fun j hj => by
    rw [ht.broker]
    exact ht.freed.chans j hj
  have hhas : ∀ j m, R.Has j m → R'.Has j m := by
    intro j m hm
    by_cases hj : j = i
    · subst hj
      rcases hkeep m hm with hm | hm
      · exact .buffered ht.handler (by rw [ht.broker]; exact hm)
      · exact .answered ht.handler hm
    · exact hm.same (ht.same hj) (by rw [hchans j hj]; exact id)
  have hsafe : ∀ m, R.Safe m → R'.Safe m := fun m hm =>
    hm.mono (fun r => by rw [ht.broker]; exact ht.freed.queued r) hhas
  refine ⟨ht.regular, ht.lasting, fun j => ?_, ?_, fun j => ?_, fun {m} hm => ?_, fun {j m} hm => ?_⟩
  · by_cases hj : j = i
    · subst hj
      refine ⟨fun hh => ?_, fun {h} hh => ?_, fun {h r} hh hr => ?_⟩
      · rw [ht.handler] at hh
        cases hh
      · rw [ht.handler] at hh
        cases hh
        rcases ht.role with hr | ⟨op, ho, hr⟩ <;> rw [hr]
        · exact .inl rfl
        · right
          rw [Handler.Calls, ho] at hcall
          exact hcall
      · rw [ht.result] at hr
        cases hr
    · exact (hI.served j).same (ht.same hj)
  · refine ht.wired.mono fun ch r huses hp => ?_
    by_cases hch : ch = i
    · subst hch
      exact (hplace r hp).resolve_right fun hnot => hnot (ht.uses huses)
    · exact hp.same (ht.same hch) (by rw [ht.broker, ht.freed.topics]; exact id)
  · by_cases hj : j = i
    · subst hj
      obtain ⟨hmail, hpush⟩ := ht.empty
      refine ⟨fun hp => ?_, fun hr => ?_, fun hr => ?_, fun hh => ?_, fun {q ms} hr => ?_, fun hh hr => ?_⟩
      · cases hpush.symm.trans hp
      · rw [hr] at hpush
        cases hpush
      · rw [ht.result] at hr
        cases hr
      · rw [ht.handler] at hh
        cases hh
        exact hfair.mono hsafe
      · rw [hr] at hmail
        rw [show ms = [] from hmail]
        exact Nat.zero_le _
      · rw [ht.result] at hr
        cases hr
    · exact (hI.secure.goroutine j).same (ht.same hj) hsafe hhas
  · refine hsafe m (hI.secure.timer ?_)
    rw [← ht.freed.timers, Sys.timers, ← ht.broker]
    exact hm
  · rw [ht.handed, ht.freed.handed]
    by_cases hj : j = i
    swap
    · have hback : Same R' R j := ⟨(ht.same hj).handler.symm, (ht.same hj).role.symm,
        (ht.same hj).result.symm⟩
      exact hI.secure.handed (hm.same hback (by rw [hchans j hj]; exact id))
    subst hj
    cases hm with
    | buffered hh hm =>
      rw [ht.broker] at hm
      have hm := ht.freed.buf m hm
      obtain ⟨r, hp⟩ := hI.wired.full (ne_nil_of_mem hm)
      obtain ⟨h', n, hh', -, -⟩ := hp.lookup
      exact hI.secure.handed (.buffered hh' hm)
    | taken hh hr hm =>
      have hm : m ∈ (R'.sys.role j).mail := by
        rw [hr]
        exact hm
      rw [ht.empty.1] at hm
      cases hm
    | returned hh hr hm =>
      rw [ht.result] at hr
      cases hr
    | answered hh hm =>
      rw [ht.handler] at hh
      cases hh
      exact hI.secure.handed (hhands m hm)

end Turn

end Rest

/-! ## What the handlers do -/

theorem ConsumeRequest.ackNext_op {req : ConsumeRequest} (i : Nat) :
    ∀ op ∈ (req.ackNext msgs ids).1, (Label.start i op).Unicast ∧ Sys.LastingLabel (.start i op) := by
  cases ids with
  | nil => simp [ackNext]
  | cons id todo =>
    intro op hop
    cases hop
    exact ⟨trivial, trivial⟩

theorem ConsumeRequest.ackNext_hands (req : ConsumeRequest) (msgs : List Message) (ids : List GoString) :
    (req.ackNext msgs ids).2.hands = msgs := by
  cases ids <;> rfl

theorem ConsumeRequest.ackNext_calls (req : ConsumeRequest) (msgs : List Message) (ids : List GoString) (i : Nat) :
    Handler.Calls i (req.ackNext msgs ids) := by
  cases ids <;> rfl

theorem ConsumeRequest.answer_eq {req : ConsumeRequest} {msgs : List Message} (h : msgs.length ≤ req.limit) :
    (∃ ids, (∀ id ∈ ids, ∃ m ∈ msgs, m.id = id) ∧ req.answer msgs = req.ackNext msgs ids) ∨
      msgs = [] ∧ req.answer msgs = (none, req.empty) := by
  cases msgs with
  | nil => exact .inr ⟨rfl, rfl⟩
  | cons m ms =>
    left
    cases req with
    | consume topic limit timeout autoAck =>
      refine ⟨if autoAck then (m :: ms).map Message.id else [], fun id hid => ?_, rfl⟩
      split at hid
      · exact List.mem_map.mp hid
      · cases hid
    | queueConsume queue =>
      have hms : ms = [] := by
        have hlen : ms.length + 1 ≤ 1 := h
        exact eq_nil_of_length_eq_zero (by omega)
      subst hms
      exact ⟨[m.id], by simp, rfl⟩

theorem ConsumeRequest.empty_eq (req : ConsumeRequest) :
    req.empty = .checking req ∨ req.empty = .done .noContent := by
  cases req with
  | consume => exact .inl rfl
  | queueConsume => exact .inr rfl

namespace Rest

variable {R R' : Rest} {i : Nat} {m : Message} {s : Sys}

theorem Has.of_idle {h} (hm : R.Has i m) (hh : R.handlers i = some h) (hidle : R.sys.role i = .idle) :
    m ∈ (R.sys.broker.chans i).buf ∨ (∃ ms, R.sys.results i = some (.consumed (some ms)) ∧ m ∈ ms) ∨ m ∈ h.hands := by
  cases hm with
  | buffered _ hm => exact .inl hm
  | taken _ hr _ => cases hidle.symm.trans hr
  | returned _ hr hm => exact .inr (.inl ⟨_, hr, hm⟩)
  | answered hh' hm => rw [hh] at hh'; cases hh'; exact .inr (.inr hm)

theorem Served.free {h} (hs : R.Served i) (hh : R.handlers i = some h) (hj : h.job i = .none) :
    R.sys.role i = .idle ∧ R.sys.results i = none := by
  constructor
  · rcases hs.busy hh with hb | hb
    · exact Role.job_eq_none.mp hb
    · exact Role.job_eq_none.mp (hb.trans hj)
  · cases hr : R.sys.results i with
    | none => rfl
    | some r =>
      have hret := hs.returned hh hr
      rw [hj] at hret
      exact hret.elim

theorem Inv.idle_of_result {r} (hI : R.Inv) (hr : R.sys.results i = some r) : R.sys.role i = .idle := by
  cases hc : R.sys.calls i with
  | none => simp [Sys.role, hc]
  | some c =>
    rw [hI.regular.sound.running i c hc] at hr
    cases hr

theorem Inv.ackNext {req : ConsumeRequest} (hI : R.Inv) (hf : R.Freed i s)
    (hplace : ∀ r, R.Placed i r → ¬ s.Uses i) (hkeep : ∀ m, R.Has i m → m ∈ (s.broker.chans i).buf ∨ m ∈ msgs)
    (hhands : ∀ m ∈ msgs, R.Has i m) (hids : ∀ id ∈ ids, ∃ m ∈ msgs, m.id = id)
    (h : R.go i s (req.ackNext msgs ids) = some R') : R'.Inv := by
  have hturn := hf.turn h (ConsumeRequest.ackNext_op i)
  refine Inv.turn hturn hI (req.ackNext_calls msgs ids i) (fun r hp => .inr (hplace r hp)) ?_ ?_ ?_
  · rw [req.ackNext_hands]
    exact hkeep
  · rw [req.ackNext_hands]
    exact hhands
  · cases ids with
    | nil => trivial
    | cons id todo => exact hids

theorem Inv.goes {h h'} (hI : R.Inv) (hgo : R.go i (R.sys.take i) (none, h') = some R')
    (hidle : R.sys.role i = .idle) (hh : R.handlers i = some h) (hhands : h.hands = [])
    (hres : ∀ ms, R.sys.results i ≠ some (.consumed (some ms))) (hhands' : h'.hands = []) (hjob : h'.job i = .none)
    (hfair : R.Fair h') (hplace : ∀ r, R.Placed i r → ∃ req deadline, h' = .selecting req deadline ∧
      R.sys.broker.topics.lookup req.topic = some r) : R'.Inv := by
  have hturn := (hI.freed_take hidle).turn hgo (by simp)
  refine Inv.turn hturn hI hjob (fun r hp => .inl ?_) ?_ ?_ hfair
  · obtain ⟨req, deadline, he, hl⟩ := hplace r hp
    exact .selecting (he ▸ hturn.handler) (by rw [hturn.broker]; exact hl)
  · intro m hm
    rcases hm.of_idle hh hidle with hm | ⟨ms, hr, -⟩ | hm
    · exact .inl hm
    · exact absurd hr (hres ms)
    · rw [hhands] at hm
      cases hm
  · rw [hhands']
    intro m hm
    cases hm

theorem idle_of_go {op h} (hgo : R.go i s (some op, h) = some R') : s.role i = .idle ∧ s.results i = none := by
  obtain ⟨s', hs', -⟩ := map_eq_some_iff.mp hgo
  obtain ⟨hidle, hres, -⟩ := Sys.step_start hs'
  exact ⟨hidle, hres⟩

theorem Inv.freed_of_go {op h} (hI : R.Inv) (hgo : R.go i R.sys (some op, h) = some R') : R.Freed i R.sys := by
  obtain ⟨hidle, hres⟩ := idle_of_go hgo
  have hf := hI.freed_take hidle
  rwa [Sys.take_eq_self hres] at hf

end Rest

/-! ## Careful runs -/

def PublishRequest.Plain : PublishRequest → Prop
  | .publish _ _ _ _ ttl _ isBroadcast => ttl = none ∧ isBroadcast = false
  | .queuePublish _ _ ttl _ broadcast => ttl = none ∧ broadcast = false

def RestLabel.Plain : RestLabel → Prop
  | .request _ (.publish req) => req.Plain
  | _ => True

instance : DecidablePred PublishRequest.Plain := fun req => by
  cases req <;> unfold PublishRequest.Plain <;> infer_instance

instance : DecidablePred RestLabel.Plain := fun l => by
  unfold RestLabel.Plain
  split <;> infer_instance

theorem PublishRequest.Plain.args {req : PublishRequest} (h : req.Plain) (now : Time) :
    (req.args now).isBroadcast = false ∧ (req.args now).expiresAt = none := by
  cases req with
  | publish topic body userHeaders priority ttl delay isBroadcast =>
    exact ⟨h.2, by simp [PublishRequest.args, h.1]⟩
  | queuePublish queue payload ttl delay broadcast => exact ⟨h.2, by simp [PublishRequest.args, h.1]⟩

namespace Rest

variable {R R' : Rest} {i : Nat} {m : Message} {s : Sys} {l : RestLabel}

/-- A step after which no channel is in use that nobody reads. -/
def Careful (R : Rest) (l : RestLabel) : Prop := l.Plain ∧ ∀ i, l = .run i → R.Finds i ∧ R.LeavesInTime i

theorem Inv.request {req} (hI : R.Inv) (hfree : R.handlers i = none)
    (hplain : RestLabel.Plain (.request i req)) (h : R.go i R.sys (req.entry R.sys.now i) = some R') : R'.Inv := by
  have hnot : ∀ m, ¬ R.Has i m := by
    intro m hm
    cases hm <;> simp_all
  have hnowhere : ∀ r, ¬ R.Placed i r := by
    intro r hp
    obtain ⟨h', n, hh, -, -⟩ := hp.lookup
    cases hfree.symm.trans hh
  cases req with
  | publish req =>
    obtain ⟨hb, he⟩ := PublishRequest.Plain.args hplain R.sys.now
    refine Inv.turn ((hI.freed_of_go h).turn h ?_) hI rfl (fun r hp => absurd hp (hnowhere r))
      (fun m hm => absurd hm (hnot m)) (fun m hm => by cases hm) trivial
    intro op hop
    cases hop
    exact ⟨hb, he⟩
  | consume req =>
    refine Inv.turn ((hI.freed_of_go h).turn h ?_) hI rfl (fun r hp => absurd hp (hnowhere r))
      (fun m hm => absurd hm (hnot m)) (fun m hm => by cases hm) trivial
    intro op hop
    cases hop
    exact ⟨trivial, trivial⟩

theorem Inv.resume {h r next} (hI : R.Inv) (hh : R.handlers i = some h)
    (hr : R.sys.results i = some r) (hnext : h.resume R.sys.now r = some next)
    (hgo : R.go i (R.sys.take i) next = some R') : R'.Inv := by
  have hidle := hI.idle_of_result hr
  have hsec := hI.secure.goroutine i
  -- A handler that has its result back, other than that of a `Consume`, has no use for the channel.
  have hnowhere : (∀ req, h ≠ .consuming req) → (∀ req deadline, h ≠ .selecting req deadline) →
    ∀ r, ¬ R.Placed i r := by
    intro hc hs r hp
    cases hp with
    | consuming hh' _ _ _ => rw [hh] at hh'; cases hh'; exact hc _ rfl
    | selecting hh' _ => rw [hh] at hh'; cases hh'; exact hs _ _ rfl
    | leaving _ _ hnone => cases hr.symm.trans hnone
  cases h with
  | publishing req =>
    have hnot := hnowhere (by simp) (by simp)
    cases r with
    | published e =>
      cases e with
      | ok m =>
        cases hnext
        exact hI.goes hgo hidle hh rfl (by simp [hr]) rfl rfl (hsec.published hr) fun r hp =>
          absurd hp (hnot r)
      | error e =>
        cases hnext
        exact hI.goes hgo hidle hh rfl (by simp [hr]) rfl rfl trivial fun r hp => absurd hp (hnot r)
    | _ => cases hnext
  | consuming req =>
    cases r with
    | consumed ms =>
      cases ms with
      | some msgs =>
        cases hnext
        have hnot : ∀ r, ¬ R.Placed i r := by
          intro r hp
          cases hp with
          | consuming _ _ _ hor => rcases hor with hor | hor <;> simp_all
          | selecting hh' _ | leaving hh' _ _ => rw [hh] at hh'; cases hh'
        have hkeep : ∀ m, R.Has i m → m ∈ (R.sys.broker.chans i).buf ∨ m ∈ msgs := by
          intro m hm
          rcases hm.of_idle hh hidle with hm | ⟨ms, hr', hm⟩ | hm
          · exact .inl hm
          · cases hr.symm.trans hr'
            exact .inr hm
          · cases hm
        have hlen := hsec.returned hh hr
        rcases ConsumeRequest.answer_eq hlen with ⟨ids, hids, he⟩ | ⟨rfl, he⟩ <;> rw [he] at hgo
        · exact hI.ackNext (hI.freed_take hidle) (fun r hp => absurd hp (hnot r)) hkeep
            (fun m hm => .returned hh hr hm)
            hids hgo
        · have hturn := (hI.freed_take hidle).turn hgo (by simp)
          rcases req.empty_eq with he | he <;> rw [he] at hturn <;>
            exact Inv.turn hturn hI rfl (fun r hp => absurd hp (hnot r)) hkeep
              (fun m hm => by cases hm) trivial
      | none =>
        cases hnext
        by_cases hpos : 0 < req.timeout
        · have he : req.noMessage R.sys.now = .selecting req (R.sys.now + req.timeout) := if_pos hpos
          rw [he] at hgo
          refine hI.goes hgo hidle hh rfl (by simp [hr]) rfl rfl trivial fun r hp => ?_
          obtain ⟨h', n, hh', hn, hl⟩ := hp.lookup
          cases hh.symm.trans hh'
          cases hn
          exact ⟨req, _, rfl, hl⟩
        · have he : req.noMessage R.sys.now = req.empty := if_neg hpos
          have hnot : ∀ r, ¬ R.Placed i r := by
            intro r hp
            cases hp with
            | consuming hh' hpos' _ _ => rw [hh] at hh'; cases hh'; exact hpos hpos'
            | selecting hh' _ | leaving hh' _ _ => rw [hh] at hh'; cases hh'
          rw [he] at hgo
          rcases req.empty_eq with he | he <;> rw [he] at hgo <;>
            exact hI.goes hgo hidle hh rfl (by simp [hr]) rfl rfl trivial fun r hp => absurd hp (hnot r)
    | _ => cases hnext
  | leaving req cancelled =>
    have hnot := hnowhere (by simp) (by simp)
    cases r with
    | done =>
      cases cancelled with
      | true =>
        cases hnext
        exact hI.goes hgo hidle hh rfl (by simp [hr]) rfl rfl trivial fun r hp => absurd hp (hnot r)
      | false =>
        cases hnext
        rcases req.empty_eq with he | he <;> rw [he] at hgo <;>
          exact hI.goes hgo hidle hh rfl (by simp [hr]) rfl rfl trivial fun r hp => absurd hp (hnot r)
    | _ => cases cancelled <;> cases hnext
  | acking req msgs id todo =>
    have hnot := hnowhere (by simp) (by simp)
    cases r with
    | acked ok =>
      cases hnext
      refine hI.ackNext (hI.freed_take hidle) (fun r hp => absurd hp (hnot r)) (fun m hm => ?_)
        (fun m hm => .answered hh hm) (fun id' hid' => hsec.fair hh id' (mem_cons_of_mem _ hid')) hgo
      rcases hm.of_idle hh hidle with hm | ⟨ms, hr', -⟩ | hm
      · exact .inl hm
      · cases hr.symm.trans hr'
      · exact .inr hm
    | _ => cases hnext
  | selecting req deadline | checking req | done res => cases r <;> cases hnext

theorem Inv.receive {req deadline} (hI : R.Inv)
    (hh : R.handlers i = some (.selecting req deadline)) (hm : (R.sys.broker.chans i).buf.head? = some m)
    (hs : R.sys.step (.recv i) = some s) (hgo : R.go i s (req.answer [m]) = some R') : R'.Inv := by
  obtain ⟨hidle, hres⟩ := (hI.served i).free hh rfl
  obtain ⟨hf, -, hunused⟩ := hI.freed_recv hidle hres hs
  have hbuf : (R.sys.broker.chans i).buf = [m] := by
    obtain ⟨rest, hb⟩ := head?_eq_some_iff.mp hm
    have hlen := (hI.wired.chans i).2
    rw [hb, length_cons] at hlen
    rw [hb, eq_nil_of_length_eq_zero (show rest.length = 0 by omega)]
  have hkeep : ∀ m', R.Has i m' → m' ∈ [m] := by
    intro m' hm'
    rcases hm'.of_idle hh hidle with hm' | ⟨ms, hr, -⟩ | hm'
    · rwa [hbuf] at hm'
    · cases hres.symm.trans hr
    · cases hm'
  have hhands : ∀ m' ∈ [m], R.Has i m' := fun m' hm' => .buffered hh (by rw [hbuf]; exact hm')
  rcases ConsumeRequest.answer_eq
    (show [m].length ≤ req.limit from req.limit_pos) with ⟨ids, hids, he⟩ | ⟨hnil, -⟩
  · rw [he] at hgo
    exact hI.ackNext hf (fun r _ => hunused) (fun m' hm' => .inr (hkeep m' hm')) hhands hids hgo
  · cases hnil

theorem Inv.leave {req deadline cancelled} (hI : R.Inv)
    (hh : R.handlers i = some (.selecting req deadline)) (hgo : R.leave i req cancelled = some R') : R'.Inv := by
  obtain ⟨hidle, hres⟩ := (hI.served i).free hh rfl
  have hturn := (hI.freed_of_go hgo).turn hgo fun op hop => by cases hop; exact ⟨trivial, trivial⟩
  refine Inv.turn hturn hI rfl (fun r hp => .inl ?_) (fun m hm => ?_) (fun m hm => by cases hm) trivial
  · obtain ⟨h', n, hh', hn, hl⟩ := hp.lookup
    cases hh.symm.trans hh'
    cases hn
    exact .leaving hturn.handler (by rw [hturn.broker]; exact hl) hturn.result
  · rcases hm.of_idle hh hidle with hm | ⟨ms, hr, -⟩ | hm
    · exact .inl hm
    · cases hres.symm.trans hr
    · cases hm

theorem Inv.check {req res} (hI : R.Inv) (hh : R.handlers i = some (.checking req))
    (hres : res = .noContent ∨ res = .notFound) (hgo : R.go i R.sys (none, .done res) = some R') : R'.Inv := by
  obtain ⟨hidle, hnone⟩ := (hI.served i).free hh rfl
  have hnot : ∀ r, ¬ R.Placed i r := by
    intro r hp
    obtain ⟨h', n, hh', hn, -⟩ := hp.lookup
    cases hh.symm.trans hh'
    cases hn
  have hgo' : R.go i (R.sys.take i) (none, .done res) = some R' := by
    rw [Sys.take_eq_self hnone]
    exact hgo
  rcases hres with rfl | rfl <;>
    exact hI.goes hgo' hidle hh rfl (by simp [hnone]) rfl rfl trivial fun r hp => absurd hp (hnot r)

theorem selecting_eq_some (h : R.selecting i = some (req, deadline)) :
    R.handlers i = some (.selecting req deadline) := by
  unfold selecting at h
  split at h
  next hh => cases h; exact hh
  · cases h

/-- **A careful step keeps the invariant.** -/
theorem Inv.step (hI : R.Inv) (hl : R.Careful l) (h : R.step l = some R') : R'.Inv := by
  cases l with
  | tick d =>
    have h : (R.sys.step (.tick d)).map (fun s => { R with sys := s }) = some R' := h
    obtain ⟨s', hs', rfl⟩ := map_eq_some_iff.mp h
    exact hI.tick hs'
  | request i req =>
    simp only [step] at h
    split at h
    next hfree => exact hI.request (isNone_iff_eq_none.mp hfree) hl.1 h
    · cases h
  | run i =>
    obtain ⟨s', hs', rfl⟩ := map_eq_some_iff.mp h
    obtain ⟨hfinds, hleave⟩ := hl.2 i rfl
    obtain ⟨pc, v, handed, hran⟩ := Sys.ran_of_step hI.regular.sound hs'
    exact ⟨hI.regular.step (l := .run i) trivial hs',
      hI.lasting.step (l := .run i) hI.regular.sound trivial hs',
      fun j => hI.served_ran hran, hI.wired_ran hran hfinds hleave, hI.secure_ran hran⟩
  | fire k i =>
    simp only [step] at h
    split at h
    next hfree =>
      obtain ⟨s', hs', rfl⟩ := map_eq_some_iff.mp h
      exact hI.fire (isNone_iff_eq_none.mp hfree) hs'
    · cases h
  | resume i =>
    obtain ⟨h', hh, h⟩ := bind_eq_some_iff.mp h
    obtain ⟨r, hr, h⟩ := bind_eq_some_iff.mp h
    obtain ⟨next, hnext, hgo⟩ := bind_eq_some_iff.mp h
    exact hI.resume hh hr hnext hgo
  | receive i =>
    obtain ⟨⟨req, deadline⟩, hsel, h⟩ := bind_eq_some_iff.mp h
    obtain ⟨m, hm, h⟩ := bind_eq_some_iff.mp h
    obtain ⟨s, hs, hgo⟩ := bind_eq_some_iff.mp h
    exact hI.receive (selecting_eq_some hsel) hm hs hgo
  | timeout i =>
    obtain ⟨⟨req, deadline⟩, hsel, h⟩ := bind_eq_some_iff.mp h
    have h : (if deadline ≤ R.sys.now then R.leave i req false else none) = some R' := h
    split at h
    · exact hI.leave (selecting_eq_some hsel) h
    · cases h
  | cancel i =>
    obtain ⟨⟨req, deadline⟩, hsel, h⟩ := bind_eq_some_iff.mp h
    exact hI.leave (selecting_eq_some hsel) h
  | check i =>
    simp only [step] at h
    split at h
    next req hh =>
      refine hI.check hh ?_ h
      split
      · exact .inl rfl
      · exact .inr rfl
    · cases h

/-! ## No message is lost -/

/-- The empty broker whose topics reject when they are full, and before any
request. -/
def start (now : Time) (limits : Limits) (hooked : Bool) (storage : Option LogStore) (env : Env) : Rest :=
  init now (.new limits .reject hooked storage env fun _ => ⟨1, []⟩)

theorem start_inv (now : Time) (limits : Limits) (hooked : Bool) (storage : Option LogStore) (env : Env) :
    (start now limits hooked storage env).Inv where
  regular := Sys.init_regular now settled_new
  lasting := by
    refine ⟨fun i c hc => ?_, fun hm => ?_, fun t ht => ?_, rfl⟩
    · cases hc
    · simp [start, init, Sys.init, new, queued] at hm
    · cases ht
  served i := by
    refine ⟨fun _ => .inl rfl, fun hh => ?_, fun hh => ?_⟩
    · cases hh
    · cases hh
  wired := by
    refine ⟨fun r => ?_, fun hw => ?_, fun hj => ?_, fun hb => absurd rfl hb, fun ch => ⟨rfl, Nat.zero_le 1⟩⟩
    · simp [start, init, Sys.init, new, waiting]
    · simp [start, init, Sys.init, new, waiting] at hw
    · cases hj
  secure := by
    have hnot : ∀ j m, ¬ (start now limits hooked storage env).Has j m := by
      intro j m hm
      cases hm with
      | buffered hh _ | taken hh _ _ | returned hh _ _ | answered hh _ => cases hh
    refine ⟨fun i => ⟨fun hp => ?_, fun hr => ?_, fun hr => ?_, fun hh => ?_, fun hr => ?_,
      fun hh => ?_⟩, fun hm => ?_,
      fun hm => absurd hm (hnot _ _)⟩
    · cases hp
    · cases hr
    · cases hr
    · cases hh
    · cases hr
    · cases hh
    · cases hm

/-- When every request is answered, a safe message is queued or in an answer. -/
theorem Inv.of_finished (hI : R.Inv) (hfin : R.Finished) (hm : R.Safe m) :
    m ∈ R.sys.broker.queue m.topic ∨ ∃ j ms, R.handlers j = some (.done (.messages ms)) ∧ m ∈ ms := by
  rcases hm with ⟨r, hm⟩ | ⟨j, hm⟩
  · left
    simpa [queue, hI.regular.homed.queue hm] using hm
  · right
    cases hm with
    | buffered hh hm =>
      obtain ⟨r, hp⟩ := hI.wired.full (ne_nil_of_mem hm)
      obtain ⟨h', n, hh', hn, -⟩ := hp.lookup
      obtain ⟨res, rfl⟩ := hfin _ _ hh'
      cases hn
    | taken hh hr hm =>
      obtain ⟨res, rfl⟩ := hfin _ _ hh
      rw [((hI.served j).free hh rfl).1] at hr
      cases hr
    | returned hh hr hm =>
      obtain ⟨res, rfl⟩ := hfin _ _ hh
      rw [((hI.served j).free hh rfl).2] at hr
      cases hr
    | answered hh hm =>
      obtain ⟨res, rfl⟩ := hfin _ _ hh
      cases res with
      | messages ms => exact ⟨j, ms, hh, hm⟩
      | _ => cases hm

/-- **No accepted message is lost** in a careful run: when every request is
answered, it is in the queues of its topic or in the answer of a request. -/
theorem accepted_kept {now : Time} {limits : Limits} {hooked : Bool} {storage : Option LogStore} {env : Env}
    (hrun : Lts.Run step Careful (start now limits hooked storage env) R) (hfin : R.Finished)
    (hacc : R.handlers i = some (.done (.accepted m))) :
    m ∈ R.sys.broker.queue m.topic ∨ ∃ j ms, R.handlers j = some (.done (.messages ms)) ∧ m ∈ ms := by
  have hI : R.Inv := hrun.invariant (fun R l R' hI hl h => hI.step hl h)
    (start_inv now limits hooked storage env)
  exact hI.of_finished hfin ((hI.secure.goroutine i).fair hacc)

end Rest

/-! ## Two runs -/

def RestLabel.request? : RestLabel → Option Nat
  | .tick _ => none
  | .request i _ => some i
  | .run i => some i
  | .fire _ i => some i
  | .resume i => some i
  | .receive i => some i
  | .timeout i => some i
  | .cancel i => some i
  | .check i => some i

def Handler.isDone : Handler → Bool
  | .done _ => true
  | _ => false

/-- The channel a push is about to send to. -/
def Role.sendsTo? : Role → Option Chan
  | .sending _ ch => some ch
  | _ => none

namespace Rest

variable {R R' : Rest} {i n : Nat} {s : Sys} {l : RestLabel}

/-- Only goroutines numbered below `n` do anything. -/
structure Below (n : Nat) (R : Rest) : Prop where
  handlers : ∀ j, n ≤ j → R.handlers j = none
  sys : R.sys.Below n

theorem Below.go {next} (hR : R.Below n) (hs : s.Below n) (hi : i < n)
    (h : R.go i s next = some R') : R'.Below n := by
  obtain ⟨s', hs', rfl⟩ := map_eq_some_iff.mp h
  refine ⟨fun j hj => ?_, ?_⟩
  · have hne : j ≠ i := by omega
    rw [show (⟨s', update R.handlers i (some next.2)⟩ : Rest).handlers j = R.handlers j from
      update_of_ne hne _ _]
    exact hR.handlers j hj
  · cases ho : next.1 with
    | none => rw [ho] at hs'; cases hs'; exact hs
    | some op =>
      rw [ho] at hs'
      exact hs.step (fun k hk => by cases hk; exact hi) hs'

theorem Below.step (hR : R.Below n) (hl : ∀ i ∈ l.request?, i < n) (h : R.step l = some R') : R'.Below n := by
  cases l with
  | tick d => cases h; exact ⟨hR.handlers, hR.sys⟩
  | request i req | check i =>
    simp only [Rest.step] at h
    split at h
    · exact hR.go hR.sys (hl i rfl) h
    · cases h
  | run i =>
    obtain ⟨s', hs', rfl⟩ := map_eq_some_iff.mp h
    exact ⟨hR.handlers, hR.sys.step (fun k hk => by cases hk; exact hl i rfl) hs'⟩
  | fire k i =>
    simp only [Rest.step] at h
    split at h
    · obtain ⟨s', hs', rfl⟩ := map_eq_some_iff.mp h
      exact ⟨hR.handlers, hR.sys.step (fun k hk => by cases hk; exact hl i rfl) hs'⟩
    · cases h
  | resume i =>
    obtain ⟨h', hh, h⟩ := bind_eq_some_iff.mp h
    obtain ⟨r, hr, h⟩ := bind_eq_some_iff.mp h
    obtain ⟨next, hnext, hgo⟩ := bind_eq_some_iff.mp h
    exact hR.go (s := R.sys.take i) hR.sys (hl i rfl) hgo
  | receive i =>
    obtain ⟨⟨req, deadline⟩, hsel, h⟩ := bind_eq_some_iff.mp h
    obtain ⟨m, hm, h⟩ := bind_eq_some_iff.mp h
    obtain ⟨s, hs, hgo⟩ := bind_eq_some_iff.mp h
    exact hR.go (hR.sys.step (fun k hk => by cases hk) hs) (hl i rfl) hgo
  | timeout i =>
    obtain ⟨⟨req, deadline⟩, hsel, h⟩ := bind_eq_some_iff.mp h
    have h : (if deadline ≤ R.sys.now then R.leave i req false else none) = some R' := h
    split at h
    · exact hR.go hR.sys (hl i rfl) h
    · cases h
  | cancel i =>
    obtain ⟨⟨req, deadline⟩, hsel, h⟩ := bind_eq_some_iff.mp h
    exact hR.go hR.sys (hl i rfl) h

/-- `Careful` for a run of goroutines below `n`, which can be decided. -/
def CarefulBelow (n : Nat) (R : Rest) (l : RestLabel) : Prop :=
  l.Plain ∧ ∀ i ∈ l.request?, i < n ∧ R.Finds i ∧ ∀ ch ∈ (R.sys.role i).leaving?,
    (∀ j < n, (R.sys.role j).sendsTo? ≠ some ch) ∧ (R.sys.broker.chans ch).buf = []

instance (n : Nat) (R : Rest) (l : RestLabel) : Decidable (CarefulBelow n R l) := by
  unfold CarefulBelow Finds
  infer_instance

theorem run_careful_of_below (hR : R.Below n) (h : Lts.Run step (CarefulBelow n) R R') :
    Lts.Run step Careful R R' ∧ R'.Below n := by
  induction h with
  | refl => exact ⟨.refl, hR⟩
  | @snoc R' R'' l hrun hok hstep ih =>
    obtain ⟨hrun', hbelow⟩ := ih
    refine ⟨.snoc hrun' ⟨hok.1, fun i hi => ?_⟩ hstep, hbelow.step (fun i hi => (hok.2 i hi).1) hstep⟩
    subst hi
    obtain ⟨-, hfinds, hleave⟩ := hok.2 i rfl
    refine ⟨hfinds, fun ch hch htaken => ?_⟩
    obtain ⟨hsend, hbuf⟩ := hleave ch hch
    rcases htaken with ⟨j, p, hj⟩ | hne
    · by_cases hjn : j < n
      · exact hsend j hjn (by rw [hj]; rfl)
      · rw [Sys.role, hbelow.sys j (by omega)] at hj
        cases hj
    · exact hne hbuf

theorem run_below (hR : R.Below n)
    (h : Lts.Run step (fun _ l => l.Plain ∧ ∀ i ∈ l.request?, i < n) R R') : R'.Below n :=
  h.invariant (I := Below n) (fun _ _ _ hR hl h => hR.step hl.2 h) hR

theorem finished_of_below (hR : R.Below n) (h : ∀ i < n, ∀ h' ∈ R.handlers i, h'.isDone = true) : R.Finished := by
  intro i h' hh
  by_cases hi : i < n
  · have hdone := h i hi h' hh
    cases h' with
    | done r => exact ⟨r, rfl⟩
    | _ => cases hdone
  · rw [hR.handlers i (by omega)] at hh
    cases hh

theorem not_answered_of_below (hR : R.Below n) (h : ∀ j < n, ∀ h' ∈ R.handlers j, m ∉ h'.hands)
    (hi : R.handlers i = some (.done (.messages ms))) : m ∉ ms := by
  by_cases hin : i < n
  · exact h i hin _ hi
  · rw [hR.handlers i (by omega)] at hi
    cases hi

def sample : Rest := start 0 ⟨10, 10, Limits.ten_pos, Limits.ten_pos⟩ false (some .sample) .sample

theorem sample_below (n : Nat) : sample.Below n := ⟨fun _ _ => rfl, fun _ _ => rfl⟩

def publishRequest : Request := .publish (.queuePublish (ascii "t") [] none none false)

/-- Request 0 finds no message and is answered, but its channel stays
registered; request 1 publishes. -/
def consumeThenPublish : List RestLabel :=
  [.request 0 (.consume (.queueConsume (ascii "t")))] ++ replicate 5 (.run 0) ++ [.resume 0] ++
    [.request 1 publishRequest] ++ replicate 13 (.run 1) ++ [.resume 1]

/-- A message whose publish was accepted is neither queued nor in an answer. -/
theorem accepted_lost : ∃ R : Rest, Lts.Run step (fun _ l => l.Plain) sample R ∧ R.Finished ∧
    R.handlers 1 = some (.done (.accepted firstMessage)) ∧ firstMessage ∉ R.sys.broker.queue firstMessage.topic ∧
    ∀ j ms, R.handlers j = some (.done (.messages ms)) → firstMessage ∉ ms := by
  have hrun : Lts.Run step (fun _ l => l.Plain ∧ ∀ i ∈ l.request?, i < 2) sample
      ((Lts.exec step sample consumeThenPublish).get (by decide +kernel)) :=
    Lts.Run.of_exec_get consumeThenPublish (by decide +kernel) (by decide +kernel)
  have hbelow := run_below (sample_below 2) hrun
  exact ⟨_, hrun.mono fun _ _ h => h.1, finished_of_below hbelow (by decide +kernel),
    by decide +kernel, by decide +kernel,
    fun j ms hj => not_answered_of_below hbelow (by decide +kernel) hj⟩

/-- Request 0 publishes, 1 consumes the message, and 2 waits in vain. -/
def publishThenConsume : List RestLabel :=
  [.request 0 publishRequest] ++ replicate 11 (.run 0) ++ [.resume 0] ++
    [.request 1 (.consume (.queueConsume (ascii "t")))] ++ replicate 5 (.run 1) ++
    [.resume 1, .run 1, .run 1, .resume 1] ++
    [.request 2 (.consume (.consume (ascii "t") none 5 false))] ++ replicate 5 (.run 2) ++
    [.resume 2, .tick 5, .timeout 2, .run 2, .run 2, .resume 2, .check 2]

theorem accepted_kept_sample : ∃ R : Rest, Lts.Run step Careful sample R ∧ R.Finished ∧
    R.handlers 0 = some (.done (.accepted firstMessage)) ∧ (firstMessage ∈ R.sys.broker.queue firstMessage.topic ∨
      ∃ j ms, R.handlers j = some (.done (.messages ms)) ∧ firstMessage ∈ ms) := by
  have hrun : Lts.Run step (CarefulBelow 3) sample
    ((Lts.exec step sample publishThenConsume).get (by decide +kernel)) :=
    Lts.Run.of_exec_get publishThenConsume (by decide +kernel) (by decide +kernel)
  obtain ⟨hcareful, hbelow⟩ := run_careful_of_below (sample_below 3) hrun
  have hfin : Finished ((Lts.exec step sample publishThenConsume).get (by decide +kernel)) :=
    finished_of_below hbelow (by decide +kernel)
  have hacc : ((Lts.exec step sample publishThenConsume).get (by decide +kernel)).handlers 0 =
      some (.done (.accepted firstMessage)) := by decide +kernel
  exact ⟨_, hcareful, hfin, hacc, accepted_kept hcareful hfin hacc⟩

end Rest

end TinyMQ
