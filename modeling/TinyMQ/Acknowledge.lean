/-
Acknowledging a message that was delivered.

`Ack` looks the message up in the queues, from which every delivery takes
it sooner or later, and writes its record only when it finds it there. So
an ack of a delivered message counts exactly while the push that delivered
it has not removed it yet, and when the record reaches the log
(`ack_forgets_iff`).
-/
import TinyMQ.Custody

namespace TinyMQ

open List Option AList KeyedLog Broker

/-! ## Logs without a message -/

namespace LogStore

variable {s s' : LogStore} {topic id : GoString}

/-- `LoadMessages` no longer returns a message with that ID. -/
def Forgot (s : LogStore) (topic id : GoString) : Prop := ∀ m ∈ s.recovered topic, m.id ≠ id

/-- What has to be so for an ack to make `LoadMessages` forget the ID. A
write that fails does nothing, except that it may create the file of the
topic, which then hides the one with the legacy name. -/
def AckForgets (s : LogStore) (topic id : GoString) : Prop :=
  isSafePath topic ≠ none ∨
    match s.nextOutcome with
    | .stored => True
    | .writeFailed => ∀ m ∈ replay (s.file (logFilename topic)), m.id ≠ id
    | .openFailed => s.Forgot topic id

instance (s : LogStore) (topic id : GoString) : Decidable (s.Forgot topic id) :=
  inferInstanceAs (Decidable (∀ m ∈ s.recovered topic, m.id ≠ id))

instance (s : LogStore) (topic id : GoString) : Decidable (s.AckForgets topic id) := by
  unfold AckForgets
  cases s.nextOutcome <;> infer_instance

theorem forgot_iff (h : isSafePath topic = none) : s.Forgot topic id ↔ ∀ m ∈ replay (s.source topic), m.id ≠ id := by
  rw [Forgot, recovered_of_safe h]

theorem not_mem_replay_iff : (∀ m ∈ replay es, m.id ≠ id) ↔ final (es.map LogEntry.entry) id = none := by
  rw [← not_iff_not, ← ne_eq, ← mem_replay_iff]
  simp

theorem not_mem_replay_append (h : ∀ m ∈ replay es, m.id ≠ id) (hputs : ∀ m, .put m ∈ es' → m.id ≠ id) :
    ∀ m ∈ replay (es ++ es'), m.id ≠ id := by
  rw [not_mem_replay_iff] at h ⊢
  rw [map_append]
  refine final_append_eq_none h fun m hm => ?_
  obtain ⟨e, he, heq⟩ := List.mem_map.mp hm
  cases e with
  | put m' =>
    cases heq
    exact hputs m he rfl
  | ack msgID => cases heq

theorem source_eq (s : LogStore) (topic : GoString) : s.source topic =
    if logFilename topic ∈ s.files then s.file (logFilename topic) else s.file (legacyFilename topic) := by
  unfold source file
  split
  next h =>
    obtain ⟨es, hes⟩ := isSome_iff_exists.mp (lookup_isSome.mpr h)
    simp [hes]
  next h => rw [lookup_eq_none.mpr h, none_or]

/-- What `LoadMessages` reads later is what it read, or nothing, and then
the new records. -/
theorem Grows.source (h : s.Grows s' puts) (topic : GoString) : ∃ es es', s'.source topic = es ++ es' ∧
    (es = s.source topic ∨ es = []) ∧ ∀ m, .put m ∈ es' → m ∈ puts := by
  rw [source_eq, source_eq]
  obtain ⟨own, hown, hputs⟩ := h.file (logFilename topic)
  obtain ⟨legacy, hlegacy, hputs'⟩ := h.file (legacyFilename topic)
  by_cases hf : logFilename topic ∈ s.files
  · rw [if_pos hf, if_pos (h.exist _ hf)]
    exact ⟨_, own, hown, .inl rfl, hputs⟩
  by_cases hf' : logFilename topic ∈ s'.files
  · -- The file is new: it hides the legacy one.
    rw [if_pos hf', hown, show s.file (logFilename topic) =
      [] by simp [LogStore.file, lookup_eq_none.mpr hf]]
    exact ⟨[], own, rfl, .inr rfl, hputs⟩
  · rw [if_neg hf, if_neg hf']
    exact ⟨_, legacy, hlegacy, .inl rfl, hputs'⟩

theorem Forgot.grows (hs : s.Forgot topic id) (h : s.Grows s' puts) (hputs : ∀ m ∈ puts, m.id ≠ id) :
    s'.Forgot topic id := by
  by_cases hsafe : isSafePath topic = none
  · rw [forgot_iff hsafe] at hs ⊢
    obtain ⟨es, es', hsource, hes, hnew⟩ := h.source topic
    rw [hsource]
    refine not_mem_replay_append ?_ fun m hm => hputs m (hnew m hm)
    rcases hes with rfl | rfl
    · exact hs
    · simp [replay]
  · simp [Forgot, recovered_of_unsafe hsafe]

theorem ackForgets_iff : s.AckForgets topic id ↔ (s.append topic (.ack id)).Forgot topic id := by
  by_cases hsafe : isSafePath topic = none
  · rw [forgot_iff hsafe, AckForgets, hsafe, ne_self_iff_false, false_or]
    cases hout : s.nextOutcome with
    | stored =>
      have hsource : (s.append topic (.ack id)).source topic = s.file (logFilename topic) ++ [.ack id] := by
        simp [append, hsafe, hout, source]
      rw [hsource]
      refine iff_of_true trivial (not_mem_replay_iff.mpr ?_)
      simp [LogEntry.entry]
    | writeFailed =>
      have hsource : (s.append topic (.ack id)).source topic = s.file (logFilename topic) := by
        simp [append, hsafe, hout, source]
      rw [hsource]
    | openFailed =>
      have hsource : (s.append topic (.ack id)).source topic = s.source topic := by
        simp [append, hsafe, hout, source]
      rw [hsource]
      exact forgot_iff hsafe
  · simp [AckForgets, hsafe, Forgot, recovered_of_unsafe hsafe]

end LogStore

/-! ## Acks -/

namespace Broker

/-- What `LoadMessages` returns for a topic, nothing without storage. -/
def recovered (b : Broker) (topic : GoString) : List Message := (b.storage.map fun s => s.recovered topic).getD []

/-- The next ack of the ID makes the log of the topic forget it. -/
def AckForgets (b : Broker) (topic id : GoString) : Prop := ∀ s ∈ b.storage, s.AckForgets topic id

instance (b : Broker) (topic id : GoString) : Decidable (b.AckForgets topic id) :=
  inferInstanceAs (Decidable (∀ s ∈ b.storage, s.AckForgets topic id))

variable {b b' : Broker} {r : TopicRef} {topic id : GoString} {ok : Bool}

/-- `Ack` answers whether it has found the message, and logs it then. -/
theorem ackMessage_spec (h : b.ackMessage r topic id = some (ok, b')) : (ok = true ↔ ∃ m ∈ b.queued r, m.id = id) ∧
      b'.storage = if ok then b.storage.map (·.append topic (.ack id)) else b.storage := by
  obtain ⟨t, ht, h⟩ := map_eq_some_iff.mp h
  rw [queued_of_lock ht]
  split at h
  next t' hrem =>
    cases h
    obtain ⟨-, m, hid, hperm⟩ := Topic.remove?_eq_some hrem
    exact ⟨by simpa using ⟨m, hperm.mem_iff.mpr (by simp), hid⟩, rfl⟩
  next hrem =>
    cases h
    have hnone := Topic.remove?_eq_none.mp hrem
    refine ⟨?_, rfl⟩
    simpa using hnone

end Broker

theorem Effect.acking {now b b' pc handed r topic id}
    (h : Effect now b pc b' (.inl (.acking (some r) topic id)) handed) :
    pc.role = .acking (some r) topic id ∨ b.topics.lookup topic = some r := by
  generalize hv : (Sum.inl (Role.acking (some r) topic id) : Role ⊕ Ret) = v at h
  cases h with
  | quiet hq hmove =>
    cases hmove with
    | stay => exact .inl (Sum.inl.inj hv).symm
    | sendFailed hρ ht hv' =>
      rcases hv' with rfl | rfl
      · cases hv
      · cases hv
    | ackFound hpc ht =>
      cases hv
      exact .inr ht
    | _ => cases hv
  | @extract b' t q r ms hρ hat hx =>
    cases ms <;> cases hv
  | _ => cases hv

namespace Sys

variable {s s' : Sys} {i : Nat} {topic id : GoString} {m : Message} {ch : Chan} {l : Label}

/-- Goroutine `i` is in a call of `Ack`. -/
def InAck (s : Sys) (i : Nat) (topic id : GoString) : Prop :=
  s.calls i = some ⟨.ack topic id, []⟩ ∨ ∃ r, s.calls i = some ⟨.ackAt r topic id, []⟩

/-- The topic object of an `Ack` is the one its name leads to. -/
def AcksFound (s : Sys) : Prop :=
  ∀ i r topic id, s.role i = .acking (some r) topic id → s.broker.topics.lookup topic = some r

theorem AcksFound.step (hs : s.AcksFound) (hsound : s.Sound) (h : s.step l = some s') : s'.AcksFound := by
  intro j r topic id hj
  obtain ⟨puts, hev, -⟩ := (passes_of_step hsound h).evolves
  rcases role_of_step hsound h j with hr | ⟨op, -, hr⟩ | ⟨k, g, c, -, -, hc, hr⟩ | ⟨-, pc, v, handed, hran⟩
  · exact hev.topics (hs j r topic id (hr ▸ hj))
  · rw [hr] at hj
    rcases op.entry_role with ho | ⟨p, ho⟩ | ⟨q, ho⟩ | ⟨n, id', ho⟩ | ⟨n, ch, ho⟩ <;>
      rw [ho] at hj <;> cases hj
  · rw [hr] at hj
    rcases Goroutine.entry_role hc with ⟨due, push, -, hg⟩ | ⟨chs, m, -, hg⟩ <;> rw [hg] at hj <;> cases hj
  · have heff := hran.effect
    rw [hran.view_eq (by rw [hj]; exact Role.noConfusion) fun p => by
      rw [hj]; exact Role.noConfusion, hj] at heff
    rcases heff.acking with hold | hold
    · exact hev.topics (hs j r topic id (hran.role_eq.trans hold))
    · exact hev.topics hold

/-- `s'` is reached from `s` without a `Requeue`. -/
abbrev Reaches (s s' : Sys) : Prop := Lts.Run Sys.step (fun _ l => l.NoRequeue) s s'

/-- What holds all along a run without `Requeue`. -/
structure Tracked (s : Sys) : Prop where
  sound : s.Sound
  issued : s.Issued
  acksFound : s.AcksFound
  stores : ∃ st, s.broker.storage = some st

theorem Tracked.step (hs : s.Tracked) (hl : l.NoRequeue) (h : s.step l = some s') : s'.Tracked := by
  have hp := passes_of_step hs.sound h
  obtain ⟨puts, hev, -⟩ := hp.evolves
  obtain ⟨st, hst⟩ := hs.stores
  obtain ⟨st', hst', -⟩ := hev.log st hst
  exact ⟨hs.sound.step hl h, hs.issued.step hp, hs.acksFound.step hs.sound h, st', hst'⟩

theorem Tracked.reaches (hs : s.Tracked) (h : s.Reaches s') : s'.Tracked :=
  h.invariant (fun _ _ _ hs hl hstep => hs.step hl hstep) hs

/-- **A handed message that is forgotten stays forgotten**: its ID is not
that of a message still to be put. -/
theorem Tracked.forgot_reaches (hs : s.Tracked) (hm : (ch, m) ∈ s.handed)
    (hf : ∀ st, s.broker.storage = some st → st.Forgot topic m.id) (h : s.Reaches s') :
    ∀ st, s'.broker.storage = some st → st.Forgot topic m.id := by
  have hinv : s'.Tracked ∧ (ch, m) ∈ s'.handed ∧ ∀ st, s'.broker.storage = some st →
    st.Forgot topic m.id := by
    refine h.invariant (I := fun s => s.Tracked ∧ (ch, m) ∈ s.handed ∧ ∀ st, s.broker.storage = some st →
      st.Forgot topic m.id) (fun s l s' ⟨hs, hm, hf⟩ hl hstep => ?_) ⟨hs, hm, hf⟩
    have hp := passes_of_step hs.sound hstep
    refine ⟨hs.step hl hstep, hp.handed.subset hm, ?_⟩
    intro st' hst'
    obtain ⟨puts, hev, hputs⟩ := hp.evolves
    obtain ⟨st, hst⟩ := hs.stores
    obtain ⟨st'', hst'', hgrows⟩ := hev.log st hst
    rw [hst', some.injEq] at hst''
    subst hst''
    refine (hf st hst).grows hgrows fun m' hm' => ?_
    obtain ⟨i, hi⟩ := hputs m' hm'
    exact hs.issued.held_stored hi (.inr (.inr (.inr ⟨ch, hm⟩)))
  exact hinv.2.2

theorem Tracked.ack_step (hs : s.Tracked) (hack : s.InAck i topic id) (h : s.step (.run i) = some s')
    (hret : s'.results i = some (.acked ok)) : (ok = true ↔ ∃ x ∈ s.broker.queue topic, x.id = id) ∧
      s'.broker.storage = if ok then s.broker.storage.map (·.append topic (.ack id)) else s.broker.storage := by
  obtain ⟨c, o, hc, ho, rfl⟩ := step_run h
  rw [setCall_broker]
  rcases hack with hack | ⟨r, hack⟩
  · cases hack.symm.trans hc
    simp only [Pc.step] at ho
    split at ho
    next hnone =>
      cases ho
      simp only [Call.resume, Outcome.ret, setCall, Function.update_self, some.injEq,
        Ret.acked.injEq] at hret
      subst hret
      simp [queue, hnone, Outcome.ret]
    next t ht =>
      cases ho
      have hnone := hs.sound.running i _ hack
      simp [Call.resume, Outcome.goto, setCall, hnone] at hret
  · have hfound := hs.acksFound i r topic id (by simp [role, hack, Pc.role])
    cases hack.symm.trans hc
    obtain ⟨⟨ok', b'⟩, hb, rfl⟩ := map_eq_some_iff.mp ho
    simp only [Call.resume, Outcome.ret, setCall, Function.update_self, some.injEq,
      Ret.acked.injEq] at hret
    subst hret
    simpa [queue, hfound, Outcome.ret] using ackMessage_spec hb

/-- **When an acknowledged message never comes back.** Take any broker with
storage whose messages have issued identifiers, any run on it without
`Requeue`, a message handed to a consumer and the step in which an `Ack` of
it returns. The `Ack` returns true, and no later replay of the topic yields
the message, exactly when the message is still queued at that moment and
the ack takes effect in the log. -/
theorem ack_forgets_iff {now : Time} {b : Broker} {st : LogStore} {ok : Bool} (hst : b.storage = some st)
    (hissued : ∀ m, (init now b).Stored m → ∀ k, b.uuids ≤ k → b.env.newUUID k ≠ m.id)
    (hrun : (init now b).Reaches s) (hm : (ch, m) ∈ s.handed) (hack : s.InAck i topic m.id)
    (hstep : s.step (.run i) = some s') (hret : s'.results i = some (.acked ok)) :
    (ok = true ∧ ∀ s'', s'.Reaches s'' → ∀ x ∈ s''.broker.recovered topic, x.id ≠ m.id) ↔
      (∃ x ∈ s.broker.queue topic, x.id = m.id) ∧ s.broker.AckForgets topic m.id := by
  have hfound : (init now b).AcksFound := by
    intro i r topic id h
    cases h
  have hinit : (init now b).Tracked := ⟨init_sound now b, init_issued hissued, hfound, st, hst⟩
  have hs : s.Tracked := hinit.reaches hrun
  have hs' : s'.Tracked := hs.step (l := .run i) trivial hstep
  have hm' : (ch, m) ∈ s'.handed := (passes_of_step hs.sound hstep).handed.subset hm
  obtain ⟨st₁, hst₁⟩ := hs.stores
  obtain ⟨hok, hstorage⟩ := hs.ack_step hack hstep hret
  rw [← hok]
  refine and_congr_right fun htrue => ?_
  -- The log after the ack, and what it means that it has forgotten the message.
  rw [htrue, if_pos rfl, hst₁, map_some] at hstorage
  have hforgets : s.broker.AckForgets topic m.id ↔ (st₁.append topic (.ack m.id)).Forgot topic m.id := by
    rw [← LogStore.ackForgets_iff]
    constructor
    · intro h
      exact h st₁ hst₁
    · intro h st hst
      rw [hst₁, mem_some] at hst
      exact hst ▸ h
  rw [hforgets]
  constructor
  · intro hnever x hx
    exact hnever s' .refl x (by simpa [recovered, hstorage] using hx)
  · intro hforgot s'' hrun' x hx
    have hlater := hs'.forgot_reaches hm' (fun st hst => by
      rw [hstorage, some.injEq] at hst
      exact hst ▸ hforgot) hrun'
    obtain ⟨st'', hst''⟩ := (hs'.reaches hrun').stores
    exact hlater st'' hst'' x (by simpa [recovered, hst''] using hx)

end Sys

/-! ## Two runs -/

/-- Goroutine 0 publishes a message, 1 consumes it and 2 is about to
acknowledge it. -/
def consumeThenAck : List Label :=
  [.start 0 (.publish samplePublish)] ++ replicate 11 (.run 0) ++
    [.start 1 (.consume ⟨ascii "t", 1, 1⟩)] ++ replicate 5 (.run 1) ++ [.start 2 (.ack (ascii "t") [97]), .run 2]

/-- The ack of a message that `Consume` returned answers false, and the log
still yields the message. -/
theorem ack_of_consumed_fails : ∃ s s' : Sys, (Sys.init 0 .sample).Reaches s ∧ (1, firstMessage) ∈ s.handed ∧
    s.InAck 2 (ascii "t") firstMessage.id ∧ s.step (.run 2) = some s' ∧ s'.results 2 = some (.acked false) ∧
    firstMessage ∈ s'.broker.recovered (ascii "t") := by
  refine ⟨_, _, Lts.Run.of_exec_get consumeThenAck (by decide +kernel) (by decide +kernel), by decide +kernel,
    .inr ⟨0, by decide +kernel⟩, (some_get (by decide +kernel)).symm,
      by decide +kernel, by decide +kernel⟩

/-- Goroutine 1 waits for a message, 0 publishes one and sends it to 1, and
2 is about to acknowledge it while 0 has still to remove it. -/
def ackBeforeRemoval : List Label :=
  [.start 1 (.consume ⟨ascii "t", 1, 1⟩)] ++ replicate 5 (.run 1) ++
    [.start 0 (.publish samplePublish)] ++ replicate 12 (.run 0) ++ [.start 2 (.ack (ascii "t") [97]), .run 2]

theorem ack_before_removal_forgets : ∃ s s' : Sys, (Sys.init 0 .sample).Reaches s ∧ (1, firstMessage) ∈ s.handed ∧
    s.step (.run 2) = some s' ∧ s'.results 2 = some (.acked true) ∧
    ∀ s'', s'.Reaches s'' → ∀ x ∈ s''.broker.recovered (ascii "t"), x.id ≠ firstMessage.id := by
  have hrun : (Sys.init 0 .sample).Reaches _ :=
    Lts.Run.of_exec_get ackBeforeRemoval (by decide +kernel) (by decide +kernel)
  refine ⟨_, _, hrun, by decide +kernel, (some_get (by decide +kernel)).symm, by decide +kernel, ?_⟩
  refine ((Sys.ack_forgets_iff (i := 2) rfl (fun m hm => absurd hm Sys.not_stored_new) hrun
    (show (1, firstMessage) ∈ _ by decide +kernel) (.inr ⟨0, by decide +kernel⟩)
      (some_get (by decide +kernel)).symm
    (show _ = some (Ret.acked true) by decide +kernel)).mpr ⟨by decide +kernel, by decide +kernel⟩).2

end TinyMQ
