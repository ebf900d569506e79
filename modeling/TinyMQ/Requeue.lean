/-
A message that is handed back with `Requeue`, and its records.

`Requeue` puts a message into the log of its topic, or of the dead letter
queue once it has failed too often, and writes nothing to the log it came
from. A replay returns a message once for each of its puts, so the message
is left with one durable copy only when it had none there before
(`requeue_kept_iff`).
-/
import TinyMQ.Sequential
import Mathlib.Algebra.Group.Int.Defs

namespace TinyMQ

open List Option Function Broker LogStore KeyedLog Message

/-! ## Copies in the logs -/

namespace LogStore

variable {es : List LogEntry} {id : GoString} {m : Message}

/-- How often a replay of a log returns a message with that ID. -/
def copies (es : List LogEntry) (id : GoString) : Nat := ((replay es).map Message.id).count id

/-- How often a message with that ID was put into a log. -/
def puts (es : List LogEntry) (id : GoString) : Nat := (putKeys (es.map LogEntry.entry)).count id

theorem copies_eq (es : List LogEntry) (id : GoString) :
    copies es id = if final (es.map LogEntry.entry) id = none then 0 else puts es id := by
  have hkey : ∀ {k m}, final (es.map LogEntry.entry) k = some m → Message.id m = k := by
    intro k m h
    refine final_of_forall (P := fun k m => Message.id m = k) (fun k m hm => ?_) h
    obtain ⟨e, -, he⟩ := List.mem_map.mp hm
    cases e with
    | put m' => cases he; rfl
    | ack msgID => cases he
  exact count_replay hkey id

theorem copies_eq_zero : copies es id = 0 ↔ ∀ m ∈ replay es, m.id ≠ id := by
  rw [copies, List.count_eq_zero]
  simp

theorem copies_concat_put (es : List LogEntry) (m : Message) : copies (es ++ [.put m]) m.id = puts es m.id + 1 := by
  rw [copies_eq, puts, map_append, map_singleton]
  simp only [LogEntry.entry, final_concat_put, update_self, reduceCtorEq, if_false,
    putKeys_concat_put]
  simp [puts]

theorem copies_append_eq_zero (h : copies es id = 0) (hputs : ∀ m, .put m ∈ es' → m.id ≠ id) :
    copies (es ++ es') id = 0 := by
  rw [copies_eq_zero] at h ⊢
  exact not_mem_replay_append h hputs

end LogStore

/-! ## A message at one place -/

namespace Broker

/-- How many copies a log file has. -/
def copies (b : Broker) (f id : GoString) : Nat := LogStore.copies (b.file f) id

/-- At most `n` messages with the ID, all at one place, and no log but that
of their topic has a copy. -/
structure Lone (n : Nat) (b : Broker) (hand : List Message) (id : GoString) : Prop where
  place : ∃ z₀, b.count hand id z₀ ≤ n ∧ ∀ z, z ≠ z₀ → b.count hand id z = 0
  sole : ∀ z, ∀ m ∈ b.zone hand z, m.id = id → ∀ f, f ≠ logFilename m.topic → b.copies f id = 0

variable {n : Nat} {b b' : Broker} {hand : List Message} {id : GoString} {m : Message}

theorem Evolves.copies_eq_zero (h : b.Evolves b' []) (hzero : b.copies f id = 0) : b'.copies f id = 0 := by
  unfold copies file at hzero ⊢
  cases hs : b.storage with
  | none =>
    rw [h.noStorage hs]
    simpa [hs] using hzero
  | some s =>
    obtain ⟨s', hs', hgrows⟩ := h.log s hs
    obtain ⟨es, hes, hnone⟩ := hgrows.file f
    simp only [hs, hs', map_some, getD_some, hes] at hzero ⊢
    exact copies_append_eq_zero hzero fun m hm => absurd (hnone m hm) (by simp)

theorem Lone.mono (h : Lone n b hand id) (hev : b.Evolves b' []) (hz : ∀ z, ∀ m ∈ b'.zone hand' z, m.id = id →
      ∃ z', m ∈ b.zone hand z') (hplace : ∃ z₀, b'.count hand' id z₀ ≤ n ∧ ∀ z, z ≠ z₀ → b'.count hand' id z = 0) :
    Lone n b' hand' id where
  place := hplace
  sole z m hm hid f hf := by
    obtain ⟨z', hm'⟩ := hz z m hm hid
    exact hev.copies_eq_zero (h.sole z' m hm' hid f hf)

theorem Lone.congr (h : Lone n b hand id) (hev : b.Evolves b' []) (hz : ∀ z, b'.zone hand z = b.zone hand z) :
    Lone n b' hand id := by
  have hcount : ∀ z, b'.count hand id z = b.count hand id z := fun z => by rw [count, hz, count]
  obtain ⟨z₀, hle, hne⟩ := h.place
  refine h.mono hev (fun z m hm _ => ⟨z, hz z ▸ hm⟩) ⟨z₀, (hcount z₀).trans_le hle, fun z hz => ?_⟩
  rw [hcount]
  exact hne z hz

/-- A consumer takes messages at a topic: one with the ID is among them,
gone, or left. -/
theorem Lone.extract {now limit r results waiter}
    (hn : n ≤ 1) (h : Lone n b [] id) (hx : Extracts now limit b b' r results waiter) : Lone n b' results id := by
  obtain ⟨gone, hperm, -⟩ := hx.queue
  have hmem : ∀ z, ∀ m ∈ b'.zone results z, ∃ z', m ∈ b.zone [] z' := by
    intro z m hm
    cases z with
    | queue r' =>
      by_cases hr : r' = r
      · subst hr
        exact ⟨.queue r', hperm.mem_iff.mpr (mem_append_right _ hm)⟩
      · rw [zone, hx.queued r' hr] at hm
        exact ⟨.queue r', hm⟩
    | chan ch =>
      rw [zone, hx.chans] at hm
      exact ⟨.chan ch, hm⟩
    | hand => exact ⟨.queue r, hperm.mem_iff.mpr (by simp [show m ∈ results from hm])⟩
  refine h.mono hx.toEvolves (fun z m hm _ => hmem z m hm) ?_
  have htotal := (hperm.map Message.id).count_eq id
  simp only [map_append, count_append] at htotal
  have hqueue : b'.count results id (.queue r) = ((b'.queued r).map Message.id).count id := rfl
  have hhand : b'.count results id .hand = (results.map Message.id).count id := rfl
  have hother : ∀ z, z ≠ .queue r → z ≠ .hand → b'.count results id z = b.count [] id z := by
    intro z hq hh
    cases z with
    | queue r' => rw [count, count, zone, zone, hx.queued r' fun he => hq (he ▸ rfl)]
    | chan ch => rw [count, count, zone, zone, hx.chans]
    | hand => exact absurd rfl hh
  obtain ⟨z₀, hle, hne⟩ := h.place
  by_cases hz₀ : z₀ = .queue r
  · subst hz₀
    rw [count, zone, htotal] at hle
    by_cases hres : (results.map Message.id).count id = 0
    · refine ⟨.queue r, by omega, fun z hz => ?_⟩
      by_cases hh : z = .hand
      · rw [hh, hhand, hres]
      · rw [hother z hz hh]
        exact hne z hz
    · refine ⟨.hand, by omega, fun z hz => ?_⟩
      by_cases hq : z = .queue r
      · rw [hq, hqueue]
        omega
      · rw [hother z hq hz]
        exact hne z hq
  · have hzero := hne (.queue r) (Ne.symm hz₀)
    rw [count, zone, htotal] at hzero
    have hboth : b'.count results id (.queue r) = 0 ∧ b'.count results id .hand = 0 := by
      rw [hqueue, hhand]
      omega
    by_cases hz₁ : z₀ = .hand
    · refine ⟨.hand, by omega, fun z hz => ?_⟩
      by_cases hq : z = .queue r
      · rw [hq]
        exact hboth.1
      · rw [hother z hq hz]
        exact hne z (hz₁ ▸ hz)
    · refine ⟨z₀, (hother z₀ hz₀ hz₁).trans_le hle, fun z hz => ?_⟩
      by_cases hq : z = .queue r
      · rw [hq]
        exact hboth.1
      by_cases hh : z = .hand
      · rw [hh]
        exact hboth.2
      · rw [hother z hq hh]
        exact hne z hz

end Broker

/-- The messages a call returns to its consumer. -/
def Ret.messages : Ret → List Message
  | .consumed (some ms) => ms
  | _ => []

/-- The messages a step of a `Consume` leaves in its hands. -/
def viewHand : Role ⊕ Ret → List Message
  | .inl ρ => ρ.mail
  | .inr r => r.messages

section Consume

variable {now : Time} {n : Nat} {b b' : Broker} {id : GoString} {pc : Pc} {q : ConsumeArgs}

theorem Effect.consumes (h : Effect now b pc b' v handed) (hρ : pc.role.job = .consume q) :
    (b.Quiet b' [] ∧ viewHand v = pc.role.mail) ∨ ∃ limit r results waiter, pc.role.mail = [] ∧
        Extracts now limit b b' r results waiter ∧ viewHand v = results := by
  cases h with
  | quiet hq hmove =>
    have hheld : pc.role.held = [] := by
      cases hr : pc.role with
      | holding p t m => rw [hr] at hρ; cases hρ
      | _ => rfl
    rw [hheld] at hq
    refine .inl ⟨hq, ?_⟩
    cases hmove with
    | stay => rfl
    | seek hr ht | giveUp hr | deliver hr | wait hr => rw [hr]; rfl
    | fail hr | call hr | locate hr ht | refuse hr | collect hr hb | finish hr hw | sendFailed hr ht hv
    | castEnd hr | ackMissing hr | ackFound hr ht | leaveMissing hr ht | leaveFound hr ht =>
      rw [hr] at hρ; cases hρ
  | @extract b' t q r ms hr hat hx =>
    refine .inr ⟨q.limit, r, ms, none, by rw [hr]; rfl, hx, ?_⟩
    cases ms <;> rfl
  | @register b' q r hr hat hx => exact .inr ⟨q.limit, r, [], some q.notifyChan, by rw [hr]; rfl, hx, rfl⟩
  | create hr ht | store hr hb hs | defer hr hb hs | take hr hu | cast hr hu | pop hr hu hw | send hr ht
  | remove hr hrem | castSend hr ht | ack hr hrem | leave hr hu hw => rw [hr] at hρ; cases hρ

theorem Effect.lone (hn : n ≤ 1) (h : Effect now b pc b' v handed) (hρ : pc.role.job = .consume q)
    (hl : b.Lone n pc.role.mail id) : b'.Lone n (viewHand v) id := by
  rcases h.consumes hρ with ⟨hq, hv⟩ | ⟨limit, r, results, waiter, hmail, hx, hv⟩
  · rw [hv]
    refine hl.congr hq.toEvolves fun z => ?_
    cases z with
    | queue r => exact hq.queued r
    | chan ch => rw [zone, zone, hq.chans]
    | hand => rfl
  · rw [hmail] at hl
    rw [hv]
    exact hl.extract hn hx

theorem consume_lone {r} (hn : n ≤ 1) (h : Returns now b (Op.consume q).entry r b') (hl : b.Lone n [] id) :
    b'.Lone n r.messages id :=
  h.of_effects (I := fun b ρ => ρ.job = .consume q ∧ b.Lone n ρ.mail id)
    (Q := fun r b' => b'.Lone n r.messages id) rfl
    ⟨rfl, hl⟩ (fun b p hI => by cases hI.1) (fun hI heff => ⟨heff.job.trans hI.1, heff.lone hn hI.1 hI.2⟩)
    fun hI heff => heff.lone hn hI.1 hI.2

theorem consume_evolves (h : Returns now b (Op.consume q).entry r b') : b.Evolves b' [] := by
  have hstep : ∀ {b₁ pc b₂ v handed}, pc.role.job = .consume q ∧ b.Evolves b₁ [] →
      Effect now b₁ pc b₂ v handed → b.Evolves b₂ [] := by
    intro b₁ pc b₂ v handed hI heff
    rcases heff.consumes hI.1 with ⟨hq, -⟩ | ⟨_, _, _, _, -, hx, -⟩
    · exact hI.2.trans hq.toEvolves
    · exact hI.2.trans hx.toEvolves
  exact h.of_effects (I := fun b' ρ => ρ.job = .consume q ∧ b.Evolves b' [])
    (Q := fun _ b' => b.Evolves b' []) rfl
    ⟨rfl, .refl b []⟩ (fun b p hI => by cases hI.1)
      (fun hI heff => ⟨heff.job.trans hI.1, hstep hI heff⟩) hstep

end Consume

/-! ## The call -/

namespace Broker

variable {b b' : Broker} {m : Message} {r : TopicRef} {ch : Option Chan}

theorem requeueTo_spec (h : b.requeueTo r m = some (ch, b')) :
    b'.storage = b.storage ∧ b'.topics = b.topics ∧ b'.bindings = b.bindings ∧ match ch with
      | none => (b'.queued r).Perm (m :: b.queued r) ∧ (∀ r', r' ≠ r → b'.queued r' = b.queued r') ∧
        b'.chans = b.chans
      | some c => (∀ r', b'.queued r' = b.queued r') ∧ (b'.chans c).buf = (b.chans c).buf ++ [m] ∧
          ∀ c', c' ≠ c → b'.chans c' = b.chans c' := by
  obtain ⟨t, ht, h⟩ := map_eq_some_iff.mp h
  have happend : ∀ t' : Topic, t'.queued = t.queued →
    ((b.setTopic r (t'.append .normal m)).queued r).Perm (m :: b.queued r) := by
    intro t' hq
    rw [queued_setTopic ht, if_pos rfl, queued_of_lock ht, ← hq]
    exact t'.queued_append .normal m
  split at h
  next hw =>
    cases h
    exact ⟨rfl, rfl, rfl, happend t rfl, fun r' hr => by rw [queued_setTopic ht, if_neg hr], rfl⟩
  next c chs hw =>
    split at h
    next b₁ hsend =>
      cases h
      obtain ⟨-, rfl⟩ := trySend_eq_some hsend
      refine ⟨rfl, rfl, rfl, fun r' => ?_, by simp [setTopic], fun c' hc => by simp [setTopic, hc]⟩
      -- The buffers play no part in what is queued.
      refine (queued_setTopic (b := { b with chans := update b.chans c ⟨(b.chans c).cap, (b.chans c).buf ++ [m]⟩ })
        ht _ r').trans ?_
      split
      next hr => rw [hr]; exact (queued_of_lock ht).symm
      · rfl
    · cases h
      exact ⟨rfl, rfl, rfl, happend { t with waitingConsumers := chs } rfl,
        fun r' hr => by rw [queued_setTopic ht, if_neg hr], rfl⟩

end Broker

section Call

variable {now : Time} {b b' : Broker} {m : Message} {r : Ret}

theorem requeue_returns (h : Returns now b (Op.requeue m).entry r b') :
    (b.getOrCreateTopic (requeued m).topic).1 = none ∧ b' = b ∨
      ∃ t b₀ ch, b.getOrCreateTopic (requeued m).topic = (some t, b₀) ∧
        (b₀.log (requeued m).topic (.put (requeued m))).requeueTo t (requeued m) = some (ch, b') := by
  rcases hget : b.getOrCreateTopic (requeued m).topic with ⟨_ | t, b₀⟩
  · have hb₀ : b₀ = b := by
      have hsame := getOrCreateTopic_none
        (by rw [hget] : (b.getOrCreateTopic (requeued m).topic).1 = none)
      rw [hget] at hsame
      exact hsame
    have hstep : Pc.step now b (.requeue m) = some (.ret b₀ .done) := by simp only [Pc.step, hget]
    exact .inl ⟨rfl, ((returns_ret hstep rfl).mp h).2.trans hb₀⟩
  · have hstep : Pc.step now b (.requeue m) = some (.goto b₀ (.requeuePut t (requeued m))) := by
      simp only [Pc.step, hget]
    have h := (returns_goto (o := .goto _ _) rfl rfl).mp ((returns_goto hstep rfl).mp h)
    cases hto : (b₀.log (requeued m).topic (.put (requeued m))).requeueTo t (requeued m) with
    | none =>
      have hnone : Pc.step now (b₀.log (requeued m).topic (.put (requeued m)))
        (.requeueAt t (requeued m)) = none := by
        simp only [Pc.step, hto, map_none]
      exact absurd h (not_returns hnone)
    | some res =>
      obtain ⟨ch, b₁⟩ := res
      have hret : ∃ o, Pc.step now (b₀.log (requeued m).topic (.put (requeued m)))
        (.requeueAt t (requeued m)) = some o ∧
          o.next = .ret .done ∧ o.broker = b₁ := by
        simp only [Pc.step, hto, map_some]
        exact ⟨_, rfl, rfl, rfl⟩
      obtain ⟨o, ho, hnext, hb₁⟩ := hret
      obtain rfl : b' = b₁ := ((returns_ret ho hnext).mp h).2.trans hb₁
      exact .inr ⟨t, b₀, ch, rfl, hto⟩

end Call

/-! ## One durable copy -/

namespace Broker

/-- What a `Requeue` of a message must find: room for the topic it goes to;
no copy in the log of another topic it comes from; and in the log it is put
into no put of it, or, where the put is not written, one copy. -/
structure Keeps (b : Broker) (m : Message) : Prop where
  room : (b.topics.lookup (requeued m).topic).isSome ∨ b.topics.entries.length < b.limits.maxTopics
  source : logFilename m.topic ≠ logFilename (requeued m).topic → b.copies (logFilename m.topic) m.id = 0
  fresh : b.Writes (requeued m).topic → puts (b.file (logFilename (requeued m).topic)) m.id = 0
  stored : ¬ b.Writes (requeued m).topic → b.copies (logFilename (requeued m).topic) m.id = 1

/-- The logs have the message once, in the log of the topic where it is
queued or whose consumer it was sent to. -/
structure Kept (b : Broker) (m : Message) : Prop where
  one : ∀ f, b.copies f m.id = if f = logFilename (requeued m).topic then 1 else 0
  left : requeued m ∈ b.queue (requeued m).topic ∨ ∃ ch, requeued m ∈ (b.chans ch).buf

variable {n : Nat} {b b' : Broker} {hand : List Message} {id : GoString} {m : Message}

theorem Lone.elsewhere (h : b.Lone 1 hand m.id) (hm : m ∈ hand) {z} (hz : z ≠ .hand) : b.count hand m.id z = 0 := by
  obtain ⟨z₀, -, hne⟩ := h.place
  have hhand : b.count hand m.id .hand ≠ 0 := fun h0 => count_eq_zero.mp h0 m hm rfl
  have hz₀ : Zone.hand = z₀ := by_contra fun hne' => hhand (hne _ hne')
  exact hne z (hz₀ ▸ hz)

theorem Lone.drop (h : b.Lone n hand id) (hother : ∀ m ∈ hand, m.id ≠ id) : b.Lone n [] id := by
  have hcount : ∀ z, b.count [] id z = b.count hand id z := by
    intro z
    cases z with
    | hand => exact (count_eq_zero (z := .hand) |>.mpr hother).symm
    | queue r | chan ch => rfl
  obtain ⟨z₀, hle, hne⟩ := h.place
  refine ⟨⟨z₀, (hcount z₀).trans_le hle, fun z hz => (hcount z).trans (hne z hz)⟩, fun z m hm hid => ?_⟩
  cases z with
  | hand => cases hm
  | queue r => exact h.sole (.queue r) m hm hid
  | chan ch => exact h.sole (.chan ch) m hm hid

theorem Lone.pick (h : b.Lone 1 hand m.id) (hm : m ∈ hand) : b.Lone 1 [m] m.id := by
  refine ⟨⟨.hand, by simp [count, zone], fun z hz => ?_⟩, fun z m' hm' hid => ?_⟩
  · cases z with
    | hand => exact absurd rfl hz
    | queue r | chan ch => exact h.elsewhere hm hz
  · cases z with
    | hand =>
      obtain rfl := mem_singleton.mp hm'
      exact h.sole .hand m' hm hid
    | queue r => exact h.sole (.queue r) m' hm' hid
    | chan ch => exact h.sole (.chan ch) m' hm' hid

theorem Lone.receive {ch rest} (h : b.Lone 1 [] m.id) (hbuf : (b.chans ch).buf = m :: rest) :
    ({ b with chans := update b.chans ch { b.chans ch with buf := rest } } : Broker).Lone 1 [m] m.id := by
  have hcount : b.count [] m.id (.chan ch) = (rest.map Message.id).count m.id + 1 := by
    rw [count, zone, hbuf, map_cons, count_cons_self]
  obtain ⟨z₀, hle, hne⟩ := h.place
  have hz₀ : Zone.chan ch = z₀ := by_contra fun hne' => by
    have := hne _ hne'
    omega
  subst hz₀
  have hrest : (rest.map Message.id).count m.id = 0 := by omega
  refine ⟨⟨.hand, by simp [count, zone], fun z hz => ?_⟩, fun z m' hm' hid => ?_⟩
  · cases z with
    | hand => exact absurd rfl hz
    | queue r => exact hne (.queue r) (by simp)
    | chan c =>
      by_cases hc : c = ch
      · subst hc
        simpa [count, zone] using hrest
      · have := hne (.chan c) (by simpa using hc)
        simpa [count, zone, hc] using this
  · cases z with
    | hand =>
      obtain rfl := mem_singleton.mp hm'
      exact h.sole (.chan ch) m' (by simp [zone, hbuf]) hid
    | queue r => exact h.sole (.queue r) m' hm' hid
    | chan c =>
      by_cases hc : c = ch
      · subst hc
        simp only [zone, update_self] at hm'
        exact h.sole (.chan c) m' (by simp [zone, hbuf, hm']) hid
      · simp only [zone, update_of_ne hc] at hm'
        exact h.sole (.chan c) m' hm' hid

end Broker

@[simp] theorem requeued_id (m : Message) : (requeued m).id = m.id := by
  simp only [requeued, apply_ite Message.id, ite_self]

section Call

variable {now : Time} {b b' : Broker} {m : Message} {r : Ret}

theorem copies_log_put (b : Broker) (topic f : GoString) (m : Message) [Decidable (b.Writes topic)] :
    (b.log topic (.put m)).copies f m.id = if f = logFilename topic ∧ b.Writes topic then puts
      (b.file f) m.id + 1 else b.copies f m.id := by
  rw [Broker.copies, file_log]
  split
  · exact copies_concat_put _ _
  · rfl

theorem requeue_leaves {b₀ t ch} [Decidable (b.Writes (requeued m).topic)]
    (hget : b.getOrCreateTopic (requeued m).topic = (some t, b₀))
    (hto : (b₀.log (requeued m).topic (.put (requeued m))).requeueTo t (requeued m) = some (ch, b')) :
    b'.topics.lookup (requeued m).topic = some t ∧
      (∀ f, b'.copies f m.id = if f = logFilename (requeued m).topic ∧ b.Writes (requeued m).topic then
        puts (b.file f) m.id + 1 else b.copies f m.id) ∧ match ch with
      | none => (b'.queued t).Perm (requeued m :: b.queued t) ∧ (∀ r', r' ≠ t → b'.queued r' = b.queued r') ∧
          b'.chans = b.chans
      | some c => (∀ r', b'.queued r' = b.queued r') ∧ (b'.chans c).buf = (b.chans c).buf ++ [requeued m] ∧
          ∀ c', c' ≠ c → b'.chans c' = b.chans c' := by
  obtain ⟨hstorage, htopics, -, hplace⟩ := requeueTo_spec hto
  have hquiet : b.Quiet b₀ [] := by
    have := quiet_getOrCreateTopic b (requeued m).topic []
    rwa [hget] at this
  have hb₀ : b₀.storage = b.storage := by
    rcases getOrCreateTopic_cases hget with ⟨-, rfl⟩ | ⟨-, -, rfl⟩ <;> rfl
  refine ⟨?_, fun f => ?_, ?_⟩
  · have hlookup := getOrCreateTopic_lookup hget
    rw [htopics]
    exact hlookup
  · have hfile : b'.copies f m.id = (b.log (requeued m).topic (.put (requeued m))).copies f
      (requeued m).id := by
      simp only [Broker.copies, Broker.file, hstorage, Broker.log, hb₀, requeued_id]
    rw [hfile, copies_log_put, requeued_id]
  · cases ch with
    | none =>
      obtain ⟨hperm, hq, hc⟩ := hplace
      exact ⟨by rw [← hquiet.queued]; exact hperm, fun r' hr => (hq r' hr).trans (hquiet.queued r'),
        hc.trans hquiet.chans⟩
    | some c =>
      obtain ⟨hq, hbuf, hc⟩ := hplace
      rw [← hquiet.chans]
      exact ⟨fun r' => (hq r').trans (hquiet.queued r'), hbuf, hc⟩

theorem getOrCreateTopic_isSome (b : Broker) (name : GoString) : (b.getOrCreateTopic name).1.isSome = true ↔
      (b.topics.lookup name).isSome ∨ b.topics.entries.length < b.limits.maxTopics := by
  rw [← b.canGet_eq, canGet, Bool.or_eq_true, decide_eq_true_eq]

/-- A message that a consumer hands back has one durable copy, in the log of
the topic it is left at, exactly when `Requeue` finds what it must. -/
theorem kept_iff_keeps (hl : b.Lone 1 [m] m.id) (h : Returns now b (Op.requeue m).entry r b') :
    b'.Kept m ↔ b.Keeps m := by
  classical
  have habsent : ∀ z, z ≠ .hand → b.count [m] m.id z = 0 := fun z hz =>
    hl.elsewhere (mem_singleton.mpr rfl) hz
  have hroom := getOrCreateTopic_isSome b (requeued m).topic
  rcases requeue_returns h with ⟨hnone, rfl⟩ | ⟨t, b₀, ch, hget, hto⟩
  · -- Without a topic the message is left nowhere.
    rw [hnone] at hroom
    refine ⟨fun hk => ?_, fun hk => absurd (hroom.mpr hk.room) (by simp)⟩
    rcases hk.left with hq | ⟨c, hc⟩
    · unfold queue at hq
      cases hr : b'.topics.lookup (requeued m).topic with
      | none => simp [hr] at hq
      | some t =>
        simp only [hr, map_some, getD_some] at hq
        exact absurd (requeued_id m) (count_eq_zero.mp (habsent (.queue t) (by simp)) _ hq)
    · exact absurd (requeued_id m) (count_eq_zero.mp (habsent (.chan c) (by simp)) _ hc)
  · obtain ⟨hlookup, hcopies, hplace⟩ := requeue_leaves hget hto
    have hleft : requeued m ∈ b'.queue (requeued m).topic ∨ ∃ ch, requeued m ∈ (b'.chans ch).buf := by
      cases ch with
      | none =>
        refine .inl ?_
        rw [queue, hlookup]
        exact hplace.1.mem_iff.mpr (mem_cons_self ..)
      | some c => exact .inr ⟨c, by rw [hplace.2.1]; simp⟩
    rw [hget] at hroom
    have hsole := hl.sole .hand m (mem_singleton.mpr rfl) rfl
    constructor
    · rintro ⟨hone, -⟩
      refine ⟨hroom.mp rfl, fun hne => ?_, fun hw => ?_, fun hw => ?_⟩
      · have := hone (logFilename m.topic)
        rwa [hcopies, if_neg fun hc => hne hc.1, if_neg hne] at this
      · have := hone (logFilename (requeued m).topic)
        rw [hcopies, if_pos ⟨rfl, hw⟩, if_pos rfl] at this
        omega
      · have := hone (logFilename (requeued m).topic)
        rwa [hcopies, if_neg fun hc => hw hc.2, if_pos rfl] at this
    · intro hk
      refine ⟨fun f => ?_, hleft⟩
      rw [hcopies]
      by_cases hf : f = logFilename (requeued m).topic
      · subst hf
        by_cases hw : b.Writes (requeued m).topic
        · rw [if_pos ⟨rfl, hw⟩, if_pos rfl, hk.fresh hw]
        · rw [if_neg fun hc => hw hc.2, if_pos rfl, hk.stored hw]
      · rw [if_neg fun hc => hf hc.1, if_neg hf]
        by_cases hs : f = logFilename m.topic
        · exact hs ▸ hk.source fun he => hf (hs.trans he)
        · exact hsole f hs

theorem requeue_lone (hl : b.Lone 1 [m] m.id) (hk : b.Keeps m) (h : Returns now b (Op.requeue m).entry r b') :
    b'.Lone 1 [] m.id := by
  classical
  have habsent : ∀ z, z ≠ .hand → b.count [m] m.id z = 0 := fun z hz =>
    hl.elsewhere (mem_singleton.mpr rfl) hz
  have hone := ((kept_iff_keeps hl h).mpr hk).one
  rcases requeue_returns h with ⟨hnone, -⟩ | ⟨t, b₀, ch, hget, hto⟩
  · have hroom := (getOrCreateTopic_isSome b (requeued m).topic).mpr hk.room
    rw [hnone] at hroom
    cases hroom
  obtain ⟨-, -, hplace⟩ := requeue_leaves hget hto
  -- The place the message is left at, which had none with its ID.
  obtain ⟨z₀, hz₀, hperm, hother⟩ : ∃ z₀, z₀ ≠ .hand ∧ (b'.zone [] z₀).Perm (requeued m :: b.zone [m] z₀) ∧
      ∀ z, z ≠ .hand → z ≠ z₀ → b'.zone [] z = b.zone [m] z := by
    cases ch with
    | none =>
      refine ⟨.queue t, by simp, hplace.1, fun z hh hz => ?_⟩
      cases z with
      | queue r' => exact hplace.2.1 r' fun he => hz (he ▸ rfl)
      | chan c => exact congrArg Channel.buf (congrFun hplace.2.2 c)
      | hand => exact absurd rfl hh
    | some c =>
      refine ⟨.chan c, by simp, ?_, fun z hh hz => ?_⟩
      · rw [Broker.zone, hplace.2.1]
        exact perm_append_singleton _ _
      · cases z with
        | queue r' => exact hplace.1 r'
        | chan c' => exact congrArg Channel.buf (hplace.2.2 c' fun he => hz (he ▸ rfl))
        | hand => exact absurd rfl hh
  have hnone : ∀ z, z ≠ z₀ → b'.count [] m.id z = 0 := by
    intro z hz
    by_cases hh : z = .hand
    · subst hh
      rfl
    · rw [Broker.count, hother z hh hz]
      exact habsent z hh
  refine ⟨⟨z₀, ?_, hnone⟩, fun z m' hm' hid f hf => ?_⟩
  · have hcount := (hperm.map Message.id).count_eq m.id
    have hzero := habsent z₀ hz₀
    rw [Broker.count] at hzero ⊢
    rw [hcount, map_cons, requeued_id, count_cons_self, hzero]
  · by_cases hz : z = z₀
    · subst hz
      rcases mem_cons.mp (hperm.mem_iff.mp hm') with rfl | hm'
      · exact (hone f).trans (if_neg hf)
      · exact absurd hid (Broker.count_eq_zero.mp (habsent z hz₀) m' hm')
    · exact absurd hid (Broker.count_eq_zero.mp (hnone z hz) m' hm')

end Call

/-! ## Histories -/

/-- What can happen to the message with that ID: a consumer gets it out of a
queue or receives it, hands it back, and others consume. The message is with
its consumer, or `none`; every `Requeue` finds what it must. -/
inductive Handled (b₀ : Broker) (id : GoString) : Broker → Option Message → Prop
  | start : Handled b₀ id b₀ none
  | consume {b b' now q r m} : Handled b₀ id b none →
      Returns now b (Op.consume q).entry r b' → m ∈ r.messages → m.id = id → Handled b₀ id b' (some m)
  | receive {b ch m rest} : Handled b₀ id b none →
      (b.chans ch).buf = m :: rest → m.id = id →
      Handled b₀ id { b with chans := update b.chans ch { b.chans ch with buf := rest } } (some m)
  | requeue {b b' now r m} : Handled b₀ id b (some m) → b.Keeps m →
      Returns now b (Op.requeue m).entry r b' → Handled b₀ id b' none
  | other {b b' now q r h} : Handled b₀ id b h →
      Returns now b (Op.consume q).entry r b' → (∀ m ∈ r.messages, m.id ≠ id) → Handled b₀ id b' h

section History

variable {now : Time} {b₀ b b' : Broker} {id : GoString} {m : Message} {r : Ret}

theorem consume_elsewhere {q} (hl : b.Lone 1 [m] m.id) (h : Returns now b (Op.consume q).entry r b')
    (hother : ∀ m' ∈ r.messages, m'.id ≠ m.id) : b'.Lone 1 [m] m.id := by
  have habsent : b.Lone 0 [] m.id := by
    have hzero : ∀ z, b.count [] m.id z = 0 := by
      intro z
      cases z with
      | hand => rfl
      | queue r => exact hl.elsewhere (mem_singleton.mpr rfl) (z := .queue r) (by simp)
      | chan ch => exact hl.elsewhere (mem_singleton.mpr rfl) (z := .chan ch) (by simp)
    exact ⟨⟨.hand, (hzero _).le, fun z _ => hzero z⟩, fun z m' hm' hid =>
      absurd hid (Broker.count_eq_zero.mp (hzero z) m' hm')⟩
  obtain ⟨z₀, hle, hne⟩ := ((consume_lone (by omega) h habsent).drop hother).place
  have hzero : ∀ z, b'.count [] m.id z = 0 := by
    intro z
    by_cases hz : z = z₀
    · subst hz
      omega
    · exact hne z hz
  refine hl.mono (consume_evolves h) (fun z m' hm' hid => ?_)
    ⟨.hand, by simp [Broker.count, Broker.zone], fun z hz => ?_⟩
  · cases z with
    | hand => exact ⟨.hand, hm'⟩
    | queue r => exact absurd hid (Broker.count_eq_zero.mp (hzero (.queue r)) m' hm')
    | chan ch => exact absurd hid (Broker.count_eq_zero.mp (hzero (.chan ch)) m' hm')
  · cases z with
    | hand => exact absurd rfl hz
    | queue r => exact hzero (.queue r)
    | chan ch => exact hzero (.chan ch)

theorem Handled.lone (h₀ : b₀.Lone 1 [] id) {h} (hh : Handled b₀ id b h) :
    (∀ m ∈ h, m.id = id) ∧ b.Lone 1 h.toList id := by
  induction hh with
  | start => exact ⟨by simp, h₀⟩
  | consume _ hr hm hid ih =>
    subst hid
    exact ⟨by simp, (consume_lone (by omega) hr ih.2).pick hm⟩
  | receive _ hbuf hid ih =>
    subst hid
    exact ⟨by simp, ih.2.receive hbuf⟩
  | requeue _ hk hr ih =>
    obtain ⟨hid, hl⟩ := ih
    obtain rfl := hid _ rfl
    exact ⟨by simp, requeue_lone hl hk hr⟩
  | @other _ _ _ _ _ h _ hr hother ih =>
    obtain ⟨hid, hl⟩ := ih
    refine ⟨hid, ?_⟩
    cases h with
    | none => exact (consume_lone (by omega) hr hl).drop hother
    | some m =>
      obtain rfl := hid m rfl
      exact consume_elsewhere hl hr hother

/-- **Over any history of deliveries and requeues, a `Requeue` leaves one
durable copy of its message, in the log of the topic it leaves it at,
exactly when it finds the topic or room for it, no copy in the log the
message came from if that is another, and no put of it in the log it writes
to.** -/
theorem requeue_kept_iff (h₀ : b₀.Lone 1 [] id) (hh : Handled b₀ id b (some m))
    (h : Returns now b (Op.requeue m).entry r b') : b'.Kept m ↔ b.Keeps m := by
  obtain ⟨hid, hl⟩ := hh.lone h₀
  obtain rfl := hid m rfl
  exact kept_iff_keeps hl h

end History

def sampleConsume : ConsumeArgs := ⟨ascii "t", 1, 0⟩

/-- A message that is published, consumed and handed back is in its log twice. -/
theorem requeue_doubles : ∃ r₁ b₁ r₂ b₂ r₃ b₃, Returns 0 .sample (Op.publish samplePublish).entry r₁ b₁ ∧
    Returns 0 b₁ (Op.consume sampleConsume).entry r₂ b₂ ∧ r₂ = .consumed (some [firstMessage]) ∧
    Returns 0 b₂ (Op.requeue firstMessage).entry r₃ b₃ ∧ requeued firstMessage ∈ b₃.queue (ascii "t") ∧
    b₃.copies (logFilename (ascii "t")) firstMessage.id = 2 := by
  exact ⟨_, _, _, _, _, _, returns_get _ _ _, returns_after, rfl, returns_get _ _ _,
    by decide +kernel, by decide +kernel⟩

/-- A broadcast, which is queued and not logged. -/
def broadcastBroker : Broker := sample.addTopic ((Topic.create (ascii "t") .reject).append .normal firstMessage)

theorem broadcastBroker_lone : broadcastBroker.Lone 1 [] firstMessage.id where
  place := by
    refine ⟨.queue 0, by decide +kernel, fun z hz => ?_⟩
    cases z with
    | queue r =>
      cases r with
      | zero => exact absurd rfl hz
      | succ r => rfl
    | chan ch | hand => rfl
  sole _ _ _ _ _ _ := rfl

/-- A broadcast is consumed and handed back: it gets its one copy. -/
theorem requeue_kept_sample : ∃ r₁ b₁ r₂ b₂, Returns 0 broadcastBroker (Op.consume sampleConsume).entry r₁ b₁ ∧
    Returns 0 b₁ (Op.requeue firstMessage).entry r₂ b₂ ∧ b₁.Keeps firstMessage ∧ b₂.Kept firstMessage := by
  let taken := broadcastBroker.after 0 (.consume sampleConsume)
  have htaken := returns_get 0 broadcastBroker (.consume sampleConsume)
  have hback := returns_get 0 taken (.requeue firstMessage)
  have hwrites : taken.Writes (requeued firstMessage).topic := by
    have : taken.storage.any (fun s => decide (s.Writable (requeued firstMessage).topic)) =
      true := by decide +kernel
    simpa [Writes, Option.any_eq_true] using this
  have hkeeps : taken.Keeps firstMessage :=
    ⟨.inl (by decide +kernel), fun h => absurd (by decide +kernel) h, fun _ => by
      decide +kernel, fun h => absurd hwrites h⟩
  have hhandled : Handled broadcastBroker firstMessage.id taken (some firstMessage) :=
    .consume .start htaken (by decide +kernel) rfl
  exact ⟨_, _, _, _, htaken, hback, hkeeps, (requeue_kept_iff broadcastBroker_lone hhandled hback).mpr hkeeps⟩

/-! ## Where retries lead -/

/-- The retries of a message, as `Requeue` reads them. -/
def Message.retries (m : Message) : Int := max m.retryCount.toInt 0

/-- The topic for the `k`th retry from here: with three in all it is the dead
letter queue. -/
def Message.routed (m : Message) (k : Nat) : GoString := if m.retries + k < 3 then m.topic else dlqName m.topic

/-- Where a `Requeue` has put a message: into the queue of a topic and no
other, or into the hands of a consumer. -/
structure Broker.PutAt (b b' : Broker) (m : Message) (X : GoString) : Prop where
  topic : m.topic = X
  place : (∃ t, b'.topics.lookup X = some t ∧ (b'.queued t).Perm (m :: b.queued t) ∧
      ∀ r, r ≠ t → b'.queued r = b.queued r) ∨
    ∃ c, (∀ r, b'.queued r = b.queued r) ∧ (b'.chans c).buf = (b.chans c).buf ++ [m]

section Retries

variable {now : Time} {b b' : Broker} {m : Message} {ret : Ret} {k : Nat}

theorem requeued_spec (h : m.retries < 2 ^ 63 - 1) :
    (requeued m).retryCount.toInt = m.retries + 1 ∧ (requeued m).topic = m.routed 1 := by
  have hcount : ((if m.retryCount < 0 then 0 else m.retryCount) + 1 : Int64).toInt = m.retries + 1 := by
    rw [retries] at h ⊢
    rw [Int64.toInt_add, Int.bmod_def]
    simp only [Int64.lt_iff_toInt_lt, Int64.toInt_zero, Int64.toInt_one, apply_ite Int64.toInt]
    omega
  unfold requeued routed
  generalize (if m.retryCount < 0 then 0 else m.retryCount) + 1 = c at hcount ⊢
  have hthree : 3 ≤ c ↔ 3 ≤ m.retries + 1 := hcount ▸ Int64.le_iff_toInt_le
  dsimp only
  split
  next hle =>
    have := hthree.mp hle
    exact ⟨hcount, (if_neg (by omega)).symm⟩
  next hle =>
    have := mt hthree.mpr hle
    exact ⟨hcount, (if_pos (by omega)).symm⟩

theorem requeued_below (h : m.retries + k < 3) :
    (requeued^[k] m).topic = m.topic ∧ (requeued^[k] m).retries = m.retries + k := by
  induction k with
  | zero => simp
  | succ k ih =>
    obtain ⟨htopic, hcount⟩ := ih (by omega)
    have hpos : 0 ≤ m.retries := Int.le_max_right ..
    obtain ⟨hnext, hrouted⟩ := requeued_spec (m := requeued^[k] m) (by omega)
    rw [iterate_succ_apply', hrouted, routed, if_pos (by omega), htopic]
    exact ⟨rfl, by rw [retries, hnext]; omega⟩

/-- **Where a retry leads**: the message gets to its topic, or with its third
retry to the dead letter queue. This holds as long as it is not requeued from
there, which leads to the dead letter queue of that, and the count does not
overflow; and the topic must be there or have room. -/
theorem dlq_routing (hk : k = 0 ∧ m.retries < 2 ^ 63 - 1 ∨ m.retries + (k + 1) ≤ 3)
    (hroom : (b.getOrCreateTopic (m.routed (k + 1))).1.isSome = true)
    (h : Returns now b (Op.requeue (requeued^[k] m)).entry ret b') :
    b.PutAt b' (requeued^[k + 1] m) (m.routed (k + 1)) ∧ 0 ≤ (requeued^[k + 1] m).retryCount.toInt := by
  have hpos : 0 ≤ m.retries := Int.le_max_right ..
  obtain ⟨htopic, hcount, hmax⟩ : (requeued^[k] m).topic = m.topic ∧ (requeued^[k] m).retries = m.retries + k ∧
      m.retries + k < 2 ^ 63 - 1 := by
    rcases hk with ⟨rfl, hk⟩ | hk
    · simpa using hk
    · have hbelow := requeued_below (m := m) (k := k) (by omega)
      exact ⟨hbelow.1, hbelow.2, by omega⟩
  obtain ⟨hnext, hrouted⟩ := requeued_spec (m := requeued^[k] m) (by omega)
  have hsame : (requeued (requeued^[k] m)).topic = m.routed (k + 1) := by
    rw [hrouted, routed, routed, htopic, hcount, Int.add_assoc]
    rfl
  rw [← hsame] at hroom ⊢
  rw [iterate_succ_apply', hnext]
  refine ⟨?_, by omega⟩
  rcases requeue_returns h with ⟨hnone, -⟩ | ⟨t, b₀, ch, hget, hto⟩
  · rw [hnone] at hroom
    cases hroom
  · classical
    obtain ⟨hlookup, -, hplace⟩ := requeue_leaves hget hto
    cases ch with
    | none => exact ⟨rfl, .inl ⟨t, hlookup, hplace.1, hplace.2.1⟩⟩
    | some c => exact ⟨rfl, .inr ⟨c, hplace.1, hplace.2.1⟩⟩

end Retries

/-- A requeue from the dead letter queue, the fourth of a message. -/
theorem dlq_left : ∃ r b', Returns 0 .sample (Op.requeue (requeued^[3] firstMessage)).entry r b' ∧
    (b'.queue (ascii "t.dlq.dlq")).length = 1 ∧ b'.queue (ascii "t.dlq") = [] := by
  exact ⟨_, _, returns_get _ _ _, by decide +kernel, by decide +kernel⟩

theorem dlq_routing_sample : ∃ r b', Returns 0 .sample (Op.requeue (requeued^[2] firstMessage)).entry r b' ∧
    sample.PutAt b' (requeued^[3] firstMessage) (firstMessage.routed 3) := by
  have h := returns_get 0 .sample (.requeue (requeued^[2] firstMessage))
  exact ⟨_, _, h, (dlq_routing (.inr (by decide +kernel)) (by decide +kernel) h).1⟩

end TinyMQ
