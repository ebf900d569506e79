/-
`RedriveDLQ`: the messages of a dead letter queue are published again to the
topic they came from.

The normal queue is emptied first; each message is acked in the log of the
dead letter queue and then published, and what the publish returns is only
counted. `redrive_conserves_iff` says when nothing gets lost on the way.
-/
import TinyMQ.FanOut

namespace TinyMQ

open List Option Broker Text LogStore Message Topic

/-! ## The code -/

def redriveNames (targetTopic : GoString) : GoString × GoString :=
  if !hasSuffix targetTopic (ascii ".dlq") then (targetTopic, dlqName targetTopic)
  else (trimSuffix targetTopic (ascii ".dlq"), targetTopic)

/-- The publish of one message. -/
def redriveArgs (targetTopic : GoString) (msg : Message) : PublishArgs where
  topicName := targetTopic
  payload := msg.payload
  headers := msg.headers
  priority := ascii "normal"
  expiresAt := msg.expiresAt
  deliverAt := none
  isBroadcast := false
  isReplication := false

/-- `dlqT.Messages` is copied and set to `nil`. -/
def Broker.takeMessages (b : Broker) (r : TopicRef) : Option (List Message × Broker) :=
  (b.lock r).map fun t => (t.messages, if t.messages.length = 0 then b else b.setTopic r { t with messages := [] })

/-- One round of the loop: the message, the broker its publish starts on and
what the publish returns. -/
structure RedriveStep where
  msg : Message
  before : Broker
  ret : Ret

/-- The loop over `msgsToRedrive`. -/
inductive RedriveLoop (dlqName targetTopic : GoString) : Broker → List Message → List RedriveStep → Broker → Prop
  | nil {b} : RedriveLoop dlqName targetTopic b [] [] b
  | cons {now} {b b₁ b' : Broker} {msg : Message} {msgs r steps} :
      Returns now (b.log dlqName (.ack msg.id)) (Op.publish (redriveArgs targetTopic msg)).entry r b₁ →
      RedriveLoop dlqName targetTopic b₁ msgs steps b' →
      RedriveLoop dlqName targetTopic b (msg :: msgs) (⟨msg, b.log dlqName (.ack msg.id), r⟩ :: steps) b'

def Ret.isOk : Ret → Bool
  | .published (.ok _) => true
  | _ => false

def redriven (steps : List RedriveStep) : Nat := steps.countP fun s => s.ret.isOk

inductive RedriveDLQ (targetTopic : GoString) (b : Broker) : List RedriveStep → Except GoString Nat → Broker → Prop
  | notFound : b.topics.lookup (redriveNames targetTopic).2 = none →
      RedriveDLQ targetTopic b []
        (.error (ascii "DLQ topic '" ++ (redriveNames targetTopic).2 ++ ascii "' not found")) b
  | done {r msgs steps b₁ b'} :
      b.topics.lookup (redriveNames targetTopic).2 = some r → b.takeMessages r = some (msgs, b₁) →
      RedriveLoop (redriveNames targetTopic).2 (redriveNames targetTopic).1 b₁ msgs steps b' →
      RedriveDLQ targetTopic b steps (.ok (redriven steps)) b'

/-! ## What one publish does to the rest -/

namespace Broker

variable {now : Time} {s₀ b b' : Broker} {p : PublishArgs} {r : Ret} {copies : List Message}
  {n k f : GoString} {t : TopicRef}
  {m : Message}

theorem file_log_ne (e : LogEntry) (h : f ≠ logFilename n) : (b.log n e).file f = b.file f := by
  classical rw [file_log, if_neg fun hc => h hc.1]

theorem file_logs_ne (es : List LogEntry) (h : f ≠ logFilename n) : (b.logs n es).file f = b.file f := by
  induction es generalizing b with
  | nil => rfl
  | cons e es ih => exact (ih (b := b.log n e)).trans (file_log_ne e h)

theorem file_of_storage (h : b'.storage = b.storage) (f : GoString) : b'.file f = b.file f := by
  rw [file, file, h]

/-- What a publish leaves alone: the bindings, the topics of other names, the
log files of other names. -/
structure Spares (b b' : Broker) (names : List GoString) : Prop where
  bindings : b'.bindings = b.bindings
  limits : b'.limits = b.limits
  others : ∀ k, k ∉ names → (b'.topic? k).map shape = (b.topic? k).map shape
  file : ∀ f, (∀ n ∈ names, f ≠ logFilename n) → b'.file f = b.file f

theorem Spares.refl (b : Broker) (names : List GoString) :
    b.Spares b names := ⟨rfl, rfl, fun _ _ => rfl, fun _ _ => rfl⟩

theorem Spares.step (h : b.Spares b' names) (hn : n ∈ names) (h' : b'.Spares c [n]) : b.Spares c names where
  bindings := h'.bindings.trans h.bindings
  limits := h'.limits.trans h.limits
  others k hk := (h'.others k fun hm => hk (mem_singleton.mp hm ▸ hn)).trans (h.others k hk)
  file f hf := (h'.file f fun k hk => hf k (mem_singleton.mp hk ▸ hn)).trans (h.file f hf)

theorem Refused.spares (h : b.Refused b' p) : b.Spares b' [p.topicName] where
  bindings := h.frame.bindings.trans (b.quiet_getOrCreateTopic _ []).bindings
  limits := h.frame.limits.trans (b.quiet_getOrCreateTopic _ []).limits
  others k hk := h.others k (by simpa using hk)
  file f hf := by
    rcases h.storage with hs | ⟨m, -, -, hs⟩
    · exact file_of_storage hs f
    · exact (file_of_storage hs f).trans (file_log_ne _ (hf p.topicName (by simp)))

theorem Admitted.spares (h : b.Admitted now b' p t m) : b.Spares b' [p.topicName] where
  bindings := h.frame.bindings.trans (b.quiet_getOrCreateTopic _ []).bindings
  limits := h.frame.limits.trans (b.quiet_getOrCreateTopic _ []).limits
  others k hk := h.others k (by simpa using hk)
  file f hf := (file_of_storage h.storage f).trans (file_logs_ne _ (hf p.topicName (by simp)))

end Broker

/-- What a redriven message keeps. -/
def Message.contents (m : Message) : List UInt8 × List (GoString × GoString) := (m.payload, m.headers)

section Publish

open Broker (copiesOf)

variable {now : Time} {s₀ b b' : Broker} {p : PublishArgs} {r : Ret} {copies : List Message} {n : GoString}

theorem publish_spares (hg : b.Grouped p.topicName) (h : Returns now b (Op.publish p).entry r b') :
    b.Spares b' (b.tried p.topicName) := by
  refine publish_rule (I := fun c => b.Spares c (b.tried p.topicName)) hg h (.refl _ _)
    (fun _ => ⟨rfl, rfl, fun _ _ => rfl, fun _ _ => rfl⟩) ?_
  intro n hn _ c c' hc htry
  have hone : c.Spares c' [n] := by
    rcases htry with href | ⟨t, m, had⟩
    · exact href.spares
    · exact had.spares
  exact hc.step hn hone

/-- **What a publish does to the copies of its topic**: with an error nothing,
else it adds one, and the one evicted for it is gone. -/
theorem publish_trail (hg : b.Grouped p.topicName) (h : s₀.Trail b copies)
    (hr : Returns now b (Op.publish p).entry r b') :
    ∃ copies', s₀.Trail b' copies' ∧ b.Spares b' (b.tried p.topicName) ∧
      (r.isOk = false ∧ p.topicName ∉ b.admittedBy p ∧ copiesOf p.topicName copies' = copiesOf p.topicName copies ∨
        r.isOk = true ∧ p.topicName ∈ b.admittedBy p ∧ ∃ m : Message, m.contents = (p.payload, p.headers) ∧
          copiesOf p.topicName copies' = m :: (copiesOf p.topicName copies).filter fun c =>
            c ∉ b.evicted p.topicName) := by
  obtain ⟨copies', h', hall⟩ := publish_copies hg h hr
  refine ⟨copies', h', publish_spares hg hr, ?_⟩
  rcases publish_result hg hr with ⟨hin, m, rfl⟩ | ⟨hnot, e, rfl⟩
  · obtain ⟨m', hmade, hnew⟩ := (hall p.topicName).2 hin
    exact .inr ⟨rfl, hin, m', by rw [hmade.message]; rfl, hnew⟩
  · exact .inl ⟨rfl, hnot, (hall p.topicName).1 hnot⟩

end Publish

/-! ## The loop -/

theorem redriveNames_eq (targetTopic : GoString) : (redriveNames targetTopic).2 =
    dlqName (redriveNames targetTopic).1 := by
  unfold redriveNames
  by_cases h : hasSuffix targetTopic (ascii ".dlq") = true
  · obtain ⟨t, rfl⟩ := hasSuffix_iff.mp h
    simp [h, trimSuffix, dlqName]
  · simp [h]

/-- A publish to a topic leaves its dead letter queue alone, the topic and
the log. -/
theorem Broker.Grouped.dlq_apart {b : Broker} (hg : b.Grouped T) :
    dlqName T ∉ b.tried T ∧ ∀ n ∈ b.tried T, logFilename (dlqName T) ≠ logFilename n := by
  have hfile : ∀ n ∈ b.tried T, topicToFilename (dlqName T) ≠ topicToFilename n := by
    intro n hn he
    have hown : topicToFilename (dlqName T) ≠ topicToFilename T := by
      rw [topicToFilename_dlqName]
      intro he
      have := congrArg List.length he
      simp [ascii_dlq] at this
    unfold tried at hn
    split at hn
    · cases hn
    · split at hn
      · rw [mem_singleton.mp hn] at he
        exact hown he
      next hgroup =>
        rcases mem_append.mp hn with hn | hn
        · -- A bound topic has the colons, and its file name too.
          have hcolons := contains_iff.mp (hg.2 n ((b.env.order_perm _ _).mem_iff.mp hn))
          rw [← colons_infix_topicToFilename, ← he, colons_infix_topicToFilename,
            colons_infix_dlqName] at hcolons
          exact hgroup (contains_iff.mpr hcolons)
        · rw [mem_singleton.mp hn] at he
          exact hown he
  exact ⟨fun hmem => hfile _ hmem rfl, fun n hn he => hfile n hn (append_cancel_right he)⟩

/-- What a round must find: the topic admits the publish, and what it evicts
for it is not a message redriven before. -/
def RedriveStep.Smooth (s₀ : Broker) (T : GoString) (s : RedriveStep) : Prop :=
  T ∈ s.before.admittedBy (redriveArgs T s.msg) ∧ ∀ e ∈ s.before.evicted T, ¬ s₀.Since s.before e.id

open Broker (copiesOf) in
/-- What the loop has done. -/
structure Redriven (s₀ : Broker) (T : GoString) (b : Broker) (msgs : List Message)
    (steps : List RedriveStep) (copies : List Message)
    (b' : Broker) (copies' : List Message) : Prop where
  trail : s₀.Trail b' copies'
  same : steps.map RedriveStep.msg = msgs
  admitted : ∀ s ∈ steps, s.ret.isOk = true ↔ T ∈ s.before.admittedBy (redriveArgs T s.msg)
  length : (copiesOf T copies').length ≤ (copiesOf T copies).length + redriven steps
  kept : (copiesOf T copies').length = (copiesOf T copies).length + redriven steps →
    ∀ s ∈ steps, s.ret.isOk = true → ∀ e ∈ s.before.evicted T, ¬ s₀.Since s.before e.id
  contents : (∀ s ∈ steps, s.Smooth s₀ T) →
    ((copiesOf T copies').map contents).Perm
      (msgs.map contents ++ (copiesOf T copies).map contents)
  dlq : (b'.topic? (dlqName T)).map shape = (b.topic? (dlqName T)).map shape
  log : ∃ acks, b'.file (logFilename (dlqName T)) = b.file (logFilename (dlqName T)) ++ acks ∧
    ∀ e ∈ acks, ∃ m ∈ msgs, e = .ack m.id

section Loop

open Broker (copiesOf)

variable {s₀ b b' : Broker} {T : GoString} {msgs copies : List Message} {steps : List RedriveStep}

/-- One round counted: at most one more copy, one more exactly when it was
admitted and no copy was evicted for it. -/
theorem publish_round {p : PublishArgs} {r} (hT : p.topicName = T)
    (hg : b.Grouped T) (h : s₀.Trail b copies) (hr : Returns now b (Op.publish p).entry r b') :
    ∃ copies', s₀.Trail b' copies' ∧ b.Spares b' (b.tried T) ∧ (r.isOk = true ↔ T ∈ b.admittedBy p) ∧
      (copiesOf T copies').length ≤ (copiesOf T copies).length + (if r.isOk then 1 else 0) ∧
      ((copiesOf T copies').length = (copiesOf T copies).length + (if r.isOk then 1 else 0) → r.isOk = true →
        ∀ e ∈ b.evicted T, ¬ s₀.Since b e.id) ∧ (r.isOk = true → (∀ e ∈ b.evicted T, ¬ s₀.Since b e.id) →
        ∃ m : Message, m.contents = (p.payload, p.headers) ∧ copiesOf T copies' = m :: copiesOf T copies) := by
  subst hT
  obtain ⟨copies', h', hspares, hcase⟩ := publish_trail hg h hr
  refine ⟨copies', h', hspares, ?_⟩
  rcases hcase with ⟨hok, hnot, hsame⟩ | ⟨hok, hin, m, hcontents, hnew⟩
  · simp [hok, hnot, hsame]
  · rw [hok, if_pos rfl, hnew, length_cons]
    have hle := length_filter_le (fun c => decide (c ∉ b.evicted p.topicName))
      (copiesOf p.topicName copies)
    refine ⟨by simp [hin], by omega, fun heq _ e he hs => ?_, fun _ hkept => ⟨m, hcontents, congrArg (m :: ·) ?_⟩⟩
    · -- A copy that was evicted is missing in the count.
      have hlt : ((copiesOf p.topicName copies).filter fun c => decide (c ∉ b.evicted p.topicName)).length <
          (copiesOf p.topicName copies).length :=
        length_filter_lt_length_iff_exists.mpr ⟨e, h.mem_copiesOf he hs, by simpa using he⟩
      omega
    · rw [filter_eq_self]
      exact fun c hc => decide_eq_true fun hev => hkept c hev (h.since c (mem_filter.mp hc).1)

theorem loop_redriven (h : RedriveLoop (dlqName T) T b msgs steps b') (hg : b.Grouped T)
    (htrail : s₀.Trail b copies) : ∃ copies', Redriven s₀ T b msgs steps copies b' copies' := by
  induction h generalizing copies with
  | nil => exact ⟨copies, htrail, rfl, by simp, by simp, by simp, by simp, rfl, [], by simp, by simp⟩
  | @cons now b b₁ b' msg msgs r steps hret _ ih =>
    -- The ack, then the publish, then the other rounds.
    have hack : s₀.Trail (b.log (dlqName T) (.ack msg.id)) copies :=
      htrail.of_zones rfl (Nat.le_refl _) (fun z => by cases z <;> rfl) fun hn => hn
    have hg' : (b.log (dlqName T) (.ack msg.id)).Grouped T := hg
    obtain ⟨copies₁, h₁, hspares, hadmitted, hlen₁, hkept₁, hnew₁⟩ :=
      publish_round (show (redriveArgs T msg).topicName = T from rfl) hg' hack hret
    obtain ⟨hnot, hfiles⟩ := hg'.dlq_apart
    have hg₁ : b₁.Grouped T := by
      unfold Grouped
      rw [hspares.bindings]
      exact hg'
    obtain ⟨copies₂, h₂⟩ := ih hg₁ h₁
    have hlen₂ := h₂.length
    have hcount : redriven (⟨msg, b.log (dlqName T) (.ack msg.id), r⟩ :: steps) =
      redriven steps + if r.isOk then 1 else 0 :=
      countP_cons ..
    refine ⟨copies₂, {
      trail := h₂.trail
      same := by rw [map_cons, h₂.same]
      admitted := fun s hs => ?_
      length := by rw [hcount]; omega
      kept := fun heq s hs hok => ?_
      contents := fun hsmooth => ?_
      dlq := h₂.dlq.trans (hspares.others _ hnot)
      log := ?_ }⟩
    · rcases mem_cons.mp hs with rfl | hs
      · exact hadmitted
      · exact h₂.admitted s hs
    · rw [hcount] at heq
      rcases mem_cons.mp hs with rfl | hs
      · exact hkept₁ (by omega) hok
      · exact h₂.kept (by omega) s hs hok
    · obtain ⟨hin, hkept⟩ := hsmooth _ mem_cons_self
      obtain ⟨m, hm, hcopies⟩ := hnew₁ (hadmitted.mpr hin) hkept
      have hperm := h₂.contents fun s hs => hsmooth s (mem_cons_of_mem _ hs)
      rw [hcopies, map_cons, hm] at hperm
      exact hperm.trans perm_middle
    · obtain ⟨acks, hacks, hall⟩ := h₂.log
      have hmore : ∀ e ∈ acks, ∃ m ∈ msg :: msgs, e = .ack m.id := fun e he => by
        obtain ⟨m, hm, he⟩ := hall e he
        exact ⟨m, mem_cons_of_mem _ hm, he⟩
      classical
      rw [hspares.file _ hfiles, file_log] at hacks
      split at hacks
      · refine ⟨.ack msg.id :: acks, by simpa using hacks, fun e he => ?_⟩
        rcases mem_cons.mp he with rfl | he
        · exact ⟨msg, mem_cons_self, rfl⟩
        · exact hmore e he
      · exact ⟨acks, hacks, hmore⟩

end Loop

/-! ## Conservation -/

/-- **Redrive conserves messages**: `k` of the messages of the dead letter
queue are with the target now, each once and with its payload and headers,
and the others are where they were, in the queue and in the log. -/
def Conserves (b : Broker) (T : GoString) (k : Nat) (b' : Broker) : Prop :=
  ∃ moved rest copies : List Message, (b.queue (dlqName T)).Perm (moved ++ rest) ∧ moved.length = k ∧
    b.Gains b' T copies ∧ copies.Nodup ∧ (copies.map contents).Perm (moved.map contents) ∧
    (b'.queue (dlqName T)).Perm rest ∧
    ∀ m ∈ rest, (∃ m' ∈ replay (b.file (logFilename (dlqName T))), m'.id = m.id) →
      ∃ m' ∈ replay (b'.file (logFilename (dlqName T))), m'.id = m.id

section Conserves

open Broker (copiesOf)

variable {b b' b₁ : Broker} {T : GoString} {r : TopicRef} {msgs : List Message}

theorem Broker.takeMessages_eq_some (h : b.takeMessages r = some (msgs, b₁))
    (hT : b.topics.lookup (dlqName T) = some r) : ∃ t, b.topic? (dlqName T) = some t ∧ msgs = t.messages ∧
      b₁.queue (dlqName T) = t.highMessages ++ t.lowMessages ∧
      b₁.storage = b.storage ∧ b₁.bindings = b.bindings ∧ (b.Fresh → b.Trail b₁ []) ∧
      ∀ n, n ≠ dlqName T → b₁.queue n = b.queue n := by
  obtain ⟨t, ht, h⟩ := map_eq_some_iff.mp h
  have htopic : b.topic? (dlqName T) = some t := by simp [topic?, hT, (lock_eq_some.mp ht).1]
  rw [Prod.mk.injEq] at h
  obtain ⟨rfl, hb₁⟩ := h
  refine ⟨t, htopic, rfl, ?_⟩
  split at hb₁
  next hnil =>
    subst hb₁
    rw [queue_eq, htopic]
    refine ⟨?_, rfl, rfl, .refl, fun _ _ => rfl⟩
    simp [Topic.queued, length_eq_zero_iff.mp hnil]
  next =>
    subst hb₁
    have hqueued : ∀ r', (b.setTopic r { t with messages := [] }).queued r' =
        if r' = r then t.highMessages ++ t.lowMessages else b.queued r' := by
      intro r'
      rw [queued_setTopic ht]
      simp [Topic.queued]
    have hless : ∀ z, (b.setTopic r { t with messages := [] }).zone [] z ⊆ b.zone [] z := by
      intro z m hm
      cases z with
      | queue r' =>
        rw [zone, hqueued] at hm
        split at hm
        next hr =>
          subst hr
          rw [zone, queued_of_lock ht, Topic.queued]
          rcases mem_append.mp hm with hm | hm <;> simp [hm]
        · exact hm
      | chan ch | hand => exact hm
    refine ⟨?_, rfl, rfl, fun hfresh => ?_, fun n hn => ?_⟩
    · have hlookup : (b.setTopic r { t with messages := [] }).topics.lookup (dlqName T) = some r := hT
      rw [queue, hlookup, map_some, getD_some, hqueued, if_pos rfl]
    · exact ⟨rfl, Nat.le_refl _, fun z m hm => hfresh z m (hless z hm), fun z m hm hs => by
        obtain ⟨k, hle, hlt, -⟩ := hs
        exact absurd hlt (Nat.not_lt.mpr hle), by simp, by simp, by simp⟩
    · show ((b.topics.lookup n).map (b.setTopic r { t with messages := [] }).queued).getD [] = b.queue n
      cases hl : b.topics.lookup n with
      | none => simp [queue, hl]
      | some r' => simp [queue, hl, hqueued, lookup_ne_of_ne hl hT hn]

/-- **When redrive conserves messages**: exactly when every round finds a
target that admits the message and evicts none redriven before. -/
theorem redrive_conserves_iff {targetTopic : GoString} {k : Nat} {steps : List RedriveStep}
    (hT : (redriveNames targetTopic).1 = T) (hfresh : b.Fresh) (hg : b.Grouped T)
    (hids : ∀ t, b.topic? (dlqName T) = some t → ∀ m ∈ t.messages, ∀ m' ∈ t.highMessages ++ t.lowMessages, m.id ≠ m'.id)
    (h : RedriveDLQ targetTopic b steps (.ok k) b') : Conserves b T k b' ↔ ∀ s ∈ steps, s.Smooth b T := by
  obtain ⟨r, msgs, b₁, hlookup, htake, hloop, rfl⟩ :
    ∃ r msgs b₁, b.topics.lookup (redriveNames targetTopic).2 = some r ∧
      b.takeMessages r = some (msgs, b₁) ∧ RedriveLoop (redriveNames targetTopic).2
        (redriveNames targetTopic).1 b₁ msgs steps b' ∧
      k = redriven steps := by
    cases h with
    | done hlookup htake hloop => exact ⟨_, _, _, hlookup, htake, hloop, rfl⟩
  rw [redriveNames_eq, hT] at hlookup hloop
  obtain ⟨t, htopic, rfl, hqueue₁, hstorage, hbindings, htrail, -⟩ := takeMessages_eq_some htake hlookup
  have hg₁ : b₁.Grouped T := by
    unfold Grouped
    rw [hbindings]
    exact hg
  obtain ⟨copies', hred⟩ := loop_redriven hloop hg₁ (htrail hfresh)
  have hbefore : (b.queue (dlqName T)).Perm (t.messages ++ (t.highMessages ++ t.lowMessages)) := by
    rw [queue_eq, htopic]
    simp only [map_some, getD_some, Topic.queued, append_assoc]
    exact perm_append_comm_assoc _ _ _
  have hafter : b'.queue (dlqName T) = t.highMessages ++ t.lowMessages :=
    (queue_of_shape hred.dlq).trans hqueue₁
  have hsteps : steps.length = t.messages.length := by rw [← hred.same, length_map]
  have hall : redriven steps = steps.length ↔ ∀ s ∈ steps, s.ret.isOk = true := countP_eq_length
  have hnodup : (copiesOf T copies').Nodup := (Nodup.of_map _ hred.trail.nodup).filter _
  constructor
  · rintro ⟨moved, rest, copies, hsplit, hk, hgains, hcopies, hcontents, hrest, -⟩
    -- All were counted, since none is left behind.
    have hlen := hsplit.length_eq.symm.trans hbefore.length_eq
    rw [hafter] at hrest
    have hrest := hrest.length_eq
    simp only [length_append] at hlen hrest
    have hok := hall.mp (by omega)
    have hsame : copies.Perm (copiesOf T copies') := by
      refine (perm_ext_iff_of_nodup hcopies hnodup).mpr fun m => ⟨fun hm => ?_, fun hm => ?_⟩
      · obtain ⟨z, hz, -⟩ := hgains.once m hm
        obtain ⟨hs, ht⟩ := hgains.made m hm
        exact mem_filter.mpr ⟨hred.trail.all z m hz hs, decide_eq_true ht⟩
      · obtain ⟨hm, ht⟩ := mem_filter.mp hm
        obtain ⟨z, hz, -⟩ := hred.trail.once m hm
        exact hgains.all z m hz (hred.trail.since m hm) (of_decide_eq_true ht)
    have hcount := hcontents.length_eq
    rw [length_map, length_map, hsame.length_eq] at hcount
    have hkept := hred.kept (by simp only [copiesOf, filter_nil, length_nil] at hcount ⊢; omega)
    exact fun s hs => ⟨(hred.admitted s hs).mp (hok s hs), hkept s hs (hok s hs)⟩
  · intro hsmooth
    have hok := hall.mpr fun s hs => (hred.admitted s hs).mpr (hsmooth s hs).1
    refine ⟨t.messages, t.highMessages ++ t.lowMessages, copiesOf T copies', hbefore,
      by omega, hred.trail.gains T, hnodup, ?_,
      by rw [hafter], fun m hm hlive => ?_⟩
    · simpa [copiesOf] using hred.contents hsmooth
    · obtain ⟨acks, hacks, hof⟩ := hred.log
      rw [file_of_storage hstorage] at hacks
      rw [mem_replay_iff] at hlive ⊢
      rw [hacks, map_append, KeyedLog.final_append_of_ne]
      · exact hlive
      · intro e he
        obtain ⟨ack, hack, rfl⟩ := List.mem_map.mp he
        obtain ⟨m', hm', rfl⟩ := hof ack hack
        exact hids t htopic m' hm' m hm

end Conserves

/-! ## A target that is full -/

/-- A broker whose queues have room for `max` messages, with a message in the
topic `t` and one in its dead letter queue. -/
def deadLetterBroker (max : Nat) (h : 0 < max := by decide) : Broker :=
  ((new ⟨max, 10, h, Limits.ten_pos⟩ .reject false none .sample fun _ => ⟨1, []⟩).addTopic
    ((create (ascii "t") .reject).append .normal (samplePublish.message [98] 0 0))).addTopic
      ((create (ascii "t.dlq") .reject).append .normal (samplePublish.message [99] 0 0))

/-- The broker on which its dead letter is published, and that publish. -/
def redriveRun (max : Nat) (h : 0 < max := by decide) : Option (Broker × Ret × Broker) := do
  let (_, b) ← (deadLetterBroker max h).takeMessages 1
  let b := b.log (ascii "t.dlq") (.ack [99])
  let (r, b') ← Call.run 0 20 b (Op.publish (redriveArgs (ascii "t") (samplePublish.message [99] 0 0))).entry
  return (b, r, b')

theorem redriveRun_redrives {max h b b' r} (hrun : redriveRun max h = some (b, r, b')) :
    RedriveDLQ (ascii "t") (deadLetterBroker max h) [⟨samplePublish.message [99] 0 0, b, r⟩]
      (.ok (redriven [⟨samplePublish.message [99] 0 0, b, r⟩])) b' := by
  have hlookup : (deadLetterBroker max h).topics.lookup (redriveNames (ascii "t")).2 = some 1 := rfl
  have htake : (deadLetterBroker max h).takeMessages 1 = some ([samplePublish.message [99] 0 0],
      (deadLetterBroker max h).setTopic 1 (.create (ascii "t.dlq") .reject)) := rfl
  simp only [redriveRun, htake, bind_eq_bind, bind_some] at hrun
  obtain ⟨⟨r₁, b₁⟩, hcall, hpure⟩ := bind_eq_some_iff.mp hrun
  cases hpure
  exact .done hlookup htake (.cons (Call.run_returns hcall) .nil)

/-- With room for one message the target is full: the redrive returns
`(0, nil)` and the message is gone. -/
theorem redrive_loses : ∃ steps b', RedriveDLQ (ascii "t") (deadLetterBroker 1) steps (.ok 0) b' ∧
    ¬ Conserves (deadLetterBroker 1) (ascii "t") 0 b' := by
  let res := (redriveRun 1).get (by decide +kernel)
  have hrun : redriveRun 1 = some (res.1, res.2.1, res.2.2) :=
    (some_get (by decide +kernel)).symm
  have hzero : redriven [⟨samplePublish.message [99] 0 0, res.1, res.2.1⟩] = 0 := by
    have : res.2.1.isOk = false := by decide +kernel
    simp [redriven, this]
  have hred := redriveRun_redrives hrun
  rw [hzero] at hred
  refine ⟨_, _, hred, ?_⟩
  rintro ⟨moved, rest, copies, hsplit, hk, -, -, -, hrest, -⟩
  have hbefore : ((deadLetterBroker 1).queue (dlqName (ascii "t"))).length = 1 := by decide +kernel
  have hafter : (res.2.2.queue (dlqName (ascii "t"))).length = 0 := by decide +kernel
  rw [hsplit.length_eq, length_append, hk, ← hrest.length_eq] at hbefore
  omega

theorem deadLetterBroker_fresh : (deadLetterBroker 2).Fresh := by
  intro z m hm k _ he
  have hhead : m.id.head? = some 97 := by rw [← he]; rfl
  match z, hm with
  | .queue 0, hm => rw [mem_singleton.mp hm] at hhead; cases hhead
  | .queue 1, hm => rw [mem_singleton.mp hm] at hhead; cases hhead
  | .queue (_ + 2), hm => cases hm
  | .chan _, hm => cases hm
  | .hand, hm => cases hm

/-- With room for two the message comes over. -/
theorem redrive_conserves_sample : ∃ steps k b', RedriveDLQ (ascii "t") (deadLetterBroker 2) steps (.ok k) b' ∧
    Conserves (deadLetterBroker 2) (ascii "t") k b' := by
  let res := (redriveRun 2).get (by decide +kernel)
  have hrun : redriveRun 2 = some (res.1, res.2.1, res.2.2) :=
    (some_get (by decide +kernel)).symm
  have hred := redriveRun_redrives hrun
  have hg : (deadLetterBroker 2).Grouped (ascii "t") := ⟨nodup_nil, fun d hd => by cases hd⟩
  have hids : ∀ t, (deadLetterBroker 2).topic? (dlqName (ascii "t")) = some t →
      ∀ m ∈ t.messages, ∀ m' ∈ t.highMessages ++ t.lowMessages, m.id ≠ m'.id := by
    intro t ht m _ m' hm'
    cases ht
    cases hm'
  refine ⟨_, _, _, hred, (redrive_conserves_iff (by decide) deadLetterBroker_fresh hg hids hred).mpr fun s hs => ?_⟩
  rw [mem_singleton.mp hs]
  have hnone : res.1.evicted (ascii "t") = [] := by decide +kernel
  exact ⟨by decide +kernel, by rw [hnone]; simp⟩

/-! ## The footprint of a redrive -/

section Footprint

open Broker (copiesOf)

variable {now : Time} {s₀ b b' : Broker} {p : PublishArgs} {n T D : GoString} {r : Ret} {msgs copies : List Message}
  {steps : List RedriveStep}

theorem publish_queue (hg : b.Grouped p.topicName) (h : Returns now b (Op.publish p).entry r b')
    (hn : n ∉ b.admittedBy p) : b'.queue n = b.queue n := by
  refine publish_fold (I := fun c acc => n ∉ acc → c.queue n = b.queue n) hg h (fun _ => rfl) (fun _ _ => rfl) ?_ ?_ hn
  · intro k _ _ c c' acc hc href hnot
    exact (href.queue n).trans (hc hnot)
  · intro k _ _ c c' acc t m _ _ _ hc had hnot
    rw [mem_append, not_or, mem_singleton] at hnot
    exact (queue_of_shape (had.others n hnot.2)).trans (hc hnot.1)

/-- A name that admits none of the messages gains nothing, and one that
admits any keeps a copy. -/
theorem RedriveLoop.trail (h : RedriveLoop D T b msgs steps b') (hg : b.Grouped T) (htrail : s₀.Trail b copies) :
    ∃ copies', s₀.Trail b' copies' ∧ (∀ s ∈ steps, s.before.bindings = b.bindings) ∧ ∀ n,
      ((∀ s ∈ steps, n ∉ s.before.admittedBy (redriveArgs T s.msg)) →
        copiesOf n copies' = copiesOf n copies ∧ b'.queue n = b.queue n) ∧
      ((copiesOf n copies ≠ [] ∨ ∃ s ∈ steps, n ∈ s.before.admittedBy (redriveArgs T s.msg)) →
        copiesOf n copies' ≠ []) := by
  induction h generalizing copies with
  | nil => exact ⟨copies, htrail, by simp, by simp⟩
  | @cons now b b₁ b' msg msgs r steps hret _ ih =>
    have hack : s₀.Trail (b.log D (.ack msg.id)) copies :=
      htrail.of_zones rfl (Nat.le_refl _) (fun z => by cases z <;> rfl) fun hn => hn
    have hg' : (b.log D (.ack msg.id)).Grouped (redriveArgs T msg).topicName := hg
    obtain ⟨copies₁, h₁, hall₁⟩ := publish_copies hg' hack hret
    have hbindings : b₁.bindings = b.bindings := (publish_spares hg' hret).bindings
    obtain ⟨copies', h', hsame, hall⟩ := ih (by unfold Grouped; rw [hbindings]; exact hg) h₁
    refine ⟨copies', h', ?_, fun n => ⟨fun hnone => ?_, fun hsome => (hall n).2 ?_⟩⟩
    · simp only [mem_cons, forall_eq_or_imp]
      exact ⟨rfl, fun s hs => (hsame s hs).trans hbindings⟩
    · rw [forall_mem_cons] at hnone
      obtain ⟨hcopies, hqueue⟩ := (hall n).1 hnone.2
      have hfirst : b₁.queue n = (b.log D (.ack msg.id)).queue n := publish_queue hg' hret hnone.1
      exact ⟨hcopies.trans ((hall₁ n).1 hnone.1), hqueue.trans hfirst⟩
    · by_cases hin : n ∈ (b.log D (.ack msg.id)).admittedBy (redriveArgs T msg)
      · obtain ⟨m, -, hm⟩ := (hall₁ n).2 hin
        exact .inl (by simp [hm])
      · rw [(hall₁ n).1 hin]
        simpa [hin] using hsome

/-- **When a redrive touches only the dead letter queue and its target**:
exactly when each message is admitted by the target only, since it is
published anew and a publish fans out. So it is where no group is bound to
the target, and where the dead letter queue is missing or has no messages of
normal priority. -/
theorem redrive_footprint_iff {targetTopic result} (hT : (redriveNames targetTopic).1 = T) (hfresh : b.Fresh)
    (hg : b.Grouped T) (h : RedriveDLQ targetTopic b steps result b') :
    ((∀ n, n ≠ T → n ≠ dlqName T → b'.queue n = b.queue n ∧ b.Gains b' n []) ↔
      ∀ s ∈ steps, ∀ n ∈ s.before.admittedBy (redriveArgs T s.msg), n = T) ∧
    (b.Unbound T ∨ (∀ t, b.topic? (dlqName T) = some t → t.messages = []) →
      ∀ s ∈ steps, ∀ n ∈ s.before.admittedBy (redriveArgs T s.msg), n = T) := by
  cases h with
  | notFound => exact ⟨⟨fun _ => by simp, fun _ n _ _ => ⟨rfl, (Trail.refl hfresh).gains n⟩⟩, by simp⟩
  | @done r msgs steps b₁ b' hlookup htake hloop =>
    rw [redriveNames_eq, hT] at hlookup hloop
    obtain ⟨t, htopic, rfl, -, -, hbindings, htrail, hqueue⟩ := takeMessages_eq_some htake hlookup
    obtain ⟨copies, htr, hsame, hall⟩ := hloop.trail (by unfold Grouped; rw [hbindings]; exact hg) (htrail hfresh)
    have hbound : ∀ s ∈ steps, s.before.bindings = b.bindings := fun s hs => (hsame s hs).trans hbindings
    refine ⟨⟨fun h s hs n hn => by_contra fun hne => ?_, fun h n hne hdlq => ?_⟩, ?_⟩
    · have hgs : s.before.Grouped T := by unfold Grouped; rw [hbound s hs]; exact hg
      have hdlq : n ≠ dlqName T := fun he => hgs.dlq_apart.1 (he ▸ (admittedNames_sublist ..).subset hn)
      obtain ⟨m, hm⟩ := exists_mem_of_ne_nil _ ((hall n).2 (.inr ⟨s, hs, hn⟩))
      obtain ⟨hm, hmn⟩ := mem_filter.mp hm
      obtain ⟨z, hz, -⟩ := htr.once m hm
      cases (h n hne hdlq).2.all z m hz (htr.since m hm) (of_decide_eq_true hmn)
    · obtain ⟨hcopies, hq⟩ := (hall n).1 fun s hs hn => hne (h s hs n hn)
      have hgains : b.Gains b' n (copiesOf n copies) := htr.gains n
      rw [hcopies] at hgains
      exact ⟨hq.trans (hqueue n hdlq), hgains⟩
    · rintro (hu | hnil) s hs n hn
      · have hn : n ∈ s.before.tried T := (admittedNames_sublist ..).subset hn
        rcases hu with hgroup | hnone
        · rw [tried, if_pos hgroup] at hn
          split at hn
          · cases hn
          · exact mem_singleton.mp hn
        · simpa [hbound s hs, hnone] using tried_subset hn
      · rw [hnil t htopic] at hloop
        cases hloop
        cases hs

end Footprint

/-- A dead letter of the topic `t`, to which the group `g` is bound. -/
def boundDeadLetter : Broker := (deadLetterBroker 2).bind (ascii "t") (ascii "t::g")

/-- The redrive publishes to the group too. -/
theorem redrive_fans_out : ∃ steps k b', RedriveDLQ (ascii "t") boundDeadLetter steps (.ok k) b' ∧
    boundDeadLetter.queue (ascii "t::g") = [] ∧ (b'.queue (ascii "t::g")).length = 1 := by
  have htake : boundDeadLetter.takeMessages 1 = some ([samplePublish.message [99] 0 0],
      boundDeadLetter.setTopic 1 (.create (ascii "t.dlq") .reject)) := rfl
  exact ⟨_, _, _, .done rfl htake (.cons (returns_get 0 _ _) .nil), by decide +kernel, by decide +kernel⟩

theorem redrive_footprint_sample : ∃ steps k b', RedriveDLQ (ascii "t") (deadLetterBroker 2) steps (.ok k) b' ∧
    steps ≠ [] ∧ b'.queue (ascii "u") = (deadLetterBroker 2).queue (ascii "u") := by
  have hred := redriveRun_redrives (some_get (x := redriveRun 2) (by decide +kernel)).symm
  have hiff :=
    redrive_footprint_iff (T := ascii "t") (by decide) deadLetterBroker_fresh ⟨nodup_nil, fun d hd => by cases hd⟩ hred
  exact ⟨_, _, _, hred, by simp, (hiff.1.mpr (hiff.2 (.inl (.inr rfl))) _ (by decide) (by decide)).1⟩

end TinyMQ
