/-
The order in which messages are handed over.

Every queue is in the order in which its messages were appended, and
`Consume` takes from its front. A push does not: it sends the message of its
own `Publish`, whatever is before it in the queue. So the messages of a topic
are handed over in their order where a push sends what is first in the
queue, and likewise to a spy where no push of an earlier message has still
to send to it.
-/
import TinyMQ.Deliveries
import TinyMQ.Lib.Fifo

namespace TinyMQ

open List Option Broker Topic Message

variable {b : Broker} {pr : Priority}

/-! ## The queues of a topic -/

namespace Topic

variable {id : GoString} {results : List Message}

variable {t t' : Topic} {m : Message} {pr : Priority}

/-- Messages have left the queues, and the others are in their order. -/
structure Within (t t' : Topic) : Prop where
  high : t'.highMessages.Sublist t.highMessages
  normal : t'.messages.Sublist t.messages
  low : t'.lowMessages.Sublist t.lowMessages

/-- All messages are of one priority. -/
structure Uniform (pr : Priority) (t : Topic) : Prop where
  high : pr ≠ .high → t.highMessages = []
  normal : pr ≠ .normal → t.messages = []
  low : pr ≠ .low → t.lowMessages = []

theorem Within.refl (t : Topic) : t.Within t := ⟨.refl _, .refl _, .refl _⟩

theorem Within.queued (h : t.Within t') : t'.queued.Sublist t.queued := (h.high.append h.normal).append h.low

theorem Within.uniform (h : t.Within t') (hu : t.Uniform pr) : t'.Uniform pr where
  high hp := sublist_nil.mp (hu.high hp ▸ h.high)
  normal hp := sublist_nil.mp (hu.normal hp ▸ h.normal)
  low hp := sublist_nil.mp (hu.low hp ▸ h.low)

theorem Uniform.queued_append (hu : t.Uniform pr) (m : Message) : (t.append pr m).queued = t.queued ++ [m] := by
  cases pr with
  | high => simp [append, queued, hu.normal (by decide), hu.low (by decide)]
  | normal => simp [append, queued, hu.high (by decide), hu.low (by decide)]
  | low => simp [append, queued]

theorem Uniform.append (hu : t.Uniform pr) (m : Message) : (t.append pr m).Uniform pr := by
  cases pr with
  | high => exact ⟨nofun, hu.normal, hu.low⟩
  | normal => exact ⟨hu.high, nofun, hu.low⟩
  | low => exact ⟨hu.high, hu.normal, nofun⟩

theorem evictOldest_within (h : t.evictOldest = some (m, t')) : t.Within t' := by
  unfold evictOldest at h
  split at h
  next rest hl =>
    cases h
    exact ⟨.refl _, .refl _, hl ▸ sublist_cons_self _ _⟩
  · split at h
    next rest hm =>
      cases h
      exact ⟨.refl _, hm ▸ sublist_cons_self _ _, .refl _⟩
    · split at h
      next rest hh =>
        cases h
        exact ⟨hh ▸ sublist_cons_self _ _, .refl _, .refl _⟩
      · cases h

theorem removeFrom_sublist {queue rest} (h : removeFrom id queue = some rest) : rest.Sublist queue := by
  induction queue generalizing rest with
  | nil => cases h
  | cons m queue ih =>
    simp only [removeFrom] at h
    split at h
    · cases h
      exact sublist_cons_self _ _
    · obtain ⟨rest', hrest, rfl⟩ := map_eq_some_iff.mp h
      exact (ih hrest).cons_cons m

theorem remove?_within (h : t.remove? id = some t') : t.Within t' := by
  unfold remove? at h
  split at h
  next q hq => cases h; exact ⟨removeFrom_sublist hq, .refl _, .refl _⟩
  · split at h
    next q hq => cases h; exact ⟨.refl _, removeFrom_sublist hq, .refl _⟩
    · obtain ⟨q, hq, rfl⟩ := map_eq_some_iff.mp h
      exact ⟨.refl _, .refl _, removeFrom_sublist hq⟩

theorem removeMessageByID_within (t : Topic) (id : GoString) : t.Within (t.removeMessageByID id) := by
  unfold removeMessageByID
  cases h : t.remove? id with
  | none => exact .refl t
  | some t' => exact remove?_within h

/-! ### Extraction -/

theorem extractMessages_within (h : t.extractMessages limit now = (results, ids, t')) : t.Within t' := by
  obtain ⟨high, high', normal, normal', low, low', hh, hn, hl, -, -, rfl, -⟩ := extractMessages_scans h
  exact ⟨hh ▸ filter_sublist.append_right _, hn ▸ filter_sublist.append_right _,
    hl ▸ filter_sublist.append_right _⟩

/-- **Extraction takes from the front**, where nothing is delayed. -/
theorem extractMessages_fronts (h : t.extractMessages limit now = (results, ids, t'))
    (hdel : ∀ m ∈ t.queued, m.delayed now = false) : (results ++ t'.queued).Sublist t.queued := by
  obtain ⟨seen, rest, hq, hq', rfl, -⟩ := extractMessages_cut h
  have hkept : sentTo .kept now seen = [] := by
    refine filter_eq_nil_iff.mpr fun m hm hkept => ?_
    have := hdel m (hq ▸ mem_append_left _ hm)
    rw [delayed_of_kept (of_decide_eq_true hkept)] at this
    cases this
  rw [hq', hkept, hq]
  exact filter_sublist.append_right rest

end Topic

/-- A publish of the priority `pr` without a delay, or a call that appends
nothing. -/
def Pc.Plain (pr : Priority) : Pc → Prop
  | .publish left a k => .ofString a.priority = pr ∧ a.deliverAt = none ∧
    (∀ m ∈ (Pc.publish left a k).draft, m.deliverAt = none) ∧ ∀ t wildcards m, k ≠ .store t wildcards m true
  | .requeue _ => False
  | .requeuePut _ _ => False
  | .requeueAt _ _ => False
  | _ => True

/-- **A section appends a message at the end of the queue**, or the queue
loses messages. -/
theorem TopicMove.order (h : TopicMove now b sec r t t') (hu : t.Uniform pr)
    (hplain : ∀ pc, sec = .call pc → pc.Plain pr) :
    t'.Uniform pr ∧ (t'.queued.Sublist t.queued ∨ ∃ pc m queue, sec = .call pc ∧ pc.appends b = some (r, m) ∧
      queue.Sublist t.queued ∧ t'.queued = queue ++ [m]) := by
  have hwithin : t.Within t' → t'.Uniform pr ∧ (t'.queued.Sublist t.queued ∨ ∃ pc m queue, sec = .call pc ∧
      pc.appends b = some (r, m) ∧ queue.Sublist t.queued ∧ t'.queued = queue ++ [m]) :=
    fun hw => ⟨hw.uniform hu, .inl hw.queued⟩
  cases h with
  | @store left p r ws m isDelayed t hdel hlt happ =>
    obtain ⟨hpr, -⟩ := hplain _ rfl
    rw [hpr]
    exact ⟨hu.append m, .inr ⟨_, m, _, rfl, happ, .refl _, hu.queued_append m⟩⟩
  | @evict left p r ws m oldest isDelayed t t₁ hdel hge hev happ =>
    obtain ⟨hpr, -⟩ := hplain _ rfl
    have hw := evictOldest_within hev
    rw [hpr]
    exact ⟨(hw.uniform hu).append m, .inr ⟨_, m, _, rfl, happ, hw.queued, (hw.uniform hu).queued_append m⟩⟩
  | remove => exact hwithin (removeMessageByID_within _ _)
  | scan hx | target hx hne => exact hwithin (extractMessages_within hx)
  | register hx =>
    have hw := extractMessages_within hx
    exact hwithin ⟨hw.high, hw.normal, hw.low⟩
  | ack hr => exact hwithin (remove?_within hr)
  | requeue | requeueSent | requeueMissed => exact (hplain _ rfl).elim
  | purge => exact hwithin ⟨nil_sublist _, nil_sublist _, nil_sublist _⟩
  | redrive => exact hwithin ⟨.refl _, nil_sublist _, .refl _⟩
  | sweep => exact hwithin ⟨filter_sublist, filter_sublist, filter_sublist⟩
  | _ => exact hwithin ⟨.refl _, .refl _, .refl _⟩

/-- **`Consume` takes from the front of a queue.** -/
theorem ConsumePc.step_fronts {q} {k : ConsumePc} {o} (h : k.step now b q = some o)
    (hdel : ∀ r, ∀ m ∈ b.queued r, m.delayed now = false) :
    o.handed = [] ∨ ∃ r results, o.handed = results.map (fun m => (q.notifyChan, m)) ∧
      (results ++ o.broker.queued r).Sublist (b.queued r) := by
  have hfront : ∀ {r : TopicRef} {t t₁ t' : Topic} {results : List Message} {ids : List GoString},
    b.lock r = some t →
      t.extractMessages q.limit now = (results, ids, t₁) → t'.queued = t₁.queued →
      (results ++ (b.setTopic r t').queued r).Sublist (b.queued r) := by
    intro r t t₁ t' results ids ht hx hq
    have hget := (lock_eq_some.mp ht).1
    have hqueued := queued_of_getElem? hget
    rw [queued_setTopic ht, if_pos rfl, hq, hqueued]
    exact extractMessages_fronts hx fun m hm => hdel r m (hqueued ▸ hm)
  cases ConsumePc.steps h with
  | scan hb =>
    obtain ⟨t, t₁, ht, hx, -, rfl⟩ := extractMatching_eq_some hb
    exact .inr ⟨_, _, rfl, hfront ht hx rfl⟩
  | target hb =>
    obtain ⟨t, t₁, ht, hx, -, rfl⟩ := extractTarget_eq_some hb
    exact .inr ⟨_, _, rfl, hfront ht hx (by split <;> rfl)⟩
  | _ => exact .inl rfl

/-! ## Calls of one priority -/

def Call.Plain (pr : Priority) (c : Call) : Prop := ∀ pc ∈ c.pc :: c.stack, pc.Plain pr

theorem Pc.Flow.plain {pc : Pc} {next} (h : pc.Flow now b next) (hp : pc.Plain pr) : next.All (Pc.Plain pr) := by
  cases h with
  | newMessage =>
    obtain ⟨hpr, hdel, -⟩ := hp
    refine ⟨hpr, hdel, fun m hm => ?_, nofun⟩
    rw [mem_singleton.mp hm]
    exact hdel
  | @onPublish left a t ws m =>
    obtain ⟨hpr, hdel, hdraft, -⟩ := hp
    refine ⟨hpr, hdel, hdraft, fun t' ws' m' heq => ?_⟩
    have hnone : m.deliverAt = none := hdraft m (mem_singleton.mpr rfl)
    simp [delayed, hnone] at heq
  | call => exact ⟨⟨hp.1, hp.2.1, nofun, nofun⟩, hp.1, hp.2.1, nofun, nofun⟩
  | group | enter | fanOut | getTopic | getWildcards => exact ⟨hp.1, hp.2.1, nofun, nofun⟩
  | requeue | requeuePut => exact hp.elim
  | _ => trivial

/-- The methods that publish: `RedriveDLQ`, for each message it has taken. -/
def MethodPc.publishes : MethodPc → Bool
  | .redrive _ _ (_ :: _) _ => true
  | _ => false

theorem MethodPc.step_calls (h : MethodPc.step now b ret pc = some o) : o.call = none ∨ pc.publishes = true := by
  cases MethodPc.steps h with
  | redrive => exact .inr rfl
  | _ => exact .inl rfl

namespace World

variable {w w' : World} {l : WorldLabel} {i : Nat} {R : TopicRef} {m : Message} {pr : Priority}

/-- Messages of one priority and without a delay are published; nothing is
requeued or redriven. -/
def Lined (pr : Priority) (w : World) : WorldLabel → Prop
  | .sys (.start _ (.publish a)) => .ofString a.priority = pr ∧ a.deliverAt = none
  | .sys (.start _ (.requeue _)) => False
  | .run i => ∀ pc ∈ w.methods i, pc.publishes = false
  | _ => True

instance (pr : Priority) (w : World) (l : WorldLabel) : Decidable (w.Lined pr l) := by
  unfold Lined
  split <;> infer_instance

theorem plain_step (h : w.sys.AllCalls (Call.Plain pr)) (hok : w.Lined pr l) (hs : w.step l = some w') :
    w'.sys.AllCalls (Call.Plain pr) := by
  refine all_step h hs (fun _ => id) (fun i op hl => ?_) (fun g _ c hc => ?_) (fun i pc o a hl hpc ho ha => ?_)
    fun _ _ _ _ _ ho _ hp => (Pc.step_flow ho).plain hp
  · subst hl
    cases op with
    | publish a => exact ⟨hok.1, hok.2, nofun, nofun⟩
    | requeue m => exact hok.elim
    | _ => trivial
  · rcases Goroutine.entry_eq hc with ⟨due, push, -, -, rfl⟩ | ⟨channels, m, -, rfl⟩ <;> trivial
  · -- The methods that publish do not run.
    subst hl
    rcases MethodPc.step_calls ho with hnone | hp
    · cases hnone.symm.trans ha
    · rw [hok pc hpc] at hp
      cases hp

theorem plain_at (h : w.sys.AllCalls (Call.Plain pr)) (hpc : w.pcAt i = some pc) : pc.Plain pr := by
  obtain ⟨c, hc, rfl⟩ := map_eq_some_iff.mp hpc
  exact h i c hc _ mem_cons_self

/-! ## The order of a queue -/

/-- **A queue loses messages, or gets one at its end.** -/
theorem order_step (hplain : w.sys.AllCalls (Call.Plain pr))
    (huniform : ∀ (r : TopicRef) t, w.broker.heap[r]? = some t → t.Uniform pr) (hs : w.step l = some w')
    (R : TopicRef) :
    (∀ t', w'.broker.heap[R]? = some t' → t'.Uniform pr) ∧ ((w'.broker.queued R).Sublist (w.broker.queued R) ∨
      ∃ i pc m queue, l = .sys (.run i) ∧ w.pcAt i = some pc ∧ pc.appends w.broker = some (R, m) ∧
        queue.Sublist (w.broker.queued R) ∧ w'.broker.queued R = queue ++ [m]) := by
  have hheap := step_heap hs
  cases ht' : w'.broker.heap[R]? with
  | none =>
    refine ⟨nofun, .inl ?_⟩
    rw [Broker.queued, ht']
    exact nil_sublist _
  | some t' =>
    rw [queued_of_getElem? ht']
    suffices h : t'.Uniform pr ∧ (t'.queued.Sublist (w.broker.queued R) ∨
        ∃ i pc m queue, l = .sys (.run i) ∧ w.pcAt i = some pc ∧ pc.appends w.broker = some (R, m) ∧
          queue.Sublist (w.broker.queued R) ∧ t'.queued = queue ++ [m]) by
      refine ⟨fun t₁ ht₁ => ?_, h.2⟩
      cases ht₁
      exact h.1
    rcases hheap.origin ht' with ⟨t, ht⟩ | ⟨-, name, policy, retention, rfl⟩
    · rw [queued_of_getElem? ht]
      have hu := huniform R t ht
      obtain ⟨t₂, ht₂, hcases⟩ := hheap.object ht
      cases ht'.symm.trans ht₂
      rcases hcases with rfl | ⟨-, sec, hsec, hmove⟩ | ⟨rfl, -⟩
      · exact ⟨hu, .inl (.refl _)⟩
      · have hcall : ∀ pc, sec = .call pc → ∃ i, l = .sys (.run i) ∧ w.pcAt i = some pc := by
          rintro pc rfl
          obtain ⟨i, c, rfl, hc, rfl⟩ := sectionOf_call hsec
          exact ⟨i, rfl, by simp [pcAt, hc]⟩
        obtain ⟨hu', hq⟩ := hmove.order hu fun pc heq => plain_at hplain (hcall pc heq).choose_spec.2
        refine ⟨hu', hq.imp id ?_⟩
        rintro ⟨pc, m, queue, heq, happ, hsub, hq'⟩
        obtain ⟨i, hl, hpc⟩ := hcall pc heq
        exact ⟨i, pc, m, queue, hl, hpc, happ, hsub, hq'⟩
      · exact ⟨⟨hu.high, hu.normal, hu.low⟩, .inl (.refl _)⟩
    · exact ⟨⟨fun _ => rfl, fun _ => rfl, fun _ => rfl⟩, .inl (nil_sublist _)⟩

/-! ## Handing over -/

def handedFrom (w : World) (R : TopicRef) : List Message :=
  (w.past.handed.map fun x => x.2.2).filter fun m => m ∈ w.appendedTo R

/-- A push sends a message to a consumer while it is the first one of its
queue. -/
def SendsFirst (w : World) (pc : Pc) : Prop :=
  ∀ x ∈ pc.sendsTo w.broker, (w.broker.trySend x.1 x.2).isSome = true → ∀ y ∈ w.past.appended, y.2 = x.2 →
    (w.broker.queued y.1).head? = some x.2

instance (w : World) (pc : Pc) : Decidable (w.SendsFirst pc) := by
  unfold SendsFirst
  infer_instance

/-- **Messages stand in line**: what was handed over and what is in the
queue, one after the other, is in the order of appending. -/
structure InLine (pr : Priority) (w : World) : Prop where
  traced : w.Traced
  plain : w.sys.AllCalls (Call.Plain pr)
  uniform : ∀ (r : TopicRef) t, w.broker.heap[r]? = some t → t.Uniform pr
  ready : ∀ x ∈ w.past.appended, x.2.original = true ∧ x.2.deliverAt = none
  handed : ∀ x ∈ w.past.handed, ∃ r, (r, x.2.2) ∈ w.past.appended
  fifo : ∀ R, Fifo.Ordered (w.appendedTo R) (w.handedFrom R) (w.broker.queued R)

namespace InLine

variable {pc : Pc} {o : Outcome} {r : TopicRef}

theorem one_topic (h : w.InLine pr) (hr : (r, m) ∈ w.past.appended) (hR : (R, m) ∈ w.past.appended) : R = r := by
  have horiginal : ∀ {x}, x ∈ w.past.appended → x ∈ w.originals := fun hx =>
    mem_filter.mpr ⟨hx, (h.ready _ hx).1⟩
  exact congrArg Prod.fst (h.traced.unique (horiginal hR) (horiginal hr) rfl)

/-- What is appended was made by `Publish`, without a delay, and is new. -/
theorem fresh (h : w.InLine pr) (hpc : w.pcAt i = some pc) (happ : pc.appends w.broker = some (r, m)) :
    m.original = true ∧ m.deliverAt = none ∧ ∀ R, (R, m) ∉ w.past.appended := by
  have hplain := plain_at h.plain hpc
  rcases Pc.mem_draft_of_appends happ with hdraft | hreq
  · refine ⟨h.traced.draft i pc m hpc hdraft, ?_, fun R hR => ?_⟩
    · cases pc with
      | publish left a k => exact hplain.2.2.1 m hdraft
      | _ => cases hdraft
    · exact h.traced.unstored hpc hdraft (mem_filter.mpr ⟨hR, (h.ready _ hR).1⟩) rfl
  · cases pc with
    | requeueAt | requeuePut => exact hplain.elim
    | _ => cases hreq

theorem ready_step (h : w.InLine pr) (hs : w.step l = some w') (hx : x ∈ w'.past.appended) :
    x.2.original = true ∧ x.2.deliverAt = none := by
  obtain ⟨new, hnew, hmem⟩ := appended_prefix h.traced.framed hs
  rw [hnew] at hx
  rcases mem_append.mp hx with hx | hx
  · exact h.ready x hx
  · obtain ⟨i, pc, -, hpc, happ⟩ := hmem x hx
    obtain ⟨ho, hd, -⟩ := h.fresh hpc happ
    exact ⟨ho, hd⟩

theorem handed_of_appends (h : pc.step w.now w.broker = some o) (happ : pc.appends w.broker = some (r, m))
    (hplain : pc.Plain pr) : o.handed = [] := by
  cases pc with
  | publish left a k =>
    rcases Pc.step_sent h rfl with hnone | ⟨ch, m, hto, -⟩
    · exact hnone
    · cases hto
  | requeueAt => exact hplain.elim
  | _ => cases happ

theorem handedFrom_eq {new} (hlog : w'.appendedTo R = w.appendedTo R)
    (hnew : w'.past.handed.map (fun x => x.2.2) = w.past.handed.map (fun x => x.2.2) ++ new) :
    w'.handedFrom R = w.handedFrom R ++ new.filter fun m => m ∈ w.appendedTo R := by
  rw [handedFrom, hnew, filter_append, hlog, handedFrom]

theorem handedFrom_put (h : w.InLine pr) {new}
    (hfresh : ∀ m ∈ new, ∀ R, (R, m) ∉ w.past.appended) (hlog : w'.appendedTo R = w.appendedTo R ++ new)
    (hsame : w'.past.handed = w.past.handed) : w'.handedFrom R = w.handedFrom R := by
  rw [handedFrom, hsame, hlog, handedFrom]
  refine filter_congr fun m hm => ?_
  obtain ⟨x, hx, rfl⟩ := List.mem_map.mp hm
  obtain ⟨r, hr⟩ := h.handed x hx
  have hnew : x.2.2 ∉ new := fun hmem => hfresh _ hmem r hr
  simp [hnew]

/-- Messages of one topic object are handed over: they come to what was
handed over of it, and of no other. -/
theorem handedFrom_give (h : w.InLine pr) {new} (hlog : ∀ R, w'.appendedTo R = w.appendedTo R)
    (hnew : w'.past.handed.map (fun x => x.2.2) = w.past.handed.map (fun x => x.2.2) ++ new)
    (hr : ∀ m ∈ new, (r, m) ∈ w.past.appended) (R : TopicRef) :
    w'.handedFrom R = if R = r then w.handedFrom R ++ new else w.handedFrom R := by
  rw [handedFrom_eq (hlog R) hnew]
  split
  next heq =>
    subst heq
    rw [filter_eq_self.mpr fun m hm => decide_eq_true (mem_appendedTo.mpr (hr m hm))]
  next hne =>
    rw [filter_eq_nil_iff.mpr fun m hm hin => ?_, append_nil]
    exact hne (h.one_topic (hr m hm) (mem_appendedTo.mp (of_decide_eq_true hin)))

theorem fifo_drop (h : w.InLine pr) (happ : w'.past.appended = w.past.appended)
    (hhanded : w'.past.handed = w.past.handed) (hq : (w'.broker.queued R).Sublist (w.broker.queued R)) :
    Fifo.Ordered (w'.appendedTo R) (w'.handedFrom R) (w'.broker.queued R) := by
  have hlog : w'.appendedTo R = w.appendedTo R := by rw [appendedTo, happ, appendedTo]
  have hout : w'.handedFrom R = w.handedFrom R := by rw [handedFrom, hhanded, hlog, handedFrom]
  rw [hlog, hout]
  exact (h.fifo R).drop hq

theorem fifo_give (h : w.InLine pr) {new} (happ : w'.past.appended = w.past.appended)
    (hnew : w'.past.handed.map (fun x => x.2.2) = w.past.handed.map (fun x => x.2.2) ++ new)
    (hr : ∀ m ∈ new, (r, m) ∈ w.past.appended)
    (hown : Fifo.Ordered (w.appendedTo r) (w.handedFrom r ++ new) (w'.broker.queued r))
    (hq : (w'.broker.queued R).Sublist (w.broker.queued R)) :
    Fifo.Ordered (w'.appendedTo R) (w'.handedFrom R) (w'.broker.queued R) := by
  have hlog : ∀ R, w'.appendedTo R = w.appendedTo R := fun R => by rw [appendedTo, happ, appendedTo]
  rw [hlog, h.handedFrom_give hlog hnew hr]
  split
  next heq => exact heq ▸ hown
  · exact (h.fifo R).drop hq

theorem sends_appended (h : w.InLine pr) (hpc : w.pcAt i = some pc)
    (hto : pc.sendsTo w.broker = some (ch, m)) : ∃ r, (r, m) ∈ w.past.appended := by
  have hplain := plain_at h.plain hpc
  unfold Pc.sendsTo at hto
  split at hto
  · cases hto
    exact ⟨_, (mem_filter.mp (h.traced.pushes i _ _ hpc)).1⟩
  · cases hto
    exact ⟨_, (mem_filter.mp (h.traced.pushes i _ _ hpc)).1⟩
  · cases hto
    obtain ⟨r, hr⟩ := h.traced.broadcasts i _ _ hpc
    exact ⟨r, (mem_filter.mp hr).1⟩
  · exact hplain.elim
  · cases hto

theorem queued_ready (h : w.InLine pr) (r : TopicRef) (hm : m ∈ w.broker.queued r) : m.delayed w.now = false := by
  rw [delayed, (h.ready _ (h.traced.mem_appended hm)).2]

/-- **A section hands over messages of one topic object**: a `Consume` takes
them from the front of the queue, a push sends one of them. -/
theorem hands (h : w.InLine pr) (hadv : Advances w w' i pc o) : o.handed = [] ∨
    ∃ r new, o.handed.map Prod.snd = new ∧ (∀ m ∈ new, (r, m) ∈ w.past.appended) ∧
      ((new ++ w'.broker.queued r).Sublist (w.broker.queued r) ∨
        ∃ ch m, pc.sendsTo w.broker = some (ch, m) ∧ (w.broker.trySend ch m).isSome = true ∧ new = [m]) := by
  by_cases hconsume : ∃ q k, pc = .consume q k
  · obtain ⟨q, k, rfl⟩ := hconsume
    refine (ConsumePc.step_fronts hadv.step fun r m => h.queued_ready r).imp id ?_
    rintro ⟨r, results, hres, hfront⟩
    rw [← hadv.broker] at hfront
    refine ⟨r, results, ?_, fun m hm => ?_, .inl hfront⟩
    · rw [hres, List.map_map]
      exact map_id'' (fun _ => rfl) results
    · exact h.traced.mem_appended (hfront.subset (mem_append_left _ hm))
  · have hno : pc.isConsume = false := by
      cases pc with
      | consume q k => exact absurd ⟨q, k, rfl⟩ hconsume
      | _ => rfl
    refine (Pc.step_sent hadv.step hno).imp id ?_
    rintro ⟨ch, m, hto, hroom, hsent⟩
    obtain ⟨r, hr⟩ := h.sends_appended hadv.at_pc hto
    refine ⟨r, [m], ?_, fun m' hm' => mem_singleton.mp hm' ▸ hr, .inr ⟨ch, m, hto, hroom, rfl⟩⟩
    rw [hsent]
    rfl

theorem handed_step (h : w.InLine pr) (hs : w.step l = some w') (hx : x ∈ w'.past.handed) :
    ∃ r, (r, x.2.2) ∈ w'.past.appended := by
  obtain ⟨new, hnew, -⟩ := appended_prefix h.traced.framed hs
  suffices hold : ∃ r, (r, x.2.2) ∈ w.past.appended by
    obtain ⟨r, hr⟩ := hold
    exact ⟨r, hnew ▸ mem_append_left _ hr⟩
  rcases advances_or_rests h.traced.framed hs with ⟨i, pc, o, rfl, hadv⟩ | ⟨-, hrest⟩
  · rw [hadv.past_handed] at hx
    rcases mem_append.mp hx with hx | hx
    · exact h.handed x hx
    · obtain ⟨y, hy, rfl⟩ := List.mem_map.mp hx
      rcases h.hands hadv with hnil | ⟨r, new, heq, hr, -⟩
      · rw [hnil] at hy
        cases hy
      · exact ⟨r, hr _ (heq ▸ List.mem_map_of_mem hy)⟩
  · exact h.handed x (hrest.handed ▸ hx)

theorem fifo_run (h : w.InLine pr) (hfirst : w.SendsFirst pc) (hadv : Advances w w' i pc o)
    (horder : ∀ R, (w'.broker.queued R).Sublist (w.broker.queued R) ∨ ∃ m queue, pc.appends w.broker = some (R, m) ∧
      queue.Sublist (w.broker.queued R) ∧ w'.broker.queued R = queue ++ [m]) (R : TopicRef) :
    Fifo.Ordered (w'.appendedTo R) (w'.handedFrom R) (w'.broker.queued R) := by
  have hhanded := hadv.past_handed
  cases happ : pc.appends w.broker with
  | some x =>
    obtain ⟨r, m⟩ := x
    obtain ⟨-, -, hfresh⟩ := h.fresh hadv.at_pc happ
    rw [handed_of_appends hadv.step happ (plain_at h.plain hadv.at_pc), map_nil,
      append_nil] at hhanded
    have hlog := appendedTo_append hadv.appended R
    rw [happ, toList_some] at hlog
    rcases horder R with hsub | ⟨m', queue, happ', hsub, hq⟩
    · rw [hlog, h.handedFrom_put (fun m' hm' => ?_) hlog hhanded]
      · exact ((h.fifo R).grow _).drop hsub
      · obtain ⟨x, hx, rfl⟩ := List.mem_map.mp hm'
        rw [mem_singleton.mp (mem_filter.mp hx).1]
        exact hfresh
    · cases happ.symm.trans happ'
      simp only [filter_singleton, decide_true, cond_true, map_cons, map_nil] at hlog
      rw [hlog, h.handedFrom_put (fun m' hm' => mem_singleton.mp hm' ▸ hfresh) hlog hhanded, hq]
      exact (h.fifo R).put (fun hm => hfresh R (mem_appendedTo.mp hm)) hsub
  | none =>
    have hsame : w'.past.appended = w.past.appended :=
      by rw [hadv.appended, happ, toList_none, append_nil]
    have hsub : ∀ R, (w'.broker.queued R).Sublist (w.broker.queued R) := by
      refine fun R => (horder R).resolve_right ?_
      rintro ⟨m, queue, happ', -⟩
      cases happ.symm.trans happ'
    rcases h.hands hadv with hnil | ⟨r, new, hnew, hr, hgive⟩
    · rw [hnil, map_nil, append_nil] at hhanded
      exact h.fifo_drop hsame hhanded (hsub R)
    · have hmap : w'.past.handed.map (fun x => x.2.2) = w.past.handed.map (fun x => x.2.2) ++ new := by
        rw [hhanded, map_append, List.map_map, ← hnew]
        rfl
      refine h.fifo_give hsame hmap hr ?_ (hsub R)
      rcases hgive with hfront | ⟨ch, m, hto, hroom, rfl⟩
      · exact (h.fifo r).take hfront
      · exact (h.fifo r).give (hfirst _ hto hroom (r, m) (hr m (mem_singleton.mpr rfl)) rfl) (hsub r)

theorem step (h : w.InLine pr) (hok : w.Lined pr l)
    (hfirst : ∀ i pc, l = .sys (.run i) → w.pcAt i = some pc → w.SendsFirst pc) (hs : w.step l = some w') :
    w'.InLine pr where
  traced := h.traced.step hs
  plain := plain_step h.plain hok hs
  uniform R := (order_step h.plain h.uniform hs R).1
  ready _ := h.ready_step hs
  handed _ := h.handed_step hs
  fifo R := by
    have horder := fun R => (order_step h.plain h.uniform hs R).2
    rcases advances_or_rests h.traced.framed hs with ⟨i, pc, o, rfl, hadv⟩ | ⟨hl, hrest⟩
    · refine h.fifo_run (hfirst i pc rfl hadv.at_pc) hadv (fun R => (horder R).imp id ?_) R
      rintro ⟨i', pc', m, queue, hl, hpc', happ, hsub, hq⟩
      cases hl
      cases hpc'.symm.trans hadv.at_pc
      exact ⟨m, queue, happ, hsub, hq⟩
    · refine h.fifo_drop hrest.appended hrest.handed ((horder R).resolve_right ?_)
      rintro ⟨i, -, -, -, hrun, -⟩
      exact hl i hrun

theorem init (now limits policy hooked storage env chans) :
    (World.init now (.new limits policy hooked storage env chans)).InLine pr where
  traced := .init now limits policy hooked storage env chans
  plain _ _ hc := by cases hc
  uniform _ _ ht := by cases ht
  ready _ hx := by cases hx
  handed _ hx := by cases hx
  fifo _ := ⟨nofun, .nil⟩

end InLine

end World

end TinyMQ
