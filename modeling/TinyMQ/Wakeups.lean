/-
No wake-up is lost.

A consumer waits only where it has found nothing but delayed messages, and
each of those has a timer; what comes later is pushed, or requeued to the
consumer itself. So while a consumer waits at its own topic, every message
there is attended to (`Covers`). With wildcards the same argument needs what
the code does not ensure: that a message is not requeued past a consumer
that waits for a matching pattern, and that none is stored between the scan
of the topics and the wait.
-/
import TinyMQ.Attendance

namespace TinyMQ

open List Option Broker AList Message

variable {m : Message} {now : Time} {pc : Pc} {b : Broker}

theorem Message.delayed_iff : m.delayed now = true ↔ ∃ d, m.deliverAt = some d ∧ now < d := by
  unfold delayed
  cases m.deliverAt <;> simp

theorem Message.delayed_mono (hle : now ≤ now') (h : m.delayed now' = true) : m.delayed now = true := by
  obtain ⟨d, hd, hlt⟩ := delayed_iff.mp h
  exact delayed_iff.mpr ⟨d, hd, Int.lt_of_le_of_lt hle hlt⟩

theorem requeued_deliverAt (m : Message) : (requeued m).deliverAt = m.deliverAt := by
  simp only [requeued, apply_ite deliverAt, ite_self]

/-- What a `publishCore` knows of the delay of its message. -/
def Pc.Regular (now : Time) : Pc → Prop
  | .publish _ a (.onPublish _ _ m) => m.deliverAt = a.deliverAt
  | .publish _ a (.store _ _ m isDelayed) =>
    m.deliverAt = a.deliverAt ∧ if isDelayed then a.deliverAt.isSome = true else m.delayed now = false
  | _ => True

/-- A `Consume` asks for one message at least, and a `Requeue` brings one
that is not delayed. -/
def Pc.Willing (now : Time) : Pc → Prop
  | .consume q _ => 1 ≤ q.limit
  | .requeue m => m.delayed now = false
  | .requeuePut _ m => m.delayed now = false
  | .requeueAt _ m => m.delayed now = false
  | _ => True

theorem Message.delayed_later (hle : now ≤ now') (h : m.delayed now = false) : m.delayed now' = false := by
  by_contra hne
  rw [delayed_mono hle (Bool.not_eq_false _ ▸ hne)] at h
  cases h

theorem Pc.Regular.mono (h : pc.Regular now) (hle : now ≤ now') : pc.Regular now' := by
  unfold Pc.Regular at h ⊢
  split at h
  · exact h
  next isDelayed =>
    cases isDelayed with
    | true => exact h
    | false => exact ⟨h.1, delayed_later hle h.2⟩
  · trivial

theorem Pc.Willing.mono (h : pc.Willing now) (hle : now ≤ now') : pc.Willing now' := by
  unfold Pc.Willing at h ⊢
  split at h <;> first | exact delayed_later hle h | exact h

theorem Pc.Outset.regular (h : pc.Outset) : pc.Regular now := by
  obtain ⟨left, a, k, rfl, rfl | ⟨dests, rfl⟩⟩ := h.eq <;> trivial

theorem Pc.Outset.willing (h : pc.Outset) : pc.Willing now := by
  obtain ⟨left, a, k, rfl, -⟩ := h.eq
  trivial

theorem Pc.step_regular (h : pc.step now b = some o)
    (hn : o.next = .goto pc') (hr : pc.Regular now) : pc'.Regular now := by
  cases Pc.step_goto h hn with
  | newMessage => rfl
  | @onPublish left a t ws m =>
    refine ⟨hr, ?_⟩
    split
    next hdel =>
      obtain ⟨d, hd, -⟩ := delayed_iff.mp hdel
      rw [← show m.deliverAt = a.deliverAt from hr, hd]
      rfl
    next hdel => exact Bool.not_eq_true _ ▸ hdel
  | _ => trivial

theorem Pc.step_willing (h : pc.step now b = some o)
    (hn : o.next = .goto pc') (hr : pc.Willing now) : pc'.Willing now := by
  cases Pc.step_goto h hn with
  | @requeue m t =>
    have hm : (requeued m).delayed now = false := by rw [delayed, requeued_deliverAt]; exact hr
    exact hm
  | requeuePut | find | getMatching | scan | scanned | scanAck | scanNext | target | targetAck => exact hr
  | _ => trivial

namespace World

variable {w w' : World} {l : WorldLabel} {i : Nat} {T : TopicRef} {m : Message}

/-- No push is under way: no call is in one, and no timer is due. -/
structure Settled (w : World) : Prop where
  calls : ∀ i p k, w.pcAt i ≠ some (.push p k)
  timers : ∀ due p, .timer due p ∈ w.broker.goroutines → w.now < due

/-- A timer is due when its message is. -/
structure Dated (w : World) : Prop where
  traced : w.Traced
  regular : ∀ i pc, w.pcAt i = some pc → pc.Regular w.now
  due : ∀ due p, .timer due p ∈ w.broker.goroutines → p.msg.deliverAt = some due

/-- Every delayed message has its timer. -/
structure Timed (w : World) : Prop extends Dated w where
  willing : ∀ i pc, w.pcAt i = some pc → pc.Willing w.now
  timer : ∀ r m, m ∈ w.broker.queued r → m.delayed w.now = true →
    ∃ due p, .timer due p ∈ w.broker.goroutines ∧ p.t = r ∧ p.msg = m

theorem now_le (hs : w.step l = some w') : w.now ≤ w'.now := by
  rcases now_step hs with hnow | ⟨d, -, hnow⟩
  · exact Int.le_of_eq hnow.symm
  · rw [hnow]
    exact Int.le_add_of_nonneg_right (Int.natCast_nonneg d)

namespace Dated

theorem regular_step (h : w.Dated) (hs : w.step l = some w') (hpc' : w'.pcAt j = some pc') : pc'.Regular w'.now := by
  refine Pc.Regular.mono ?_ (now_le hs)
  cases arrives h.traced.framed hs hpc' with
  | stays hpc => exact h.regular j pc' hpc
  | @start op hl hpc => subst hpc; cases op <;> trivial
  | timer hmem hdue hpc | broadcast hmem hpc => subst hpc; trivial
  | goes hl hadv hn => exact Pc.step_regular hadv.step hn (h.regular j _ hadv.at_pc)
  | outset hout => exact hout.regular

theorem due_step (h : w.Dated) (hs : w.step l = some w') {due p}
    (hg : .timer due p ∈ w'.broker.goroutines) : p.msg.deliverAt = some due := by
  cases spawned h.traced.framed hs hg with
  | old hg => exact h.due due p hg
  | @timer i left a t wildcards msg o hl hadv hnext =>
    obtain ⟨hdel, hsome⟩ := h.regular i _ hadv.at_pc
    obtain ⟨d, hd⟩ := isSome_iff_exists.mp hsome
    rw [hdel, hd]
    rfl

theorem step (h : w.Dated) (hs : w.step l = some w') : w'.Dated where
  traced := h.traced.step hs
  regular _ _ := h.regular_step hs
  due _ _ := h.due_step hs

theorem init (now limits policy hooked storage env chans) :
    (World.init now (.new limits policy hooked storage env chans)).Dated where
  traced := .init ..
  regular _ _ h := by cases h
  due _ _ h := by cases h

end Dated

/-- A message of which no push is under way is delayed, if it has a timer. -/
theorem Dated.delayed (h : w.Dated) (hsettled : w.Settled) (hc : w.Covers R T m) : m.delayed w.now = true := by
  rcases hc with ⟨i, p, k, hpc, -⟩ | ⟨due, p, hg, -, rfl, -⟩
  · exact absurd hpc (hsettled.calls i p k)
  · exact delayed_iff.mpr ⟨due, h.due due p hg, hsettled.timers due p hg⟩

/-! ## Plain topics -/

/-- A `Consume` asks for a message at least and is passed a channel of its
own, and a `Requeue` is of a message that is not delayed; no other methods
run. -/
def Wakeful (w : World) : WorldLabel → Prop
  | .sys (.start _ (.consume q)) => 1 ≤ q.limit ∧ q.notifyChan ∉ w.past.passed
  | .sys (.start _ (.requeue m)) => m.delayed w.now = false
  | .sys _ => True
  | _ => False

instance (w : World) : DecidablePred w.Wakeful
  | .sys (.start _ (.consume q)) => inferInstanceAs (Decidable (1 ≤ q.limit ∧ q.notifyChan ∉ w.past.passed))
  | .sys (.start _ (.requeue m)) => inferInstanceAs (Decidable (m.delayed w.now = false))
  | .sys (.start _ (.publish _)) | .sys (.start _ (.ack _ _)) | .sys (.start _ (.removeWaitingConsumer _ _)) =>
      .isTrue trivial
  | .sys (.tick _) | .sys (.run _) | .sys (.fire _ _) | .sys (.recv _) => .isTrue trivial
  | .start _ _ | .run _ | .recvSpy _ => .isFalse id

theorem Wakeful.willing (h : w.Wakeful (.sys (.start i op))) : op.entry.pc.Willing w.now := by
  cases op with
  | consume q => exact h.1
  | requeue m => exact h
  | _ => trivial

namespace Timed

theorem willing_step (h : w.Timed) (hok : w.Wakeful l) (hs : w.step l = some w')
    (hpc' : w'.pcAt j = some pc') : pc'.Willing w'.now := by
  refine Pc.Willing.mono ?_ (now_le hs)
  cases arrives h.traced.framed hs hpc' with
  | stays hpc => exact h.willing j pc' hpc
  | start hl hpc =>
    subst hl hpc
    exact hok.willing
  | timer hmem hdue hpc | broadcast hmem hpc => subst hpc; trivial
  | goes hl hadv hn => exact Pc.step_willing hadv.step hn (h.willing j _ hadv.at_pc)
  | outset hout => exact hout.willing

theorem timer_step (h : w.Timed) (hs : w.step l = some w') (hm : m ∈ w'.broker.queued r)
    (hdel : m.delayed w'.now = true) : ∃ due p, .timer due p ∈ w'.broker.goroutines ∧ p.t = r ∧ p.msg = m := by
  have hdel₀ := delayed_mono (now_le hs) hdel
  have hold : m ∈ w.broker.queued r → ∃ due p, .timer due p ∈ w'.broker.goroutines ∧ p.t = r ∧ p.msg = m := by
    intro hm
    obtain ⟨due, p, hg, ht, hmsg⟩ := h.timer r m hm hdel₀
    rcases goroutine_step h.traced.framed hs hg with hg | ⟨k, i, c, -, hfi⟩
    · exact ⟨due, p, hg, ht, hmsg⟩
    · rcases Goroutine.entry_pc hfi.entry with ⟨due', p', heq, hdue, -⟩ | ⟨channels, m', heq, -⟩
      · cases heq
        -- A timer that is due is of a message that is not delayed any more.
        obtain ⟨d, hd, hlt⟩ := delayed_iff.mp hdel₀
        have heq := h.due due p hg
        rw [hmsg, hd] at heq
        cases heq
        exact absurd hdue (Int.not_le.mpr hlt)
      · cases heq
  rcases step_queued hs r with hsub | ⟨i, pc, m₀, rfl, hpc, happ, hsub⟩
  · exact hold (hsub.subset hm)
  · rcases mem_cons.mp (hsub.subset hm) with rfl | hm
    · rcases Pc.appends_eq happ with ⟨left, a, wildcards, isDelayed, rfl⟩ | rfl
      · obtain ⟨pc', o, hadv⟩ := advances h.traced.framed hs
        cases hpc.symm.trans hadv.at_pc
        cases isDelayed with
        | true => exact ⟨_, _, hadv.broker ▸ PublishPc.step_timer hadv.step happ, rfl, rfl⟩
        | false =>
          rw [show m.delayed w.now = false from (h.regular i _ hpc).2] at hdel₀
          cases hdel₀
      · rw [show m.delayed w.now = false from h.willing i _ hpc] at hdel₀
        cases hdel₀
    · exact hold hm

theorem step (h : w.Timed) (hok : w.Wakeful l) (hs : w.step l = some w') : w'.Timed where
  toDated := h.toDated.step hs
  willing _ _ := h.willing_step hok hs
  timer _ _ := h.timer_step hs

theorem init (now limits policy hooked storage env chans) :
    (World.init now (.new limits policy hooked storage env chans)).Timed where
  toDated := .init ..
  willing _ _ h := by cases h
  timer _ _ h := by cases h

end Timed

/-- `Requeue` appends its message where nobody waits, or where the channel of
the consumer that waits is full. -/
theorem requeueAt_appends (h : (Pc.requeueAt r m).appends b = some (r, m)) :
    b.waiting r = [] ∨ ∃ ch, (Pc.requeueAt r m).sendsTo b = some (ch, m) ∧ b.trySend ch m = none := by
  simp only [Pc.appends] at h
  split at h
  next b' hb =>
    obtain ⟨t, ht, hb⟩ := map_eq_some_iff.mp hb
    rw [waiting_of_lock ht]
    cases hw : t.waitingConsumers with
    | nil => exact .inl rfl
    | cons ch chs =>
      refine .inr ⟨ch, by simp [Pc.sendsTo, waiting_of_lock ht, hw], ?_⟩
      cases hsend : b.trySend ch m with
      | none => rfl
      | some b₁ => simp [hw, hsend] at hb
  · cases h

/-- While a consumer waits at its topic, the messages there are attended to. -/
structure Woken (w : World) : Prop where
  timed : w.Timed
  single : w.SingleUse
  attended : ∀ T, w.broker.waiting T ≠ [] → ∀ m ∈ w.broker.queued T, w.Covers T T m

theorem Wakeful.freshChannels (h : w.Wakeful l) : w.FreshChannels l := by
  unfold FreshChannels
  split
  · exact h.2
  · trivial

namespace Woken

theorem hasRoom (h : w.Woken) (hok : w.Wakeful l) : w.HasRoom l := by
  cases l with
  | sys l =>
    cases l with
    | run i => exact fun p k ch m hpc hto => h.single.trySend_ne_none hpc hto
    | _ => trivial
  | _ => exact hok

theorem attended_step (h : w.Woken) (hok : w.Wakeful l) (hs : w.step l = some w')
    (hw' : w'.broker.waiting T ≠ []) (hm' : m ∈ w'.broker.queued T) : w'.Covers T T m := by
  refine World.attended_step h.timed.traced (h.hasRoom hok) hs (h.attended T) ?_ ?_ ?_ hw' hm'
  · intro i left a wildcards m isDelayed hl hpc happ hw
    exact mem_append_right _ (mem_singleton.mpr rfl)
  · intro i m hl hpc happ
    rcases requeueAt_appends happ with hnil | ⟨ch, hto, hfull⟩
    · by_contra hne
      rcases waiting_step hs hne with hold | ⟨j, q, hl', hpc'⟩
      · exact hold hnil
      · cases hl.symm.trans hl'
        cases hpc.symm.trans hpc'
    · exact absurd hfull (h.single.trySend_ne_none hpc hto)
  · intro i q hl hpc hnil hne m hm
    subst hl
    have hlimit : 1 ≤ q.limit := h.timed.willing i _ hpc
    obtain ⟨hold, hdel⟩ := registered_delayed h.timed.traced.framed hs hpc hlimit hnil hne m hm
    obtain ⟨due, p, hg, rfl, rfl⟩ := h.timed.timer T m hold hdel
    rcases goroutine_step h.timed.traced.framed hs hg with hg | ⟨k, j, c, hl, -⟩
    · exact .inr ⟨due, p, hg, rfl, rfl, mem_append_right _ (mem_singleton.mpr rfl)⟩
    · cases hl

theorem step (h : w.Woken) (hok : w.Wakeful l) (hs : w.step l = some w') : w'.Woken where
  timed := h.timed.step hok hs
  single := h.single.step hok.freshChannels hs
  attended _ hw _ := h.attended_step hok hs hw

end Woken

section Runs

variable {now : Time} {limits policy hooked storage env}

/-- **No wake-up is lost on plain topics**: in every run of `Publish`,
`Consume`, `Ack`, `RemoveWaitingConsumer` and `Requeue` calls, where no push
is under way, no topic that a consumer waits at holds a message that could be
delivered. -/
theorem no_lost_wakeup
    (hrun : Lts.Run step Wakeful (init now (.new limits policy hooked storage env fun _ => ⟨1, []⟩)) w)
    (hsettled : w.Settled) (hw : w.broker.waiting T ≠ []) (hm : m ∈ w.broker.queued T) :
    m.expired w.now = true ∨ m.delayed w.now = true := by
  have h : w.Woken := by
    refine hrun.invariant (I := Woken) (fun _ _ _ => Woken.step) ⟨.init .., .init .., fun T hw => ?_⟩
    exact absurd rfl hw
  exact .inr (h.timed.delayed hsettled (h.attended T hw m hm))

/-- A message is published that is delivered at time 5, and a consumer waits. -/
def waitForDelayed : List WorldLabel :=
  WorldLabel.call 0 (.publish { samplePublish with deliverAt := some 5 }) 7 ++
    WorldLabel.call 1 (.consume ⟨ascii "t", 1, 0⟩) 5

def delayedWait : World := (Lts.exec step (init 0 .sample) waitForDelayed).get (by decide +kernel)

theorem delayedWait_exec : Lts.exec step (init 0 .sample) waitForDelayed = some delayedWait :=
    (some_get _).symm

theorem delayedWait_settled : delayedWait.Settled where
  calls i p k hpc := by
    have hnone := idle_of_exec (n := 2) delayedWait_exec (by decide +kernel) (by decide +kernel) i
    cases hnone.symm.trans hpc
  timers due p hg := by
    have hall : ∀ g ∈ delayedWait.broker.goroutines, g.entry delayedWait.now = none := by decide +kernel
    simpa [Goroutine.entry] using hall _ hg

theorem no_lost_wakeup_sample : ∃ w m, Lts.Run step Wakeful (init 0 .sample) w ∧ w.Settled ∧
    w.broker.waiting 0 = [0] ∧ m ∈ w.broker.queued 0 ∧ (m.expired w.now = true ∨ m.delayed w.now = true) :=
  have hrun : Lts.Run step Wakeful (init 0 .sample) _ := Lts.Run.of_exec delayedWait_exec (by decide +kernel)
  have hm : { firstMessage with deliverAt := some 5 } ∈ delayedWait.broker.queued 0 := by decide +kernel
  ⟨_, _, hrun, delayedWait_settled, by decide +kernel, hm,
    no_lost_wakeup hrun delayedWait_settled (by decide +kernel) hm⟩

end Runs

/-! ## Wildcards -/

end World

namespace Broker

variable {b : Broker} {W T : TopicRef}

/-- `W` is a wildcard topic whose pattern the name of `T` matches. -/
def watches (b : Broker) (W T : TopicRef) : Bool :=
  match b.heap[W]?, b.heap[T]? with
  | some pattern, some t =>
    b.wildcards.lookup pattern.name = some W && (b.compiledRegex.lookup pattern.name).any fun re =>
      re.matchString t.name
  | _, _ => false

theorem watches_iff : b.watches W T = true ↔ ∃ pattern t, b.heap[W]? = some pattern ∧ b.heap[T]? = some t ∧
    b.wildcards.lookup pattern.name = some W ∧
    ((b.compiledRegex.lookup pattern.name).any fun re => re.matchString t.name) = true := by
  unfold watches
  split
  next pattern t hW hT => simp [hW, hT]
  next hno =>
    refine ⟨nofun, fun ⟨pattern, t, hW, hT, _⟩ => ?_⟩
    exact absurd hT (hno pattern t hW)

theorem wildcard_addTopic (hl : b.topics.lookup t.name = none)
    (hn : (b.addTopic t).wildcards.lookup n = some W) (hW : W < b.heap.length) :
    b.wildcards.lookup n = some W ∧ (b.addTopic t).compiledRegex.lookup n = b.compiledRegex.lookup n := by
  have hne : n ≠ t.name := by
    rintro rfl
    simp only [addTopic] at hn
    split at hn
    · rw [lookup_insert] at hn
      cases hn
      exact absurd hW (Nat.lt_irrefl _)
    · rw [(b.wildcards_ok hn).1] at hl
      cases hl
  refine ⟨?_, ?_⟩
  · simp only [addTopic] at hn
    split at hn
    · rwa [lookup_insert_ne hne] at hn
    · exact hn
  · simp only [addTopic]
    split
    · split
      · rw [lookup_insert_ne hne]
      · rfl
    · rfl

theorem HeapStep.wildcard {P : TopicRef → Topic → Topic → Prop} (h : b.HeapStep b' P)
    (hn : b'.wildcards.lookup n = some W) (hW : W < b.heap.length) :
    b.wildcards.lookup n = some W ∧ b'.compiledRegex.lookup n = b.compiledRegex.lookup n := by
  have hold : b'.registry = b.registry →
      b.wildcards.lookup n = some W ∧ b'.compiledRegex.lookup n = b.compiledRegex.lookup n := by
    intro hr
    have hw : b'.wildcards = b.wildcards := congrArg Registry.wildcards hr
    have hc : b'.compiledRegex = b.compiledRegex := congrArg Registry.compiledRegex hr
    exact ⟨hw ▸ hn, by rw [hc]⟩
  cases h with
  | same hh hr | move hl hm hh hr => exact hold hr
  | spy hl hm hh hr =>
    have hw : b'.wildcards = b.wildcards := congrArg Registry.wildcards hr
    have hc : b'.compiledRegex = b.compiledRegex := congrArg Registry.compiledRegex hr
    exact ⟨hw ▸ hn, by rw [hc]⟩
  | @create name policy retention hl hh hr =>
    have hw : b'.wildcards = (b.addTopic { Topic.create name policy with retention }).wildcards :=
      congrArg Registry.wildcards hr
    have hc : b'.compiledRegex = (b.addTopic { Topic.create name policy with retention }).compiledRegex :=
      congrArg Registry.compiledRegex hr
    rw [hw] at hn
    rw [hc]
    exact wildcard_addTopic hl hn hW
  | @delete n' r t hn' hl hh hr =>
    have hw : b'.wildcards = _ := congrArg Registry.wildcards hr
    have hc : b'.compiledRegex = _ := congrArg Registry.compiledRegex hr
    rw [hw] at hn
    rw [hc]
    simp only [registry, removeTopic] at hn ⊢
    have hne : n ≠ n' := by
      rintro rfl
      rw [lookup_erase] at hn
      cases hn
    rw [lookup_erase_ne hne] at hn ⊢
    exact ⟨hn, rfl⟩

end Broker

namespace World

variable {w w' : World} {l : WorldLabel} {i : Nat} {W T : TopicRef} {m : Message}

theorem watches_step (hs : w.step l = some w') (h : w'.broker.watches W T = true) :
    w.broker.watches W T = true ∨ w'.broker.waiting W = [] ∨ w'.broker.queued T = [] := by
  obtain ⟨pattern', t', hW', hT', hlookup, hmatch⟩ := watches_iff.mp h
  have hheap := step_heap hs
  have hname : ∀ {r : TopicRef} {t₁ t₁' : Topic}, w.broker.heap[r]? = some t₁ →
    w'.broker.heap[r]? = some t₁' →
      t₁'.name = t₁.name := by
    intro r t₁ t₁' ht ht'
    obtain ⟨t₂, ht₂, hcases⟩ := hheap.object ht
    cases ht'.symm.trans ht₂
    rcases hcases with rfl | ⟨-, sec, -, hmove⟩ | ⟨rfl, -⟩
    · rfl
    · exact hmove.static.1
    · rfl
  rcases hheap.origin hW' with ⟨pattern, hW⟩ | ⟨-, name, policy, retention, rfl⟩
  · rcases hheap.origin hT' with ⟨t, hT⟩ | ⟨-, name, policy, retention, rfl⟩
    · have hlt := (List.getElem?_eq_some_iff.mp hW).1
      rw [hname hW hW'] at hlookup hmatch
      rw [hname hT hT'] at hmatch
      obtain ⟨hold, hregex⟩ := hheap.wildcard hlookup hlt
      rw [hregex] at hmatch
      exact .inl (watches_iff.mpr ⟨pattern, t, hW, hT, hold, hmatch⟩)
    · rw [queued_of_getElem? hT']
      exact .inr (.inr rfl)
  · rw [waiting_of_getElem? hW']
    exact .inr (.inl rfl)

/-- What the code leaves to chance. A wildcard `Consume` goes to wait when
the messages of the topics it matches are attended to; a message is stored
where the consumers of matching wildcards are known, and requeued where none
wait; and a push that has taken a consumer finds room. -/
def Attentive (w : World) : WorldLabel → Prop
  | .sys (.run i) => ∀ pc, w.pcAt i = some pc →
    match pc with
    | .consume q (.target W) => w.broker.waiting W = [] → ∀ T m, w.broker.watches W T = true → m ∈ w.broker.queued T →
      1 ≤ q.limit ∧ T = W ∧ m.delayed w.now = false ∨ w.Covers W T m
    | .publish left p (.store T wildcards m isDelayed) =>
      (Pc.publish left p (.store T wildcards m isDelayed)).appends w.broker = some (T, m) →
      ∀ W, w.broker.watches W T = true → w.broker.waiting W ≠ [] → W ∈ wildcards ++ [T]
    | .requeueAt T m => (Pc.requeueAt T m).appends w.broker = some (T, m) →
      ∀ W, w.broker.watches W T = true → w.broker.waiting W = []
    | .push p k => ∀ ch m, (Pc.push p k).sendsTo w.broker = some (ch, m) → w.broker.trySend ch m ≠ none
    | _ => True
  | .sys _ => True
  | _ => False

theorem Attentive.hasRoom (h : w.Attentive l) : w.HasRoom l := by
  unfold HasRoom
  split
  · exact fun p k ch m hpc => h _ hpc ch m
  · trivial
  · unfold Attentive at h
    split at h <;> simp_all

/-- While a consumer waits at a wildcard topic, the messages of the topics it
matches are attended to. -/
structure Heeded (w : World) : Prop where
  dated : w.Dated
  attended : ∀ W T, w.broker.watches W T = true → w.broker.waiting W ≠ [] → ∀ m ∈ w.broker.queued T, w.Covers W T m

theorem Heeded.step (h : w.Heeded) (hok : w.Attentive l) (hs : w.step l = some w') : w'.Heeded where
  dated := h.dated.step hs
  attended W T hwatch hw m hm := by
    have hwatch : w.broker.watches W T = true := by
      rcases watches_step hs hwatch with hold | hnil | hnil
      · exact hold
      · exact absurd hnil hw
      · rw [hnil] at hm
        cases hm
    refine attended_step h.dated.traced hok.hasRoom hs (h.attended W T hwatch) ?_ ?_ ?_ hw hm
    · intro i left a wildcards m isDelayed hl hpc happ hw
      subst hl
      exact hok _ hpc happ W hwatch hw
    · intro i m hl hpc happ
      subst hl
      by_contra hne
      rcases waiting_step hs hne with hold | ⟨j, q, hl, hpc'⟩
      · exact hold (hok _ hpc happ W hwatch)
      · cases hl
        cases hpc.symm.trans hpc'
    · intro i q hl hpc hnil hne m hm
      subst hl
      have hold : m ∈ w.broker.queued T := by
        rcases step_queued hs T with hsub | ⟨j, pc, m₀, hl, hpc', happ, -⟩
        · exact hsub.subset hm
        · cases hl
          cases hpc.symm.trans hpc'
          cases happ
      rcases hok _ hpc hnil T m hwatch hold with ⟨hlimit, rfl, hready⟩ | hc
      · rw [(registered_delayed h.dated.traced.framed hs hpc hlimit hnil hne m hm).2] at hready
        cases hready
      · exact covers_consume h.dated.traced hs hpc hc

section Runs

variable {now : Time} {limits policy hooked storage env chans}

/-- **No wildcard waiter is starved**: in every run of calls whose steps meet
the condition, where no call is in progress and no timer is due, no topic
that matches a wildcard with a waiting consumer holds a message that could be
delivered. -/
theorem no_starved_wildcard (hrun : Lts.Run step Attentive (init now (.new limits policy hooked storage env chans)) w)
    (hidle : ∀ i, w.pcAt i = none) (htimers : ∀ due p, .timer due p ∈ w.broker.goroutines → w.now < due)
    (hwatch : w.broker.watches W T = true) (hw : w.broker.waiting W ≠ []) (hm : m ∈ w.broker.queued T) :
    m.expired w.now = true ∨ m.delayed w.now = true := by
  have h : w.Heeded := by
    refine hrun.invariant (I := Heeded) (fun _ _ _ => Heeded.step) ⟨.init .., fun W T hwatch => ?_⟩
    cases hwatch
  have hsettled : w.Settled := ⟨fun i p k hpc => (by rw [hidle i] at hpc; cases hpc), htimers⟩
  exact .inr (h.dated.delayed hsettled (h.attended W T hwatch hw m hm))

/-- A message is published and consumed; a consumer waits for everything
that starts with `t`, and the message is requeued. -/
def requeuePastWildcard : List WorldLabel :=
  WorldLabel.call 0 (.publish samplePublish) 11 ++ WorldLabel.call 1 (.consume ⟨ascii "t", 1, 1⟩) 5 ++
    WorldLabel.call 2 (.consume ⟨ascii "t*", 1, 2⟩) 9 ++ WorldLabel.call 3 (.requeue firstMessage) 3

def passedByEnd : World := (Lts.exec step (init 0 .sample) requeuePastWildcard).get (by decide +kernel)

theorem passedByEnd_exec : Lts.exec step (init 0 .sample) requeuePastWildcard = some passedByEnd :=
  (some_get _).symm

/-- The consumer waits on. -/
theorem wildcard_starved : ∃ w m, Lts.Run step (fun _ _ => True) (init 0 .sample) w ∧ (∀ i, w.pcAt i = none) ∧
    w.broker.goroutines = [] ∧ w.broker.watches 1 0 = true ∧ w.broker.waiting 1 = [2] ∧ w.broker.queued 0 = [m] ∧
    m.expired w.now = false ∧ m.delayed w.now = false :=
  ⟨_, requeued firstMessage, Lts.Run.of_exec passedByEnd_exec (by decide +kernel),
    idle_of_exec (n := 4) passedByEnd_exec (by decide +kernel) (by decide +kernel),
      by decide +kernel, by decide +kernel,
    by decide +kernel, by decide +kernel, by decide +kernel, by decide +kernel⟩

/-- `Attentive`, where a wildcard `Consume` matches empty topics only. -/
def attentiveNow (w : World) : WorldLabel → Bool
  | .sys (.run i) =>
    match w.pcAt i with
    | some (.consume _ (.target W)) =>
      (List.range w.broker.heap.length).all fun T => w.broker.watches W T → w.broker.queued T = []
    | some (.publish _ _ (.store T wildcards _ _)) =>
      (List.range w.broker.heap.length).all fun W => w.broker.watches W T → W ∈ wildcards ++ [T]
    | some (.requeueAt T _) =>
      (List.range w.broker.heap.length).all fun W => w.broker.watches W T → w.broker.waiting W = []
    | some (.push p k) => ((Pc.push p k).sendsTo w.broker).all fun x => (w.broker.trySend x.1 x.2).isSome
    | _ => true
  | .sys _ => true
  | _ => false

theorem attentive_of_now (h : w.attentiveNow l = true) : w.Attentive l := by
  have hlt : ∀ {W T : TopicRef}, w.broker.watches W T = true → W < w.broker.heap.length ∧
    T < w.broker.heap.length := by
    intro W T hwatch
    obtain ⟨pattern, t, hW, hT, -⟩ := watches_iff.mp hwatch
    exact ⟨(List.getElem?_eq_some_iff.mp hW).1, (List.getElem?_eq_some_iff.mp hT).1⟩
  unfold Attentive
  split
  next i =>
    intro pc hpc
    simp only [attentiveNow, hpc] at h
    split
    next q W =>
      intro hnil T m hwatch hm
      have hempty := of_decide_eq_true (List.all_eq_true.mp h T (mem_range.mpr (hlt hwatch).2)) hwatch
      rw [hempty] at hm
      cases hm
    next left p T wildcards m isDelayed =>
      intro happ W hwatch hw
      exact of_decide_eq_true (List.all_eq_true.mp h W (mem_range.mpr (hlt hwatch).1)) hwatch
    next T m =>
      intro happ W hwatch
      exact of_decide_eq_true (List.all_eq_true.mp h W (mem_range.mpr (hlt hwatch).1)) hwatch
    next p k =>
      intro ch m hto hfull
      simp [hto, hfull] at h
    · trivial
  · trivial
  next hno hno' =>
    unfold attentiveNow at h
    split at h <;> simp_all

/-- A consumer waits for everything that starts with `t`, and a message is
published there that is delivered at time 5. -/
def wildcardWait : List WorldLabel :=
  WorldLabel.call 0 (.consume ⟨ascii "t*", 1, 0⟩) 7 ++
    WorldLabel.call 1 (.publish { samplePublish with deliverAt := some 5 }) 7

def wildcardWaitEnd : World := (Lts.exec step (init 0 .sample) wildcardWait).get (by decide +kernel)

theorem wildcardWaitEnd_exec : Lts.exec step (init 0 .sample) wildcardWait = some wildcardWaitEnd :=
  (some_get _).symm

theorem wildcardWaitEnd_timers :
    ∀ due p, .timer due p ∈ wildcardWaitEnd.broker.goroutines → wildcardWaitEnd.now < due := by
  intro due p hg
  have hall : ∀ g ∈ wildcardWaitEnd.broker.goroutines, g.entry wildcardWaitEnd.now = none := by decide +kernel
  simpa [Goroutine.entry] using hall _ hg

theorem no_starved_wildcard_sample : ∃ w m, Lts.Run step Attentive (init 0 .sample) w ∧ (∀ i, w.pcAt i = none) ∧
    w.broker.watches 0 1 = true ∧ w.broker.waiting 0 = [0] ∧ m ∈ w.broker.queued 1 ∧
    (m.expired w.now = true ∨ m.delayed w.now = true) :=
  have hnow : Lts.Run step (fun w l => w.attentiveNow l = true) (init 0 .sample) _ :=
    Lts.Run.of_exec wildcardWaitEnd_exec (by decide +kernel)
  have hrun : Lts.Run step Attentive (init 0 .sample) _ := hnow.mono fun _ _ => attentive_of_now
  have hidle := idle_of_exec (n := 2) wildcardWaitEnd_exec (by decide +kernel) (by decide +kernel)
  have hm : { firstMessage with deliverAt := some 5 } ∈ wildcardWaitEnd.broker.queued 1 := by decide +kernel
  ⟨_, _, hrun, hidle, by decide +kernel, by decide +kernel, hm,
    no_starved_wildcard hrun hidle wildcardWaitEnd_timers
      (show wildcardWaitEnd.broker.watches 0 1 = true by decide +kernel)
      (by decide +kernel) hm⟩

end Runs

end World

end TinyMQ
