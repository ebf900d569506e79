/-
Notify channels are used once, when every `Consume` brings one of its own.

A channel goes from the `Consume` it was passed to into the list of a topic,
from there into the hands of a publish or of the goroutine of a broadcast,
and is sent to at the end. It is in one of these places at a time, so it is
empty when somebody sends to it.
-/
import TinyMQ.Calls
import TinyMQ.Lib.Tokens

namespace TinyMQ

open List Option Broker Topic

variable {now : Time} {b : Broker} {t : Topic} {pc : Pc} {o : Outcome} {p : Push}

/-! ## Where a channel can be -/

def Broker.waiters (b : Broker) : List Chan := b.gather waitingConsumers

def Goroutine.channels : Goroutine → List Chan
  | .timer _ _ => []
  | .broadcast channels _ => channels

def Broker.transit (b : Broker) : List Chan := b.goroutines.flatMap Goroutine.channels

/-- The channels a call has: the one it was passed and has not registered,
or those it has taken from the topics. -/
def Pc.hands : Pc → List Chan
  | .push _ (.takeWild _ channels) => channels
  | .push _ (.takeOwn channels) => channels
  | .push _ (.sendWild ch _) => [ch]
  | .push _ (.sendOwn ch) => [ch]
  | .broadcast channels _ => channels
  | .consume _ (.targetAck _ _ _) => []
  | .consume q _ => [q.notifyChan]
  | _ => []

def Next.hands : Next → List Chan
  | .goto pc => pc.hands
  | _ => []

def Pc.sent (pc : Pc) (o : Outcome) : List Chan := if pc.isConsume then [] else o.handed.map Prod.fst

/-- The section changes a list of waiting consumers. -/
def Pc.serves : Pc → Bool
  | .push _ (.takeWild (_ :: _) _) => true
  | .push _ (.takeOwn _) => true
  | .push _ (.popWild (_ :: _)) => true
  | .push _ .popOwn => true
  | .consume _ (.target _) => true
  | .removeWaitingAt _ _ _ => true
  | .requeueAt _ _ => true
  | _ => false

theorem TopicMove.waiting (h : TopicMove now b sec r t t') :
    t'.waitingConsumers = t.waitingConsumers ∨ ∃ pc, sec = .call pc ∧ pc.serves = true := by
  have hfields : ∀ {t t' : Topic}, t'.emptied = t.emptied →
    t'.waitingConsumers = t.waitingConsumers := fun h =>
    (fields_of_emptied h).2.2.1
  cases h with
  | store hdel hlt => exact .inl (hfields (emptied_append _ _ _))
  | evict hdel hge hev =>
    exact .inl (hfields ((emptied_append _ _ _).trans (emptied_evictOldest hev)))
  | remove => exact .inl (hfields (emptied_removeMessageByID _ _))
  | scan hx => exact .inl (hfields (emptied_extractMessages hx))
  | ack hr => exact .inl (hfields (emptied_remove? hr))
  | hold | purge | redrive | sweep | addSpy | removeSpy => exact .inl rfl
  | _ => exact .inr ⟨_, rfl, rfl⟩

namespace Broker

variable {b b' : Broker} {t : Topic}

theorem waiters_of_heapStep {P : TopicRef → Topic → Topic → Prop} (h : b.HeapStep b' P)
    (hP : ∀ r t t', P r t t' → t'.waitingConsumers = t.waitingConsumers) : b'.waiters.Perm b.waiters :=
  h.gather (fun _ _ _ => rfl) (fun _ => rfl) hP

theorem count_waiters_setTopic (ht : b.lock r = some t) (hname : t'.name = t.name) : ∃ others : List Chan, ∀ ch,
    b.waiters.count ch = t.waitingConsumers.count ch + others.count ch ∧
      (b.setTopic r t').waiters.count ch = t'.waitingConsumers.count ch + others.count ch := by
  obtain ⟨others, hperm, hperm'⟩ :=
    gather_split waitingConsumers (lock_eq_some.mp ht).1 (getElem?_setTopic ht hname)
  refine ⟨others, fun ch => ⟨?_, ?_⟩⟩
  · rw [waiters, hperm.count_eq, count_append]
  · rw [waiters, hperm'.count_eq, count_append]

end Broker

/-! ## A section moves channels and makes none -/

/-- The channels a section leaves are those it found. -/
def Keeps (b : Broker) (pc : Pc) (o : Outcome) : Prop := ∀ ch,
  o.broker.waiters.count ch + o.broker.transit.count ch + (pc.sent o).count ch + o.next.hands.count ch ≤
    b.waiters.count ch + b.transit.count ch + pc.hands.count ch

theorem Broker.transit_of_gear {b' : Broker} (h : b'.gear = b.gear) : b'.transit = b.transit := by
  rw [transit, transit, show b'.goroutines = b.goroutines from congrArg Gear.goroutines h]

theorem Keeps.of_hands (hw : o.broker.waiters.Perm b.waiters)
    (ht : o.broker.transit = b.transit) (hh : (pc.sent o ++ o.next.hands).Sublist pc.hands) : Keeps b pc o := by
  intro ch
  have hcount := hh.count_le ch
  rw [hw.count_eq, ht]
  rw [count_append] at hcount
  omega

/-- A section that writes one list, starts a goroutine for the channels `m`
or sends. -/
theorem Keeps.of_setTopic
    (ht : b.lock r = some t) (hname : t'.name = t.name) (hw : o.broker.waiters = (b.setTopic r t').waiters)
    (htr : o.broker.transit = b.transit ++ m)
    (hh : (t'.waitingConsumers ++ m ++ pc.sent o ++ o.next.hands).Subperm (t.waitingConsumers ++ pc.hands)) :
    Keeps b pc o := by
  obtain ⟨others, hcount⟩ := count_waiters_setTopic ht hname
  intro ch
  obtain ⟨hbefore, hafter⟩ := hcount ch
  have hle := hh.count_le ch
  simp only [count_append] at hle
  rw [hw, htr, hbefore, hafter, count_append]
  omega

theorem PushPc.step_keeps {pc : PushPc} (h : pc.step b p = some o)
    (hserves : (Pc.push p pc).serves = true) : Keeps b (.push p pc) o := by
  cases PushPc.steps h with
  | takeWild hb =>
    obtain ⟨t, ht, hb⟩ := map_eq_some_iff.mp hb
    cases hb
    have hname : { t with waitingConsumers := [] }.name = t.name := rfl
    refine .of_setTopic (m := []) ht hname rfl (append_nil _).symm ?_
    exact (perm_append_comm : (_ ++ t.waitingConsumers).Perm _).subperm
  | @takeOwn channels _ _ hb =>
    obtain ⟨t, ht, hb⟩ := map_eq_some_iff.mp hb
    cases hb
    have hname : { t with waitingConsumers := [] }.name = t.name := rfl
    refine .of_setTopic (m := channels ++ t.waitingConsumers) ht hname rfl ?_ ?_
    · simp [Outcome.ret, go, transit, Goroutine.channels, setTopic]
    · simpa [Pc.sent, Pc.hands, Next.hands, Outcome.ret] using
        (perm_append_comm : (channels ++ t.waitingConsumers).Perm _).subperm
  | popWild hb | popOwn hb =>
    obtain ⟨t, ht, hb⟩ := map_eq_some_iff.mp hb
    split at hb
    · cases hb
    next ch chs hw =>
      cases hb
      have hname : { t with waitingConsumers := chs }.name = t.name := rfl
      refine .of_setTopic (m := []) ht hname rfl (append_nil _).symm ?_
      simpa [Pc.sent, Outcome.goto, Next.hands, Pc.hands, hw] using (perm_append_singleton _ chs).subperm
  | noneWild hb | noneOwn hb =>
    obtain ⟨rfl, -⟩ := popWaiting_spec hb
    exact .of_hands (.refl _) rfl (by simp [Pc.sent, Outcome.goto, Outcome.ret, Next.hands, Pc.hands])
  | _ => cases hserves

theorem Pc.Flow.hands {next} (h : pc.Flow now b next) (hserves : pc.serves = false) : next.hands.Sublist pc.hands := by
  cases h with
  | takeWild | popWild | noneWild | popOwn | target => cases hserves
  | tookWild | find | getMatching | scan | scanned | scanAck | scanNext => exact .refl _
  | broadcast => exact sublist_cons_self _ _
  | _ => exact nil_sublist _

theorem Pc.Flow.hands_sent {next}
    (h : pc.Flow now b next) (hserves : pc.serves = false) (hto : pc.sendsTo b = some (ch, m)) :
    (ch :: next.hands).Sublist pc.hands := by
  unfold Pc.sendsTo at hto
  split at hto
  · cases hto
    cases h <;> exact .refl _
  · cases hto
    cases h <;> exact .refl _
  · cases hto
    cases h with
    | ret => exact (nil_sublist _).cons_cons _
    | broadcast => exact .refl _
  · cases hserves
  · cases hto

theorem Pc.step_hands (h : pc.step now b = some o)
    (hserves : pc.serves = false) : (pc.sent o ++ o.next.hands).Sublist pc.hands := by
  have hflow := Pc.step_flow h
  have hquiet : pc.sent o = [] → (pc.sent o ++ o.next.hands).Sublist pc.hands := by
    intro hsent
    rw [hsent]
    exact hflow.hands hserves
  cases hc : pc.isConsume with
  | true => exact hquiet (by simp [sent, hc])
  | false =>
    rcases Pc.step_sent h hc with hnone | ⟨ch, m, hto, -, hsent⟩
    · exact hquiet (by simp [sent, hnone])
    · simp only [sent, hc, hsent]
      exact hflow.hands_sent hserves hto

/-- **The channels a section leaves are those it found.** -/
theorem Pc.step_keeps (h : pc.step now b = some o) : Keeps b pc o := by
  cases hserves : pc.serves with
  | false =>
    have hw : o.broker.waiters.Perm b.waiters := by
      refine waiters_of_heapStep (Pc.step_heap h) fun r t t' hmove => ?_
      rcases hmove.waiting with hw | ⟨pc', hpc, hs⟩
      · exact hw
      · cases hpc
        rw [hserves] at hs
        cases hs
    have ht : o.broker.transit = b.transit := by
      cases Pc.step_gear h with
      | same hg => exact transit_of_gear hg
      | issue hpc hg | send hto hc hg =>
        exact congrArg (fun g : Gear => g.goroutines.flatMap Goroutine.channels) hg
      | timer hpc hg =>
        rw [transit, show o.broker.goroutines = _ from congrArg Gear.goroutines hg]
        simp [transit, Goroutine.channels]
      | cast hpc hg =>
        rw [hpc] at hserves
        cases hserves
    exact .of_hands hw ht (Pc.step_hands h hserves)
  | true =>
    cases pc with
    | push p pc => exact PushPc.step_keeps h hserves
    | consume q pc =>
      cases pc with
      | target r =>
        obtain ⟨⟨⟨results, ids, name⟩, b'⟩, hb, rfl⟩ := map_eq_some_iff.mp h
        obtain ⟨t, ht, hb⟩ := map_eq_some_iff.mp hb
        rcases hx : t.extractMessages q.limit now with ⟨found, ids₁, t₁⟩
        obtain ⟨hname, -, hwait, -⟩ := fields_of_emptied (emptied_extractMessages hx)
        rw [hx] at hb
        cases hb
        cases results with
        | nil =>
          have hname' : { t₁ with waitingConsumers := t₁.waitingConsumers ++ [q.notifyChan] }.name =
            t.name := hname
          refine .of_setTopic (m := []) ht hname' rfl (append_nil _).symm ?_
          simpa [Pc.sent, Pc.isConsume, Next.hands, Pc.hands, hwait] using Subperm.refl _
        | cons m ms =>
          refine .of_setTopic (m := []) ht hname rfl (append_nil _).symm ?_
          simpa [Pc.sent, Pc.isConsume, Next.hands, Pc.hands, hwait] using
            (sublist_append_left t.waitingConsumers [q.notifyChan]).subperm
      | _ => cases hserves
    | removeWaitingAt r topicName ch =>
      obtain ⟨b', hb, rfl⟩ := map_eq_some_iff.mp h
      obtain ⟨t, ht, rfl⟩ := map_eq_some_iff.mp hb
      have hname : { t with waitingConsumers := t.waitingConsumers.erase ch }.name = t.name := rfl
      refine .of_setTopic (m := []) ht hname rfl (append_nil _).symm ?_
      simpa [Pc.sent, Outcome.ret, Next.hands, Pc.hands] using (erase_sublist (a := ch)).subperm
    | requeueAt r m =>
      obtain ⟨⟨ch, b'⟩, hb, rfl⟩ := map_eq_some_iff.mp h
      obtain ⟨t, ht, hb⟩ := map_eq_some_iff.mp hb
      split at hb
      next hw =>
        cases hb
        have hname : (t.append .normal m).name = t.name := rfl
        refine .of_setTopic (m := []) ht hname rfl (append_nil _).symm ?_
        simp [Pc.sent, Next.hands, Pc.hands, hw]
      next ch chs hw =>
        have hname : { t with waitingConsumers := chs }.name = t.name := rfl
        dsimp only at hb
        split at hb
        next b₁ hsent =>
          obtain ⟨c, -, rfl⟩ := map_eq_some_iff.mp hsent
          cases hb
          refine .of_setTopic (m := []) ht hname rfl (append_nil _).symm ?_
          simpa [Pc.sent, Pc.isConsume, Next.hands, Pc.hands,
            hw] using (perm_append_singleton ch chs).subperm
        · cases hb
          have hname' : ({ t with waitingConsumers := chs }.append .normal m).name = t.name := rfl
          refine .of_setTopic (m := []) ht hname' rfl (append_nil _).symm ?_
          simpa [Pc.sent, Next.hands, Pc.hands, hw] using (sublist_cons_self ch chs).subperm
    | _ => cases hserves

theorem Pc.step_holdWild (h : pc.step now b = some o) (hn : o.next = .goto (.push p (.holdWild rest))) :
    ∃ ch, pc.sendsTo b = some (ch, p.msg) ∧ b.trySend ch p.msg = none := by
  cases Pc.step_goto h hn with
  | fullWild hfull => exact ⟨_, rfl, hfull⟩

/-! ## Runs -/

namespace World

variable {pc : Pc} {o : Outcome}

variable {w w' : World} {l : WorldLabel} {i : Nat}

def hands (w : World) (i : Nat) : List Chan := ((w.pcAt i).map Pc.hands).getD []

/-- The channels that wait, that a broadcast takes along, and that were sent
to. -/
def places (w : World) : List Chan := w.broker.waiters ++ w.broker.transit ++ w.past.sent.map Prod.fst

/-- Every `Consume` is passed a channel that no `Consume` was passed before. -/
def FreshChannels (w : World) : WorldLabel → Prop
  | .sys (.start _ (.consume q)) => q.notifyChan ∉ w.past.passed
  | _ => True

instance (w : World) (l : WorldLabel) : Decidable (w.FreshChannels l) := by
  unfold FreshChannels
  split <;> infer_instance

structure SingleUse (w : World) : Prop where
  framed : w.Framed
  held : Tokens.Held (· ∈ w.past.passed) w.places w.hands
  chans : ∀ ch, (w.broker.chans ch).cap = 1 ∧ ((w.broker.chans ch).buf ≠ [] → ch ∈ w.past.sent.map Prod.fst)
  noHold : ∀ i p rest, w.pcAt i ≠ some (.push p (.holdWild rest))

theorem places_congr (hheap : w'.broker.heap = w.broker.heap)
    (hgo : w'.broker.goroutines = w.broker.goroutines) (hsent : w'.past.sent = w.past.sent) :
    w'.places = w.places := by
  rw [places, places, waiters, waiters, gather, gather, transit,
    transit, hheap,
    hgo, hsent]

theorem hands_of_pcAt (h : w.pcAt i = some pc) : w.hands i = pc.hands := by simp [hands, h]

theorem hands_of_none (h : w.pcAt i = none) : w.hands i = [] := by simp [hands, h]

theorem hands_of_outset (h : ∀ pc, w.pcAt i = some pc → pc.Outset) : w.hands i = [] := by
  cases hpc : w.pcAt i with
  | none => exact hands_of_none hpc
  | some pc =>
    rw [hands_of_pcAt hpc]
    have hout := h pc hpc
    obtain ⟨left, a, k, rfl, -⟩ := hout.eq
    rfl

namespace SingleUse

theorem not_sent (h : w.SingleUse) (hch : ch ∈ w.broker.waiters ∨ ch ∈ w.hands i) :
    ch ∉ w.past.sent.map Prod.fst := by
  intro hsent
  rcases hch with hw | hh
  · have hnodup := (nodup_append.mp (h.held.nodup 0)).1
    exact disjoint_of_nodup_append hnodup (mem_append_left _ hw) hsent
  · exact h.held.not_mem_places hh (mem_append_right _ hsent)

theorem buf_eq_nil (h : w.SingleUse) (hch : ch ∈ w.broker.waiters ∨ ch ∈ w.hands i) :
    (w.broker.chans ch).buf = [] := by
  by_contra hbuf
  exact h.not_sent hch ((h.chans ch).2 hbuf)

/-- **Every send succeeds.** -/
theorem trySend_ne_none (h : w.SingleUse) (hpc : w.pcAt i = some pc)
    (hto : pc.sendsTo w.broker = some (ch, m)) : w.broker.trySend ch m ≠ none := by
  have hch : ch ∈ w.broker.waiters ∨ ch ∈ w.hands i := by
    rw [hands_of_pcAt hpc]
    unfold Pc.sendsTo at hto
    split at hto
    case h_4 r m' =>
      obtain ⟨ch', hhead, heq⟩ := map_eq_some_iff.mp hto
      cases heq
      obtain ⟨chs, hw⟩ := head?_eq_some_iff.mp hhead
      cases ht : w.broker.heap[r]? with
      | none => simp [waiting, ht] at hw
      | some t =>
        rw [waiting_of_getElem? ht] at hw
        exact .inl (mem_gather ht (by rw [hw]; exact mem_cons_self))
    case h_5 => cases hto
    all_goals
      cases hto
      exact .inr (by simp [Pc.hands])
  have hbuf := h.buf_eq_nil hch
  have hcap := (h.chans ch).1
  simp [trySend, Channel.trySend, hbuf, hcap]

theorem of_move (h : w.SingleUse) (i : Nat) (hsub : (w'.places ++ w'.hands i).Subperm (w.places ++ w.hands i))
    (hothers : ∀ j, j ≠ i → w'.pcAt j = w.pcAt j) (hpassed : w'.past.passed = w.past.passed) :
    Tokens.Held (· ∈ w'.past.passed) w'.places w'.hands := by
  rw [hpassed]
  exact h.held.move i hsub fun j hj => by rw [hands, hands, hothers j hj]

theorem of_same (h : w.SingleUse) (hheap : w'.broker.heap = w.broker.heap)
    (hgo : w'.broker.goroutines = w.broker.goroutines) (hsent : w'.past.sent = w.past.sent)
    (hcalls : w'.sys.calls = w.sys.calls) (hpassed : w'.past.passed = w.past.passed) :
    Tokens.Held (· ∈ w'.past.passed) w'.places w'.hands := by
  have hpc : ∀ j, w'.pcAt j = w.pcAt j := fun j => by rw [pcAt, pcAt, hcalls]
  refine h.of_move 0 ?_ (fun j _ => hpc j) hpassed
  rw [places_congr hheap hgo hsent, hands, hands, hpc]

end SingleUse

theorem hands_of_next (h : Advances w w' i pc o) : (w'.hands i).Sublist o.next.hands := by
  cases hn : o.next with
  | goto pc' =>
    rw [hands_of_pcAt (h.goto pc' hn)]
    exact .refl _
  | call dest caller | ret r =>
    rw [hands_of_outset (h.leave fun pc' => by rw [hn]; nofun)]
    exact nil_sublist _

theorem sent_of_advances (h : Advances w w' i pc o) :
    w'.past.sent.map Prod.fst = w.past.sent.map Prod.fst ++ pc.sent o := by
  rw [h.sent, map_append, Pc.sent]
  split <;> simp

theorem sent_of_not_run (h : w.runs l = none) : (w.record l s).sent = w.past.sent := by
  simp [record, h]

theorem places_of_advances (h : Advances w w' i pc o) :
    (w'.places ++ w'.hands i).Subperm (w.places ++ w.hands i) := by
  refine subperm_ext_iff.mpr fun ch _ => ?_
  have hkeeps := Pc.step_keeps h.step ch
  have hnext := (hands_of_next h).count_le ch
  simp only [places, count_append, sent_of_advances h, h.broker, hands_of_pcAt h.at_pc]
  omega

theorem places_of_fires (h : Fires w w' k i g c) : (w'.places ++ w'.hands i).Subperm (w.places ++ w.hands i) := by
  have hchannels : c.pc.hands = g.channels := by
    rcases Goroutine.entry_pc h.entry with ⟨due, push, rfl, -, hpc⟩ | ⟨channels, m, rfl, hpc⟩ <;>
      rw [hpc] <;> rfl
  obtain ⟨hk, hget⟩ := List.getElem?_eq_some_iff.mp h.goroutine
  have hperm : (g :: w.broker.goroutines.eraseIdx k).Perm w.broker.goroutines := by
    rw [← hget]
    exact getElem_cons_eraseIdx_perm hk
  have hsent : w'.past.sent = w.past.sent := by rw [h.past, sent_of_not_run rfl]
  refine subperm_ext_iff.mpr fun ch _ => ?_
  have htransit := (hperm.flatMap_right Goroutine.channels).count_eq ch
  rw [flatMap_cons, count_append] at htransit
  simp only [places, count_append, hands_of_pcAt h.self, hchannels, hsent, h.broker, transit]
  rw [← htransit]
  have hw : waiters { w.broker with goroutines := w.broker.goroutines.eraseIdx k } =
    w.broker.waiters := rfl
  rw [hw]
  omega

theorem places_of_method (hf : w.Framed) (hs : w.step (.run i) = some w') :
    (w'.places ++ w'.hands i).Subperm (w.places ++ w.hands i) := by
  have hhands : (w'.hands i).Sublist (w.hands i) := by
    cases turn hf hs i with
    | same hsame => rw [hands, hands, hsame]
    | publish hl hout => rw [hands_of_outset hout]; exact nil_sublist _
    | start hl | fire hl | run hl => cases hl
  have hw : w'.broker.waiters.Perm w.broker.waiters := by
    refine waiters_of_heapStep (step_heap hs) ?_
    rintro r t t' ⟨sec, hsec, hmove⟩
    rcases hmove.waiting with hw | ⟨pc, rfl, -⟩
    · exact hw
    · obtain ⟨j, c, hl, -⟩ := sectionOf_call hsec
      cases hl
  obtain ⟨pc, o, -, ho, rfl⟩ := step_run hs
  have ht : o.broker.transit = w.broker.transit := transit_of_gear (MethodPc.step_gear ho)
  refine Subperm.append ?_ hhands.subperm
  rw [places, places, sent_of_not_run rfl]
  exact ((hw.append (.of_eq ht)).append_right _).subperm

namespace SingleUse

theorem chans_step (h : w.SingleUse) (hs : w.step l = some w') (ch : Chan) :
    (w'.broker.chans ch).cap = 1 ∧ ((w'.broker.chans ch).buf ≠ [] → ch ∈ w'.past.sent.map Prod.fst) := by
  obtain ⟨hcap, hbuf⟩ := h.chans ch
  have hkeep : w'.broker.chans = w.broker.chans → w'.past.sent = w.past.sent →
      (w'.broker.chans ch).cap = 1 ∧ ((w'.broker.chans ch).buf ≠ [] → ch ∈ w'.past.sent.map Prod.fst) := by
    intro hc hsent
    rw [hc, hsent]
    exact ⟨hcap, hbuf⟩
  cases l with
  | sys l =>
    cases l with
    | run i =>
      obtain ⟨pc, o, hadv⟩ := advances h.framed hs
      rw [hadv.broker, sent_of_advances hadv]
      have hsame : o.broker.chans = w.broker.chans → (o.broker.chans ch).cap = 1 ∧
          ((o.broker.chans ch).buf ≠ [] → ch ∈ w.past.sent.map Prod.fst ++ pc.sent o) := by
        intro hc
        rw [hc]
        exact ⟨hcap, fun hb => mem_append_left _ (hbuf hb)⟩
      cases Pc.step_gear hadv.step with
      | same hg | issue hpc hg | timer hpc hg | cast hpc hg => exact hsame (congrArg Gear.chans hg)
      | @send ch' m c hto hc hg hhanded =>
        rw [show o.broker.chans = Function.update w.broker.chans ch' c from congrArg Gear.chans hg]
        by_cases hch : ch = ch'
        · subst hch
          have hcap' : c.cap = (w.broker.chans ch).cap := by
            unfold Channel.trySend at hc
            split at hc <;> cases hc
            rfl
          rw [Function.update_self]
          have hsend : pc.isConsume = false := by
            unfold Pc.sendsTo at hto
            split at hto <;> first | rfl | cases hto
          exact ⟨hcap'.trans hcap, fun _ => mem_append_right _ (by simp [Pc.sent, hsend, hhanded])⟩
        · rw [Function.update_of_ne hch]
          exact ⟨hcap, fun hb => mem_append_left _ (hbuf hb)⟩
    | recv ch' =>
      obtain ⟨-, s, hsys, rfl⟩ := step_sys hs
      obtain ⟨m, rest, hm, rfl⟩ := Sys.step_recv hsys
      rw [sent_of_not_run rfl]
      by_cases hch : ch = ch'
      · subst hch
        have hb : (w.broker.chans ch).buf ≠ [] := by
          rw [broker, hm]
          simp
        exact ⟨by simpa [broker] using hcap, fun _ => hbuf hb⟩
      · simpa [broker, hch] using And.intro hcap hbuf
    | tick d =>
      obtain ⟨-, s, hsys, rfl⟩ := step_sys hs
      cases hsys
      exact hkeep rfl (sent_of_not_run rfl)
    | start i op =>
      obtain ⟨-, s, hsys, rfl⟩ := step_sys hs
      obtain ⟨-, -, rfl⟩ := Sys.step_start hsys
      exact hkeep rfl (sent_of_not_run rfl)
    | fire k i =>
      obtain ⟨-, s, hsys, rfl⟩ := step_sys hs
      obtain ⟨g, c, -, -, -, -, rfl⟩ := Sys.step_fire hsys
      exact hkeep rfl (sent_of_not_run rfl)
  | start i m =>
    obtain ⟨-, -, rfl⟩ := step_start hs
    exact hkeep rfl rfl
  | run i =>
    obtain ⟨pc, o, -, ho, rfl⟩ := step_run hs
    exact hkeep (congrArg Gear.chans (MethodPc.step_gear ho)) (sent_of_not_run rfl)
  | recvSpy ch =>
    obtain ⟨spyChans, rfl⟩ := step_recvSpy hs
    exact hkeep rfl rfl

theorem noHold_step (h : w.SingleUse) (hs : w.step l = some w') (j : Nat) (p : Push) (rest : List TopicRef) :
    w'.pcAt j ≠ some (.push p (.holdWild rest)) := by
  intro hpc'
  have hout : ¬ ∀ pc', w'.pcAt j = some pc' → pc'.Outset := fun hall => hall _ hpc'
  cases turn h.framed hs j with
  | same hsame => exact h.noHold j p rest (hsame ▸ hpc')
  | @start op hl hstarts => cases op <;> cases hstarts.self.symm.trans hpc'
  | @fire k g c hl hfires =>
    have hpc : c.pc = .push p (.holdWild rest) := some.inj (hfires.self.symm.trans hpc')
    rcases Goroutine.entry_pc hfires.entry with ⟨due, push, -, -, hentry⟩ | ⟨channels, m, -, hentry⟩ <;>
      cases hentry.symm.trans hpc
  | @run pc o hl hadv =>
    cases hn : o.next with
    | goto pc' =>
      cases (hadv.goto pc' hn).symm.trans hpc'
      obtain ⟨ch, hto, hfail⟩ := Pc.step_holdWild hadv.step hn
      exact h.trySend_ne_none hadv.at_pc hto hfail
    | call dest caller | ret r => exact hout (hadv.leave fun pc' => by rw [hn]; nofun)
  | publish hl hall => exact hout hall

theorem tokens_step (h : w.SingleUse) (hok : w.FreshChannels l) (hs : w.step l = some w') :
    Tokens.Held (· ∈ w'.past.passed) w'.places w'.hands := by
  cases l with
  | sys l =>
    cases l with
    | tick d =>
      obtain ⟨-, s, hsys, rfl⟩ := step_sys hs
      cases hsys
      exact h.of_same rfl rfl (sent_of_not_run rfl) rfl (append_nil _)
    | recv ch =>
      obtain ⟨-, s, hsys, rfl⟩ := step_sys hs
      obtain ⟨m, rest, -, rfl⟩ := Sys.step_recv hsys
      exact h.of_same rfl rfl (sent_of_not_run rfl) rfl (append_nil _)
    | start i op =>
      have hst := starts hs
      have hplaces : w'.places = w.places :=
        places_congr (by rw [hst.broker]) (by rw [hst.broker]) (by rw [hst.past, sent_of_not_run rfl])
      cases op with
      | consume q =>
        have hpassed : w'.past.passed = w.past.passed ++ [q.notifyChan] := by rw [hst.past]; rfl
        rw [hplaces, hpassed]
        exact h.held.give i hok (hands_of_pcAt hst.self) (fun j hj => by rw [hands, hands, hst.others j hj])
          (fun _ => mem_append_left _) (mem_append_right _ mem_cons_self)
      | _ =>
        refine h.of_move i ?_ hst.others (by rw [hst.past]; exact append_nil _)
        rw [hplaces, hands_of_pcAt hst.self]
        exact ((Sublist.refl w.places).append (nil_sublist _)).subperm
    | fire k i =>
      obtain ⟨g, c, hfi⟩ := fires hs
      exact h.of_move i (places_of_fires hfi) hfi.others (by rw [hfi.past]; exact append_nil _)
    | run i =>
      obtain ⟨pc, o, hadv⟩ := advances h.framed hs
      exact h.of_move i (places_of_advances hadv) hadv.others (by rw [hadv.past]; exact append_nil _)
  | start i m =>
    obtain ⟨-, -, rfl⟩ := step_start hs
    exact h.of_same rfl rfl rfl rfl rfl
  | run i =>
    refine h.of_move i (places_of_method h.framed hs) (fun j hj => ?_) ?_
    · cases turn h.framed hs j with
      | same hsame => exact hsame
      | publish hl => exact absurd (WorldLabel.run.inj hl).symm hj
      | start hl | fire hl | run hl => cases hl
    · obtain ⟨pc, o, -, -, rfl⟩ := step_run hs
      exact append_nil _
  | recvSpy ch =>
    obtain ⟨spyChans, rfl⟩ := step_recvSpy hs
    exact h.of_same rfl rfl rfl rfl rfl

theorem step (h : w.SingleUse) (hok : w.FreshChannels l) (hs : w.step l = some w') : w'.SingleUse :=
  ⟨h.framed.step hs, h.tokens_step hok hs, h.chans_step hs, h.noHold_step hs⟩

theorem init (now limits policy hooked storage env) :
    (World.init now (.new limits policy hooked storage env fun _ => ⟨1, []⟩)).SingleUse where
  framed := init_framed
  held := ⟨fun _ => nodup_nil, fun _ => disjoint_nil_left _, fun ha => absurd ha not_mem_nil⟩
  chans _ := ⟨rfl, fun hb => absurd rfl hb⟩
  noHold _ _ _ := nofun

end SingleUse

section Runs

variable {now : Time} {limits policy hooked storage env}

/-- **Notify channels are single-use**: in every run of any methods in which
each `Consume` is passed a new channel of capacity one, a channel waits at
one topic at most and is empty while it waits, it is sent to once at most,
every send succeeds, and the branch that locks a topic for good is never
taken. -/
theorem channels_single_use
    (hrun : Lts.Run step FreshChannels (init now (.new limits policy hooked storage env fun _ => ⟨1, []⟩)) w) :
    w.broker.waiters.Nodup ∧ (∀ ch ∈ w.broker.waiters, (w.broker.chans ch).buf = []) ∧
      (w.past.sent.map Prod.fst).Nodup ∧
      (∀ i pc ch m, w.pcAt i = some pc → pc.sendsTo w.broker = some (ch, m) → w.broker.trySend ch m ≠ none) ∧
      ∀ i p rest, w.pcAt i ≠ some (.push p (.holdWild rest)) := by
  have h : w.SingleUse := hrun.invariant (I := SingleUse) (fun _ _ _ => SingleUse.step) (.init ..)
  have hnodup : w.places.Nodup := h.held.places_nodup
  refine ⟨?_, fun ch hch => h.buf_eq_nil (i := 0) (.inl hch), ?_, fun i pc ch m =>
    h.trySend_ne_none, h.noHold⟩
  · exact (nodup_append.mp (nodup_append.mp hnodup).1).1
  · exact (nodup_append.mp hnodup).2.1

/-- Two consumers wait; a broadcast is sent to both, a message that comes
before it to a third one, and its topic is deleted. -/
def broadcastToTwo : List WorldLabel :=
  WorldLabel.call 0 (.consume ⟨ascii "t", 1, 10⟩) 5 ++ WorldLabel.call 1 (.publish samplePublish) 13 ++
    WorldLabel.call 2 (.consume ⟨ascii "t", 1, 12⟩) 5 ++ WorldLabel.call 3 (.consume ⟨ascii "t", 1, 13⟩) 5 ++
    WorldLabel.call 4 (.publish { samplePublish with isBroadcast := true }) 11 ++
    [.sys (.fire 0 5), .sys (.run 5), .sys (.run 5)] ++ WorldLabel.method 6 (.deleteTopic (ascii "t") true) 2

theorem channels_single_use_sample : ∃ w, Lts.Run step FreshChannels (init 0 .sample) w ∧
    w.past.sent.map Prod.fst = [10, 12, 13] ∧ (w.past.sent.map Prod.fst).Nodup :=
  have hrun : Lts.Run step FreshChannels (init 0 .sample) _ :=
    Lts.Run.of_exec_get broadcastToTwo (by decide +kernel) (by decide +kernel)
  ⟨_, hrun, by decide +kernel, (channels_single_use hrun).2.2.1⟩

end Runs

end World

end TinyMQ
