/-
How the calls of the world go on.

A call that runs a section goes on from it, calls `publishCore` for a bound
topic, or returns, to a `publishCore` that waits in its loop over the bound
topics or to nobody. Only the first leaves a call with something in its
hands: `Turn` tells it from the others.
-/
import TinyMQ.Flow
import TinyMQ.Moves

namespace TinyMQ

open List Option Function Broker

variable {pc : Pc} {now : Time} {b : Broker} {o : Outcome} {P : Pc → Prop} {c : Call} {g : Goroutine}

/-- A `publishCore` that has not come to its own topic yet. -/
def Pc.Outset : Pc → Prop
  | .publish _ _ .enter => True
  | .publish _ _ (.fanOut _) => True
  | _ => False

theorem Pc.Outset.eq (h : pc.Outset) :
    ∃ left a k, pc = .publish left a k ∧ (k = .enter ∨ ∃ dests, k = .fanOut dests) := by
  unfold Outset at h
  split at h
  · exact ⟨_, _, _, rfl, .inl rfl⟩
  · exact ⟨_, _, _, rfl, .inr ⟨_, rfl⟩⟩
  · exact h.elim

/-- The callers of a call are in their loop over the bound topics. -/
def Call.Framed (c : Call) : Prop := ∀ pc ∈ c.stack, pc.Outset

/-- Only `publishCore` in its loop makes a call, of itself. -/
theorem Pc.step_call (h : pc.step now b = some o)
    (hn : o.next = .call dest caller) : dest.Outset ∧ caller.Outset := by
  have hflow := Pc.step_flow h
  rw [hn] at hflow
  cases hflow
  exact ⟨trivial, trivial⟩

/-! ## Goroutines, channels and identifiers -/

/-- What the broker has besides its topics and its files. -/
structure Gear where
  goroutines : List Goroutine
  chans : Chan → Channel
  uuids : Nat

namespace Broker

def gear (b : Broker) : Gear := ⟨b.goroutines, b.chans, b.uuids⟩

variable {b b' : Broker} {m : Message}

theorem gear_getOrCreateTopic (b : Broker) (name : GoString) : (b.getOrCreateTopic name).2.gear = b.gear := by
  unfold getOrCreateTopic
  split
  · rfl
  · split <;> rfl

theorem gear_matchingTopics (b : Broker) (topicName : GoString) : (b.matchingTopics topicName).2.gear = b.gear := by
  unfold matchingTopics
  split
  · split <;> rfl
  · rfl

theorem gear_callOnPublish (b : Broker) : b.callOnPublish.2.gear = b.gear := by
  unfold callOnPublish
  split <;> rfl

theorem gear_sendSpies (b : Broker) (m : Message) (spies : List Spy) : (b.sendSpies m spies).gear = b.gear := by
  induction spies generalizing b with
  | nil => rfl
  | cons spy spies ih =>
    rw [sendSpies]
    split
    · exact ih _
    · exact ih b

theorem gear_go (h : b'.gear = b.gear) (g : Goroutine) :
    (b'.go g).gear = { b.gear with goroutines := b.goroutines ++ [g] } :=
  congrArg (fun gear : Gear => { gear with goroutines := gear.goroutines ++ [g] }) h

theorem gear_lock {f : Topic → α × Broker} (hf : ∀ t, (f t).2.gear = b.gear)
    (h : (b.lock r).map f = some (x, b')) : b'.gear = b.gear := by
  obtain ⟨t, -, ht⟩ := map_eq_some_iff.mp h
  have hg := hf t
  rwa [ht] at hg

theorem gear_store (h : b.store r topicName priority isBroadcast m = some (e, b')) : b'.gear = b.gear := by
  refine gear_lock (fun t => ?_) h
  cases isBroadcast <;> dsimp only <;> repeat' split
  all_goals rfl

end Broker

def Pc.sendsTo (b : Broker) : Pc → Option (Chan × Message)
  | .push p (.sendWild ch _) => some (ch, p.msg)
  | .push p (.sendOwn ch) => some (ch, p.msg)
  | .broadcast (ch :: _) m => some (ch, m)
  | .requeueAt t m => (b.waiting t).head?.map fun ch => (ch, m)
  | _ => none

/-- **What a section does besides changing topics**: it takes an identifier,
starts a goroutine or sends to a channel. -/
inductive GearStep (now : Time) (b : Broker) (pc : Pc) (o : Outcome) : Prop
  | same : o.broker.gear = b.gear → (pc.isConsume = false → o.handed = []) → GearStep now b pc o
  | issue {left p t wildcards} {topic : Topic} :
      pc = .publish left p (.newMessage t wildcards) → o.broker.gear = { b.gear with uuids := b.uuids + 1 } →
      o.next =
        .goto (.publish left p (.onPublish t wildcards (p.message (b.env.newUUID b.uuids) topic.retention now))) →
      o.handed = [] → GearStep now b pc o
  | timer {left p t matchingWildcards msg} : pc = .publish left p (.store t matchingWildcards msg true) →
      o.broker.gear = { b.gear with
        goroutines := b.goroutines ++
          [.timer (p.deliverAt.getD now) { t, msg, matchingWildcards, isBroadcast := p.isBroadcast }] } →
      o.next = .ret (.published (.ok msg)) → o.handed = [] → GearStep now b pc o
  | cast {p channels} : pc = .push p (.takeOwn channels) →
      o.broker.gear = { b.gear with goroutines := b.goroutines ++ [.broadcast (channels ++ b.waiting p.t) p.msg] } →
      o.next = .ret (.published (.ok p.msg)) → o.handed = [] → GearStep now b pc o
  | send {ch m c} : pc.sendsTo b = some (ch, m) → (b.chans ch).trySend m = some c →
      o.broker.gear = { b.gear with chans := update b.chans ch c } → o.handed = [(ch, m)] → GearStep now b pc o

theorem PublishPc.step_gear {left p} {pc : PublishPc} (h : pc.step now b left p = some o) :
    GearStep now b (.publish left p pc) o := by
  have hhook : (if p.isReplication then ((none : Option GoString), b) else b.callOnPublish).2.gear = b.gear := by
    split
    · rfl
    · exact b.gear_callOnPublish
  have hget := b.gear_getOrCreateTopic p.topicName
  cases PublishPc.steps h with
  | full hb | getTopic hb => rw [hb] at hget; exact .same hget fun _ => rfl
  | newMessage => exact .issue rfl rfl rfl rfl
  | refused hb | onPublish hb => rw [hb] at hhook; exact .same hhook fun _ => rfl
  | failed hb | stored hb => exact .same (gear_store hb) fun _ => rfl
  | delayed hb => exact .timer rfl (gear_go (gear_store hb) _) rfl rfl
  | _ => exact .same rfl fun _ => rfl

theorem PushPc.step_gear {pc : PushPc} (h : pc.step b p = some o) : GearStep now b (.push p pc) o := by
  cases PushPc.steps h with
  | spies hb | wildSpy hb =>
    obtain ⟨t, -, rfl⟩ := map_eq_some_iff.mp hb
    exact .same (b.gear_sendSpies _ _) fun _ => rfl
  | takeWild hb => exact .same (gear_lock (fun _ => rfl) hb) fun _ => rfl
  | takeOwn hb =>
    obtain ⟨t, ht, hb⟩ := map_eq_some_iff.mp hb
    cases hb
    refine .cast rfl ?_ rfl rfl
    rw [waiting_of_lock ht]
    rfl
  | popWild hb | noneWild hb | popOwn hb | noneOwn hb =>
    exact .same (gear_lock (fun t => by split <;> rfl) hb) fun _ => rfl
  | sentWild hb | sentOwn hb =>
    obtain ⟨c, hc, rfl⟩ := map_eq_some_iff.mp hb
    exact .send rfl hc rfl rfl
  | holdWild hb | remove hb =>
    obtain ⟨t, -, rfl⟩ := map_eq_some_iff.mp hb
    exact .same rfl fun _ => rfl
  | spied | tookWild | poppedWild | fullWild | fullOwn => exact .same rfl fun _ => rfl

theorem ConsumePc.step_gear {q} {pc : ConsumePc}
    (h : pc.step now b q = some o) : GearStep now b (.consume q pc) o := by
  have hget := b.gear_getOrCreateTopic q.topicName
  cases ConsumePc.steps h with
  | full hb | getTopic hb => rw [hb] at hget; exact .same hget nofun
  | getMatching => exact .same (b.gear_matchingTopics _) nofun
  | scan hb | target hb => exact .same (gear_lock (fun _ => rfl) hb) nofun
  | _ => exact .same rfl nofun

theorem Pc.step_gear (h : pc.step now b = some o) : GearStep now b pc o := by
  cases Pc.steps h with
  | publish h => exact PublishPc.step_gear h
  | push h => exact PushPc.step_gear h
  | consume h => exact ConsumePc.step_gear h
  | castSent hb =>
    obtain ⟨c, hc, rfl⟩ := map_eq_some_iff.mp hb
    exact .send rfl hc rfl rfl
  | ackAt hb => exact .same (gear_lock (fun t => by split <;> rfl) hb) fun _ => rfl
  | leaveAt hb =>
    obtain ⟨t, -, rfl⟩ := map_eq_some_iff.mp hb
    exact .same rfl fun _ => rfl
  | @requeueFull m _ hb | @requeueFound m _ _ hb =>
    have hg := b.gear_getOrCreateTopic (requeued m).topic
    rw [hb] at hg
    exact .same hg fun _ => rfl
  | requeueAt hb =>
    obtain ⟨t, ht, hb⟩ := map_eq_some_iff.mp hb
    split at hb
    · cases hb
      exact .same rfl fun _ => rfl
    next ch chs hw =>
      dsimp only at hb
      split at hb
      next b₁ hsent =>
        obtain ⟨c, hc, rfl⟩ := map_eq_some_iff.mp hsent
        cases hb
        exact .send (by simp [sendsTo, waiting_of_lock ht, hw]) hc rfl rfl
      · cases hb
        exact .same rfl fun _ => rfl
  | _ => exact .same rfl fun _ => rfl

theorem Pc.step_sent (h : pc.step now b = some o) (hc : pc.isConsume = false) : o.handed = [] ∨
      ∃ ch m, pc.sendsTo b = some (ch, m) ∧ (b.trySend ch m).isSome = true ∧ o.handed = [(ch, m)] := by
  cases Pc.step_gear h with
  | same hg hnone => exact .inl (hnone hc)
  | issue hpc hg hn hnone | timer hpc hg hn hnone | cast hpc hg hn hnone => exact .inl hnone
  | send hto hroom hg hsent => exact .inr ⟨_, _, hto, by simp [trySend, hroom], hsent⟩

theorem MethodPc.step_gear {ret pc o} (h : MethodPc.step now b ret pc = some o) : o.broker.gear = b.gear := by
  cases MethodPc.steps h with
  | spyFull | createGroupAt => exact b.gear_getOrCreateTopic _
  | @addSpy n r b' hb =>
    have hg := b.gear_getOrCreateTopic n
    rwa [hb] at hg
  | addSpyAt hb => exact gear_lock (fun _ => rfl) hb
  | removeSpyAt hb => exact gear_lock (fun _ => by split <;> rfl) hb
  | @createTopic n policy retention e =>
    show (b.createTopic n policy retention).2.gear = b.gear
    unfold Broker.createTopic
    repeat' split
    all_goals rfl
  | _ => rfl

/-! ## The calls of the world -/

/-- Every frame of a call, the one that runs and those that wait. -/
def Call.All (P : Pc → Prop) (c : Call) : Prop := ∀ pc ∈ c.pc :: c.stack, P pc

def Next.All (P : Pc → Prop) : Next → Prop
  | .goto pc => P pc
  | .call dest caller => P dest ∧ P caller
  | .ret _ => True

theorem Call.all_entry {op : Op} (h : P op.entry.pc) : op.entry.All P := by
  intro pc hpc
  cases op <;> exact mem_singleton.mp hpc ▸ h

theorem Call.all_resume {stack next} (h : Call.resume stack next = .inl c)
    (hnext : next.All P) (hstack : ∀ pc ∈ stack, P pc) : c.All P := by
  rcases Call.resume_eq_inl h with ⟨rfl, hst⟩ | ⟨caller, rfl, hst⟩ | ⟨r, rfl, hst⟩
  · exact forall_mem_cons.mpr ⟨hnext, hst ▸ hstack⟩
  · refine forall_mem_cons.mpr ⟨hnext.1, ?_⟩
    rw [hst]
    exact forall_mem_cons.mpr ⟨hnext.2, hstack⟩
  · exact fun pc hpc => hstack pc (hst ▸ hpc)

theorem Call.Framed.resume (hf : c.Framed)
    (ho : c.pc.step now b = some o) (h : Call.resume c.stack o.next = .inl c') :
    c'.Framed ∧ (o.next = .goto c'.pc ∨ (∀ pc, o.next ≠ .goto pc) ∧ c'.pc.Outset) := by
  rcases Call.resume_eq_inl h with ⟨hn, hst⟩ | ⟨caller, hn, hst⟩ | ⟨r, hn, hst⟩
  · exact ⟨fun pc hpc => hf pc (hst ▸ hpc), .inl hn⟩
  · obtain ⟨hdest, hcaller⟩ := Pc.step_call ho hn
    refine ⟨fun pc hpc => ?_, .inr ⟨fun pc => by rw [hn]; nofun, hdest⟩⟩
    rw [hst] at hpc
    rcases mem_cons.mp hpc with rfl | hpc
    · exact hcaller
    · exact hf pc hpc
  · refine ⟨fun pc hpc => hf pc ?_, .inr ⟨fun pc => by rw [hn]; nofun, hf _ ?_⟩⟩
    · rw [hst]
      exact mem_cons_of_mem _ hpc
    · rw [hst]
      exact mem_cons_self

theorem Op.entry_framed (op : Op) : op.entry.Framed := by
  cases op <;> exact fun pc hpc => absurd hpc not_mem_nil

theorem Goroutine.entry_eq (h : g.entry now = some c) :
    (∃ due push, g = .timer due push ∧ due ≤ now ∧ c = ⟨.push push .spies, []⟩) ∨
      ∃ channels m, g = .broadcast channels m ∧ c = ⟨.broadcast channels m, []⟩ := by
  cases g with
  | timer due push =>
    simp only [Goroutine.entry] at h
    split at h
    next hdue =>
      cases h
      exact .inl ⟨due, push, rfl, hdue, rfl⟩
    · cases h
  | broadcast channels m =>
    cases h
    exact .inr ⟨channels, m, rfl, rfl⟩

theorem Goroutine.entry_pc (h : g.entry now = some c) :
    (∃ due push, g = .timer due push ∧ due ≤ now ∧ c.pc = .push push .spies) ∨
      ∃ channels m, g = .broadcast channels m ∧ c.pc = .broadcast channels m := by
  rcases Goroutine.entry_eq h with ⟨due, push, hg, hdue, rfl⟩ | ⟨channels, m, hg, rfl⟩
  · exact .inl ⟨due, push, hg, hdue, rfl⟩
  · exact .inr ⟨channels, m, hg, rfl⟩

theorem Goroutine.entry_framed (h : g.entry now = some c) : c.Framed := by
  rcases Goroutine.entry_eq h with ⟨due, push, -, -, rfl⟩ | ⟨channels, m, -, rfl⟩
  · exact fun pc hpc => absurd hpc not_mem_nil
  · exact fun pc hpc => absurd hpc not_mem_nil

theorem Sys.setCall_calls_ne (s : Sys) (h : j ≠ i) (v : Call ⊕ Ret) : (s.setCall i v).calls j = s.calls j := by
  cases v <;> exact update_of_ne h _ _

theorem Sys.calls_of_free {s : Sys} (h : s.free i = true) : s.calls i = none := by
  simp only [Sys.free, Bool.and_eq_true, isNone_iff_eq_none] at h
  exact h.1

namespace World

variable {i j : Nat}

variable {w w' : World} {l : WorldLabel} {now : Time} {b : Broker}

def pcAt (w : World) (i : Nat) : Option Pc := (w.sys.calls i).map Call.pc

def Framed (w : World) : Prop := w.sys.AllCalls Call.Framed

theorem Framed.step (hf : w.Framed) (hs : w.step l = some w') : w'.Framed := by
  cases l with
  | sys l =>
    obtain ⟨-, s, hsys, rfl⟩ := step_sys hs
    exact hf.step hsys (fun _ op _ => op.entry_framed) (fun _ _ _ hc => Goroutine.entry_framed hc)
      fun _ _ _ _ _ hc ho hres => (hc.resume ho hres).1
  | start i m =>
    obtain ⟨-, -, rfl⟩ := step_start hs
    exact hf
  | run i =>
    obtain ⟨pc, o, -, -, rfl⟩ := step_run hs
    intro j c hc
    cases hp : o.call with
    | none => exact hf j c (by simpa [afterMethod, hp] using hc)
    | some p =>
      by_cases hj : j = i
      · have hentry : (Op.publish p).entry = c := by simpa [afterMethod, hp, hj] using hc
        exact hentry ▸ Op.entry_framed _
      · exact hf j c (by simpa [afterMethod, hp, hj] using hc)
  | recvSpy ch =>
    obtain ⟨spyChans, rfl⟩ := step_recvSpy hs
    exact hf

theorem init_framed : (init now b).Framed := fun _ _ hc => by cases hc

/-- **The rule of frames**: a property of all frames of all calls is kept by
a step if the sections keep it, and it holds where calls begin. What it says
may depend on the world, as long as it says no less after the step. -/
theorem all_step {P Q : Pc → Prop} (h : w.sys.AllCalls (Call.All P)) (hs : w.step l = some w')
    (hkeep : ∀ pc, P pc → Q pc) (hstart : ∀ i op, l = .sys (.start i op) → Q op.entry.pc)
    (hfire : ∀ g ∈ w.broker.goroutines, ∀ c, g.entry w.now = some c → Q c.pc)
    (hpublish : ∀ i pc o a, l = .run i → w.methods i = some pc → pc.step w.now w.broker (w.sys.results i) = some o →
      o.call = some a → Q (.publish 11 a .enter))
    (hrun : ∀ i pc o, l = .sys (.run i) → w.pcAt i = some pc → pc.step w.now w.broker = some o →
      w'.broker = o.broker → P pc → o.next.All Q) : w'.sys.AllCalls (Call.All Q) := by
  have hold : w.sys.AllCalls (Call.All Q) := fun i c hc pc hpc => hkeep pc (h i c hc pc hpc)
  cases l with
  | sys l =>
    obtain ⟨-, s, hsys, rfl⟩ := step_sys hs
    cases l with
    | tick d => cases hsys; exact hold
    | recv ch =>
      obtain ⟨m, rest, -, rfl⟩ := Sys.step_recv hsys
      exact hold
    | start i op =>
      obtain ⟨-, -, rfl⟩ := Sys.step_start hsys
      exact hold.setCall fun c hc => Sum.inl.inj hc ▸ Call.all_entry (hstart i op rfl)
    | fire k i =>
      obtain ⟨g, c, hg, hc, -, -, hset⟩ := Sys.step_fire hsys
      have hpc := hfire g (mem_of_getElem? hg) c hc
      refine fun j c' hc' => ?_
      have hc' : s.calls j = some c' := hc'
      rw [hset] at hc'
      rcases Sys.setCall_calls hc' with ⟨-, heq⟩ | ⟨-, hc'⟩
      · cases heq
        rcases Goroutine.entry_eq hc with ⟨due, push, -, -, rfl⟩ | ⟨channels, m, -, rfl⟩
        · exact fun pc hmem => mem_singleton.mp hmem ▸ hpc
        · exact fun pc hmem => mem_singleton.mp hmem ▸ hpc
      · exact hold j c' hc'
    | run i =>
      obtain ⟨c, o, hc, ho, hset⟩ := Sys.step_run hsys
      have hbroker : s.broker = o.broker := by rw [hset, Sys.setCall_broker]
      have hnext := hrun i c.pc o rfl (by simp [pcAt, hc]) ho hbroker (h i c hc _ mem_cons_self)
      refine fun j c' hc' => ?_
      have hc' : s.calls j = some c' := hc'
      rw [hset] at hc'
      rcases Sys.setCall_calls hc' with ⟨-, heq⟩ | ⟨-, hc'⟩
      · exact Call.all_resume heq hnext fun pc hpc => hold i c hc pc (mem_cons_of_mem _ hpc)
      · exact hold j c' hc'
  | start i m =>
    obtain ⟨-, -, rfl⟩ := step_start hs
    exact hold
  | run i =>
    obtain ⟨pc, o, hpc, ho, rfl⟩ := step_run hs
    intro j c hc
    cases hp : o.call with
    | none => exact hold j c (by simpa [afterMethod, hp] using hc)
    | some a =>
      by_cases hj : j = i
      · have hentry : (Op.publish a).entry = c := by simpa [afterMethod, hp, hj] using hc
        exact hentry ▸ Call.all_entry (hpublish i pc o a rfl hpc ho hp)
      · exact hold j c (by simpa [afterMethod, hp, hj] using hc)
  | recvSpy ch =>
    obtain ⟨spyChans, rfl⟩ := step_recvSpy hs
    exact hold

theorem all_methods_step {P : MethodPc → Prop} (h : ∀ i pc, w.methods i = some pc → P pc) (hs : w.step l = some w')
    (hstart : ∀ i m, l = .start i m → P m.entry)
    (hrun : ∀ i pc o, l = .run i → w.methods i = some pc → pc.step w.now w.broker (w.sys.results i) = some o → P pc →
      P o.next) (i : Nat) (pc : MethodPc) (hpc : w'.methods i = some pc) : P pc := by
  have hupdate : ∀ {k : Nat} {pc' : MethodPc}, w'.methods = update w.methods k (some pc') → P pc' → P pc := by
    intro k pc' hm hp
    rw [hm] at hpc
    by_cases hk : i = k
    · rw [hk, update_self] at hpc
      exact some.inj hpc ▸ hp
    · rw [update_of_ne hk] at hpc
      exact h i pc hpc
  cases l with
  | sys l =>
    obtain ⟨-, s, -, rfl⟩ := step_sys hs
    exact h i pc hpc
  | start k m =>
    obtain ⟨-, -, rfl⟩ := step_start hs
    exact hupdate rfl (hstart k m rfl)
  | run k =>
    obtain ⟨pc', o, hpc', ho, rfl⟩ := step_run hs
    exact hupdate rfl (hrun k pc' o rfl hpc' ho (h k pc' hpc'))
  | recvSpy ch =>
    obtain ⟨spyChans, rfl⟩ := step_recvSpy hs
    exact h i pc hpc

/-- The call in goroutine `i` runs a section: it goes on, or it returns or
calls `publishCore`. -/
structure Advances (w w' : World) (i : Nat) (pc : Pc) (o : Outcome) : Prop where
  at_pc : w.pcAt i = some pc
  step : pc.step w.now w.broker = some o
  broker : w'.broker = o.broker
  now : w'.now = w.now
  handed : w'.sys.handed = w.sys.handed ++ o.handed
  past : w'.past = w.record (.sys (.run i)) w'.sys
  goto : ∀ pc', o.next = .goto pc' → w'.pcAt i = some pc'
  leave : (∀ pc', o.next ≠ .goto pc') → ∀ pc', w'.pcAt i = some pc' → pc'.Outset
  others : ∀ j, j ≠ i → w'.pcAt j = w.pcAt j

theorem advances (hf : w.Framed) (hs : w.step (.sys (.run i)) = some w') : ∃ pc o, Advances w w' i pc o := by
  obtain ⟨-, s, hsys, rfl⟩ := step_sys hs
  obtain ⟨c, o, hc, ho, hset⟩ := Sys.step_run hsys
  refine ⟨c.pc, o, by simp [pcAt, hc], ho, ?_, ?_, ?_, rfl, fun pc' hn => ?_, fun hn pc' hpc' => ?_, fun j hj => ?_⟩
  · rw [broker, hset, Sys.setCall_broker]
  · rw [World.now, hset, Sys.setCall_now]
    rfl
  · rw [hset, Sys.setCall_handed]
  · simp [pcAt, hset, hn, Call.resume, Sys.setCall]
  · cases hres : Call.resume c.stack o.next with
    | inl c' =>
      rcases ((hf i c hc).resume ho hres).2 with hgoto | ⟨-, hout⟩
      · exact absurd hgoto (hn _)
      · have hpc : (s.calls i).map Call.pc = some c'.pc := by simp [hset, hres, Sys.setCall]
        cases hpc.symm.trans hpc'
        exact hout
    | inr r => simp [pcAt, hset, hres, Sys.setCall] at hpc'
  · simp [pcAt, hset, Sys.setCall_calls_ne _ hj]

/-- A caller starts a call in goroutine `i`. -/
structure Starts (w w' : World) (i : Nat) (op : Op) : Prop where
  free : w.pcAt i = none
  broker : w'.broker = w.broker
  now : w'.now = w.now
  handed : w'.sys.handed = w.sys.handed
  past : w'.past = w.record (.sys (.start i op)) w'.sys
  self : w'.pcAt i = some op.entry.pc
  others : ∀ j, j ≠ i → w'.pcAt j = w.pcAt j

theorem starts {op} (hs : w.step (.sys (.start i op)) = some w') : Starts w w' i op := by
  obtain ⟨-, s, hsys, rfl⟩ := step_sys hs
  simp only [Sys.step] at hsys
  split at hsys
  next hfree =>
    cases hsys
    exact ⟨by simp [pcAt, Sys.calls_of_free hfree], rfl, rfl, rfl, rfl, by simp [pcAt, Sys.setCall],
      fun j hj => by simp [pcAt, Sys.setCall_calls_ne _ hj]⟩
  · cases hsys

/-- Goroutine `k` of the broker runs, as number `i`. -/
structure Fires (w w' : World) (k i : Nat) (g : Goroutine) (c : Call) : Prop where
  free : w.pcAt i = none
  goroutine : w.broker.goroutines[k]? = some g
  entry : g.entry w.now = some c
  broker : w'.broker = { w.broker with goroutines := w.broker.goroutines.eraseIdx k }
  now : w'.now = w.now
  handed : w'.sys.handed = w.sys.handed
  past : w'.past = w.record (.sys (.fire k i)) w'.sys
  self : w'.pcAt i = some c.pc
  others : ∀ j, j ≠ i → w'.pcAt j = w.pcAt j

theorem fires {k} (hs : w.step (.sys (.fire k i)) = some w') : ∃ g c, Fires w w' k i g c := by
  obtain ⟨-, s, hsys, rfl⟩ := step_sys hs
  obtain ⟨g, hg, hsys⟩ := bind_eq_some_iff.mp hsys
  obtain ⟨c, hc, hsys⟩ := bind_eq_some_iff.mp hsys
  split at hsys
  next hfree =>
    cases hsys
    exact ⟨g, c, by simp [pcAt, Sys.calls_of_free hfree], hg, hc, rfl, rfl, rfl, rfl, by simp [pcAt, Sys.setCall],
      fun j hj => by simp [pcAt, Sys.setCall_calls_ne _ hj]⟩
  · cases hsys

theorem now_step (hs : w.step l = some w') : w'.now = w.now ∨ ∃ d, l = .sys (.tick d) ∧ w'.now = w.now + d := by
  cases l with
  | sys l =>
    obtain ⟨-, s, hsys, rfl⟩ := step_sys hs
    cases l with
    | tick d => cases hsys; exact .inr ⟨d, rfl, rfl⟩
    | start i op => obtain ⟨-, -, rfl⟩ := Sys.step_start hsys; exact .inl rfl
    | run i =>
      obtain ⟨c, o, -, -, rfl⟩ := Sys.step_run hsys
      exact .inl (Sys.setCall_now _ _ _)
    | fire k i => obtain ⟨g, c, -, -, -, -, rfl⟩ := Sys.step_fire hsys; exact .inl rfl
    | recv ch => obtain ⟨m, rest, -, rfl⟩ := Sys.step_recv hsys; exact .inl rfl
  | start i m => obtain ⟨-, -, rfl⟩ := step_start hs; exact .inl rfl
  | run i => obtain ⟨pc, o, -, -, rfl⟩ := step_run hs; exact .inl rfl
  | recvSpy ch => obtain ⟨spyChans, rfl⟩ := step_recvSpy hs; exact .inl rfl

/-! ### What is written down -/

/-- What is written down of calls, but for the topics. -/
structure Past.Same (past past' : Past) : Prop where
  handed : past'.handed = past.handed
  sent : past'.sent = past.sent
  spied : past'.spied = past.spied
  appended : past'.appended = past.appended
  delayed : past'.delayed = past.delayed

theorem record_same (hr : w.runs l = none) (hh : s.handed = w.sys.handed) : Past.Same w.past (w.record l s) := by
  constructor <;> simp [record, hr, hh, spySends]

/-- A step that is no section of a call. -/
structure Rests (w w' : World) : Prop extends Past.Same w.past w'.past where
  uuids : w'.broker.uuids = w.broker.uuids
  goroutines : w'.broker.goroutines.Sublist w.broker.goroutines

theorem rests (hs : w.step l = some w') (hl : ∀ i, l ≠ .sys (.run i)) : Rests w w' := by
  cases l with
  | sys l =>
    cases l with
    | run i => exact absurd rfl (hl i)
    | tick d =>
      obtain ⟨-, s, hsys, rfl⟩ := step_sys hs
      cases hsys
      exact ⟨record_same rfl rfl, rfl, .refl _⟩
    | recv ch =>
      obtain ⟨-, s, hsys, rfl⟩ := step_sys hs
      obtain ⟨m, rest, -, rfl⟩ := Sys.step_recv hsys
      exact ⟨record_same rfl rfl, rfl, .refl _⟩
    | start i op =>
      have hst := starts hs
      exact ⟨hst.past ▸ record_same rfl hst.handed, by rw [hst.broker], by rw [hst.broker]⟩
    | fire k i =>
      obtain ⟨g, c, hfi⟩ := fires hs
      refine ⟨hfi.past ▸ record_same rfl hfi.handed, by rw [hfi.broker], ?_⟩
      rw [hfi.broker]
      exact eraseIdx_sublist _ _
  | start i m =>
    obtain ⟨-, -, rfl⟩ := step_start hs
    exact ⟨⟨rfl, rfl, rfl, rfl, rfl⟩, rfl, .refl _⟩
  | run i =>
    obtain ⟨pc, o, -, ho, rfl⟩ := step_run hs
    have hg := MethodPc.step_gear ho
    have hgo : o.broker.goroutines = w.broker.goroutines := congrArg Gear.goroutines hg
    exact ⟨record_same rfl rfl, congrArg Gear.uuids hg, by rw [← hgo]; exact .refl _⟩
  | recvSpy ch =>
    obtain ⟨spyChans, rfl⟩ := step_recvSpy hs
    exact ⟨⟨rfl, rfl, rfl, rfl, rfl⟩, rfl, .refl _⟩

theorem spied_step (hs : w.step l = some w') : w'.past.spied = w.past.spied ++ w.spySends l := by
  cases l with
  | sys l =>
    obtain ⟨-, s, -, rfl⟩ := step_sys hs
    rfl
  | _ => exact (append_nil _).symm ▸ (rests hs fun i hi => by cases hi).spied

/-- **A step is a section of a call**, or the calls rest. -/
theorem advances_or_rests (hf : w.Framed) (hs : w.step l = some w') :
    (∃ i pc o, l = .sys (.run i) ∧ Advances w w' i pc o) ∨ (∀ i, l ≠ .sys (.run i)) ∧ Rests w w' := by
  by_cases hrun : ∃ i, l = .sys (.run i)
  · obtain ⟨i, rfl⟩ := hrun
    obtain ⟨pc, o, hadv⟩ := advances hf hs
    exact .inl ⟨i, pc, o, rfl, hadv⟩
  · have hl : ∀ i, l ≠ .sys (.run i) := fun i hi => hrun ⟨i, hi⟩
    exact .inr ⟨hl, rests hs hl⟩

namespace Advances

variable {i : Nat} {pc : Pc} {o : Outcome}

theorem runs (h : Advances w w' i pc o) : w.runs (.sys (.run i)) = some pc := h.at_pc

theorem past_handed (h : Advances w w' i pc o) :
    w'.past.handed = w.past.handed ++ o.handed.map fun x => (w.now, x) := by
  simp [h.past, record, h.handed]

theorem sent (h : Advances w w' i pc o) : w'.past.sent = w.past.sent ++ if pc.isConsume then [] else o.handed := by
  simp [h.past, record, h.handed, h.runs]

theorem appended (h : Advances w w' i pc o) : w'.past.appended = w.past.appended ++ (pc.appends w.broker).toList := by
  simp [h.past, record, h.runs]

theorem delayed (h : Advances w w' i pc o) : w'.past.delayed = w.past.delayed ++ (pc.delays w.broker).toList := by
  simp [h.past, record, h.runs]

end Advances

/-- **What a step does to the call in goroutine `j`.** -/
inductive Turn (w : World) (l : WorldLabel) (w' : World) (j : Nat) : Prop
  | same : w'.pcAt j = w.pcAt j → Turn w l w' j
  | start {op} : l = .sys (.start j op) → Starts w w' j op → Turn w l w' j
  | fire {k g c} : l = .sys (.fire k j) → Fires w w' k j g c → Turn w l w' j
  | run {pc : Pc} {o : Outcome} : l = .sys (.run j) → Advances w w' j pc o → Turn w l w' j
  /-- A method calls `publishCore`. -/
  | publish : l = .run j → (∀ pc', w'.pcAt j = some pc' → pc'.Outset) → Turn w l w' j

theorem turn (hf : w.Framed) (hs : w.step l = some w') (j : Nat) : Turn w l w' j := by
  cases l with
  | sys l =>
    cases l with
    | tick d =>
      obtain ⟨-, s, hsys, rfl⟩ := step_sys hs
      cases hsys
      exact .same rfl
    | recv ch =>
      obtain ⟨-, s, hsys, rfl⟩ := step_sys hs
      obtain ⟨m, rest, -, rfl⟩ := Sys.step_recv hsys
      exact .same rfl
    | start i op =>
      have hstarts := starts hs
      by_cases hj : j = i
      · exact .start (by rw [hj]) (hj ▸ hstarts)
      · exact .same (hstarts.others j hj)
    | fire k i =>
      obtain ⟨g, c, hfires⟩ := fires hs
      by_cases hj : j = i
      · exact .fire (by rw [hj]) (hj ▸ hfires)
      · exact .same (hfires.others j hj)
    | run i =>
      obtain ⟨pc, o, hadv⟩ := advances hf hs
      by_cases hj : j = i
      · exact .run (by rw [hj]) (hj ▸ hadv)
      · exact .same (hadv.others j hj)
  | start i m =>
    obtain ⟨-, -, rfl⟩ := step_start hs
    exact .same rfl
  | run i =>
    obtain ⟨pc, o, -, -, rfl⟩ := step_run hs
    cases hp : o.call with
    | none => exact .same (by simp [pcAt, afterMethod, hp])
    | some p =>
      by_cases hj : j = i
      · subst hj
        refine .publish rfl fun pc' h => ?_
        simp [pcAt, afterMethod, hp, Op.entry] at h
        subst h
        trivial
      · exact .same (by simp [pcAt, afterMethod, hp, update_of_ne hj])
  | recvSpy ch =>
    obtain ⟨spyChans, rfl⟩ := step_recvSpy hs
    exact .same rfl

theorem pcAt_step (hf : w.Framed) (hs : w.step l = some w') (hl : l.goroutine ≠ some j) : w'.pcAt j = w.pcAt j := by
  cases turn hf hs j with
  | same hsame => exact hsame
  | start heq | fire heq | run heq | publish heq => subst heq; exact absurd rfl hl

theorem pcAt_of_exec (hf : w.Framed) (h : Lts.exec step w ls = some w')
    (hj : ∀ l ∈ ls, l.goroutine ≠ some j) : w'.pcAt j = w.pcAt j := by
  induction ls generalizing w with
  | nil => cases h; rfl
  | cons l ls ih =>
    obtain ⟨w₁, hs, h⟩ := bind_eq_some_iff.mp h
    rw [ih (hf.step hs) h fun l hl => hj l (mem_cons_of_mem _ hl)]
    exact pcAt_step hf hs (hj l mem_cons_self)

theorem methods_of_exec (h : Lts.exec step w ls = some w')
    (hj : ∀ l ∈ ls, l.goroutine ≠ some j) : w'.methods j = w.methods j := by
  induction ls generalizing w with
  | nil => cases h; rfl
  | cons l ls ih =>
    obtain ⟨w₁, hs, h⟩ := bind_eq_some_iff.mp h
    have hl := hj l mem_cons_self
    rw [ih h fun l hl => hj l (mem_cons_of_mem _ hl)]
    cases l with
    | sys l =>
      obtain ⟨-, s, -, rfl⟩ := step_sys hs
      rfl
    | start k m =>
      obtain ⟨-, -, rfl⟩ := step_start hs
      exact update_of_ne (fun hk => hl (by rw [hk]; rfl)) _ _
    | run k =>
      obtain ⟨pc, o, -, -, rfl⟩ := step_run hs
      exact update_of_ne (fun hk => hl (by rw [hk]; rfl)) _ _
    | recvSpy ch =>
      obtain ⟨spyChans, rfl⟩ := step_recvSpy hs
      rfl

theorem idle_of_exec (h : Lts.exec step (init now b) ls = some w)
    (hls : ∀ l ∈ ls, l.goroutine.all (· < n) = true) (hdone : ∀ i < n, w.pcAt i = none) (i : Nat) :
    w.pcAt i = none := by
  by_cases hi : i < n
  · exact hdone i hi
  · refine pcAt_of_exec init_framed h fun l hl heq => hi ?_
    simpa [heq] using hls l hl

/-- How a goroutine comes to be at `pc'`. -/
inductive Arrives (w : World) (l : WorldLabel) (w' : World) (j : Nat) (pc' : Pc) : Prop
  | stays : w.pcAt j = some pc' → Arrives w l w' j pc'
  | start {op} : l = .sys (.start j op) → pc' = op.entry.pc → Arrives w l w' j pc'
  | timer {due p} : .timer due p ∈ w.broker.goroutines → due ≤ w.now → pc' = .push p .spies →
      Arrives w l w' j pc'
  | broadcast {channels m} : .broadcast channels m ∈ w.broker.goroutines →
      pc' = .broadcast channels m → Arrives w l w' j pc'
  | goes {pc : Pc} {o : Outcome} : l = .sys (.run j) → Advances w w' j pc o → o.next = .goto pc' → Arrives w l w' j pc'
  | outset : pc'.Outset → Arrives w l w' j pc'

theorem arrives (hf : w.Framed) (hs : w.step l = some w') (hpc' : w'.pcAt j = some pc') : Arrives w l w' j pc' := by
  cases turn hf hs j with
  | same hsame => exact .stays (hsame ▸ hpc')
  | start hl hst => exact .start hl (some.inj (hpc'.symm.trans hst.self))
  | fire hl hfi =>
    have hself := some.inj (hpc'.symm.trans hfi.self)
    have hmem := mem_of_getElem? hfi.goroutine
    rcases Goroutine.entry_eq hfi.entry with ⟨due, push, rfl, hdue, rfl⟩ | ⟨channels, m, rfl, rfl⟩
    · exact .timer hmem hdue hself
    · exact .broadcast hmem hself
  | @run pc o hl hadv =>
    cases hn : o.next with
    | goto pc'' =>
      cases hpc'.symm.trans (hadv.goto pc'' hn)
      exact .goes hl hadv hn
    | call dest caller | ret r => exact .outset (hadv.leave (fun _ => by rw [hn]; nofun) pc' hpc')
  | publish hl hout => exact .outset (hout pc' hpc')

/-- Where a goroutine of the broker comes from. -/
inductive Spawned (w : World) (l : WorldLabel) (w' : World) : Goroutine → Prop
  | old {g : Goroutine} : g ∈ w.broker.goroutines → Spawned w l w' g
  | timer {i left p t matchingWildcards msg o} :
      l = .sys (.run i) → Advances w w' i (.publish left p (.store t matchingWildcards msg true)) o →
      o.next = .ret (.published (.ok msg)) →
      Spawned w l w' (.timer (p.deliverAt.getD w.now) { t, msg, matchingWildcards, isBroadcast := p.isBroadcast })
  | cast {i p channels o} : l = .sys (.run i) →
      Advances w w' i (.push p (.takeOwn channels)) o →
      Spawned w l w' (.broadcast (channels ++ w.broker.waiting p.t) p.msg)

theorem spawned (hf : w.Framed) (hs : w.step l = some w') (hg : g ∈ w'.broker.goroutines) : Spawned w l w' g := by
  rcases advances_or_rests hf hs with ⟨i, pc, o, rfl, hadv⟩ | ⟨-, hrest⟩
  · have hbroker : w'.broker.goroutines = o.broker.gear.goroutines := by rw [hadv.broker]; rfl
    rw [hbroker] at hg
    cases Pc.step_gear hadv.step with
    | same hgear | issue hpc hgear | send hto hc hgear => rw [hgear] at hg; exact .old hg
    | timer hpc hgear hnext =>
      subst hpc
      rw [hgear] at hg
      rcases mem_append.mp hg with hg | hg
      · exact .old hg
      · rw [mem_singleton.mp hg]
        exact .timer rfl hadv hnext
    | cast hpc hgear hnext =>
      subst hpc
      rw [hgear] at hg
      rcases mem_append.mp hg with hg | hg
      · exact .old hg
      · rw [mem_singleton.mp hg]
        exact .cast rfl hadv
  · exact .old (hrest.goroutines.subset hg)

end World

end TinyMQ
