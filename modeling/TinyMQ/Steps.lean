/-
Steps of the system, seen through the roles of its goroutines: the
description of a step (`Ran`) from which invariants of runs are proved.
-/
import TinyMQ.Effects
import Mathlib.Data.List.Perm.Basic

namespace TinyMQ

open Option Function

variable {now : Time} {b : Broker} {o : Outcome} {g : Goroutine} {c c' : Call} {op : Op} {P : Role → Prop}

/-- A call that waits for another one is a `publishCore` in its loop over
the bound topics. -/
def Pc.waits (pc : Pc) : Prop := pc.isRequeue = false ∧ ∃ p, pc.role = .publishing p

/-- A way to go on from `pc` that stays within the methods `Effect`
describes. -/
def Next.Sound (pc : Pc) : Next → Prop
  | .goto pc' => pc'.isRequeue = false
  | .call dest caller => dest.isRequeue = false ∧ caller.waits ∧ caller.role = pc.role
  | .ret _ => True

/-- A call that is no `Requeue`. Only callers of `publishCore` wait, and for
`publishCore`. -/
structure Call.Sound (c : Call) : Prop where
  pc : c.pc.isRequeue = false
  stack : ∀ pc ∈ c.stack, pc.waits
  nested : c.stack ≠ [] → c.pc.role.job = .publish

theorem PublishPc.step_sound {pc : PublishPc}
    (h : pc.step now b left p = some o) : o.next.Sound (.publish left p pc) := by
  cases PublishPc.steps h with
  | call => exact ⟨rfl, ⟨rfl, p, rfl⟩, rfl⟩
  | _ => trivial

theorem PushPc.step_sound {pc : PushPc} (h : pc.step b p = some o) : o.next.Sound (.push p pc) := by
  cases PushPc.steps h <;> trivial

theorem ConsumePc.step_sound {pc : ConsumePc} (h : pc.step now b q = some o) : o.next.Sound (.consume q pc) := by
  cases ConsumePc.steps h <;> trivial

theorem Pc.step_sound {pc : Pc} (hr : pc.isRequeue = false) (h : pc.step now b = some o) : o.next.Sound pc := by
  cases Pc.steps h with
  | publish h => exact PublishPc.step_sound h
  | push h => exact PushPc.step_sound h
  | consume h => exact ConsumePc.step_sound h
  | requeueFull | requeueFound | requeuePut | requeueAt => cases hr
  | _ => trivial

theorem Goroutine.entry_role (h : g.entry now = some c) :
    (∃ due push, g = .timer due push ∧ c.pc.role = .pushing push) ∨
      ∃ chs m, g = .broadcast chs m ∧ c.pc.role = .casting m := by
  cases g with
  | timer due push =>
    simp only [Goroutine.entry] at h
    split at h
    · cases h
      exact .inl ⟨due, push, rfl, rfl⟩
    · cases h
  | broadcast chs m =>
    cases h
    exact .inr ⟨chs, m, rfl, rfl⟩

theorem Goroutine.entry_sound (h : g.entry now = some c) : c.Sound := by
  cases g with
  | timer due push =>
    simp only [Goroutine.entry] at h
    split at h <;> cases h
    exact ⟨rfl, by simp, by simp⟩
  | broadcast chs m => cases h; exact ⟨rfl, by simp, by simp⟩

namespace Sys

variable {pc : Pc} {handed : List (Chan × Message)} {k : Nat}

def role (s : Sys) (i : Nat) : Role := ((s.calls i).map fun c => c.pc.role).getD .idle

def AllCalls (s : Sys) (C : Call → Prop) : Prop := ∀ i c, s.calls i = some c → C c

/-- No `Requeue` runs, and a call in progress has no result. -/
structure Sound (s : Sys) : Prop where
  calls : s.AllCalls Call.Sound
  running : ∀ i c, s.calls i = some c → s.results i = none

/-- How goroutine `i` goes on: with a role, or it has returned, or the call
it had made for a bound topic has. -/
def GoesOn (s s' : Sys) (i : Nat) : Role ⊕ Ret → Prop
  | .inl ρ => s'.role i = ρ ∧ s'.results i = s.results i
  | .inr r => s'.role i = .idle ∧ s'.results i = some r ∨
      (∃ p, s'.role i = .publishing p) ∧ (∃ e, r = .published e) ∧ s'.results i = s.results i

/-- **What a step of goroutine `i` does to the system**: the effect on the
broker, what was handed out, and how the goroutine goes on. -/
structure Ran (s s' : Sys) (i : Nat) (pc : Pc) (v : Role ⊕ Ret) (handed : List (Chan × Message)) : Prop where
  at_pc : ∃ stack, s.calls i = some ⟨pc, stack⟩
  effect : Effect s.now s.broker pc s'.broker v handed
  now : s'.now = s.now
  handed : s'.handed = s.handed ++ handed
  roles : ∀ j, j ≠ i → s'.role j = s.role j
  results : ∀ j, j ≠ i → s'.results j = s.results j
  goes : GoesOn s s' i v

/-- **A goroutine of the broker starts to run** as number `i`. -/
structure Fired (s s' : Sys) (i : Nat) (g : Goroutine) : Prop where
  goroutines : (g :: s'.broker.goroutines).Perm s.broker.goroutines
  broker : s'.broker = { s.broker with goroutines := s'.broker.goroutines }
  now : s'.now = s.now
  handed : s'.handed = s.handed
  results : s'.results = s.results
  idle : s.role i = .idle
  role : (∃ due push, g = .timer due push ∧ s'.role i = .pushing push) ∨
    ∃ chs m, g = .broadcast chs m ∧ s'.role i = .casting m
  roles : ∀ j, j ≠ i → s'.role j = s.role j

variable {s s' : Sys} {i : Nat}

theorem Ran.role_eq (h : Ran s s' i pc v handed) : s.role i = pc.role := by
  obtain ⟨stack, hc⟩ := h.at_pc
  simp [role, hc]

theorem setCall_role_ne (s : Sys) (h : j ≠ i) (v : Call ⊕ Ret) : (s.setCall i v).role j = s.role j := by
  cases v <;> simp [setCall, role, update_of_ne h]

theorem setCall_results_ne (s : Sys) (h : j ≠ i) (v : Call ⊕ Ret) : (s.setCall i v).results j = s.results j := by
  cases v with
  | inl c => rfl
  | inr r => simp [setCall, update_of_ne h]

theorem setCall_broker (s : Sys) (i : Nat) (v : Call ⊕ Ret) : (s.setCall i v).broker = s.broker := by
  cases v <;> rfl

theorem setCall_handed (s : Sys) (i : Nat) (v : Call ⊕ Ret) : (s.setCall i v).handed = s.handed := by
  cases v <;> rfl

theorem setCall_now (s : Sys) (i : Nat) (v : Call ⊕ Ret) : (s.setCall i v).now = s.now := by
  cases v <;> rfl

theorem step_run (h : s.step (.run i) = some s') : ∃ c o, s.calls i = some c ∧ c.pc.step s.now s.broker = some o ∧
      s' = { s with broker := o.broker, handed := s.handed ++ o.handed }.setCall i (Call.resume c.stack o.next) := by
  obtain ⟨c, hc, h⟩ := bind_eq_some_iff.mp h
  obtain ⟨o, ho, h⟩ := bind_eq_some_iff.mp h
  cases h
  exact ⟨c, o, hc, ho, rfl⟩

theorem step_start {op} (h : s.step (.start i op) = some s') :
    s.role i = .idle ∧ s.results i = none ∧ s' = s.setCall i (.inl op.entry) := by
  simp only [step] at h
  split at h
  next hfree =>
    cases h
    simp only [free, Bool.and_eq_true, isNone_iff_eq_none] at hfree
    exact ⟨by simp [role, hfree.1], hfree.2, rfl⟩
  · cases h

theorem step_fire (h : s.step (.fire k i) = some s') :
    ∃ g c, s.broker.goroutines[k]? = some g ∧ g.entry s.now = some c ∧ s.role i = .idle ∧ s.results i = none ∧
      s' = { s with broker := { s.broker with goroutines := s.broker.goroutines.eraseIdx k } }.setCall i (.inl c) := by
  obtain ⟨g, hg, h⟩ := bind_eq_some_iff.mp h
  obtain ⟨c, hc, h⟩ := bind_eq_some_iff.mp h
  split at h
  next hfree =>
    cases h
    simp only [free, Bool.and_eq_true, isNone_iff_eq_none] at hfree
    exact ⟨g, c, hg, hc, by simp [role, hfree.1], hfree.2, rfl⟩
  · cases h

theorem step_recv {ch} (h : s.step (.recv ch) = some s') : ∃ m rest, (s.broker.chans ch).buf = m :: rest ∧
      s' = { s with broker := { s.broker with
        chans := update s.broker.chans ch { s.broker.chans ch with buf := rest } } } := by
  simp only [step] at h
  split at h
  · cases h
  next m rest hbuf =>
    cases h
    exact ⟨m, rest, hbuf, rfl⟩

theorem setCall_role_self (s : Sys) (i : Nat) (c : Call) : (s.setCall i (.inl c)).role i = c.pc.role := by
  simp [setCall, role]

theorem fired_of_step (h : s.step (.fire k i) = some s') : ∃ g, Fired s s' i g := by
  obtain ⟨g, c, hg, hc, hidle, -, rfl⟩ := step_fire h
  obtain ⟨hk, hget⟩ := List.getElem?_eq_some_iff.mp hg
  have hperm := List.getElem_cons_eraseIdx_perm hk
  rw [hget] at hperm
  refine ⟨g, hperm, rfl, rfl, rfl, rfl, hidle, ?_, fun j hj => setCall_role_ne _ hj _⟩
  rw [setCall_role_self]
  exact Goroutine.entry_role hc

theorem ran_of_step (hs : s.Sound) (h : s.step (.run i) = some s') : ∃ pc v handed, Ran s s' i pc v handed := by
  obtain ⟨c, o, hc, ho, rfl⟩ := step_run h
  obtain ⟨hpc, hstack, hnested⟩ := hs.calls i c hc
  have heff := Pc.step_effect hpc ho
  refine ⟨c.pc, o.next.view, o.handed, ⟨c.stack, hc⟩, ?_, setCall_now _ _ _, setCall_handed _ _ _,
    fun j hj => setCall_role_ne _ hj _, fun j hj => setCall_results_ne _ hj _, ?_⟩
  · rw [setCall_broker]
    exact heff
  · cases hn : o.next with
    | goto pc | call dest caller => simp [GoesOn, Next.view, Call.resume, setCall, role]
    | ret r =>
      cases hst : c.stack with
      | nil => simp [GoesOn, Next.view, Call.resume, setCall, role]
      | cons caller stack =>
        obtain ⟨-, p, hp⟩ := hstack caller (by simp [hst])
        refine .inr ⟨⟨p, by simp [Call.resume, setCall, role, hp]⟩, ?_, by simp [Call.resume, setCall]⟩
        have hret := heff.job
        rw [hn, hnested (by simp [hst])] at hret
        cases r with
        | published e => exact ⟨e, rfl⟩
        | _ => exact hret.elim

theorem Ran.view_eq (h : Ran s s' i pc v handed)
    (hidle : s'.role i ≠ .idle) (hpub : ∀ p, s'.role i ≠ .publishing p) : v = .inl (s'.role i) := by
  have hg := h.goes
  cases v with
  | inl ρ => rw [hg.1]
  | inr r =>
    rcases hg with ⟨hr, -⟩ | ⟨⟨p, hr⟩, -, -⟩
    · exact absurd hr hidle
    · exact absurd hr (hpub p)

theorem Ran.view_of_role (h : Ran s s' i pc v handed)
    (hr : s'.role i = ρ) (hidle : ρ ≠ .idle) (hpub : ∀ p, ρ ≠ .publishing p) : v = .inl ρ := by
  subst hr
  exact h.view_eq hidle hpub

theorem role_of_step {l} (hs : s.Sound) (h : s.step l = some s') (j : Nat) :
    s'.role j = s.role j ∨ (∃ op, l = .start j op ∧ s'.role j = op.entry.pc.role) ∨
      (∃ k g c, l = .fire k j ∧ s.broker.goroutines[k]? = some g ∧ g.entry s.now = some c ∧ s'.role j = c.pc.role) ∨
      l = .run j ∧ ∃ pc v handed, Ran s s' j pc v handed := by
  cases l with
  | tick d => cases h; exact .inl rfl
  | start i op =>
    obtain ⟨-, -, rfl⟩ := step_start h
    by_cases hji : j = i
    · subst hji
      exact .inr (.inl ⟨op, rfl, setCall_role_self _ _ _⟩)
    · exact .inl (setCall_role_ne _ hji _)
  | run i =>
    obtain ⟨pc, v, handed, hran⟩ := ran_of_step hs h
    by_cases hji : j = i
    · subst hji
      exact .inr (.inr (.inr ⟨rfl, pc, v, handed, hran⟩))
    · exact .inl (hran.roles j hji)
  | fire k i =>
    obtain ⟨g, c, hg, hc, -, -, rfl⟩ := step_fire h
    by_cases hji : j = i
    · subst hji
      exact .inr (.inr (.inl ⟨k, g, c, rfl, hg, hc, setCall_role_self _ _ _⟩))
    · exact .inl (setCall_role_ne _ hji _)
  | recv ch =>
    obtain ⟨m, rest, -, rfl⟩ := step_recv h
    exact .inl rfl

end Sys

def Op.isRequeue : Op → Bool
  | .requeue _ => true
  | _ => false

theorem Op.entry_sound (h : op.isRequeue = false) : op.entry.Sound := by
  cases op with
  | requeue m => cases h
  | _ => exact ⟨rfl, by simp [Op.entry], by simp [Op.entry]⟩

theorem Op.entry_role (op : Op) : op.entry.pc.role = .idle ∨ (∃ p, op.entry.pc.role = .publishing p) ∨
    (∃ q, op.entry.pc.role = .seeking none q) ∨ (∃ n id, op.entry.pc.role = .acking none n id) ∨
    ∃ n ch, op.entry.pc.role = .leaving none n ch := by
  cases op with
  | publish p => exact .inr (.inl ⟨p, rfl⟩)
  | consume q => exact .inr (.inr (.inl ⟨q, rfl⟩))
  | ack topicName msgID => exact .inr (.inr (.inr (.inl ⟨topicName, msgID, rfl⟩)))
  | removeWaitingConsumer topicName ch => exact .inr (.inr (.inr (.inr ⟨topicName, ch, rfl⟩)))
  | requeue m => exact .inl rfl

def Label.NoRequeue : Label → Prop
  | .start _ op => op.isRequeue = false
  | _ => True

instance : DecidablePred Label.NoRequeue := fun l => by
  cases l <;> unfold Label.NoRequeue <;> infer_instance

namespace Sys

variable {i : Nat}

variable {s s' : Sys} {l : Label}

theorem setCall_calls {j v c} (h : (s.setCall i v).calls j = some c) :
    j = i ∧ v = .inl c ∨ j ≠ i ∧ s.calls j = some c := by
  by_cases hj : j = i
  · subst hj
    cases v with
    | inl c' =>
      simp only [setCall, update_self, some.injEq] at h
      exact .inl ⟨rfl, h ▸ rfl⟩
    | inr r => simp [setCall] at h
  · refine .inr ⟨hj, ?_⟩
    cases v <;> simpa [setCall, update_of_ne hj] using h

variable {C : Call → Prop}

theorem AllCalls.setCall {v} (hs : s.AllCalls C) (hv : ∀ c, v = .inl c → C c) : (s.setCall i v).AllCalls C := by
  intro j c hc
  rcases setCall_calls hc with ⟨-, hvc⟩ | ⟨-, hc⟩
  · exact hv c hvc
  · exact hs j c hc

/-- **The rule for facts about calls**: they hold of the calls that start,
and a critical section keeps them. -/
theorem AllCalls.step (hs : s.AllCalls C) (h : s.step l = some s') (hstart : ∀ i op, l = .start i op → C op.entry)
    (hfire : ∀ g c, g ∈ s.broker.goroutines → g.entry s.now = some c → C c)
    (hrun : ∀ i c o c', s.calls i = some c → C c → c.pc.step s.now s.broker = some o →
      Call.resume c.stack o.next = .inl c' → C c') : s'.AllCalls C := by
  cases l with
  | tick d => cases h; exact hs
  | start i op =>
    obtain ⟨-, -, rfl⟩ := step_start h
    refine hs.setCall fun c hc => ?_
    cases hc
    exact hstart i op rfl
  | run i =>
    obtain ⟨c, o, hc, ho, rfl⟩ := step_run h
    exact AllCalls.setCall (s := { s with broker := o.broker, handed := s.handed ++ o.handed }) hs
      fun c' hc' => hrun i c o c' hc (hs i c hc) ho hc'
  | fire k i =>
    obtain ⟨g, c, hg, hc, -, -, rfl⟩ := step_fire h
    refine AllCalls.setCall (s := { s with
      broker := { s.broker with goroutines := s.broker.goroutines.eraseIdx k } }) hs fun c' hc' => ?_
    cases hc'
    exact hfire g c (List.mem_of_getElem? hg) hc
  | recv ch =>
    obtain ⟨m, rest, -, rfl⟩ := step_recv h
    exact hs

theorem running_of_step (hs : ∀ i c, s.calls i = some c → s.results i = none) (h : s.step l = some s') :
    ∀ i c, s'.calls i = some c → s'.results i = none := by
  -- Goroutine `i` moves, from a state in which it had no result.
  have hset : ∀ (s₁ : Sys) (i : Nat) (v : Call ⊕ Ret), s₁.calls = s.calls → s₁.results = s.results →
    s.results i = none →
      ∀ j c, (s₁.setCall i v).calls j = some c → (s₁.setCall i v).results j = none := by
    intro s₁ i v hcalls hresults hi j c hc
    rcases setCall_calls hc with ⟨rfl, rfl⟩ | ⟨hj, hc⟩
    · exact (congrFun hresults j).trans hi
    · rw [setCall_results_ne _ hj, hresults]
      exact hs j c (hcalls ▸ hc)
  cases l with
  | tick d => cases h; exact hs
  | start i op =>
    obtain ⟨-, hi, rfl⟩ := step_start h
    exact hset s i _ rfl rfl hi
  | run i =>
    obtain ⟨c, o, hc, ho, rfl⟩ := step_run h
    exact hset _ i _ rfl rfl (hs i c hc)
  | fire k i =>
    obtain ⟨g, c, hg, hc, -, hi, rfl⟩ := step_fire h
    exact hset _ i _ rfl rfl hi
  | recv ch =>
    obtain ⟨m, rest, -, rfl⟩ := step_recv h
    exact hs

end Sys

/-- How a call goes on: it does, it makes a call, or the call it had made has
returned. -/
theorem Call.resume_eq_inl {stack next} (h : Call.resume stack next = .inl c) :
    next = .goto c.pc ∧ c.stack = stack ∨ (∃ caller, next = .call c.pc caller ∧ c.stack = caller :: stack) ∨
      ∃ r, next = .ret r ∧ stack = c.pc :: c.stack := by
  cases next with
  | goto pc => cases h; exact .inl ⟨rfl, rfl⟩
  | call dest caller => cases h; exact .inr (.inl ⟨caller, rfl, rfl⟩)
  | ret r =>
    cases stack with
    | nil => cases h
    | cons caller stack => cases h; exact .inr (.inr ⟨r, rfl, rfl⟩)

theorem Call.Sound.resume (hs : c.Sound)
    (ho : c.pc.step now b = some o) (h : Call.resume c.stack o.next = .inl c') : c'.Sound := by
  have hn := Pc.step_sound hs.pc ho
  have hjob := (Pc.step_effect hs.pc ho).job
  rcases Call.resume_eq_inl h with ⟨hnext, hst⟩ | ⟨caller, hnext, hst⟩ | ⟨r, hnext, hst⟩
  · rw [hnext] at hn hjob
    refine ⟨hn, hst ▸ hs.stack, fun hne => ?_⟩
    rw [hst] at hne
    exact hjob.trans (hs.nested hne)
  · rw [hnext] at hn hjob
    obtain ⟨hdest, hwaits, hrole⟩ := hn
    refine ⟨hdest, by rw [hst]; simpa using ⟨hwaits, hs.stack⟩, fun _ => ?_⟩
    obtain ⟨-, p, hp⟩ := hwaits
    exact hjob.trans (by rw [← hrole, hp]; rfl)
  · have hstack := hs.stack
    rw [hst] at hstack
    obtain ⟨hreq, p, hp⟩ := hstack c'.pc (by simp)
    exact ⟨hreq, fun pc hpc => hstack pc (by simp [hpc]), fun _ => by rw [hp]; rfl⟩

/-- The call and the callers that wait for it have `P`. -/
def Call.AllRoles (P : Role → Prop) (c : Call) : Prop := P c.pc.role ∧ ∀ pc ∈ c.stack, P pc.role

theorem Call.AllRoles.resume (hc : c.AllRoles P) (hs : c.Sound) (ho : c.pc.step now b = some o)
    (h : Call.resume c.stack o.next = .inl c') (hP : ∀ ρ, o.next.view = .inl ρ → P ρ) : c'.AllRoles P := by
  have hn := Pc.step_sound hs.pc ho
  obtain ⟨hpc, hstack⟩ := hc
  rcases Call.resume_eq_inl h with ⟨hnext, hst⟩ | ⟨caller, hnext, hst⟩ | ⟨r, hnext, hst⟩
  · exact ⟨hP _ (by rw [hnext]; rfl), hst ▸ hstack⟩
  · rw [hnext] at hn
    obtain ⟨-, -, hrole⟩ := hn
    have hcaller : P caller.role := hrole ▸ hpc
    exact ⟨hP _ (by rw [hnext]; rfl), by rw [hst]; simpa using ⟨hcaller, hstack⟩⟩
  · rw [hst] at hstack
    exact ⟨hstack c'.pc (by simp), fun pc hpc => hstack pc (by simp [hpc])⟩

theorem Op.entry_allRoles (h : P op.entry.pc.role) : op.entry.AllRoles P :=
  ⟨h, by cases op <;> simp [Op.entry]⟩

theorem Goroutine.entry_allRoles (h : g.entry now = some c) (hP : P c.pc.role) : c.AllRoles P := by
  refine ⟨hP, ?_⟩
  cases g with
  | timer due push =>
    simp only [Goroutine.entry] at h
    split at h <;> cases h
    simp
  | broadcast chs m => cases h; simp

namespace Sys

variable {s s' : Sys} {l : Label}

theorem Sound.step (hs : s.Sound) (hl : l.NoRequeue) (h : s.step l = some s') : s'.Sound where
  calls := by
    refine hs.calls.step h ?_ ?_ ?_
    · intro i op he
      subst he
      exact Op.entry_sound hl
    · intro g c hg hc
      exact Goroutine.entry_sound hc
    · intro i c o c' hc hsound ho hres
      exact hsound.resume ho hres
  running := running_of_step hs.running h

theorem init_sound (now : Time) (b : Broker) : (init now b).Sound where
  calls i c hc := by cases hc
  running i c hc := rfl

end Sys

/-! ## Goroutines that do nothing -/

/-- The goroutine a label is about. -/
def Label.goroutine? : Label → Option Nat
  | .start i _ => some i
  | .run i => some i
  | .fire _ i => some i
  | _ => none

namespace Sys

variable {s s' : Sys} {l : Label} {n : Nat}

/-- Goroutines that are not numbered below `n` do nothing. -/
def Below (n : Nat) (s : Sys) : Prop := ∀ j, n ≤ j → s.calls j = none

theorem Below.step (hs : s.Below n) (hl : ∀ i ∈ l.goroutine?, i < n) (h : s.step l = some s') : s'.Below n := by
  have hset : ∀ (s₁ : Sys) (i : Nat) (v : Call ⊕ Ret), s₁.calls = s.calls → i < n →
    (s₁.setCall i v).Below n := by
    intro s₁ i v hcalls hi j hj
    cases hc : (s₁.setCall i v).calls j with
    | none => rfl
    | some c =>
      rcases setCall_calls hc with ⟨hji, -⟩ | ⟨-, hc⟩
      · omega
      · rw [hcalls, hs j hj] at hc
        cases hc
  cases l with
  | tick d => cases h; exact hs
  | start i op =>
    obtain ⟨-, -, rfl⟩ := step_start h
    exact hset _ i _ rfl (hl i rfl)
  | run i =>
    obtain ⟨c, o, -, -, rfl⟩ := step_run h
    exact hset _ i _ rfl (hl i rfl)
  | fire k i =>
    obtain ⟨g, c, -, -, -, -, rfl⟩ := step_fire h
    exact hset _ i _ rfl (hl i rfl)
  | recv ch =>
    obtain ⟨m, rest, -, rfl⟩ := step_recv h
    exact hs

end Sys

end TinyMQ
