/-
What a critical section does to the topic objects.

`TopicMove` lists, section by section, how a topic object can change, and
`HeapStep` says that a step changes one of them, makes a new one or takes
one out of the maps. The invariants about objects are proved from
`World.step_heap`.
-/
import TinyMQ.World

namespace TinyMQ

open List Option Topic

variable {now : Time} {b : Broker} {r : TopicRef} {t t' : Topic} {o : Outcome}

/-- A critical section: of a call, or of one of the other methods. -/
inductive Section
  | call (pc : Pc)
  | method (pc : MethodPc)
  deriving DecidableEq, Repr

/-- **How a section can change the topic object it locks.** -/
inductive TopicMove (now : Time) (b : Broker) : Section → TopicRef → Topic → Topic → Prop
  | store {left p r ws m isDelayed} {t : Topic} : t.deleted = false → t.queued.length < b.limits.maxMessages →
      (Pc.publish left p (.store r ws m isDelayed)).appends b = some (r, m) →
      TopicMove now b (.call (.publish left p (.store r ws m isDelayed))) r t (t.append (.ofString p.priority) m)
  | evict {left p r ws m oldest isDelayed}
      {t t₁ : Topic} : t.deleted = false → b.limits.maxMessages ≤ t.queued.length → t.evictOldest = some (oldest, t₁) →
      (Pc.publish left p (.store r ws m isDelayed)).appends b = some (r, m) →
      TopicMove now b (.call (.publish left p (.store r ws m isDelayed))) r t (t₁.append (.ofString p.priority) m)
  | takeWild {p w rest chs t} :
      TopicMove now b (.call (.push p (.takeWild (w :: rest) chs))) w t { t with waitingConsumers := [] }
  | takeOwn {p chs t} :
      TopicMove now b (.call (.push p (.takeOwn chs))) p.t t { t with waitingConsumers := [] }
  | popWild {p w rest ch chs} {t : Topic} : t.waitingConsumers = ch :: chs →
      TopicMove now b (.call (.push p (.popWild (w :: rest)))) w t { t with waitingConsumers := chs }
  | popOwn {p ch chs} {t : Topic} : t.waitingConsumers = ch :: chs →
      TopicMove now b (.call (.push p .popOwn)) p.t t { t with waitingConsumers := chs }
  | hold {p rest t} : TopicMove now b (.call (.push p (.holdWild rest))) p.t t { t with held := true }
  | remove {p t} : TopicMove now b (.call (.push p .remove)) p.t t (t.removeMessageByID p.msg.id)
  | scan {q : ConsumeArgs} {r₀ r rest results ids}
      {t t₁ : Topic} : t.extractMessages q.limit now = (results, ids, t₁) →
      TopicMove now b (.call (.consume q (.scan r₀ (r :: rest)))) r t t₁
  | target {q : ConsumeArgs} {r results ids} {t t₁ : Topic} :
      t.extractMessages q.limit now = (results, ids, t₁) → results ≠ [] →
      TopicMove now b (.call (.consume q (.target r))) r t t₁
  | register {q : ConsumeArgs} {r ids} {t t₁ : Topic} : t.extractMessages q.limit now = ([], ids, t₁) →
      TopicMove now b (.call (.consume q (.target r))) r t
        { t₁ with waitingConsumers := t₁.waitingConsumers ++ [q.notifyChan] }
  | ack {r n id} {t t₁ : Topic} : t.remove? id = some t₁ →
      TopicMove now b (.call (.ackAt r n id)) r t t₁
  | leave {r n ch t} :
      TopicMove now b (.call (.removeWaitingAt r n ch)) r t { t with waitingConsumers := t.waitingConsumers.erase ch }
  | requeue {r m} {t : Topic} : t.waitingConsumers = [] →
      (Pc.requeueAt r m).appends b = some (r, m) →
      TopicMove now b (.call (.requeueAt r m)) r t (t.append .normal m)
  | requeueSent {r m ch chs} {t : Topic} : t.waitingConsumers = ch :: chs →
      b.trySend ch m ≠ none → TopicMove now b (.call (.requeueAt r m)) r t { t with waitingConsumers := chs }
  | requeueMissed {r m ch chs} {t : Topic} :
      t.waitingConsumers = ch :: chs → b.trySend ch m = none → (Pc.requeueAt r m).appends b = some (r, m) →
      TopicMove now b (.call (.requeueAt r m)) r t ({ t with waitingConsumers := chs }.append .normal m)
  | purge {r n opened t} : TopicMove now b (.method (.purgeAt r n opened)) r t t.emptied
  | redrive {r target dlq t} :
      TopicMove now b (.method (.redriveAt r target dlq)) r t { t with messages := [] }
  | sweep {r rest since t} :
      TopicMove now b (.method (.sweepTopics since (r :: rest))) r t (t.purgeExpired since)
  | addSpy {r : TopicRef} {n} {t : Topic} :
      TopicMove now b (.method (.addSpyAt r n)) r t { t with spies := t.spies ++ [b.spyCount] }
  | removeSpy {r ch} {t : Topic} : ch ∈ t.spies →
      TopicMove now b (.method (.removeSpyAt r ch)) r t { t with spies := t.spies.erase ch }

theorem TopicMove.static (h : TopicMove now b sec r t t') : t'.name = t.name ∧ t'.deleted = t.deleted := by
  have hempty : ∀ {t t' : Topic}, t'.emptied = t.emptied → t'.name = t.name ∧ t'.deleted = t.deleted := by
    intro t t' h
    obtain ⟨hname, hdel, -, -⟩ := fields_of_emptied h
    exact ⟨hname, hdel⟩
  cases h with
  | store hdel hlt | requeue hw => exact hempty (emptied_append _ _ _)
  | evict hdel hge hev => exact hempty ((emptied_append _ _ _).trans (emptied_evictOldest hev))
  | remove => exact hempty (emptied_removeMessageByID _ _)
  | scan hx | target hx hne => exact hempty (emptied_extractMessages hx)
  | @register q r ids t t₁ hx =>
    have hstatic : t₁.name = t.name ∧ t₁.deleted = t.deleted := hempty (emptied_extractMessages hx)
    exact hstatic
  | ack hr => exact hempty (emptied_remove? hr)
  | @requeueMissed r m ch chs t hw hs =>
    obtain ⟨hname, hdel⟩ := hempty (emptied_append { t with waitingConsumers := chs } .normal m)
    exact ⟨hname, hdel⟩
  | _ => exact ⟨rfl, rfl⟩

namespace Topic

variable {t t' t₁ : Topic}

/-- Nothing is added to the topic. -/
structure Shrinks (t t' : Topic) : Prop where
  queued : t'.queued.Subperm t.queued
  waiting : t'.waitingConsumers.Sublist t.waitingConsumers
  spies : t'.spies.Sublist t.spies
  deleted : t.deleted = true → t'.deleted = true

theorem Shrinks.refl (t : Topic) : t.Shrinks t := ⟨.refl _, .refl _, .refl _, id⟩

theorem Shrinks.trans (h : t.Shrinks t') (h' : t'.Shrinks t'') : t.Shrinks t'' :=
  ⟨h'.queued.trans h.queued, h'.waiting.trans h.waiting, h'.spies.trans h.spies, fun hd =>
    h'.deleted (h.deleted hd)⟩

theorem Shrinks.of_emptied (h : t'.emptied = t.emptied) (hq : t'.queued.Subperm t.queued) : t.Shrinks t' := by
  obtain ⟨-, hd, hw, hs⟩ := fields_of_emptied h
  exact ⟨hq, by rw [hw], by rw [hs], fun hdel => by rw [hd, hdel]⟩

theorem extractMessages_subperm (h : t.extractMessages limit now = (results, ids, t₁)) :
    t₁.queued.Subperm t.queued := by
  obtain ⟨-, gone, -, -, -, hperm⟩ := extractMessages_spec h
  exact (sublist_append_right _ _).subperm.trans hperm.symm.subperm

theorem remove?_subperm {id} (h : t.remove? id = some t₁) : t₁.queued.Subperm t.queued := by
  obtain ⟨-, m, -, hperm⟩ := remove?_eq_some h
  exact (sublist_cons_self m _).subperm.trans hperm.symm.subperm

theorem removeMessageByID_subperm (t : Topic) (id : GoString) :
    (t.removeMessageByID id).queued.Subperm t.queued := by
  unfold removeMessageByID
  cases h : t.remove? id with
  | none => exact .refl _
  | some t₁ => exact remove?_subperm h

theorem purgeExpired_sublist (t : Topic) (now : Time) : (t.purgeExpired now).queued.Sublist t.queued :=
  ((filter_sublist.append filter_sublist).append filter_sublist)

end Topic

/-- The ways in which a section adds to a topic object. -/
inductive TopicAdd (now : Time) (b : Broker) (t t' : Topic) : Section → TopicRef → Prop
  | store {left p r ws m isDelayed} :
      t.deleted = false → t'.queued.length ≤ b.limits.maxMessages ∨ t'.queued.length ≤ t.queued.length →
      t'.queued.Subperm (m :: t.queued) → t'.waitingConsumers = t.waitingConsumers → t'.spies = t.spies →
      (Pc.publish left p (.store r ws m isDelayed)).appends b = some (r, m) →
      TopicAdd now b t t' (.call (.publish left p (.store r ws m isDelayed))) r
  | requeue {r m} : (∀ ch, t.waitingConsumers.head? = some ch → b.trySend ch m = none) →
      t'.queued.Perm (m :: t.queued) → t'.waitingConsumers.Sublist t.waitingConsumers → t'.spies = t.spies →
      (Pc.requeueAt r m).appends b = some (r, m) → TopicAdd now b t t' (.call (.requeueAt r m)) r
  | register {q : ConsumeArgs} {r} : (t.extractMessages q.limit now).1 = [] → t'.queued.Subperm t.queued →
      t'.waitingConsumers = t.waitingConsumers ++ [q.notifyChan] → t'.spies = t.spies →
      TopicAdd now b t t' (.call (.consume q (.target r))) r
  | spy {r : TopicRef} {n} : t' = { t with spies := t.spies ++ [b.spyCount] } →
      TopicAdd now b t t' (.method (.addSpyAt r n)) r

/-- **A section takes things out of a topic object, or adds in one of four
ways.** -/
theorem TopicMove.shrinks_or (h : TopicMove now b sec r t t') : t.Shrinks t' ∨ TopicAdd now b t t' sec r := by
  have hfields : ∀ {t t' : Topic}, t'.emptied = t.emptied →
    t'.waitingConsumers = t.waitingConsumers ∧ t'.spies = t.spies := by
    intro t t' h
    obtain ⟨-, -, hw, hs⟩ := fields_of_emptied h
    exact ⟨hw, hs⟩
  cases h with
  | @store left p r ws m isDelayed t hdel hlt happ =>
    obtain ⟨hw, hs⟩ := hfields (t.emptied_append (.ofString p.priority) m)
    have hperm := t.queued_append (.ofString p.priority) m
    refine .inr (.store hdel (.inl ?_) hperm.subperm hw hs happ)
    rw [hperm.length_eq, length_cons]
    omega
  | @evict left p r ws m oldest isDelayed t t₁ hdel hge hev happ =>
    obtain ⟨hw, hs⟩ := hfields ((t₁.emptied_append (.ofString p.priority) m).trans
      (emptied_evictOldest hev))
    have hperm := t₁.queued_append (.ofString p.priority) m
    have hev := (evictOldest_spec hev).1
    refine .inr (.store hdel (.inr ?_) (hperm.subperm.trans ?_) hw hs happ)
    · rw [hperm.length_eq, hev.length_eq, length_cons, length_cons]
    · exact (subperm_cons m).mpr ((sublist_cons_self oldest _).subperm.trans hev.symm.subperm)
  | takeWild | takeOwn => exact .inl ⟨.refl _, nil_sublist _, .refl _, id⟩
  | popWild hw | popOwn hw | requeueSent hw hs =>
    exact .inl ⟨.refl _, hw ▸ sublist_cons_self _ _, .refl _, id⟩
  | hold => exact .inl ⟨.refl _, .refl _, .refl _, id⟩
  | remove =>
    exact .inl (.of_emptied (emptied_removeMessageByID _ _)
      (removeMessageByID_subperm _ _))
  | scan hx => exact .inl (.of_emptied (emptied_extractMessages hx) (extractMessages_subperm hx))
  | target hx hne =>
    exact .inl (.of_emptied (emptied_extractMessages hx) (extractMessages_subperm hx))
  | @register q r ids t t₁ hx =>
    obtain ⟨hw, hs⟩ := hfields (emptied_extractMessages hx)
    have hq : t₁.queued.Subperm t.queued := extractMessages_subperm hx
    exact .inr (.register (by rw [hx]) hq (by rw [← hw]) hs)
  | ack hr => exact .inl (.of_emptied (emptied_remove? hr) (remove?_subperm hr))
  | leave => exact .inl ⟨.refl _, erase_sublist, .refl _, id⟩
  | requeue hw happ =>
    refine .inr (.requeue (by simp [hw]) (queued_append _ _ _) ?_ ?_ happ)
    · rw [append_waitingConsumers]
    · exact (hfields (emptied_append _ _ _)).2
  | @requeueMissed r m ch chs t hw hs happ =>
    refine .inr (.requeue (by simpa [hw] using hs) (queued_append _ _ _) ?_ ?_ happ)
    · rw [append_waitingConsumers, hw]
      exact sublist_cons_self _ _
    · exact (hfields (emptied_append _ _ _)).2
  | purge => exact .inl (.of_emptied rfl (nil_subperm))
  | @redrive r target dlq t =>
    refine .inl (.of_emptied rfl (Sublist.subperm ?_))
    exact ((Sublist.refl _).append (nil_sublist _)).append (.refl _)
  | sweep => exact .inl (.of_emptied rfl (purgeExpired_sublist _ _).subperm)
  | addSpy => exact .inr (.spy rfl)
  | removeSpy hch => exact .inl ⟨.refl _, .refl _, erase_sublist, id⟩

/-- The queues of the object get the message that the section appends, and
no other. -/
theorem TopicMove.queued (h : TopicMove now b sec r t t') : t'.queued.Subperm t.queued ∨
      ∃ pc m, sec = .call pc ∧ pc.appends b = some (r, m) ∧ t'.queued.Subperm (m :: t.queued) := by
  rcases h.shrinks_or with hshrink | hadd
  · exact .inl hshrink.queued
  · cases hadd with
    | store hdel hmax hsub hw hs happ => exact .inr ⟨_, _, rfl, happ, hsub⟩
    | requeue hnone hperm hw hs happ => exact .inr ⟨_, _, rfl, happ, hperm.subperm⟩
    | register hnone hsub hw hs => exact .inl hsub
    | spy heq => subst heq; exact .inl (.refl _)

namespace Broker

variable {α : Type} {m : Message}

/-- What names lead to, the number of spies, and what the broker was given
when it was made. -/
structure Registry where
  limits : Limits
  env : Env
  topics : AList fun _ : GoString => TopicRef
  wildcards : AList fun _ : GoString => TopicRef
  compiledRegex : AList fun _ : GoString => Regex
  spyCount : Nat

def registry (b : Broker) : Registry := ⟨b.limits, b.env, b.topics, b.wildcards, b.compiledRegex, b.spyCount⟩

/-- **How a step changes the topic objects.** -/
inductive HeapStep (b b' : Broker) (P : TopicRef → Topic → Topic → Prop) : Prop
  | same : b'.heap = b.heap → b'.registry = b.registry → HeapStep b b' P
  | create {name policy retention} : b.topics.lookup name = none →
      b'.heap = b.heap ++ [{ create name policy with retention }] →
      b'.registry = (b.addTopic { create name policy with retention }).registry → HeapStep b b' P
  | move {r : TopicRef} {t t' : Topic} : b.lock r = some t → P r t t' →
      (∀ r', b'.heap[r']? = if r' = r then some t' else b.heap[r']?) → b'.registry = b.registry → HeapStep b b' P
  | spy {r : TopicRef} {t : Topic} : b.lock r = some t → P r t { t with spies := t.spies ++ [b.spyCount] } →
      (∀ r', b'.heap[r']? = if r' = r then some { t with spies := t.spies ++ [b.spyCount] } else b.heap[r']?) →
      b'.registry = { b.registry with spyCount := b.spyCount + 1 } → HeapStep b b' P
  | delete {n r t} : b.topics.lookup n = some r → b.lock r = some t →
      (∀ r', b'.heap[r']? = if r' = r then some { t with deleted := true } else b.heap[r']?) →
      b'.registry = (b.removeTopic n).registry → HeapStep b b' P

variable {b b' : Broker} {r : TopicRef} {t t' : Topic} {now : Time} {sec : Section}
  {P : TopicRef → Topic → Topic → Prop}

theorem heap_split (ht : b.heap[r]? = some t)
    (hh : ∀ r', b'.heap[r']? = if r' = r then some t' else b.heap[r']?) :
    ∃ before after, b.heap = before ++ t :: after ∧ b'.heap = before ++ t' :: after := by
  obtain ⟨hlt, hget⟩ := List.getElem?_eq_some_iff.mp ht
  have hset : b'.heap = b.heap.set r t' := by
    refine ext_getElem? fun r' => ?_
    rw [hh, getElem?_set]
    grind
  obtain ⟨before, after, hb, -, hb'⟩ := exists_of_set hlt
  exact ⟨before, after, hget ▸ hb, hset.trans hb'⟩

theorem HeapStep.object (h : b.HeapStep b' P) (ht : b.heap[r]? = some t) : ∃ t', b'.heap[r]? = some t' ∧
    (t' = t ∨ t.held = false ∧ P r t t' ∨ t' = { t with deleted := true } ∧
      b.topics.lookup t.name = some r) := by
  have hone : ∀ {r₁ : TopicRef} {t₁ t₂ : Topic}, b.lock r₁ = some t₁ →
      (∀ r', b'.heap[r']? = if r' = r₁ then some t₂ else b.heap[r']?) →
      b'.heap[r]? = some t ∨ r = r₁ ∧ t = t₁ ∧ t₁.held = false ∧ b'.heap[r]? = some t₂ := by
    intro r₁ t₁ t₂ hl hh
    rw [hh]
    split
    next hr =>
      subst hr
      obtain ⟨ht₁, hheld⟩ := lock_eq_some.mp hl
      rw [ht] at ht₁
      exact .inr ⟨rfl, some.inj ht₁, hheld, rfl⟩
    · exact .inl ht
  cases h with
  | same hh hr => exact ⟨t, by rw [hh, ht], .inl rfl⟩
  | create hl hh hr =>
    have hlt := (List.getElem?_eq_some_iff.mp ht).1
    exact ⟨t, by rw [hh, getElem?_append_left hlt, ht], .inl rfl⟩
  | move hl hm hh hr | spy hl hm hh hr =>
    rcases hone hl hh with hsame | ⟨rfl, rfl, hheld, hnew⟩
    · exact ⟨t, hsame, .inl rfl⟩
    · exact ⟨_, hnew, .inr (.inl ⟨hheld, hm⟩)⟩
  | delete hn hl hh hr =>
    rcases hone hl hh with hsame | ⟨rfl, rfl, -, hnew⟩
    · exact ⟨t, hsame, .inl rfl⟩
    · obtain ⟨t₂, ht₂, hname⟩ := b.topics_ok hn
      cases ht.symm.trans ht₂
      exact ⟨_, hnew, .inr (.inr ⟨rfl, hname ▸ hn⟩)⟩

theorem HeapStep.origin (h : b.HeapStep b' P) (ht' : b'.heap[r]? = some t') :
    (∃ t, b.heap[r]? = some t) ∨ r = b.heap.length ∧ ∃ name policy retention,
      t' = { Topic.create name policy with retention } := by
  have hold : ∀ {r₁ : TopicRef} {t₁ t₂ : Topic}, b.lock r₁ = some t₁ →
      (∀ r', b'.heap[r']? = if r' = r₁ then some t₂ else b.heap[r']?) → ∃ t, b.heap[r]? = some t := by
    intro r₁ t₁ t₂ hl hh
    rw [hh] at ht'
    split at ht'
    next hr => exact ⟨t₁, hr ▸ (lock_eq_some.mp hl).1⟩
    · exact ⟨t', ht'⟩
  cases h with
  | same hh hr => exact .inl ⟨t', hh ▸ ht'⟩
  | create hl hh hr =>
    rw [hh, getElem?_append] at ht'
    split at ht'
    · exact .inl ⟨t', ht'⟩
    next hge =>
      have hzero : r - b.heap.length = 0 := Nat.lt_one_iff.mp (List.getElem?_eq_some_iff.mp ht').1
      have hr : r = b.heap.length := Nat.le_antisymm (Nat.sub_eq_zero_iff_le.mp hzero) (Nat.not_lt.mp hge)
      rw [hzero] at ht'
      cases ht'
      exact .inr ⟨hr, _, _, _, rfl⟩
  | move hl hm hh hr | spy hl hm hh hr | delete hn hl hh hr => exact .inl (hold hl hh)

theorem HeapStep.limits (h : b.HeapStep b' P) : b'.limits = b.limits := by
  cases h with
  | same hh hr | create hl hh hr | move hl hm hh hr | spy hl hm hh hr | delete hn hl hh hr =>
    exact congrArg Registry.limits hr

theorem HeapStep.env (h : b.HeapStep b' P) : b'.env = b.env := by
  cases h with
  | same hh hr | create hl hh hr | move hl hm hh hr | spy hl hm hh hr | delete hn hl hh hr =>
    exact congrArg Registry.env hr

theorem HeapStep.spyCount_le (h : b.HeapStep b' P) : b.spyCount ≤ b'.spyCount := by
  cases h with
  | same hh hr | create hl hh hr | move hl hm hh hr | delete hn hl hh hr =>
    exact Nat.le_of_eq (congrArg Registry.spyCount hr).symm
  | spy hl hm hh hr => exact Nat.le_trans (Nat.le_succ _) (Nat.le_of_eq (congrArg Registry.spyCount hr).symm)

theorem HeapStep.lookup (h : b.HeapStep b' P) (hn : b'.topics.lookup n = some r) :
    b.topics.lookup n = some r ∨ r = b.heap.length := by
  have hold : b'.topics = b.topics → b.topics.lookup n = some r ∨ r = b.heap.length := fun ht =>
    .inl (ht ▸ hn)
  cases h with
  | same hh hr | move hl hm hh hr | spy hl hm hh hr => exact hold (congrArg Registry.topics hr)
  | @create name policy retention hl hh hr =>
    rw [show b'.topics = _ from congrArg Registry.topics hr] at hn
    have hlookup := b.lookup_addTopic { Topic.create name policy with retention } n
    rw [registry, hlookup] at hn
    split at hn
    · exact .inr (some.inj hn).symm
    · exact .inl hn
  | @delete n' r' t hn' hl hh hr =>
    rw [show b'.topics = _ from congrArg Registry.topics hr] at hn
    have hne : n ≠ n' := by
      rintro rfl
      simp [registry, removeTopic, AList.lookup_erase] at hn
    exact .inl (by simpa [registry, removeTopic, AList.lookup_erase_ne hne] using hn)

/-- What all topic objects have, one after the other. -/
def gather {α : Type} (b : Broker) (f : Topic → List α) : List α := b.heap.flatMap f

theorem mem_gather {f : Topic → List α} (ht : b.heap[r]? = some t) (hx : x ∈ f t) : x ∈ b.gather f :=
  mem_flatMap.mpr ⟨t, mem_of_getElem? ht, hx⟩

theorem gather_split (f : Topic → List α) (ht : b.heap[r]? = some t)
    (hh : ∀ r', b'.heap[r']? = if r' = r then some t' else b.heap[r']?) :
    ∃ others, (b.gather f).Perm (f t ++ others) ∧ (b'.gather f).Perm (f t' ++ others) := by
  obtain ⟨before, after, hb, hb'⟩ := heap_split ht hh
  refine ⟨before.flatMap f ++ after.flatMap f, ?_, ?_⟩
  · rw [gather, hb, flatMap_append, flatMap_cons]
    exact perm_append_comm_assoc _ _ _
  · rw [gather, hb', flatMap_append, flatMap_cons]
    exact perm_append_comm_assoc _ _ _

theorem HeapStep.gather {f : Topic → List α} (h : b.HeapStep b' P)
    (hnew : ∀ name policy retention, f { Topic.create name policy with retention } = [])
    (hdel : ∀ t, f { t with deleted := true } = f t) (hP : ∀ r t t', P r t t' → f t' = f t) :
    (b'.gather f).Perm (b.gather f) := by
  have hone : ∀ {r : TopicRef} {t t' : Topic}, b.lock r = some t → f t' = f t →
      (∀ r', b'.heap[r']? = if r' = r then some t' else b.heap[r']?) → (b'.gather f).Perm (b.gather f) := by
    intro r t t' hl hf hh
    obtain ⟨others, hperm, hperm'⟩ := gather_split f (lock_eq_some.mp hl).1 hh
    rw [hf] at hperm'
    exact hperm'.trans hperm.symm
  cases h with
  | same hh hr => rw [Broker.gather, Broker.gather, hh]
  | create hl hh hr =>
    rw [Broker.gather, Broker.gather, hh, flatMap_append, flatMap_singleton, hnew,
      append_nil]
  | move hl hm hh hr | spy hl hm hh hr => exact hone hl (hP _ _ _ hm) hh
  | delete hn hl hh hr => exact hone hl (hdel _) hh

theorem queued_of_getElem? (h : b.heap[r]? = some t) : b.queued r = t.queued := by simp [queued, h]

theorem waiting_of_getElem? (h : b.heap[r]? = some t) : b.waiting r = t.waitingConsumers := by simp [waiting, h]

theorem HeapStep.setTopic (h : b.lock r = some t) (hmove : TopicMove now b sec r t t')
    (hheap : b'.heap = b.heap) (hreg : b'.registry = b.registry) :
    b.HeapStep (b'.setTopic r t') (TopicMove now b sec) := by
  have h' : b'.lock r = some t := by rwa [lock, hheap]
  refine .move h hmove (fun r' => ?_) hreg
  rw [getElem?_setTopic h' hmove.static.1, hheap]

theorem HeapStep.congr (h : b.HeapStep b' P) (hheap : b''.heap = b'.heap)
    (hreg : b''.registry = b'.registry) : b.HeapStep b'' P := by
  cases h with
  | same hh hr => exact .same (hheap.trans hh) (hreg.trans hr)
  | create hl hh hr => exact .create hl (hheap.trans hh) (hreg.trans hr)
  | move hl hm hh hr => exact .move hl hm (fun r' => by rw [hheap, hh]) (hreg.trans hr)
  | spy hl hm hh hr => exact .spy hl hm (fun r' => by rw [hheap, hh]) (hreg.trans hr)
  | delete hn hl hh hr => exact .delete hn hl (fun r' => by rw [hheap, hh]) (hreg.trans hr)

theorem HeapStep.mono {Q : TopicRef → Topic → Topic → Prop} (h : b.HeapStep b' P)
    (hPQ : ∀ r t t', P r t t' → Q r t t') :
    b.HeapStep b' Q := by
  cases h with
  | same hh hr => exact .same hh hr
  | create hl hh hr => exact .create hl hh hr
  | move hl hm hh hr => exact .move hl (hPQ _ _ _ hm) hh hr
  | spy hl hm hh hr => exact .spy hl (hPQ _ _ _ hm) hh hr
  | delete hn hl hh hr => exact .delete hn hl hh hr

theorem heapStep_getOrCreateTopic (b : Broker) (name : GoString) :
    b.HeapStep (b.getOrCreateTopic name).2 P := by
  unfold getOrCreateTopic
  split
  · exact .same rfl rfl
  next hnone =>
    split
    · exact .same rfl rfl
    · have hheap : (b.addTopic (.create name b.defaultPolicy)).heap =
          b.heap ++ [{ create name b.defaultPolicy with retention := 0 }] := rfl
      exact .create hnone hheap rfl

theorem heapStep_matchingTopics (b : Broker) (topicName : GoString) :
    b.HeapStep (b.matchingTopics topicName).2 P := by
  unfold matchingTopics
  split
  · split <;> exact .same rfl rfl
  · exact .same rfl rfl

theorem heap_sendSpies (b : Broker) (m : Message) (spies : List Spy) :
    (b.sendSpies m spies).heap = b.heap ∧ (b.sendSpies m spies).registry = b.registry := by
  induction spies generalizing b with
  | nil => exact ⟨rfl, rfl⟩
  | cons spy spies ih =>
    rw [sendSpies]
    split
    · exact ih _
    · exact ih b

theorem heapStep_pushToSpies (h : b.pushToSpies r m = some b') : b.HeapStep b' P := by
  obtain ⟨t, -, rfl⟩ := map_eq_some_iff.mp h
  obtain ⟨hh, hr⟩ := b.heap_sendSpies m t.spies
  exact .same hh hr

theorem heapStep_trySend (h : b.trySend ch m = some b') : b.HeapStep b' P := by
  obtain ⟨-, rfl⟩ := trySend_eq_some h
  exact .same rfl rfl

theorem heapStep_store
    (h : b.store r p.topicName (.ofString p.priority) p.isBroadcast m =
      some (err, b')) :
    b.HeapStep b' (TopicMove now b (.call (.publish left p (.store r ws m isDelayed)))) := by
  have happ : err = none → (Pc.publish left p (.store r ws m isDelayed)).appends b = some (r, m) := by
    rintro rfl
    simp [Pc.appends, h]
  obtain ⟨t, ht, hst⟩ := store_cases h
  have hheap := b.heap_logPut p.topicName p.isBroadcast m
  have hreg : (b.logPut p.topicName p.isBroadcast m).registry = b.registry := by
    unfold logPut
    split <;> rfl
  cases hst with
  | deleted hdel => exact .same rfl rfl
  | refused hdel hfull hpolicy => exact .same hheap hreg
  | evicted hdel hfull hpolicy hev => exact .setTopic ht (.evict hdel hfull hev (happ rfl)) hheap hreg
  | kept hdel hroom => exact .setTopic ht (.store hdel hroom (happ rfl)) hheap hreg

end Broker

open Broker

theorem PublishPc.step_heap (h : pc.step now b left p = some o) :
    b.HeapStep o.broker (TopicMove now b (.call (.publish left p pc))) := by
  have hhook : ∀ {err b'}, (if p.isReplication then (none, b) else b.callOnPublish) = (err, b') →
      b.HeapStep b' (TopicMove now b (.call (.publish left p pc))) := by
    intro err b' he
    unfold callOnPublish at he
    split at he
    · cases he; exact .same rfl rfl
    · split at he <;> cases he <;> exact .same rfl rfl
  have hget := b.heapStep_getOrCreateTopic p.topicName (P := TopicMove now b (.call (.publish left p pc)))
  cases PublishPc.steps h with
  | full hb | getTopic hb => rwa [hb] at hget
  | refused hb | onPublish hb => exact hhook hb
  | failed hb | stored hb => exact heapStep_store hb
  | @delayed t ws m b' hb =>
    have hstep : b.HeapStep b' (TopicMove now b (.call (.publish left p (.store t ws m true)))) := heapStep_store hb
    exact hstep.congr rfl rfl
  | _ => exact .same rfl rfl

theorem PushPc.step_heap {pc : PushPc} (h : pc.step b p = some o) :
    b.HeapStep o.broker (TopicMove now b (.call (.push p pc))) := by
  cases PushPc.steps h with
  | spies hb | wildSpy hb => exact heapStep_pushToSpies hb
  | takeWild hb =>
    obtain ⟨t, ht, hb⟩ := map_eq_some_iff.mp hb
    cases hb
    exact .setTopic ht .takeWild rfl rfl
  | takeOwn hb =>
    obtain ⟨t, ht, hb⟩ := map_eq_some_iff.mp hb
    cases hb
    exact .congr (.setTopic ht .takeOwn rfl rfl) rfl rfl
  | popWild hb | popOwn hb =>
    obtain ⟨t, ht, hb⟩ := map_eq_some_iff.mp hb
    split at hb
    · cases hb
    next ch chs hw =>
      cases hb
      exact .setTopic ht (by constructor; exact hw) rfl rfl
  | noneWild hb | noneOwn hb =>
    obtain ⟨rfl, -⟩ := popWaiting_spec hb
    exact .same rfl rfl
  | sentWild hb | sentOwn hb => exact heapStep_trySend hb
  | holdWild hb =>
    obtain ⟨t, ht, rfl⟩ := map_eq_some_iff.mp hb
    exact .setTopic ht .hold rfl rfl
  | remove hb =>
    obtain ⟨t, ht, rfl⟩ := map_eq_some_iff.mp hb
    exact .setTopic ht .remove rfl rfl
  | spied | tookWild | poppedWild | fullWild | fullOwn => exact .same rfl rfl

theorem ConsumePc.step_heap
    (h : pc.step now b q = some o) : b.HeapStep o.broker (TopicMove now b (.call (.consume q pc))) := by
  have hget := b.heapStep_getOrCreateTopic q.topicName (P := TopicMove now b (.call (.consume q pc)))
  cases ConsumePc.steps h with
  | full hb | getTopic hb => rwa [hb] at hget
  | getMatching => exact b.heapStep_matchingTopics q.topicName
  | scan hb =>
    obtain ⟨t, t₁, ht, hx, -, rfl⟩ := extractMatching_eq_some hb
    exact .setTopic ht (.scan hx) rfl rfl
  | @target _ results _ _ _ hb =>
    obtain ⟨t, t₁, ht, hx, -, rfl⟩ := extractTarget_eq_some hb
    cases results with
    | nil => exact .setTopic ht (.register hx) rfl rfl
    | cons m ms => exact .setTopic ht (.target hx (by simp)) rfl rfl
  | _ => exact .same rfl rfl

theorem Broker.heapStep_requeueTo
    (h : b.requeueTo r m = some (ch, b')) : b.HeapStep b' (TopicMove now b (.call (.requeueAt r m))) := by
  have happ : ch = none → (Pc.requeueAt r m).appends b = some (r, m) := by
    rintro rfl
    simp [Pc.appends, h]
  obtain ⟨t, ht, h⟩ := map_eq_some_iff.mp h
  split at h
  next hw => cases h; exact .setTopic ht (.requeue hw (happ rfl)) rfl rfl
  next ch chs hw =>
    dsimp only at h
    split at h
    next b₁ hs =>
      cases h
      have hsent := hs
      obtain ⟨-, rfl⟩ := trySend_eq_some hs
      exact .setTopic ht (.requeueSent hw (by rw [hsent]; simp)) rfl rfl
    next hs => cases h; exact .setTopic ht (.requeueMissed hw hs (happ rfl)) rfl rfl

theorem Pc.step_heap (h : pc.step now b = some o) :
    b.HeapStep o.broker (TopicMove now b (.call pc)) := by
  cases Pc.steps h with
  | publish h => exact PublishPc.step_heap h
  | push h => exact PushPc.step_heap h
  | consume h => exact ConsumePc.step_heap h
  | castSent hb => exact heapStep_trySend hb
  | ackAt hb =>
    obtain ⟨t, ht, hb⟩ := map_eq_some_iff.mp hb
    split at hb
    next t₂ hr =>
      cases hb
      exact .congr (.setTopic ht (.ack hr) rfl rfl) rfl rfl
    · cases hb; exact .same rfl rfl
  | leaveAt hb =>
    obtain ⟨t, ht, rfl⟩ := map_eq_some_iff.mp hb
    exact .setTopic ht .leave rfl rfl
  | @requeueFull m _ hb | @requeueFound m _ _ hb =>
    have hstep := b.heapStep_getOrCreateTopic (requeued m).topic (P := TopicMove now b (.call (.requeue m)))
    rwa [hb] at hstep
  | requeueAt hb => exact heapStep_requeueTo hb
  | _ => exact .same rfl rfl

theorem MethodPc.step_heap {ret pc o} (h : MethodPc.step now b ret pc = some o) :
    b.HeapStep o.broker (TopicMove now b (.method pc)) := by
  cases MethodPc.steps h with
  | purgeAt ht => exact .setTopic ht .purge rfl rfl
  | @deleteTopic n _ r t hr ht =>
    have hget : ∀ r', (b.setTopic r { t with deleted := true }).heap[r']? =
        if r' = r then some { t with deleted := true } else b.heap[r']? := getElem?_setTopic ht rfl
    exact .delete hr ht hget rfl
  | redriveAt ht => exact .setTopic ht .redrive rfl rfl
  | sweepTopics ht => exact .setTopic ht .sweep rfl rfl
  | spyFull | createGroupAt => exact b.heapStep_getOrCreateTopic _
  | @addSpy n r b' hb =>
    have hstep := b.heapStep_getOrCreateTopic n (P := TopicMove now b (.method (.addSpy n)))
    rwa [hb] at hstep
  | @addSpyAt r n ch b' hb =>
    obtain ⟨t, ht, hb⟩ := map_eq_some_iff.mp hb
    cases hb
    have hget : ∀ r', (b.setTopic r { t with spies := t.spies ++ [b.spyCount] }).heap[r']? =
        if r' = r then some { t with spies := t.spies ++ [b.spyCount] } else b.heap[r']? :=
      getElem?_setTopic ht rfl
    exact .spy ht .addSpy hget rfl
  | removeSpyAt hb =>
    obtain ⟨t, ht, hb⟩ := map_eq_some_iff.mp hb
    split at hb
    next hch => cases hb; exact .setTopic ht (.removeSpy hch) rfl rfl
    · cases hb; exact .same rfl rfl
  | @createTopic n policy retention e =>
    show b.HeapStep (b.createTopic n policy retention).2 _
    unfold Broker.createTopic
    iterate 3
      split
      · exact .same rfl rfl
    split
    · exact .same rfl rfl
    next hnone => exact .create (by simpa using hnone) rfl rfl
  | _ => exact .same rfl rfl

namespace World

variable {pc : Pc}

variable {w w' : World} {l : WorldLabel} {i : Nat}

/-- The critical section that the label runs. -/
def sectionOf (w : World) : WorldLabel → Option Section
  | .sys (.run i) => (w.sys.calls i).map fun c => .call c.pc
  | .run i => (w.methods i).map .method
  | _ => none

/-- The ways a topic object can change in a step. -/
def Moves (w : World) (l : WorldLabel) (r : TopicRef) (t t' : Topic) : Prop :=
  ∃ sec, w.sectionOf l = some sec ∧ TopicMove w.now w.broker sec r t t'

theorem step_sys {l} (h : w.step (.sys l) = some w') : w.allows l = true ∧ ∃ s, w.sys.step l = some s ∧
    w' = { w with sys := s, panicked := w.panicked || w.sendsToClosed (.sys l), past := w.record (.sys l) s } := by
  simp only [step] at h
  split at h
  next hallow =>
    obtain ⟨s, hs, rfl⟩ := map_eq_some_iff.mp h
    exact ⟨hallow, s, hs, rfl⟩
  · cases h

theorem step_start (h : w.step (.start i m) = some w') : w.sys.free i = true ∧ w.methods i = none ∧
    w' = { w with methods := Function.update w.methods i (some m.entry) } := by
  simp only [step] at h
  split at h
  next hfree =>
    cases h
    obtain ⟨hsys, hw⟩ := Bool.and_eq_true_iff.mp hfree
    exact ⟨hsys, isNone_iff_eq_none.mp hw, rfl⟩
  · cases h

theorem step_run (h : w.step (.run i) = some w') :
    ∃ pc o, w.methods i = some pc ∧ pc.step w.now w.broker (w.sys.results i) = some o ∧
      w' = { sys := afterMethod w.sys i pc o
             methods := Function.update w.methods i (some o.next)
             closed := o.closes.toList ++ w.closed
             panicked := w.panicked || o.closes.toList.any fun ch => ch ∈ w.closed
             past := w.record (.run i) (afterMethod w.sys i pc o) } := by
  obtain ⟨pc, hpc, h⟩ := bind_eq_some_iff.mp h
  obtain ⟨o, ho, h⟩ := bind_eq_some_iff.mp h
  cases h
  exact ⟨pc, o, hpc, ho, rfl⟩

theorem step_recvSpy (h : w.step (.recvSpy ch) = some w') :
    ∃ spyChans, w' = { w with sys := { w.sys with broker := { w.broker with spyChans } } } := by
  simp only [step] at h
  split at h
  · cases h
  · cases h
    exact ⟨_, rfl⟩

theorem methods_of_step (hs : w.step l = some w') (hl : l ≠ .run i) :
    w'.methods i = w.methods i ∨ w.methods i = none ∧ ∃ m : Method, w'.methods i = some m.entry := by
  cases l with
  | sys l =>
    obtain ⟨-, s, -, rfl⟩ := step_sys hs
    exact .inl rfl
  | start k m =>
    obtain ⟨-, hnone, rfl⟩ := step_start hs
    by_cases hk : i = k
    · subst hk
      exact .inr ⟨hnone, m, Function.update_self ..⟩
    · exact .inl (Function.update_of_ne hk _ _)
  | run k =>
    obtain ⟨pc', o, -, -, rfl⟩ := step_run hs
    exact .inl (Function.update_of_ne (fun h => hl (by rw [h])) _ _)
  | recvSpy ch =>
    obtain ⟨spyChans, rfl⟩ := step_recvSpy hs
    exact .inl rfl

/-- **What a step does to the topic objects.** -/
theorem step_heap (h : w.step l = some w') : w.broker.HeapStep w'.broker (w.Moves l) := by
  cases l with
  | sys l =>
    obtain ⟨-, s, hs, rfl⟩ := step_sys h
    cases l with
    | tick d => cases hs; exact .same rfl rfl
    | start i op =>
      obtain ⟨-, -, rfl⟩ := Sys.step_start hs
      exact .same rfl rfl
    | run i =>
      obtain ⟨c, o, hc, ho, rfl⟩ := Sys.step_run hs
      have hstep : w.broker.HeapStep o.broker (w.Moves (.sys (.run i))) :=
        (Pc.step_heap ho).mono fun r t t' hm => ⟨_, by simp [sectionOf, hc], hm⟩
      exact hstep.congr (by rw [broker, Sys.setCall_broker]) (by rw [broker, Sys.setCall_broker])
    | fire k i =>
      obtain ⟨g, c, -, -, -, -, rfl⟩ := Sys.step_fire hs
      exact .same rfl rfl
    | recv ch =>
      obtain ⟨m, rest, -, rfl⟩ := Sys.step_recv hs
      exact .same rfl rfl
  | start i m =>
    obtain ⟨-, -, rfl⟩ := step_start h
    exact .same rfl rfl
  | run i =>
    obtain ⟨pc, o, hpc, ho, rfl⟩ := step_run h
    exact (MethodPc.step_heap ho).mono fun r t t' hm => ⟨_, by simp [sectionOf, hpc], hm⟩
  | recvSpy ch =>
    obtain ⟨spyChans, rfl⟩ := step_recvSpy h
    exact .same rfl rfl

theorem sectionOf_call (h : w.sectionOf l = some (.call pc)) :
    ∃ i c, l = .sys (.run i) ∧ w.sys.calls i = some c ∧ c.pc = pc := by
  cases l with
  | sys l =>
    cases l with
    | run i =>
      obtain ⟨c, hc, hpc⟩ := map_eq_some_iff.mp h
      exact ⟨i, c, rfl, hc, Section.call.inj hpc⟩
    | _ => cases h
  | run i =>
    obtain ⟨pc', -, hpc⟩ := map_eq_some_iff.mp h
    cases hpc
  | _ => cases h

theorem sectionOf_method {pc} (h : w.sectionOf l = some (.method pc)) :
    ∃ i, l = .run i ∧ w.methods i = some pc := by
  cases l with
  | sys l =>
    cases l with
    | run i =>
      obtain ⟨c, -, hpc⟩ := map_eq_some_iff.mp h
      cases hpc
    | _ => cases h
  | run i =>
    obtain ⟨pc', hpc', hpc⟩ := map_eq_some_iff.mp h
    exact ⟨i, rfl, Section.method.inj hpc ▸ hpc'⟩
  | _ => cases h

theorem step_call (hs : w.step l = some w') (hsec : w.sectionOf l = some (.call pc)) :
    ∃ o, pc.step w.now w.broker = some o ∧ w'.broker = o.broker := by
  obtain ⟨i, c, rfl, hc, rfl⟩ := sectionOf_call hsec
  obtain ⟨-, s, hsys, rfl⟩ := step_sys hs
  obtain ⟨c', o, hc', ho, rfl⟩ := Sys.step_run hsys
  cases hc.symm.trans hc'
  exact ⟨o, ho, Sys.setCall_broker _ _ _⟩

theorem step_method {pc} (hs : w.step l = some w') (hsec : w.sectionOf l = some (.method pc)) :
    ∃ ret o, pc.step w.now w.broker ret = some o ∧ w'.broker = o.broker := by
  obtain ⟨i, rfl, hpc⟩ := sectionOf_method hsec
  obtain ⟨pc', o, hpc', ho, rfl⟩ := step_run hs
  cases hpc.symm.trans hpc'
  exact ⟨_, o, ho, rfl⟩

end World

end TinyMQ
