/-
Spies: `AddSpy` makes a channel, `RemoveSpy` closes it, and a publish sends
to the channels it finds.

A channel is on the list of one topic object until it is closed, and closing
takes it off the list under the lock under which a publish sends. A topic
that is deleted keeps its spies, and one of the same name starts without.
-/
import TinyMQ.Moves

namespace TinyMQ

open List Option Broker Topic

/-- The spies of all topic objects. -/
def Broker.spies (b : Broker) : List Spy := b.gather Topic.spies

theorem TopicMove.spies (h : TopicMove now b sec r t t') : t'.spies = t.spies ∨ (∃ n, sec = .method (.addSpyAt r n)) ∨
      ∃ ch, sec = .method (.removeSpyAt r ch) := by
  have hfields : ∀ {t t' : Topic}, t'.emptied = t.emptied → t'.spies = t.spies := fun h =>
    (fields_of_emptied h).2.2.2
  cases h with
  | store hdel hlt => exact .inl (hfields (emptied_append _ _ _))
  | evict hdel hge hev =>
    exact .inl (hfields ((emptied_append _ _ _).trans (emptied_evictOldest hev)))
  | remove => exact .inl (hfields (emptied_removeMessageByID _ _))
  | scan hx | target hx hne => exact .inl (hfields (emptied_extractMessages hx))
  | @register q r ids t t₁ hx =>
    have hs : t₁.spies = t.spies := hfields (emptied_extractMessages hx)
    exact .inl hs
  | ack hr => exact .inl (hfields (emptied_remove? hr))
  | addSpy => exact .inr (.inl ⟨_, rfl⟩)
  | removeSpy hch => exact .inr (.inr ⟨_, rfl⟩)
  | _ => exact .inl rfl

namespace Broker

variable {b b' : Broker} {r : TopicRef} {t t' : Topic}

theorem mem_spies (ht : b.heap[r]? = some t) (hch : ch ∈ t.spies) : ch ∈ b.spies := mem_gather ht hch

theorem HeapStep.spies (h : b.HeapStep b' P) (hP : ∀ r t t', P r t t' → t'.spies = t.spies) :
    b'.spies.Perm b.spies ∧ b'.spyCount = b.spyCount := by
  refine ⟨h.gather (fun _ _ _ => rfl) (fun _ => rfl) hP, ?_⟩
  cases h with
  | same hh hr | create hl hh hr | move hl hm hh hr | delete hn hl hh hr => exact congrArg Registry.spyCount hr
  | spy hl hm hh hr => exact absurd (hP _ _ _ hm) (by simp)

end Broker

namespace MethodPc

variable {now : Time} {b : Broker} {ret : Option Ret} {pc : MethodPc} {o : MethodOutcome}

theorem step_closes (h : pc.step now b ret = some o) : o.closes = none ∨ ∃ t ch, pc = .removeSpyAt t ch := by
  cases MethodPc.steps h with
  | removeSpyAt => exact .inr ⟨_, _, rfl⟩
  | _ => exact .inl rfl

/-- The spies a section leaves and the one it closes were there, or it adds
a new one. -/
theorem step_spies (h : pc.step now b ret = some o) :
    (o.broker.spies ++ o.closes.toList).Perm b.spies ∧ o.broker.spyCount = b.spyCount ∨
      o.broker.spies.Perm (b.spyCount :: b.spies) ∧ o.closes = none ∧ o.broker.spyCount = b.spyCount + 1 := by
  by_cases hadd : ∃ r n, pc = .addSpyAt r n
  · obtain ⟨r, n, rfl⟩ := hadd
    obtain ⟨⟨ch, b'⟩, hb, rfl⟩ := map_eq_some_iff.mp h
    obtain ⟨t, ht, hb⟩ := map_eq_some_iff.mp hb
    cases hb
    refine .inr ⟨?_, rfl, rfl⟩
    have hset : ∀ r', (b.setTopic r { t with spies := t.spies ++ [b.spyCount] }).heap[r']? =
        if r' = r then some { t with spies := t.spies ++ [b.spyCount] } else b.heap[r']? :=
      getElem?_setTopic ht rfl
    obtain ⟨others, hperm, hperm'⟩ := gather_split Topic.spies (lock_eq_some.mp ht).1 hset
    refine hperm'.trans (Perm.trans ?_ (hperm.symm.cons _))
    exact (perm_append_singleton _ _).append_right _
  by_cases hremove : ∃ r ch, pc = .removeSpyAt r ch
  · obtain ⟨r, ch, rfl⟩ := hremove
    obtain ⟨⟨closes, b'⟩, hb, rfl⟩ := map_eq_some_iff.mp h
    obtain ⟨t, ht, hb⟩ := map_eq_some_iff.mp hb
    left
    split at hb
    next hch =>
      cases hb
      have hset : ∀ r', (b.setTopic r { t with spies := t.spies.erase ch }).heap[r']? =
          if r' = r then some { t with spies := t.spies.erase ch } else b.heap[r']? :=
        getElem?_setTopic ht rfl
      obtain ⟨others, hperm, hperm'⟩ := gather_split Topic.spies (lock_eq_some.mp ht).1 hset
      refine ⟨?_, rfl⟩
      have hback : (ch :: (t.spies.erase ch ++ others)).Perm b.spies :=
        ((perm_cons_erase hch).symm.append_right others).trans hperm.symm
      exact ((perm_append_singleton _ _).trans (hperm'.cons ch)).trans hback
    · cases hb
      exact ⟨by simp, rfl⟩
  -- Every other section leaves the lists of spies alone.
  · have hkeep : ∀ r t t', TopicMove now b (.method pc) r t t' → t'.spies = t.spies := by
      intro r t t' hmove
      rcases hmove.spies with hs | ⟨n, hs⟩ | ⟨ch, hs⟩
      · exact hs
      · exact absurd ⟨r, n, Section.method.inj hs⟩ hadd
      · exact absurd ⟨r, ch, Section.method.inj hs⟩ hremove
    obtain ⟨hperm, hcount⟩ := (MethodPc.step_heap h).spies hkeep
    have hnone : o.closes = none := (step_closes h).resolve_right hremove
    rw [hnone]
    exact .inl ⟨by simpa using hperm, hcount⟩

end MethodPc

namespace World

variable {w w' : World} {l : WorldLabel} {now limits policy hooked storage env chans}

/-- Every channel that was made is on one list, or closed, and nothing has
panicked. -/
structure SpiesOpen (w : World) : Prop where
  nodup : (w.broker.spies ++ w.closed).Nodup
  known : ∀ ch ∈ w.broker.spies ++ w.closed, ch < w.broker.spyCount
  calm : w.panicked = false

theorem SpiesOpen.not_closed (h : w.SpiesOpen) (hch : ch ∈ w.broker.spies) : ch ∉ w.closed :=
  fun hc => disjoint_of_nodup_append h.nodup hch hc

theorem SpiesOpen.sendsToClosed (h : w.SpiesOpen) (l : WorldLabel) : w.sendsToClosed l = false := by
  unfold World.sendsToClosed
  split
  next r m hr =>
    cases ht : w.broker.heap[r]? with
    | none => rfl
    | some t =>
      have hopen : ∀ ch ∈ t.spies, ch ∉ w.closed := fun ch hch => h.not_closed (mem_spies ht hch)
      simpa using hopen
  · rfl

theorem SpiesOpen.step (h : w.SpiesOpen) (hs : w.step l = some w') : w'.SpiesOpen := by
  -- The lists and the closed channels are the same together, or one is new.
  have hkeep : (w'.broker.spies ++ w'.closed).Perm (w.broker.spies ++ w.closed) →
    w'.broker.spyCount = w.broker.spyCount →
      w'.panicked = false → w'.SpiesOpen := by
    intro hperm hcount hcalm
    refine ⟨hperm.nodup_iff.mpr h.nodup, fun ch hch => ?_, hcalm⟩
    rw [hcount]
    exact h.known ch (hperm.mem_iff.mp hch)
  cases l with
  | sys l =>
    have hsec : ∀ r t t', w.Moves (.sys l) r t t' → t'.spies = t.spies := by
      rintro r t t' ⟨sec, hsec, hmove⟩
      rcases hmove.spies with hsp | ⟨n, rfl⟩ | ⟨ch, rfl⟩
      · exact hsp
      · obtain ⟨i, hl, -⟩ := sectionOf_method hsec
        cases hl
      · obtain ⟨i, hl, -⟩ := sectionOf_method hsec
        cases hl
    obtain ⟨hperm, hcount⟩ := (step_heap hs).spies hsec
    obtain ⟨-, s, -, rfl⟩ := step_sys hs
    exact hkeep (hperm.append_right _) hcount (by simp [h.calm, h.sendsToClosed])
  | start i m =>
    obtain ⟨-, -, rfl⟩ := step_start hs
    exact hkeep (.refl _) rfl h.calm
  | run i =>
    obtain ⟨pc, o, -, ho, rfl⟩ := step_run hs
    rcases MethodPc.step_spies ho with ⟨hperm, hcount⟩ | ⟨hperm, hnone, hcount⟩
    · refine hkeep ?_ hcount ?_
      · change (o.broker.spies ++ (o.closes.toList ++ w.closed)).Perm _
        rw [← append_assoc]
        exact hperm.append_right _
      · have hopen : ∀ ch ∈ o.closes.toList, ch ∉ w.closed := fun ch hch =>
          h.not_closed (hperm.mem_iff.mp (mem_append_right _ hch))
        simpa [h.calm] using hopen
    · have hall : (o.broker.spies ++ w.closed).Perm (w.broker.spyCount :: (w.broker.spies ++ w.closed)) :=
        hperm.append_right _
      refine ⟨?_, ?_, ?_⟩
      · rw [hnone]
        refine hall.nodup_iff.mpr (nodup_cons.mpr ⟨fun hmem => ?_, h.nodup⟩)
        exact Nat.lt_irrefl _ (h.known _ hmem)
      · rw [hnone]
        intro ch hch
        rw [show broker _ = o.broker from rfl, hcount]
        rcases mem_cons.mp (hall.mem_iff.mp hch) with rfl | hold
        · exact Nat.lt_succ_self _
        · exact Nat.lt_succ_of_lt (h.known ch hold)
      · simp [hnone, h.calm]
  | recvSpy ch =>
    obtain ⟨spyChans, rfl⟩ := step_recvSpy hs
    exact hkeep (.refl _) rfl h.calm

/-- **A spy is closed once and nothing is sent to it afterwards**, in every
run of any methods: no channel is closed twice, none on a list is closed,
and neither a send nor a close has panicked. -/
theorem spies_closed_once
    (hrun : Lts.Run step (fun _ _ => True) (init now (.new limits policy hooked storage env chans)) w) :
    w.closed.Nodup ∧ w.panicked = false ∧ ∀ (r : TopicRef) (t : Topic), w.broker.heap[r]? = some t →
      ∀ ch ∈ t.spies, ch ∉ w.closed := by
  have hopen : w.SpiesOpen :=
    hrun.invariant (I := SpiesOpen) (fun _ _ _ hI _ => hI.step)
      ⟨nodup_nil, fun _ hch => absurd hch not_mem_nil, rfl⟩
  exact ⟨(nodup_append.mp hopen.nodup).2.1, hopen.calm,
    fun r t ht ch hch => hopen.not_closed (mem_spies ht hch)⟩

/-- A spy gets a message, its topic is deleted and made again, and it is
removed twice before that, by goroutines that have both found it. -/
def removeTwice : List WorldLabel :=
  WorldLabel.method 0 (.addSpy (ascii "t")) 2 ++ WorldLabel.call 1 (.publish samplePublish) 11 ++
    WorldLabel.method 2 (.removeSpy (ascii "t") 0) 1 ++ WorldLabel.method 3 (.removeSpy (ascii "t") 0) 1 ++
      [.run 2, .run 3] ++
    WorldLabel.method 4 (.deleteTopic (ascii "t") true) 2 ++ WorldLabel.call 5 (.publish samplePublish) 11

theorem spies_closed_once_sample : ∃ w, Lts.Run step (fun _ _ => True) (init 0 .sample) w ∧
    w.past.spied = [(0, firstMessage)] ∧ w.closed = [0] ∧ w.closed.Nodup ∧ w.panicked = false :=
  have hrun : Lts.Run step (fun _ _ => True) (init 0 .sample) _ :=
    Lts.Run.of_exec_get removeTwice (by decide +kernel) (by decide +kernel)
  ⟨_, hrun, by decide +kernel, by decide +kernel, (spies_closed_once hrun).1, (spies_closed_once hrun).2.1⟩

end World

end TinyMQ
