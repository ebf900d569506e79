/-
Who attends to a message while consumers wait.

A message that is queued while a consumer waits, for its topic or for a
wildcard that matches it, is attended to by a push that has still to look at
that consumer, or by a timer that will start one. A push that passes the
consumer by leaves none waiting; one that takes a consumer sends to it and
removes the message, by its identifier.
-/
import TinyMQ.Channels
import TinyMQ.Provenance

namespace TinyMQ

open List Option Broker

/-- The push has still to look at the consumers of `r`, or it has taken one
for its message. -/
def PushPc.Reaches (p : Push) (r : TopicRef) : PushPc → Prop
  | .spies => r ∈ p.matchingWildcards ++ [p.t]
  | .wildSpies _ => r ∈ p.matchingWildcards ++ [p.t]
  | .takeWild rest _ => r ∈ rest ++ [p.t]
  | .takeOwn _ => r = p.t
  | .popWild rest => r ∈ rest ++ [p.t]
  | .holdWild rest => r ∈ rest ++ [p.t]
  | .popOwn => r = p.t
  | .sendWild _ _ => True
  | .sendOwn _ => True
  | .remove => True

namespace Broker

variable {b b' : Broker}

theorem takeWaiting_nil (h : b.takeWaiting r = some (chs, b')) : b'.waiting r = [] := by
  obtain ⟨t, ht, h⟩ := map_eq_some_iff.mp h
  cases h
  rw [waiting_setTopic ht, if_pos rfl]

end Broker

/-- **A push that looks at the consumers of a topic takes one or leaves none
waiting.** -/
theorem PushPc.step_reaches {b p} {k : PushPc} {o r} (h : k.step b p = some o) (hr : k.Reaches p r)
    (hroom : ∀ ch m, (Pc.push p k).sendsTo b = some (ch, m) → b.trySend ch m ≠ none) :
    (∃ k', o.next = .goto (.push p k') ∧ k'.Reaches p r) ∨ o.broker.waiting r = [] ∨ k = .remove := by
  cases PushPc.steps h with
  | spies | wildSpy | holdWild => exact .inl ⟨_, rfl, hr⟩
  | spied =>
    refine .inl ⟨_, rfl, ?_⟩
    split <;> exact hr
  | tookWild | poppedWild => exact .inl ⟨_, rfl, mem_singleton.mp hr⟩
  | takeWild hb =>
    rcases mem_cons.mp hr with rfl | hr
    · exact .inr (.inl (takeWaiting_nil hb))
    · exact .inl ⟨_, rfl, hr⟩
  | @takeOwn _ _ b' hb =>
    cases hr
    have hnil : b'.waiting p.t = [] := takeWaiting_nil hb
    exact .inr (.inl hnil)
  | popWild | popOwn | sentWild | sentOwn => exact .inl ⟨_, rfl, trivial⟩
  | noneWild hb =>
    obtain ⟨rfl, hw⟩ := popWaiting_spec hb
    rcases mem_cons.mp hr with rfl | hr
    · exact .inr (.inl hw)
    · exact .inl ⟨_, rfl, hr⟩
  | noneOwn hb =>
    obtain ⟨rfl, hw⟩ := popWaiting_spec hb
    cases hr
    exact .inr (.inl hw)
  | fullWild hfull | fullOwn hfull => exact absurd hfull (hroom _ p.msg rfl)
  | remove => exact .inr (.inr rfl)

theorem PublishPc.step_timer {now b left p t matchingWildcards msg o}
    (h : PublishPc.step now b left p (.store t matchingWildcards msg true) = some o)
    (happ : (Pc.publish left p (.store t matchingWildcards msg true)).appends b = some (t, msg)) :
    .timer (p.deliverAt.getD now) { t, msg, matchingWildcards, isBroadcast := p.isBroadcast } ∈
      o.broker.goroutines := by
  obtain ⟨⟨e, b'⟩, hb, rfl⟩ := map_eq_some_iff.mp h
  cases e with
  | some e => simp [Pc.appends, hb] at happ
  | none => exact mem_append_right _ (mem_singleton.mpr rfl)

namespace World

variable {w w' : World} {l : WorldLabel} {i : Nat} {R T : TopicRef} {m : Message}

/-- A push of the message at `T` will look at the consumers of `R`. -/
def Covers (w : World) (R T : TopicRef) (m : Message) : Prop :=
  (∃ i p k, w.pcAt i = some (.push p k) ∧ p.t = T ∧ p.msg = m ∧ k.Reaches p R) ∨
    ∃ due p, .timer due p ∈ w.broker.goroutines ∧ p.t = T ∧ p.msg = m ∧ R ∈ p.matchingWildcards ++ [p.t]

theorem Traced.covers (h : w.Traced) (hc : w.Covers R T m) : (T, m) ∈ w.originals := by
  rcases hc with ⟨i, p, k, hpc, rfl, rfl, -⟩ | ⟨due, p, hg, rfl, rfl, -⟩
  · exact h.pushes i p k hpc
  · exact h.timers due p hg

theorem Traced.count_queued (h : w.Traced) (ho : m.original = true) : (w.broker.queued T).count m ≤ 1 := by
  have hnodup : w.originals.Nodup := Nodup.of_map _ h.ids.places_nodup
  have happ : (w.appendedTo T).count m ≤ w.originals.count (T, m) := by
    rw [appendedTo, originals, count_eq_countP, count_eq_countP, countP_map,
      countP_filter,
      countP_filter]
    refine countP_mono_left fun x _ hx => ?_
    obtain ⟨hm, hT⟩ := Bool.and_eq_true_iff.mp hx
    have hpair : x = (T, m) := Prod.ext (of_decide_eq_true hT) (eq_of_beq hm)
    simp [hpair, ho]
  have hone : w.originals.count (T, m) ≤ 1 := nodup_iff_count_le_one.mp hnodup _
  have hsub := (h.queued T).count_le m
  omega

/-- The goroutines that were there are there still, or have started to run. -/
theorem goroutine_step (hf : w.Framed) (hs : w.step l = some w') (hg : g ∈ w.broker.goroutines) :
    g ∈ w'.broker.goroutines ∨ ∃ k i c, l = .sys (.fire k i) ∧ Fires w w' k i g c := by
  cases l with
  | sys l =>
    cases l with
    | tick d => obtain ⟨-, s, hsys, rfl⟩ := step_sys hs; cases hsys; exact .inl hg
    | start i op => exact .inl ((starts hs).broker ▸ hg)
    | run i =>
      obtain ⟨pc, o, hadv⟩ := advances hf hs
      have hgo : w'.broker.goroutines = o.broker.gear.goroutines := by rw [hadv.broker]; rfl
      rw [hgo]
      cases Pc.step_gear hadv.step with
      | same hgear | issue hpc hgear | send hto hc hgear => rw [hgear]; exact .inl hg
      | timer hpc hgear | cast hpc hgear => rw [hgear]; exact .inl (mem_append_left _ hg)
    | fire k i =>
      obtain ⟨g', c, hfi⟩ := fires hs
      obtain ⟨n, hn⟩ := mem_iff_getElem?.mp hg
      by_cases hk : n = k
      · rw [hk, hfi.goroutine] at hn
        cases hn
        exact .inr ⟨k, i, c, rfl, hfi⟩
      · rw [hfi.broker]
        exact .inl (mem_eraseIdx_iff_getElem?.mpr ⟨n, hk, hn⟩)
    | recv ch =>
      obtain ⟨-, s, hsys, rfl⟩ := step_sys hs
      obtain ⟨m, rest, -, rfl⟩ := Sys.step_recv hsys
      exact .inl hg
  | start i m => obtain ⟨-, -, rfl⟩ := step_start hs; exact .inl hg
  | run i =>
    obtain ⟨pc, o, -, ho, rfl⟩ := step_run hs
    have hgo : o.broker.goroutines = w.broker.goroutines := congrArg Gear.goroutines (MethodPc.step_gear ho)
    exact .inl (hgo ▸ hg)
  | recvSpy ch => obtain ⟨spyChans, rfl⟩ := step_recvSpy hs; exact .inl hg

/-- The calls are those of `Sys`, and a push that sends finds room. -/
def HasRoom (w : World) : WorldLabel → Prop
  | .sys (.run i) => ∀ p k ch m, w.pcAt i = some (.push p k) → (Pc.push p k).sendsTo w.broker = some (ch, m) →
      w.broker.trySend ch m ≠ none
  | .sys _ => True
  | _ => False

/-- The push that has sent its message removes it: it is the only one of its
identifier, when all the messages at its topic are originals. -/
theorem Traced.not_mem_removed (h : w.Traced)
    (hpc : w.pcAt i = some (.push p .remove)) (ho : PushPc.step w.broker p .remove = some o)
    (hall : ∀ m ∈ w.broker.queued p.t, (p.t, m) ∈ w.originals) : p.msg ∉ o.broker.queued p.t := by
  obtain ⟨b', hb, rfl⟩ := map_eq_some_iff.mp ho
  have horig := h.pushes i p _ hpc
  rcases (removeMessage_removes hb).queue with ⟨hsame, hnone⟩ | ⟨m, hid, hperm⟩
  · intro hmem
    exact hnone p.msg (hsame ▸ hmem) rfl
  · have hm : m = p.msg := by
      have hmem : m ∈ w.broker.queued p.t := hperm.symm.subset mem_cons_self
      exact congrArg Prod.snd (h.unique (hall m hmem) horig hid)
    have hcount := h.count_queued (T := p.t) (mem_filter.mp horig).2
    rw [hperm.count_eq, hm, count_cons_self] at hcount
    exact List.count_eq_zero.mp (Nat.le_zero.mp (Nat.le_of_succ_le_succ hcount))

theorem covers_step (h : w.Traced) (hok : w.HasRoom l) (hs : w.step l = some w') (hc : w.Covers R T m)
    (hall : ∀ m ∈ w.broker.queued T, (T, m) ∈ w.originals) :
    w'.Covers R T m ∨ w'.broker.waiting R = [] ∨ m ∉ w'.broker.queued T := by
  rcases hc with ⟨j, p, k, hpc, rfl, rfl, hr⟩ | ⟨due, p, hg, rfl, rfl, hr⟩
  · cases turn h.framed hs j with
    | same hsame => exact .inl (.inl ⟨j, p, k, hsame.trans hpc, rfl, rfl, hr⟩)
    | start hl hst => rw [hst.free] at hpc; cases hpc
    | fire hl hfi => rw [hfi.free] at hpc; cases hpc
    | run hl hadv =>
      subst hl
      cases hpc.symm.trans hadv.at_pc
      rcases PushPc.step_reaches hadv.step hr (hok p k · · hpc) with ⟨k', hn, hr'⟩ | hnil | rfl
      · exact .inl (.inl ⟨j, p, k', hadv.goto _ hn, rfl, rfl, hr'⟩)
      · exact .inr (.inl (hadv.broker ▸ hnil))
      · exact .inr (.inr (hadv.broker ▸ h.not_mem_removed hpc hadv.step hall))
    | publish hl => subst hl; exact hok.elim
  · rcases goroutine_step h.framed hs hg with hg | ⟨k, i, c, -, hfi⟩
    · exact .inl (.inr ⟨due, p, hg, rfl, rfl, hr⟩)
    · rcases Goroutine.entry_pc hfi.entry with ⟨due', p', heq, -, hpc⟩ | ⟨channels, m, heq, -⟩
      · cases heq
        exact .inl (.inl ⟨i, p, .spies, hfi.self.trans (congrArg some hpc), rfl, rfl, hr⟩)
      · cases heq

theorem covers_consume (h : w.Traced)
    (hs : w.step (.sys (.run i)) = some w') (hpc : w.pcAt i = some (.consume q k)) (hc : w.Covers R T m) :
    w'.Covers R T m := by
  rcases hc with ⟨j, p, k', hpc', ht, hmsg, hr⟩ | ⟨due, p, hg, ht, hmsg, hr⟩
  · obtain ⟨pc, o, hadv⟩ := advances h.framed hs
    have hne : j ≠ i := by
      rintro rfl
      cases hpc.symm.trans hpc'
    exact .inl ⟨j, p, k', (hadv.others j hne).trans hpc', ht, hmsg, hr⟩
  · rcases goroutine_step h.framed hs hg with hg | ⟨n, j, c, hl, -⟩
    · exact .inr ⟨due, p, hg, ht, hmsg, hr⟩
    · cases hl

/-! ## A consumer comes to wait -/

/-- A consumer that waits was waiting before, or its `Consume` has found
nothing. -/
theorem waiting_step (hs : w.step l = some w') (hw : w'.broker.waiting R ≠ []) : w.broker.waiting R ≠ [] ∨
    ∃ i q, l = .sys (.run i) ∧ w.pcAt i = some (.consume q (.target R)) := by
  have hheap := step_heap hs
  cases ht' : w'.broker.heap[R]? with
  | none => exact absurd (by simp [waiting, ht']) hw
  | some t' =>
    rw [waiting_of_getElem? ht'] at hw
    rcases hheap.origin ht' with ⟨t, ht⟩ | ⟨-, name, policy, retention, rfl⟩
    · rw [waiting_of_getElem? ht]
      obtain ⟨t₂, ht₂, hcases⟩ := hheap.object ht
      cases ht'.symm.trans ht₂
      rcases hcases with rfl | ⟨-, sec, hsec, hmove⟩ | ⟨rfl, -⟩
      · exact .inl hw
      · rcases hmove.shrinks_or with hshrink | hadd
        · exact .inl fun hnil => hw (sublist_nil.mp (hnil ▸ hshrink.waiting))
        · cases hadd with
          | store hdel hmax hsub heq hs happ => exact .inl (heq ▸ hw)
          | requeue hnone hperm hsub hs happ => exact .inl fun hnil => hw (sublist_nil.mp (hnil ▸ hsub))
          | @register q r hnone hsub heq hs =>
            obtain ⟨i, c, rfl, hc, hpc⟩ := sectionOf_call hsec
            exact .inr ⟨i, q, rfl, by simp [pcAt, hc, hpc]⟩
          | spy heq => subst heq; exact .inl hw
      · exact .inl hw
    · exact absurd rfl hw

theorem registered_delayed (hf : w.Framed) (hs : w.step (.sys (.run i)) = some w')
    (hpc : w.pcAt i = some (.consume q (.target R))) (hlimit : 1 ≤ q.limit) (hw : w.broker.waiting R = [])
    (hw' : w'.broker.waiting R ≠ []) : ∀ m ∈ w'.broker.queued R, m ∈ w.broker.queued R ∧ m.delayed w.now = true := by
  obtain ⟨pc, o, hadv⟩ := advances hf hs
  cases hpc.symm.trans hadv.at_pc
  obtain ⟨⟨⟨results, ids, name⟩, b'⟩, hb, rfl⟩ := map_eq_some_iff.mp hadv.step
  have hx := extractTarget_extracts hb
  have hbroker : w'.broker = b' := hadv.broker
  have hempty : results.isEmpty = true := by
    by_contra hne
    have hwaits := hx.waits
    rw [if_neg hne, hw] at hwaits
    exact hw' (hbroker ▸ hwaits)
  rw [List.isEmpty_iff] at hempty
  subst hempty
  intro m hm
  rw [hbroker] at hm
  obtain ⟨gone, hperm, -⟩ := hx.queue
  exact ⟨hperm.symm.subset (mem_append_right _ hm), hx.left hlimit m hm⟩

theorem Advances.covers_stored {left a wildcards isDelayed o}
    (hadv : Advances w w' i (.publish left a (.store T wildcards m isDelayed)) o)
    (happ : (Pc.publish left a (.store T wildcards m isDelayed)).appends w.broker = some (T, m))
    (hr : R ∈ wildcards ++ [T]) : w'.Covers R T m := by
  cases isDelayed with
  | false =>
    rcases PublishPc.step_store hadv.step with ⟨-, hnext⟩ | ⟨hnone, -⟩
    · exact .inl ⟨i, _, .spies, hadv.goto _ hnext, rfl, rfl, hr⟩
    · cases hnone.symm.trans happ
  | true =>
    refine .inr ⟨_, _, hadv.broker ▸ PublishPc.step_timer hadv.step happ, rfl, rfl, hr⟩

/-- **While consumers wait at `R`, the messages at `T` are attended to**, if
so are those that are stored or requeued there and those that are there when
a consumer comes to wait. -/
theorem attended_step (h : w.Traced) (hok : w.HasRoom l) (hs : w.step l = some w')
    (hatt : w.broker.waiting R ≠ [] → ∀ m ∈ w.broker.queued T, w.Covers R T m)
    (hstore : ∀ i left a wildcards m isDelayed, l = .sys (.run i) →
      w.pcAt i = some (.publish left a (.store T wildcards m isDelayed)) →
      (Pc.publish left a (.store T wildcards m isDelayed)).appends w.broker = some (T, m) →
      w.broker.waiting R ≠ [] → R ∈ wildcards ++ [T])
    (hrequeue : ∀ i m, l = .sys (.run i) → w.pcAt i = some (.requeueAt T m) →
      (Pc.requeueAt T m).appends w.broker = some (T, m) → w'.broker.waiting R = [])
    (hregister : ∀ i q, l = .sys (.run i) → w.pcAt i = some (.consume q (.target R)) → w.broker.waiting R = [] →
      w'.broker.waiting R ≠ [] → ∀ m ∈ w'.broker.queued T, w'.Covers R T m)
    (hw' : w'.broker.waiting R ≠ []) (hm' : m ∈ w'.broker.queued T) : w'.Covers R T m := by
  by_cases hw : w.broker.waiting R = []
  · rcases waiting_step hs hw' with hne | ⟨i, q, hl, hpc⟩
    · exact absurd hw hne
    · exact hregister i q hl hpc hw hw' m hm'
  · have hold : m ∈ w.broker.queued T → w'.Covers R T m := by
      intro hm
      rcases covers_step h hok hs (hatt hw m hm) fun m hm => h.covers (hatt hw m hm) with hc | hnil | hgone
      · exact hc
      · exact absurd hnil hw'
      · exact absurd hm' hgone
    rcases step_queued hs T with hsub | ⟨i, pc, m₀, rfl, hpc, happ, hsub⟩
    · exact hold (hsub.subset hm')
    · rcases mem_cons.mp (hsub.subset hm') with rfl | hm
      · rcases Pc.appends_eq happ with ⟨left, a, wildcards, isDelayed, rfl⟩ | rfl
        · obtain ⟨pc', o, hadv⟩ := advances h.framed hs
          cases hpc.symm.trans hadv.at_pc
          exact hadv.covers_stored happ (hstore i left a wildcards m isDelayed rfl hpc happ hw)
        · exact absurd (hrequeue i m rfl hpc happ) hw'
      · exact hold hm

end World

end TinyMQ
