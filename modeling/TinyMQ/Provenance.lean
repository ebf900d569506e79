/-
Where the messages of the topics come from.

`Publish` makes a message with a new identifier and appends it once;
`Requeue` appends messages that callers bring, and counts a retry on them.
So a message without a retry is the one of its identifier, in every topic,
push and timer, and once it is out of a topic it does not come back.
-/
import TinyMQ.Calls
import TinyMQ.Lib.Tokens

namespace TinyMQ

open List Option Message

variable {o : Outcome} {pc : Pc} {x : TopicRef × Message} {m : Message}

/-- The message is as `publishCore` has made it. -/
def Message.original (m : Message) : Bool := m.retryCount = 0

theorem requeued_original (m : Message) : (requeued m).original = false := by
  have hsucc : ∀ x : Int64, ¬ x < 0 → x + 1 ≠ 0 := by
    intro x hx h0
    have hneg : x = -1 := by grind
    subst hneg
    exact hx (by decide)
  have hne : (if m.retryCount < 0 then 0 else m.retryCount) + 1 ≠ 0 := by
    split
    · decide
    next hge => exact hsucc _ hge
  have hcount : (requeued m).retryCount = (if m.retryCount < 0 then 0 else m.retryCount) + 1 := by
    unfold requeued
    dsimp only
    generalize (if m.retryCount < 0 then 0 else m.retryCount) + 1 = n
    split <;> rfl
  simpa [original, hcount] using hne

/-! ## What a section does with a message -/

namespace Pc

def draft : Pc → List Message
  | .publish _ _ (.onPublish _ _ m) => [m]
  | .publish _ _ (.store _ _ m _) => [m]
  | _ => []

def requeues : Pc → Option Message
  | .requeuePut _ m => some m
  | .requeueAt _ m => some m
  | _ => none

theorem Outset.draft (h : pc.Outset) : pc.draft = [] := by
  unfold Outset at h
  split at h <;> first | rfl | exact h.elim

end Pc

def Next.draft : Next → List Message
  | .goto pc => pc.draft
  | _ => []

/-- `store` appends its message and goes on to the push, or starts its timer,
or it returns an error. -/
theorem PublishPc.step_store (h : PublishPc.step now b left p (.store t matchingWildcards msg isDelayed) = some o) :
    (Pc.publish left p (.store t matchingWildcards msg isDelayed)).appends b = some (t, msg) ∧
        o.next = (if isDelayed then .ret (.published (.ok msg))
          else .goto (.push { t, msg, matchingWildcards, isBroadcast := p.isBroadcast } .spies)) ∨
      (Pc.publish left p (.store t matchingWildcards msg isDelayed)).appends b = none ∧
        ∃ e, o.next = .ret (.published (.error e)) := by
  obtain ⟨⟨e, b'⟩, hb, rfl⟩ := map_eq_some_iff.mp h
  cases e with
  | some e => exact .inr ⟨by simp [Pc.appends, hb], e, rfl⟩
  | none =>
    refine .inl ⟨by simp [Pc.appends, hb], ?_⟩
    cases isDelayed <;> rfl

theorem Pc.appends_eq (h : pc.appends b = some x) :
    (∃ left p wildcards isDelayed, pc = .publish left p (.store x.1 wildcards x.2 isDelayed)) ∨
      pc = .requeueAt x.1 x.2 := by
  unfold Pc.appends at h
  split at h
  · split at h <;> cases h
    exact .inl ⟨_, _, _, _, rfl⟩
  · split at h <;> cases h
    exact .inr rfl
  · cases h

theorem Pc.mem_draft_of_appends (h : pc.appends b = some x) : x.2 ∈ pc.draft ∨ pc.requeues = some x.2 := by
  rcases appends_eq h with ⟨left, p, wildcards, isDelayed, rfl⟩ | rfl
  · exact .inl (mem_singleton.mpr rfl)
  · exact .inr rfl

theorem Pc.step_push (h : pc.step now b = some o) (hn : o.next = .goto (.push p k)) : (∃ k₀, pc = .push p k₀) ∨
      ∃ left a, pc = .publish left a (.store p.t p.matchingWildcards p.msg false) ∧
        pc.appends b = some (p.t, p.msg) ∧ k = .spies ∧ p.isBroadcast = a.isBroadcast := by
  cases Pc.step_goto h hn with
  | store happ => exact .inr ⟨_, _, rfl, happ, rfl, rfl⟩
  | _ => exact .inl ⟨_, rfl⟩

theorem Pc.step_requeues (h : pc.step now b = some o) (hn : o.next = .goto pc') (hm : pc'.requeues = some m) :
    pc.requeues = some m ∨ ∃ m₀, pc = .requeue m₀ ∧ m = TinyMQ.requeued m₀ := by
  cases Pc.step_goto h hn with
  | @requeue m₀ t => cases hm; exact .inr ⟨m₀, rfl, rfl⟩
  | requeuePut => exact .inl hm
  | _ => cases hm

/-- **A section makes a message**, with the next identifier, **or the message
it had in hand is appended or kept.** -/
theorem Pc.step_draft (h : pc.step now b = some o) (hreq : ∀ m, pc.requeues = some m → m.original = false) :
    (∃ m, m.original = true ∧ m.id = b.env.newUUID b.uuids ∧ o.next.draft = [m] ∧ pc.draft = [] ∧
      pc.appends b = none ∧ o.broker.uuids = b.uuids + 1) ∨
      (((pc.appends b).toList.map Prod.snd).filter original ++ o.next.draft).Sublist pc.draft ∧
        o.broker.uuids = b.uuids := by
  have huuids : (∀ left p t ws, pc ≠ .publish left p (.newMessage t ws)) → o.broker.uuids = b.uuids := by
    intro hne
    cases Pc.step_gear h with
    | issue hpc => exact absurd hpc (hne _ _ _ _)
    | same hg | timer hpc hg | cast hpc hg | send hto hc hg => exact congrArg Gear.uuids hg
  -- A section that appends nothing keeps the message, or has none.
  have hkeep : pc.appends b = none → o.next.draft = [] ∨ o.next.draft = pc.draft →
      (((pc.appends b).toList.map Prod.snd).filter original ++ o.next.draft).Sublist pc.draft := by
    intro happ hdraft
    rw [happ]
    rcases hdraft with hdraft | hdraft
    · rw [hdraft]
      exact nil_sublist _
    · rw [hdraft]
      exact .refl _
  cases pc with
  | publish left p pc =>
    cases pc with
    | newMessage t wildcards =>
      obtain ⟨topic, -, rfl⟩ := map_eq_some_iff.mp h
      exact .inl ⟨_, rfl, rfl, rfl, rfl, rfl, rfl⟩
    | store t wildcards msg isDelayed =>
      refine .inr ⟨?_, huuids (by simp)⟩
      rcases PublishPc.step_store h with ⟨happ, hnext⟩ | ⟨happ, e, hnext⟩
      · have hdraft : o.next.draft = [] := by rw [hnext]; cases isDelayed <;> rfl
        rw [happ, hdraft, append_nil]
        exact filter_sublist
      · rw [happ, hnext]
        exact nil_sublist _
    | _ =>
      refine .inr ⟨hkeep rfl ?_, huuids (by simp)⟩
      have hflow := Pc.step_flow h
      revert hflow
      generalize o.next = next
      rintro (_ | _) <;> first | exact .inl rfl | exact .inr rfl
  | requeueAt t m =>
    obtain ⟨⟨ch, b'⟩, -, rfl⟩ := map_eq_some_iff.mp h
    refine .inr ⟨?_, huuids (by simp)⟩
    cases happ : (Pc.requeueAt t m).appends b with
    | none => exact nil_sublist _
    | some x =>
      have hx : x.2 = m := by
        simp only [Pc.appends] at happ
        split at happ <;> cases happ
        rfl
      simp [hx, hreq m rfl, Next.draft]
  | _ =>
    refine .inr ⟨hkeep rfl (.inl ?_), huuids (by simp)⟩
    have hflow := Pc.step_flow h
    revert hflow
    generalize o.next = next
    rintro (_ | _) <;> rfl

theorem Pc.step_broadcast (h : pc.step now b = some o) (hn : o.next = .goto (.broadcast channels m)) :
    ∃ ch, pc = .broadcast (ch :: channels) m := by
  cases Pc.step_goto h hn with
  | broadcast => exact ⟨_, rfl⟩

/-! ## Runs -/

namespace World

variable {pc : Pc} {o : Outcome} {x : TopicRef × Message}

variable {w w' : World} {l : WorldLabel} {i : Nat}

/-- The identifier of the message that goroutine `i` has made and not stored. -/
def draftIDs (w : World) (i : Nat) : List GoString := (((w.pcAt i).map Pc.draft).getD []).map Message.id

def originals (w : World) : List (TopicRef × Message) := w.past.appended.filter fun x => x.2.original

def originalIDs (w : World) : List GoString := w.originals.map fun x => x.2.id

def Issued (w : World) (id : GoString) : Prop := ∃ k, k < w.broker.uuids ∧ id = w.broker.env.newUUID k

def appendedTo (w : World) (r : TopicRef) : List Message := (w.past.appended.filter fun x => x.1 = r).map Prod.snd

theorem mem_appendedTo : m ∈ w.appendedTo r ↔ (r, m) ∈ w.past.appended := by
  simp [appendedTo]

theorem appendedTo_append {new} (h : w'.past.appended = w.past.appended ++ new)
    (r : TopicRef) : w'.appendedTo r = w.appendedTo r ++ (new.filter fun x => x.1 = r).map Prod.snd := by
  rw [appendedTo, h, filter_append, map_append, appendedTo]

/-- **Where messages come from**: the identifiers of the originals, stored or
not, are all different, every queue has what was appended to it at most, and
what a push or a broadcast sends was stored by its `Publish`. -/
structure Traced (w : World) : Prop where
  framed : w.Framed
  ids : Tokens.Held w.Issued w.originalIDs w.draftIDs
  draft : ∀ i pc m, w.pcAt i = some pc → m ∈ pc.draft → m.original = true
  requeues : ∀ i pc m, w.pcAt i = some pc → pc.requeues = some m → m.original = false
  queued : ∀ r, (w.broker.queued r).Subperm (w.appendedTo r)
  pushes : ∀ i p k, w.pcAt i = some (.push p k) → (p.t, p.msg) ∈ w.originals
  timers : ∀ due p, .timer due p ∈ w.broker.goroutines → (p.t, p.msg) ∈ w.originals
  broadcasts : ∀ i channels m, w.pcAt i = some (.broadcast channels m) → ∃ r, (r, m) ∈ w.originals
  casts : ∀ channels m, .broadcast channels m ∈ w.broker.goroutines → ∃ r, (r, m) ∈ w.originals

theorem Advances.draftIDs (h : Advances w w' i pc o) : (w'.draftIDs i).Sublist (o.next.draft.map Message.id) := by
  have hout : (∀ pc', o.next ≠ .goto pc') → w'.draftIDs i = [] := by
    intro hn
    cases hpc : w'.pcAt i with
    | none => simp [World.draftIDs, hpc]
    | some pc' => simp [World.draftIDs, hpc, (h.leave hn pc' hpc).draft]
  cases hn : o.next with
  | goto pc' => simp [World.draftIDs, h.goto pc' hn, Next.draft]
  | call dest caller | ret r => rw [hout fun pc' => by rw [hn]; nofun]; exact nil_sublist _

theorem appended_prefix (hf : w.Framed) (hs : w.step l = some w') : ∃ new, w'.past.appended = w.past.appended ++ new ∧
      ∀ x ∈ new, ∃ i pc, l = .sys (.run i) ∧ w.pcAt i = some pc ∧ pc.appends w.broker = some x := by
  rcases advances_or_rests hf hs with ⟨i, pc, o, rfl, hadv⟩ | ⟨-, hrest⟩
  · exact ⟨_, hadv.appended, fun x hx => ⟨i, pc, rfl, hadv.at_pc, mem_toList.mp hx⟩⟩
  · exact ⟨[], by rw [hrest.appended, append_nil], nofun⟩

theorem originals_mono (hf : w.Framed) (hs : w.step l = some w') (hx : x ∈ w.originals) : x ∈ w'.originals := by
  obtain ⟨new, happ, -⟩ := appended_prefix hf hs
  rw [originals, happ, filter_append]
  exact mem_append_left _ hx

theorem Advances.mem_originals (h : Advances w w' i pc o)
    (happ : pc.appends w.broker = some x) (ho : x.2.original = true) : x ∈ w'.originals := by
  rw [originals, h.appended, happ]
  exact mem_filter.mpr ⟨mem_append_right _ (mem_singleton.mpr rfl), ho⟩

/-- **A queue gets what the section appends to it**, and no other message. -/
theorem step_queued (hs : w.step l = some w') (r : TopicRef) : (w'.broker.queued r).Subperm (w.broker.queued r) ∨
      ∃ i pc m, l = .sys (.run i) ∧ w.pcAt i = some pc ∧ pc.appends w.broker = some (r, m) ∧
        (w'.broker.queued r).Subperm (m :: w.broker.queued r) := by
  have hheap := step_heap hs
  cases ht' : w'.broker.heap[r]? with
  | none =>
    refine .inl ?_
    rw [Broker.queued, ht']
    exact nil_subperm
  | some t' =>
    rw [Broker.queued_of_getElem? ht']
    rcases hheap.origin ht' with ⟨t, ht⟩ | ⟨-, name, policy, retention, rfl⟩
    · rw [Broker.queued_of_getElem? ht]
      obtain ⟨t₂, ht₂, hcases⟩ := hheap.object ht
      cases ht'.symm.trans ht₂
      rcases hcases with rfl | ⟨-, sec, hsec, hmove⟩ | ⟨rfl, -⟩
      · exact .inl (.refl _)
      · refine hmove.queued.imp id ?_
        rintro ⟨pc, m, rfl, happ, hsub⟩
        obtain ⟨i, c, rfl, hc, rfl⟩ := sectionOf_call hsec
        exact ⟨i, _, m, rfl, by simp [pcAt, hc], happ, hsub⟩
      · exact .inl (.refl _)
    · exact .inl nil_subperm

theorem draftIDs_of_rest (hf : w.Framed) (hs : w.step l = some w') (hl : ∀ i, l ≠ .sys (.run i)) (j : Nat) :
    (w'.draftIDs j).Sublist (w.draftIDs j) := by
  have hnil : (∀ pc, w'.pcAt j = some pc → pc.draft = []) → (w'.draftIDs j).Sublist (w.draftIDs j) := by
    intro h
    cases hpc : w'.pcAt j with
    | none => simp [draftIDs, hpc]
    | some pc => simp [draftIDs, hpc, h pc hpc]
  cases turn hf hs j with
  | same hsame => rw [draftIDs, draftIDs, hsame]
  | @start op hl' hst =>
    refine hnil fun pc hpc => ?_
    cases hst.self.symm.trans hpc
    cases op <;> rfl
  | fire hl' hfi =>
    refine hnil fun pc hpc => ?_
    cases hfi.self.symm.trans hpc
    rcases Goroutine.entry_pc hfi.entry with ⟨due, push, -, -, he⟩ | ⟨channels, m, -, he⟩ <;> rw [he] <;> rfl
  | run hl' => exact absurd hl' (hl j)
  | publish hl' hout => exact hnil fun pc hpc => (hout pc hpc).draft

namespace Traced

theorem ids_step (h : w.Traced) (hs : w.step l = some w') : Tokens.Held w'.Issued w'.originalIDs w'.draftIDs := by
  have henv := (step_heap hs).env
  rcases advances_or_rests h.framed hs with ⟨i, pc, o, rfl, hadv⟩ | ⟨hl, hrest⟩
  · have hothers : ∀ j, j ≠ i → w'.draftIDs j = w.draftIDs j := fun j hj =>
      by rw [draftIDs, draftIDs, hadv.others j hj]
    have hdrafts : w.draftIDs i = pc.draft.map Message.id := by simp [draftIDs, hadv.at_pc]
    have hids : w'.originalIDs = w.originalIDs ++
        (((pc.appends w.broker).toList.map Prod.snd).filter Message.original).map Message.id := by
      rw [originalIDs, originalIDs, originals, originals, hadv.appended]
      cases happ : pc.appends w.broker with
      | none => simp
      | some x => cases hx : x.2.original <;> simp [hx]
    rcases Pc.step_draft hadv.step (h.requeues i pc · hadv.at_pc) with
      ⟨m, hm, hid, hnext, hnone, happ, huuids⟩ | ⟨hsub, huuids⟩
    · have hown : w'.draftIDs i = [w.broker.env.newUUID w.broker.uuids] := by
        cases hn : o.next with
        | goto pc' =>
          rw [hn] at hnext
          rw [World.draftIDs, hadv.goto pc' hn, ← hid]
          exact congrArg (List.map Message.id) hnext
        | call dest caller | ret r => rw [hn] at hnext; cases hnext
      rw [hids, happ, toList_none, map_nil, filter_nil, map_nil, append_nil]
      have hmore : w'.broker.uuids = w.broker.uuids + 1 := by rw [hadv.broker, huuids]
      have hnew : ¬ w.Issued (w.broker.env.newUUID w.broker.uuids) := by
        rintro ⟨k, hk, heq⟩
        have := w.broker.env.newUUID_inj heq
        omega
      refine h.ids.give i hnew hown hothers (fun id ⟨k, hk, heq⟩ => ⟨k, by omega, by rw [henv, heq]⟩) ?_
      exact ⟨w.broker.uuids, by omega, by rw [henv]⟩
    · have hissued : w'.Issued = w.Issued := by
        funext id
        rw [World.Issued, World.Issued, henv, hadv.broker, huuids]
      rw [hissued, hids]
      refine h.ids.move i ?_ hothers
      rw [append_assoc, hdrafts]
      refine (Sublist.append_left ?_ _).subperm
      exact ((Sublist.refl _).append hadv.draftIDs).trans (map_append ▸ hsub.map Message.id)
  · have hissued : w'.Issued = w.Issued := by
      funext id
      rw [World.Issued, World.Issued, hrest.uuids, henv]
    have hids : w'.originalIDs = w.originalIDs := by
      rw [originalIDs, originalIDs, originals, originals, hrest.appended]
    rw [hissued, hids]
    exact h.ids.lose (draftIDs_of_rest h.framed hs hl)

theorem draft_step (h : w.Traced) (hs : w.step l = some w')
    (hpc' : w'.pcAt j = some pc') (hm : m ∈ pc'.draft) : m.original = true := by
  cases arrives h.framed hs hpc' with
  | stays hpc => exact h.draft j pc' m hpc hm
  | @start op hl hpc => subst hpc; cases op <;> cases hm
  | timer hmem hdue hpc | broadcast hmem hpc => subst hpc; cases hm
  | @goes pc o hl hadv hn =>
    rcases Pc.step_draft hadv.step (h.requeues j pc · hadv.at_pc) with ⟨m', hm', -, hnext, -⟩ | ⟨hsub, -⟩
    · rw [hn] at hnext
      have hdraft : pc'.draft = [m'] := hnext
      rw [hdraft] at hm
      exact mem_singleton.mp hm ▸ hm'
    · rw [hn] at hsub
      exact h.draft j pc m hadv.at_pc (hsub.subset (mem_append_right _ hm))
  | outset hout => rw [hout.draft] at hm; cases hm

theorem requeues_step (h : w.Traced) (hs : w.step l = some w')
    (hpc' : w'.pcAt j = some pc') (hm : pc'.requeues = some m) : m.original = false := by
  cases arrives h.framed hs hpc' with
  | stays hpc => exact h.requeues j pc' m hpc hm
  | @start op hl hpc => subst hpc; cases op <;> cases hm
  | timer hmem hdue hpc | broadcast hmem hpc => subst hpc; cases hm
  | @goes pc o hl hadv hn =>
    rcases Pc.step_requeues hadv.step hn hm with hold | ⟨m₀, -, rfl⟩
    · exact h.requeues j pc m hadv.at_pc hold
    · exact requeued_original m₀
  | outset hout =>
    obtain ⟨left, a, k, rfl, -⟩ := hout.eq
    cases hm

theorem queued_step (h : w.Traced) (hs : w.step l = some w') (r : TopicRef) :
    (w'.broker.queued r).Subperm (w'.appendedTo r) := by
  rcases step_queued hs r with hq | ⟨i, pc, m, rfl, hpc, happ, hq⟩
  · obtain ⟨new, hnew, -⟩ := appended_prefix h.framed hs
    rw [appendedTo_append hnew]
    exact (hq.trans (h.queued r)).trans (sublist_append_left _ _).subperm
  · obtain ⟨pc', o, hadv⟩ := advances h.framed hs
    cases hpc.symm.trans hadv.at_pc
    have hnew := appendedTo_append hadv.appended r
    rw [happ] at hnew
    simp only [toList_some, filter_singleton, decide_true, cond_true, map_cons,
      map_nil] at hnew
    rw [hnew]
    exact (hq.trans ((subperm_cons m).mpr (h.queued r))).trans
      (perm_append_singleton m _).symm.subperm

theorem pushes_step (h : w.Traced) (hs : w.step l = some w')
    (hpc' : w'.pcAt j = some (.push p k)) : (p.t, p.msg) ∈ w'.originals := by
  have hmono : ∀ {x}, x ∈ w.originals → x ∈ w'.originals := originals_mono h.framed hs
  cases arrives h.framed hs hpc' with
  | stays hpc => exact hmono (h.pushes j p k hpc)
  | @start op hl hpc => cases op <;> cases hpc
  | timer hmem hdue hpc => cases hpc; exact hmono (h.timers _ _ hmem)
  | broadcast hmem hpc => cases hpc
  | @goes pc o hl hadv hn =>
    rcases Pc.step_push hadv.step hn with ⟨k₀, rfl⟩ | ⟨left, a, rfl, happ, -⟩
    · exact hmono (h.pushes j p k₀ hadv.at_pc)
    · exact hadv.mem_originals happ (h.draft j _ p.msg hadv.at_pc (mem_singleton.mpr rfl))
  | outset hout => exact hout.elim

theorem timers_step (h : w.Traced) (hs : w.step l = some w')
    (hp : .timer due p ∈ w'.broker.goroutines) : (p.t, p.msg) ∈ w'.originals := by
  cases spawned h.framed hs hp with
  | old hg => exact originals_mono h.framed hs (h.timers due p hg)
  | @timer i left a t wildcards msg o hl hadv hnext =>
    rcases PublishPc.step_store hadv.step with ⟨happ, -⟩ | ⟨-, e, he⟩
    · exact hadv.mem_originals happ (h.draft i _ msg hadv.at_pc (mem_singleton.mpr rfl))
    · cases hnext.symm.trans he

theorem broadcasts_step (h : w.Traced) (hs : w.step l = some w')
    (hpc' : w'.pcAt j = some (.broadcast channels m)) : ∃ r, (r, m) ∈ w'.originals := by
  have hmono : (∃ r, (r, m) ∈ w.originals) → ∃ r, (r, m) ∈ w'.originals :=
    fun ⟨r, hr⟩ => ⟨r, originals_mono h.framed hs hr⟩
  cases arrives h.framed hs hpc' with
  | stays hpc => exact hmono (h.broadcasts j channels m hpc)
  | @start op hl hpc => cases op <;> cases hpc
  | timer hmem hdue hpc => cases hpc
  | broadcast hmem hpc => cases hpc; exact hmono (h.casts _ _ hmem)
  | @goes pc o hl hadv hn =>
    obtain ⟨ch, rfl⟩ := Pc.step_broadcast hadv.step hn
    exact hmono (h.broadcasts j _ m hadv.at_pc)
  | outset hout => exact hout.elim

theorem casts_step (h : w.Traced) (hs : w.step l = some w')
    (hg : .broadcast channels m ∈ w'.broker.goroutines) : ∃ r, (r, m) ∈ w'.originals := by
  cases spawned h.framed hs hg with
  | old hg =>
    obtain ⟨r, hr⟩ := h.casts channels m hg
    exact ⟨r, originals_mono h.framed hs hr⟩
  | @cast i p channels o hl hadv => exact ⟨p.t, originals_mono h.framed hs (h.pushes i p _ hadv.at_pc)⟩

theorem step (h : w.Traced) (hs : w.step l = some w') : w'.Traced where
  framed := h.framed.step hs
  ids := h.ids_step hs
  draft _ _ _ := h.draft_step hs
  requeues _ _ _ := h.requeues_step hs
  queued := h.queued_step hs
  pushes _ _ _ := h.pushes_step hs
  timers _ _ := h.timers_step hs
  broadcasts _ _ _ := h.broadcasts_step hs
  casts _ _ := h.casts_step hs

theorem init (now limits policy hooked storage env chans) :
    (World.init now (.new limits policy hooked storage env chans)).Traced where
  framed := init_framed
  ids := ⟨fun _ => nodup_nil, fun _ => disjoint_nil_left _, fun h => by cases h⟩
  draft _ _ _ h := by cases h
  requeues _ _ _ h := by cases h
  queued _ := nil_subperm
  pushes _ _ _ h := by cases h
  timers _ _ h := by cases h
  broadcasts _ _ _ h := by cases h
  casts _ _ h := by cases h

/-! ### What follows -/

theorem unique (h : w.Traced) (hx : x ∈ w.originals) (hy : y ∈ w.originals) (hid : x.2.id = y.2.id) : x = y :=
  inj_on_of_nodup_map h.ids.places_nodup hx hy hid

theorem unstored (h : w.Traced) (hpc : w.pcAt i = some pc)
    (hm : m ∈ pc.draft) (hx : x ∈ w.originals) : x.2.id ≠ m.id := by
  intro hid
  have hdraft : m.id ∈ w.draftIDs i := by
    rw [World.draftIDs, hpc]
    exact List.mem_map_of_mem hm
  exact h.ids.not_mem_places hdraft (hid ▸ List.mem_map_of_mem hx)

theorem mem_appended (h : w.Traced) (hm : m ∈ w.broker.queued r) : (r, m) ∈ w.past.appended :=
  mem_appendedTo.mp ((h.queued r).subset hm)

theorem mem_originals (h : w.Traced) (hm : m ∈ w.broker.queued r) (ho : m.original = true) : (r, m) ∈ w.originals :=
  mem_filter.mpr ⟨h.mem_appended hm, ho⟩

end Traced

end World

end TinyMQ
