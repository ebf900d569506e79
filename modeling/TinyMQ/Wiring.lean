/-
The notify channels of waiting consumers.

A channel is passed to one `Consume`. While nobody has received from it, it
is in one place at most: in the list of a topic where its consumer waits,
in the hands of a push, or full. `Wired` says so, for the channels that
`E` allows to be in use, each at its topic.
-/
import TinyMQ.Ownership

namespace TinyMQ

open List

namespace Sys

variable {s s' : Sys} {E : Chan → TopicRef → Prop} {i : Nat} {ch : Chan}

/-- A push has taken the channel: it is about to send to it, or has sent. -/
def Taken (s : Sys) (ch : Chan) : Prop := (∃ j p, s.role j = .sending p ch) ∨ (s.broker.chans ch).buf ≠ []

/-- The channel is registered, or a push has taken it. -/
def Uses (s : Sys) (ch : Chan) : Prop := (∃ r, ch ∈ s.broker.waiting r) ∨ s.Taken ch

structure Wired (s : Sys) (E : Chan → TopicRef → Prop) : Prop where
  nodup : ∀ r, (s.broker.waiting r).Nodup
  waiting : ∀ {r ch}, ch ∈ s.broker.waiting r →
    E ch r ∧ (s.broker.chans ch).buf = [] ∧ ∀ j p, s.role j ≠ .sending p ch
  sending : ∀ {j p ch}, s.role j = .sending p ch →
    (∃ r, E ch r) ∧ (s.broker.chans ch).buf = [] ∧ ∀ j' p', s.role j' = .sending p' ch → j' = j
  full : ∀ {ch}, (s.broker.chans ch).buf ≠ [] → ∃ r, E ch r
  chans : ∀ ch, (s.broker.chans ch).cap = 1 ∧ (s.broker.chans ch).buf.length ≤ 1

theorem Wired.expects (h : s.Wired E) (hu : s.Uses ch) : ∃ r, E ch r := by
  rcases hu with ⟨r, hw⟩ | ⟨j, p, hj⟩ | hb
  · exact ⟨r, (h.waiting hw).1⟩
  · exact (h.sending hj).1
  · exact h.full hb

theorem Wired.mono (h : s.Wired E) (hE : ∀ ch r, s.Uses ch → E ch r → E' ch r) : s.Wired E' where
  nodup := h.nodup
  waiting {r ch} hw := by
    obtain ⟨he, hrest⟩ := h.waiting hw
    exact ⟨hE ch r (.inl ⟨r, hw⟩) he, hrest⟩
  sending {j p ch} hj := by
    obtain ⟨⟨r, he⟩, hrest⟩ := h.sending hj
    exact ⟨⟨r, hE ch r (.inr (.inl ⟨j, p, hj⟩)) he⟩, hrest⟩
  full {ch} hb := by
    obtain ⟨r, he⟩ := h.full hb
    exact ⟨r, hE ch r (.inr (.inr hb)) he⟩
  chans := h.chans

/-- A step that drops waiting consumers and sends at most, and touches no
channel. -/
theorem Wired.of_sublist (h : s.Wired E) (hw : ∀ r, (s'.broker.waiting r).Sublist (s.broker.waiting r))
    (hc : s'.broker.chans = s.broker.chans)
    (hr : ∀ j p ch, s'.role j = .sending p ch → s.role j = .sending p ch) : s'.Wired E where
  nodup r := (h.nodup r).sublist (hw r)
  waiting {r ch} hmem := by
    obtain ⟨he, hb, hs⟩ := h.waiting ((hw r).subset hmem)
    exact ⟨he, by rw [hc]; exact hb, fun j p hj => hs j p (hr j p ch hj)⟩
  sending {j p ch} hj := by
    obtain ⟨he, hb, hu⟩ := h.sending (hr j p ch hj)
    exact ⟨he, by rw [hc]; exact hb, fun j' p' hj' => hu j' p' (hr j' p' ch hj')⟩
  full {ch} hb := h.full (by rw [← hc]; exact hb)
  chans ch := by rw [hc]; exact h.chans ch

theorem Wired.trySend_ne_none (h : s.Wired E) (hj : s.role i = .sending p ch) : s.broker.trySend ch p.msg ≠ none := by
  obtain ⟨-, hb, -⟩ := h.sending hj
  have hcap := (h.chans ch).1
  simp [Broker.trySend, Channel.trySend, hb, hcap]

section Ran

variable {pc : Pc} {v : Role ⊕ Ret} {handed : List (Chan × Message)} {p : Push} {r : TopicRef}

theorem Ran.sending_of_ne {j} (h : Ran s s' i pc v handed) (hj : j ≠ i) (hs : s'.role j = .sending p ch) :
    s.role j = .sending p ch := (h.roles j hj).symm.trans hs

theorem Ran.sending_self (h : Ran s s' i pc v handed) (hs : s'.role i = .sending p ch) : v = .inl (.sending p ch) :=
  h.view_of_role hs nofun nofun

theorem Wired.popped (hw : s.Wired E) (hE : ∀ {ch r r'}, E ch r → E ch r' → r = r')
    (h : Ran s s' i pc (.inl (.sending p ch)) handed) (hu : s.broker.Unwaits s'.broker r)
    (hpop : s.broker.waiting r = ch :: s'.broker.waiting r) : s'.Wired E := by
  have hin : ch ∈ s.broker.waiting r := by rw [hpop]; simp
  obtain ⟨he, hbuf, hnosend⟩ := hw.waiting hin
  have hchans := hu.chans
  have hnodup := hw.nodup r
  rw [hpop, nodup_cons] at hnodup
  -- What waits after the step waited before it, and is not the channel.
  have hold : ∀ {r' ch'}, ch' ∈ s'.broker.waiting r' → ch' ∈ s.broker.waiting r' ∧ ch' ≠ ch := by
    intro r' ch' hmem
    by_cases hr : r' = r
    · subst hr
      exact ⟨by rw [hpop]; exact mem_cons_of_mem _ hmem, fun he => hnodup.1 (he ▸ hmem)⟩
    · rw [hu.waiting r' hr] at hmem
      refine ⟨hmem, fun heq => hr ?_⟩
      subst heq
      exact hE (hw.waiting hmem).1 he
  have hsend : ∀ {j p' ch'}, s'.role j = .sending p' ch' → j = i ∧ ch' = ch ∨ s.role j = .sending p' ch' := by
    intro j p' ch' hj
    by_cases hji : j = i
    · subst hji
      cases (h.sending_self hj)
      exact .inl ⟨rfl, rfl⟩
    · exact .inr (h.sending_of_ne hji hj)
  refine ⟨fun r' => ?_, fun {r' ch'} hmem => ?_, fun {j p' ch'} hj => ?_, fun {ch'} hb => ?_, fun ch' => ?_⟩
  · by_cases hr : r' = r
    · subst hr
      exact hnodup.2
    · rw [hu.waiting r' hr]
      exact hw.nodup r'
  · obtain ⟨hmem, hne⟩ := hold hmem
    obtain ⟨he', hb', hs'⟩ := hw.waiting hmem
    refine ⟨he', by rw [hchans]; exact hb', fun j p' hj => ?_⟩
    rcases hsend hj with ⟨-, heq⟩ | hj
    · exact hne heq
    · exact hs' j p' hj
  · rcases hsend hj with ⟨hji, heq⟩ | hj
    · subst hji heq
      refine ⟨⟨r, he⟩, by rw [hchans]; exact hbuf, fun j' p'' hj' => ?_⟩
      rcases hsend hj' with ⟨hji, -⟩ | hj'
      · exact hji
      · exact absurd hj' (hnosend j' p'')
    · obtain ⟨he', hb', hu'⟩ := hw.sending hj
      refine ⟨he', by rw [hchans]; exact hb', fun j' p'' hj' => ?_⟩
      rcases hsend hj' with ⟨-, heq⟩ | hj'
      · subst heq
        exact absurd hj (hnosend j p')
      · exact hu' j' p'' hj'
  · exact hw.full (by rw [← hchans]; exact hb)
  · rw [hchans]
    exact hw.chans ch'

theorem Wired.sent (hw : s.Wired E) (h : Ran s s' i pc (.inl (.removing p)) handed) (hρ : s.role i = .sending p ch)
    (hsent : s.broker.trySend ch p.msg = some s'.broker) : s'.Wired E := by
  obtain ⟨he, hbuf, huniq⟩ := hw.sending hρ
  obtain ⟨-, hb'⟩ := trySend_eq_some hsent
  have hwait : ∀ r, s'.broker.waiting r = s.broker.waiting r := fun r => by rw [hb']; rfl
  have hself : s'.broker.chans ch = ⟨1, [p.msg]⟩ := by
    have hcap := (hw.chans ch).1
    rw [hb']
    simp [hbuf, hcap]
  have hother : ∀ {ch'}, ch' ≠ ch → s'.broker.chans ch' = s.broker.chans ch' := by
    intro ch' hne
    rw [hb']
    exact Function.update_of_ne hne _ _
  -- Nobody else sends to the channel, and the push no longer does.
  have hsend : ∀ {j p' ch'}, s'.role j = .sending p' ch' → s.role j = .sending p' ch' ∧ ch' ≠ ch := by
    intro j p' ch' hj
    have hji : j ≠ i := fun hji => by
      subst hji
      cases h.sending_self hj
    have hj' := h.sending_of_ne hji hj
    exact ⟨hj', fun heq => hji (huniq j p' (heq ▸ hj'))⟩
  refine ⟨fun r => hwait r ▸ hw.nodup r, fun {r ch'} hmem => ?_, fun {j p' ch'} hj => ?_,
    fun {ch'} hb => ?_, fun ch' => ?_⟩
  · rw [hwait] at hmem
    obtain ⟨he', hb', hs'⟩ := hw.waiting hmem
    have hne : ch' ≠ ch := fun heq => hs' i p (heq ▸ hρ)
    exact ⟨he', by rw [hother hne]; exact hb', fun j p' hj => hs' j p' (hsend hj).1⟩
  · obtain ⟨hj', hne⟩ := hsend hj
    obtain ⟨he', hb', hu'⟩ := hw.sending hj'
    exact ⟨he', by rw [hother hne]; exact hb', fun j' p'' hj'' => hu' j' p'' (hsend hj'').1⟩
  · by_cases hne : ch' = ch
    · exact hne ▸ he
    · exact hw.full (by rw [← hother hne]; exact hb)
  · by_cases hne : ch' = ch
    · rw [hne, hself]
      exact ⟨rfl, Nat.le_refl 1⟩
    · rw [hother hne]
      exact hw.chans ch'

theorem Wired.registered {q ms now limit} (hw : s.Wired E) (h : Ran s s' i pc (.inl (.registered q)) handed)
    (hx : Broker.Extracts now limit s.broker s'.broker r ms (some q.notifyChan)) (he : E q.notifyChan r)
    (hunused : ¬ s.Uses q.notifyChan) : s'.Wired E := by
  obtain ⟨hnowait, hrest⟩ := not_or.mp hunused
  obtain ⟨hnosend, hnofull⟩ := not_or.mp hrest
  have hsend : ∀ {j p' ch'}, s'.role j = .sending p' ch' → s.role j = .sending p' ch' := by
    intro j p' ch' hj
    by_cases hji : j = i
    · subst hji
      cases h.sending_self hj
    · exact h.sending_of_ne hji hj
  have hmem_iff : ∀ {r' ch'}, ch' ∈ s'.broker.waiting r' → ch' ∈ s.broker.waiting r' ∨
    ch' = q.notifyChan ∧ r' = r := by
    intro r' ch' hmem
    by_cases hr : r' = r
    · rw [hr, hx.waits, mem_append] at hmem
      rcases hmem with hmem | hmem
      · exact .inl (hr ▸ hmem)
      · exact .inr ⟨by simpa using hmem, hr⟩
    · exact .inl (hx.waiting r' hr ▸ hmem)
  refine ⟨fun r' => ?_, fun {r' ch'} hmem => ?_, fun {j p' ch'} hj => ?_, fun {ch'} hb => ?_, fun ch' => ?_⟩
  · by_cases hr : r' = r
    · subst hr
      rw [hx.waits]
      refine nodup_append'.mpr ⟨hw.nodup r', by simp, ?_⟩
      intro ch' hmem hin
      exact hnowait ⟨r', by simpa [show ch' = q.notifyChan by simpa using hin] using hmem⟩
    · rw [hx.waiting r' hr]
      exact hw.nodup r'
  · rcases hmem_iff hmem with hmem | ⟨rfl, rfl⟩
    · obtain ⟨he', hb', hs'⟩ := hw.waiting hmem
      exact ⟨he', by rw [hx.chans]; exact hb', fun j p' hj => hs' j p' (hsend hj)⟩
    · exact ⟨he, by rw [hx.chans]; exact not_not.mp hnofull, fun j p' hj => hnosend ⟨j, p', hsend hj⟩⟩
  · obtain ⟨he', hb', hu'⟩ := hw.sending (hsend hj)
    exact ⟨he', by rw [hx.chans]; exact hb', fun j' p'' hj' => hu' j' p'' (hsend hj')⟩
  · exact hw.full (by rw [← hx.chans]; exact hb)
  · rw [hx.chans]
    exact hw.chans ch'

/-- **A step of a goroutine keeps the wiring**, if a consumer that starts to
wait has a channel that is allowed to. -/
theorem Wired.ran (hw : s.Wired E) (hE : ∀ {ch r r'}, E ch r → E ch r' → r = r') (hu : (s.role i).Unicast)
    (h : Ran s s' i pc v handed)
    (hreg : ∀ q r, s.role i = .seeking (some r) q → pc.waitsAt = some r → v = .inl (.registered q) →
      Broker.Extracts s.now q.limit s.broker s'.broker r [] (some q.notifyChan) →
      E q.notifyChan r ∧ ¬ s.Uses q.notifyChan) : s'.Wired E := by
  rw [h.role_eq] at hu
  -- A step after which the goroutine does not send, unless it did.
  have hquiet : (∀ p ch, v = .inl (.sending p ch) → s.role i = .sending p ch) →
      (∀ r, (s'.broker.waiting r).Sublist (s.broker.waiting r)) → s'.broker.chans = s.broker.chans →
        s'.Wired E := by
    intro hv hwait hc
    refine hw.of_sublist hwait hc fun j p ch hj => ?_
    by_cases hji : j = i
    · subst hji
      exact hv p ch (h.sending_self hj)
    · exact h.sending_of_ne hji hj
  have hsame : ∀ {r}, s'.broker.waiting r = s.broker.waiting r →
      (s'.broker.waiting r).Sublist (s.broker.waiting r) := fun he => he ▸ Sublist.refl _
  have heff := h.effect
  generalize hb : s'.broker = b' at heff
  cases heff with
  | quiet hq hmove =>
    subst hb
    refine hquiet ?_ (fun r => hsame (hq.waiting r)) hq.chans
    intro p ch hv
    cases hmove with
    | stay => rw [h.role_eq]; exact Sum.inl.inj hv
    | sendFailed hρ ht hv' => exact absurd ht (hw.trySend_ne_none (h.role_eq.trans hρ))
    | _ => cases hv
  | create hρ ht =>
    exact hquiet (fun p ch hv => by cases hv) (fun r => hsame (by rw [hb]; rfl)) (by rw [hb]; rfl)
  | store hρ hbr hs =>
    subst hb
    exact hquiet (fun p ch hv => by cases hv) (fun r => hsame (hs.waiting r)) hs.chans
  | defer hρ hbr hs =>
    exact hquiet (fun p ch hv => by cases hv) (fun r => hsame (by rw [hb]; exact hs.waiting r))
      (by rw [hb]; exact hs.chans)
  | take hρ hun | cast hρ hun | castSend hρ ht => rw [hρ] at hu; exact hu.elim
  | pop hρ hun hpop => subst hb; exact hw.popped hE h hun hpop
  | send hρ ht => subst hb; exact hw.sent h (h.role_eq.trans hρ) ht
  | remove hρ hr | ack hρ hr =>
    subst hb
    exact hquiet (fun p ch hv => by cases hv) (fun r => hsame (hr.waiting r)) hr.chans
  | @extract b' t q r ms hρ hat hx =>
    subst hb
    refine hquiet (fun p ch hv => by cases ms <;> cases hv) (fun r' => hsame ?_) hx.chans
    by_cases hr : r' = r
    · rw [hr, hx.waits]
      simp
    · exact hx.waiting r' hr
  | register hρ hat hx =>
    subst hb
    obtain ⟨he, hunused⟩ := hreg _ _ (h.role_eq.trans hρ) hat rfl hx
    exact hw.registered h hx he hunused
  | @leave b' r topicName ch hρ hun herase =>
    subst hb
    refine hquiet (fun p ch hv => by cases hv) (fun r' => ?_) hun.chans
    by_cases hr : r' = r
    · rw [hr, herase]
      exact erase_sublist
    · exact hsame (hun.waiting r' hr)

end Ran

theorem Wired.start {op} (hw : s.Wired E) (h : s.step (.start i op) = some s') : s'.Wired E := by
  obtain ⟨-, -, rfl⟩ := step_start h
  refine hw.of_sublist (fun r => Sublist.refl _) rfl fun j p ch hj => ?_
  by_cases hji : j = i
  · subst hji
    rw [setCall_role_self] at hj
    rcases op.entry_role with ho | ⟨p', ho⟩ | ⟨q, ho⟩ | ⟨n, id, ho⟩ | ⟨n, ch', ho⟩ <;>
      rw [ho] at hj <;> cases hj
  · rwa [setCall_role_ne _ hji] at hj

theorem Wired.fired {g} (hw : s.Wired E) (h : Fired s s' i g) : s'.Wired E := by
  have hb := h.broker
  refine hw.of_sublist (fun r => by rw [hb]; exact Sublist.refl _) (by rw [hb]) fun j p ch hj => ?_
  by_cases hji : j = i
  · subst hji
    rcases h.role with ⟨due, push, -, hr⟩ | ⟨chs, m, -, hr⟩ <;> rw [hr] at hj <;> cases hj
  · exact (h.roles j hji).symm.trans hj

theorem Wired.recv (hw : s.Wired E) (h : s.step (.recv ch) = some s') :
    s'.Wired E ∧ (s'.broker.chans ch).buf = [] := by
  obtain ⟨m, rest, hbuf, rfl⟩ := step_recv h
  have hrest : rest = [] := by
    have hlen := (hw.chans ch).2
    rw [hbuf, length_cons] at hlen
    exact eq_nil_of_length_eq_zero (by omega)
  subst hrest
  refine ⟨⟨hw.nodup, fun {r ch'} hmem => ?_, fun {j p ch'} hj => ?_, fun {ch'} hb => ?_, fun ch' =>
    ?_⟩, by simp⟩
  · obtain ⟨he, hb, hs⟩ := hw.waiting hmem
    have hne : ch' ≠ ch := fun heq => by rw [heq, hbuf] at hb; cases hb
    exact ⟨he, by simpa [hne] using hb, hs⟩
  · obtain ⟨he, hb, hu⟩ := hw.sending hj
    have hne : ch' ≠ ch := fun heq => by rw [heq, hbuf] at hb; cases hb
    exact ⟨he, by simpa [hne] using hb, hu⟩
  · by_cases hne : ch' = ch
    · subst hne
      simp at hb
    · exact hw.full (by simpa [hne] using hb)
  · by_cases hne : ch' = ch
    · subst hne
      have hcap := (hw.chans ch').1
      simp [hcap]
    · simpa [hne] using hw.chans ch'

end Sys

end TinyMQ
