/-
Messages on a follower: what `PublishReplicated` makes of a message of the
leader, and how many copies come of one publish.

A `REPLICATE` carries the topic and the payload, nothing else, so that the
attributes survive exactly when they are those of a plain publish
(`attributes_survive_iff`). And it is sent for each name the leader has
tried, while the follower tries the groups of each name again:
`replicated_once_iff` counts the copies.
-/
import TinyMQ.Wire

namespace TinyMQ

open List Broker
open Broker (copiesOf)

/-! ## The commands of one publish -/

namespace Broker

/-- Of the names a publish is tried for, those whose topic it gets: for these
the hook is called. -/
def askedNames (b : Broker) : Nat → List GoString → List GoString
  | _, [] => []
  | created, n :: ns =>
    if (nameError n).isNone && b.gets created n then
      n :: b.askedNames (if (b.topics.lookup n).isSome then created else created + 1) ns
    else b.askedNames created ns

/-- The names a publish calls `Replicate` for. -/
def replicatedNames (b : Broker) (p : PublishArgs) : List GoString :=
  if p.isReplication ∨ b.hooked = false then [] else b.askedNames 0 (b.tried p.topicName)

variable {b : Broker} {p : PublishArgs} {created asked : Nat} {n : GoString} {ns : List GoString}

theorem counts_askedNames (b : Broker) (p : PublishArgs) (created asked : Nat) (ns : List GoString) :
    (ns.foldl (fun c n => b.counts p c.1 c.2 n) (created, asked)).2 =
      asked + (b.askedNames created ns).length * b.asks p := by
  induction ns generalizing created asked with
  | nil => simp [askedNames]
  | cons n ns ih =>
    rw [foldl_cons, ih, askedNames]
    unfold counts
    split
    · simp only [length_cons, Nat.succ_mul]
      omega
    · rfl

theorem mem_askedNames (h : n ∈ b.askedNames created ns) : n ∈ ns ∧ nameError n = none := by
  induction ns generalizing created with
  | nil => cases h
  | cons k ns ih =>
    rw [askedNames] at h
    split at h
    next hk =>
      rcases mem_cons.mp h with rfl | h
      · simp only [Bool.and_eq_true, Option.isNone_iff_eq_none] at hk
        exact ⟨mem_cons_self, hk.1⟩
      · exact (ih h).imp_left (mem_cons_of_mem _)
    · exact (ih h).imp_left (mem_cons_of_mem _)

theorem nameError_of_admitted (h : n ∈ b.admittedNames p created asked ns) : nameError n = none := by
  induction ns generalizing created asked with
  | nil => cases h
  | cons k ns ih =>
    rw [admittedNames_cons] at h
    rcases mem_append.mp h with h | h
    · split at h
      next htakes =>
        rw [mem_singleton.mp h]
        exact nameError_of_takes htakes
      · cases h
    · exact ih h

end Broker

section Asks

variable {now : Time} {p : PublishArgs} {b₀ b b' : Broker} {r : Ret} {created asked : Nat}

theorem Fans.after {ns rs} (hf : Fans now p ns b rs b') (hnodup : ns.Nodup) (hns : ∀ n ∈ ns, n ∉ done)
    (h : b₀.After b done created asked) :
    b'.answers = b₀.answers + (ns.foldl (fun c n => b₀.counts p c.1 c.2 n) (created, asked)).2 := by
  induction hf generalizing done created asked with
  | nil => exact h.answers
  | cons ht _ ih =>
    obtain ⟨hnot, hnodup⟩ := nodup_cons.mp hnodup
    exact ih hnodup (not_mem_cons_of_done hnot hns) (ht.after (hns _ mem_cons_self) h).1

/-- **The hook is called once for each of these names.** -/
theorem publish_asks (hg : b.Grouped p.topicName) (h : Returns now b (Op.publish p).entry r b') :
    b'.answers = b.answers + (b.replicatedNames p).length := by
  rcases publish_fans hg h with ⟨hname, -, rfl⟩ | ⟨ranges, rs, ns, htried, -, hfans⟩
  · simp [replicatedNames, tried, hname, askedNames]
  · rw [← htried] at hfans
    rw [hfans.after hg.tried_nodup (by simp) (.start b ranges), b.counts_askedNames,
      Nat.zero_add, replicatedNames, asks]
    split <;> simp

end Asks

/-- The broker of a leader, which calls `Replicate`. -/
def Broker.onLeader (b : Broker) : Broker := { b with hooked := true }

theorem publish_asks_sample : ∃ b r b', Returns 0 b (Op.publish samplePublish).entry r b' ∧
    b'.answers = b.answers + 2 := by
  let b := (groupedBroker 5).onLeader
  have h := returns_get 0 b (.publish samplePublish)
  have hg : b.Grouped samplePublish.topicName := groupedBroker_grouped 5 (by decide) (ascii "t")
  have hnames : (b.replicatedNames samplePublish).length = 2 := by decide +kernel
  exact ⟨b, _, _, h, hnames ▸ publish_asks hg h⟩

theorem not_blank_of_nameError (h : nameError n = none) : 32 ∉ n :=
  not_mem_of_validTopicRegex (validTopicRegex_of_nameError h) (by decide)

namespace Cluster

/-! ## One message -/

/-- A line makes a node call `PublishReplicated`: `handlePeer` for a command of
its leader, `requestSync` for a line of a snapshot. -/
inductive Delivers (k : Keys) (c : Config) (now : Time) (n : Node) (line topic : GoString) (payload : List UInt8) : Prop
  | live : (handleLine k c now n line).action = .publishReplicated topic payload → Delivers k c now n line topic payload
  | sync : syncLine k line = .publishReplicated topic payload → Delivers k c now n line topic payload

section Line

variable {k : Keys} {c : Config} {now : Time} {n : Node} {term : Int} {leader topic : GoString}

theorem Delivers.eq (h : Delivers k c now n (k.signed (replicateBody term leader topic payload)) topic' payload')
    (hterm : -2 ^ 63 ≤ term ∧ term < 2 ^ 63) (hleader : 32 ∉ leader) (htopic : 32 ∉ topic) :
    topic' = topic ∧ payload' = payload := by
  cases h with
  | live h =>
    rw [handleLine_replicate hterm hleader htopic] at h
    simp only [Command.serve, Codec.decodeBase64_base64] at h
    split at h
    · cases h
      exact ⟨rfl, rfl⟩
    · cases h
  | sync h =>
    rw [syncLine_replicate hleader htopic] at h
    cases h
    exact ⟨rfl, rfl⟩

end Line

/-- The message is in the queue of a priority, at the topic of its name. -/
def Sits (b : Broker) (m : Message) (priority : Priority) : Prop :=
  ∃ r, b.topics.lookup m.topic = some r ∧ m ∈ b.slot r priority

/-- A copy of a message, of which the follower makes what its leader would
make of the message. -/
structure SameMessage (m : Message) (priority : Priority) (m' : Message) (priority' : Priority) : Prop where
  payload : m'.payload = m.payload
  headers : m'.headers = m.headers
  expiresAt : m'.expiresAt = m.expiresAt
  deliverAt : m'.deliverAt = m.deliverAt
  priority : priority' = priority

section Attributes

variable {k : Keys} {c : Config} {now now' : Time} {n : Node} {term : Int} {leader topic : GoString}
  {payload : List UInt8}
  {p : PublishArgs} {b b' f f' : Broker} {r r' : Ret} {m m' : Message} {z : Zone} {priority : Priority}

theorem publish_made (hg : b.Grouped p.topicName) (hfresh : b.Fresh) (h : Returns now b (Op.publish p).entry r b')
    (hm : m ∈ b'.zone [] z) (hs : b.Since b' m.id) : nameError m.topic = none ∧ b.Made now p b' m.topic m := by
  obtain ⟨new, htrail, hperm, hmade⟩ := publish_admitted hg hfresh h
  have hmem := htrail.all z m hm hs
  exact ⟨nameError_of_admitted (hperm.mem_iff.mp (List.mem_map_of_mem hmem)), hmade m hmem⟩

/-- **A replicated message keeps its attributes** exactly when the publish had
no headers, no delay and the normal priority, and its expiry on the leader
is the one the retention of the follower gives. The message `m` was made by
a publish to the leader's broker `b`, for its topic or a group; a line for
it has made the broker `f` of a follower queue `m'`. -/
theorem attributes_survive_iff (hg : b.Grouped p.topicName) (hfresh : b.Fresh)
    (h : Returns now b (Op.publish p).entry r b')
    (hm : m ∈ b'.zone [] z) (hs : b.Since b' m.id) (hterm : -2 ^ 63 ≤ term ∧ term < 2 ^ 63) (hleader : 32 ∉ leader)
    (hline : Delivers k c now' n (k.signed (replicateBody term leader m.topic m.payload)) topic payload)
    (hg' : f.Grouped topic) (hfresh' : f.Fresh)
      (h' : Returns now' f (Op.publish (replicatedArgs topic payload)).entry r' f')
    (hm' : Sits f' m' priority) (hs' : f.Since f' m'.id) (htopic : m'.topic = m.topic) :
    SameMessage m (.ofString p.priority) m' priority ↔
      p.headers = [] ∧ p.deliverAt = none ∧ Priority.ofString p.priority = .normal ∧
        p.expiry (b.retention m.topic) now =
          if 0 < f.retention m.topic then some (now' + f.retention m.topic) else none := by
  obtain ⟨hname, hmade⟩ := publish_made hg hfresh h hm hs
  obtain ⟨rfl, rfl⟩ := hline.eq hterm hleader (not_blank_of_nameError hname)
  obtain ⟨ref, -, hslot⟩ := hm'
  obtain ⟨-, hmade'⟩ := publish_made (z := .queue ref) hg' hfresh' h' (mem_queued_of_slot hslot) hs'
  have hpriority : priority = .normal := hmade'.slot ref priority hslot
  rw [htopic] at hmade'
  -- The two messages, field by field.
  have hheaders : m.headers = p.headers := congrArg Message.headers hmade.message
  have hexpires : m.expiresAt = p.expiry (b.retention m.topic) now := congrArg Message.expiresAt hmade.message
  have hdeliver : m.deliverAt = p.deliverAt := congrArg Message.deliverAt hmade.message
  have hpayload' : m'.payload = m.payload := (congrArg Message.payload hmade'.message).trans rfl
  have hheaders' : m'.headers = [] := congrArg Message.headers hmade'.message
  have hexpires' : m'.expiresAt = if 0 < f.retention m.topic then some
    (now' + f.retention m.topic) else none :=
    congrArg Message.expiresAt hmade'.message
  have hdeliver' : m'.deliverAt = none := congrArg Message.deliverAt hmade'.message
  constructor
  · intro hsame
    exact ⟨by rw [← hheaders, ← hsame.headers, hheaders'], by rw [← hdeliver, ← hsame.deliverAt, hdeliver'],
      by rw [← hsame.priority, hpriority], by rw [← hexpires, ← hsame.expiresAt, hexpires']⟩
  · rintro ⟨hh, hd, hp, he⟩
    exact ⟨hpayload', by rw [hheaders', hheaders, hh], by rw [hexpires', hexpires, he], by rw [hdeliver', hdeliver, hd],
      by rw [hpriority, hp]⟩

end Attributes

/-- A publish with everything `REPLICATE` has no field for. -/
def fancyPublish : PublishArgs :=
  { samplePublish with
    headers := [(ascii "k", ascii "v")], priority := ascii "high", expiresAt := some 50, deliverAt := some 20 }

theorem delivers_sample (payload : List UInt8) (htopic : 32 ∉ topic) :
    Delivers sampleKeys loneConfig 5 (newNode loneConfig 0)
      (sampleKeys.signed (replicateBody 1 (ascii "l:7000") topic payload)) topic payload := by
  refine .live ?_
  rw [handleLine_replicate (by decide) (by decide) htopic]
  simp only [Command.serve, Codec.decodeBase64_base64]
  exact rfl

/-- A message with headers, an expiry and a delay is in the queue for the high
priority; the one that its line makes a follower queue has none of them and
is in the queue for the normal priority. -/
theorem attributes_lost : ∃ r b' m r' f' m', Returns 0 (emptyBroker 10) (Op.publish fancyPublish).entry r b' ∧
    Sits b' m .high ∧ Delivers sampleKeys loneConfig 5 (newNode loneConfig 0)
      (sampleKeys.signed (replicateBody 1 (ascii "l:7000") m.topic m.payload)) m.topic m.payload ∧
    Returns 5 (emptyBroker 10) (Op.publish (replicatedArgs m.topic m.payload)).entry r' f' ∧ Sits f' m' .normal ∧
    ¬ SameMessage m .high m' .normal := by
  exact ⟨_, _, fancyPublish.message [97] 0 0, _, _, (replicatedArgs (ascii "t") []).message [97] 0 5,
    returns_get _ _ _, ⟨0, by decide +kernel, by decide +kernel⟩, delivers_sample [] (by decide), returns_get _ _ _,
    ⟨0, by decide +kernel, by decide +kernel⟩, fun h => by cases h.priority⟩

theorem attributes_survive_sample :
    ∃ r b' m r' f' m', Returns 0 (emptyBroker 10) (Op.publish samplePublish).entry r b' ∧
    Returns 5 (emptyBroker 10) (Op.publish (replicatedArgs m.topic m.payload)).entry r' f' ∧ Sits f' m' .normal ∧
    SameMessage m (.ofString samplePublish.priority) m' .normal := by
  let one := (emptyBroker 10).after 0 (.publish samplePublish)
  let two := (emptyBroker 10).after 5 (.publish (replicatedArgs (ascii "t") []))
  have h₁ := returns_get 0 (emptyBroker 10) (.publish samplePublish)
  have h₂ := returns_get 5 (emptyBroker 10) (.publish (replicatedArgs (ascii "t") []))
  have hsits : Sits two ((replicatedArgs (ascii "t") []).message [97] 0 5) .normal :=
    ⟨0, by decide +kernel, by decide +kernel⟩
  have hmade : (emptyBroker 10).Since one firstMessage.id :=
    ⟨0, by decide +kernel, by decide +kernel, by decide +kernel⟩
  have hmade' : (emptyBroker 10).Since two ((replicatedArgs (ascii "t") []).message [97] 0 5).id :=
    ⟨0, by decide +kernel, by decide +kernel, by decide +kernel⟩
  have hqueued : firstMessage ∈ one.zone [] (.queue 0) := by decide +kernel
  have hgrouped := (emptyBroker_bound 10 (by decide)).2
  have hfresh := emptyBroker_fresh 10 (by decide)
  refine ⟨_, _, firstMessage, _, _, _, h₁, h₂, hsits, ?_⟩
  refine (attributes_survive_iff (hgrouped _) hfresh h₁ hqueued hmade (by decide) (by decide)
    (delivers_sample [] (by decide))
    (hgrouped _) hfresh h₂ hsits hmade' rfl).mpr ?_
  decide +kernel

/-! ## The copies of one publish -/

/-- A publish of a follower, with the broker it starts on. -/
structure ReplicaStep where
  topic : GoString
  payload : List UInt8
  before : Broker

/-- A publish leaves one more copy for the name than there were: the name
admits it, and does not give up a copy for it. -/
def AddsCopy (s₀ b : Broker) (p : PublishArgs) (n : GoString) : Prop :=
  n ∈ b.admittedBy p ∧ ∀ e ∈ b.evicted n, ¬ s₀.Since b e.id

instance (s₀ b : Broker) (p : PublishArgs) (n : GoString) : Decidable (AddsCopy s₀ b p n) :=
  inferInstanceAs (Decidable (n ∈ b.admittedBy p ∧ ∀ e ∈ b.evicted n, ¬ s₀.Since b e.id))

/-- The publishes among the steps that do so. -/
def copiesAdded (s₀ : Broker) (n : GoString) (steps : List ReplicaStep) : Nat :=
  steps.countP fun s => AddsCopy s₀ s.before (replicatedArgs s.topic s.payload) n

/-- A follower handles lines, one after the other, that each make it call
`PublishReplicated`. -/
inductive Receives (k : Keys) (c : Config) : List GoString → Broker → List ReplicaStep → Broker → Prop
  | nil {b} : Receives k c [] b [] b
  | cons {now n line topic payload lines steps b b₁ b' r} : Delivers k c now n line topic payload →
      Returns now b (Op.publish (replicatedArgs topic payload)).entry r b₁ → Receives k c lines b₁ steps b' →
      Receives k c (line :: lines) b (⟨topic, payload, b⟩ :: steps) b'

section Count

variable {now : Time} {b b' : Broker} {p : PublishArgs} {r : Ret} {n : GoString}

theorem evicted_length (b : Broker) (n : GoString) : (b.evicted n).length ≤ 1 := by
  unfold evicted
  cases b.topic? n with
  | none => simp
  | some t =>
    simp only [Option.map_some, Option.getD_some, Topic.evicted]
    split
    · cases t.evictOldest <;> simp
    · simp

theorem publish_counts {copies} (hg : b.Grouped p.topicName) (htrail : s₀.Trail b copies)
    (h : Returns now b (Op.publish p).entry r b') :
    ∃ copies', s₀.Trail b' copies' ∧ ∀ n, (copiesOf n copies').length =
      (copiesOf n copies).length + if AddsCopy s₀ b p n then 1 else 0 := by
  obtain ⟨copies', htrail', hall⟩ := publish_copies hg htrail h
  refine ⟨copies', htrail', fun n => ?_⟩
  by_cases hn : n ∈ b.admittedBy p
  · obtain ⟨m, -, hm⟩ := (hall n).2 hn
    by_cases hev : ∀ e ∈ b.evicted n, ¬ s₀.Since b e.id
    · have hkept : (copiesOf n copies).filter (fun c => c ∉ b.evicted n) = copiesOf n copies :=
        filter_eq_self.mpr fun c hc => decide_eq_true fun he =>
          hev c he (htrail.since c (mem_filter.mp hc).1)
      rw [hm, if_pos ⟨hn, hev⟩, hkept, length_cons]
    · -- One copy came and one went.
      push Not at hev
      obtain ⟨e, he, hs⟩ := hev
      have hone : b.evicted n = [e] := by
        have hlen := evicted_length b n
        obtain ⟨e', he'⟩ := length_eq_one_iff.mp (Nat.le_antisymm hlen (length_pos_of_mem he))
        rw [he', mem_singleton] at he
        rw [he', he]
      have hgone : (copiesOf n copies).filter (fun c => c ∉ b.evicted n) = (copiesOf n copies).erase e := by
        rw [(htrail.nodup_copiesOf n).erase_eq_filter, hone]
        exact filter_congr fun c _ => Bool.eq_iff_iff.mpr (by simp)
      have hmem := htrail.mem_copiesOf he hs
      rw [hm, if_neg fun hc => hc.2 e he hs, hgone, length_cons, length_erase_of_mem hmem]
      have hpos := length_pos_of_mem hmem
      omega
  · rw [(hall n).1 hn, if_neg fun hc => hn hc.1, Nat.add_zero]

/-- **Every publish of the follower is counted**, for every name. -/
theorem receives_counts {copies}
    (h : Receives k c lines b steps b') (hg : ∀ T, b.Grouped T) (htrail : s₀.Trail b copies) :
    b'.bindings = b.bindings ∧ (∀ s ∈ steps, s.before.bindings = b.bindings) ∧ ∃ copies', s₀.Trail b' copies' ∧
        ∀ n, (copiesOf n copies').length = (copiesOf n copies).length + copiesAdded s₀ n steps := by
  induction h generalizing copies with
  | nil => exact ⟨rfl, by simp, copies, htrail, by simp [copiesAdded]⟩
  | @cons now node line topic payload lines steps b b₁ b' r _ hret _ ih =>
    obtain ⟨copies₁, htrail₁, hlen₁⟩ := publish_counts (hg topic) htrail hret
    have hbindings := (publish_adds (hg topic) hret).bindings
    obtain ⟨hb', hbefore, copies₂, htrail₂, hlen₂⟩ :=
      ih (fun T => by unfold Grouped; rw [hbindings]; exact hg T) htrail₁
    refine ⟨hb'.trans hbindings, fun s hs => ?_, copies₂, htrail₂, fun n => ?_⟩
    · rcases mem_cons.mp hs with rfl | hs
      · rfl
      · exact (hbefore s hs).trans hbindings
    · have hcons : copiesAdded s₀ n (⟨topic, payload, b⟩ :: steps) =
          copiesAdded s₀ n steps + if AddsCopy s₀ b (replicatedArgs topic payload) n then 1 else 0 := by
        simp [copiesAdded, countP_cons]
      rw [hlen₂, hlen₁, hcons]
      omega

theorem mem_tried {b : Broker} (hname : nameError T = none) :
    n ∈ b.tried T ↔ n = T ∨ Text.contains T (ascii "::") = false ∧ n ∈ b.bindings T := by
  unfold tried
  rw [hname]
  cases hgroup : Text.contains T (ascii "::") with
  | true => simp
  | false =>
    have hperm := b.env.order_perm b.ranges (b.bindings T)
    simp [hperm.mem_iff, or_comm]

theorem receives_steps {term : GoString → Int}
    (hterm : ∀ n, -2 ^ 63 ≤ term n ∧ term n < 2 ^ 63) (hleader : 32 ∉ leader) (hnames : ∀ n ∈ names, 32 ∉ n)
    (h : Receives k c (names.map fun n => k.signed (replicateBody (term n) leader n payload)) b steps b') :
    steps.map ReplicaStep.topic = names := by
  induction names generalizing b steps with
  | nil =>
    cases h
    rfl
  | cons n names ih =>
    cases h with
    | cons hline _ hrest =>
      obtain ⟨rfl, rfl⟩ := hline.eq (hterm n) hleader (hnames n mem_cons_self)
      rw [map_cons, ih (fun k hk => hnames k (mem_cons_of_mem _ hk)) hrest]

end Count

/-- The topic and its groups have got one copy each. -/
def OneCopyEach (f : Broker) (T : GoString) (f' : Broker) : Prop := ∀ n ∈ T :: f.bindings T, ∃ m, f.Gains f' n [m]

section Once

variable {k : Keys} {c : Config} {p : PublishArgs} {b f f' : Broker} {names : List GoString} {steps : List ReplicaStep}

theorem oneCopyEach_iff (hg : ∀ T, f.Grouped T) (hfresh : f.Fresh)
    (h : Receives k c lines f steps f') (T : GoString) :
    OneCopyEach f T f' ↔ ∀ n ∈ T :: f.bindings T, copiesAdded f n steps = 1 := by
  obtain ⟨-, -, copies, htrail, hlen⟩ := receives_counts h hg (.refl hfresh)
  have hcount : ∀ n, (∃ m, f.Gains f' n [m]) ↔ copiesAdded f n steps = 1 := by
    intro n
    rw [htrail.gains_one_iff, hlen n]
    simp [copiesOf]
  exact forall₂_congr fun n _ => hcount n

/-- With everything admitted, a group gets a copy from the command for it and
one from the command for the topic. -/
theorem group_counts_two (hnames : T ∈ steps.map ReplicaStep.topic ∧ d ∈ steps.map ReplicaStep.topic) (hne : d ≠ T)
    (hall : ∀ s ∈ steps, s.topic = T ∨ s.topic = d →
      AddsCopy f s.before (replicatedArgs s.topic s.payload) d) : 2 ≤ copiesAdded f d steps := by
  have hsub : [T, d].Subperm (steps.map ReplicaStep.topic) :=
    subperm_of_subset (by simpa using Ne.symm hne) (by simpa using hnames)
  have htwo := hsub.countP_le fun x => x = T ∨ x = d
  rw [countP_map] at htwo
  calc 2 = [T, d].countP (fun x => x = T ∨ x = d) := by simp
    _ ≤ steps.countP ((fun x => decide (x = T ∨ x = d)) ∘ ReplicaStep.topic) := htwo
    _ ≤ copiesAdded f d steps := countP_mono_left fun s hs hx =>
      decide_eq_true (hall s hs (of_decide_eq_true hx))

theorem group_counts_none {T d} (hname : nameError T = none) (hgroup : Text.contains T (ascii "::") = true)
    (hne : d ≠ T) (htopics : ∀ s ∈ steps, s.topic = T) : copiesAdded f d steps = 0 := by
  refine countP_eq_zero.mpr fun s hs hadds => hne ?_
  have htried : d ∈ s.before.tried s.topic := (admittedNames_sublist ..).subset
    (of_decide_eq_true hadds).1
  rw [htopics s hs, mem_tried hname, hgroup] at htried
  rcases htried with hd | ⟨hfalse, -⟩
  · exact hd
  · cases hfalse

/-- **Replication does not multiply messages** exactly when for the topic and
for each of its groups one publish of the follower counts. Where all of them
are admitted and nothing is evicted for them, these are the topics without
groups. -/
theorem replicated_once_iff {leader : GoString} {term : GoString → Int}
    (hterm : ∀ n, -2 ^ 63 ≤ term n ∧ term n < 2 ^ 63)
    (hleader : 32 ∉ leader) (hbind : ∀ d, d ∈ f.bindings p.topicName ↔ d ∈ b.bindings p.topicName)
      (hgl : b.Grouped p.topicName) (hg : ∀ T, f.Grouped T)
    (hfresh : f.Fresh) (hnames : names.Perm (b.replicatedNames p))
    (h : Receives k c (names.map fun n => k.signed (replicateBody (term n) leader n p.payload)) f steps f') :
    (OneCopyEach f p.topicName f' ↔ ∀ n ∈ p.topicName :: f.bindings p.topicName, copiesAdded f n steps = 1) ∧
    (b.replicatedNames p = b.tried p.topicName → nameError p.topicName = none → p.topicName ∉ f.bindings p.topicName →
      (∀ s ∈ steps, ∀ n ∈ s.before.tried s.topic, AddsCopy f s.before (replicatedArgs s.topic s.payload) n) →
        (OneCopyEach f p.topicName f' ↔ f.bindings p.topicName = [])) := by
  have hiff := oneCopyEach_iff hg hfresh h p.topicName
  refine ⟨hiff, fun hasked hname hself hall => ?_⟩
  rw [hiff]
  obtain ⟨-, hbefore, -⟩ := receives_counts h hg (.refl hfresh)
  rw [hasked] at hnames
  have hvalid : ∀ n ∈ b.tried p.topicName, nameError n = none := by
    intro n hn
    rw [← hasked, replicatedNames] at hn
    split at hn
    · cases hn
    · exact (mem_askedNames hn).2
  have htopics := receives_steps hterm hleader
    (fun n hn => not_blank_of_nameError (hvalid n (hnames.mem_iff.mp hn))) h
  have hmem : ∀ n, n ∈ steps.map ReplicaStep.topic ↔ n = p.topicName ∨
    Text.contains p.topicName (ascii "::") = false ∧ n ∈ f.bindings p.topicName := by
    intro n
    rw [htopics, hnames.mem_iff, mem_tried hname, hbind]
  constructor
  · intro hone
    by_contra hne
    obtain ⟨d, hd⟩ := exists_mem_of_ne_nil _ hne
    have hdT : d ≠ p.topicName := fun he => hself (he ▸ hd)
    have hcount := hone d (mem_cons_of_mem _ hd)
    cases hgroup : Text.contains p.topicName (ascii "::") with
    | true =>
      -- Only the topic itself is tried, and the group gets nothing.
      have hnone : copiesAdded f d steps = 0 := by
        refine group_counts_none hname hgroup hdT fun s hs => ?_
        rcases (hmem s.topic).mp (List.mem_map_of_mem hs) with hT | ⟨hfalse, -⟩
        · exact hT
        · cases hgroup.symm.trans hfalse
      omega
    | false =>
      have htwo : 2 ≤ copiesAdded f d steps := by
        refine group_counts_two ⟨(hmem _).mpr (.inl rfl), (hmem d).mpr (.inr ⟨hgroup, hd⟩)⟩ hdT
          fun s hs htopic => hall s hs d ?_
        rcases htopic with hT | hT
        · rw [hT, mem_tried hname, hbefore s hs]
          exact .inr ⟨hgroup, hd⟩
        · rw [hT, mem_tried (hvalid d ((mem_tried hname).mpr (.inr ⟨hgroup, (hbind d).mp hd⟩)))]
          exact .inl rfl
      omega
  · intro hnil n hn
    rw [hnil, mem_singleton] at hn
    subst hn
    -- There is one command, and it counts.
    have hone : steps.map ReplicaStep.topic = [p.topicName] := by
      refine perm_singleton.mp ((perm_ext_iff_of_nodup
        (htopics ▸ hnames.nodup_iff.mpr hgl.tried_nodup) (nodup_singleton _)).mpr fun n => ?_)
      rw [hmem, hnil]
      simp
    obtain ⟨s, rfl⟩ := length_eq_one_iff.mp (by simpa using congrArg List.length hone)
    have hT : s.topic = p.topicName := by simpa using hone
    have hadds := hall s (by simp) p.topicName (by rw [hT, mem_tried hname]; exact .inl rfl)
    simp [copiesAdded, hadds]

end Once

/-- The commands of a publish to a topic with a group, and what comes of them
on a follower with the same group: the group gets two copies. -/
theorem replicated_twice :
    ∃ steps f', (groupedBroker 5).onLeader.replicatedNames samplePublish = [ascii "t::g", ascii "t"] ∧
    Receives sampleKeys loneConfig
      ([ascii "t::g", ascii "t"].map fun n => sampleKeys.signed (replicateBody 1 (ascii "l:7000") n []))
      (groupedBroker 5) steps f' ∧ copiesAdded (groupedBroker 5) (ascii "t::g") steps = 2 ∧
      ¬ OneCopyEach (groupedBroker 5) (ascii "t") f' := by
  let one := (groupedBroker 5).after 5 (.publish (replicatedArgs (ascii "t::g") []))
  have hrec : Receives sampleKeys loneConfig
      ([ascii "t::g", ascii "t"].map fun n => sampleKeys.signed (replicateBody 1 (ascii "l:7000") n []))
      (groupedBroker 5) [⟨ascii "t::g", [], groupedBroker 5⟩, ⟨ascii "t", [], one⟩] _ :=
    .cons (delivers_sample [] (by decide)) (returns_get ..)
      (.cons (delivers_sample [] (by decide)) (returns_get ..) .nil)
  have hcount : copiesAdded (groupedBroker 5) (ascii "t::g")
      [⟨ascii "t::g", [], groupedBroker 5⟩, ⟨ascii "t", [], one⟩] = 2 := by decide +kernel
  refine ⟨_, _, by decide +kernel, hrec, hcount, fun hone => ?_⟩
  rw [oneCopyEach_iff (groupedBroker_grouped _ _) (groupedBroker_fresh _ _) hrec] at hone
  have := hone (ascii "t::g") (by decide +kernel)
  omega

theorem replicated_once_sample : ∃ steps f', Receives sampleKeys loneConfig
      ([ascii "t"].map fun n => sampleKeys.signed (replicateBody 1 (ascii "l:7000") n [])) (emptyBroker 10) steps f' ∧
    OneCopyEach (emptyBroker 10) (ascii "t") f' := by
  have hrec :
    Receives sampleKeys loneConfig ([ascii "t"].map fun n => sampleKeys.signed (replicateBody 1 (ascii "l:7000") n []))
      (emptyBroker 10) [⟨ascii "t", [], emptyBroker 10⟩] _ :=
    .cons (delivers_sample [] (by decide)) (returns_get _ _ _) .nil
  have hgrouped := (emptyBroker_bound 10 (by decide)).2
  have hnames : [ascii "t"].Perm ((emptyBroker 10).onLeader.replicatedNames samplePublish) := by
    rw [show (emptyBroker 10).onLeader.replicatedNames samplePublish = [ascii "t"] by decide +kernel]
  have hgl : (emptyBroker 10).onLeader.Grouped samplePublish.topicName := hgrouped (ascii "t")
  have hbind : ∀ d, d ∈ (emptyBroker 10).bindings samplePublish.topicName ↔
      d ∈ (emptyBroker 10).onLeader.bindings samplePublish.topicName := fun _ => Iff.rfl
  have hiff := (replicated_once_iff (fun _ => by decide) (by decide) hbind hgl hgrouped
    (emptyBroker_fresh 10 (by decide)) hnames hrec).2
    (by decide +kernel) (by decide +kernel) (by decide +kernel) (by decide +kernel)
  exact ⟨_, _, hrec, hiff.mpr rfl⟩

end Cluster

end TinyMQ
