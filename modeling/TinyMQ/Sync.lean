/-
State synchronization: `requestSync` on the bytes of a snapshot, cut off at
any point, and what it leaves in the queues of the follower.

The messages that arrive are published on top of what the follower has, each
for its topic and for the groups bound to it. `Roomy.publish` counts what one
of them adds where nobody waits and there is room; `sync_converges_iff` says
when the follower has what the leader has sent.
-/
import TinyMQ.Replicas

namespace TinyMQ

open List Option AList Message Broker

/-- A topic and a payload. -/
abbrev Item := GoString × List UInt8

namespace Broker

/-- The names a message to the topic is published for. -/
def targets (b : Broker) (topic : GoString) : List GoString :=
  if Text.contains topic (ascii "::") then [topic] else b.bindings topic ++ [topic]

/-- The copies that are published of some messages. -/
def copiesFor (b : Broker) (items : List Item) : List Item :=
  items.flatMap fun x => (b.targets x.1).map (·, x.2)

/-- How often a payload is queued in a topic. -/
def held (b : Broker) (x : Item) : Nat := ((b.queue x.1).map payload).count x.2

/-- Nobody waits, and copies find room: their names are valid, the queues
do not reach their limit, and the topics that are new can be created. -/
structure Roomy (b : Broker) (copies : List Item) : Prop where
  quiet : ∀ r, b.waiting r = []
  live : ∀ n t, b.topic? n = some t → t.deleted = false
  valid : ∀ n ∈ copies.map Prod.fst, nameError n = none
  space : ∀ n ∈ copies.map Prod.fst,
    (b.queue n).length + (copies.map Prod.fst).count n ≤ b.limits.maxMessages
  topics : (b.topics.keys.toFinset ∪ (copies.map Prod.fst).toFinset).card ≤ b.limits.maxTopics

variable {now : Time} {b b' : Broker} {p : PublishArgs} {r : Ret} {t : TopicRef} {m : Message} {n : GoString}
  {ns : List GoString} {x : Item} {items : List Item}

theorem mem_targets_self (b : Broker) (topic : GoString) : topic ∈ b.targets topic := by
  unfold targets
  split <;> simp

theorem tried_perm (h : nameError n = none) : (b.tried n).Perm (b.targets n) := by
  rw [tried, targets, h]
  split
  · contradiction
  · split
    · rfl
    · exact (b.env.order_perm _ _).append_right _

theorem fst_copiesFor_cons (b : Broker) (x : Item) (items : List Item) :
    (b.copiesFor (x :: items)).map Prod.fst = b.targets x.1 ++ (b.copiesFor items).map Prod.fst := by
  simp [copiesFor, Function.comp_def]

theorem isOpen_of_lt (h : (b.queue n).length < b.limits.maxMessages)
    (hlive : ∀ t, b.topic? n = some t → t.deleted = false) : b.isOpen n = true ∧ b.evicted n = [] := by
  rw [queue_eq] at h
  cases ht : b.topic? n with
  | none => simp [isOpen, evicted, ht]
  | some t =>
    have hlen : t.queued.length < b.limits.maxMessages := by simpa [ht] using h
    simp [isOpen, evicted, ht, Topic.isOpen, Topic.evicted, hlive t ht, hlen]

theorem admittedNames_eq (hp : p.isReplication = true) (hopen : ∀ n ∈ ns, nameError n = none ∧ b.isOpen n = true)
    (hroom : b.topics.entries.length + created + (ns.filter fun n => (b.topics.lookup n).isNone).length ≤
      b.limits.maxTopics) : b.admittedNames p created asked ns = ns := by
  induction ns generalizing created asked with
  | nil => rfl
  | cons n ns ih =>
    obtain ⟨hname, hn⟩ := hopen n mem_cons_self
    have hrest := fun m hm => hopen m (mem_cons_of_mem _ hm)
    cases hl : b.topics.lookup n with
    | some r =>
      rw [filter_cons_of_neg (by simp [hl])] at hroom
      simp [admittedNames, gets, agrees, hp, hname, hn, hl, ih hrest hroom]
    | none =>
      rw [filter_cons_of_pos (by simp [hl]), length_cons] at hroom
      have hlt : b.topics.entries.length + created < b.limits.maxTopics := by omega
      have hnext : b.admittedNames p (created + 1) (asked + b.asks p) ns = ns := ih hrest (by omega)
      simp [admittedNames, gets, agrees, hp, hname, hn, hl, hlt, hnext]

/-- Every name admits its copy, and gives up nothing for it. -/
theorem Roomy.admitted (h : b.Roomy (b.copiesFor (x :: items))) (hg : b.Grouped x.1) :
    b.admittedBy (replicatedArgs x.1 x.2) = b.tried x.1 ∧ (b.tried x.1).Perm (b.targets x.1) ∧
      ∀ n ∈ b.tried x.1, b.evicted n = [] := by
  have hmem : ∀ n ∈ b.targets x.1, n ∈ (b.copiesFor (x :: items)).map Prod.fst := by
    intro n hn
    rw [fst_copiesFor_cons]
    exact mem_append_left _ hn
  have hperm := b.tried_perm (h.valid _ (hmem _ (b.mem_targets_self _)))
  have hopen : ∀ n ∈ b.tried x.1, b.isOpen n = true ∧ b.evicted n = [] := by
    intro n hn
    have hspace := h.space n (hmem n (hperm.mem_iff.mp hn))
    have hpos := count_pos_iff.mpr (hmem n (hperm.mem_iff.mp hn))
    exact isOpen_of_lt (by omega) (h.live n)
  refine ⟨admittedNames_eq rfl (fun n hn => ⟨h.valid n (hmem n (hperm.mem_iff.mp hn)), (hopen n hn).1⟩) ?_, hperm,
    fun n hn => (hopen n hn).2⟩
  -- The names in use and the new ones are different, and all are counted.
  have hnodup : (b.topics.keys ++ (b.tried x.1).filter fun n => (b.topics.lookup n).isNone).Nodup := by
    refine (b.topics.keys_nodup).append (hg.tried_nodup (p := replicatedArgs x.1 x.2) |>.filter _) fun n hn hn' => ?_
    have hnone : b.topics.lookup n = none := by simpa using (mem_filter.mp hn').2
    exact lookup_eq_none.mp hnone hn
  have hcard := toFinset_card_of_nodup hnodup
  have hsub : (b.topics.keys ++ (b.tried x.1).filter fun n => (b.topics.lookup n).isNone).toFinset ⊆
      b.topics.keys.toFinset ∪ ((b.copiesFor (x :: items)).map Prod.fst).toFinset := by
    intro n
    simp only [List.mem_toFinset, Finset.mem_union, mem_append, mem_filter]
    exact Or.imp_right fun hn => hmem n (hperm.mem_iff.mp hn.1)
  have hle := (Finset.card_le_card hsub).trans h.topics
  rw [hcard, length_append, AList.keys, List.keys, length_map] at hle
  exact hle

theorem topic?_addTopic (b : Broker) (t : Topic) (k : GoString) :
    (b.addTopic t).topic? k = if k = t.name then some t else b.topic? k := by
  have hheap : (b.addTopic t).heap = b.heap ++ [t] := rfl
  rw [topic?, lookup_addTopic, topic?, hheap]
  split
  · simp
  · cases hl : b.topics.lookup k with
    | none => rfl
    | some r =>
      obtain ⟨t', ht', -⟩ := b.topics_ok hl
      exact getElem?_append_left (List.getElem?_eq_some_iff.mp ht').1

theorem live_of_frame (h : ∀ k t, b.topic? k = some t → t.deleted = false)
    (hf : (b.getOrCreateTopic n).2.Frame b') (k : GoString) (t : Topic) (ht : b'.topic? k = some t) :
    t.deleted = false := by
  have hfixed : (b'.topic? k).map Topic.fixed = ((b.getOrCreateTopic n).2.topic? k).map Topic.fixed := by
    rw [topic?, topic?, hf.topics]
    cases (b.getOrCreateTopic n).2.topics.lookup k with
    | none => rfl
    | some r => simpa using congrArg (·[r]?) hf.fixed
  rw [ht, map_some, eq_comm, map_eq_some_iff] at hfixed
  obtain ⟨t₀, ht₀, hsame⟩ := hfixed
  have hdeleted : t₀.deleted = t.deleted := congrArg (·.2.1) hsame
  rw [← hdeleted]
  unfold getOrCreateTopic at ht₀
  split at ht₀
  · exact h k t₀ ht₀
  · split at ht₀
    · exact h k t₀ ht₀
    · rw [topic?_addTopic] at ht₀
      split at ht₀
      · cases ht₀
        rfl
      · exact h k t₀ ht₀

/-- Where nobody waits, a message that is admitted stays in its queue. -/
theorem Admitted.queue_perm (h : b.Admitted now b' p t m) (hw : ∀ r, b.waiting r = [])
    (hev : b.evicted p.topicName = []) (k : GoString) :
    (b'.queue k).Perm (b.queue k ++ if k = p.topicName then [m] else []) := by
  split
  next hk =>
    subst hk
    have hget : b.getOrCreateTopic p.topicName = (some t, (b.getOrCreateTopic p.topicName).2) := by rw [← h.topic]
    have hlookup := getOrCreateTopic_lookup hget
    have hold : b.queue p.topicName = b.queued t := by
      rw [← b.queue_getOrCreateTopic p.topicName, queue, hlookup, map_some, getD_some,
        (b.quiet_getOrCreateTopic p.topicName []).queued t]
    have hnew : b'.queue p.topicName = b'.queued t := by rw [queue, h.frame.topics, hlookup, map_some, getD_some]
    obtain ⟨left, hleft, ⟨hq, -⟩ | ⟨ch, r, -, hch, -⟩⟩ := h.place
    · rw [hev, nil_append] at hleft
      rw [hold, hnew]
      exact hq.trans ((hleft.symm.cons m).trans (perm_append_singleton m _).symm)
    · simp [hw r] at hch
  next hk => rw [append_nil, queue_of_shape (h.others k hk)]

theorem count_map_pair (ns : List GoString) (p : List UInt8) (y : Item) :
    (ns.map (·, p)).count y = (replicate (ns.count y.1) p).count y.2 := by
  obtain ⟨n, q⟩ := y
  induction ns with
  | nil => rfl
  | cons k ns ih =>
    rw [map_cons, count_cons, ih, count_cons]
    by_cases hk : k = n <;> by_cases hq : p = q <;> simp [hk, hq, count_replicate]

/-- **A message is published where there is room**: every target has one more
copy of it, and there is room for the others. -/
theorem Roomy.publish (h : b.Roomy (b.copiesFor (x :: items))) (hg : b.Grouped x.1)
    (hret : Returns now b (Op.publish (replicatedArgs x.1 x.2)).entry r b') :
    b'.Roomy (b.copiesFor items) ∧ b'.bindings = b.bindings ∧
      ∀ y, b'.held y = b.held y + ((b.targets x.1).map (·, x.2)).count y := by
  obtain ⟨hadmitted, hperm, hev⟩ := h.admitted hg
  have hadds := publish_adds hg hret
  obtain ⟨hquiet, hlive, hlimits, hqueue⟩ := publish_fold (I := fun c acc => (∀ r, c.waiting r = []) ∧
      (∀ n t, c.topic? n = some t → t.deleted = false) ∧ c.limits = b.limits ∧
      ∀ k, ((c.queue k).map payload).Perm ((b.queue k).map payload ++ replicate (acc.count k) x.2))
    hg hret ⟨h.quiet, h.live, rfl, fun k => by simp⟩ (fun _ => ⟨h.quiet, h.live, rfl, fun k => by simp [queue]; rfl⟩)
    (by
      rintro n - - c c' acc ⟨hw, hl, hm, hq⟩ href
      refine ⟨fun r => (href.waiting r).trans (hw r), live_of_frame hl href.frame, ?_, fun k => ?_⟩
      · rw [href.frame.limits, (c.quiet_getOrCreateTopic n []).limits, hm]
      · rw [href.queue]
        exact hq k)
    (by
      rintro n hn - c c' acc t m - - hsame ⟨hw, hl, hm, hq⟩ had
      refine ⟨fun r => subset_nil.mp (hw r ▸ had.waiting rfl r), live_of_frame hl had.frame, ?_, fun k => ?_⟩
      · rw [had.frame.limits, (c.quiet_getOrCreateTopic n []).limits, hm]
      · refine ((had.queue_perm hw (hsame.trans (hev n hn)) k).map payload).trans ?_
        have hpayload : m.payload = x.2 := by rw [had.message]; rfl
        rw [map_append, count_append]
        by_cases hk : k = n
        · subst hk
          simp only [if_true, map_singleton, hpayload, count_singleton_self, replicate_succ', ← append_assoc]
          exact (hq k).append_right _
        · simpa [hk, Ne.symm hk] using hq k)
  rw [hadmitted] at hqueue
  refine ⟨⟨hquiet, hlive, fun n hn => h.valid n ?_, fun n hn => ?_, ?_⟩, hadds.bindings, fun y => ?_⟩
  · rw [fst_copiesFor_cons]
    exact mem_append_right _ hn
  · have hspace := h.space n (by rw [fst_copiesFor_cons]; exact mem_append_right _ hn)
    have hlen := (hqueue n).length_eq
    rw [length_append, length_map, length_map, length_replicate, hperm.count_eq] at hlen
    rw [fst_copiesFor_cons, count_append] at hspace
    rw [hlimits]
    omega
  · rw [hlimits]
    refine (Finset.card_le_card fun n hn => ?_).trans h.topics
    simp only [fst_copiesFor_cons, toFinset_append, Finset.mem_union, List.mem_toFinset] at hn ⊢
    by_cases hnew : n ∈ b.tried x.1
    · exact .inr (.inl (hperm.mem_iff.mp hnew))
    · rw [← AList.mem_keys, ← lookup_isSome, ← hadds.others n hnew, lookup_isSome, AList.mem_keys]
      exact hn.imp_right .inr
  · have hcount := (hqueue y.1).count_eq y.2
    rw [count_append, hperm.count_eq, ← count_map_pair] at hcount
    exact hcount

end Broker

namespace Cluster

/-! ## The run of a synchronization -/

def items (msgs : List Message) : List Item := msgs.map fun m => (m.topic, m.payload)

/-- The messages of a snapshot whose lines have arrived. -/
def received (msgs : List Message) (stream : GoString) : List Item :=
  (items msgs).take (Text.completeLines 10 stream).length

/-- There is room on the follower for what it receives, and this is what it
does not have of the snapshot. -/
def Settled (msgs : List Message) (cut : Option GoString) (s : Server) : Prop :=
  s.node.isSynced = true → ∀ stream, cut = some stream → s.broker.Roomy (s.broker.copiesFor (received msgs stream)) ∧
    ∀ x, s.broker.held x + (s.broker.copiesFor (received msgs stream)).count x = (items msgs).count x

section Run

variable {k : Keys} {b b' : Broker}

end Run

end Cluster

end TinyMQ
