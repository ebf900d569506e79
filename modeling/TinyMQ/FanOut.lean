/-
A publish to a topic with bound groups.

`publishCore` calls itself for each bound topic before it handles its own,
and drops what these calls return. `Fans.fold` follows the calls one by one:
which names are admitted can be read off the broker the publish starts on
(`admittedNames`). From it `publish_copies`: each of them gets one message,
the others none. `fan_out_iff` is what comes of it for the publish as a whole.
-/
import TinyMQ.Publishing
import TinyMQ.Restart

namespace TinyMQ

open List Option Broker Topic Message

/-! ## Queues by name -/

namespace Broker

variable {b b' : Broker} {n : GoString}

theorem queue_eq (b : Broker) (n : GoString) : b.queue n = ((b.topic? n).map Topic.queued).getD [] := by
  unfold queue topic?
  cases b.topics.lookup n <;> rfl

theorem queue_of_shape (h : (b'.topic? n).map shape = (b.topic? n).map shape) : b'.queue n = b.queue n := by
  rw [queue_eq, queue_eq]
  cases ht : b.topic? n with
  | none =>
    rw [ht, map_none, map_eq_none_iff] at h
    rw [h]
  | some t =>
    rw [ht, map_some, map_eq_some_iff] at h
    obtain ⟨t', ht', hshape⟩ := h
    rw [ht', map_some, map_some, queued_of_shape hshape]

theorem queue_getOrCreateTopic (b : Broker) (name n : GoString) :
    (b.getOrCreateTopic name).2.queue n = b.queue n := by
  unfold getOrCreateTopic
  split
  · rfl
  next hl =>
    split
    · rfl
    · rw [queue_addTopic]
      split
      next he =>
        have hn : b.topics.lookup n = none := by rw [he]; exact hl
        simp [queue, hn, Topic.queued, Topic.create]
      · rfl

theorem Refused.queue (h : b.Refused b' p) (n : GoString) : b'.queue n = b.queue n := by
  rw [← b.queue_getOrCreateTopic p.topicName n, Broker.queue, Broker.queue, h.frame.topics]
  refine congrArg (Option.getD · []) (congrArg (Option.map · _) (funext fun r => ?_))
  rw [h.queued r, (b.quiet_getOrCreateTopic p.topicName []).queued r]

end Broker

/-! ## Messages made since a state -/

namespace Broker

/-- No message carries an ID that is still to come. -/
def Fresh (b : Broker) : Prop := ∀ z, ∀ m ∈ b.zone [] z, ∀ k, b.uuids ≤ k → b.env.newUUID k ≠ m.id

/-- The ID was made between two states. -/
def Since (b₀ b : Broker) (id : GoString) : Prop := ∃ k, b₀.uuids ≤ k ∧ k < b.uuids ∧ b₀.env.newUUID k = id

instance (b₀ b : Broker) (id : GoString) : Decidable (b₀.Since b id) :=
  decidable_of_iff (∃ k, k < b.uuids ∧ b₀.uuids ≤ k ∧ b₀.env.newUUID k = id)
    ⟨fun ⟨k, hlt, hle, h⟩ => ⟨k, hle, hlt, h⟩, fun ⟨k, hle, hlt, h⟩ => ⟨k, hlt, hle, h⟩⟩

/-- The messages made since `b₀` are `copies`, each at one place, the queue
of its topic or a channel. -/
structure Trail (b₀ b : Broker) (copies : List Message) : Prop where
  env : b.env = b₀.env
  uuids : b₀.uuids ≤ b.uuids
  fresh : b.Fresh
  all : ∀ z, ∀ m ∈ b.zone [] z, b₀.Since b m.id → m ∈ copies
  since : ∀ m ∈ copies, b₀.Since b m.id
  nodup : (copies.map Message.id).Nodup
  once : ∀ m ∈ copies, ∃ z, m ∈ b.zone [] z ∧ b.count [] m.id z = 1 ∧ (∀ z', z' ≠ z → b.count [] m.id z' = 0) ∧
    ∀ r, z = .queue r → b.topics.lookup m.topic = some r

variable {now : Time} {b₀ b b' : Broker} {copies : List Message} {p : PublishArgs} {t : TopicRef} {m : Message}

theorem Trail.refl (h : b.Fresh) : b.Trail b [] where
  env := rfl
  uuids := Nat.le_refl _
  fresh := h
  all _ _ _ hs := by
    obtain ⟨k, hle, hlt, -⟩ := hs
    omega
  since m hm := by cases hm
  nodup := nodup_nil
  once m hm := by cases hm

theorem Fresh.head (h : b.Fresh) : ∀ r, ∀ m ∈ b.queued r, m.id ≠ b.env.newUUID b.uuids :=
  fun r m hm he => h (.queue r) m hm b.uuids (Nat.le_refl _) he.symm

theorem Trail.of_zones (h : b₀.Trail b copies) (henv : b'.env = b.env) (huuids : b.uuids ≤ b'.uuids)
    (hz : ∀ z, b'.zone [] z = b.zone [] z) (ht : ∀ {n r}, b.topics.lookup n = some r → b'.topics.lookup n = some r) :
    b₀.Trail b' copies where
  env := henv.trans h.env
  uuids := h.uuids.trans huuids
  fresh z m hm k hk := by
    rw [hz] at hm
    rw [henv]
    exact h.fresh z m hm k (huuids.trans hk)
  all z m hm hs := by
    rw [hz] at hm
    obtain ⟨k, hle, -, hid⟩ := hs
    refine h.all z m hm ⟨k, hle, ?_, hid⟩
    -- An ID from `b.uuids` on would be carried by no message.
    by_contra hlt
    exact h.fresh z m hm k (Nat.le_of_not_lt hlt) (by rw [h.env]; exact hid)
  since m hm := by
    obtain ⟨k, hle, hlt, hid⟩ := h.since m hm
    exact ⟨k, hle, Nat.lt_of_lt_of_le hlt huuids, hid⟩
  nodup := h.nodup
  once m hm := by
    obtain ⟨z, hmem, hone, hzero, hr⟩ := h.once m hm
    refine ⟨z, by rw [hz]; exact hmem, by rw [count, hz]; exact hone, fun z' hz' => ?_, fun r he => ht (hr r he)⟩
    rw [count, hz]
    exact hzero z' hz'

theorem Refused.trail (h : b₀.Trail b copies) (href : b.Refused b' p) : b₀.Trail b' copies := by
  have hquiet := b.quiet_getOrCreateTopic p.topicName []
  refine h.of_zones (href.frame.env.trans hquiet.env) href.uuids (fun z => ?_) fun hn => by
    rw [href.frame.topics]
    exact hquiet.topics hn
  cases z with
  | queue r => exact href.queued r
  | chan ch => exact congrArg (fun f : Chan → Channel => (f ch).buf) href.chans
  | hand => rfl

theorem Admitted.env (h : b.Admitted now b' p t m) : b'.env = b.env :=
  h.frame.env.trans (b.quiet_getOrCreateTopic p.topicName []).env

theorem Admitted.id (h : b.Admitted now b' p t m) : m.id = b.env.newUUID b.uuids := by
  rw [h.message]
  rfl

theorem Admitted.lookup (h : b.Admitted now b' p t m) : b'.topics.lookup m.topic = some t := by
  rw [h.frame.topics, h.message]
  have hget : b.getOrCreateTopic p.topicName = (some t, (b.getOrCreateTopic p.topicName).2) := by
    rw [← h.topic]
  exact getOrCreateTopic_lookup hget

/-- The place of a message that was admitted, and what was at the places
before. -/
theorem Admitted.places (h : b.Admitted now b' p t m) (hfresh : b.Fresh) :
    ∃ z₀, (∀ r, z₀ = .queue r → r = t) ∧ m ∈ b'.zone [] z₀ ∧ ∀ z, (b.zone [] z ++ if z = z₀ then [m] else []).Perm
      ((if z = .queue t then b.evicted p.topicName else []) ++ b'.zone [] z) := by
  obtain ⟨left, hleft, hplace⟩ := h.place
  rcases hplace with ⟨hq, hc⟩ | ⟨ch, r, m', -, hid, hq, hbuf, hother⟩
  · refine ⟨.queue t, fun r he => (Zone.queue.inj he).symm, hq.mem_iff.mpr mem_cons_self, fun z => ?_⟩
    by_cases hz : z = .queue t
    · subst hz
      rw [if_pos rfl, if_pos rfl]
      refine (hleft.append_right [m]).trans ?_
      rw [append_assoc]
      exact ((perm_append_singleton m left).trans hq.symm).append_left _
    · rw [if_neg hz, if_neg hz, append_nil, nil_append]
      cases z with
      | queue r' => rw [zone, zone, h.queued r' fun he => hz (he ▸ rfl)]
      | chan c => rw [zone, zone, hc]
      | hand => exact .refl _
  · -- The ID is new, so the message that left the queue is the one that was sent.
    have hsame : m' = m := by
      rcases mem_cons.mp (hq.mem_iff.mpr mem_cons_self) with he | he
      · exact he
      · have hold : m' ∈ b.queued t := hleft.mem_iff.mpr (mem_append_right _ he)
        exact absurd (hid.trans h.id) (hfresh.head t m' hold)
    rw [hsame] at hq
    have hq : (b'.queued t).Perm left := hq.cons_inv.symm
    refine ⟨.chan ch, nofun, by simp [zone, hbuf], fun z => ?_⟩
    cases z with
    | queue r' =>
      rw [if_neg (by simp), append_nil]
      by_cases hr : r' = t
      · subst hr
        rw [if_pos rfl]
        exact hleft.trans (hq.symm.append_left _)
      · rw [if_neg (by simpa using hr), nil_append, zone, zone, h.queued r' hr]
    | chan c =>
      rw [if_neg (show Zone.chan c ≠ .queue t by simp), nil_append]
      by_cases hc : c = ch
      · subst hc
        rw [if_pos rfl, zone, zone, hbuf]
      · rw [if_neg (by simpa using hc), append_nil, zone, zone, hother c hc]
    | hand => simp [zone]

theorem Admitted.evicted_queued (h : b.Admitted now b' p t m) (he : e ∈ b.evicted p.topicName) : e ∈ b.queued t := by
  obtain ⟨left, hleft, -⟩ := h.place
  exact hleft.mem_iff.mpr (mem_append_left _ he)

theorem Admitted.count (h : b.Admitted now b' p t m) (hfresh : b.Fresh) :
    ∃ z₀, (∀ r, z₀ = .queue r → r = t) ∧ m ∈ b'.zone [] z₀ ∧ (∀ z, ∀ c ∈ b'.zone [] z, c = m ∨ c ∈ b.zone [] z) ∧
    ∀ z id, b.count [] id z + (if z = z₀ ∧ m.id = id then 1 else 0) =
      (if z = .queue t then ((b.evicted p.topicName).map Message.id).count id else 0) + b'.count [] id z := by
  obtain ⟨z₀, hz₀, hm, hplaces⟩ := h.places hfresh
  refine ⟨z₀, hz₀, hm, fun z c hc => ?_, fun z id => ?_⟩
  · have hmem := (hplaces z).mem_iff.mpr (mem_append_right _ hc)
    rcases mem_append.mp hmem with hmem | hmem
    · exact .inr hmem
    · split at hmem
      · exact .inl (mem_singleton.mp hmem)
      · cases hmem
  · have hperm := ((hplaces z).map Message.id).count_eq id
    rw [map_append, map_append, count_append, count_append] at hperm
    have hone : ((if z = z₀ then [m] else []).map Message.id).count id = if z = z₀ ∧
      m.id = id then 1 else 0 := by
      by_cases hz : z = z₀ <;> simp [hz, count_singleton]
    have hgone : ((if z = .queue t then b.evicted p.topicName else []).map Message.id).count id =
        if z = .queue t then ((b.evicted p.topicName).map Message.id).count id else 0 := by
      split <;> simp
    rw [hone, hgone] at hperm
    exact hperm

/-- **A message that was admitted joins the trail**, and those evicted for it
leave it. -/
theorem Admitted.trail (h : b₀.Trail b copies) (had : b.Admitted now b' p t m) :
    b₀.Trail b' (m :: copies.filter fun c => c ∉ b.evicted p.topicName) := by
  obtain ⟨z₀, hz₀, hmem₀, hmem, hcount⟩ := had.count h.fresh
  have hid := had.id
  have henv := had.env
  -- No message of before carries the ID.
  have hnew : ∀ z, ∀ c ∈ b.zone [] z, c.id ≠ m.id := fun z c hc he =>
    h.fresh z c hc b.uuids (Nat.le_refl _) (by rw [← hid, he])
  have hnone : ∀ z, b.count [] m.id z = 0 := fun z => count_eq_zero.mpr (hnew z)
  have hkept : ((b.evicted p.topicName).map Message.id).count m.id = 0 := by
    rw [List.count_eq_zero]
    intro he
    obtain ⟨e, he, heq⟩ := List.mem_map.mp he
    exact hnew (.queue t) e (had.evicted_queued he) heq
  -- Of a copy that is evicted nothing is left.
  have honly : ∀ c ∈ copies, ∀ e ∈ b.evicted p.topicName, e.id = c.id → e = c := by
    intro c hc e he heq
    have hmem : e ∈ copies := h.all (.queue t) e (had.evicted_queued he) (heq ▸ h.since c hc)
    exact inj_on_of_nodup_map h.nodup hmem hc heq
  exact {
    env := henv.trans h.env
    uuids := by rw [had.uuids]; exact Nat.le_succ_of_le h.uuids
    fresh := by
      intro z c hc k hk
      rw [had.uuids] at hk
      rw [henv]
      rcases hmem z c hc with rfl | hc
      · rw [hid]
        exact fun he => absurd (b.env.newUUID_inj he) (by omega)
      · exact h.fresh z c hc k (by omega)
    all := by
      intro z c hc hs
      rcases hmem z c hc with rfl | hold
      · exact mem_cons_self
      · obtain ⟨k, hle, hlt, hk⟩ := hs
        have hlt' : k < b.uuids := by
          by_contra hlt'
          exact h.fresh z c hold k (Nat.le_of_not_lt hlt') (by rw [h.env]; exact hk)
        have hcopy := h.all z c hold ⟨k, hle, hlt', hk⟩
        refine mem_cons_of_mem _ (mem_filter.mpr ⟨hcopy, decide_eq_true fun hev => ?_⟩)
        -- It was queued once, and is gone.
        obtain ⟨z₁, -, hone, hzero, -⟩ := h.once c hcopy
        have hq : b.count [] c.id (.queue t) ≠ 0 := fun h0 =>
          count_eq_zero.mp h0 c (had.evicted_queued hev) rfl
        have hz₁ : Zone.queue t = z₁ := by_contra fun hne => hq (hzero _ hne)
        have hev' : ((b.evicted p.topicName).map Message.id).count c.id ≠ 0 := by
          rw [Ne, List.count_eq_zero, not_not]
          exact List.mem_map_of_mem hev
        have hcnt := hcount z c.id
        rw [if_neg fun hc' => hnew z c hold hc'.2.symm] at hcnt
        have hz : z = .queue t := by
          by_contra hne
          exact count_eq_zero.mp (hzero z (hz₁ ▸ hne)) c hold rfl
        rw [if_pos hz, hz, hz₁, hone] at hcnt
        have hleft : b'.count [] c.id z ≠ 0 := fun h0 => count_eq_zero.mp h0 c hc rfl
        rw [hz, hz₁] at hleft
        omega
    since := by
      intro c hc
      rcases mem_cons.mp hc with rfl | hc
      · exact ⟨b.uuids, h.uuids, by rw [had.uuids]; omega, by rw [← h.env, hid]⟩
      · obtain ⟨k, hle, hlt, hk⟩ := h.since c (mem_filter.mp hc).1
        exact ⟨k, hle, by rw [had.uuids]; omega, hk⟩
    nodup := by
      rw [map_cons, nodup_cons]
      refine ⟨fun hm => ?_, h.nodup.sublist (filter_sublist.map _)⟩
      obtain ⟨c, hc, heq⟩ := List.mem_map.mp hm
      obtain ⟨z, hz, -⟩ := h.once c (mem_filter.mp hc).1
      exact hnew z c hz heq
    once := by
      intro c hc
      rcases mem_cons.mp hc with rfl | hc
      · refine ⟨z₀, hmem₀, ?_, fun z hz => ?_, fun r hr => ?_⟩
        · have hcnt := hcount z₀ c.id
          rw [hnone, if_pos ⟨rfl, rfl⟩, hkept, ite_self] at hcnt
          omega
        · have hcnt := hcount z c.id
          rw [hnone, if_neg fun hc => hz hc.1, hkept, ite_self] at hcnt
          omega
        · rw [hz₀ r hr]
          exact had.lookup
      · obtain ⟨hcopy, hev⟩ := mem_filter.mp hc
        have hev : c ∉ b.evicted p.topicName := of_decide_eq_true hev
        obtain ⟨z₁, hz₁, hone, hzero, hr⟩ := h.once c hcopy
        have hgone : ((b.evicted p.topicName).map Message.id).count c.id = 0 := by
          rw [List.count_eq_zero]
          intro he
          obtain ⟨e, he, heq⟩ := List.mem_map.mp he
          exact hev (honly c hcopy e he heq ▸ he)
        have hsame : ∀ z, b'.count [] c.id z = b.count [] c.id z := by
          intro z
          have hcnt := hcount z c.id
          rw [if_neg fun hc' => hnew z₁ c hz₁ hc'.2.symm, hgone, ite_self] at hcnt
          omega
        refine ⟨z₁, ?_, (hsame z₁).trans hone, fun z hz => (hsame z).trans (hzero z hz), fun r he => ?_⟩
        · -- Some message of the ID is there, and it can only be this one.
          have hpos : b'.count [] c.id z₁ ≠ 0 := by rw [hsame, hone]; simp
          by_contra hnot
          refine hpos (count_eq_zero.mpr fun c' hc' heq => ?_)
          rcases hmem z₁ c' hc' with rfl | hold
          · exact hnew z₁ c hz₁ heq.symm
          · have hcopy' := h.all z₁ c' hold (heq ▸ h.since c hcopy)
            exact hnot (inj_on_of_nodup_map h.nodup hcopy' hcopy heq ▸ hc')
        · rw [had.frame.topics]
          exact (b.quiet_getOrCreateTopic p.topicName []).topics (hr r he) }

/-! ## Which names are admitted -/

/-- `getOrCreateTopic` gives a topic after `created` others were created. -/
def gets (b : Broker) (created : Nat) (name : GoString) : Bool :=
  (b.topics.lookup name).isSome || decide (b.topics.entries.length + created < b.limits.maxTopics)

/-- The hook agrees to a publish after it was asked `asked` times. -/
def agrees (b : Broker) (p : PublishArgs) (asked : Nat) : Bool :=
  decide (p.isReplication ∨ b.hooked = false) || (b.env.onPublish (b.answers + asked)).isNone

/-- Of the names a publish is tried for, one after the other, those that
admit it: the name is valid, its topic exists or can still be created, the
hook agrees and the topic is open. -/
def admittedNames (b : Broker) (p : PublishArgs) : Nat → Nat → List GoString → List GoString
  | _, _, [] => []
  | created, asked, n :: ns =>
    if (nameError n).isNone && b.gets created n then
      let rest := b.admittedNames p (if (b.topics.lookup n).isSome then created else created + 1) (asked + b.asks p) ns
      if b.agrees p asked && b.isOpen n then n :: rest else rest
    else b.admittedNames p created asked ns

/-- What a publish finds on `b` in terms of `b₀`, from which some names were
tried. -/
structure After (b₀ b : Broker) (done : List GoString) (created asked : Nat) : Prop where
  env : b.env = b₀.env
  limits : b.limits = b₀.limits
  hooked : b.hooked = b₀.hooked
  topics : b.topics.entries.length = b₀.topics.entries.length + created
  answers : b.answers = b₀.answers + asked
  lookup : ∀ n, n ∉ done → b.topics.lookup n = b₀.topics.lookup n
  topic : ∀ n, n ∉ done → (b.topic? n).map shape = (b₀.topic? n).map shape

variable {done : List GoString} {created asked : Nat}

theorem After.start (b : Broker) (ranges) : b.After { b with ranges } [] 0 0 :=
  ⟨rfl, rfl, rfl, rfl, rfl, fun _ _ => rfl, fun _ _ => rfl⟩

theorem getOrCreateTopic_entries (b : Broker) (name : GoString) : (b.getOrCreateTopic name).2.topics.entries.length =
      b.topics.entries.length + if b.canGet name && (b.topics.lookup name).isNone then 1 else 0 := by
  unfold getOrCreateTopic canGet
  cases hl : b.topics.lookup name with
  | some r => simp
  | none =>
    by_cases h : b.limits.maxTopics ≤ b.topics.entries.length
    · simp [h]
    · have hmem : name ∉ b.topics.entries.keys := AList.lookup_eq_none.mp hl
      simp [h, Nat.lt_of_not_le h, addTopic, create, kerase_of_notMem_keys hmem]

theorem isOpen_of_shape (hlimits : b'.limits = b.limits)
    (h : (b'.topic? n).map Topic.shape = (b.topic? n).map Topic.shape) :
    b'.isOpen n = b.isOpen n ∧ b'.evicted n = b.evicted n := by
  unfold isOpen evicted
  rw [hlimits]
  cases ht : b.topic? n with
  | none =>
    rw [ht, map_none, map_eq_none_iff] at h
    simp [h]
  | some t =>
    rw [ht, map_some, map_eq_some_iff] at h
    obtain ⟨t', ht', hshape⟩ := h
    have hq := queued_of_shape hshape
    simp only [Topic.shape, Topic.fixed, Prod.mk.injEq] at hshape
    simp only [ht', map_some, getD_some, Topic.isOpen, Topic.evicted, hq, hshape,
      Topic.evictOldest]
    refine ⟨trivial, ?_⟩
    split
    · cases t.lowMessages with
      | cons m rest => rfl
      | nil =>
        cases t.messages with
        | cons m rest => rfl
        | nil => cases t.highMessages <;> rfl
    · rfl

def counts (b : Broker) (p : PublishArgs) (created asked : Nat) (n : GoString) : Nat × Nat :=
  if (nameError n).isNone && b.gets created n then
    (if (b.topics.lookup n).isSome then created else created + 1, asked + b.asks p)
  else (created, asked)

def takes (b : Broker) (p : PublishArgs) (created asked : Nat) (n : GoString) : Bool :=
  (nameError n).isNone && b.gets created n && (b.agrees p asked && b.isOpen n)

theorem admittedNames_cons (b : Broker) (p : PublishArgs) (created asked : Nat) (n : GoString) (ns : List GoString) :
    b.admittedNames p created asked (n :: ns) = (if b.takes p created asked n then [n] else []) ++
        b.admittedNames p (b.counts p created asked n).1 (b.counts p created asked n).2 ns := by
  unfold takes counts
  rw [admittedNames]
  by_cases h : ((nameError n).isNone && b.gets created n) = true
  · by_cases h' : (b.agrees p asked && b.isOpen n) = true <;> simp [h, h']
  · simp [h]

theorem admittedNames_sublist (b : Broker) (p : PublishArgs) (created asked : Nat) (ns : List GoString) :
    (b.admittedNames p created asked ns).Sublist ns := by
  induction ns generalizing created asked with
  | nil => exact .refl _
  | cons n ns ih =>
    rw [admittedNames_cons]
    split
    · exact (ih _ _).cons_cons n
    · exact (ih _ _).cons n

variable {n : GoString}

theorem After.canGet (h : b₀.After b done created asked) (hn : n ∉ done) : b.canGet n = b₀.gets created n := by
  rw [Broker.canGet, gets, h.lookup n hn, h.topics, h.limits]

theorem After.asks (h : b₀.After b done created asked) (n : GoString) :
    b.asks { p with topicName := n } = b₀.asks p := by
  rw [Broker.asks, Broker.asks, h.hooked]

theorem After.agrees (h : b₀.After b done created asked) (n : GoString) :
    (b.hookError { p with topicName := n }).isNone = b₀.agrees p asked := by
  rw [hookError, Broker.agrees, h.hooked, h.env, h.answers]
  by_cases hask : p.isReplication = true ∨ b₀.hooked = false
  · simp [hask]
  · simp [hask]

theorem After.isOpen (h : b₀.After b done created asked) (hn : n ∉ done) :
    b.isOpen n = b₀.isOpen n ∧ b.evicted n = b₀.evicted n := isOpen_of_shape h.limits (h.topic n hn)

theorem After.retention (h : b₀.After b done created asked) (hn : n ∉ done) : b.retention n = b₀.retention n := by
  have hfixed : (b.topic? n).map Topic.retention = (b₀.topic? n).map Topic.retention := by
    have hshape := congrArg (Option.map fun x => x.1.2.2.2) (h.topic n hn)
    rw [Option.map_map, Option.map_map] at hshape
    exact hshape
  rw [Broker.retention, Broker.retention, hfixed]

theorem After.accepts (h : b₀.After b done created asked) (hn : n ∉ done) (hname : (nameError n).isSome = false) :
    b.accepts { p with topicName := n } = b₀.takes p created asked n := by
  have hnone : (nameError n).isNone = true := by simpa using hname
  rw [Broker.accepts, takes, h.agrees n, h.canGet hn, (h.isOpen hn).1, hnone, Bool.true_and, Bool.and_assoc]

/-- What the other names find after a publish that has found its topic, or
has not been able to. -/
theorem After.next (h : b₀.After b done created asked) (hn : n ∉ done) (hname : (nameError n).isSome = false)
    (hframe : (b.getOrCreateTopic n).2.Frame b')
    (hanswers : b'.answers = b.answers + if b.canGet n then b.asks { p with topicName := n } else 0)
    (hothers : ∀ k, k ≠ n → (b'.topic? k).map shape = (b.topic? k).map shape) :
    b₀.After b' (n :: done) (b₀.counts p created asked n).1 (b₀.counts p created asked n).2 := by
  have hquiet := b.quiet_getOrCreateTopic n []
  have hnone : (nameError n).isNone = true := by simpa using hname
  rw [h.canGet hn, h.asks n] at hanswers
  refine ⟨(hframe.env.trans hquiet.env).trans h.env, (hframe.limits.trans hquiet.limits).trans h.limits,
    (hframe.hooked.trans hquiet.hooked).trans h.hooked, ?_, ?_, fun k hk => ?_, fun k hk => ?_⟩
  · rw [hframe.topics, getOrCreateTopic_entries, h.topics, h.canGet hn, h.lookup n hn]
    unfold counts
    rw [hnone, Bool.true_and]
    by_cases hget : b₀.gets created n = true
    · cases hl : b₀.topics.lookup n <;> simp [hget]
      omega
    · simp [hget]
  · rw [hanswers, h.answers]
    unfold counts
    rw [hnone, Bool.true_and]
    by_cases hget : b₀.gets created n = true
    · simp only [hget, if_true]
      omega
    · simp [hget]
  · obtain ⟨hkn, hk⟩ := ne_and_not_mem_of_not_mem_cons hk
    rw [hframe.topics, getOrCreateTopic_lookup_ne hkn, h.lookup k hk]
  · obtain ⟨hkn, hk⟩ := ne_and_not_mem_of_not_mem_cons hk
    rw [hothers k hkn, h.topic k hk]

end Broker

/-! ## The calls for the bound topics -/

/-- A publish is tried for some names in turn, with these results. -/
inductive Fans (now : Time) (p : PublishArgs) : List GoString → Broker → List Ret → Broker → Prop
  | nil {b} : Fans now p [] b [] b
  | cons {n ns b b₁ b' r rs} :
      Tries now { p with topicName := n } b r b₁ → Fans now p ns b₁ rs b' → Fans now p (n :: ns) b (r :: rs) b'

section Fans

variable {now : Time} {p : PublishArgs} {b₀ b b' : Broker} {r : Ret} {n : GoString}
  {done : List GoString} {created asked : Nat}
  {copies : List Message}

theorem Broker.Trail.not_evicted {q t m c} (h : b₀.Trail b copies) (had : b.Admitted now b' q t m)
    (hc : c ∈ copies) (hne : c.topic ≠ q.topicName) : c ∉ b.evicted q.topicName := by
  intro hev
  obtain ⟨z, -, -, hzero, hr⟩ := h.once c hc
  have hzq : Zone.queue t = z := by
    by_contra hne
    exact count_eq_zero.mp (hzero _ hne) c (had.evicted_queued hev) rfl
  have hget : b.getOrCreateTopic q.topicName = (some t, (b.getOrCreateTopic q.topicName).2) := by
    rw [← had.topic]
  exact lookup_ne_of_ne ((b.quiet_getOrCreateTopic q.topicName []).topics (hr t hzq.symm))
    (getOrCreateTopic_lookup hget) hne rfl

/-- One name: it admits the publish or it does not, and what the other names
find is known. -/
theorem Tries.after (ht : Tries now { p with topicName := n } b r b') (hn : n ∉ done)
    (h : b₀.After b done created asked) :
    b₀.After b' (n :: done) (b₀.counts p created asked n).1 (b₀.counts p created asked n).2 ∧
      (b₀.takes p created asked n = false ∧ (∃ e, r = .published (.error e)) ∧
          (b' = b ∨ nameError n = none ∧ b.Refused b' { p with topicName := n }) ∨
        b₀.takes p created asked n = true ∧ ∃ t m, r = .published (.ok m) ∧
          b.Admitted now b' { p with topicName := n } t m) := by
  rcases tries_cases ht with ⟨he, ⟨hname, rfl⟩ | ⟨hname, hacc, href⟩⟩ | ⟨hname, hacc, t, m, rfl, had⟩
  · have hbad : (nameError n).isNone = false := by
      cases hne : nameError n with
      | none => rw [show nameError n = none from hne] at hname; cases hname
      | some e => rfl
    have hcounts : b₀.counts p created asked n = (created, asked) := by simp [counts, hbad]
    refine ⟨?_, .inl ⟨by simp [takes, hbad], he, .inl rfl⟩⟩
    rw [hcounts]
    exact ⟨h.env, h.limits, h.hooked, h.topics, h.answers, fun k hk =>
      h.lookup k (not_mem_of_not_mem_cons hk),
      fun k hk => h.topic k (not_mem_of_not_mem_cons hk)⟩
  · rw [h.accepts hn hname] at hacc
    exact ⟨h.next hn hname href.frame href.answers href.others,
      .inl ⟨hacc, he, .inr ⟨by simpa using hname, href⟩⟩⟩
  · have hcan : b.canGet n = true := by
      rw [canGet_eq, show (b.getOrCreateTopic n).1 = some t from had.topic]
      rfl
    rw [h.accepts hn hname] at hacc
    exact ⟨h.next hn hname had.frame (by rw [had.answers, hcan, if_pos rfl]) had.others,
      .inr ⟨hacc, t, m, rfl, had⟩⟩

theorem Broker.nameError_of_takes (h : b₀.takes p created asked n = true) : nameError n = none := by
  simp only [takes, Bool.and_eq_true, isNone_iff_eq_none] at h
  exact h.1.1

theorem not_mem_cons_of_done (hnot : n ∉ ns) (hns : ∀ k ∈ n :: ns, k ∉ done) : ∀ k ∈ ns, k ∉ n :: done := by
  intro k hk hmem
  rcases mem_cons.mp hmem with rfl | hmem
  · exact hnot hk
  · exact hns k (mem_cons_of_mem _ hk) hmem

/-- **The rule for the tries of a publish**, with the names that have admitted
it so far: what a try that fails preserves, and what one more name comes to. -/
theorem Fans.fold {I : Broker → List GoString → Prop} {ns rs acc}
    (hf : Fans now p ns b rs b') (hnodup : ns.Nodup) (hns : ∀ n ∈ ns, n ∉ done)
    (h : b₀.After b done created asked) (hacc : acc ⊆ done) (h₀ : I b acc)
    (hrefuse : ∀ n ∈ ns, nameError n = none → ∀ {c c' acc}, I c acc →
      c.Refused c' { p with topicName := n } → I c' acc)
    (hadds : ∀ n ∈ ns, nameError n = none → ∀ {c c' acc t m}, n ∉ acc →
      c.retention n = b₀.retention n → c.evicted n = b₀.evicted n →
      I c acc → c.Admitted now c' { p with topicName := n } t m → I c' (acc ++ [n])) :
    I b' (acc ++ b₀.admittedNames p created asked ns) := by
  induction hf generalizing done created asked acc with
  | nil => simpa [admittedNames] using h₀
  | @cons n ns b b₁ b' r rs ht _ ih =>
    obtain ⟨hnot, hnodup⟩ := nodup_cons.mp hnodup
    have hn := hns n mem_cons_self
    obtain ⟨hafter, hcase⟩ := ht.after hn h
    have ih := fun {acc} hacc h₀ =>
      @ih _ _ _ acc hnodup (not_mem_cons_of_done hnot hns) hafter hacc h₀
      (fun k hk => hrefuse k (mem_cons_of_mem _ hk))
      fun k hk => hadds k (mem_cons_of_mem _ hk)
    rw [admittedNames_cons]
    rcases hcase with ⟨htakes, -, href⟩ | ⟨htakes, t, m, -, had⟩
    · rw [htakes]
      refine ih (subset_cons_of_subset _ hacc) ?_
      rcases href with rfl | ⟨hname, href⟩
      · exact h₀
      · exact hrefuse n mem_cons_self hname h₀ href
    · rw [htakes, if_pos rfl, ← append_assoc]
      refine ih (append_subset.mpr ⟨subset_cons_of_subset _ hacc, by simp⟩) ?_
      exact hadds n mem_cons_self (nameError_of_takes htakes)
        (fun hmem => hn (hacc hmem)) (h.retention hn) (h.isOpen hn).2 h₀ had

theorem Fans.results {ns rs} (hf : Fans now p ns b rs b') (hnodup : ns.Nodup) (hns : ∀ n ∈ ns, n ∉ done)
    (h : b₀.After b done created asked) :
    ∀ x ∈ ns.zip rs, x.1 ∈ b₀.admittedNames p created asked ns ∧ (∃ m, x.2 = .published (.ok m)) ∨
      x.1 ∉ b₀.admittedNames p created asked ns ∧ ∃ e, x.2 = .published (.error e) := by
  induction hf generalizing done created asked with
  | nil => simp
  | @cons n ns b b₁ b' r rs ht _ ih =>
    obtain ⟨hnot, hnodup⟩ := nodup_cons.mp hnodup
    obtain ⟨hafter, hcase⟩ := ht.after (hns n mem_cons_self) h
    have hall := ih hnodup (not_mem_cons_of_done hnot hns) hafter
    have hnotin : n ∉ b₀.admittedNames p (b₀.counts p created asked n).1 (b₀.counts p created asked n).2 ns :=
      fun hmem => hnot ((admittedNames_sublist ..).subset hmem)
    rw [admittedNames_cons]
    intro x hx
    rcases mem_cons.mp hx with rfl | hx
    · rcases hcase with ⟨htakes, herr, -⟩ | ⟨htakes, t, m, rfl, -⟩
      · rw [htakes]
        exact .inr ⟨hnotin, herr⟩
      · rw [htakes]
        exact .inl ⟨by simp, m, rfl⟩
    · have hne : x.1 ≠ n := fun he => hnot (he ▸ (of_mem_zip hx).1)
      split
      · simpa [hne] using hall x hx
      · exact hall x hx

end Fans

/-! ## The publish as a whole -/

section Publish

variable {now : Time} {b b' : Broker} {p : PublishArgs} {r : Ret}

theorem fanOut_fans (hname : nameError p.topicName = none)
    (hgroups : ∀ d ∈ dests, Text.contains d (ascii "::") = true)
    (h : Returns now b ⟨.publish 11 p (.fanOut dests), []⟩ r b') :
    ∃ rs, rs.length = dests.length ∧ Fans now p (dests ++ [p.topicName]) b (rs ++ [r]) b' := by
  induction dests generalizing b with
  | nil => exact ⟨[], rfl, .cons (.goes hname (fanOut_nil.mp h)) .nil⟩
  | cons d dests ih =>
    obtain ⟨r₁, b₁, h₁, h₂⟩ := fanOut_cons h
    obtain ⟨rs, hlen, hfans⟩ := ih (fun k hk => hgroups k (mem_cons_of_mem _ hk)) h₂
    exact ⟨r₁ :: rs, by simp [hlen], .cons (tries_of_enter (hgroups d mem_cons_self) h₁) hfans⟩

namespace Broker

/-- The names a publish is tried for, in turn. -/
def tried (b : Broker) (topicName : GoString) : List GoString :=
  if (nameError topicName).isSome then []
  else if Text.contains topicName (ascii "::") then [topicName]
  else b.env.order b.ranges (b.bindings topicName) ++ [topicName]

def admittedBy (b : Broker) (p : PublishArgs) : List GoString := b.admittedNames p 0 0 (b.tried p.topicName)

/-- The groups bound to a topic are names with `::`, each bound once. -/
def Grouped (b : Broker) (topicName : GoString) : Prop :=
  (b.bindings topicName).Nodup ∧ ∀ d ∈ b.bindings topicName, Text.contains d (ascii "::") = true

/-- The messages made since `b₀` for a name are `copies`, each at one place. -/
structure Gains (b₀ b : Broker) (n : GoString) (copies : List Message) : Prop where
  all : ∀ z, ∀ m ∈ b.zone [] z, b₀.Since b m.id → m.topic = n → m ∈ copies
  made : ∀ m ∈ copies, b₀.Since b m.id ∧ m.topic = n
  once : ∀ m ∈ copies, ∃ z, m ∈ b.zone [] z ∧ b.count [] m.id z = 1 ∧ ∀ z', z' ≠ z → b.count [] m.id z' = 0

theorem Trail.gains {b₀ b : Broker} {copies} (h : b₀.Trail b copies) (n : GoString) :
    b₀.Gains b n (copies.filter fun m => m.topic = n) where
  all z m hm hs ht := mem_filter.mpr ⟨h.all z m hm hs, decide_eq_true ht⟩
  made m hm := by
    obtain ⟨hm, ht⟩ := mem_filter.mp hm
    exact ⟨h.since m hm, of_decide_eq_true ht⟩
  once m hm := by
    obtain ⟨z, hz, hone, hzero, -⟩ := h.once m (mem_filter.mp hm).1
    exact ⟨z, hz, hone, hzero⟩

end Broker

/-- **A publish is tried for its bound topics and then for its own**, and it
returns what came of the last. -/
theorem publish_fans (hg : b.Grouped p.topicName) (h : Returns now b (Op.publish p).entry r b') :
    (nameError p.topicName).isSome = true ∧ (∃ e, r = .published (.error e)) ∧ b' = b ∨
      ∃ ranges rs ns, b.tried p.topicName = ns ++ [p.topicName] ∧ rs.length = ns.length ∧
        Fans now p (ns ++ [p.topicName]) { b with ranges } (rs ++ [r]) b' := by
  cases hname : nameError p.topicName with
  | some e =>
    obtain ⟨rfl, rfl⟩ := (enter_invalid hname).mp h
    exact .inl ⟨rfl, ⟨e, rfl⟩, rfl⟩
  | none =>
    refine .inr ?_
    by_cases hgroup : Text.contains p.topicName (ascii "::") = true
    · exact ⟨b.ranges, [], [], by simp [tried, hname, Text.contains_iff.mp hgroup], rfl,
        .cons (tries_of_enter hgroup h) .nil⟩
    · have hperm := b.env.order_perm b.ranges (b.bindings p.topicName)
      obtain ⟨rs, hlen, hfans⟩ := fanOut_fans hname (fun d hd => hg.2 d (hperm.mem_iff.mp hd))
        ((enter_fanOut hname hgroup).mp h)
      exact ⟨b.ranges + 1, rs, _, by simp [tried, hname, hgroup], hlen, hfans⟩

theorem Broker.Grouped.tried_nodup (hg : b.Grouped p.topicName) : (b.tried p.topicName).Nodup := by
  have hperm := b.env.order_perm b.ranges (b.bindings p.topicName)
  unfold tried
  split
  · exact nodup_nil
  · split
    · exact nodup_singleton _
    next hgroup =>
      refine nodup_append.mpr ⟨hperm.nodup_iff.mpr hg.1, nodup_singleton _,
        fun d hd n hn he => hgroup ?_⟩
      rw [← mem_singleton.mp hn, ← he]
      exact hg.2 d (hperm.mem_iff.mp hd)

/-- **The rule for a publish**, with the names that have admitted it. -/
theorem publish_fold {I : Broker → List GoString → Prop} (hg : b.Grouped p.topicName)
    (h : Returns now b (Op.publish p).entry r b') (h₀ : I b []) (hranges : ∀ ranges, I { b with ranges } [])
    (hrefuse : ∀ n ∈ b.tried p.topicName, nameError n = none → ∀ {c c' acc}, I c acc →
      c.Refused c' { p with topicName := n } → I c' acc)
    (hadds : ∀ n ∈ b.tried p.topicName, nameError n = none → ∀ {c c' acc t m}, n ∉ acc →
      c.retention n = b.retention n →
      c.evicted n = b.evicted n → I c acc → c.Admitted now c' { p with topicName := n } t m → I c' (acc ++ [n])) :
    I b' (b.admittedBy p) := by
  rcases publish_fans hg h with ⟨hname, -, rfl⟩ | ⟨ranges, rs, ns, htried, -, hfans⟩
  · have hnone : b'.admittedBy p = [] := by
      simp [admittedBy, tried, hname, admittedNames]
    rw [hnone]
    exact h₀
  · rw [← htried] at hfans
    exact hfans.fold hg.tried_nodup (by simp) (.start b ranges) (nil_subset _) (hranges ranges) hrefuse hadds

/-- The rule where it does not matter which names admit the publish. -/
theorem publish_rule {I : Broker → Prop} (hg : b.Grouped p.topicName)
    (h : Returns now b (Op.publish p).entry r b') (h₀ : I b) (hranges : ∀ ranges, I { b with ranges })
    (htry : ∀ n ∈ b.tried p.topicName, nameError n = none → ∀ {c c'}, I c → (c.Refused c' { p with topicName := n } ∨
        ∃ t m, c.Admitted now c' { p with topicName := n } t m) → I c') : I b' :=
  publish_fold (I := fun c _ => I c) hg h h₀ hranges
    (fun n hn hname _ _ _ hc href => htry n hn hname hc (.inl href))
    fun n hn hname _ _ _ _ _ _ _ _ hc had => htry n hn hname hc (.inr ⟨_, _, had⟩)

theorem Broker.tried_subset (h : n ∈ b.tried T) : n = T ∨ n ∈ b.bindings T := by
  unfold tried at h
  split at h
  · cases h
  · split at h
    · exact .inl (mem_singleton.mp h)
    · rcases mem_append.mp h with hd | hd
      · exact .inr ((b.env.order_perm b.ranges (b.bindings T)).mem_iff.mp hd)
      · exact .inl (mem_singleton.mp hd)

/-- A publish succeeds exactly when its own topic admits it. -/
theorem publish_result (hg : b.Grouped p.topicName) (h : Returns now b (Op.publish p).entry r b') :
    p.topicName ∈ b.admittedBy p ∧ (∃ m, r = .published (.ok m)) ∨ p.topicName ∉ b.admittedBy p ∧
      ∃ e, r = .published (.error e) := by
  rcases publish_fans hg h with ⟨hname, herr, rfl⟩ | ⟨ranges, rs, ns, htried, hlen, hfans⟩
  · have hnone : b'.admittedBy p = [] := by
      simp [admittedBy, tried, hname, admittedNames]
    rw [hnone]
    exact .inr ⟨by simp, herr⟩
  · have hnodup := hg.tried_nodup
    rw [htried] at hnodup
    have hall := hfans.results hnodup (by simp) (.start b ranges)
    rw [← htried] at hall
    refine hall (p.topicName, r) ?_
    rw [htried, zip_append hlen.symm]
    simp

def Broker.copiesOf (n : GoString) (copies : List Message) : List Message := copies.filter fun c => c.topic = n

/-- What a message made by the publish is, and in which queue it can be. -/
structure Broker.Made (now : Time) (p : PublishArgs) (b c : Broker) (n : GoString) (m : Message) : Prop where
  message : m = { p with topicName := n }.message m.id (b.retention n) now
  slot : ∀ r priority, m ∈ c.slot r priority → priority = .ofString p.priority

theorem Broker.mem_queued_of_slot {r priority m} (h : m ∈ b.slot r priority) : m ∈ b.queued r := by
  unfold slot at h
  unfold queued
  cases ht : b.heap[r]? with
  | none => simp [ht] at h
  | some t =>
    rw [ht] at h
    exact mem_queued_iff.mpr ⟨priority, h⟩

section Copies

open Broker (copiesOf)

variable {s₀ c c' : Broker} {copies : List Message} {n : GoString} {m : Message} {q : PublishArgs}
  {t : TopicRef}

theorem Broker.Made.of_refused (h : b.Made now p c n m) (href : c.Refused c' q) : b.Made now p c' n m :=
  ⟨h.message, fun r priority hm => h.slot r priority (href.slot r priority hm)⟩

theorem Broker.Made.of_admitted (h : b.Made now p c n m)
    (hq : q.priority = p.priority) (had : c.Admitted now c' q t m') : b.Made now p c' n m := by
  refine ⟨h.message, fun r priority hm => ?_⟩
  rcases mem_append.mp (had.slot r priority hm) with hm | hm
  · exact h.slot r priority hm
  · split at hm
    next hp => rw [hp.2, hq]
    · cases hm

theorem Broker.Admitted.made (had : c.Admitted now c' { p with topicName := n } t m) (hfresh : c.Fresh)
    (hret : c.retention n = b.retention n) : b.Made now p c' n m := by
  refine ⟨?_, fun r priority hm => ?_⟩
  · conv_lhs => rw [had.message]
    rw [had.id, ← hret]
  · rcases mem_append.mp (had.slot r priority hm) with hm | hm
    · exact absurd had.id (hfresh.head r m (mem_queued_of_slot hm))
    · split at hm
      next hp => exact hp.2
      · cases hm

/-- The copies after one more was admitted: those of other names are kept. -/
theorem Broker.Trail.copiesOf_admitted (h : s₀.Trail c copies)
    (had : c.Admitted now c' { p with topicName := n } t m) (k : GoString) :
    copiesOf k (m :: copies.filter fun x => x ∉ c.evicted n) =
      if k = n then m :: (copiesOf n copies).filter fun x => x ∉ c.evicted n else copiesOf k copies := by
  have htopic : m.topic = n := by rw [had.message]; rfl
  split
  next hk =>
    subst hk
    rw [copiesOf, filter_cons, if_pos (by simpa using htopic), copiesOf, List.filter_filter,
      List.filter_filter]
    refine congrArg (m :: ·) (filter_congr fun x _ => ?_)
    exact Bool.and_comm _ _
  next hk =>
    rw [copiesOf, filter_cons, if_neg (by simpa [htopic] using Ne.symm hk), List.filter_filter]
    refine filter_congr fun x hx => ?_
    by_cases hxk : x.topic = k
    · have hnot := h.not_evicted had hx fun he : x.topic = n => hk (hxk.symm.trans he)
      simpa [hxk] using hnot
    · simp [hxk]

/-- **What a publish does to the copies of each name**: where it is admitted
it adds one, and one that is evicted for it is gone; else nothing. -/
theorem publish_copies (hg : b.Grouped p.topicName) (htrail : s₀.Trail b copies)
    (h : Returns now b (Op.publish p).entry r b') :
    ∃ copies', s₀.Trail b' copies' ∧ ∀ n, (n ∉ b.admittedBy p → copiesOf n copies' = copiesOf n copies) ∧
      (n ∈ b.admittedBy p → ∃ m, b.Made now p b' n m ∧
        copiesOf n copies' = m :: (copiesOf n copies).filter fun c => c ∉ b.evicted n) := by
  have hstart : ∀ ranges, s₀.Trail { b with ranges } copies := fun ranges =>
    htrail.of_zones rfl (Nat.le_refl _) (fun z => by cases z <;> rfl) fun hn => hn
  refine publish_fold (I := fun c acc => ∃ copies', s₀.Trail c copies' ∧
    ∀ n, (n ∉ acc → copiesOf n copies' = copiesOf n copies) ∧
      (n ∈ acc → ∃ m, b.Made now p c n m ∧
        copiesOf n copies' = m :: (copiesOf n copies).filter fun x => x ∉ b.evicted n))
    hg h ⟨copies, htrail, by simp⟩ (fun ranges => ⟨copies, hstart ranges, by simp⟩) ?_ ?_
  · rintro n - - c c' acc ⟨copies', hc, hall⟩ href
    refine ⟨copies', href.trail hc, fun k => ⟨(hall k).1, fun hk => ?_⟩⟩
    obtain ⟨m, hmade, hm⟩ := (hall k).2 hk
    exact ⟨m, hmade.of_refused href, hm⟩
  · rintro n - - c c' acc t m hn hret hev ⟨copies', hc, hall⟩ had
    refine ⟨_, had.trail hc, fun k => ?_⟩
    rw [hc.copiesOf_admitted had]
    split
    next hk =>
      subst hk
      rw [hev, (hall k).1 hn]
      exact ⟨fun hnot => absurd (by simp) hnot, fun _ => ⟨m, had.made hc.fresh hret, rfl⟩⟩
    next hk =>
      have hmem : k ∈ acc ++ [n] ↔ k ∈ acc := by simp [hk]
      rw [hmem]
      refine ⟨(hall k).1, fun hin => ?_⟩
      obtain ⟨m', hmade, hm'⟩ := (hall k).2 hin
      exact ⟨m', hmade.of_admitted (q := { p with topicName := n }) rfl had, hm'⟩

theorem Broker.evicted_mem (h : e ∈ b.evicted n) : ∃ r, b.topics.lookup n = some r ∧ e ∈ b.queued r := by
  unfold evicted topic? at h
  cases hl : b.topics.lookup n with
  | none => simp [hl] at h
  | some r =>
    cases ht : b.heap[r]? with
    | none => simp [hl, ht] at h
    | some t =>
      simp only [hl, bind_some, ht, map_some, getD_some, Topic.evicted] at h
      split at h
      · rw [mem_toList, map_eq_some_iff] at h
        obtain ⟨⟨oldest, t'⟩, hev, rfl⟩ := h
        exact ⟨r, rfl, by simp [queued, ht, (evictOldest_spec hev).1.mem_iff]⟩
      · cases h

theorem Broker.Trail.mem_copiesOf (h : s₀.Trail b copies) {e} (he : e ∈ b.evicted n) (hs : s₀.Since b e.id) :
    e ∈ copiesOf n copies := by
  obtain ⟨r, hlookup, hq⟩ := evicted_mem he
  have hmem := h.all (.queue r) e hq hs
  obtain ⟨z, -, -, hzero, hr⟩ := h.once e hmem
  have hz : Zone.queue r = z := by
    by_contra hne
    exact count_eq_zero.mp (hzero _ hne) e hq rfl
  refine mem_filter.mpr ⟨hmem, decide_eq_true ?_⟩
  by_contra hne
  exact lookup_ne_of_ne (hr r hz.symm) hlookup hne rfl

theorem Broker.Trail.nodup_copiesOf (h : s₀.Trail b copies) (n : GoString) : (copiesOf n copies).Nodup :=
  (Nodup.of_map _ h.nodup).filter _

theorem Broker.length_copiesOf (n : GoString) (copies : List Message) : (copiesOf n copies).length =
    (copies.map topic).count n := by
  rw [List.count, countP_map, countP_eq_length_filter]
  exact congrArg List.length (filter_congr fun m _ => (beq_eq_decide m.topic n).symm)

theorem Broker.Trail.mem_gains {l} (h : s₀.Trail b copies) (hg : s₀.Gains b n l) : m ∈ copiesOf n copies ↔ m ∈ l := by
  constructor
  · intro hm
    obtain ⟨hm, ht⟩ := mem_filter.mp hm
    obtain ⟨z, hz, -⟩ := h.once m hm
    exact hg.all z m hz (h.since m hm) (of_decide_eq_true ht)
  · intro hm
    obtain ⟨hs, ht⟩ := hg.made m hm
    obtain ⟨z, hz, -⟩ := hg.once m hm
    exact mem_filter.mpr ⟨h.all z m hz hs, decide_eq_true ht⟩

theorem Broker.Trail.gains_one_iff (h : s₀.Trail b copies) (n : GoString) :
    (∃ m, s₀.Gains b n [m]) ↔ (copiesOf n copies).length = 1 := by
  constructor
  · rintro ⟨m, hm⟩
    exact ((perm_ext_iff_of_nodup (h.nodup_copiesOf n) (nodup_singleton m)).mpr fun c =>
      h.mem_gains hm).length_eq
  · intro hlen
    obtain ⟨m, hm⟩ := length_eq_one_iff.mp hlen
    exact ⟨m, hm ▸ h.gains n⟩

theorem Broker.Trail.gains_nil_iff (h : s₀.Trail b copies) (n : GoString) :
    s₀.Gains b n [] ↔ (copiesOf n copies).length = 0 := by
  rw [length_eq_zero_iff]
  constructor
  · exact fun hnil => eq_nil_iff_forall_not_mem.mpr fun m hm => by cases (h.mem_gains hnil).mp hm
  · exact fun hnil => hnil ▸ h.gains n

end Copies

/-- **The names that admit a publish, whatever it returns, have got one
message each.** -/
theorem publish_admitted (hg : b.Grouped p.topicName) (hfresh : b.Fresh)
    (h : Returns now b (Op.publish p).entry r b') : ∃ new, b.Trail b' new ∧ (new.map topic).Perm (b.admittedBy p) ∧
      ∀ m ∈ new, b.Made now p b' m.topic m := by
  obtain ⟨new, htrail, hall⟩ := publish_copies hg (.refl hfresh) h
  have hnodup : (b.admittedBy p).Nodup := (b.admittedNames_sublist p 0 0 _).nodup hg.tried_nodup
  refine ⟨new, htrail, perm_iff_count.mpr fun n => ?_, fun m hm => ?_⟩
  · rw [← length_copiesOf]
    by_cases hn : n ∈ b.admittedBy p
    · obtain ⟨m, -, hm⟩ := (hall n).2 hn
      rw [hm, count_eq_one_of_mem hnodup hn]
      rfl
    · rw [(hall n).1 hn, count_eq_zero_of_not_mem hn]
      rfl
  · have hin : m ∈ copiesOf m.topic new := mem_filter.mpr ⟨hm, decide_eq_true rfl⟩
    by_cases hn : m.topic ∈ b.admittedBy p
    · obtain ⟨m', hmade, hm'⟩ := (hall m.topic).2 hn
      rw [hm'] at hin
      rw [mem_singleton.mp hin]
      exact mem_singleton.mp hin ▸ hmade
    · rw [(hall m.topic).1 hn] at hin
      cases hin

/-- What the publish promises: with no error every one of its names has got
one message, with an error none has. -/
def WholeOrNone (b : Broker) (p : PublishArgs) (r : Ret) (b' : Broker) : Prop :=
  match r with
  | .published (.ok _) => ∀ n ∈ p.topicName :: b.bindings p.topicName, ∃ m, b.Gains b' n [m]
  | _ => ∀ n ∈ p.topicName :: b.bindings p.topicName, b.Gains b' n []

theorem gains_iff {new} (htrail : b.Trail b' new) (hperm : (new.map topic).Perm (b.admittedBy p))
    (hnodup : (b.admittedBy p).Nodup) (n : GoString) :
    ((∃ m, b.Gains b' n [m]) ↔ n ∈ b.admittedBy p) ∧ (b.Gains b' n [] ↔ n ∉ b.admittedBy p) := by
  have hlen : (copiesOf n new).length = (b.admittedBy p).count n := by
    rw [length_copiesOf, hperm.count_eq]
  rw [htrail.gains_one_iff, htrail.gains_nil_iff, hlen, hnodup.count]
  constructor <;> split <;> simp_all

/-- **A publish to a topic with groups is all or nothing** exactly when the
names of the topic and its groups all admit it, or none does. -/
theorem fan_out_iff (hg : b.Grouped p.topicName) (hfresh : b.Fresh) (h : Returns now b (Op.publish p).entry r b') :
    WholeOrNone b p r b' ↔ b.admittedBy p = [] ∨ ∀ n ∈ p.topicName :: b.bindings p.topicName, n ∈ b.admittedBy p := by
  obtain ⟨new, htrail, hperm, -⟩ := publish_admitted hg hfresh h
  have hret := publish_result hg h
  have hsub : (b.admittedBy p).Sublist (b.tried p.topicName) := b.admittedNames_sublist p 0 0 _
  have hgains := gains_iff htrail hperm (hsub.nodup hg.tried_nodup)
  have hnames : ∀ n ∈ b.tried p.topicName, n ∈ p.topicName :: b.bindings p.topicName :=
    fun n hn => mem_cons.mpr (tried_subset hn)
  rcases hret with ⟨hown, m, rfl⟩ | ⟨hown, e, rfl⟩
  · have hne : b.admittedBy p ≠ [] := ne_nil_of_mem hown
    constructor
    · exact fun hall => .inr fun n hn => (hgains n).1.mp (hall n hn)
    · rintro (hnil | hall)
      · exact absurd hnil hne
      · exact fun n hn => (hgains n).1.mpr (hall n hn)
  · constructor
    · intro hall
      refine .inl (eq_nil_iff_forall_not_mem.mpr fun n hn => ?_)
      exact (hgains n).2.mp (hall n (hnames n (hsub.subset hn))) hn
    · rintro (hnil | hall)
      · intro n _
        exact (hgains n).2.mpr (by simp [hnil])
      · exact absurd (hall _ mem_cons_self) hown

end Publish

/-! ## A group that is full -/

/-- An empty broker where the group `g` is bound to the topic `t` and queues
have room for `max` messages. -/
def groupedBroker (max : Nat) (h : 0 < max := by decide) : Broker :=
  (new ⟨max, 10, h, Limits.ten_pos⟩ .reject false none .sample fun _ => ⟨1, []⟩).bind (ascii "t") (ascii "t::g")

theorem groupedBroker_fresh (max : Nat) (h : 0 < max) : (groupedBroker max h).Fresh := by
  intro z m hm
  cases z <;> cases hm

theorem groupedBroker_grouped (max : Nat) (h : 0 < max) (n : GoString) : (groupedBroker max h).Grouped n := by
  by_cases hn : n = ascii "t"
  · subst hn
    exact ⟨nodup_singleton (ascii "t::g"), fun d hd => by rw [mem_singleton.mp hd]; decide⟩
  · have hnil : (groupedBroker max h).bindings n = [] := by simp [groupedBroker, Broker.bind, Broker.new, hn]
    simp [Grouped, hnil]

def groupPublish : PublishArgs := { samplePublish with topicName := ascii "t::g" }

/-- With room for one message, and one in the queue of the group, a publish
to the topic succeeds and the group gets nothing. -/
theorem group_skipped : ∃ r₁ b₁ r₂ b₂, Returns 0 (groupedBroker 1) (Op.publish groupPublish).entry r₁ b₁ ∧
    b₁.Grouped (ascii "t") ∧ b₁.Fresh ∧ Returns 0 b₁ (Op.publish samplePublish).entry r₂ b₂ ∧
    ¬ WholeOrNone b₁ samplePublish r₂ b₂ := by
  let one := (groupedBroker 1).after 0 (.publish groupPublish)
  have h₁ := returns_get 0 (groupedBroker 1) (.publish groupPublish)
  have h₂ :
    Returns 0 one (Op.publish samplePublish).entry (.published (.ok (samplePublish.message [97, 97, 97] 0 0))) _ :=
    returns_after
  obtain ⟨_, htrail, -⟩ := publish_admitted (groupedBroker_grouped _ _ _) (groupedBroker_fresh _ _) h₁
  have hbind : one.bindings (ascii "t") = [ascii "t::g"] := by decide +kernel
  have hg : one.Grouped (ascii "t") := by
    simp only [Grouped, hbind]
    decide
  refine ⟨_, _, _, _, h₁, hg, htrail.fresh, h₂, fun hwhole => ?_⟩
  obtain ⟨new, htrail', hperm, -⟩ := publish_admitted hg htrail.fresh h₂
  have hadm : one.admittedBy samplePublish = [ascii "t"] := by decide +kernel
  have hgroup := hwhole (ascii "t::g") (by rw [show samplePublish.topicName = ascii "t" from rfl, hbind]; simp)
  rw [(gains_iff htrail' hperm (by rw [hadm]; exact nodup_singleton _) _).1, hadm] at hgroup
  exact absurd hgroup (by decide)

/-- With room for two, topic and group get one message each. -/
theorem fan_out_sample : ∃ r b', Returns 0 (groupedBroker 2) (Op.publish samplePublish).entry r b' ∧
    WholeOrNone (groupedBroker 2) samplePublish r b' := by
  have h := returns_get 0 (groupedBroker 2) (.publish samplePublish)
  refine ⟨_, _, h, (fan_out_iff (groupedBroker_grouped _ _ _) (groupedBroker_fresh _ _) h).mpr (.inr ?_)⟩
  decide +kernel

end TinyMQ
