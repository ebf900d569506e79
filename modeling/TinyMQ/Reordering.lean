/-
A restart and the priorities.

A message does not carry its priority: that is the queue it stands in. The
log of a topic is one sequence of records, and `LoadExistingTopics` puts
every live message of it into the normal queue. `restart_order_iff` says
after which publishes a restart keeps the order in which `Consume` returns
the messages.
-/
import TinyMQ.Acceptance
import TinyMQ.Groups
import TinyMQ.Lib.Ranks
import TinyMQ.Redrive
import TinyMQ.Restart

namespace TinyMQ

open List Option Broker Topic LogStore Text KeyedLog Message

/-! ## The three queues -/

/-- The order in which `Consume` looks at the queues. -/
def Priority.rank : Priority → Nat
  | .high => 0
  | .normal => 1
  | .low => 2

/-- Messages with the priority each was published with: all of high
priority, then all of normal, then all of low, each first in first out. -/
def byPriority (ms : List (Priority × Message)) : List (Priority × Message) :=
  Ranks.ranked [0, 1, 2] (fun x => x.1.rank) ms

theorem rank_mem (x : Priority × Message) : x.1.rank ∈ [0, 1, 2] := by
  cases h : x.1 <;> simp [Priority.rank]

theorem filter_rank (pr : Priority) (ms : List (Priority × Message)) :
    ms.filter (fun x => x.1.rank = pr.rank) = ms.filter fun x => x.1 = pr := by
  refine filter_congr fun x _ => ?_
  cases pr <;> cases h : x.1 <;> simp [Priority.rank]

/-- What is left of the messages when some are gone. -/
def without (gone : List Message) (ms : List (Priority × Message)) : List (Priority × Message) :=
  ms.filter fun x => x.2.id ∉ gone.map Message.id

namespace Topic

/-- The queues of a topic are those of messages with these priorities. -/
def Holds (t : Topic) (ms : List (Priority × Message)) : Prop :=
  ∀ pr, t.slot pr = (ms.filter fun x => x.1 = pr).map Prod.snd

variable {t t' : Topic} {ms : List (Priority × Message)} {pr : Priority} {m : Message}

theorem Holds.queued (h : t.Holds ms) : t.queued = (byPriority ms).map Prod.snd := by
  have hhigh : t.highMessages = _ := h .high
  have hnormal : t.messages = _ := h .normal
  have hlow : t.lowMessages = _ := h .low
  rw [Topic.queued, hhigh, hnormal, hlow, ← filter_rank, ← filter_rank, ← filter_rank]
  rw [byPriority, Ranks.ranked, map_flatMap, append_assoc]
  exact congrArg (_ ++ ·) (congrArg (_ ++ ·) (append_nil _).symm)

theorem Holds.length (h : t.Holds ms) : t.queued.length = ms.length := by
  rw [h.queued, length_map]
  exact (Ranks.ranked_perm (by decide) fun x _ => rank_mem x).length_eq

theorem Holds.mem (h : t.Holds ms) : m ∈ t.slot pr ↔ (pr, m) ∈ ms := by
  rw [h pr, List.mem_map]
  constructor
  · rintro ⟨x, hx, rfl⟩
    obtain ⟨hms, rfl⟩ : x ∈ ms ∧ x.1 = pr := by simpa using hx
    exact hms
  · intro hm
    exact ⟨(pr, m), by simpa using hm, rfl⟩

theorem Holds.of_shape (h : t.Holds ms) (hs : t'.shape = t.shape) : t'.Holds ms :=
  fun pr => (slot_of_shape hs pr).trans (h pr)

theorem Holds.append (h : t.Holds ms) (pr : Priority) (m : Message) : (t.append pr m).Holds (ms ++ [(pr, m)]) := by
  intro other
  rw [slot_append, h other, filter_append, map_append]
  congr 1
  by_cases he : pr = other
  · simp [he]
  · simp [he, Ne.symm he]

/-! ## Evictions -/

/-- The queue an eviction takes from. -/
def victim (t : Topic) : Priority :=
  if t.lowMessages ≠ [] then .low else if t.messages ≠ [] then .normal else .high

theorem evictOldest_victim (h : t.evictOldest = some (m, t')) :
    t.slot t.victim = m :: t'.slot t.victim ∧ ∀ pr, pr ≠ t.victim → t'.slot pr = t.slot pr := by
  unfold evictOldest at h
  refine ⟨?_, fun pr hpr => ?_⟩
  · grind [victim, slot]
  · cases pr <;> grind [victim, slot]

theorem Holds.evictOldest (h : t.Holds ms) (hids : (ms.map fun x => x.2.id).Nodup)
    (he : t.evictOldest = some (m, t')) : t'.Holds (ms.filter fun x => x.2.id ≠ m.id) := by
  obtain ⟨hfirst, hothers⟩ := evictOldest_victim he
  have hm : (t.victim, m) ∈ ms := h.mem.mp (by rw [hfirst]; exact mem_cons_self)
  intro other
  have hslot : ((ms.filter fun x => x.2.id ≠ m.id).filter fun x => x.1 = other).map Prod.snd =
      (t.slot other).filter fun x => x.id ≠ m.id := by
    rw [h other, List.filter_map, filter_comm]
    rfl
  rw [hslot]
  by_cases ho : other = t.victim
  · subst ho
    have hnodup : ((t.slot t.victim).map Message.id).Nodup := by
      rw [h, List.map_map]
      exact hids.sublist (filter_sublist.map _)
    rw [hfirst, map_cons, nodup_cons] at hnodup
    rw [hfirst, filter_cons_of_neg (by simp)]
    refine (filter_eq_self.mpr fun x hx => ?_).symm
    have hne : x.id ≠ m.id := ne_of_mem_of_not_mem (List.mem_map_of_mem hx) hnodup.1
    simpa using hne
  · rw [hothers other ho]
    refine (filter_eq_self.mpr fun x hx => ?_).symm
    have hne : x.id ≠ m.id := fun hid =>
      ho (congrArg Prod.fst (inj_on_of_nodup_map hids (h.mem.mp hx) hm hid))
    simpa using hne

/-- The topic once there is room for one more message. -/
def makeRoom (max : Nat) (t : Topic) : Topic :=
  if max ≤ t.queued.length then (t.evictOldest.map Prod.snd).getD t else t

theorem Holds.makeRoom (h : t.Holds ms) (hids : (ms.map fun x => x.2.id).Nodup) (max : Nat) :
    (t.makeRoom max).Holds (without (t.evicted max) ms) := by
  unfold Topic.makeRoom Topic.evicted
  split
  · cases he : t.evictOldest with
    | none => simpa [without] using h
    | some res =>
      obtain ⟨m, t'⟩ := res
      simpa [without] using h.evictOldest hids he
  · simpa [without] using h

theorem fixed_makeRoom (max : Nat) (t : Topic) : (t.makeRoom max).fixed = t.fixed := by
  unfold makeRoom
  split
  · cases he : t.evictOldest with
    | none => rfl
    | some res => exact fixed_of_emptied (emptied_evictOldest he)
  · rfl

theorem makeRoom_subset (max : Nat) (t : Topic) : (t.makeRoom max).queued ⊆ t.queued := by
  unfold makeRoom
  split
  · cases he : t.evictOldest with
    | none => exact Subset.refl _
    | some res => exact fun m hm => (evictOldest_spec he).1.mem_iff.mpr (mem_cons_of_mem _ hm)
  · exact Subset.refl _

end Topic

/-! ## A push that hands nothing over -/

section Push

variable {now : Time} {b b' : Broker} {p : Push} {k : PushPc} {o : Outcome} {r : Ret} {t t' : Topic}

theorem Broker.lock_setTopic (h : b.lock i = some t) (hheld : t'.held = false) :
    ((b.setTopic i t').lock i).isSome = true := by
  simp [lock, setTopic, (lock_eq_some.mp h).1, hheld, Option.filter]

theorem PushPc.step_lock (h : k.step b p = some o) (hk : ∀ ch, k = .sendOwn ch → (b.lock p.t).isSome = true)
    (hnext : (∃ r, o.next = .ret r) ∨ ∃ ch, o.next = .goto (.push p (.sendOwn ch))) :
    (o.broker.lock p.t).isSome = true := by
  cases PushPc.steps h with
  | takeOwn hb =>
    obtain ⟨t, ht, hb⟩ := map_eq_some_iff.mp hb
    cases hb
    exact lock_setTopic ht (lock_eq_some.mp ht).2
  | popOwn hb | noneOwn hb =>
    obtain ⟨t, ht, hb⟩ := map_eq_some_iff.mp hb
    split at hb <;> cases hb
    first
    | exact isSome_iff_exists.mpr ⟨t, ht⟩
    | exact lock_setTopic ht (lock_eq_some.mp ht).2
  | fullOwn => exact hk _ rfl
  | remove hb =>
    obtain ⟨t, ht, rfl⟩ := map_eq_some_iff.mp hb
    exact lock_setTopic ht (Eq.trans (congrArg Topic.held (t.emptied_removeMessageByID _) :) (lock_eq_some.mp ht).2)
  | spied => cases hb : p.isBroadcast <;> simp [Outcome.goto, hb] at hnext
  | _ => simp [Outcome.goto] at hnext

/-- A push leaves the queues of its topic as they are, or takes one message
of its ID out. -/
theorem push_shape (h : Returns now b ⟨.push p .spies, []⟩ r b') : (b'.lock p.t).isSome = true ∧
      (b'.heap[p.t]?.map shape = b.heap[p.t]?.map shape ∨
        ∃ m, m.id = p.msg.id ∧ (b.queued p.t).Perm (m :: b'.queued p.t)) := by
  refine h.of_steps (Q := fun c => (c.lock p.t).isSome = true ∧ (c.heap[p.t]?.map shape =
      b.heap[p.t]?.map shape ∨ ∃ m, m.id = p.msg.id ∧ (b.queued p.t).Perm (m :: c.queued p.t)))
    (I := fun c pc => ∃ k, pc = .push p k ∧ c.heap[p.t]?.map shape = b.heap[p.t]?.map shape ∧
      ∀ ch, k = .sendOwn ch → (c.lock p.t).isSome = true) ⟨.spies, rfl, rfl, nofun⟩ ?_
  rintro c _ o ⟨k, rfl, hshape, hlock⟩ hs
  have hfree := PushPc.step_lock hs hlock
  by_cases hk : k = .remove
  · subst hk
    obtain ⟨b₁, hb₁, rfl⟩ := map_eq_some_iff.mp hs
    obtain ⟨t, ht, rfl⟩ := map_eq_some_iff.mp hb₁
    refine .inr ⟨⟨_, rfl⟩, hfree (.inl ⟨_, rfl⟩), ?_⟩
    have hqueued : b.queued p.t = t.queued := by
      have hmap := hshape.symm
      rw [(lock_eq_some.mp ht).1, map_some, map_eq_some_iff] at hmap
      obtain ⟨t₀, ht₀, hsame⟩ := hmap
      rw [Broker.queued, ht₀]
      exact queued_of_shape hsame
    rcases (t.removeMessageByID_spec p.msg.id).2 with ⟨hsame, -⟩ | ⟨m, hid, hperm⟩
    · left
      rw [← hshape]
      exact (setTopic_calm (r := p.t + 1) ht (by rw [hsame]) fun _ => by rw [hsame]).others p.t
        (Nat.ne_of_lt (Nat.lt_succ_self _))
    · right
      refine ⟨m, hid, ?_⟩
      rw [hqueued]
      show t.queued.Perm (m :: (c.setTopic p.t _).queued p.t)
      rwa [queued_setTopic ht, if_pos rfl]
  · have hcalm : Calm (p.t + 1) c o.broker := PushPc.step_calm hs fun he => absurd he hk
    have hsame := (hcalm.others p.t (Nat.ne_of_lt (Nat.lt_succ_self _))).trans hshape
    rcases PushPc.step_next hs with ⟨k', hgoto⟩ | hret
    · exact .inl ⟨_, hgoto, k', rfl, hsame, fun ch he => hfree (.inr ⟨ch, he ▸ hgoto⟩)⟩
    · exact .inr ⟨hret, hfree (.inl hret), .inl hsame⟩

end Push

section Publish

variable {now : Time} {b b' b₁ : Broker} {left : Nat} {p : PublishArgs} {m : Message} {t : TopicRef} {topic : Topic}

theorem Broker.store_topic (h : b.store t n priority isBroadcast m = some (none, b')) (ht : b.heap[t]? = some topic) :
    b'.heap[t]? = some ((topic.makeRoom b.limits.maxMessages).append priority m) := by
  obtain ⟨topic', hlock, hcase⟩ := store_cases h
  obtain rfl : topic = topic' := some.inj (ht.symm.trans (lock_eq_some.mp hlock).1)
  have hput : (b.logPut n isBroadcast m).heap = b.heap := heap_logPut ..
  have hset : ∀ b₁ : Broker, b₁.heap = b.heap →
      (b₁.setTopic t ((topic.makeRoom b.limits.maxMessages).append priority m)).heap[t]? =
        some ((topic.makeRoom b.limits.maxMessages).append priority m) := by
    intro b₁ hheap
    have hname : ((topic.makeRoom b.limits.maxMessages).append priority m).name = topic.name := by
      have hfixed := (fixed_of_emptied (emptied_append _ priority m)).trans (topic.fixed_makeRoom b.limits.maxMessages)
      exact congrArg Prod.fst hfixed
    have hlock₁ : b₁.lock t = some topic := by rw [lock, hheap]; exact hlock
    rw [getElem?_setTopic hlock₁ hname, if_pos rfl]
  cases hcase with
  | evicted _ hfull _ hev =>
    have hroom : topic.makeRoom b.limits.maxMessages = _ := if_pos hfull
    rw [hev] at hroom
    rw [← hset _ hput, hroom]
    rfl
  | kept _ hspace =>
    have hroom : topic.makeRoom b.limits.maxMessages = topic := if_neg (Nat.not_le.mpr hspace)
    rw [← hset _ hput, hroom]

/-- **What a publish leaves in its own topic**, if nobody takes the message:
the queues with room made and the message appended, and the lock free. -/
theorem getTopic_shape (h : Returns now b ⟨.publish left p .getTopic, []⟩ (.published (.ok m)) b')
    (hdeliver : m.deliverAt = none) (hfresh : ∀ x ∈ b.queue p.topicName, x.id ≠ m.id)
    (hm : m ∈ b'.queue p.topicName) : ∃ topic topic', (b.topic? p.topicName = some topic ∨
        b.topic? p.topicName = none ∧ topic = .create p.topicName b.defaultPolicy) ∧
      b'.topic? p.topicName = some topic' ∧ topic'.held = false ∧
      topic'.shape = ((topic.makeRoom b.limits.maxMessages).append (.ofString p.priority) m).shape := by
  obtain ⟨t, wildcards, b₁, had, hs, hcase⟩ := getTopic_stored h
  have hget : b.getOrCreateTopic p.topicName = (some t, (b.getOrCreateTopic p.topicName).2) := by
    rw [← had.topic]
  obtain ⟨topic, hheap, htopic⟩ := getOrCreateTopic_topic hget
  have hlookup : b'.topics.lookup p.topicName = some t := by
    rw [had.frame.topics]
    exact getOrCreateTopic_lookup hget
  have hqueue : b'.queue p.topicName = b'.queued t := by rw [Broker.queue, hlookup]; rfl
  have hlimits : (b.getOrCreateTopic p.topicName).2.limits = b.limits := (b.quiet_getOrCreateTopic _ []).limits
  obtain ⟨hd, -⟩ | ⟨-, h⟩ := hcase
  · simp [delayed, hdeliver] at hd
  have hstored := store_topic hs hheap
  rw [show ((b.getOrCreateTopic p.topicName).2.issue p).limits = b.limits from hlimits] at hstored
  obtain ⟨hlock, hpush⟩ := push_shape (b := b₁) h
  obtain ⟨topic', hlock⟩ := isSome_iff_exists.mp hlock
  obtain ⟨htopic', hheld⟩ := lock_eq_some.mp hlock
  refine ⟨topic, topic', htopic, by simp [Broker.topic?, hlookup, htopic'], hheld, ?_⟩
  rcases hpush with hshape | ⟨x, hid, hperm⟩
  · rw [htopic', hstored] at hshape
    exact some.inj hshape
  · -- The message that was taken out has the ID of `m`, which is still there.
    exfalso
    rw [hqueue] at hm
    have hold : topic.queued ⊆ b.queue p.topicName := by
      rw [queue_eq]
      rcases htopic with ht | ⟨-, rfl⟩
      · simp [ht]
      · simp [Topic.create, Topic.queued]
    have hqueued : b₁.queued t =
        ((topic.makeRoom b.limits.maxMessages).append (.ofString p.priority) m).queued := by
      rw [Broker.queued, hstored]
      rfl
    have htwo : (m :: (topic.makeRoom b.limits.maxMessages).queued).Perm (m :: x :: (b'.queued t).erase m) :=
      calc Perm (m :: (topic.makeRoom b.limits.maxMessages).queued) (b₁.queued t) := by
            rw [hqueued]
            exact (queued_append _ _ m).symm
        Perm _ (x :: b'.queued t) := hperm
        Perm _ (x :: m :: (b'.queued t).erase m) := (perm_cons_erase hm).cons x
        Perm _ (m :: x :: (b'.queued t).erase m) := .swap m x _
    have hx : x ∈ (topic.makeRoom b.limits.maxMessages).queued := htwo.cons_inv.mem_iff.mpr mem_cons_self
    exact hfresh x (hold (topic.makeRoom_subset _ hx)) hid

end Publish

/-! ## The log beside the queues -/

def LogStore.putIDs (es : List LogEntry) : List GoString := putKeys (es.map LogEntry.entry)

theorem LogStore.id_mem_putIDs (h : m ∈ replay es) : m.id ∈ putIDs es :=
  mem_putKeys_of_final (mem_replay.mp h)

section Log

variable {gone : List Message} {m : Message}

theorem replay_acks (es : List LogEntry) (ids : List GoString) :
    LogStore.replay (es ++ ids.map .ack) = (LogStore.replay es).filter fun x => x.id ∉ ids := by
  induction ids using reverseRecOn with
  | nil => simp
  | append_singleton ids id ih =>
    have hdel : KeyedLog.replay ((es ++ ids.map LogEntry.ack).map LogEntry.entry ++ [.del id]) =
        (KeyedLog.replay ((es ++ ids.map LogEntry.ack).map LogEntry.entry)).filter fun x => x.id ≠ id :=
      KeyedLog.replay_concat_del id_of_final id
    rw [LogStore.replay] at ih
    rw [ih, List.filter_filter] at hdel
    rw [map_append, ← append_assoc, LogStore.replay, map_append]
    refine hdel.trans (filter_congr fun x _ => ?_)
    rw [Bool.eq_iff_iff]
    simp [and_comm]

theorem putIDs_acks (es : List LogEntry) (ids : List GoString) : putIDs (es ++ ids.map .ack) = putIDs es := by
  induction ids using reverseRecOn with
  | nil => simp
  | append_singleton ids id ih =>
    rw [map_append, ← append_assoc, ← ih, putIDs, map_append]
    exact putKeys_concat_del _ _

theorem storeRecords_eq (m : Message) (gone : List Message) :
    storeRecords false m gone = [.put m] ++ (gone.map Message.id).map .ack := by
  simp [storeRecords, Function.comp_def]

theorem putIDs_stored (es : List LogEntry) (m : Message) (gone : List Message) :
    putIDs (es ++ storeRecords false m gone) = putIDs es ++ [m.id] := by
  rw [storeRecords_eq, ← append_assoc, putIDs_acks]
  simp [putIDs, LogEntry.entry]

/-- The records of a store take out of the log what was evicted and put the
message at its end. -/
theorem replay_stored (hm : m.id ∉ LogStore.putIDs es) (hgone : ∀ e ∈ gone, e.id ≠ m.id) :
    LogStore.replay (es ++ storeRecords false m gone) =
      ((LogStore.replay es).filter fun x => x.id ∉ gone.map Message.id) ++ [m] := by
  have hput : LogStore.replay (es ++ [.put m]) = LogStore.replay es ++ [m] := by
    simpa [LogStore.replay, LogEntry.entry] using replay_concat_put hm m
  have hkept : m.id ∉ gone.map Message.id := by
    intro hmem
    obtain ⟨e, he, hid⟩ := List.mem_map.mp hmem
    exact hgone e he hid
  rw [storeRecords_eq, ← append_assoc, replay_acks, hput, filter_append,
    filter_cons_of_pos (by simpa using hkept), filter_nil]

end Log

namespace Broker

variable {b b' : Broker} {n T : GoString} {ms : List (Priority × Message)} {max : Nat}

theorem Storing.log (h : b.Storing) (n : GoString) (e : LogEntry) : (b.log n e).Storing := by
  obtain ⟨s, hs, hout⟩ := h
  exact ⟨s.append n e, by rw [Broker.log, hs]; rfl, by rwa [outcome_append]⟩

theorem Storing.file_logs (h : b.Storing) (hsafe : isSafePath n = none) (es : List LogEntry) :
    (b.logs n es).file (logFilename n) = b.file (logFilename n) ++ es := by
  induction es generalizing b with
  | nil => exact (append_nil _).symm
  | cons e es ih =>
    have hone : (b.log n e).file (logFilename n) = b.file (logFilename n) ++ [e] := by
      obtain ⟨s, hs, hout⟩ := h
      have hw : s.Writable n := ⟨hsafe, hout _⟩
      simp [file, Broker.log, hs, file_append_of_writable hw]
    rw [show b.logs n (e :: es) = (b.log n e).logs n es from rfl, ih (h.log n e), hone]
    simp

/-- The queues of a topic and its log are those of messages with these
priorities, and no ID of them comes again. -/
structure Mirrored (b : Broker) (T : GoString) (max : Nat) (ms : List (Priority × Message)) : Prop where
  limit : b.limits.maxMessages = max
  storing : b.Storing
  grouped : b.Grouped T
  holds : ∀ t, b.topic? T = some t → t.Holds ms
  absent : b.topic? T = none → ms = []
  log : replay (b.file (logFilename T)) = ms.map Prod.snd
  unissued : ∀ k, b.uuids ≤ k → b.env.newUUID k ∉ putIDs (b.file (logFilename T))
  ids : (ms.map fun x => x.2.id).Nodup

theorem Mirrored.queue (h : b.Mirrored T max ms) : b.queue T = (byPriority ms).map Prod.snd := by
  rw [queue_eq]
  cases ht : b.topic? T with
  | none => rw [h.absent ht]; rfl
  | some t => exact (h.holds t ht).queued

theorem Mirrored.id_ne (h : b.Mirrored T max ms) (hx : x ∈ ms) : x.2.id ≠ b.env.newUUID b.uuids := by
  have hlive : x.2 ∈ replay (b.file (logFilename T)) := by
    rw [h.log]
    exact List.mem_map_of_mem hx
  exact ne_of_mem_of_not_mem (id_mem_putIDs hlive) (h.unissued _ (Nat.le_refl _))

theorem Mirrored.mem (h : b.Mirrored T max ms) (hm : m ∈ b.queue T) : ∃ x ∈ ms, x.2 = m := by
  rw [h.queue] at hm
  obtain ⟨x, hx, rfl⟩ := List.mem_map.mp hm
  exact ⟨x, Ranks.mem_of_mem_ranked hx, rfl⟩

theorem Mirrored.of_spares (h : b.Mirrored T max ms) (hs : b.Spares b' [n]) (hstoring : b'.Storing)
    (henv : b'.env = b.env)
    (huuids : b.uuids ≤ b'.uuids) (hn : logFilename T ≠ logFilename n) : b'.Mirrored T max ms := by
  have hname : T ∉ [n] := fun hm => hn (congrArg logFilename (mem_singleton.mp hm))
  have hshape := hs.others T hname
  have hfile : b'.file (logFilename T) = b.file (logFilename T) := hs.file _ (by simpa using hn)
  exact {
    limit := by rw [hs.limits]; exact h.limit
    storing := hstoring
    grouped := by unfold Grouped; rw [hs.bindings]; exact h.grouped
    holds := fun t ht => by
      rw [ht, map_some, eq_comm, map_eq_some_iff] at hshape
      obtain ⟨t₀, ht₀, he⟩ := hshape
      exact (h.holds t₀ ht₀).of_shape he.symm
    absent := fun ht => by
      rw [ht] at hshape
      exact h.absent (map_eq_none_iff.mp hshape.symm)
    log := by rw [hfile]; exact h.log
    unissued := fun k hk => by rw [hfile, henv]; exact h.unissued k (Nat.le_trans huuids hk)
    ids := h.ids }

end Broker

section Publishes

variable {now : Time} {b b' : Broker} {p : PublishArgs} {r : Ret} {m : Message} {n T : GoString}
  {ns : List GoString} {rs : List Ret} {ms : List (Priority × Message)} {left max : Nat}

theorem Tries.storing (h : Tries now p b r b') (hb : b.Storing) : b'.Storing := by
  cases h with
  | badName _ => exact hb
  | goes _ hret => exact hb.returns hret ⟨rfl, by simp, by simp⟩

theorem Tries.spares (h : Tries now p b r b') : b.Spares b' [p.topicName] ∧ b.Adds b' [p.topicName] ∧
    b'.env = b.env ∧ b.uuids ≤ b'.uuids := by
  obtain ⟨-, ⟨-, rfl⟩ | ⟨-, -, href⟩⟩ | ⟨-, -, t, m, -, had⟩ := tries_cases h
  · exact ⟨.refl _ _, .refl _ _, rfl, Nat.le_refl _⟩
  · exact ⟨href.spares, .of_frame href.frame, href.frame.env.trans (b.quiet_getOrCreateTopic _ []).env, href.uuids⟩
  · exact ⟨had.spares, .of_frame had.frame, had.env, by rw [had.uuids]; omega⟩

theorem Broker.Mirrored.tries (h : b.Mirrored T max ms) (ht : Tries now { p with topicName := n } b r b')
    (hn : logFilename T ≠ logFilename n) : b'.Mirrored T max ms :=
  h.of_spares ht.spares.1 (ht.storing h.storing) ht.spares.2.2.1 ht.spares.2.2.2 hn

theorem Broker.Mirrored.fans (h : b.Mirrored T max ms) (hf : Fans now p ns b rs b')
    (hns : ∀ n ∈ ns, logFilename T ≠ logFilename n) : b'.Mirrored T max ms := by
  induction hf with
  | nil => exact h
  | cons ht _ ih =>
    exact ih (h.tries ht (hns _ mem_cons_self)) fun n hn => hns n (mem_cons_of_mem _ hn)

theorem Fans.last (h : Fans now p (ns ++ [n]) b (rs ++ [r]) b') (hlen : rs.length = ns.length) :
    ∃ c, Fans now p ns b rs c ∧ Tries now { p with topicName := n } c r b' := by
  induction ns generalizing b rs with
  | nil =>
    obtain rfl := length_eq_zero_iff.mp hlen
    cases h with
    | cons ht hrest =>
      cases hrest
      exact ⟨b, .nil, ht⟩
  | cons n' ns ih =>
    obtain ⟨r', rs, rfl⟩ := exists_cons_of_length_eq_add_one hlen
    cases h with
    | cons ht hrest =>
      obtain ⟨c, hfans, hlast⟩ := ih hrest (by simpa using hlen)
      exact ⟨c, .cons ht hfans, hlast⟩

theorem Broker.Grouped.logs_apart (hg : b.Grouped T) (h : b.tried T = ns ++ [T]) :
    ∀ n ∈ ns, logFilename T ≠ logFilename n := by
  intro n hn he
  unfold tried at h
  split at h
  · simp at h
  · split at h
    · obtain rfl : ns = [] := by simpa using h.symm
      cases hn
    next hgroup =>
      obtain ⟨hns, -⟩ := append_inj' h rfl
      have hbound : n ∈ b.bindings T := (b.env.order_perm _ _).mem_iff.mp (hns ▸ hn)
      have hcolons := contains_iff.mp (hg.2 n hbound)
      rw [← colons_infix_topicToFilename, ← append_cancel_right he,
        colons_infix_topicToFilename] at hcolons
      exact hgroup (contains_iff.mpr hcolons)

/-- **One publish to the topic**: its message comes last, in its queue and in
the log, and what was evicted for it is gone from both. -/
theorem Broker.Mirrored.own (h : b.Mirrored p.topicName max ms) (hsafe : isSafePath p.topicName = none)
    (hcast : p.isBroadcast = false) (hret : Returns now b ⟨.publish left p .getTopic, []⟩ (.published (.ok m)) b')
    (hdeliver : m.deliverAt = none) (hm : m ∈ b'.queue p.topicName) : ∃ gone, (ms.length < max → gone = []) ∧
      b'.Mirrored p.topicName max (without gone ms ++ [(.ofString p.priority, m)]) ∧
      ∀ t, b'.topic? p.topicName = some t → t.held = false := by
  obtain ⟨-, ⟨e, he⟩, -⟩ | ⟨-, r, m', he, had⟩ := getTopic_cases hret
  · cases he
  cases he
  have hid : m.id = b.env.newUUID b.uuids := had.id
  have hfresh : ∀ x ∈ b.queue p.topicName, x.id ≠ m.id := by
    intro x hx
    obtain ⟨y, hy, rfl⟩ := h.mem hx
    rw [hid]
    exact h.id_ne hy
  obtain ⟨topic, topic', htopic, htopic', hheld, hshape⟩ := getTopic_shape hret hdeliver hfresh hm
  obtain ⟨-, hevicted, -⟩ := topic_facts htopic
  have hholds : topic.Holds ms := by
    rcases htopic with ht | ⟨ht, rfl⟩
    · exact h.holds topic ht
    · rw [h.absent ht]
      intro pr
      cases pr <;> rfl
  have hfile : b'.file (logFilename p.topicName) =
      b.file (logFilename p.topicName) ++ storeRecords false m (b.evicted p.topicName) := by
    rw [file_of_storage had.storage, hcast, h.storing.file_logs hsafe]
  have hnew : m.id ∉ putIDs (b.file (logFilename p.topicName)) := hid ▸ h.unissued _ (Nat.le_refl _)
  have hgone : ∀ e ∈ b.evicted p.topicName, e.id ≠ m.id := by
    intro e he
    obtain ⟨r, hr, hq⟩ := evicted_mem he
    exact hfresh e (by rw [Broker.queue, hr]; exact hq)
  refine ⟨b.evicted p.topicName, fun hroom => ?_, ?_, fun t ht => ?_⟩
  · rw [hevicted, Topic.evicted, hholds.length, h.limit, if_neg (Nat.not_le.mpr hroom)]
  · exact {
      limit := by rw [had.spares.limits]; exact h.limit
      storing := h.storing.returns hret ⟨rfl, by simp, by simp⟩
      grouped := by unfold Grouped; rw [had.spares.bindings]; exact h.grouped
      holds := fun t ht => by
        obtain rfl := some.inj (htopic'.symm.trans ht)
        rw [hevicted]
        exact ((hholds.makeRoom h.ids _).append _ m).of_shape hshape
      absent := fun ht => by cases htopic'.symm.trans ht
      log := by
        rw [hfile, replay_stored hnew hgone, h.log, List.filter_map, map_append]
        rfl
      unissued := fun k hk => by
        rw [hfile, putIDs_stored, had.env, mem_append, mem_singleton, hid]
        rw [had.uuids] at hk
        rintro (hold | heq)
        · exact h.unissued k (by omega) hold
        · have := b.env.newUUID_inj heq
          omega
      ids := by
        rw [map_append]
        refine Nodup.append (h.ids.sublist (filter_sublist.map _)) (nodup_singleton _) ?_
        refine disjoint_singleton.mpr fun hmem => ?_
        obtain ⟨x, hx, he⟩ := List.mem_map.mp hmem
        exact h.id_ne (mem_filter.mp hx).1 (he.trans hid) }
  · obtain rfl := some.inj (htopic'.symm.trans ht)
    exact hheld

/-- Publishes to a topic that succeed, one after the other: no broadcast, no
expiry, no delay, and every message is in the queue when its call returns. -/
inductive Publishes (T : GoString) (b₀ : Broker) : List (Priority × Message) → Broker → Prop
  | nil : Publishes T b₀ [] b₀
  | snoc {now : Time} {p : PublishArgs} {m : Message} {ms : List (Priority × Message)} {b b' : Broker} :
      Publishes T b₀ ms b → p.topicName = T → p.isBroadcast = false → m.expiresAt = none → m.deliverAt = none →
      Returns now b (Op.publish p).entry (.published (.ok m)) b' → m ∈ b'.queue T →
      Publishes T b₀ (ms ++ [(.ofString p.priority, m)]) b'

/-- **One `Publish`**, with those for the groups that come first. -/
theorem Broker.Mirrored.publish (h : b.Mirrored p.topicName max ms) (hsafe : isSafePath p.topicName = none)
    (hcast : p.isBroadcast = false) (hret : Returns now b (Op.publish p).entry (.published (.ok m)) b')
    (hdeliver : m.deliverAt = none) (hm : m ∈ b'.queue p.topicName) : ∃ gone, (ms.length < max → gone = []) ∧
      b'.Mirrored p.topicName max (without gone ms ++ [(.ofString p.priority, m)]) ∧
      ∀ t, b'.topic? p.topicName = some t → t.held = false := by
  obtain ⟨-, ⟨e, he⟩, -⟩ | ⟨ranges, rs, ns, htried, hlen, hfans⟩ := publish_fans h.grouped hret
  · cases he
  obtain ⟨c, hgroups, hlast⟩ := hfans.last hlen
  have h₀ : Mirrored { b with ranges } p.topicName max ms :=
    ⟨h.limit, h.storing, h.grouped, h.holds, h.absent, h.log, h.unissued, h.ids⟩
  have hc : c.Mirrored p.topicName max ms := h₀.fans hgroups (h.grouped.logs_apart htried)
  cases hlast with
  | goes _ hgoes => exact hc.own hsafe hcast hgoes hdeliver hm

/-- A topic that has no messages, in its queues or in its log, and whose lock
is free. -/
structure Broker.Blank (b : Broker) (T : GoString) : Prop where
  queue : b.queue T = []
  recovered : ∀ s, b.storage = some s → s.recovered T = []
  unissued : ∀ k, b.uuids ≤ k → b.env.newUUID k ∉ putIDs (b.file (logFilename T))
  free : ∀ t, b.topic? T = some t → t.held = false

theorem Broker.Blank.mirrored (h : b.Blank T) (hstoring : b.Storing) (hg : b.Grouped T)
    (hsafe : isSafePath T = none) : b.Mirrored T b.limits.maxMessages [] where
  limit := rfl
  storing := hstoring
  grouped := hg
  holds t ht pr := by
    have hnil : t.queued = [] := by simpa [queue_eq, ht] using h.queue
    simp only [Topic.queued, append_eq_nil_iff] at hnil
    cases pr <;> simp [Topic.slot, hnil]
  absent _ := rfl
  log := by
    obtain ⟨s, hs, -⟩ := hstoring
    have hnone := h.recovered s hs
    rw [recovered_of_safe hsafe, source_eq] at hnone
    rw [file, hs, map_some, getD_some]
    split at hnone
    · exact hnone
    next hfile => rw [LogStore.file, AList.lookup_eq_none.mpr hfile]; rfl
  unissued := h.unissued
  ids := nodup_nil

/-- A restart reads what the log of the topic has, unless there is no log. -/
theorem Broker.Mirrored.recovered {s} (h : b.Mirrored T max ms) (hsafe : isSafePath T = none)
    (hs : b.storage = some s) (hne : ms ≠ []) : s.recovered T = ms.map Prod.snd := by
  have hfile : b.file (logFilename T) = s.file (logFilename T) := by rw [file, hs]; rfl
  rw [← h.log, hfile, recovered_of_safe hsafe, source_eq, if_pos]
  -- A file that is not there has no records.
  by_contra hnot
  have hnil := h.log
  rw [hfile, LogStore.file, AList.lookup_eq_none.mpr hnot] at hnil
  exact hne (map_eq_nil_iff.mp hnil.symm)

/-- **After a run of publishes** the topic and its log have the same messages,
all of them as long as there was room. -/
theorem Publishes.mirrored (h : Publishes T b₀ ms b) (hsafe : isSafePath T = none)
    (hstoring : b₀.Storing) (hg : b₀.Grouped T) (h₀ : b₀.Blank T) :
    ∃ live, b.Mirrored T b₀.limits.maxMessages live ∧ live.Sublist ms ∧
      (ms.length ≤ b₀.limits.maxMessages → live = ms) ∧
      (∀ s, b.storage = some s → s.recovered T = live.map Prod.snd) ∧ ∀ t, b.topic? T = some t → t.held = false := by
  induction h with
  | nil => exact ⟨[], h₀.mirrored hstoring hg hsafe, .refl _, fun _ => rfl, h₀.recovered, h₀.free⟩
  | @snoc now p m ms b b' hp hT hcast _ hdeliver hret hm ih =>
    subst hT
    obtain ⟨live, hmirror, hsub, hall, -, -⟩ := ih
    obtain ⟨gone, hgone, hmirror', hfree⟩ := hmirror.publish hsafe hcast hret hdeliver hm
    refine ⟨_, hmirror', (filter_sublist.trans hsub).append (.refl _), fun hlen => ?_,
      fun s hs => hmirror'.recovered hsafe hs (by simp), hfree⟩
    rw [length_append, length_singleton] at hlen
    have hlive := hall (by omega)
    rw [hgone (by rw [hlive]; omega), hlive]
    simp [without]

theorem Publishes.lasting (h : Publishes T b₀ ms b) : ∀ x ∈ ms, x.2.expiresAt = none ∧ x.2.deliverAt = none := by
  induction h with
  | nil => nofun
  | snoc _ _ _ hexpires hdeliver _ _ ih =>
    intro x hx
    rcases mem_append.mp hx with hx | hx
    · exact ih x hx
    · rw [mem_singleton.mp hx]
      exact ⟨hexpires, hdeliver⟩

end Publishes

/-! ## What `Consume` returns -/

namespace Topic

/-- **Extraction takes the first messages**, where all are ready. -/
theorem extractMessages_ready (t : Topic) (now : Time) (limit : Nat)
    (h : ∀ m ∈ t.queued, m.expired now = false ∧ m.delayed now = false) :
    ∃ t', t.extractMessages limit now = (t.queued.take limit, [], t') ∧ t'.queued = t.queued.drop limit ∧
      t'.name = t.name ∧ t'.held = t.held := by
  obtain ⟨⟨results, expiredIDs, t'⟩, hx⟩ : ∃ x, t.extractMessages limit now = x := ⟨_, rfl⟩
  obtain ⟨seen, rest, hq, hq', hr, he, hmax, hroom⟩ := extractMessages_cut hx
  have hsent : ∀ p, sentTo p now seen = if p = .result then seen else [] := by
    intro p
    have hplace : ∀ m ∈ seen, place now m = .result := fun m hm => place_eq_result.mpr (h m (by simp [hq, hm]))
    split
    next hp => exact filter_eq_self.mpr fun m hm => by simp [hp, hplace m hm]
    next hp => exact filter_eq_nil_iff.mpr fun m hm => by simp [hplace m hm, Ne.symm hp]
  simp only [hsent, reduceCtorEq, if_true, if_false, map_nil, nil_append] at hr he hq'
  subst hr he
  have hcut : t.queued.take limit = results ∧ t.queued.drop limit = rest := by
    rw [hq]
    rcases Nat.lt_or_ge results.length limit with hlt | hge
    · simp [hroom hlt, hmax]
    · simp [Nat.le_antisymm hmax hge]
  exact ⟨t', by rw [hcut.1, hx], by rw [hcut.2, hq'], congrArg (·.2.2.name) hx.symm, congrArg (·.2.2.held) hx.symm⟩

end Topic

theorem Returns.unique (h : Returns now b c r b') (h' : Returns now b c r' b'') : r' = r ∧ b'' = b' := by
  induction h with
  | done hs hr =>
    cases h' with
    | done hs' hr' =>
      obtain rfl := some.inj (hs.symm.trans hs')
      cases hr.symm.trans hr'
      exact ⟨rfl, rfl⟩
    | next hs' hr' _ =>
      obtain rfl := some.inj (hs.symm.trans hs')
      cases hr.symm.trans hr'
  | next hs hr _ ih =>
    cases h' with
    | done hs' hr' =>
      obtain rfl := some.inj (hs.symm.trans hs')
      cases hr.symm.trans hr'
    | next hs' hr' hrest =>
      obtain rfl := some.inj (hs.symm.trans hs')
      cases hr.symm.trans hr'
      exact ih hrest

/-- A `Consume` of a topic: the time, the limit and the channel. -/
structure ConsumeCall where
  now : Time
  limit : Nat
  notifyChan : Chan

/-- `Consume` is called again and again, with these results. -/
inductive Consumes (T : GoString) : Broker → List ConsumeCall → List Ret → Prop
  | nil {b} : Consumes T b [] []
  | cons {b b'} {c : ConsumeCall} {calls r rs} :
      Returns c.now b (Op.consume ⟨T, c.limit, c.notifyChan⟩).entry r b' → Consumes T b' calls rs →
      Consumes T b (c :: calls) (r :: rs)

/-- The results if a sequence of messages is returned, from the first on. -/
def inTurn : List Message → List ConsumeCall → List Ret
  | _, [] => []
  | queue, c :: calls => consumed (queue.take c.limit) :: inTurn (queue.drop c.limit) calls

/-- After a restart `Consume` returns what it would have returned without. -/
def SameOrder (T : GoString) (b b' : Broker) : Prop := ∀ calls rs, Consumes T b calls rs ↔ Consumes T b' calls rs

/-- The lock of a topic is free, and nothing in it expires or is delayed. -/
structure Broker.Ready (b : Broker) (T : GoString) : Prop where
  free : ∀ t, b.topic? T = some t → t.held = false
  lasting : ∀ m ∈ b.queue T, m.expiresAt = none ∧ m.deliverAt = none

section Consume

variable {now : Time} {b b' : Broker} {T : GoString} {rs : List Ret}

theorem Accepted.valid_name (h : Accepted T) : isValidTopicName T = true ∧ contains T (ascii "*") = false := by
  refine ⟨(isValidTopicName_iff h.1).mpr ((isSafePath_eq_none_iff h.1).mp h.2).1, ?_⟩
  rw [Bool.eq_false_iff]
  intro hstar
  exact not_mem_of_validTopicRegex h.1 (d := 42) (by decide) ((contains_iff.mp hstar).subset (by decide))

/-- **One `Consume`** returns the first messages of the queue and leaves the
others. -/
theorem Broker.Ready.consume (hT : Accepted T) (h : b.Ready T) (now : Time) (limit : Nat) (ch : Chan) :
    ∃ b', Returns now b (Op.consume ⟨T, limit, ch⟩).entry (consumed ((b.queue T).take limit)) b' ∧ b'.Ready T ∧
      b'.queue T = (b.queue T).drop limit := by
  obtain ⟨hvalid, hstar⟩ := hT.valid_name
  rcases hget : b.getOrCreateTopic T with ⟨_ | r, b₁⟩
  · -- There is no room for the topic, so it has no messages.
    have hnone : (b.getOrCreateTopic T).1 = none := by rw [hget]
    obtain rfl : b₁ = b := by simpa [hget] using getOrCreateTopic_none hnone
    have hqueue : b₁.queue T = [] := by
      cases hl : b₁.topics.lookup T with
      | none => rw [queue, hl]; rfl
      | some r => simp [getOrCreateTopic, hl] at hget
    rw [hqueue, take_nil, drop_nil]
    refine ⟨b₁, (returns_ret (o := .ret b₁ (.consumed none)) ?_ rfl).mpr ⟨rfl, rfl⟩, h, hqueue⟩
    simp [Pc.step, ConsumePc.step, hvalid, hget]
  · obtain ⟨topic, hheap, htopic⟩ := getOrCreateTopic_topic hget
    have hqueue : b.queue T = topic.queued := by
      rw [queue_eq]
      rcases htopic with ht | ⟨ht, rfl⟩ <;> rw [ht] <;> rfl
    have hheld : topic.held = false := by
      rcases htopic with ht | ⟨-, rfl⟩
      · exact h.free topic ht
      · rfl
    have hlock : b₁.lock r = some topic := lock_eq_some.mpr ⟨hheap, hheld⟩
    obtain ⟨t', hx, hdrop, hname, hheld'⟩ := topic.extractMessages_ready now limit fun m hm => by
      obtain ⟨hexp, hdel⟩ := h.lasting m (hqueue ▸ hm)
      simp [expired, delayed, hexp, hdel]
    obtain ⟨t₁, ht₁⟩ : ∃ t₁, t₁ = if (topic.queued.take limit).isEmpty then
      { t' with waitingConsumers := t'.waitingConsumers ++ [ch] } else t' := ⟨_, rfl⟩
    have hsame : t₁.queued = topic.queued.drop limit ∧ t₁.name = topic.name ∧ t₁.held = false := by
      rw [ht₁, ← hdrop, ← hname, ← hheld, ← hheld']
      split <;> exact ⟨rfl, rfl, rfl⟩
    have htarget : Pc.step now b₁ (.consume ⟨T, limit, ch⟩ (.target r)) = some ⟨b₁.setTopic r t₁,
        .goto (.consume ⟨T, limit, ch⟩ (.targetAck (topic.queued.take limit) topic.name [])),
        (topic.queued.take limit).map fun m => (ch, m)⟩ := by
      simp only [Pc.step, ConsumePc.step, extractTarget, hlock, map_some, hx, ht₁]
    have htopic' : (b₁.setTopic r t₁).topic? T = some t₁ := by
      have hlookup : b₁.topics.lookup T = some r := getOrCreateTopic_lookup hget
      show ((b₁.topics.lookup T).bind fun i => (b₁.setTopic r t₁).heap[i]?) = some t₁
      rw [hlookup, bind_some, getElem?_setTopic hlock hsame.2.1, if_pos rfl]
    have hleft : (b₁.setTopic r t₁).queue T = (b.queue T).drop limit := by
      rw [queue_eq, htopic', hqueue]
      exact hsame.1
    refine ⟨b₁.setTopic r t₁, ?_, ⟨fun t ht => ?_, fun m hm => ?_⟩, hleft⟩
    · rw [hqueue]
      exact (consume_target hvalid hstar hget).mpr ((returns_goto htarget rfl).mpr
        ((returns_ret (o := .ret _ _) rfl rfl).mpr ⟨rfl, rfl⟩))
    · rw [← some.inj (htopic'.symm.trans ht)]
      exact hsame.2.2
    · rw [hleft] at hm
      exact h.lasting m (mem_of_mem_drop hm)

theorem Broker.Ready.consumes_iff (hT : Accepted T) (h : b.Ready T) :
    Consumes T b calls rs ↔ rs = inTurn (b.queue T) calls := by
  induction calls generalizing b rs with
  | nil =>
    constructor
    · rintro ⟨⟩; rfl
    · rintro rfl; exact .nil
  | cons c calls ih =>
    obtain ⟨b', hret, hready, hleft⟩ := h.consume hT c.now c.limit c.notifyChan
    constructor
    · rintro (_ | ⟨hret', hrest⟩)
      obtain ⟨rfl, rfl⟩ := hret.unique hret'
      rw [(ih hready).mp hrest, hleft]
      rfl
    · rintro rfl
      refine .cons hret ((ih hready).mpr ?_)
      rw [hleft]

theorem consumed_injective : Function.Injective consumed := by
  intro l l' h
  cases l <;> cases l' <;> simp_all [consumed]

theorem sameOrder_iff (hT : Accepted T) (h : b.Ready T) (h' : b'.Ready T) :
    SameOrder T b b' ↔ b.queue T = b'.queue T := by
  constructor
  · intro hsame
    -- One call that takes all there is.
    have hall := hsame [⟨0, max (b.queue T).length (b'.queue T).length, 0⟩]
    have hrs := ((h'.consumes_iff hT).mp ((hall _).mp ((h.consumes_iff hT).mpr rfl)))
    simp only [inTurn, cons.injEq, and_true] at hrs
    have htake := consumed_injective hrs
    rwa [take_of_length_le (Nat.le_max_left _ _), take_of_length_le (Nat.le_max_right _ _)] at htake
  · intro hq calls rs
    rw [h.consumes_iff hT, h'.consumes_iff hT, hq]

end Consume

/-! ## The restart -/

namespace Broker

variable {b : Broker} {T : GoString} {names : List GoString}

theorem loadExistingTopics_free (h : ∀ t ∈ b.heap, t.held = false) (names : List GoString) :
    ∀ t ∈ (b.loadExistingTopics names).heap, t.held = false := by
  induction names generalizing b with
  | nil => exact h
  | cons name names ih =>
    refine ih (b := b.loadTopic name) ?_
    have hbind := (b.bindLoaded_topics name).2.1
    unfold loadTopic
    dsimp only
    split
    · intro t ht
      rcases mem_append.mp (show t ∈ (b.bindLoaded name).heap ++ [_] from ht) with ht | ht
      · exact h t (hbind ▸ ht)
      · rw [mem_singleton.mp ht]
        rfl
    · intro t ht
      exact h t (hbind ▸ ht)

theorem ready_loadExistingTopics {s : LogStore} {limits policy hooked env}
    {chans : Chan → Channel} (hT : Accepted T) (hnames : T ∈ names)
    (hlasting : ∀ m ∈ s.recovered T, m.expiresAt = none ∧ m.deliverAt = none) :
    ((new limits policy hooked (some s) env chans).loadExistingTopics names).queue T = s.recovered T ∧
      ((new limits policy hooked (some s) env chans).loadExistingTopics names).Ready T := by
  obtain ⟨hqueue, -⟩ := loadExistingTopics_of_mem (b := new limits policy hooked (some s) env chans)
    rfl hT.2 hnames
  refine ⟨hqueue, fun t ht => ?_, by rwa [hqueue]⟩
  obtain ⟨r, -, hr⟩ := bind_eq_some_iff.mp ht
  exact loadExistingTopics_free (b := new limits policy hooked (some s) env chans) nofun names t
    (mem_of_getElem? hr)

end Broker

/-- **Which publishes a restart keeps in order**: those of high priority come
first, then the normal ones, then the low ones. As long as nothing had to be
evicted, any others are returned in another order than without the restart,
which is by priority. -/
theorem restart_order_iff {T : GoString} {ms : List (Priority × Message)} {b₀ b : Broker} {s : LogStore}
    {limits : Limits} {policy : Policy} {hooked : Bool} {env : Env} {chans : Chan → Channel} {names : List GoString}
    (hT : Accepted T) (hstoring : b₀.Storing) (hg : b₀.Grouped T) (hblank : b₀.Blank T) (h : Publishes T b₀ ms b)
    (hs : b.storage = some s) (hnames : T ∈ names) : (ms.Pairwise (fun x y => x.1.rank ≤ y.1.rank) →
        SameOrder T b ((new limits policy hooked (some s) env chans).loadExistingTopics names)) ∧
      (ms.length ≤ b₀.limits.maxMessages →
        (SameOrder T b ((new limits policy hooked (some s) env chans).loadExistingTopics names) →
          ms.Pairwise fun x y => x.1.rank ≤ y.1.rank) ∧
        ∀ calls rs, Consumes T b calls rs ↔ rs = inTurn ((byPriority ms).map Prod.snd) calls) := by
  obtain ⟨live, hmirror, hsub, hall, hrecovered, hfree⟩ := h.mirrored hT.2 hstoring hg hblank
  have hlasting : ∀ x ∈ live, x.2.expiresAt = none ∧ x.2.deliverAt = none := fun x hx =>
    h.lasting x (hsub.subset hx)
  have hready : b.Ready T := by
    refine ⟨hfree, fun m hm => ?_⟩
    obtain ⟨x, hx, rfl⟩ := hmirror.mem hm
    exact hlasting x hx
  have hlasting' : ∀ m ∈ s.recovered T, m.expiresAt = none ∧ m.deliverAt = none := by
    intro m hm
    rw [hrecovered s hs] at hm
    obtain ⟨x, hx, rfl⟩ := List.mem_map.mp hm
    exact hlasting x hx
  obtain ⟨hqueue, hready'⟩ :
      ((new limits policy hooked (some s) env chans).loadExistingTopics names).queue T = s.recovered T ∧
        ((new limits policy hooked (some s) env chans).loadExistingTopics names).Ready T :=
    ready_loadExistingTopics hT hnames hlasting'
  -- The restart keeps the order exactly if the queue is in the order of the log.
  have hiff : SameOrder T b ((new limits policy hooked (some s) env chans).loadExistingTopics names) ↔
      live.Pairwise fun x y => x.1.rank ≤ y.1.rank := by
    have hnodup : (live.map Prod.snd).Nodup := .of_map Message.id (by rw [List.map_map]; exact hmirror.ids)
    rw [sameOrder_iff hT hready hready', hqueue, hrecovered s hs, hmirror.queue]
    exact Ranks.map_ranked_eq_iff (by decide) (fun x _ => rank_mem x) hnodup
  refine ⟨fun hsorted => hiff.mpr (hsorted.sublist hsub), fun hlen => ⟨fun hsame => ?_, fun calls rs => ?_⟩⟩
  · rw [← hall hlen]
    exact hiff.mp hsame
  · rw [hready.consumes_iff hT, hmirror.queue, hall hlen]

/-! ### Two publishes -/

def secondMessage : Message := { firstMessage with id := Env.sample.newUUID 1 }

def highPublish : PublishArgs := { samplePublish with priority := ascii "high" }

theorem sample_blank : sample.Blank (ascii "t") where
  queue := rfl
  recovered s hs := by cases hs; rfl
  unissued k _ := not_mem_nil
  free t ht := by cases ht

theorem sample_storing : sample.Storing := ⟨.sample, rfl, fun _ => rfl⟩

theorem sample_grouped : sample.Grouped (ascii "t") := ⟨nodup_nil, nofun⟩

theorem sample_publishes : Publishes (ascii "t") .sample [] .sample := .nil

theorem Publishes.run (h : Publishes T b₀ ms b) (p : PublishArgs) (m : Message)
    (hp : p.topicName = T ∧ p.isBroadcast = false) (hlasting : m.expiresAt = none ∧ m.deliverAt = none)
    (hret : (Call.run 0 40 b (Op.publish p).entry).map Prod.fst = some (.published (.ok m)))
    (hm : m ∈ (b.after 0 (.publish p)).queue T) :
    Publishes T b₀ (ms ++ [(.ofString p.priority, m)]) (b.after 0 (.publish p)) :=
  .snoc h hp.1 hp.2 hlasting.1 hlasting.2 (returns_after hret) hm

/-- A normal message and then a high one: the high one is returned first, and
after a restart the normal one. -/
theorem restart_reorders : ∃ b s,
    Publishes (ascii "t") .sample [(.normal, firstMessage), (.high, secondMessage)] b ∧ b.storage = some s ∧
    Consumes (ascii "t") b [⟨0, 2, 0⟩] [.consumed (some [secondMessage, firstMessage])] ∧
    Consumes (ascii "t") (.restart ⟨10, 10, by decide, by decide⟩ .reject false s .sample fun _ => ⟨1, []⟩) [⟨0, 2, 0⟩]
      [.consumed (some [firstMessage, secondMessage])] := by
  have hone := sample_publishes.run samplePublish firstMessage ⟨rfl, rfl⟩ ⟨rfl, rfl⟩ (by decide +kernel)
    (by decide +kernel)
  have htwo := hone.run highPublish secondMessage ⟨rfl, rfl⟩ ⟨rfl, rfl⟩ (by decide +kernel) (by decide +kernel)
  exact ⟨_, _, htwo, (some_get (by decide +kernel)).symm, .cons returns_after .nil,
    .cons returns_after .nil⟩

theorem restart_order_sample : ∃ b s,
    Publishes (ascii "t") .sample [(.high, firstMessage), (.normal, secondMessage)] b ∧ b.storage = some s ∧
    SameOrder (ascii "t") b ((new ⟨10, 10, by decide, by decide⟩ .reject false (some s) .sample
      fun _ => ⟨1, []⟩).loadExistingTopics [ascii "t"]) := by
  have hone := sample_publishes.run highPublish firstMessage ⟨rfl, rfl⟩ ⟨rfl, rfl⟩ (by decide +kernel)
    (by decide +kernel)
  have htwo := hone.run samplePublish secondMessage ⟨rfl, rfl⟩ ⟨rfl, rfl⟩ (by decide +kernel) (by decide +kernel)
  exact ⟨_, _, htwo, (some_get (by decide +kernel)).symm, (restart_order_iff (by decide) sample_storing sample_grouped
    sample_blank htwo (some_get _).symm mem_cons_self).1 (by decide)⟩

end TinyMQ
