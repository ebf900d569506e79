/-
The ring buffer of a `drop-oldest` topic and its log.

A publish to a full topic evicts the oldest message of the lowest priority;
its put, the eviction, an `Ack` and the sweep for expired messages each
write to the log. `ring_buffer_agrees` says that over any run of them the
queues stay within their limit and hold the messages `LoadMessages` finds,
as long as every record can be read back.
-/
import TinyMQ.Legacy
import TinyMQ.Patterns
import TinyMQ.Reordering

namespace TinyMQ

open List Option Broker Topic AList LogStore Utf8

/-! ## A topic nobody waits for -/

/-- Nobody waits at the topic, or at a pattern that matches it. -/
def Broker.Unattended (b : Broker) (T : GoString) : Prop :=
  ∀ n r, b.topics.lookup n = some r → nameMatches n T = true → b.waiting r = []

/-- A push that has not found a consumer yet. -/
def PushPc.Idle (ws : List TopicRef) : PushPc → Prop
  | .wildSpies rest => rest ⊆ ws
  | .popWild rest => rest ⊆ ws
  | .takeWild rest _ => rest ⊆ ws
  | .spies => True
  | .popOwn => True
  | .takeOwn _ => True
  | _ => False

/-- Nobody waits where a push looks for consumers. -/
def Broker.Deserted (b : Broker) (p : Push) : Prop := b.waiting p.t = [] ∧ ∀ w ∈ p.matchingWildcards, b.waiting w = []

section Push

variable {now : Time} {b b' : Broker} {p : Push} {k : PushPc} {o : Outcome} {x : Ret} {i : TopicRef}

theorem Broker.heap_takeWaiting (h : b.takeWaiting i = some (chs, b')) (hw : b.waiting i = []) :
    b'.heap = b.heap := by
  obtain ⟨t, ht, hb'⟩ := map_eq_some_iff.mp h
  cases hb'
  have hsame : { t with waitingConsumers := [] } = t := by
    rw [waiting_of_lock ht] at hw
    rw [← hw]
  rw [hsame]
  exact heap_setTopic_self ht

theorem Broker.popWaiting_nil {ch} (h : b.popWaiting i = some (ch, b')) (hw : b.waiting i = []) :
    ch = none ∧ b' = b := by
  obtain ⟨t, ht, hb'⟩ := map_eq_some_iff.mp h
  rw [waiting_of_lock ht] at hw
  rw [hw] at hb'
  cases hb'
  exact ⟨rfl, rfl⟩

theorem PushPc.step_idle (h : k.step b p = some o) (hk : k.Idle p.matchingWildcards) (hw : b.Deserted p) :
    o.broker.heap = b.heap ∧
      ((∃ x, o.next = .ret x) ∨ ∃ k', o.next = .goto (.push p k') ∧ k'.Idle p.matchingWildcards) := by
  have hhead : ∀ {w rest}, w :: rest ⊆ p.matchingWildcards → b.waiting w = [] ∧ rest ⊆ p.matchingWildcards :=
    fun hsub => ⟨hw.2 _ (hsub mem_cons_self), fun _ hx => hsub (mem_cons_of_mem _ hx)⟩
  cases PushPc.steps h with
  | spies hb =>
    obtain ⟨t, -, rfl⟩ := map_eq_some_iff.mp hb
    exact ⟨(heap_sendSpies ..).1, .inr ⟨_, rfl, Subset.refl _⟩⟩
  | wildSpy hb =>
    obtain ⟨t, -, rfl⟩ := map_eq_some_iff.mp hb
    exact ⟨(heap_sendSpies ..).1, .inr ⟨_, rfl, (hhead hk).2⟩⟩
  | spied =>
    refine ⟨rfl, .inr ⟨_, rfl, ?_⟩⟩
    split <;> exact Subset.refl _
  | tookWild | poppedWild => exact ⟨rfl, .inr ⟨_, rfl, trivial⟩⟩
  | takeWild hb => exact ⟨heap_takeWaiting hb (hhead hk).1, .inr ⟨_, rfl, (hhead hk).2⟩⟩
  | @takeOwn _ _ b' hb =>
    have hheap : b'.heap = b.heap := heap_takeWaiting hb hw.1
    exact ⟨hheap, .inl ⟨_, rfl⟩⟩
  | popWild hb => cases (popWaiting_nil hb (hhead hk).1).1
  | popOwn hb => cases (popWaiting_nil hb hw.1).1
  | noneWild hb => exact ⟨by rw [← (popWaiting_spec hb).1]; rfl, .inr ⟨_, rfl, (hhead hk).2⟩⟩
  | noneOwn hb => exact ⟨by rw [← (popWaiting_spec hb).1]; rfl, .inl ⟨_, rfl⟩⟩
  | sentWild | fullWild | holdWild | sentOwn | fullOwn | remove => exact hk.elim

/-- **A push that finds nobody** leaves every topic as it is. -/
theorem push_deserted (h : Returns now b ⟨.push p .spies, []⟩ x b') (hw : b.Deserted p) : b'.heap = b.heap := by
  refine h.of_steps (Q := fun c => c.heap = b.heap)
    (I := fun c pc => c.heap = b.heap ∧ ∃ k, pc = .push p k ∧ k.Idle p.matchingWildcards) ⟨rfl, .spies, rfl, trivial⟩ ?_
  rintro c _ o ⟨hheap, k, rfl, hk⟩ hs
  have hwc : c.Deserted p := by
    unfold Deserted waiting
    rw [hheap]
    exact hw
  obtain ⟨hsame, hret | ⟨k', hnext, hk'⟩⟩ := PushPc.step_idle hs hk hwc
  · exact .inr ⟨hret, hsame.trans hheap⟩
  · exact .inl ⟨_, hnext, hsame.trans hheap, k', rfl, hk'⟩

end Push

/-! ## A publish to the topic -/

section Own

variable {now : Time} {b b' : Broker} {p : PublishArgs} {x : Ret} {r : TopicRef} {t : Topic} {left : Nat}

theorem Broker.Unattended.deserted {T} (h : b.Unattended T) (hc : b.Compiled) (hl : b.topics.lookup T = some r)
    (hplain : ¬ ascii "*" <:+: T) (m : Message) (isBroadcast : Bool) :
    b.Deserted ⟨r, m, (b.matchingWildcards T).1, isBroadcast⟩ := by
  refine ⟨h T r hl ((nameMatches_plain hplain).mpr rfl), fun w hw => ?_⟩
  obtain ⟨n, hn⟩ := wildcard_of_matching hw
  exact h n w (b.wildcards_ok hn).1 ((mem_matchingWildcards hc hn).mp hw)

/-- **A publish to a `drop-oldest` topic nobody waits for**: the hook refuses
it, or room is made and the message is appended. -/
theorem own_publish (hl : b.topics.lookup p.topicName = some r) (ht : b.heap[r]? = some t)
    (hpolicy : t.policy = .dropOldest ∧ t.deleted = false) (hc : b.Compiled) (hplain : ¬ ascii "*" <:+: p.topicName)
    (hw : b.Unattended p.topicName) (h : Returns now b ⟨.publish left p .getTopic, []⟩ x b') :
    (∃ e, x = .published (.error e) ∧ b' = b.issue p) ∨ ∃ m, x = .published (.ok m) ∧
        b'.heap[r]? = some ((t.makeRoom b.limits.maxMessages).append (.ofString p.priority) m) := by
  have hget : b.getOrCreateTopic p.topicName = (some r, b) := by simp [getOrCreateTopic, hl]
  rw [returns_goto (o := .goto b _) (by simp only [Pc.step, PublishPc.step, hget]; rfl) rfl] at h
  replace h := (locate_steps now left p ht).mp h
  cases hhook : b.hookError p with
  | some e =>
    rw [hhook] at h
    exact .inl ⟨e, h⟩
  | none =>
    rw [hhook] at h
    dsimp only at h
    generalize p.message (b.env.newUUID b.uuids) t.retention now = m at h
    obtain ⟨err, b₁, hs, hcase⟩ := store_inv h
    obtain ⟨t₀, ht₀, herr⟩ := store_isOpen hs
    obtain rfl : t = t₀ := some.inj (ht.symm.trans (lock_eq_some.mp ht₀).1)
    obtain rfl : err = none := herr.mpr (by simp [Topic.isOpen, hpolicy])
    have hstored := store_topic hs ht
    refine .inr ⟨m, (stored_returns hs h).1, Eq.trans ?_ hstored⟩
    obtain ⟨e, he, -⟩ | ⟨-, -, -, g, rfl⟩ | ⟨-, -, h⟩ := hcase
    · cases he
    · rfl
    · obtain ⟨⟨e, he⟩, -⟩ | ⟨-, hstores⟩ := store_effect hs
      · cases he
      have hdeserted := hw.deserted hc hl hplain m p.isBroadcast
      rw [push_deserted h ⟨?_, fun w hmem => ?_⟩]
      · exact (hstores.waiting r).trans hdeserted.1
      · exact (hstores.waiting w).trans (hdeserted.2 w hmem)

end Own

/-! ## The queues and the log -/

theorem mem_rest_iff {l gone rest : List α} (hperm : l.Perm (gone ++ rest)) (hnodup : l.Nodup) :
    a ∈ rest ↔ a ∈ l ∧ a ∉ gone := by
  have hdisjoint := disjoint_of_nodup_append (hperm.nodup_iff.mp hnodup)
  rw [hperm.mem_iff, mem_append]
  exact ⟨fun h => ⟨.inr h, fun hg => hdisjoint hg h⟩, fun h => h.1.resolve_left h.2⟩

/-- **Making room** in a full topic: the first message of one queue goes. -/
theorem Topic.makeRoom_full {t : Topic} {max} (hpos : 0 < max) (hfull : max ≤ t.queued.length) :
    ∃ oldest rest, t.evicted max = [oldest] ∧ t.slot t.victim = oldest :: rest ∧
      (∀ pr, (t.makeRoom max).slot pr = if pr = t.victim then rest else t.slot pr) ∧
      t.queued.Perm (oldest :: (t.makeRoom max).queued) := by
  cases hev : t.evictOldest with
  | none =>
    rw [queued_of_evictOldest hev, length_nil] at hfull
    omega
  | some res =>
    obtain ⟨oldest, t'⟩ := res
    have hroom : t.makeRoom max = t' := by simp [makeRoom, hfull, hev]
    obtain ⟨hfirst, hothers⟩ := evictOldest_victim hev
    refine ⟨oldest, t'.slot t.victim, by simp [evicted, hfull, hev], hfirst, fun pr => ?_, ?_⟩
    · rw [hroom]
      split
      next hpr => rw [hpr]
      next hpr => exact hothers pr hpr
    · rw [hroom]
      exact (evictOldest_spec hev).1

theorem Topic.queued_makeRoom {t : Topic} {max} (hpos : 0 < max) :
    t.queued.Perm (t.evicted max ++ (t.makeRoom max).queued) := by
  by_cases hfull : max ≤ t.queued.length
  · obtain ⟨oldest, rest, hev, -, -, hperm⟩ := makeRoom_full hpos hfull
    rw [hev]
    exact hperm
  · simp [evicted, makeRoom, hfull]

theorem mem_map_filter_id {ms gone : List Message} {id} :
    id ∈ (ms.filter fun x => x.id ∉ gone.map Message.id).map Message.id ↔
      id ∈ ms.map Message.id ∧ id ∉ gone.map Message.id := by
  simp only [List.mem_map, mem_filter, decide_eq_true_eq]
  constructor
  · rintro ⟨m, ⟨hm, hnot⟩, rfl⟩
    exact ⟨⟨m, hm, rfl⟩, hnot⟩
  · rintro ⟨⟨m, hm, rfl⟩, hnot⟩
    exact ⟨m, ⟨hm, hnot⟩, rfl⟩

namespace Broker

variable {b b' : Broker} {T n : GoString} {r i : TopicRef} {t t' : Topic}

def victim (b : Broker) (r : TopicRef) : Priority :=
  if b.slot r .low ≠ [] then .low else if b.slot r .normal ≠ [] then .normal else .high

/-- What a publish does to the queues of a `drop-oldest` topic: the message
comes last in the queue of its priority. Where there was no room for it, the
first message of the lowest priority that has one is gone. -/
def RingStores (b b' : Broker) (r : TopicRef) (priority : Priority) (m : Message) : Prop :=
  if (b.queued r).length < b.limits.maxMessages then
    ∀ pr, b'.slot r pr = b.slot r pr ++ if pr = priority then [m] else []
  else
    ∃ oldest rest, b.slot r (b.victim r) = oldest :: rest ∧ oldest.id ≠ m.id ∧
      ∀ pr, b'.slot r pr = (if pr = b.victim r then rest else b.slot r pr) ++ if pr = priority then [m] else []

/-- A `drop-oldest` topic within its limit, whose log has the messages of its
queues. The ID of none is that of a message under another name with the
same log, or one to come. -/
structure Ring (b : Broker) (T : GoString) (r : TopicRef) : Prop where
  lookup : b.topics.lookup T = some r
  policy : ∀ t, b.heap[r]? = some t → t.policy = .dropOldest ∧ t.deleted = false
  storing : b.Storing
  grouped : b.Grouped T
  compiled : b.Compiled
  bound : (b.queued r).length ≤ b.limits.maxMessages
  ids : ((b.queued r).map Message.id).Nodup
  log : ∀ id, id ∈ (replay (b.file (logFilename T))).map Message.id ↔ id ∈ (b.queued r).map Message.id
  unissued : ∀ k, b.uuids ≤ k → b.env.newUUID k ∉ putIDs (b.file (logFilename T))
  apart : ∀ n, n ≠ T → logFilename n = logFilename T → ∀ m ∈ b.queue n,
    m.id ∉ (b.queued r).map Message.id ∧ ∀ k, b.uuids ≤ k → b.env.newUUID k ≠ m.id

/-! ### Taking messages out -/

theorem Compiled.of_spyCount (h : b.Compiled) (hr : b'.registry = { b.registry with spyCount := b.spyCount }) :
    b'.Compiled :=
  h.of_registry hr

theorem registry_logs (b : Broker) (n : GoString) (es : List LogEntry) : (b.logs n es).registry = b.registry := by
  induction es generalizing b with
  | nil => rfl
  | cons e es ih => exact ih (b.log n e)

theorem Storing.logs (h : b.Storing) (n : GoString) (es : List LogEntry) : (b.logs n es).Storing := by
  induction es generalizing b with
  | nil => exact h
  | cons e es ih => exact ih (h.log n e)

theorem file_log_refused (h : isSafePath n ≠ none) (e : LogEntry) (f : GoString) : (b.log n e).file f = b.file f := by
  classical rw [file_log, if_neg]
  rintro ⟨-, s, -, hw⟩
  exact h hw.1

theorem Storing.file_logs_or (h : b.Storing) (n : GoString) (es : List LogEntry) (f : GoString) :
    (b.logs n es).file f = b.file f ∨ logFilename n = f ∧ (b.logs n es).file f = b.file f ++ es := by
  by_cases hf : f = logFilename n
  · subst hf
    cases hsafe : isSafePath n with
    | none => exact .inr ⟨rfl, h.file_logs hsafe es⟩
    | some e =>
      left
      clear h
      induction es generalizing b with
      | nil => rfl
      | cons e es ih => exact (ih (b := b.log n e)).trans (file_log_refused (by simp [hsafe]) e _)
  · exact .inl (file_logs_ne es hf)

theorem ackExpired_eq (b : Broker) (n : GoString) (ids : List GoString) :
    b.ackExpired n ids = b.logs n (ids.map .ack) := by
  rw [ackExpired, logs, foldl_map]

/-- **Messages are taken out of a topic and acknowledged.** -/
theorem Ring.trim (h : b.Ring T r) (hsafe : isSafePath T = none) (hl : b.topics.lookup n = some i)
    (ht : b.lock i = some t) (hfixed : t'.fixed = t.fixed) {gone} (hperm : t.queued.Perm (gone ++ t'.queued)) :
    ((b.setTopic i t').ackExpired n (gone.map Message.id)).Ring T r := by
  have hname : t'.name = t.name := congrArg Prod.fst hfixed
  rw [ackExpired_eq]
  obtain ⟨c, hc⟩ : ∃ c, c = (b.setTopic i t').logs n ((gone.map Message.id).map .ack) := ⟨_, rfl⟩
  obtain ⟨hheap, -, hlimits, hframe, huuids, -⟩ := (b.setTopic i t').logs_frame n ((gone.map Message.id).map .ack)
  have hregistry := (b.setTopic i t').registry_logs n ((gone.map Message.id).map .ack)
  have hstoring : (b.setTopic i t').Storing := h.storing
  have hfile := hstoring.file_logs_or n ((gone.map Message.id).map .ack) (logFilename T)
  have hstoring' := hstoring.logs n ((gone.map Message.id).map .ack)
  rw [← hc] at hheap hlimits hframe huuids hregistry hfile hstoring' ⊢
  have hqueued : ∀ j, c.queued j = if j = i then t'.queued else b.queued j := by
    intro j
    rw [queued, hheap, ← queued_setTopic ht]
    rfl
  have hat : b.queued i = t.queued := queued_of_lock ht
  -- No queue has a message it did not have before.
  have hfewer : ∀ j, (c.queued j).Subperm (b.queued j) := by
    intro j
    rw [hqueued]
    split
    next hj =>
      rw [hj, hat]
      exact (sublist_append_right gone _).subperm.trans hperm.symm.subperm
    · exact Subperm.refl _
  have hqueue : ∀ k, ∀ m ∈ c.queue k, m ∈ b.queue k := by
    intro k m
    rw [queue, queue, hframe.topics, show (b.setTopic i t').topics = b.topics from rfl]
    cases b.topics.lookup k with
    | none => exact id
    | some j => exact fun hm => (hfewer j).subset hm
  -- The IDs that are left are those that were not taken out.
  have hleft : ∀ id, id ∈ (c.queued r).map Message.id ↔
      id ∈ (b.queued r).map Message.id ∧ (n = T → id ∉ gone.map Message.id) := by
    intro id
    by_cases hr : r = i
    · have hT : n = T := topics_inj hl (hr ▸ h.lookup)
      have hpermids : ((b.queued r).map Message.id).Perm (gone.map Message.id ++ t'.queued.map Message.id) := by
        rw [hr, hat, ← map_append]
        exact hperm.map _
      rw [hqueued, if_pos hr, mem_rest_iff hpermids h.ids]
      simp [hT]
    · have hT : n ≠ T := by
        rintro rfl
        exact hr (some.inj (h.lookup.symm.trans hl))
      rw [hqueued, if_neg hr]
      simp [hT]
  exact {
    lookup := by rw [hframe.topics]; exact h.lookup
    policy := fun t₁ ht₁ => by
      rw [hheap, getElem?_setTopic ht hname] at ht₁
      split at ht₁
      next hr =>
        cases ht₁
        have hold := h.policy t (by rw [hr]; exact (lock_eq_some.mp ht).1)
        simp only [fixed, Prod.mk.injEq] at hfixed
        rw [hfixed.2.1, hfixed.2.2.1]
        exact hold
      · exact h.policy t₁ ht₁
    storing := hstoring'
    grouped := by
      unfold Grouped
      rw [hframe.bindings]
      exact h.grouped
    compiled := Compiled.of_spyCount h.compiled (hregistry.trans rfl)
    bound := by
      rw [hlimits]
      exact (hfewer r).length_le.trans h.bound
    ids := by
      obtain ⟨l, hl, hs⟩ := hfewer r
      exact (hl.map Message.id).nodup_iff.mp (h.ids.sublist (hs.map _))
    log := fun id => by
      have hold : b.file (logFilename T) = (b.setTopic i t').file (logFilename T) := rfl
      rw [hleft, ← h.log, hold]
      rcases hfile with hsame | ⟨hsamefile, hacks⟩
      · -- Nothing was written: it is not this topic's log.
        rw [hsame]
        refine ⟨fun hid => ⟨hid, fun hT => ?_⟩, fun hid => hid.1⟩
        subst hT
        have hfull := hstoring.file_logs hsafe ((gone.map Message.id).map .ack)
        rw [← hc, hsame] at hfull
        have hnil : gone.map Message.id = [] := by simpa using hfull
        simp [hnil]
      · rw [hacks, replay_acks, mem_map_filter_id]
        refine and_congr_right fun hid => ⟨fun hnot _ => hnot, fun hnot => ?_⟩
        by_cases hT : n = T
        · exact hnot hT
        · -- The messages of another topic are not in these queues.
          intro hgone
          obtain ⟨m, hm, rfl⟩ := List.mem_map.mp hgone
          have hqueue : m ∈ b.queue n := by
            rw [queue, hl, map_some, getD_some, hat]
            exact hperm.mem_iff.mpr (mem_append_left _ hm)
          rw [← hold, h.log] at hid
          exact (h.apart n hT hsamefile m hqueue).1 hid
    unissued := fun k hk => by
      have hputs : putIDs (c.file (logFilename T)) = putIDs (b.file (logFilename T)) := by
        rcases hfile with hsame | ⟨-, hacks⟩
        · rw [hsame]; rfl
        · rw [hacks, putIDs_acks]; rfl
      rw [hputs, hframe.env]
      exact h.unissued k (by rw [huuids] at hk; exact hk)
    apart := fun k hk hkfile m hm => by
      obtain ⟨hnot, hlater⟩ := h.apart k hk hkfile m (hqueue k m hm)
      refine ⟨fun hid => hnot (map_subset _ (hfewer r).subset hid), fun j hj => ?_⟩
      rw [hframe.env]
      exact hlater j (by rw [huuids] at hj; exact hj) }

/-! ### Publishes -/

theorem Ring.keeps (h : b.Ring T r) (hlookup : b'.topics.lookup T = some r)
    (hfixed : b'.heap[r]?.map fixed = b.heap[r]?.map fixed) (hstoring : b'.Storing)
    (hbindings : b'.bindings = b.bindings) (hcompiled : b'.Compiled) (hlimits : b'.limits = b.limits)
      (henv : b'.env = b.env) (huuids : b.uuids ≤ b'.uuids) (hqueued : b'.queued r = b.queued r)
    (hfile : b'.file (logFilename T) = b.file (logFilename T))
    (hqueue : ∀ n, n ≠ T → logFilename n = logFilename T → b'.queue n ⊆ b.queue n) : b'.Ring T r where
  lookup := hlookup
  policy t' ht' := by
    rw [ht', map_some, eq_comm, map_eq_some_iff] at hfixed
    obtain ⟨t, ht, hsame⟩ := hfixed
    simp only [fixed, Prod.mk.injEq] at hsame
    rw [← hsame.2.1, ← hsame.2.2.1]
    exact h.policy t ht
  storing := hstoring
  grouped := by
    unfold Grouped
    rw [hbindings]
    exact h.grouped
  compiled := hcompiled
  bound := by
    rw [hqueued, hlimits]
    exact h.bound
  ids := hqueued ▸ h.ids
  log id := by
    rw [hfile, hqueued]
    exact h.log id
  unissued k hk := by
    rw [hfile, henv]
    exact h.unissued k (by omega)
  apart k hk hkfile m hm := by
    obtain ⟨hnot, hlater⟩ := h.apart k hk hkfile m (hqueue k hk hkfile hm)
    rw [hqueued, henv]
    exact ⟨hnot, fun j hj => hlater j (by omega)⟩

theorem Ring.of_spares (h : b.Ring T r) (hs : b.Spares b' [n]) (hstoring : b'.Storing) (hcompiled : b'.Compiled)
    (henv : b'.env = b.env) (huuids : b.uuids ≤ b'.uuids) (hlookup : b'.topics.lookup T = some r)
    (hn : logFilename T ≠ logFilename n) : b'.Ring T r := by
  have hname : T ∉ [n] := fun hm => hn (congrArg logFilename (mem_singleton.mp hm))
  have hshape : b'.heap[r]?.map shape = b.heap[r]?.map shape := by
    have hothers := hs.others T hname
    rwa [topic?, topic?, hlookup, h.lookup, bind_some, bind_some] at hothers
  obtain ⟨t, ht, -⟩ := b.topics_ok h.lookup
  obtain ⟨t', ht', he⟩ : ∃ t', b'.heap[r]? = some t' ∧ t'.shape = t.shape := by
    rw [ht, map_some] at hshape
    exact map_eq_some_iff.mp hshape
  refine h.keeps hlookup ?_ hstoring hs.bindings hcompiled hs.limits henv huuids ?_ (hs.file _ (by simpa using hn)) ?_
  · rw [ht, ht', map_some, map_some]
    exact congrArg some (congrArg Prod.fst he)
  · rw [queued_of_getElem? ht, queued_of_getElem? ht']
    exact queued_of_shape he
  · intro k _ hkfile
    have hkn : k ∉ [n] := fun hmem => hn (by rw [← hkfile, mem_singleton.mp hmem])
    rw [queue_of_shape (hs.others k hkn)]
    exact Subset.refl _

end Broker

section Publish

variable {now : Time} {b b' : Broker} {p : PublishArgs} {x : Ret} {T n : GoString} {r : TopicRef} {left : Nat}

theorem Returns.compiled (h : Returns now b c x b') (hb : b.Compiled) : b'.Compiled := by
  induction h with
  | done hs _ => exact (Pc.step_heap hs).compiled hb
  | next hs _ _ ih => exact ih ((Pc.step_heap hs).compiled hb)

theorem Tries.compiled (h : Tries now p b x b') (hb : b.Compiled) : b'.Compiled := by
  cases h with
  | badName _ => exact hb
  | goes _ hret => exact hret.compiled hb

theorem Broker.Ring.tries (h : b.Ring T r) (ht : Tries now { p with topicName := n } b x b')
    (hn : logFilename T ≠ logFilename n) : b'.Ring T r := by
  obtain ⟨hspares, hadds, henv, huuids⟩ := ht.spares
  exact h.of_spares hspares (ht.storing h.storing) (ht.compiled h.compiled) henv huuids (hadds.topics h.lookup) hn

theorem plain_of_nameError (h : nameError T = none) : ¬ ascii "*" <:+: T :=
  star_not_mem_of_validTopicRegex (validTopicRegex_of_nameError h)

theorem Broker.Unattended.tries (h : b.Unattended T) (hcast : p.isBroadcast = false)
    (ht : Tries now { p with topicName := n } b x b') (hn : n ≠ T) : b'.Unattended T := by
  have hkeeps : (nameError n).isSome = false → (b.getOrCreateTopic n).2.Frame b' → (∀ i, b'.waiting i ⊆ b.waiting i) →
      b'.Unattended T := by
    intro hname hframe hwaiting k i hk hmatch
    have hkn : k ≠ n := by
      rintro rfl
      exact hn ((nameMatches_plain (plain_of_nameError (by simpa using hname))).mp hmatch)
    rw [hframe.topics, getOrCreateTopic_lookup_ne hkn] at hk
    have hnil := h k i hk hmatch
    exact subset_nil.mp (hnil ▸ hwaiting i)
  obtain ⟨-, ⟨-, rfl⟩ | ⟨hname, -, href⟩⟩ | ⟨hname, -, t, m, -, had⟩ := tries_cases ht
  · exact h
  · exact hkeeps hname href.frame fun i => by rw [href.waiting]; exact Subset.refl _
  · exact hkeeps hname had.frame fun i => had.waiting hcast i

theorem Broker.Ring.fans (h : b.Ring T r) (hw : b.Unattended T)
    (hcast : p.isBroadcast = false) (hf : Fans now p ns b rs b') (hns : ∀ n ∈ ns, logFilename T ≠ logFilename n) :
    b'.Ring T r ∧ b'.Unattended T ∧ b'.limits = b.limits ∧ ∀ pr, b'.slot r pr = b.slot r pr := by
  induction hf with
  | nil => exact ⟨h, hw, rfl, fun _ => rfl⟩
  | @cons n ns b b₁ b₂ x rs ht _ ih =>
    have hn := hns n mem_cons_self
    have hne : n ≠ T := fun he => hn (by rw [he])
    have h₁ := h.tries ht hn
    obtain ⟨hring, hun, hlimits, hslots⟩ := ih h₁ (hw.tries hcast ht hne) fun k hk => hns k (mem_cons_of_mem _ hk)
    have hspares := ht.spares.1
    refine ⟨hring, hun, hlimits.trans hspares.limits, fun pr => (hslots pr).trans (slot_of_shape ?_ pr)⟩
    have hshape := hspares.others T (by simpa using Ne.symm hne)
    rwa [topic?, topic?, h₁.lookup, h.lookup, bind_some, bind_some] at hshape

theorem Broker.Ring.idle (h : b.Ring T r) (ranges : Nat) (goroutines : List Goroutine) :
    Ring { b with ranges, goroutines } T r :=
  ⟨h.lookup, h.policy, h.storing, h.grouped, h.compiled.of_spyCount rfl, h.bound, h.ids, h.log, h.unissued, h.apart⟩

theorem Broker.Ring.issue (h : b.Ring T r) (p : PublishArgs) : (b.issue p).Ring T r :=
  ⟨h.lookup, h.policy, h.storing, h.grouped, h.compiled.of_spyCount rfl, h.bound, h.ids, h.log,
    fun k hk => h.unissued k (Nat.le_of_succ_le hk),
    fun n hn hf m hm => ⟨(h.apart n hn hf m hm).1, fun k hk => (h.apart n hn hf m hm).2 k (Nat.le_of_succ_le hk)⟩⟩

theorem Broker.slot_of_getElem? {t} (h : b.heap[r]? = some t) (pr : Priority) : b.slot r pr = t.slot pr := by
  simp [slot, h]

theorem Broker.queued_eq_slots (b : Broker) (r : TopicRef) :
    b.queued r = b.slot r .high ++ b.slot r .normal ++ b.slot r .low := by
  cases h : b.heap[r]? with
  | none => simp [queued, slot, h]
  | some t => simp [queued, slot, h, Topic.queued, Topic.slot]

theorem Broker.RingStores.of_topic {t pr m} (ht : b.heap[r]? = some t)
    (ht' : b'.heap[r]? = some ((t.makeRoom b.limits.maxMessages).append pr m))
      (hids : m.id ∉ (b.queued r).map Message.id) : b.RingStores b' r pr m := by
  have hslot : ∀ other, b.slot r other = t.slot other := fun other => slot_of_getElem? ht other
  have hslot' :
    ∀ other, b'.slot r other = (t.makeRoom b.limits.maxMessages).slot other ++ if other = pr then [m] else [] := by
    intro other
    rw [slot_of_getElem? ht', slot_append]
  have hvictim : b.victim r = t.victim := by
    simp only [victim, hslot]
    rfl
  rw [RingStores, queued_of_getElem? ht]
  split
  next hroom =>
    intro other
    rw [hslot', hslot, makeRoom, if_neg (Nat.not_le.mpr hroom)]
  next hfull =>
    obtain ⟨oldest, rest, -, hfirst, hslots, hperm⟩ := makeRoom_full b.limits.maxMessages_pos (Nat.not_lt.mp hfull)
    refine ⟨oldest, rest, by rw [hvictim, hslot]; exact hfirst, fun hid => hids ?_, fun other => ?_⟩
    · rw [← hid, queued_of_getElem? ht]
      exact List.mem_map_of_mem (hperm.mem_iff.mpr mem_cons_self)
    · rw [hslot', hslots, hvictim, hslot]

theorem Topic.length_makeRoom {t : Topic} {max} (hpos : 0 < max) (h : t.queued.length ≤ max) :
    (t.makeRoom max).queued.length < max := by
  by_cases hfull : max ≤ t.queued.length
  · obtain ⟨oldest, rest, -, -, -, hperm⟩ := makeRoom_full hpos hfull
    have hlength := hperm.length_eq
    simp only [length_cons] at hlength
    omega
  · rw [makeRoom, if_neg hfull]
    omega

/-- **A publish to the topic itself.** -/
theorem Broker.Ring.own (h : b.Ring p.topicName r) (hsafe : isSafePath p.topicName = none)
    (hplain : ¬ ascii "*" <:+: p.topicName) (hw : b.Unattended p.topicName) (hcast : p.isBroadcast = false)
    (hret : Returns now b ⟨.publish left p .getTopic, []⟩ x b') :
    b'.Ring p.topicName r ∧ ∀ m, x = .published (.ok m) → b.RingStores b' r (.ofString p.priority) m := by
  obtain ⟨t, ht, -⟩ := b.topics_ok h.lookup
  rcases own_publish h.lookup ht (h.policy t ht) h.compiled hplain hw hret with ⟨e, rfl, rfl⟩ | ⟨m, rfl, hheap⟩
  · exact ⟨h.issue p, fun m hm => by cases hm⟩
  obtain ⟨-, ⟨e, he⟩, -⟩ | ⟨-, r', m', he, had⟩ := getTopic_cases hret
  · cases he
  cases he
  have hid : m.id = b.env.newUUID b.uuids := had.id
  have htopic : b.topic? p.topicName = some t := by rw [topic?, h.lookup, bind_some, ht]
  have hgone : b.evicted p.topicName = t.evicted b.limits.maxMessages := by simp [evicted, htopic]
  have hold : b.queued r = t.queued := queued_of_getElem? ht
  have hnew : (b'.queued r).Perm (m :: (t.makeRoom b.limits.maxMessages).queued) := by
    rw [queued_of_getElem? hheap]
    exact queued_append ..
  have hroom : (b.queued r).Perm (t.evicted b.limits.maxMessages ++ (t.makeRoom b.limits.maxMessages).queued) := by
    rw [hold]
    exact queued_makeRoom b.limits.maxMessages_pos
  have hputs : m.id ∉ putIDs (b.file (logFilename p.topicName)) := hid ▸ h.unissued _ (Nat.le_refl _)
  have hfresh : m.id ∉ (b.queued r).map Message.id := by
    rw [← h.log]
    intro hmem
    obtain ⟨y, hy, hsame⟩ := List.mem_map.mp hmem
    exact hputs (hsame ▸ id_mem_putIDs hy)
  have hrest : ∀ i, i ∈ (t.makeRoom b.limits.maxMessages).queued.map Message.id ↔
      i ∈ (b.queued r).map Message.id ∧ i ∉ (t.evicted b.limits.maxMessages).map Message.id := by
    intro i
    refine mem_rest_iff ?_ h.ids
    rw [← map_append]
    exact hroom.map _
  have hids : ∀ i, i ∈ (b'.queued r).map Message.id ↔
      i = m.id ∨ i ∈ (b.queued r).map Message.id ∧ i ∉ (t.evicted b.limits.maxMessages).map Message.id := by
    intro i
    rw [(hnew.map _).mem_iff, map_cons, mem_cons, hrest]
  have hfile : b'.file (logFilename p.topicName) =
      b.file (logFilename p.topicName) ++ storeRecords false m (t.evicted b.limits.maxMessages) := by
    rw [file_of_storage had.storage, hcast, h.storing.file_logs hsafe, hgone]
  have hleft : ∀ e ∈ t.evicted b.limits.maxMessages, e.id ≠ m.id := by
    intro e he hsame
    exact hfresh (hsame ▸ List.mem_map_of_mem (hroom.mem_iff.mpr (mem_append_left _ he)))
  refine ⟨?_, fun m' hm' => ?_⟩
  · exact {
      lookup := (Adds.of_frame had.frame).topics h.lookup
      policy := fun t' ht' => by
        obtain rfl := some.inj (hheap.symm.trans ht')
        have hfixed :=
          (fixed_of_emptied (emptied_append _ (.ofString p.priority) m)).trans (t.fixed_makeRoom b.limits.maxMessages)
        simp only [fixed, Prod.mk.injEq] at hfixed
        rw [hfixed.2.1, hfixed.2.2.1]
        exact h.policy t ht
      storing := h.storing.returns hret ⟨rfl, by simp, by simp⟩
      grouped := by
        unfold Grouped
        rw [had.spares.bindings]
        exact h.grouped
      compiled := hret.compiled h.compiled
      bound := by
        have hlength := length_makeRoom b.limits.maxMessages_pos (hold ▸ h.bound)
        rw [had.spares.limits, hnew.length_eq, length_cons]
        omega
      ids := by
        have hnodup := (hroom.map Message.id).nodup_iff.mp h.ids
        rw [map_append] at hnodup
        rw [(hnew.map _).nodup_iff, map_cons, nodup_cons, hrest]
        exact ⟨fun hmem => hfresh hmem.1, hnodup.of_append_right⟩
      log := fun i => by
        rw [hfile, replay_stored hputs hleft, hids, ← h.log, map_append, mem_append, mem_map_filter_id]
        simp [or_comm]
      unissued := fun k hk => by
        rw [hfile, putIDs_stored, had.env, mem_append, mem_singleton, hid]
        rw [had.uuids] at hk
        rintro (hin | heq)
        · exact h.unissued k (by omega) hin
        · have := b.env.newUUID_inj heq
          omega
      apart := fun n hn hf y hy => by
        rw [queue_of_shape (had.others n hn)] at hy
        obtain ⟨hnot, hlater⟩ := h.apart n hn hf y hy
        rw [hids, had.uuids, had.env]
        refine ⟨?_, fun k hk => hlater k (by omega)⟩
        rintro (hsame | hmem)
        · exact hlater b.uuids (Nat.le_refl _) (by rw [← hid, hsame])
        · exact hnot hmem.1 }
  · cases hm'
    exact .of_topic ht hheap hfresh

/-- **A `Publish` on the topic**, with those for its groups. -/
theorem Broker.Ring.publish (h : b.Ring p.topicName r) (hsafe : isSafePath p.topicName = none)
    (hw : b.Unattended p.topicName) (hcast : p.isBroadcast = false) (hret : Returns now b (Op.publish p).entry x b') :
    b'.Ring p.topicName r ∧ ∀ m, x = .published (.ok m) → b.RingStores b' r (.ofString p.priority) m := by
  obtain ⟨-, ⟨e, rfl⟩, rfl⟩ | ⟨ranges, rs, ns, htried, hlen, hfans⟩ := publish_fans h.grouped hret
  · exact ⟨h, fun m hm => by cases hm⟩
  obtain ⟨c, hgroups, hlast⟩ := hfans.last hlen
  obtain ⟨hc, hwc, hlimits, hslots⟩ := (h.idle ranges b.goroutines).fans hw hcast hgroups (h.grouped.logs_apart htried)
  cases hlast with
  | badName _ => exact ⟨hc, fun m hm => by cases hm⟩
  | goes hname hgoes =>
    obtain ⟨hring, hstores⟩ := hc.own hsafe (plain_of_nameError hname) hwc hcast hgoes
    refine ⟨hring, fun m hm => ?_⟩
    have hslots' : ∀ pr, c.slot r pr = b.slot r pr := hslots
    have hlimits' : c.limits = b.limits := hlimits
    have hqueued : c.queued r = b.queued r := by simp only [queued_eq_slots, hslots']
    have hvictim : c.victim r = b.victim r := by simp only [victim, hslots']
    have hresult := hstores m hm
    simp only [RingStores, hqueued, hvictim, hslots', hlimits'] at hresult
    exact hresult

end Publish

/-! ## The other calls -/

section Calls

variable {now : Time} {b b' : Broker} {x : Ret} {T n : GoString} {r : TopicRef}

/-- **An `Ack`** on the topic. -/
theorem Broker.Ring.ack {id} (h : b.Ring T r) (hsafe : isSafePath T = none)
    (hret : Returns now b (Op.ack T id).entry x b') : b'.Ring T r := by
  have hfound : (Pc.ack T id).step now b = some (.goto b (.ackAt r T id)) := by simp only [Pc.step, h.lookup]
  have hat : Returns now b ⟨.ackAt r T id, []⟩ x b' := (returns_goto hfound rfl).mp hret
  cases hack : b.ackMessage r T id with
  | none => exact absurd hat (not_returns (by simp [Pc.step, hack]))
  | some res =>
    obtain ⟨ok, b₁⟩ := res
    have hend : x = .acked ok ∧ b' = b₁ :=
      (returns_ret (o := .ret b₁ (.acked ok)) (by simp only [Pc.step, hack]; rfl) rfl).mp hat
    obtain ⟨-, rfl⟩ := hend
    obtain ⟨t, ht, hcase⟩ := map_eq_some_iff.mp hack
    split at hcase
    next t' hremove =>
      obtain ⟨-, m, hid, hperm⟩ := remove?_eq_some hremove
      have hfixed : t'.fixed = t.fixed := fixed_of_emptied (emptied_remove? hremove)
      have hring : ((b.setTopic r t').ackExpired T ([m].map Message.id)).Ring T r :=
        h.trim hsafe h.lookup ht hfixed hperm
      cases hcase
      rw [← hid]
      exact hring
    · cases hcase
      exact h

/-- **A timer** whose push finds nobody at the topic. -/
theorem Broker.Ring.push (h : b.Ring T r) (hw : p.t = r → b.Deserted p)
    (hret : Returns now b ⟨.push p .spies, []⟩ x b') : b'.Ring T r := by
  obtain ⟨hcalm, hslots⟩ := push_calm hret
  have hlookup : b'.topics.lookup T = some r := by rw [hcalm.topics]; exact h.lookup
  have hstoring : b'.Storing := by
    unfold Storing
    rw [hcalm.storage]
    exact h.storing
  have hsame : ∀ i, i ≠ p.t → b'.queued i = b.queued i := fun i hi => by
    simp only [queued_eq_slots, slot_of_shape (hcalm.others i hi)]
  have hown : ∀ m ∈ b'.queued p.t, m ∈ b.queued p.t := by
    intro m hm
    rw [queued_eq_slots, mem_append, mem_append] at hm ⊢
    exact hm.imp (Or.imp (fun h => hslots _ h) fun h => hslots _ h) fun h => hslots _ h
  have hqueued : b'.queued r = b.queued r := by
    by_cases hr : p.t = r
    · rw [queued, push_deserted hret (hw hr)]
      rfl
    · exact hsame r (Ne.symm hr)
  refine h.keeps hlookup ?_ hstoring hcalm.bindings
    (hret.compiled h.compiled) hcalm.limits hcalm.env hcalm.uuids.ge hqueued
    (file_of_storage hcalm.storage _) fun k _ _ m hm => ?_
  · have hfixed := congrArg (·[r]?) hcalm.fixed
    simpa using hfixed
  · rw [queue, hcalm.topics] at hm
    rw [queue]
    cases hk : b.topics.lookup k with
    | none =>
      rw [hk] at hm
      cases hm
    | some i =>
      rw [hk] at hm
      by_cases hi : i = p.t
      · rw [hi] at hm ⊢
        exact hown m hm
      · rw [map_some, getD_some] at hm ⊢
        rwa [hsame i hi] at hm

/-- A method that runs with no other goroutine in between and calls no
`publishCore` returns `x` and leaves `b'`. -/
inductive MethodReturns (now : Time) : Broker → MethodPc → MethodRet → Broker → Prop
  | done {b : Broker} {x : MethodRet} : MethodReturns now b (.done x) x b
  | next {b b' : Broker} {pc : MethodPc} {o : MethodOutcome} {x : MethodRet} :
      pc.step now b none = some o → o.call = none → MethodReturns now o.broker o.next x b' → MethodReturns now b pc x b'

theorem MethodReturns.goto {b c b' pc pc' x} (h : MethodReturns now b pc x b')
    (hs : pc.step now b none = some (.goto c pc')) : MethodReturns now c pc' x b' := by
  cases h with
  | done => cases hs
  | next hs' _ hrest =>
    obtain rfl := some.inj (hs.symm.trans hs')
    exact hrest

theorem MethodReturns.sweepAck {x since topics ids} (h : MethodReturns now b (.sweepAck since topics n ids) x b') :
    MethodReturns now (b.ackExpired n ids) (.sweepTopics since topics) x b' := by
  induction ids generalizing b with
  | nil => exact h.goto rfl
  | cons id ids ih => exact ih (h.goto rfl)

theorem Topic.queued_purgeExpired (t : Topic) (now : Time) :
    t.queued.Perm (t.queued.filter (fun m => m.expired now) ++ (t.purgeExpired now).queued) := by
  have hleft : (t.purgeExpired now).queued = t.queued.filter fun m => !m.expired now := by
    simp [queued, purgeExpired]
  rw [hleft]
  exact (filter_append_perm _ _).symm

theorem Broker.Ring.sweepTopics {x since topics} (h : b.Ring T r)
    (hsafe : isSafePath T = none) (htopics : ∀ i ∈ topics, ∃ n, b.topics.lookup n = some i)
    (hret : MethodReturns now b (.sweepTopics since topics) x b') : b'.Ring T r := by
  induction topics generalizing b with
  | nil =>
    have hdone := hret.goto rfl
    cases hdone with
    | done => exact h
    | next hs => cases hs
  | cons i topics ih =>
    cases hpurge : b.purgeExpired i since with
    | none =>
      cases hret with
      | next hs => simp [MethodPc.step, hpurge] at hs
    | some res =>
      obtain ⟨⟨name, ids⟩, b₁⟩ := res
      have hacks := (hret.goto (by simp only [MethodPc.step, hpurge]; rfl)).sweepAck
      obtain ⟨t, ht, hcase⟩ := map_eq_some_iff.mp hpurge
      obtain ⟨n, hn⟩ := htopics i mem_cons_self
      obtain ⟨t', ht', hname⟩ := b.topics_ok hn
      obtain rfl := some.inj (ht'.symm.trans (lock_eq_some.mp ht).1)
      cases hcase
      have hfixed : (t'.purgeExpired since).fixed = t'.fixed := rfl
      have hring := h.trim hsafe (n := t'.name) (hname ▸ hn) ht hfixed (t'.queued_purgeExpired since)
      refine ih hring (fun j hj => ?_) hacks
      obtain ⟨-, -, -, hframe, -, -⟩ := (b.setTopic i (t'.purgeExpired since)).logs_frame t'.name
        (((t'.queued.filter fun m => m.expired since).map Message.id).map .ack)
      obtain ⟨k, hk⟩ := htopics j (mem_cons_of_mem _ hj)
      rw [ackExpired_eq, hframe.topics]
      exact ⟨k, hk⟩

/-- **The sweep for expired messages.** -/
theorem Broker.Ring.sweep {x} (h : b.Ring T r) (hsafe : isSafePath T = none)
    (hret : MethodReturns now b Method.purgeExpiredMessages.entry x b') : b'.Ring T r := by
  have hnow := (hret.goto rfl).goto rfl
  refine (h.idle _ b.goroutines).sweepTopics hsafe (fun i hi => ?_) hnow
  obtain ⟨k, -, hk⟩ := mem_filterMap.mp hi
  exact ⟨k, hk⟩

end Calls

/-! ## The file of the log -/

/-- A legacy name that is the name of a log is that of the topic's own. -/
theorem legacyFilename_eq (h : legacyFilename T = logFilename n) : legacyFilename T = logFilename T := by
  have hlegacy : legacyFilename T = T.flatMap (fun c => if c = 47 then [64] else [c]) ++ ascii ".log" := by
    rw [legacyFilename, ascii_slash, ascii_at, Text.replaceAll_singleton]
  have hstem : T.flatMap (fun c => if c = 47 then [64] else [c]) = n.flatMap fileCode := by
    rw [hlegacy, logFilename, topicToFilename_eq_flatMap] at h
    exact append_cancel_right h
  have hat : (64 : UInt8) ∉ T.flatMap fun c => if c = 47 then [64] else [c] := by
    rw [hstem, mem_flatMap]
    rintro ⟨c, -, hc⟩
    unfold fileCode at hc
    split at hc
    · revert hc; decide
    · split at hc
      · revert hc; decide
      next hne => exact hne (mem_singleton.mp hc).symm
  rw [hlegacy, logFilename, topicToFilename_eq_flatMap]
  refine congrArg (· ++ ascii ".log") (flatMap_congr fun c hc => ?_)
  have hc' : (64 : UInt8) ∉ if c = 47 then [64] else [c] := fun hmem => hat (mem_flatMap.mpr ⟨c, hc, hmem⟩)
  split at hc'
  · simp at hc'
  next hslash =>
    have hne : c ≠ 64 := fun he => hc' (by simp [he])
    simp [fileCode, hslash, hne]

namespace LogStore

variable {s : LogStore} {T : GoString}

/-- `LoadMessages` does not fall back on a legacy file. -/
def Visible (s : LogStore) (T : GoString) : Prop := legacyFilename T ∈ s.files → logFilename T ∈ s.files

theorem Visible.append (h : s.Visible T) (topic : GoString) (e : LogEntry) : (s.append topic e).Visible T := by
  have hinsert : ∀ es, legacyFilename T ∈ s.files.insert (logFilename topic) es →
      logFilename T ∈ s.files.insert (logFilename topic) es := by
    intro es hmem
    rw [mem_insert] at hmem ⊢
    rcases hmem with hsame | hold
    · exact .inl ((legacyFilename_eq hsame).symm.trans hsame)
    · exact .inr (h hold)
  unfold LogStore.append
  split
  · exact h
  · dsimp only
    split
    · exact h
    · exact hinsert _
    · exact hinsert _

theorem Visible.appendAll (h : s.Visible T) (ws : List LogCall) : (s.appendAll ws).Visible T := by
  induction ws generalizing s with
  | nil => exact h
  | cons w ws ih => exact ih (h.append w.topic w.entry)

theorem Visible.source (h : s.Visible T) : s.source T = s.file (logFilename T) := by
  rw [source_eq]
  split
  · rfl
  next hlog =>
    have hlegacy : legacyFilename T ∉ s.files := fun hmem => hlog (h hmem)
    rw [file, file, lookup_eq_none.mpr hlog, lookup_eq_none.mpr hlegacy]

end LogStore

/-- Records are written one after the other, and every write succeeds. -/
inductive Wrote (c : Codec) : List LogCall → DiskStorage → DiskStorage → Prop
  | nil {d} : Wrote c [] d d
  | cons {w : LogCall} {ws d d₁ d'} :
      writeRecord c w.topic (w.entry.record w.now) d = (some none, d₁) → Wrote c ws d₁ d' → Wrote c (w :: ws) d d'

theorem Represents.wrote (h : Represents c s d)
    (hwhole : Whole d.replies) (hs : ∀ k, s.outcome k = .stored) (hw : Wrote c ws d d')
    (hc : ∀ w ∈ ws, c.Carries w.entry w.now) : Represents c (s.appendAll ws) d' ∧ Whole d'.replies := by
  induction hw generalizing s with
  | nil => exact ⟨h, hwhole⟩
  | @cons w ws d d₁ d' hwrite _ ih =>
    have hcarries := hc w mem_cons_self
    have hspec := @writeRecord_spec c s w.topic w.entry w.now hcarries d ⟨h, hwhole⟩
    rw [hwrite] at hspec
    obtain ⟨⟨-, hstored⟩, hwhole₁⟩ := hspec
    have hsame : s.appendAs .stored w.topic w.entry = s.append w.topic w.entry := by
      have houtcome : s.outcome = fun _ => .stored := funext hs
      rw [appendAs, ← houtcome]
    have hrep : Represents c (s.append w.topic w.entry) d₁ := hsame ▸ hstored rfl
    refine ih hrep hwhole₁ (fun k => ?_) fun w' hw' => hc w' (mem_cons_of_mem _ hw')
    rw [outcome_append]
    exact hs k

/-! ## The run -/

/-- The calls that put messages into the queues of a topic and take them
out: publishes while nobody waits, acks, the sweep, and the timers of
delayed messages. -/
inductive RingStep (T : GoString) (b : Broker) : Broker → Prop
  | publish {now} {p : PublishArgs} {x b'} : p.topicName = T → p.isBroadcast = false →
      b.Unattended T → Returns now b (Op.publish p).entry x b' → RingStep T b b'
  | ack {now id x b'} : Returns now b (Op.ack T id).entry x b' → RingStep T b b'
  | sweep {now : Time} {x : MethodRet} {b' : Broker} :
      MethodReturns now b Method.purgeExpiredMessages.entry x b' → RingStep T b b'
  | timer {now due k p x b'} : b.goroutines[k]? = some (.timer due p) → due ≤ now →
      (b.topics.lookup T = some p.t → b.Deserted p) →
      Returns now { b with goroutines := b.goroutines.eraseIdx k } ⟨.push p .spies, []⟩ x b' → RingStep T b b'

/-- A run of them over a disk on which every record of the log is written. -/
inductive RingRun (c : Codec) (T : GoString) (b₀ : Broker) (d₀ : DiskStorage) :
    List LogCall → Broker → DiskStorage → Prop
  | nil : RingRun c T b₀ d₀ [] b₀ d₀
  | snoc {ws ws' : List LogCall} {b b' : Broker} {d d' : DiskStorage} : RingRun c T b₀ d₀ ws b d → RingStep T b b' →
      b'.storage = b.storage.map (·.appendAll ws') → Wrote c ws' d d' → RingRun c T b₀ d₀ (ws ++ ws') b' d'

section Run

variable {T : GoString} {b b' b₀ : Broker} {d d₀ : DiskStorage} {r : TopicRef} {ws : List LogCall}

theorem RingStep.ring (h : RingStep T b b') (hring : b.Ring T r) (hsafe : isSafePath T = none) : b'.Ring T r := by
  cases h with
  | publish hT hcast hw hret =>
    subst hT
    exact (hring.publish hsafe hw hcast hret).1
  | ack hret => exact hring.ack hsafe hret
  | sweep hret => exact hring.sweep hsafe hret
  | @timer now due k p x b' _ _ hw hret =>
    exact (hring.idle b.ranges (b.goroutines.eraseIdx k)).push (fun hr => hw (hr ▸ hring.lookup)) hret

/-- The log on the disk is the one the broker has. -/
structure LogOn (c : Codec) (T : GoString) (b : Broker) (d : DiskStorage) : Prop where
  represents : ∀ s, b.storage = some s → Represents c s d
  visible : ∀ s, b.storage = some s → s.Visible T
  whole : Whole d.replies

theorem LogOn.wrote (h : LogOn c T b d) (hb : b.Storing)
    (hstorage : b'.storage = b.storage.map (·.appendAll ws')) (hw : Wrote c ws' d d')
    (hc : ∀ w ∈ ws', c.Carries w.entry w.now) : LogOn c T b' d' := by
  obtain ⟨s, hs, hstored⟩ := hb
  rw [hs, map_some] at hstorage
  obtain ⟨hrep, hwhole⟩ := (h.represents s hs).wrote h.whole hstored hw hc
  refine ⟨fun s' hs' => ?_, fun s' hs' => ?_, hwhole⟩
  · obtain rfl := some.inj (hstorage.symm.trans hs')
    exact hrep
  · obtain rfl := some.inj (hstorage.symm.trans hs')
    exact (h.visible s hs).appendAll ws'

theorem RingRun.ring (h : RingRun c T b₀ d₀ ws b d) (hring : b₀.Ring T r) (hsafe : isSafePath T = none)
    (hlog : LogOn c T b₀ d₀) (hc : ∀ w ∈ ws, c.Carries w.entry w.now) : b.Ring T r ∧ LogOn c T b d := by
  induction h with
  | nil => exact ⟨hring, hlog⟩
  | snoc _ hstep hstorage hw ih =>
    obtain ⟨hold, hon⟩ := ih fun w hmem => hc w (mem_append_left _ hmem)
    exact ⟨hstep.ring hold hsafe, hon.wrote hold.storing hstorage hw fun w hmem => hc w (mem_append_right _ hmem)⟩

theorem LogOn.load (h : LogOn c T b d) (hb : b.Storing) (hsafe : isSafePath T = none) :
    loadMessages c d.disk T = (replay (b.file (logFilename T)), none) := by
  obtain ⟨s, hs, -⟩ := hb
  rw [(h.represents s hs).loadMessages, recovered_of_safe hsafe, (h.visible s hs).source, hsafe, Broker.file, hs]
  rfl

/-- **The ring buffer and its log agree**: over a run in which every record
is of texts in UTF-8 and short enough, the queues are within their limit,
`LoadMessages` finds the messages that are queued, and a publish to the full
topic takes out the first message of the lowest priority. -/
theorem ring_buffer_agrees {tt : TimeText} (hsafe : isSafePath T = none) (hstart : b₀.Ring T r)
    (hdisk : LogOn (jsonCodec tt) T b₀ d₀) (hrun : RingRun (jsonCodec tt) T b₀ d₀ ws b d)
    (hclean : ∀ w ∈ ws, (w.entry.record w.now).Clean ∧ (w.entry.record w.now).textSize < maxTokenSize) :
    b.topics.lookup T = some r ∧ (b.queued r).length ≤ b.limits.maxMessages ∧
      (∀ id, id ∈ (loadMessages (jsonCodec tt) d.disk T).1.map Message.id ↔ id ∈ (b.queued r).map Message.id) ∧
      ∀ {now : Time} {p : PublishArgs} {m : Message} {b' : Broker}, p.topicName = T → p.isBroadcast = false →
        b.Unattended T → Returns now b (Op.publish p).entry (.published (.ok m)) b' →
          b.RingStores b' r (.ofString p.priority) m := by
  obtain ⟨hring, hlog⟩ := hrun.ring hstart hsafe hdisk fun w hw => carries_of_clean (hclean w hw).1 (hclean w hw).2
  refine ⟨hring.lookup, hring.bound, fun id => ?_, fun hT hcast hw hret => ?_⟩
  · rw [hlog.load hring.storing hsafe]
    exact hring.log id
  · subst hT
    exact (hring.publish hsafe hw hcast hret).2 _ rfl

end Run

/-! ### A ring of two messages -/

def ringEnv : Env where
  newUUID n := ascii "m1" ++ replicate n 97
  newUUID_inj m n h := by simpa using congrArg List.length h
  onPublish _ := none
  order _ keys := keys
  order_perm _ _ := .refl _

/-- A broker with the empty `drop-oldest` topic `orders`. -/
def ringBroker : Broker :=
  (new ⟨2, 10, Nat.two_pos, Limits.ten_pos⟩ .dropOldest false (some .sample) ringEnv fun _ => ⟨1, []⟩).addTopic
    (.create (ascii "orders") .dropOldest)

def labelledPublish (value : GoString) : PublishArgs :=
  { samplePublish with topicName := ascii "orders", payload := ascii "hi", headers := [(ascii "X-Mq-A", value)] }

def labelledMessage (value : GoString) : Message :=
  { sampleMessage with timestamp := 0, headers := [(ascii "X-Mq-A", value)] }

theorem lookup_ringBroker (h : ringBroker.topics.lookup n = some r) : n = ascii "orders" ∧ r = 0 := by
  by_cases hn : n = ascii "orders"
  · subst hn
    exact ⟨rfl, some.inj (h.symm.trans rfl)⟩
  · have hnone : ringBroker.topics.lookup n = none := lookup_insert_ne hn
    rw [hnone] at h
    cases h

theorem ring_ringBroker : ringBroker.Ring (ascii "orders") 0 where
  lookup := by decide
  policy t ht := by cases ht; exact ⟨rfl, rfl⟩
  storing := ⟨.sample, rfl, fun _ => rfl⟩
  grouped := ⟨nodup_nil, nofun⟩
  compiled := Compiled.addTopic ⟨fun hl => by simp [new] at hl, fun hl => by simp [new] at hl⟩ _
  bound := by decide
  ids := by decide
  log id := by
    have hlog : replay (ringBroker.file (logFilename (ascii "orders"))) = [] := rfl
    have hqueued : ringBroker.queued 0 = [] := rfl
    rw [hlog, hqueued]
  unissued k _ := not_mem_nil
  apart n hn _ m hm := by
    rw [queue] at hm
    cases hl : ringBroker.topics.lookup n with
    | none =>
      rw [hl] at hm
      cases hm
    | some r => exact absurd (lookup_ringBroker hl).1 hn

theorem logOn_ringBroker (c : Codec) : LogOn c (ascii "orders") ringBroker .fresh where
  represents s hs := by
    cases hs
    exact ⟨fun _ => rfl, fun {f es} hl => by simp [LogStore.sample] at hl, fun hi => by cases hi⟩
  visible s hs := by
    cases hs
    nofun
  whole := nofun

theorem ringRun_publish
    (hw : writeRecord c (ascii "orders") ((LogEntry.put (labelledMessage value)).record 0) .fresh = (some none, d)) :
    ∃ b, RingRun c (ascii "orders") ringBroker .fresh [⟨ascii "orders", .put (labelledMessage value), 0⟩] b d ∧
      b.queued 0 = [labelledMessage value] := by
  have hret := returns_get 0 ringBroker (.publish (labelledPublish value)) rfl
  refine ⟨_, RingRun.snoc .nil (.publish rfl rfl (fun n r hl _ => ?_) hret) rfl (.cons hw .nil), rfl⟩
  rw [(lookup_ringBroker hl).2]
  rfl

def ringPublish (expiresAt : Option Time) : PublishArgs := { labelledPublish (ascii "a") with expiresAt }

/-- A run from it in which the OS does every call. -/
def QuietRun (ws : List LogCall) (b : Broker) : Prop :=
  ∃ d, RingRun (jsonCodec unixText) (ascii "orders") ringBroker .fresh ws b d ∧ d.replies = []

def ringCall (e : LogEntry) : LogCall := ⟨ascii "orders", e, 0⟩

theorem wrote_quiet {es : List LogEntry} (hd : d.replies = [])
    (hes : ∀ e ∈ es, (c.marshal (resum c (e.record 0))).isSome = true) :
    ∃ d', Wrote c (es.map ringCall) d d' ∧ d'.replies = [] := by
  induction es generalizing d with
  | nil => exact ⟨d, .nil, hd⟩
  | cons e es ih =>
    obtain ⟨line, hline⟩ := Option.isSome_iff_exists.mp (hes e mem_cons_self)
    obtain ⟨d', hrest, hd'⟩ := @ih (d.write (ascii "orders") (line ++ [10]) []) rfl
      fun e he => hes e (mem_cons_of_mem _ he)
    exact ⟨d', .cons (writeRecord_quiet (show isSafePath (ascii "orders") = none by decide) hline hd) hrest, hd'⟩

theorem QuietRun.snoc (h : QuietRun ws b) (hstep : RingStep (ascii "orders") b b') (es : List LogEntry)
    (hstorage : b'.storage = b.storage.map (·.appendAll (es.map ringCall)))
    (hes : ∀ e ∈ es, ((jsonCodec unixText).marshal (resum (jsonCodec unixText) (e.record 0))).isSome = true) :
    QuietRun (ws ++ es.map ringCall) b' := by
  obtain ⟨d, hrun, hd⟩ := h
  obtain ⟨d', hw, hd'⟩ := wrote_quiet hd hes
  exact ⟨d', .snoc hrun hstep hstorage hw, hd'⟩

theorem ringStep_publish (expiresAt : Option Time) (hb : b.topics = ringBroker.topics ∧ b.waiting 0 = [])
    (hret : (Call.run 0 40 b (Op.publish (ringPublish expiresAt)).entry).map Prod.fst = some x) :
    RingStep (ascii "orders") b (b.after 0 (.publish (ringPublish expiresAt))) := by
  refine .publish rfl rfl (fun n r hl _ => ?_) (returns_after hret)
  rw [hb.1] at hl
  rw [(lookup_ringBroker hl).2, hb.2]

def ringMessage (k : Nat) (expiresAt : Option Time) : Message :=
  { labelledMessage (ascii "a") with id := ringEnv.newUUID k, expiresAt := expiresAt }

/-- A message that is acked, one that the full topic gives up for another,
and one that expires. -/
def ringEntries : List LogEntry :=
  [.put (ringMessage 0 none), .ack (ascii "m1"), .put (ringMessage 1 none), .put (ringMessage 2 (some 5)),
    .put (ringMessage 3 none), .ack (ascii "m1a"), .ack (ascii "m1aa")]

theorem quietRun_entries : ∃ b, QuietRun (ringEntries.map ringCall) b ∧ b.queued 0 = [ringMessage 3 none] := by
  have h₀ : QuietRun [] ringBroker := ⟨.fresh, .nil, rfl⟩
  have h₁ := h₀.snoc (ringStep_publish none ⟨rfl, rfl⟩ rfl) [.put (ringMessage 0 none)] rfl (by decide +kernel)
  have h₂ := h₁.snoc (@RingStep.ack _ _ 0 (ascii "m1") _ _ (returns_after rfl)) [.ack (ascii "m1")] rfl
    (by decide +kernel)
  have h₃ := h₂.snoc (ringStep_publish none ⟨rfl, rfl⟩ rfl) [.put (ringMessage 1 none)] rfl (by decide +kernel)
  have h₄ := h₃.snoc (ringStep_publish (some 5) ⟨rfl, rfl⟩ rfl) [.put (ringMessage 2 (some 5))] rfl (by decide +kernel)
  have h₅ := h₄.snoc (ringStep_publish none ⟨rfl, rfl⟩ rfl) [.put (ringMessage 3 none), .ack (ascii "m1a")] rfl
    (by decide +kernel)
  refine ⟨_, h₅.snoc (@RingStep.sweep _ _ 10 _ _ (.next rfl rfl (.next rfl rfl (.next rfl rfl (.next rfl rfl
    (.next rfl rfl (.next rfl rfl .done))))))) [.ack (ascii "m1aa")] ?_ (by decide +kernel), ?_⟩ <;> rfl

theorem clean_ringEntries : ∀ e ∈ ringEntries, (e.record 0).Clean ∧ (e.record 0).textSize < maxTokenSize := by
  have hids : ∀ k < 4, sanitize (ringEnv.newUUID k) = ringEnv.newUUID k := by decide
  have hput : ∀ k x, k < 4 → ((LogEntry.put (ringMessage k x)).record 0).Clean := fun k x hk =>
    ⟨rfl, rfl, fun m hm => by
      cases hm
      exact ⟨hids k hk, rfl, JsonText.CleanMap.nil.insert rfl rfl⟩, rfl⟩
  have hack : ∀ k < 4, ((LogEntry.ack (ringEnv.newUUID k)).record 0).Clean := fun k hk =>
    ⟨rfl, rfl, nofun, hids k hk⟩
  intro e he
  refine ⟨?_, (show ∀ e ∈ ringEntries, (e.record 0).textSize < maxTokenSize by decide) e he⟩
  simp only [ringEntries, mem_cons, not_mem_nil, or_false] at he
  rcases he with rfl | rfl | rfl | rfl | rfl | rfl | rfl
  · exact hput 0 _ (by decide)
  · exact hack 0 (by decide)
  · exact hput 1 _ (by decide)
  · exact hput 2 _ (by decide)
  · exact hput 3 _ (by decide)
  · exact hack 1 (by decide)
  · exact hack 2 (by decide)

theorem ring_buffer_agrees_sample : ∃ b d,
    RingRun (jsonCodec unixText) (ascii "orders") ringBroker .fresh (ringEntries.map ringCall) b d ∧
      (b.queued 0).length ≤ 2 ∧
      ∀ id, id ∈ (loadMessages (jsonCodec unixText) d.disk (ascii "orders")).1.map Message.id ↔ id = ascii "m1aaa" := by
  obtain ⟨b, ⟨d, hrun, -⟩, hqueued⟩ := quietRun_entries
  obtain ⟨-, -, hids, -⟩ := ring_buffer_agrees (by decide) ring_ringBroker (logOn_ringBroker _) hrun (by
    intro w hw
    obtain ⟨e, he, rfl⟩ := mem_map.mp hw
    exact clean_ringEntries e he)
  rw [hqueued] at hids
  exact ⟨b, d, hrun, by rw [hqueued]; decide, fun id => (hids id).trans mem_singleton⟩

/-- **The log loses a message that is queued**: a header that is no UTF-8. -/
theorem ring_buffer_garbled : ∃ b d,
    RingRun (jsonCodec unixText) (ascii "orders") ringBroker .fresh [⟨ascii "orders", .put garbledMessage, 0⟩] b d ∧
      (b.queued 0).map Message.id = [ascii "m1"] ∧
      (loadMessages (jsonCodec unixText) d.disk (ascii "orders")).1.map Message.id = [] := by
  obtain ⟨d, hd⟩ : ∃ d, d = (appendPut (jsonCodec unixText) (ascii "orders") garbledMessage 0 .fresh).2 := ⟨_, rfl⟩
  have hload := load_garbled
  have hwrite := appendPut_returned appendPut_garbled
  rw [← hd] at hload hwrite
  obtain ⟨b, hrun, hqueued⟩ := @ringRun_publish _ [0xFF] d hwrite
  exact ⟨b, d, hrun, by rw [hqueued]; rfl, by rw [hload]; rfl⟩

end TinyMQ
