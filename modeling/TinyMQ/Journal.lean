/-
The log and the queues.

`publishCore` logs a message and queues it in one critical section. `Purge`
and `DeleteTopic` have two: a topic is emptied or dropped in the first, its
log is truncated or removed in the second, and a message may be published in
between. `queued_on_disk_iff` says that what is queued is in the log as long
as no log is cut while its topic has messages, and that it is not when one is.
-/
import TinyMQ.Aims
import TinyMQ.Provenance

namespace TinyMQ

open List Option Broker LogStore

variable {now : Time} {b : Broker} {left : Nat} {a : PublishArgs} {o : Outcome} {names : List GoString}

/-! ## Records written to the log -/

namespace LogStore

variable {s : LogStore} {ws : List LogCall} {n : GoString}

theorem outcome_appendAll (s : LogStore) (ws : List LogCall) : (s.appendAll ws).outcome = s.outcome := by
  induction ws generalizing s with
  | nil => rfl
  | cons x ws ih => exact (ih (s.append x.topic x.entry)).trans (outcome_append s x.topic x.entry)

theorem file_appendAll (hs : ∀ k, s.outcome k = .stored)
    (hsafe : ∀ x ∈ ws, isSafePath x.topic = none) (f : GoString) :
    (s.appendAll ws).file f = s.file f ++ (ws.filter fun x => logFilename x.topic = f).map LogCall.entry := by
  induction ws generalizing s with
  | nil => simp [appendAll]
  | cons x ws ih =>
    have hx : s.Writable x.topic := ⟨hsafe x mem_cons_self, hs _⟩
    have hs' : ∀ k, (s.append x.topic x.entry).outcome k = .stored := by rwa [outcome_append]
    have hrest := ih hs' fun y hy => hsafe y (mem_cons_of_mem _ hy)
    change ((s.append x.topic x.entry).appendAll ws).file f = _
    rw [hrest, file_append, filter_cons]
    by_cases hf : logFilename x.topic = f
    · simp [hf, hx]
    · simp [hf, Ne.symm hf]

theorem outcome_clearLog (s : LogStore) (n : GoString) (opened : Bool) :
    (s.clearLog n opened).outcome = s.outcome := by
  unfold clearLog
  split
  · rfl
  · split <;> rfl

theorem outcome_deleteLog (s : LogStore) (n : GoString) (removed : Bool) :
    (s.deleteLog n removed).outcome = s.outcome := by
  unfold deleteLog
  split
  · rfl
  · split <;> rfl

theorem clearLog_failed (s : LogStore) (n : GoString) : s.clearLog n false = s := by
  unfold clearLog
  split <;> rfl

theorem deleteLog_failed (s : LogStore) (n : GoString) : s.deleteLog n false = s := by
  unfold deleteLog
  split <;> rfl

theorem file_clearLog (h : isSafePath n = none) (f : GoString) :
    (s.clearLog n true).file f = if f = logFilename n then [] else s.file f := by
  by_cases hf : f = logFilename n
  · subst hf
    simp [clearLog, h, file]
  · simp [clearLog, h, file, hf]

theorem file_deleteLog (h : isSafePath n = none) (f : GoString) :
    (s.deleteLog n true).file f = if f = logFilename n then [] else s.file f := by
  by_cases hf : f = logFilename n
  · subst hf
    simp [deleteLog, h, file, AList.lookup_erase]
  · simp [deleteLog, h, file, hf, AList.lookup_erase_ne hf]

end LogStore

/-- The storage and the bindings of a broker. -/
structure Books where
  storage : Option LogStore
  bindings : GoString → List GoString

def Books.log (k : Books) (ws : List LogCall) : Books := { k with storage := k.storage.map (·.appendAll ws) }

@[simp] theorem Books.log_nil (k : Books) : k.log [] = k := by
  cases k with
  | mk storage bindings => cases storage <;> rfl

theorem Books.log_append (k : Books) (ws ws' : List LogCall) : k.log (ws ++ ws') = (k.log ws).log ws' := by
  simp [Books.log, appendAll, foldl_append, Function.comp_def]

namespace Broker

variable {a : PublishArgs}

def books (b : Broker) : Books := ⟨b.storage, b.bindings⟩

/-- What `publishCore` writes when it stores a message. -/
def storeWrites (b : Broker) (now : Time) (r : TopicRef) (a : PublishArgs) (m : Message) : List LogCall :=
  match b.lock r with
  | none => []
  | some t =>
    if t.deleted then []
    else
      (if a.isBroadcast then [] else [⟨a.topicName, .put m, now⟩]) ++
        if b.limits.maxMessages ≤ t.queued.length ∧ t.policy = .dropOldest then
          (t.evictOldest.map fun x => ⟨a.topicName, .ack x.1.id, now⟩).toList
        else []

variable {b b' : Broker} {r : TopicRef} {m : Message}

theorem books_getOrCreateTopic (b : Broker) (name : GoString) : (b.getOrCreateTopic name).2.books = b.books := by
  unfold getOrCreateTopic
  split
  · rfl
  · split <;> rfl

theorem books_matchingTopics (b : Broker) (topicName : GoString) :
    (b.matchingTopics topicName).2.books = b.books := by
  unfold matchingTopics
  split
  · split <;> rfl
  · rfl

theorem books_callOnPublish (b : Broker) : b.callOnPublish.2.books = b.books := by
  unfold callOnPublish
  split <;> rfl

theorem books_sendSpies (b : Broker) (m : Message) (spies : List Spy) : (b.sendSpies m spies).books = b.books := by
  induction spies generalizing b with
  | nil => rfl
  | cons spy spies ih =>
    rw [sendSpies]
    split
    · exact ih _
    · exact ih b

theorem books_trySend (h : b.trySend ch m = some b') : b'.books = b.books := by
  obtain ⟨c, -, rfl⟩ := map_eq_some_iff.mp h
  rfl

theorem books_lock {f : Topic → α × Broker} (hf : ∀ t, (f t).2.books = b.books)
    (h : (b.lock r).map f = some (x, b')) : b'.books = b.books := by
  obtain ⟨t, -, ht⟩ := map_eq_some_iff.mp h
  have hk := hf t
  rwa [ht] at hk

theorem books_logPut (b : Broker) (now : Time) (topicName : GoString) (isBroadcast : Bool) (m : Message) :
    (b.logPut topicName isBroadcast m).books =
      b.books.log (if isBroadcast then [] else [⟨topicName, .put m, now⟩]) := by
  unfold logPut
  split
  · exact (Books.log_nil _).symm
  · rfl

theorem books_store (h : b.store r a.topicName priority a.isBroadcast m = some (err, b')) :
    b'.books = b.books.log (b.storeWrites now r a m) := by
  obtain ⟨t, ht, hst⟩ := store_cases h
  simp only [storeWrites, ht]
  cases hst with
  | deleted hdel => rw [if_pos hdel, Books.log_nil]
  | refused hdel hfull hpolicy =>
    simp only [hdel, hpolicy, reduceCtorEq, and_false, if_false, append_nil, Bool.false_eq_true]
    exact books_logPut b now a.topicName a.isBroadcast m
  | evicted hdel hfull hpolicy hev =>
    simp only [hdel, hfull, hpolicy, hev, and_self, if_true, if_false, Bool.false_eq_true,
      Books.log_append, ← books_logPut]
    rfl
  | kept hdel hroom =>
    simp only [hdel, Nat.not_le.mpr hroom, false_and, if_false, append_nil, Bool.false_eq_true]
    exact books_logPut b now a.topicName a.isBroadcast m

/-- What is written when a message is stored: its put, and the ack of a
message that leaves the queue for it. -/
theorem mem_storeWrites
    (h : b.store r a.topicName priority a.isBroadcast m = some (err, b')) (hx : x ∈ b.storeWrites now r a m) :
    x.topic = a.topicName ∧ (x.entry = .put m ∨ ∃ oldest rest, x.entry = .ack oldest.id ∧
      (b.queued r).Perm (oldest :: rest) ∧ (b'.queued r).Perm (m :: rest)) := by
  obtain ⟨t, ht, hst⟩ := store_cases h
  have hput : x ∈ (if a.isBroadcast then [] else [⟨a.topicName, .put m, now⟩] : List LogCall) →
      x.topic = a.topicName ∧ x.entry = .put m := by
    intro hx
    split at hx
    · cases hx
    · cases mem_singleton.mp hx
      exact ⟨rfl, rfl⟩
  simp only [storeWrites, ht] at hx
  cases hst with
  | deleted hdel => simp [hdel] at hx
  | refused hdel hfull hpolicy =>
    simp only [hdel, hpolicy, reduceCtorEq, and_false, if_false, append_nil, Bool.false_eq_true] at hx
    exact (hput hx).imp_right .inl
  | @evicted oldest t₁ hdel hfull hpolicy hev =>
    simp only [hdel, hfull, hpolicy, hev, and_self, if_true, if_false, Bool.false_eq_true,
      mem_append] at hx
    rcases hx with hx | hx
    · exact (hput hx).imp_right .inl
    · cases mem_singleton.mp hx
      have hlock :
          ((b.logPut a.topicName a.isBroadcast m).log a.topicName (.ack oldest.id)).lock r = some t := by
        simpa only [lock, log, heap_logPut] using ht
      refine ⟨rfl, .inr ⟨oldest, t₁.queued, rfl, ?_, ?_⟩⟩
      · rw [queued_of_lock ht]
        exact (Topic.evictOldest_spec hev).1
      · rw [queued_setTopic hlock, if_pos rfl]
        exact t₁.queued_append priority m
  | kept hdel hroom =>
    simp only [hdel, Nat.not_le.mpr hroom, false_and, if_false, append_nil, Bool.false_eq_true] at hx
    exact (hput hx).imp_right .inl

theorem put_mem_storeWrites (hb : a.isBroadcast = false)
    (h : b.store r a.topicName priority a.isBroadcast m = some (none, b')) :
    ⟨a.topicName, .put m, now⟩ ∈ b.storeWrites now r a m := by
  obtain ⟨t, ht, hst⟩ := store_cases h
  have hdel : t.deleted = false := by
    cases hst with
    | evicted hdel | kept hdel => exact hdel
  simp [storeWrites, ht, hdel, hb]

end Broker

def Pc.writes (now : Time) (b : Broker) : Pc → List LogCall
  | .publish _ a (.store t _ m _) => b.storeWrites now t a m
  | .consume _ (.scanAck _ _ _ name (id :: _)) => [⟨name, .ack id, now⟩]
  | .consume _ (.targetAck _ name (id :: _)) => [⟨name, .ack id, now⟩]
  | .ackAt t topicName msgID =>
    if (b.lock t).any fun t => (t.remove? msgID).isSome then [⟨topicName, .ack msgID, now⟩] else []
  | .requeuePut _ m => [⟨m.topic, .put m, now⟩]
  | _ => []

def MethodPc.writes (now : Time) : MethodPc → List LogCall
  | .redrive _ dlqName (m :: _) _ => [⟨dlqName, .ack m.id, now⟩]
  | .sweepAck _ _ name (id :: _) => [⟨name, .ack id, now⟩]
  | _ => []

/-- **What a section does to the storage and the bindings.** -/
def Section.books (now : Time) (b : Broker) : Section → Books
  | .call pc => b.books.log (pc.writes now b)
  | .method (.clearLog topicName opened) => (b.clearLog topicName opened).books
  | .method (.deleteLog topicName removed) => (b.deleteLog topicName removed).books
  | .method (.createGroup topicName groupName) =>
    if validTopicRegex groupName then (b.bind topicName (virtualName topicName groupName)).books else b.books
  | .method pc => b.books.log (pc.writes now)

theorem PublishPc.step_books
    (h : k.step now b left a = some o) : o.broker.books = b.books.log ((Pc.publish left a k).writes now b) := by
  have hhook : (if a.isReplication then ((none : Option GoString), b) else b.callOnPublish).2.books = b.books := by
    split
    · rfl
    · exact b.books_callOnPublish
  have hget := b.books_getOrCreateTopic a.topicName
  cases PublishPc.steps h with
  | full hb | getTopic hb => rw [hb] at hget; exact hget.trans (Books.log_nil _).symm
  | refused hb | onPublish hb => rw [hb] at hhook; exact hhook.trans (Books.log_nil _).symm
  | @failed t ws m _ _ b' hb | @delayed t ws m b' hb | @stored t ws m b' hb =>
    have hk : b'.books = b.books.log (b.storeWrites now t a m) := books_store hb
    exact hk
  | _ => exact (Books.log_nil _).symm

theorem PushPc.step_books {k : PushPc} (h : k.step b p = some o) : o.broker.books = b.books := by
  cases PushPc.steps h with
  | spies hb | wildSpy hb =>
    obtain ⟨t, -, rfl⟩ := map_eq_some_iff.mp hb
    exact b.books_sendSpies _ _
  | takeWild hb => exact books_lock (fun _ => rfl) hb
  | @takeOwn _ _ b' hb =>
    have hk : b'.books = b.books := books_lock (fun _ => rfl) hb
    exact hk
  | popWild hb | noneWild hb | popOwn hb | noneOwn hb => exact books_lock (fun t => by split <;> rfl) hb
  | sentWild hb | sentOwn hb => exact books_trySend hb
  | holdWild hb | remove hb =>
    obtain ⟨t, -, rfl⟩ := map_eq_some_iff.mp hb
    rfl
  | spied | tookWild | poppedWild | fullWild | fullOwn => rfl

theorem ConsumePc.step_books
    (h : k.step now b q = some o) : o.broker.books = b.books.log ((Pc.consume q k).writes now b) := by
  have hget := b.books_getOrCreateTopic q.topicName
  cases ConsumePc.steps h with
  | full hb | getTopic hb => rw [hb] at hget; exact hget.trans (Books.log_nil _).symm
  | getMatching => exact (b.books_matchingTopics _).trans (Books.log_nil _).symm
  | scan hb | target hb =>
    refine Eq.trans ?_ (Books.log_nil _).symm
    exact books_lock (fun _ => rfl) hb
  | scanAck | targetAck => rfl
  | _ => exact (Books.log_nil _).symm

theorem Pc.step_books {pc : Pc} (h : pc.step now b = some o) : o.broker.books = b.books.log (pc.writes now b) := by
  cases Pc.steps h with
  | publish h => exact PublishPc.step_books h
  | push h => exact (PushPc.step_books h).trans (Books.log_nil _).symm
  | consume h => exact ConsumePc.step_books h
  | castSent hb => exact (books_trySend hb).trans (Books.log_nil _).symm
  | ackAt hb =>
    obtain ⟨t, ht, hb⟩ := map_eq_some_iff.mp hb
    rw [writes, ht, any_some]
    split at hb
    next t' hrem => cases hb; rw [hrem]; rfl
    next hrem => cases hb; rw [hrem]; exact (Books.log_nil _).symm
  | leaveAt hb =>
    obtain ⟨t, -, rfl⟩ := map_eq_some_iff.mp hb
    exact (Books.log_nil _).symm
  | @requeueFull m _ hb | @requeueFound m _ _ hb =>
    have hk := b.books_getOrCreateTopic (requeued m).topic
    rw [hb] at hk
    exact hk.trans (Books.log_nil _).symm
  | requeuePut => rfl
  | requeueAt hb =>
    refine Eq.trans ?_ (Books.log_nil _).symm
    obtain ⟨t, ht, hb⟩ := map_eq_some_iff.mp hb
    split at hb
    · cases hb; rfl
    · dsimp only at hb
      split at hb
      next b₁ hsent =>
        cases hb
        have hk : b₁.books = b.books := books_trySend hsent
        exact hk
      next => cases hb; rfl
  | _ => exact (Books.log_nil _).symm

theorem MethodPc.step_books {ret pc o} (h : MethodPc.step now b ret pc = some o) :
    o.broker.books = (Section.method pc).books now b := by
  -- The sections that write nothing.
  have hsame : o.broker.books = b.books → o.broker.books = b.books.log [] := fun hk =>
    hk.trans (Books.log_nil _).symm
  cases MethodPc.steps h with
  | clearLog | deleteLog | redrive | sweepAck => rfl
  | groupInvalid hg | createGroup hg => simp [Section.books, hg, MethodOutcome.goto]
  | spyFull | createGroupAt => exact hsame (b.books_getOrCreateTopic _)
  | @addSpy n r b' hb =>
    have hk := b.books_getOrCreateTopic n
    rw [hb] at hk
    exact hsame hk
  | addSpyAt hb => exact hsame (books_lock (fun _ => rfl) hb)
  | removeSpyAt hb => exact hsame (books_lock (fun _ => by split <;> rfl) hb)
  | @createTopic n policy retention e =>
    refine hsame ?_
    show (b.createTopic n policy retention).2.books = b.books
    unfold Broker.createTopic
    repeat' split
    all_goals rfl
  | _ => exact hsame rfl

/-! ## Calls that publish, purge and delete -/

/-- Topic names that are safe and have log files of their own. -/
structure OwnLogs (names : List GoString) : Prop where
  safe : ∀ n ∈ names, isSafePath n = none
  inj : ∀ n ∈ names, ∀ n' ∈ names, logFilename n = logFilename n' → n = n'

/-- `Publish` without a broadcast, and what comes of it, under these names. -/
def Pc.Records (names : List GoString) : Pc → Prop
  | .publish _ a k => a.isBroadcast = false ∧ a.topicName ∈ names ∧ ∀ dests, k = .fanOut dests → dests ⊆ names
  | .push _ _ => True
  | .broadcast _ _ => True
  | _ => False

/-- `Purge` and `DeleteTopic` under these names, and the methods that make
topics, groups and spies. -/
def MethodPc.Records (names : List GoString) : MethodPc → Prop
  | .purge n _ => n ∈ names
  | .purgeAt _ n _ => n ∈ names
  | .clearLog n _ => n ∈ names
  | .deleteTopic n _ => n ∈ names
  | .deleteLog n _ => n ∈ names
  | .createGroup T g => virtualName T g ∈ names
  | .addSpy _ => True
  | .addSpyAt _ _ => True
  | .removeSpy _ _ => True
  | .removeSpyAt _ _ => True
  | .createTopic _ _ _ => True
  | .createGroupAt _ => True
  | .done _ => True
  | _ => False

theorem PublishPc.dests_subset (h : PublishPc.step now b left a .enter = some o)
    (hn : o.next = .goto (.publish left a (.fanOut dests))) : dests ⊆ b.bindings a.topicName := by
  simp only [step] at h
  split at h
  · cases h; cases hn
  split at h
  · cases h; cases hn
  split at h
  · cases h; cases hn
  · cases h; cases hn
    exact (b.env.order_perm _ _).subset

theorem Pc.Records.next {b : Broker} {pc : Pc} {o}
    (hb : ∀ T, b.bindings T ⊆ names) (ho : pc.step now b = some o) (h : pc.Records names) :
    o.next.All (Pc.Records names) := by
  have hflow := Pc.step_flow ho
  cases hnext : o.next with
  | ret r => trivial
  | call dest caller =>
    rw [hnext] at hflow
    cases hflow
    have hdests := h.2.2 _ rfl
    exact ⟨⟨h.1, hdests mem_cons_self, nofun⟩,
      ⟨h.1, h.2.1, fun dests heq => by cases heq; exact fun d hd => hdests (mem_cons_of_mem _ hd)⟩⟩
  | goto pc' =>
    rw [hnext] at hflow
    cases hflow with
    | @enter left a dests =>
      have hstep : PublishPc.step now b left a .enter = some o := ho
      refine ⟨h.1, h.2.1, fun dests heq => ?_⟩
      cases heq
      exact fun d hd => hb _ (PublishPc.dests_subset hstep hnext hd)
    | group | fanOut | getTopic | getWildcards | newMessage | onPublish => exact ⟨h.1, h.2.1, nofun⟩
    | find | getMatching | scan | scanned | scanAck | scanNext | target | targetAck | ack | removeWaiting | requeue
    | requeuePut => exact h.elim
    | _ => trivial

theorem MethodPc.Records.next {names now b ret pc o} (ho : MethodPc.step now b ret pc = some o)
    (h : pc.Records names) : o.next.Records names ∧ o.call = none := by
  cases MethodPc.steps ho with
  | purge | purgeAt ht | deleteTopic hr ht => exact ⟨h, rfl⟩
  | purgeMissing | clearLog | deleteMissing | deleteLog | spyInvalid | spyFull | addSpy hb | addSpyAt hb
  | removeSpyMissing | removeSpy | removeSpyAt hb | createTopic | groupInvalid hg | createGroup hg | createGroupAt =>
    exact ⟨trivial, rfl⟩
  | _ => exact h.elim

/-- `Publish` without a broadcast, under one of these names. -/
def Op.Records (names : List GoString) : Op → Prop
  | .publish a => a.isBroadcast = false ∧ a.topicName ∈ names
  | _ => False

/-- `Purge` and `DeleteTopic` under one of these names, or a method that
makes topics, groups and spies. -/
def Method.Records (names : List GoString) : Method → Prop
  | .purge n _ => n ∈ names
  | .deleteTopic n _ => n ∈ names
  | .createGroup T g => virtualName T g ∈ names
  | .redriveDLQ _ => False
  | .purgeExpiredMessages => False
  | .addSpy _ => True
  | .removeSpy _ _ => True
  | .createTopic _ _ _ => True

def WorldLabel.Records (names : List GoString) : WorldLabel → Prop
  | .sys (.start _ op) => op.Records names
  | .start _ m => m.Records names
  | _ => True

instance (names : List GoString) : (op : Op) → Decidable (op.Records names)
  | .publish _ => inferInstanceAs (Decidable (_ ∧ _))
  | .consume _ => .isFalse id
  | .ack _ _ => .isFalse id
  | .removeWaitingConsumer _ _ => .isFalse id
  | .requeue _ => .isFalse id

instance (names : List GoString) : (m : Method) → Decidable (m.Records names)
  | .purge _ _ => inferInstanceAs (Decidable (_ ∈ _))
  | .deleteTopic _ _ => inferInstanceAs (Decidable (_ ∈ _))
  | .createGroup _ _ => inferInstanceAs (Decidable (_ ∈ _))
  | .redriveDLQ _ => .isFalse id
  | .purgeExpiredMessages => .isFalse id
  | .addSpy _ => .isTrue trivial
  | .removeSpy _ _ => .isTrue trivial
  | .createTopic _ _ _ => .isTrue trivial

instance (names : List GoString) : (l : WorldLabel) → Decidable (l.Records names)
  | .sys (.start _ op) => inferInstanceAs (Decidable (op.Records names))
  | .start _ m => inferInstanceAs (Decidable (m.Records names))
  | .sys (.tick _) => .isTrue trivial
  | .sys (.run _) => .isTrue trivial
  | .sys (.fire _ _) => .isTrue trivial
  | .sys (.recv _) => .isTrue trivial
  | .run _ => .isTrue trivial
  | .recvSpy _ => .isTrue trivial

theorem Op.Records.entry {op : Op} (h : op.Records names) : op.entry.pc.Records names := by
  cases op with
  | publish a => exact ⟨h.1, h.2, nofun⟩
  | _ => exact h.elim

theorem Method.Records.entry {m : Method} (h : m.Records names) : m.entry.Records names := by
  cases m <;> exact h

/-- Every queued message is live in the log of its topic. -/
def Broker.OnDisk (b : Broker) : Prop := ∀ n, ∀ m ∈ b.queue n, m ∈ replay (b.file (logFilename n))

theorem Broker.mem_queue : m ∈ b.queue n ↔ ∃ r, b.topics.lookup n = some r ∧ m ∈ b.queued r := by
  unfold queue
  cases b.topics.lookup n <;> simp

namespace World

variable {s : LogStore}

variable {w w' : World} {l : WorldLabel} {names : List GoString} {limits : Limits} {policy : Policy}
  {hooked : Bool}
  {env : Env} {chans : Chan → Channel} {now : Time}

theorem books_step (hs : w.step l = some w') :
    w'.broker.books = ((w.sectionOf l).map fun sec => sec.books w.now w.broker).getD w.broker.books := by
  cases hsec : w.sectionOf l with
  | some sec =>
    cases sec with
    | call pc =>
      obtain ⟨o, ho, hb⟩ := step_call hs hsec
      rw [hb]
      exact Pc.step_books ho
    | method pc =>
      obtain ⟨ret, o, ho, hb⟩ := step_method hs hsec
      rw [hb]
      exact MethodPc.step_books ho
  | none =>
    cases l with
    | sys l =>
      obtain ⟨-, s, hsys, rfl⟩ := step_sys hs
      cases l with
      | tick d => cases hsys; rfl
      | start i op =>
        obtain ⟨-, -, rfl⟩ := Sys.step_start hsys
        rfl
      | run i =>
        obtain ⟨c, o, hc, -, -⟩ := Sys.step_run hsys
        simp [sectionOf, hc] at hsec
      | fire k i =>
        obtain ⟨g, c, -, -, -, -, rfl⟩ := Sys.step_fire hsys
        rfl
      | recv ch =>
        obtain ⟨m, rest, -, rfl⟩ := Sys.step_recv hsys
        rfl
    | start i m =>
      obtain ⟨-, -, rfl⟩ := step_start hs
      rfl
    | run i =>
      obtain ⟨pc, o, hpc, -, -⟩ := step_run hs
      simp [sectionOf, hpc] at hsec
    | recvSpy ch =>
      obtain ⟨spyChans, rfl⟩ := step_recvSpy hs
      rfl

def writes (w : World) (l : WorldLabel) : List LogCall :=
  match w.sectionOf l with
  | some (.call pc) => pc.writes w.now w.broker
  | some (.method pc) => pc.writes w.now
  | none => []

/-- The topic whose log a step truncates or removes. -/
def cuts (w : World) (l : WorldLabel) : Option GoString :=
  match w.sectionOf l with
  | some (.method (.clearLog n true)) => some n
  | some (.method (.deleteLog n true)) => some n
  | _ => none

theorem storage_of_writes (hst : w.broker.storage = some s) (hs : w.step l = some w')
    (hcut : w.cuts l = none) : w'.broker.storage = some (s.appendAll (w.writes l)) := by
  have hk : w'.broker.storage = _ := congrArg Books.storage (books_step hs)
  have hlog : ∀ ws, (w.broker.books.log ws).storage = some (s.appendAll ws) := fun ws => by
    simp [Books.log, Broker.books, hst]
  rw [hk]
  unfold cuts at hcut
  unfold writes
  cases hsec : w.sectionOf l with
  | none => exact hst
  | some sec =>
    rw [hsec] at hcut
    cases sec with
    | call pc => exact hlog _
    | method pc =>
      cases pc with
      | clearLog n opened =>
        cases opened
        · simp [Section.books, Broker.books, Broker.clearLog, hst, clearLog_failed]
          rfl
        · cases hcut
      | deleteLog n removed =>
        cases removed
        · simp [Section.books, Broker.books, Broker.deleteLog, hst, deleteLog_failed]
          rfl
        · cases hcut
      | createGroup S g =>
        simp only [map_some, getD_some, Section.books]
        split <;> exact hst
      | _ => exact hlog _

theorem storage_of_cut (hst : w.broker.storage = some s) (hs : w.step l = some w') (hcut : w.cuts l = some n) :
    w'.broker.storage = some (s.clearLog n true) ∨ w'.broker.storage = some (s.deleteLog n true) := by
  have hk : w'.broker.storage = _ := congrArg Books.storage (books_step hs)
  rw [hk]
  unfold cuts at hcut
  split at hcut
  next n' hsec =>
    cases hcut
    exact .inl (by simp [hsec, Section.books, Broker.books, Broker.clearLog, hst])
  next n' hsec =>
    cases hcut
    exact .inr (by simp [hsec, Section.books, Broker.books, Broker.deleteLog, hst])
  next => cases hcut

/-- **Calls that publish, purge and delete** under these names, on a broker
whose writes to the log all succeed. -/
structure Logged (names : List GoString) (w : World) : Prop where
  aims : w.Aims
  traced : w.Traced
  calls : w.sys.AllCalls (Call.All (Pc.Records names))
  methods : ∀ i pc, w.methods i = some pc → pc.Records names
  bindings : ∀ T, w.broker.bindings T ⊆ names
  storage : ∃ s, w.broker.storage = some s ∧ ∀ k, s.outcome k = .stored
  originals : ∀ x ∈ w.past.appended, x.2.original = true
  named : ∀ r n, w.broker.nameOf r = some n → w.broker.queued r ≠ [] → n ∈ names

variable {i : Nat} {pc : Pc}

theorem Logged.at (h : w.Logged names) (hpc : w.pcAt i = some pc) : pc.Records names := by
  obtain ⟨c, hc, rfl⟩ := map_eq_some_iff.mp hpc
  exact h.calls i c hc _ mem_cons_self

namespace Logged

theorem appends (h : w.Logged names) (hpc : w.pcAt i = some pc) (happ : pc.appends w.broker = some x) :
    ∃ left a ws isDelayed, pc = .publish left a (.store x.1 ws x.2 isDelayed) := by
  rcases Pc.appends_eq happ with hstore | rfl
  · exact hstore
  · exact (h.at hpc).elim

theorem calls_step (h : w.Logged names) (hl : l.Records names) (hs : w.step l = some w') :
    w'.sys.AllCalls (Call.All (Pc.Records names)) := by
  refine all_step h.calls hs (fun _ hp => hp) (fun i op heq => ?_) (fun g hg c hc => ?_)
    (fun i pc o a heq hpc ho ha => ?_) fun i pc o heq hpc ho hb hp => hp.next h.bindings ho
  · subst heq
    exact Op.Records.entry hl
  · rcases Goroutine.entry_eq hc with ⟨due, push, -, -, rfl⟩ | ⟨channels, m, -, rfl⟩ <;> trivial
  · rw [((h.methods i pc hpc).next ho).2] at ha
    cases ha

theorem bindings_step (h : w.Logged names) (hs : w.step l = some w') (T : GoString) :
    w'.broker.bindings T ⊆ names := by
  have hk : w'.broker.bindings = _ := congrArg Books.bindings (books_step hs)
  rw [hk]
  cases hsec : w.sectionOf l with
  | none => exact h.bindings T
  | some sec =>
    cases sec with
    | call pc => exact h.bindings T
    | method pc =>
      obtain ⟨i, -, hpc⟩ := sectionOf_method hsec
      cases pc with
      | createGroup S g =>
        simp only [map_some, getD_some, Section.books]
        split
        · intro d hd
          rcases mem_bind.mp hd with ⟨-, rfl⟩ | hold
          · exact h.methods i _ hpc
          · exact h.bindings T hold
        · exact h.bindings T
      | _ => exact h.bindings T

theorem storage_step (h : w.Logged names) (hs : w.step l = some w') :
    ∃ s, w'.broker.storage = some s ∧ ∀ k, s.outcome k = .stored := by
  obtain ⟨s, hst, hout⟩ := h.storage
  cases hcut : w.cuts l with
  | none => exact ⟨_, storage_of_writes hst hs hcut, by rwa [outcome_appendAll]⟩
  | some n =>
    rcases storage_of_cut hst hs hcut with hclear | hdelete
    · exact ⟨_, hclear, by rwa [outcome_clearLog]⟩
    · exact ⟨_, hdelete, by rwa [outcome_deleteLog]⟩

theorem originals_step (h : w.Logged names) (hs : w.step l = some w')
    (hx : x ∈ w'.past.appended) : x.2.original = true := by
  obtain ⟨new, happ, hnew⟩ := appended_prefix h.aims.framed hs
  rw [happ] at hx
  rcases mem_append.mp hx with hx | hx
  · exact h.originals x hx
  · obtain ⟨i, pc, -, hpc, happ⟩ := hnew x hx
    obtain ⟨left, a, ws, isDelayed, rfl⟩ := h.appends hpc happ
    exact h.traced.draft i _ _ hpc mem_cons_self

theorem stores (h : w.Logged names) (hpc : w.pcAt i = some (.publish left a (.store r ws m isDelayed))) :
    a.isBroadcast = false ∧ a.topicName ∈ names ∧ w.broker.nameOf r = some a.topicName := by
  obtain ⟨hbroad, hname, -⟩ := h.at hpc
  obtain ⟨htopic, haimed⟩ := h.aims.at hpc
  exact ⟨hbroad, hname, htopic ▸ haimed.own⟩

theorem named_step (h : w.Logged names) (hs : w.step l = some w')
    (hn : w'.broker.nameOf r = some n) (hq : w'.broker.queued r ≠ []) : n ∈ names := by
  have hkeep := keepsNames_step hs
  rcases step_queued hs r with hsub | ⟨i, pc, m, rfl, hpc, happ, -⟩
  · have hq' : w.broker.queued r ≠ [] := by
      intro hnil
      rw [hnil] at hsub
      exact hq (subperm_nil.mp hsub)
    cases hn' : w.broker.nameOf r with
    | none =>
      have hnone : w.broker.heap[r]? = none := map_eq_none_iff.mp hn'
      exact absurd (by simp [queued, hnone]) hq'
    | some n' =>
      cases (hkeep r n' hn').symm.trans hn
      exact h.named r n hn' hq'
  · obtain ⟨left, a, ws, isDelayed, rfl⟩ := h.appends hpc happ
    obtain ⟨-, hname, hown⟩ := h.stores hpc
    cases (hkeep r _ hown).symm.trans hn
    exact hname

theorem step (h : w.Logged names) (hl : l.Records names) (hs : w.step l = some w') : w'.Logged names where
  aims := h.aims.step hs
  traced := h.traced.step hs
  calls := h.calls_step hl hs
  methods := by
    refine all_methods_step h.methods hs (fun i m heq => ?_) fun i pc o heq hpc ho hp => (hp.next ho).1
    subst heq
    exact Method.Records.entry hl
  bindings := h.bindings_step hs
  storage := h.storage_step hs
  originals _ := h.originals_step hs
  named _ _ := h.named_step hs

/-! ### The log -/

theorem mem_originals (h : w.Logged names) (hm : m ∈ w.broker.queued r) : (r, m) ∈ w.originals :=
  h.traced.mem_originals hm (h.originals _ (h.traced.mem_appended hm))

theorem queued_nodup (h : w.Logged names) (r : TopicRef) : (w.broker.queued r).Nodup := by
  have hall : w.originals = w.past.appended := filter_eq_self.mpr h.originals
  have hnodup : w.past.appended.Nodup := by
    have hids : (w.past.appended.map fun x => x.2.id).Nodup := hall ▸ h.traced.ids.places_nodup
    exact hids.of_map _
  have hto : (w.appendedTo r).Nodup := by
    refine (hnodup.filter _).map_on fun x hx y hy heq => Prod.ext ?_ heq
    have hx := (mem_filter.mp hx).2
    have hy := (mem_filter.mp hy).2
    exact (of_decide_eq_true hx).trans (of_decide_eq_true hy).symm
  obtain ⟨q, hq, hsub⟩ := h.traced.queued r
  exact hq.nodup_iff.mp (hto.sublist hsub)

theorem write (h : w.Logged names) (hs : w.step l = some w') (hx : x ∈ w.writes l) :
    ∃ i left a r ws m isDelayed, l = .sys (.run i) ∧ w.pcAt i = some (.publish left a (.store r ws m isDelayed)) ∧
      x.topic = a.topicName ∧ (x.entry = .put m ∨ ∃ oldest rest, x.entry = .ack oldest.id ∧
        (w.broker.queued r).Perm (oldest :: rest) ∧ (w'.broker.queued r).Perm (m :: rest)) := by
  unfold writes at hx
  split at hx
  next pc hsec =>
    obtain ⟨o, ho, hb⟩ := step_call hs hsec
    obtain ⟨i, c, rfl, hc, rfl⟩ := sectionOf_call hsec
    have hpc : w.pcAt i = some c.pc := by simp [pcAt, hc]
    have hrec := h.at hpc
    generalize c.pc = pc at *
    cases pc with
    | publish left a k =>
      cases k with
      | store r ws m isDelayed =>
        obtain ⟨⟨e, b'⟩, hst, rfl⟩ := map_eq_some_iff.mp ho
        have hmem := mem_storeWrites hst hx
        have hq : w'.broker.queued r = b'.queued r := by
          rw [hb]
          cases e with
          | some e => rfl
          | none => cases isDelayed <;> rfl
        rw [← hq] at hmem
        exact ⟨i, left, a, r, ws, m, isDelayed, rfl, hpc, hmem⟩
      | _ => cases hx
    | push | broadcast => cases hx
    | _ => exact hrec.elim
  next pc hsec =>
    obtain ⟨i, -, hpc⟩ := sectionOf_method hsec
    have hrec := h.methods i pc hpc
    cases pc with
    | redrive | sweepAck => exact hrec.elim
    | _ => cases hx
  next => cases hx

/-- **Nothing is written against a message that stays queued.** -/
theorem spared (h : w.Logged names) (hs : w.step l = some w')
    (hm : m ∈ w'.broker.queued r) (hx : x ∈ w.writes l) (hkey : x.entry.entry.key = m.id) : x.entry = .put m := by
  obtain ⟨i, left, a, r₀, ws, m₀, isDelayed, rfl, hpc, -, hentry⟩ := h.write hs hx
  have hdraft : m₀ ∈ (Pc.publish left a (.store r₀ ws m₀ isDelayed)).draft := mem_cons_self
  -- What was queued before has another identifier than the message to store.
  have hother : ∀ {r m}, m ∈ w.broker.queued r → m.id ≠ m₀.id := fun hm =>
    h.traced.unstored hpc hdraft (h.mem_originals hm)
  have hcases : m = m₀ ∨ m ∈ w.broker.queued r := by
    rcases step_queued hs r with hsub | ⟨j, pc, m₁, heq, hpc', happ, hsub⟩
    · exact .inr (hsub.subset hm)
    · cases heq
      cases hpc.symm.trans hpc'
      obtain ⟨left, a, ws, isDelayed, heq⟩ := h.appends hpc happ
      cases heq
      exact mem_cons.mp (hsub.subset hm)
  rcases hentry with hput | ⟨oldest, rest, hack, hbefore, hafter⟩
  · rw [hput] at hkey ⊢
    rcases hcases with rfl | hold
    · rfl
    · exact absurd hkey.symm (hother hold)
  · rw [hack] at hkey
    have hevicted : oldest ∈ w.broker.queued r₀ := hbefore.mem_iff.mpr mem_cons_self
    rcases hcases with rfl | hold
    · exact absurd hkey (hother hevicted)
    · -- It is the message that is evicted, which was queued once.
      have hsame := h.traced.unique (h.mem_originals hevicted) (h.mem_originals hold) hkey
      cases hsame
      have hrest : m ∈ rest := by
        rcases mem_cons.mp (hafter.mem_iff.mp hm) with rfl | hrest
        · exact absurd rfl (hother hevicted)
        · exact hrest
      have hnodup := hbefore.nodup_iff.mp (h.queued_nodup r)
      exact absurd hrest (nodup_cons.mp hnodup).1

theorem cut_named (h : w.Logged names) (hcut : w.cuts l = some n) : n ∈ names := by
  unfold cuts at hcut
  split at hcut
  next hsec =>
    cases hcut
    obtain ⟨i, -, hpc⟩ := sectionOf_method hsec
    exact h.methods i _ hpc
  next hsec =>
    cases hcut
    obtain ⟨i, -, hpc⟩ := sectionOf_method hsec
    exact h.methods i _ hpc
  next => cases hcut

theorem file_of_writes (h : w.Logged names) (hown : OwnLogs names) (hs : w.step l = some w') (hcut : w.cuts l = none)
    (f : GoString) : w'.broker.file f =
      w.broker.file f ++ ((w.writes l).filter fun x => logFilename x.topic = f).map LogCall.entry := by
  obtain ⟨s, hst, hout⟩ := h.storage
  have hsafe : ∀ x ∈ w.writes l, isSafePath x.topic = none := by
    intro x hx
    obtain ⟨i, left, a, r, ws, m, isDelayed, -, hpc, htopic, -⟩ := h.write hs hx
    exact hown.safe _ (htopic ▸ (h.stores hpc).2.1)
  simp only [Broker.file, hst, storage_of_writes hst hs hcut, map_some, getD_some]
  exact file_appendAll hout hsafe f

theorem file_of_cut (h : w.Logged names) (hown : OwnLogs names) (hs : w.step l = some w') {n}
    (hcut : w.cuts l = some n) (f : GoString) :
    w'.broker.file f = if f = logFilename n then [] else w.broker.file f := by
  obtain ⟨s, hst, -⟩ := h.storage
  have hsafe := hown.safe n (h.cut_named hcut)
  rcases storage_of_cut hst hs hcut with hclear | hdelete
  · simp only [Broker.file, hst, hclear, map_some, getD_some]
    exact file_clearLog hsafe f
  · simp only [Broker.file, hst, hdelete, map_some, getD_some]
    exact file_deleteLog hsafe f

theorem queue_of_cut (hs : w.step l = some w') (hcut : w.cuts l = some n) (k : GoString) :
    w'.broker.queue k = w.broker.queue k := by
  unfold cuts at hcut
  split at hcut
  next hsec =>
    obtain ⟨ret, o, ho, hb⟩ := step_method hs hsec
    cases ho
    rw [hb]
    rfl
  next hsec =>
    obtain ⟨ret, o, ho, hb⟩ := step_method hs hsec
    cases ho
    rw [hb]
    rfl
  next => cases hcut

/-- Where a message that is queued after a step comes from. -/
theorem queue_step (h : w.Logged names) (hs : w.step l = some w')
    (hm : m ∈ w'.broker.queue n) : m ∈ w.broker.queue n ∨ ∃ x ∈ w.writes l, x.topic = n ∧ x.entry = .put m := by
  obtain ⟨r, hlookup, hmem⟩ := mem_queue.mp hm
  have hold : m ∈ w.broker.queued r → m ∈ w.broker.queue n := by
    intro hq
    refine mem_queue.mpr ⟨r, ?_, hq⟩
    rcases (step_heap hs).lookup hlookup with hl | rfl
    · exact hl
    · simp [queued] at hq
  rcases step_queued hs r with hsub | ⟨i, pc, m₁, rfl, hpc, happ, hsub⟩
  · exact .inl (hold (hsub.subset hmem))
  · rcases mem_cons.mp (hsub.subset hmem) with rfl | hq
    · obtain ⟨left, a, ws, isDelayed, rfl⟩ := h.appends hpc happ
      obtain ⟨hbroad, -, hown⟩ := h.stores hpc
      -- The topic is the one under the name of the `Publish`.
      have hname : a.topicName = n := by
        have hafter := keepsNames_step hs r _ hown
        rw [nameOf_of_lookup hlookup] at hafter
        exact (some.inj hafter).symm
      refine .inr ⟨⟨a.topicName, .put m, w.now⟩, ?_, hname, rfl⟩
      obtain ⟨c, hc, hcpc⟩ := map_eq_some_iff.mp hpc
      simp only [writes, sectionOf, hc, map_some, hcpc, Pc.writes]
      simp only [Pc.appends] at happ
      split at happ
      next b' hst => exact put_mem_storeWrites hbroad hst
      next => cases happ
    · exact .inl (hold hq)

/-- **A step that cuts no log** keeps what is queued on disk. -/
theorem onDisk_of_writes (h : w.Logged names) (hown : OwnLogs names) (hdisk : w.broker.OnDisk)
    (hs : w.step l = some w') (hcut : w.cuts l = none) : w'.broker.OnDisk := by
  intro n m hm
  obtain ⟨r, -, hmem⟩ := mem_queue.mp hm
  rw [h.file_of_writes hown hs hcut, mem_replay, map_append]
  refine KeyedLog.final_append_of_put (fun e he hkey => ?_) ?_
  · obtain ⟨entry, hentry, rfl⟩ := List.mem_map.mp he
    obtain ⟨x, hx, rfl⟩ := List.mem_map.mp hentry
    rw [h.spared hs hmem (mem_of_mem_filter hx) hkey]
    rfl
  · rcases h.queue_step hs hm with hold | ⟨x, hx, htopic, hput⟩
    · exact .inl (mem_replay.mp (hdisk n m hold))
    · refine .inr (List.mem_map.mpr ⟨.put m, List.mem_map.mpr ⟨x, ?_, hput⟩, rfl⟩)
      exact mem_filter.mpr ⟨hx, by simp [htopic]⟩

/-- **A step that cuts a log** keeps what is queued on disk if and only if
the topic has no messages. -/
theorem onDisk_of_cut (h : w.Logged names) (hown : OwnLogs names) (hdisk : w.broker.OnDisk)
    (hs : w.step l = some w') (hcut : w.cuts l = some n) : w'.broker.OnDisk ↔ w.broker.queue n = [] := by
  have hn := h.cut_named hcut
  constructor
  · intro hdisk'
    refine eq_nil_iff_forall_not_mem.mpr fun m hm => ?_
    have hlive := hdisk' n m (by rwa [queue_of_cut hs hcut])
    rw [h.file_of_cut hown hs hcut, if_pos rfl] at hlive
    exact absurd hlive not_mem_nil
  · intro hnil k m hm
    rw [queue_of_cut hs hcut] at hm
    have hne : logFilename k ≠ logFilename n := by
      intro hfile
      obtain ⟨r, hlookup, hq⟩ := mem_queue.mp hm
      have hk : k ∈ names := h.named r k (nameOf_of_lookup hlookup) (ne_nil_of_mem hq)
      rw [hown.inj k hk n hn hfile, hnil] at hm
      cases hm
    rw [h.file_of_cut hown hs hcut, if_neg hne]
    exact hdisk k m hm

end Logged

/-- A log that is truncated or removed is that of a topic without messages. -/
def CutsEmpty (w : World) (l : WorldLabel) : Prop := ∀ n ∈ w.cuts l, w.broker.queue n = []

instance (w : World) (l : WorldLabel) : Decidable (w.CutsEmpty l) := inferInstanceAs (Decidable (∀ _ ∈ _, _))

theorem logged_init (hs : ∀ k, s.outcome k = .stored) :
    (init now (.new limits policy hooked (some s) env chans)).Logged names where
  aims := .init now limits policy hooked (some s) env chans
  traced := .init now limits policy hooked (some s) env chans
  calls _ _ hc := by cases hc
  methods _ _ hpc := by cases hpc
  bindings _ := nil_subset _
  storage := ⟨s, rfl, hs⟩
  originals _ hx := absurd hx not_mem_nil
  named r n hn := by simp [init, broker, Sys.init, new, nameOf] at hn

/-- **What is queued is on disk**, in every run of `Publish`, `Purge` and
`DeleteTopic` in which a log is cut only when its topic has no messages; and
the first step that cuts another one ends that. -/
theorem queued_on_disk_iff {s : LogStore} (hown : OwnLogs names) (hs : ∀ k, s.outcome k = .stored)
    (hrun : Lts.Run step (fun w l => l.Records names ∧ w.CutsEmpty l)
      (init now (.new limits policy hooked (some s) env chans)) w) :
    w.broker.OnDisk ∧ ∀ l w', l.Records names → w.step l = some w' → (w'.broker.OnDisk ↔ w.CutsEmpty l) := by
  have hstep : ∀ {w w' : World} {l : WorldLabel}, w.Logged names → w.broker.OnDisk →
    w.step l = some w' → (w'.broker.OnDisk ↔ w.CutsEmpty l) := by
    intro w w' l hlogged hdisk hs
    cases hcut : w.cuts l with
    | none => exact iff_of_true (hlogged.onDisk_of_writes hown hdisk hs hcut) (by simp [CutsEmpty, hcut])
    | some n =>
      rw [hlogged.onDisk_of_cut hown hdisk hs hcut]
      simp [CutsEmpty, hcut]
  have hinv : w.Logged names ∧ w.broker.OnDisk := by
    refine hrun.invariant (I := fun w => w.Logged names ∧ w.broker.OnDisk) ?_ ⟨logged_init hs, fun n m hm => ?_⟩
    · rintro w l w' ⟨hlogged, hdisk⟩ ⟨hl, hcuts⟩ hs
      exact ⟨hlogged.step hl hs, (hstep hlogged hdisk hs).mpr hcuts⟩
    · obtain ⟨r, hlookup, -⟩ := mem_queue.mp hm
      cases hlookup
  exact ⟨hinv.2, fun l w' _ hs => hstep hinv.1 hinv.2 hs⟩

/-- A message is published, its topic is purged and another one published;
the topic is deleted and made again. -/
def purgeAndDelete : List WorldLabel :=
  WorldLabel.call 0 (.publish samplePublish) 11 ++ WorldLabel.method 1 (.purge (ascii "t") true) 3 ++
    WorldLabel.call 2 (.publish samplePublish) 11 ++ WorldLabel.method 3 (.deleteTopic (ascii "t") true) 1 ++
    WorldLabel.call 4 (.publish samplePublish) 5 ++ [.run 3] ++ replicate 6 (.sys (.run 4))

theorem queued_on_disk_sample : ∃ w,
    Lts.Run step (fun w l => l.Records [ascii "t"] ∧ w.CutsEmpty l) (init 0 .sample) w ∧
      w.broker.OnDisk ∧ (w.broker.queue (ascii "t")).map Message.id = [[97, 97, 97]] := by
  have hrun : Lts.Run step (fun w l => l.Records [ascii "t"] ∧ w.CutsEmpty l) (init 0 .sample) _ :=
    .of_exec_get purgeAndDelete (by decide +kernel) (by decide +kernel)
  exact ⟨_, hrun, (queued_on_disk_iff ⟨by decide, by decide⟩ (fun _ => rfl) hrun).1, by decide +kernel⟩

/-- A message is published while its topic is purged: after the queues were
emptied and before the log is. -/
def publishDuringPurge : List WorldLabel :=
  WorldLabel.call 0 (.publish samplePublish) 11 ++ WorldLabel.method 1 (.purge (ascii "t") true) 2 ++
    WorldLabel.call 2 (.publish samplePublish) 11 ++ [.run 1]

def purgedEnd : World := (Lts.exec step (init 0 .sample) publishDuringPurge).get (by decide +kernel)

theorem purgedEnd_exec : Lts.exec step (init 0 .sample) publishDuringPurge = some purgedEnd :=
    (some_get _).symm

theorem purge_drops_log : ∃ w, Lts.Run step (fun _ l => l.Records [ascii "t"]) (init 0 .sample) w ∧
    (∀ i, w.pcAt i = none ∧ (w.methods i = none ∨ w.methods i = some (.done .ok))) ∧
    (w.broker.queue (ascii "t")).map Message.id = [[97, 97]] ∧ w.broker.file (logFilename (ascii "t")) = [] := by
  have hls : ∀ l ∈ publishDuringPurge, l.goroutine.all (· < 3) = true := by decide +kernel
  refine ⟨_, .of_exec purgedEnd_exec (by decide +kernel), fun i => ⟨?_, ?_⟩,
    by decide +kernel, by decide +kernel⟩
  · exact idle_of_exec (n := 3) purgedEnd_exec hls (by decide +kernel) i
  · by_cases hi : i < 3
    · have hdone : ∀ i < 3, purgedEnd.methods i = none ∨ purgedEnd.methods i = some (.done .ok) :=
        by decide +kernel
      exact hdone i hi
    · refine .inl (methods_of_exec purgedEnd_exec fun l hl heq => hi ?_)
      simpa [heq] using hls l hl

end World

end TinyMQ
