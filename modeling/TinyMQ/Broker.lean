/-
The broker's data (`internal/broker`) and its critical sections.

A `*Topic` is an index into `heap`, so that a topic which was deleted and
created again under its name is another object. What the code takes from
outside is read off streams (`Env`): the identifiers of `NewUUID`, the
answers of `OnPublish`, the orders in which maps are ranged over.

Each definition on `Topic` and `Broker` below is what one critical section
does, under the lock the source takes for it.
-/
import TinyMQ.LogStore
import TinyMQ.Topic

namespace TinyMQ

open AList Text

/-! ## Wildcard patterns -/

/-- One piece of a compiled pattern: a byte, `.`, or `.*`. -/
inductive RegexItem
  | lit (c : UInt8)
  | any
  | star
  deriving DecidableEq, Repr

abbrev Regex := List RegexItem

/-- The bytes that stand for themselves in a pattern. -/
def isLiteralByte (c : UInt8) : Bool := isTopicByte c && c != 46

/-- `regexp.Compile` of `^` + the name with `*` as `.*` + `$`; a name with
another regexp operator is taken not to compile. -/
def compileWildcard (name : GoString) : Option Regex :=
  name.mapM fun c =>
    if c = 42 then some .star
    else if c = 46 then some .any
    else if isLiteralByte c then some (.lit c)
    else none

/-- `MatchString`: `.` and `.*` do not match a newline. -/
def Regex.matchString : Regex → GoString → Bool
  | [], s => s.isEmpty
  | .lit c :: re, s => s.head? == some c && Regex.matchString re s.tail
  | .any :: re, s => (match s.head? with
      | some c => c != 10
      | none => false) && Regex.matchString re s.tail
  | .star :: re, s => (List.range (s.length + 1)).any fun n =>
      !(s.take n).contains 10 && Regex.matchString re (s.drop n)

/-! ## The broker -/

/-- `TINYMQ_MAX_MESSAGES` and `TINYMQ_MAX_TOPICS`: `New` takes a positive
value or its default. -/
structure Limits where
  maxMessages : Nat
  maxTopics : Nat
  maxMessages_pos : 0 < maxMessages
  maxTopics_pos : 0 < maxTopics

theorem Limits.ten_pos : 0 < 10 := by decide

/-- What the broker is given from outside, in the order it asks. -/
structure Env where
  /-- `helper.NewUUID`; random identifiers are taken never to repeat. -/
  newUUID : Nat → GoString
  newUUID_inj : Function.Injective newUUID
  /-- The error of `OnPublish`, if any. -/
  onPublish : Nat → Option GoString
  /-- The order in which a map with these keys is ranged over. -/
  order : Nat → List GoString → List GoString
  order_perm : ∀ n keys, (order n keys).Perm keys

/-- The variables `pushFunc` captures. -/
structure Push where
  t : TopicRef
  msg : Message
  matchingWildcards : List TopicRef
  isBroadcast : Bool
  deriving DecidableEq, Repr

/-- A goroutine that was started and has not run yet. -/
inductive Goroutine
  /-- `time.AfterFunc`, which runs `pushFunc` when it is due. -/
  | timer (due : Time) (push : Push)
  /-- The goroutine that sends a broadcast to the channels it was given. -/
  | broadcast (channels : List Chan) (m : Message)
  deriving DecidableEq, Repr

/-- The broker, with the channels of its callers and the goroutines it has
started. Every name leads to the topic object that bears it. -/
structure Broker where
  topics : AList fun _ : GoString => TopicRef
  wildcards : AList fun _ : GoString => TopicRef
  compiledRegex : AList fun _ : GoString => Regex
  bindings : GoString → List GoString
  limits : Limits
  defaultPolicy : Policy
  /-- `OnPublish` is set. -/
  hooked : Bool
  storage : Option LogStore
  heap : List Topic
  chans : Chan → Channel
  spyChans : Spy → Channel
  spyCount : Nat
  goroutines : List Goroutine
  env : Env
  uuids : Nat
  answers : Nat
  ranges : Nat
  topics_ok : ∀ {n r}, topics.lookup n = some r → ∃ t, heap[r]? = some t ∧ t.name = n
  wildcards_ok : ∀ {n r}, wildcards.lookup n = some r → topics.lookup n = some r ∧ ascii "*" <:+: n

namespace Broker

/-- `New` with a storage, the limits and the policy read from the
environment, and a hook or none. -/
def new (limits : Limits) (defaultPolicy : Policy) (hooked : Bool) (storage : Option LogStore) (env : Env)
    (chans : Chan → Channel) : Broker where
  topics := ∅
  wildcards := ∅
  compiledRegex := ∅
  bindings := fun _ => []
  limits := limits
  defaultPolicy := defaultPolicy
  hooked := hooked
  storage := storage
  heap := []
  chans := chans
  spyChans := fun _ => ⟨1024, []⟩
  spyCount := 0
  goroutines := []
  env := env
  uuids := 0
  answers := 0
  ranges := 0
  topics_ok := by simp
  wildcards_ok := by simp

/-- The topic object behind a pointer whose `mu` can be locked. -/
def lock (b : Broker) (r : TopicRef) : Option Topic := b.heap[r]?.filter fun t => !t.held

/-- Write back a topic object; its name is never written. -/
def setTopic (b : Broker) (r : TopicRef) (t : Topic) : Broker :=
  { b with
    heap := b.heap.modify r fun old => { t with name := old.name }
    topics_ok := by
      intro n r' h
      obtain ⟨t', ht', hn⟩ := b.topics_ok h
      rw [List.getElem?_modify, ht']
      by_cases hr : r = r'
      · exact ⟨{ t with name := t'.name }, by simp [hr], hn⟩
      · exact ⟨t', by simp [hr], hn⟩
    wildcards_ok := b.wildcards_ok }

/-- A write to the storage, if there is one. -/
def log (b : Broker) (topic : GoString) (e : LogEntry) : Broker :=
  { b with storage := b.storage.map (·.append topic e) }

/-- The messages queued at a topic object. -/
def queued (b : Broker) (r : TopicRef) : List Message := (b.heap[r]?.map Topic.queued).getD []

/-- The consumers waiting at a topic object. -/
def waiting (b : Broker) (r : TopicRef) : List Chan := (b.heap[r]?.map Topic.waitingConsumers).getD []

/-- The queued messages of a topic, none if it does not exist. -/
def queue (b : Broker) (topic : GoString) : List Message := ((b.topics.lookup topic).map b.queued).getD []

/-- The records of a log file, none without storage. -/
def file (b : Broker) (filename : GoString) : List LogEntry := (b.storage.map fun s => s.file filename).getD []

/-- `b.Topics[name] = t`, and the entries of a wildcard topic. -/
def addTopic (b : Broker) (t : Topic) : Broker :=
  { b with
    heap := b.heap ++ [t]
    topics := b.topics.insert t.name b.heap.length
    wildcards := if contains t.name (ascii "*") then b.wildcards.insert t.name b.heap.length else b.wildcards
    compiledRegex :=
      if contains t.name (ascii "*") ∧ b.compiledRegex.lookup t.name = none then
        match compileWildcard t.name with
        | some re => b.compiledRegex.insert t.name re
        | none => b.compiledRegex
      else b.compiledRegex
    topics_ok := by
      intro n r h
      by_cases hn : n = t.name
      · subst hn
        rw [lookup_insert] at h
        cases h
        exact ⟨t, by simp, rfl⟩
      · rw [lookup_insert_ne hn] at h
        obtain ⟨t', ht', hn'⟩ := b.topics_ok h
        exact ⟨t', by rw [List.getElem?_append_left (List.getElem?_eq_some_iff.mp ht').1, ht'], hn'⟩
    wildcards_ok := by
      intro n r h
      by_cases hn : n = t.name
      · subst hn
        split at h
        next hw =>
          rw [lookup_insert] at h ⊢
          exact ⟨h, contains_iff.mp hw⟩
        next hw =>
          exact absurd (contains_iff.mpr (b.wildcards_ok h).2) hw
      · rw [lookup_insert_ne hn]
        split at h
        · rw [lookup_insert_ne hn] at h
          exact b.wildcards_ok h
        · exact b.wildcards_ok h }

theorem lookup_addTopic (b : Broker) (t : Topic) (n : GoString) :
    (b.addTopic t).topics.lookup n = if n = t.name then some b.heap.length else b.topics.lookup n := by
  by_cases hn : n = t.name
  · subst hn
    rw [if_pos rfl]
    exact lookup_insert _
  · rw [if_neg hn]
    exact lookup_insert_ne hn

def getOrCreateTopic (b : Broker) (name : GoString) : Option TopicRef × Broker :=
  match b.topics.lookup name with
  | some r => (some r, b)
  | none =>
    if b.limits.maxTopics ≤ b.topics.entries.length then (none, b)
    else (some b.heap.length, b.addTopic (.create name b.defaultPolicy))

/-- The keys of a map in the order of one `range` over it. -/
def range (b : Broker) (keys : List GoString) : List GoString × Broker :=
  (b.env.order b.ranges keys, { b with ranges := b.ranges + 1 })

/-- The bound topics of `publishCore`. -/
def boundTopics (b : Broker) (topicName : GoString) : List GoString × Broker := b.range (b.bindings topicName)

/-- The loop over `b.wildcards` in `publishCore`. -/
def matchingWildcards (b : Broker) (topicName : GoString) : List TopicRef × Broker :=
  let (names, b) := b.range b.wildcards.keys
  (names.filterMap fun name =>
    match b.compiledRegex.lookup name with
    | some reg => if reg.matchString topicName then b.wildcards.lookup name else none
    | none => none, b)

/-- The loop over `b.Topics` in `Consume`. -/
def matchingTopics (b : Broker) (topicName : GoString) : List TopicRef × Broker :=
  if contains topicName (ascii "*") then
    match b.compiledRegex.lookup topicName with
    | none => ([], b)
    | some reg =>
      let (names, b) := b.range b.topics.keys
      (names.filterMap fun name => if reg.matchString name then b.topics.lookup name else none, b)
  else ([], b)

def newUUID (b : Broker) : GoString × Broker := (b.env.newUUID b.uuids, { b with uuids := b.uuids + 1 })

/-- `b.OnPublish(topicName, payload)`, when it is set. -/
def callOnPublish (b : Broker) : Option GoString × Broker :=
  if b.hooked then (b.env.onPublish b.answers, { b with answers := b.answers + 1 }) else (none, b)

/-- A non-blocking send of a message to a notify channel. -/
def trySend (b : Broker) (ch : Chan) (m : Message) : Option Broker :=
  ((b.chans ch).trySend m).map fun c => { b with chans := Function.update b.chans ch c }

/-- The loop over `t.spies`: a full channel is skipped. -/
def sendSpies (b : Broker) (m : Message) : List Spy → Broker
  | [] => b
  | spy :: spies =>
    match (b.spyChans spy).trySend m with
    | some c => sendSpies { b with spyChans := Function.update b.spyChans spy c } m spies
    | none => sendSpies b m spies

/-- A goroutine of the broker is started. -/
def go (b : Broker) (g : Goroutine) : Broker := { b with goroutines := b.goroutines ++ [g] }

def ackExpired (b : Broker) (topicName : GoString) (expiredIDs : List GoString) : Broker :=
  expiredIDs.foldl (fun b id => b.log topicName (.ack id)) b

/-! ## Critical sections of a topic

Each returns `none` when `t.mu` cannot be locked any more. -/

def capacityError (b : Broker) : GoString :=
  ascii "queue capacity reached (max " ++ ascii (toString b.limits.maxMessages) ++ ascii " messages)"

/-- `publishCore` stores a message; the error it may return. -/
def store (b : Broker) (r : TopicRef) (topicName : GoString) (priority : Priority) (isBroadcast : Bool) (m : Message) :
    Option (Option GoString × Broker) :=
  (b.lock r).map fun t =>
    if t.deleted then (some (ascii "topic was concurrently deleted"), b)
    else
      let b := if isBroadcast then b else b.log topicName (.put m)
      if b.limits.maxMessages ≤ t.queued.length then
        match t.policy with
        | .dropOldest =>
          match t.evictOldest with
          | some (oldest, t) => (none, (b.log topicName (.ack oldest.id)).setTopic r (t.append priority m))
          | none => (none, b.setTopic r (t.append priority m))
        | .reject => (some b.capacityError, b)
      else (none, b.setTopic r (t.append priority m))

/-- `pushFunc` sends a message to the spies of a topic. -/
def pushToSpies (b : Broker) (r : TopicRef) (m : Message) : Option Broker :=
  (b.lock r).map fun t => b.sendSpies m t.spies

/-- A broadcast takes all the waiting consumers of a topic. -/
def takeWaiting (b : Broker) (r : TopicRef) : Option (List Chan × Broker) :=
  (b.lock r).map fun t => (t.waitingConsumers, b.setTopic r { t with waitingConsumers := [] })

/-- `pushFunc` takes the first waiting consumer of a topic, if there is one. -/
def popWaiting (b : Broker) (r : TopicRef) : Option (Option Chan × Broker) :=
  (b.lock r).map fun t =>
    match t.waitingConsumers with
    | [] => (none, b)
    | ch :: chs => (some ch, b.setTopic r { t with waitingConsumers := chs })

def removeMessage (b : Broker) (r : TopicRef) (id : GoString) : Option Broker :=
  (b.lock r).map fun t => b.setTopic r (t.removeMessageByID id)

/-- `t.mu.Lock()` in the `default` branch of the loop over the wildcards,
which is never followed by an `Unlock`. -/
def hold (b : Broker) (r : TopicRef) : Option Broker :=
  (b.lock r).map fun t => b.setTopic r { t with held := true }

/-- `Consume` looks at a topic that matches its pattern: the results, the
expired IDs and the name of the topic. -/
def extractMatching (b : Broker) (r : TopicRef) (limit : Nat) (now : Time) :
    Option ((List Message × List GoString × GoString) × Broker) :=
  (b.lock r).map fun t =>
    let (results, expiredIDs, t') := t.extractMessages limit now
    ((results, expiredIDs, t.name), b.setTopic r t')

/-- `Consume` looks at its own topic and waits there when it finds nothing. -/
def extractTarget (b : Broker) (r : TopicRef) (limit : Nat) (now : Time) (notifyChan : Chan) :
    Option ((List Message × List GoString × GoString) × Broker) :=
  (b.lock r).map fun t =>
    let (results, expiredIDs, t') := t.extractMessages limit now
    let t' := if results.isEmpty then { t' with waitingConsumers := t'.waitingConsumers ++ [notifyChan] } else t'
    ((results, expiredIDs, t.name), b.setTopic r t')

/-- `Ack` on the topic it has found. -/
def ackMessage (b : Broker) (r : TopicRef) (topicName msgID : GoString) : Option (Bool × Broker) :=
  (b.lock r).map fun t =>
    match t.remove? msgID with
    | some t' => (true, (b.setTopic r t').log topicName (.ack msgID))
    | none => (false, b)

/-- `RemoveWaitingConsumer` on the topic it has found. -/
def removeWaiting (b : Broker) (r : TopicRef) (notifyChan : Chan) : Option Broker :=
  (b.lock r).map fun t => b.setTopic r { t with waitingConsumers := t.waitingConsumers.erase notifyChan }

/-- The end of `Requeue`: a waiting consumer gets the message, or it is
queued. The channel it was sent to. -/
def requeueTo (b : Broker) (r : TopicRef) (m : Message) : Option (Option Chan × Broker) :=
  (b.lock r).map fun t =>
    match t.waitingConsumers with
    | [] => (none, b.setTopic r (t.append .normal m))
    | ch :: chs =>
      let t := { t with waitingConsumers := chs }
      match b.trySend ch m with
      | some b => (some ch, b.setTopic r t)
      | none => (none, b.setTopic r (t.append .normal m))

section Sections

variable {b : Broker} {results : List Message}

theorem extractMatching_eq_some (h : b.extractMatching r limit now = some ((results, ids, name), b')) :
    ∃ t t₁, b.lock r = some t ∧ t.extractMessages limit now = (results, ids, t₁) ∧
      name = t.name ∧ b' = b.setTopic r t₁ := by
  obtain ⟨t, ht, h⟩ := Option.map_eq_some_iff.mp h
  cases h
  exact ⟨t, _, ht, rfl, rfl, rfl⟩

theorem extractTarget_eq_some (h : b.extractTarget r limit now ch = some ((results, ids, name), b')) :
    ∃ t t₁, b.lock r = some t ∧ t.extractMessages limit now = (results, ids, t₁) ∧ name = t.name ∧ b' =
        b.setTopic r (if results.isEmpty then { t₁ with waitingConsumers := t₁.waitingConsumers ++ [ch] } else t₁) := by
  obtain ⟨t, ht, h⟩ := Option.map_eq_some_iff.mp h
  cases h
  exact ⟨t, _, ht, rfl, rfl, rfl⟩

end Sections

end Broker

/-! ## A broker to run examples on -/

/-- Identifiers of growing length, a hook that does not fail, and maps in
the order of their keys. -/
def Env.sample : Env where
  newUUID n := List.replicate (n + 1) 97
  newUUID_inj m n h := by simpa using congrArg List.length h
  onPublish _ := none
  order _ keys := keys
  order_perm _ _ := .refl _

def LogStore.sample : LogStore := ⟨∅, fun _ => .stored, 0⟩

/-- An empty broker with room for ten messages and a storage; its callers
have channels of capacity one. -/
def Broker.sample : Broker :=
  .new ⟨10, 10, Limits.ten_pos, Limits.ten_pos⟩ .reject false (some .sample) .sample fun _ => ⟨1, []⟩

end TinyMQ
