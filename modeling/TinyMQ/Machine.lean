/-
The goroutines of the broker, one critical section or channel send at a
time.

A call in progress is a program counter (`Pc`) with the variables that are
still needed, and the stack of `publishCore` frames that wait for a call
they have made. `Call.step` runs a call up to the end of its next critical
section. Between two steps of a call any other goroutine may run, and time
may pass.
-/
import TinyMQ.Broker
import TinyMQ.Lib.Lts

namespace TinyMQ

open Option Function

/-- The arguments of `publishCore`, its depth apart. -/
structure PublishArgs where
  topicName : GoString
  payload : List UInt8
  headers : List (GoString × GoString)
  priority : GoString
  expiresAt : Option Time
  deliverAt : Option Time
  isBroadcast : Bool
  isReplication : Bool
  deriving DecidableEq, Repr

/-- The checks of `publishCore` on the topic name. -/
def nameError (topicName : GoString) : Option GoString :=
  if topicName.length = 0 ∨ 255 < topicName.length then
    some (ascii "invalid topic name length (must be between 1 and 255 characters)")
  else if !validTopicRegex topicName then some (ascii "invalid topic name")
  else none

theorem validTopicRegex_of_nameError {n} (h : nameError n = none) : validTopicRegex n = true := by
  unfold nameError at h
  split at h
  · cases h
  · simpa using h

/-- The expiry of a new message: its own, or the retention of its topic. -/
def PublishArgs.expiry (p : PublishArgs) (retention now : Time) : Option Time :=
  match p.expiresAt with
  | some e => some e
  | none => if 0 < retention then some (now + retention) else none

def PublishArgs.message (p : PublishArgs) (id : GoString) (retention now : Time) : Message where
  id := id
  topic := p.topicName
  payload := p.payload
  timestamp := now
  expiresAt := p.expiry retention now
  deliverAt := p.deliverAt
  retryCount := 0
  headers := p.headers

inductive PublishPc
  | enter
  | fanOut (dests : List GoString)
  | getTopic
  | getWildcards (t : TopicRef)
  | newMessage (t : TopicRef) (wildcards : List TopicRef)
  | onPublish (t : TopicRef) (wildcards : List TopicRef) (msg : Message)
  | store (t : TopicRef) (wildcards : List TopicRef) (msg : Message) (isDelayed : Bool)
  deriving DecidableEq, Repr

inductive PushPc
  | spies
  | wildSpies (rest : List TopicRef)
  /-- A broadcast collects the waiting consumers. -/
  | takeWild (rest : List TopicRef) (channels : List Chan)
  | takeOwn (channels : List Chan)
  | popWild (rest : List TopicRef)
  | sendWild (ch : Chan) (rest : List TopicRef)
  /-- The `default` branch after `sendWild`. -/
  | holdWild (rest : List TopicRef)
  | popOwn
  | sendOwn (ch : Chan)
  | remove
  deriving DecidableEq, Repr

structure ConsumeArgs where
  topicName : GoString
  limit : Nat
  notifyChan : Chan
  deriving DecidableEq, Repr

inductive ConsumePc
  | getTopic
  | getMatching (t : TopicRef)
  | scan (t : TopicRef) (rest : List TopicRef)
  /-- `ackExpired` after a matching topic, an ID at a time. -/
  | scanAck (t : TopicRef) (rest : List TopicRef) (results : List Message) (name : GoString) (ids : List GoString)
  | target (t : TopicRef)
  | targetAck (results : List Message) (name : GoString) (ids : List GoString)
  deriving DecidableEq, Repr

/-- Where a call is. A method that looks its topic up and then locks it has
a counter for each of the two. A `publishCore` carries `11 - depth`, so that
`depth > 10` is `left = 0`. -/
inductive Pc
  | publish (left : Nat) (p : PublishArgs) (pc : PublishPc)
  | push (p : Push) (pc : PushPc)
  | broadcast (channels : List Chan) (m : Message)
  | consume (q : ConsumeArgs) (pc : ConsumePc)
  | ack (topicName msgID : GoString)
  | ackAt (t : TopicRef) (topicName msgID : GoString)
  | removeWaiting (topicName : GoString) (notifyChan : Chan)
  | removeWaitingAt (t : TopicRef) (topicName : GoString) (notifyChan : Chan)
  | requeue (m : Message)
  | requeuePut (t : TopicRef) (m : Message)
  | requeueAt (t : TopicRef) (m : Message)
  deriving DecidableEq, Repr

/-- What a call returns. A `nil` error of `Publish` is written with the
message it has stored. -/
inductive Ret
  | published (r : Except GoString Message)
  | consumed (msgs : Option (List Message))
  | acked (ok : Bool)
  | done
  deriving DecidableEq, Repr

/-- How a critical section goes on. -/
inductive Next
  | goto (pc : Pc)
  /-- `publishCore` calls itself for a bound topic and then goes on with the rest. -/
  | call (dest : Pc) (caller : Pc)
  | ret (r : Ret)
  deriving DecidableEq, Repr

/-- The outcome of a step: the broker, how the call goes on, and the
messages that were handed to consumers, sent or taken out of a queue. -/
structure Outcome where
  broker : Broker
  next : Next
  handed : List (Chan × Message)

def Outcome.goto (b : Broker) (pc : Pc) : Outcome := ⟨b, .goto pc, []⟩

def Outcome.ret (b : Broker) (r : Ret) : Outcome := ⟨b, .ret r, []⟩

def PublishPc.step (now : Time) (b : Broker) (left : Nat) (p : PublishArgs) : PublishPc → Option Outcome
  | .enter =>
    if left = 0 then some (.ret b (.published (.error (ascii "binding loop detected"))))
    else
      match nameError p.topicName with
      | some e => some (.ret b (.published (.error e)))
      | none =>
        if Text.contains p.topicName (ascii "::") then some (.goto b (.publish left p .getTopic))
        else
          let (dests, b) := b.boundTopics p.topicName
          some (.goto b (.publish left p (.fanOut dests)))
  | .fanOut [] => some (.goto b (.publish left p .getTopic))
  | .fanOut (dest :: dests) =>
    some ⟨b, .call (.publish (left - 1) { p with topicName := dest } .enter) (.publish left p (.fanOut dests)), []⟩
  | .getTopic =>
    match b.getOrCreateTopic p.topicName with
    | (none, b) => some (.ret b (.published (.error (ascii "broker maximum topic limit reached"))))
    | (some t, b) => some (.goto b (.publish left p (.getWildcards t)))
  | .getWildcards t =>
    let (wildcards, b) := b.matchingWildcards p.topicName
    some (.goto b (.publish left p (.newMessage t wildcards)))
  | .newMessage t wildcards =>
    b.heap[t]?.map fun topic =>
      let (id, b) := b.newUUID
      .goto b (.publish left p (.onPublish t wildcards (p.message id topic.retention now)))
  | .onPublish t wildcards msg =>
    let (err, b) := if p.isReplication then (none, b) else b.callOnPublish
    match err with
    | some e => some (.ret b (.published (.error e)))
    | none => some (.goto b (.publish left p (.store t wildcards msg (msg.delayed now))))
  | .store t wildcards msg isDelayed =>
    (b.store t p.topicName (.ofString p.priority) p.isBroadcast msg).map fun (err, b) =>
      match err with
      | some e => .ret b (.published (.error e))
      | none =>
        let push : Push := { t, msg, matchingWildcards := wildcards, isBroadcast := p.isBroadcast }
        if isDelayed then .ret (b.go (.timer (p.deliverAt.getD now) push)) (.published (.ok msg))
        else .goto b (.push push .spies)

/-- What a step of `publishCore` does, with what it has found. -/
inductive PublishPc.Steps (now : Time) (b : Broker) (left : Nat) (p : PublishArgs) : PublishPc → Outcome → Prop
  | loop : left = 0 → Steps now b left p .enter (.ret b (.published (.error (ascii "binding loop detected"))))
  | badName {e} : nameError p.topicName = some e → Steps now b left p .enter (.ret b (.published (.error e)))
  | group : nameError p.topicName = none → Steps now b left p .enter (.goto b (.publish left p .getTopic))
  | enter : nameError p.topicName = none → Steps now b left p .enter
      (.goto (b.boundTopics p.topicName).2 (.publish left p (.fanOut (b.boundTopics p.topicName).1)))
  | fanned : Steps now b left p (.fanOut []) (.goto b (.publish left p .getTopic))
  | call {dest dests} : Steps now b left p (.fanOut (dest :: dests))
      ⟨b, .call (.publish (left - 1) { p with topicName := dest } .enter) (.publish left p (.fanOut dests)), []⟩
  | full {b'} : b.getOrCreateTopic p.topicName = (none, b') →
      Steps now b left p .getTopic (.ret b' (.published (.error (ascii "broker maximum topic limit reached"))))
  | getTopic {t b'} : b.getOrCreateTopic p.topicName = (some t, b') →
      Steps now b left p .getTopic (.goto b' (.publish left p (.getWildcards t)))
  | getWildcards {t} : Steps now b left p (.getWildcards t)
      (.goto (b.matchingWildcards p.topicName).2 (.publish left p (.newMessage t (b.matchingWildcards p.topicName).1)))
  | newMessage {t ws topic} : b.heap[t]? = some topic →
      Steps now b left p (.newMessage t ws)
        (.goto b.newUUID.2 (.publish left p (.onPublish t ws (p.message b.newUUID.1 topic.retention now))))
  | refused {t ws m e b'} : (if p.isReplication then (none, b) else b.callOnPublish) = (some e, b') →
      Steps now b left p (.onPublish t ws m) (.ret b' (.published (.error e)))
  | onPublish {t ws m b'} : (if p.isReplication then (none, b) else b.callOnPublish) = (none, b') →
      Steps now b left p (.onPublish t ws m) (.goto b' (.publish left p (.store t ws m (m.delayed now))))
  | failed {t ws m isDelayed e b'} :
      b.store t p.topicName (.ofString p.priority) p.isBroadcast m = some (some e, b') →
      Steps now b left p (.store t ws m isDelayed) (.ret b' (.published (.error e)))
  | delayed {t ws m b'} : b.store t p.topicName (.ofString p.priority) p.isBroadcast m = some (none, b') →
      Steps now b left p (.store t ws m true)
        (.ret (b'.go (.timer (p.deliverAt.getD now) ⟨t, m, ws, p.isBroadcast⟩)) (.published (.ok m)))
  | stored {t ws m b'} : b.store t p.topicName (.ofString p.priority) p.isBroadcast m = some (none, b') →
      Steps now b left p (.store t ws m false) (.goto b' (.push ⟨t, m, ws, p.isBroadcast⟩ .spies))

theorem PublishPc.steps {now b left p} {pc : PublishPc}
    (h : pc.step now b left p = some o) : pc.Steps now b left p o := by
  cases pc with
  | enter =>
    simp only [step] at h
    split at h
    next hleft => cases h; exact .loop hleft
    split at h
    next hname => cases h; exact .badName hname
    next hname => split at h <;> cases h <;> first | exact .group hname | exact .enter hname
  | fanOut dests => cases dests <;> cases h <;> constructor
  | getTopic =>
    simp only [step] at h
    split at h
    next hb => cases h; exact .full hb
    next hb => cases h; exact .getTopic hb
  | getWildcards t => cases h; exact .getWildcards
  | newMessage t ws =>
    obtain ⟨topic, ht, rfl⟩ := map_eq_some_iff.mp h
    exact .newMessage ht
  | onPublish t ws m =>
    simp only [step] at h
    rcases hb : (if p.isReplication then (none, b) else b.callOnPublish) with ⟨_ | e, b'⟩
    all_goals
      rw [hb] at h
      cases h
    · exact .onPublish hb
    · exact .refused hb
  | store t ws m isDelayed =>
    obtain ⟨⟨_ | e, b'⟩, hb, rfl⟩ := map_eq_some_iff.mp h
    · cases isDelayed
      · exact .stored hb
      · exact .delayed hb
    · exact .failed hb

def PushPc.step (b : Broker) (p : Push) : PushPc → Option Outcome
  | .spies => (b.pushToSpies p.t p.msg).map fun b => .goto b (.push p (.wildSpies p.matchingWildcards))
  | .wildSpies (w :: rest) => (b.pushToSpies w p.msg).map fun b => .goto b (.push p (.wildSpies rest))
  | .wildSpies [] =>
    some (.goto b (.push p (if p.isBroadcast then .takeWild p.matchingWildcards [] else .popWild p.matchingWildcards)))
  | .takeWild (w :: rest) channels =>
    (b.takeWaiting w).map fun (chs, b) => .goto b (.push p (.takeWild rest (channels ++ chs)))
  | .takeWild [] channels => some (.goto b (.push p (.takeOwn channels)))
  | .takeOwn channels =>
    (b.takeWaiting p.t).map fun (chs, b) =>
      .ret (b.go (.broadcast (channels ++ chs) p.msg)) (.published (.ok p.msg))
  | .popWild (w :: rest) =>
    (b.popWaiting w).map fun (ch, b) =>
      match ch with
      | some ch => .goto b (.push p (.sendWild ch rest))
      | none => .goto b (.push p (.popWild rest))
  | .popWild [] => some (.goto b (.push p .popOwn))
  | .sendWild ch rest =>
    match b.trySend ch p.msg with
    | some b => some ⟨b, .goto (.push p .remove), [(ch, p.msg)]⟩
    | none => some (.goto b (.push p (.holdWild rest)))
  | .holdWild rest => (b.hold p.t).map fun b => .goto b (.push p (.popWild rest))
  | .popOwn =>
    (b.popWaiting p.t).map fun (ch, b) =>
      match ch with
      | some ch => .goto b (.push p (.sendOwn ch))
      | none => .ret b (.published (.ok p.msg))
  | .sendOwn ch =>
    match b.trySend ch p.msg with
    | some b => some ⟨b, .goto (.push p .remove), [(ch, p.msg)]⟩
    | none => some (.ret b (.published (.ok p.msg)))
  | .remove => (b.removeMessage p.t p.msg.id).map fun b => .ret b (.published (.ok p.msg))

/-- What a step of a push does, with what it has found. -/
inductive PushPc.Steps (b : Broker) (p : Push) : PushPc → Outcome → Prop
  | spies {b'} : b.pushToSpies p.t p.msg = some b' →
      Steps b p .spies (.goto b' (.push p (.wildSpies p.matchingWildcards)))
  | wildSpy {w rest b'} : b.pushToSpies w p.msg = some b' →
      Steps b p (.wildSpies (w :: rest)) (.goto b' (.push p (.wildSpies rest)))
  | spied : Steps b p (.wildSpies []) (.goto b (.push p
      (if p.isBroadcast then .takeWild p.matchingWildcards [] else .popWild p.matchingWildcards)))
  | takeWild {w rest channels chs b'} : b.takeWaiting w = some (chs, b') →
      Steps b p (.takeWild (w :: rest) channels) (.goto b' (.push p (.takeWild rest (channels ++ chs))))
  | tookWild {channels} : Steps b p (.takeWild [] channels) (.goto b (.push p (.takeOwn channels)))
  | takeOwn {channels chs b'} : b.takeWaiting p.t = some (chs, b') →
      Steps b p (.takeOwn channels) (.ret (b'.go (.broadcast (channels ++ chs) p.msg)) (.published (.ok p.msg)))
  | popWild {w rest ch b'} : b.popWaiting w = some (some ch, b') →
      Steps b p (.popWild (w :: rest)) (.goto b' (.push p (.sendWild ch rest)))
  | noneWild {w rest b'} : b.popWaiting w = some (none, b') →
      Steps b p (.popWild (w :: rest)) (.goto b' (.push p (.popWild rest)))
  | poppedWild : Steps b p (.popWild []) (.goto b (.push p .popOwn))
  | sentWild {ch rest b'} : b.trySend ch p.msg = some b' →
      Steps b p (.sendWild ch rest) ⟨b', .goto (.push p .remove), [(ch, p.msg)]⟩
  | fullWild {ch rest} : b.trySend ch p.msg = none →
      Steps b p (.sendWild ch rest) (.goto b (.push p (.holdWild rest)))
  | holdWild {rest b'} : b.hold p.t = some b' →
      Steps b p (.holdWild rest) (.goto b' (.push p (.popWild rest)))
  | popOwn {ch b'} : b.popWaiting p.t = some (some ch, b') →
      Steps b p .popOwn (.goto b' (.push p (.sendOwn ch)))
  | noneOwn {b'} : b.popWaiting p.t = some (none, b') → Steps b p .popOwn (.ret b' (.published (.ok p.msg)))
  | sentOwn {ch b'} : b.trySend ch p.msg = some b' →
      Steps b p (.sendOwn ch) ⟨b', .goto (.push p .remove), [(ch, p.msg)]⟩
  | fullOwn {ch} : b.trySend ch p.msg = none → Steps b p (.sendOwn ch) (.ret b (.published (.ok p.msg)))
  | remove {b'} : b.removeMessage p.t p.msg.id = some b' → Steps b p .remove (.ret b' (.published (.ok p.msg)))

theorem PushPc.steps {pc : PushPc} (h : pc.step b p = some o) : pc.Steps b p o := by
  cases pc with
  | spies | takeOwn channels | holdWild rest | remove =>
    obtain ⟨b', hb, rfl⟩ := map_eq_some_iff.mp h
    constructor
    exact hb
  | wildSpies rest | takeWild rest channels =>
    cases rest with
    | nil => cases h; constructor
    | cons w rest =>
      obtain ⟨b', hb, rfl⟩ := map_eq_some_iff.mp h
      constructor
      exact hb
  | popWild rest =>
    cases rest with
    | nil => cases h; exact .poppedWild
    | cons w rest =>
      obtain ⟨⟨_ | ch, b'⟩, hb, rfl⟩ := map_eq_some_iff.mp h
      · exact .noneWild hb
      · exact .popWild hb
  | popOwn =>
    obtain ⟨⟨_ | ch, b'⟩, hb, rfl⟩ := map_eq_some_iff.mp h
    · exact .noneOwn hb
    · exact .popOwn hb
  | sendWild ch rest | sendOwn ch =>
    simp only [step] at h
    split at h
    all_goals
      cases h
      constructor
      assumption

/-- What `Consume` returns for its results. -/
def consumed (results : List Message) : Ret := .consumed (if results.isEmpty then none else some results)

def ConsumePc.step (now : Time) (b : Broker) (q : ConsumeArgs) : ConsumePc → Option Outcome
  | .getTopic =>
    if q.topicName ≠ [] ∧ !isValidTopicName q.topicName then some (.ret b (.consumed none))
    else
      match b.getOrCreateTopic q.topicName with
      | (none, b) => some (.ret b (.consumed none))
      | (some t, b) => some (.goto b (.consume q (.getMatching t)))
  | .getMatching t =>
    let (rest, b) := b.matchingTopics q.topicName
    some (.goto b (.consume q (.scan t rest)))
  | .scan t (r :: rest) =>
    (b.extractMatching r q.limit now).map fun ((results, ids, name), b) =>
      ⟨b, .goto (.consume q (.scanAck t rest results name ids)), results.map fun m => (q.notifyChan, m)⟩
  | .scan t [] => some (.goto b (.consume q (.target t)))
  | .scanAck t rest results name (id :: ids) =>
    some (.goto (b.log name (.ack id)) (.consume q (.scanAck t rest results name ids)))
  | .scanAck t rest results _ [] =>
    if results.isEmpty then some (.goto b (.consume q (.scan t rest))) else some (.ret b (consumed results))
  | .target t =>
    (b.extractTarget t q.limit now q.notifyChan).map fun ((results, ids, name), b) =>
      ⟨b, .goto (.consume q (.targetAck results name ids)), results.map fun m => (q.notifyChan, m)⟩
  | .targetAck results name (id :: ids) =>
      some (.goto (b.log name (.ack id)) (.consume q (.targetAck results name ids)))
  | .targetAck results _ [] => some (.ret b (consumed results))

/-- What a step of `Consume` does, with what it has found. -/
inductive ConsumePc.Steps (now : Time) (b : Broker) (q : ConsumeArgs) : ConsumePc → Outcome → Prop
  | badName : Steps now b q .getTopic (.ret b (.consumed none))
  | full {b'} : b.getOrCreateTopic q.topicName = (none, b') → Steps now b q .getTopic (.ret b' (.consumed none))
  | getTopic {t b'} : b.getOrCreateTopic q.topicName = (some t, b') →
      Steps now b q .getTopic (.goto b' (.consume q (.getMatching t)))
  | getMatching {t} : Steps now b q (.getMatching t)
      (.goto (b.matchingTopics q.topicName).2 (.consume q (.scan t (b.matchingTopics q.topicName).1)))
  | scan {t r rest results ids name b'} :
      b.extractMatching r q.limit now = some ((results, ids, name), b') → Steps now b q (.scan t (r :: rest))
        ⟨b', .goto (.consume q (.scanAck t rest results name ids)), results.map fun m => (q.notifyChan, m)⟩
  | scanned {t} : Steps now b q (.scan t []) (.goto b (.consume q (.target t)))
  | scanAck {t rest results name id ids} : Steps now b q (.scanAck t rest results name (id :: ids))
        (.goto (b.log name (.ack id)) (.consume q (.scanAck t rest results name ids)))
  | scanNext {t rest name} : Steps now b q (.scanAck t rest [] name []) (.goto b (.consume q (.scan t rest)))
  | found {t rest m ms name} : Steps now b q (.scanAck t rest (m :: ms) name []) (.ret b (consumed (m :: ms)))
  | target {t results ids name b'} :
      b.extractTarget t q.limit now q.notifyChan = some ((results, ids, name), b') → Steps now b q (.target t)
        ⟨b', .goto (.consume q (.targetAck results name ids)), results.map fun m => (q.notifyChan, m)⟩
  | targetAck {results name id ids} : Steps now b q (.targetAck results name (id :: ids))
        (.goto (b.log name (.ack id)) (.consume q (.targetAck results name ids)))
  | done {results name} : Steps now b q (.targetAck results name []) (.ret b (consumed results))

theorem ConsumePc.steps {pc : ConsumePc} (h : pc.step now b q = some o) : pc.Steps now b q o := by
  cases pc with
  | getTopic =>
    simp only [step] at h
    split at h
    · cases h; exact .badName
    split at h
    next hb => cases h; exact .full hb
    next hb => cases h; exact .getTopic hb
  | getMatching t => cases h; exact .getMatching
  | scan t rest =>
    cases rest with
    | nil => cases h; exact .scanned
    | cons r rest =>
      obtain ⟨⟨⟨results, ids, name⟩, b'⟩, hb, rfl⟩ := map_eq_some_iff.mp h
      exact .scan hb
  | scanAck t rest results name ids =>
    cases ids with
    | cons id ids => cases h; exact .scanAck
    | nil => cases results <;> cases h <;> constructor
  | target t =>
    obtain ⟨⟨⟨results, ids, name⟩, b'⟩, hb, rfl⟩ := map_eq_some_iff.mp h
    exact .target hb
  | targetAck results name ids => cases ids <;> cases h <;> constructor

/-- The message `Requeue` puts back, and where: the retries are counted and
the third one sends it to the dead letter queue. -/
def requeued (m : Message) : Message :=
  let retryCount := (if m.retryCount < 0 then 0 else m.retryCount) + 1
  if 3 ≤ retryCount then { m with retryCount, topic := dlqName m.topic } else { m with retryCount }

def Pc.step (now : Time) (b : Broker) : Pc → Option Outcome
  | .publish left p pc => pc.step now b left p
  | .push p pc => pc.step b p
  | .broadcast (ch :: channels) m =>
    match b.trySend ch m with
    | some b => some ⟨b, .goto (.broadcast channels m), [(ch, m)]⟩
    | none => some (.goto b (.broadcast channels m))
  | .broadcast [] _ => some (.ret b .done)
  | .consume q pc => pc.step now b q
  | .ack topicName msgID =>
    match b.topics.lookup topicName with
    | none => some (.ret b (.acked false))
    | some t => some (.goto b (.ackAt t topicName msgID))
  | .ackAt t topicName msgID => (b.ackMessage t topicName msgID).map fun (ok, b) => .ret b (.acked ok)
  | .removeWaiting topicName notifyChan =>
    match b.topics.lookup topicName with
    | none => some (.ret b .done)
    | some t => some (.goto b (.removeWaitingAt t topicName notifyChan))
  | .removeWaitingAt t _ notifyChan => (b.removeWaiting t notifyChan).map fun b => .ret b .done
  | .requeue m =>
    match b.getOrCreateTopic (requeued m).topic with
    | (none, b) => some (.ret b .done)
    | (some t, b) => some (.goto b (.requeuePut t (requeued m)))
  | .requeuePut t m => some (.goto (b.log m.topic (.put m)) (.requeueAt t m))
  | .requeueAt t m =>
    (b.requeueTo t m).map fun (ch, b) => ⟨b, .ret .done, (ch.map fun ch => (ch, m)).toList⟩

/-- What a step does, with what it has found. -/
inductive Pc.Steps (now : Time) (b : Broker) : Pc → Outcome → Prop
  | publish {left p} {pc : PublishPc} {o} : pc.step now b left p = some o →
      Steps now b (.publish left p pc) o
  | push {p} {pc : PushPc} {o} : pc.step b p = some o → Steps now b (.push p pc) o
  | consume {q} {pc : ConsumePc} {o} : pc.step now b q = some o → Steps now b (.consume q pc) o
  | castSent {ch channels m b'} : b.trySend ch m = some b' →
      Steps now b (.broadcast (ch :: channels) m) ⟨b', .goto (.broadcast channels m), [(ch, m)]⟩
  | castFull {ch channels m} : b.trySend ch m = none →
      Steps now b (.broadcast (ch :: channels) m) (.goto b (.broadcast channels m))
  | castEnd {m} : Steps now b (.broadcast [] m) (.ret b .done)
  | ackMissing {n id} : b.topics.lookup n = none → Steps now b (.ack n id) (.ret b (.acked false))
  | ackFound {n id t} : b.topics.lookup n = some t →
      Steps now b (.ack n id) (.goto b (.ackAt t n id))
  | ackAt {t n id ok b'} : b.ackMessage t n id = some (ok, b') →
      Steps now b (.ackAt t n id) (.ret b' (.acked ok))
  | leaveMissing {n ch} : b.topics.lookup n = none → Steps now b (.removeWaiting n ch) (.ret b .done)
  | leaveFound {n ch t} : b.topics.lookup n = some t →
      Steps now b (.removeWaiting n ch) (.goto b (.removeWaitingAt t n ch))
  | leaveAt {t n ch b'} : b.removeWaiting t ch = some b' →
      Steps now b (.removeWaitingAt t n ch) (.ret b' .done)
  | requeueFull {m b'} : b.getOrCreateTopic (requeued m).topic = (none, b') →
      Steps now b (.requeue m) (.ret b' .done)
  | requeueFound {m t b'} : b.getOrCreateTopic (requeued m).topic = (some t, b') →
      Steps now b (.requeue m) (.goto b' (.requeuePut t (requeued m)))
  | requeuePut {t m} : Steps now b (.requeuePut t m) (.goto (b.log m.topic (.put m)) (.requeueAt t m))
  | requeueAt {t m ch b'} : b.requeueTo t m = some (ch, b') →
      Steps now b (.requeueAt t m) ⟨b', .ret .done, (ch.map fun ch => (ch, m)).toList⟩

theorem Pc.steps {pc : Pc} (h : pc.step now b = some o) : pc.Steps now b o := by
  cases pc with
  | publish | push | consume => constructor; exact h
  | broadcast channels m =>
    cases channels with
    | nil => cases h; exact .castEnd
    | cons ch channels =>
      simp only [step] at h
      split at h
      next hb => cases h; exact .castSent hb
      next hb => cases h; exact .castFull hb
  | ack | removeWaiting | requeue =>
    simp only [step] at h
    split at h
    all_goals
      cases h
      constructor
      assumption
  | ackAt | removeWaitingAt | requeueAt =>
    obtain ⟨x, hb, rfl⟩ := map_eq_some_iff.mp h
    constructor
    exact hb
  | requeuePut t m => cases h; exact .requeuePut

/-! ## Calls -/

/-- A call in progress: where it is, and the callers that wait for it. -/
structure Call where
  pc : Pc
  stack : List Pc
  deriving DecidableEq, Repr

/-- The call after a critical section, or what it has returned. The caller
of a nested `publishCore` does not look at its result. -/
def Call.resume (stack : List Pc) : Next → Call ⊕ Ret
  | .goto pc => .inl ⟨pc, stack⟩
  | .call dest caller => .inl ⟨dest, caller :: stack⟩
  | .ret r =>
    match stack with
    | [] => .inr r
    | caller :: stack => .inl ⟨caller, stack⟩

/-- The methods of the broker. -/
inductive Op
  | publish (p : PublishArgs)
  | consume (q : ConsumeArgs)
  | ack (topicName msgID : GoString)
  | removeWaitingConsumer (topicName : GoString) (notifyChan : Chan)
  | requeue (m : Message)
  deriving DecidableEq, Repr

def Op.entry : Op → Call
  | .publish p => ⟨.publish 11 p .enter, []⟩
  | .consume q => ⟨.consume q .getTopic, []⟩
  | .ack topicName msgID => ⟨.ack topicName msgID, []⟩
  | .removeWaitingConsumer topicName notifyChan => ⟨.removeWaiting topicName notifyChan, []⟩
  | .requeue m => ⟨.requeue m, []⟩

/-- A call that runs with no other goroutine in between returns `r` and
leaves `b'`. -/
inductive Returns (now : Time) : Broker → Call → Ret → Broker → Prop
  | done {b} {c : Call} {o r} :
      c.pc.step now b = some o → Call.resume c.stack o.next = .inr r → Returns now b c r o.broker
  | next {b b'} {c c' : Call} {o r} :
      c.pc.step now b = some o → Call.resume c.stack o.next = .inl c' → Returns now o.broker c' r b' →
      Returns now b c r b'

/-- The same as a function, for as many steps as `fuel`. -/
def Call.run (now : Time) : Nat → Broker → Call → Option (Ret × Broker)
  | 0, _, _ => none
  | fuel + 1, b, c =>
    match c.pc.step now b with
    | none => none
    | some o =>
      match Call.resume c.stack o.next with
      | .inl c' => Call.run now fuel o.broker c'
      | .inr r => some (r, o.broker)

theorem Call.run_returns (h : Call.run now fuel b c = some (r, b')) : Returns now b c r b' := by
  induction fuel generalizing b c with
  | zero => cases h
  | succ fuel ih =>
    rw [Call.run] at h
    split at h
    · cases h
    next o hs =>
      split at h
      next c' hc => exact .next hs hc (ih h)
      next r' hr => cases h; exact .done hs hr

/-! ## Interleavings -/

/-- The broker with all that runs on it. Goroutines are numbered; a number
is used once. `handed` lists the messages given to consumers so far, each
with the notify channel of its consumer: sent to it, or taken out of a
queue by the `Consume` it was passed to. -/
structure Sys where
  now : Time
  broker : Broker
  calls : Nat → Option Call
  results : Nat → Option Ret
  handed : List (Chan × Message)

/-- What can happen next. -/
inductive Label
  /-- Time passes. -/
  | tick (d : Nat)
  /-- A caller starts a method in goroutine `i`. -/
  | start (i : Nat) (op : Op)
  /-- Goroutine `i` runs its next critical section or send. -/
  | run (i : Nat)
  /-- A goroutine of the broker starts to run, as number `i`. -/
  | fire (k i : Nat)
  /-- The owner of a channel receives from it. -/
  | recv (ch : Chan)
  deriving DecidableEq, Repr

/-- The call a goroutine of the broker makes, once it is due. -/
def Goroutine.entry (now : Time) : Goroutine → Option Call
  | .timer due push => if due ≤ now then some ⟨.push push .spies, []⟩ else none
  | .broadcast channels m => some ⟨.broadcast channels m, []⟩

namespace Sys

/-- Goroutine `i` has not been used. -/
def free (s : Sys) (i : Nat) : Bool := (s.calls i).isNone && (s.results i).isNone

def setCall (s : Sys) (i : Nat) : Call ⊕ Ret → Sys
  | .inl c => { s with calls := update s.calls i (some c) }
  | .inr r => { s with calls := update s.calls i none, results := update s.results i (some r) }

def step (s : Sys) : Label → Option Sys
  | .tick d => some { s with now := s.now + d }
  | .start i op => if s.free i then some (s.setCall i (.inl op.entry)) else none
  | .run i => do
    let c ← s.calls i
    let o ← c.pc.step s.now s.broker
    return { s with broker := o.broker, handed := s.handed ++ o.handed }.setCall i (Call.resume c.stack o.next)
  | .fire k i => do
    let g ← s.broker.goroutines[k]?
    let c ← g.entry s.now
    if s.free i then
      return { s with broker := { s.broker with goroutines := s.broker.goroutines.eraseIdx k } }.setCall i (.inl c)
    else none
  | .recv ch =>
    match (s.broker.chans ch).buf with
    | [] => none
    | _ :: rest =>
      let chans := update s.broker.chans ch { s.broker.chans ch with buf := rest }
      some { s with broker := { s.broker with chans } }

/-- Nothing runs on the broker yet. -/
def init (now : Time) (b : Broker) : Sys where
  now := now
  broker := b
  calls := fun _ => none
  results := fun _ => none
  handed := []

end Sys

/-! ## A message to run examples with -/

def samplePublish : PublishArgs where
  topicName := ascii "t"
  payload := []
  headers := []
  priority := []
  expiresAt := none
  deliverAt := none
  isBroadcast := false
  isReplication := false

/-- The message it makes at time 0 on `Broker.sample`. -/
def firstMessage : Message := samplePublish.message [97] 0 0

end TinyMQ
