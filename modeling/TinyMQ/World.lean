/-
All the methods of the broker, interleaved.

`Sys` has the calls that publish, consume, acknowledge and requeue. `World`
adds the other ones, a critical section at a time too: `Purge`,
`DeleteTopic`, `RedriveDLQ`, the sweep for expired messages, spies, and the
creation of topics and groups. A method that publishes does so in the same
goroutine, as a call of `Sys`.

`Past` is what an observer has written down: no step looks at it.
-/
import TinyMQ.Groups
import TinyMQ.Redrive

namespace TinyMQ

open Option Function

/-- `ClearLog`; opening the file may fail. -/
def LogStore.clearLog (s : LogStore) (topic : GoString) (opened : Bool) : LogStore :=
  match isSafePath topic with
  | some _ => s
  | none => if opened then { s with files := s.files.insert (logFilename topic) [] } else s

/-- `purge` in `purgeExpiredMessages`, on the three queues. -/
def Topic.purgeExpired (t : Topic) (now : Time) : Topic :=
  { t with
    highMessages := t.highMessages.filter fun m => !m.expired now
    messages := t.messages.filter fun m => !m.expired now
    lowMessages := t.lowMessages.filter fun m => !m.expired now }

namespace Broker

/-! ## Critical sections -/

/-- `Purge` empties the queues of the topic it has found. -/
def purgeTopic (b : Broker) (r : TopicRef) : Option Broker :=
  (b.lock r).map fun t => b.setTopic r { t with messages := [], highMessages := [], lowMessages := [] }

def clearLog (b : Broker) (topicName : GoString) (opened : Bool) : Broker :=
  { b with storage := b.storage.map (·.clearLog topicName opened) }

def deleteLog (b : Broker) (topicName : GoString) (removed : Bool) : Broker :=
  { b with storage := b.storage.map (·.deleteLog topicName removed) }

/-- What `DeleteTopic` does under `b.mu`; whether there was a topic. -/
def markDeleted (b : Broker) (topicName : GoString) : Option (Bool × Broker) :=
  match b.topics.lookup topicName with
  | none => some (false, b)
  | some r => (b.lock r).map fun t => (true, (b.setTopic r { t with deleted := true }).removeTopic topicName)

/-- `purgeExpiredMessages` on one topic: its name and the expired IDs. -/
def purgeExpired (b : Broker) (r : TopicRef) (now : Time) : Option ((GoString × List GoString) × Broker) :=
  (b.lock r).map fun t =>
    ((t.name, (t.queued.filter fun m => m.expired now).map Message.id), b.setTopic r (t.purgeExpired now))

/-- `AddSpy` on the topic it has found: a new channel. -/
def addSpy (b : Broker) (r : TopicRef) : Option (Spy × Broker) :=
  (b.lock r).map fun t =>
    (b.spyCount,
      { b with spyCount := b.spyCount + 1, spyChans := update b.spyChans b.spyCount ⟨1024, []⟩ }.setTopic r
        { t with spies := t.spies ++ [b.spyCount] })

/-- `RemoveSpy` on the topic it has found; whether it closes the channel. -/
def removeSpy (b : Broker) (r : TopicRef) (ch : Spy) : Option (Bool × Broker) :=
  (b.lock r).map fun t =>
    if ch ∈ t.spies then (true, b.setTopic r { t with spies := t.spies.erase ch }) else (false, b)

end Broker

/-! ## Methods -/

/-- The methods that are no `Op`, with the outcomes of what they do to files. -/
inductive Method
  | purge (topicName : GoString) (opened : Bool)
  | deleteTopic (topicName : GoString) (removed : Bool)
  | redriveDLQ (targetTopic : GoString)
  | purgeExpiredMessages
  | addSpy (topicName : GoString)
  | removeSpy (topicName : GoString) (ch : Spy)
  | createTopic (topicName policy : GoString) (retention : Time)
  | createGroup (topicName groupName : GoString)
  deriving DecidableEq, Repr

inductive MethodRet
  | ok
  | error (text : GoString)
  | redriven (n : Nat)
  | spy (ch : Spy)
  | group (name : GoString)
  deriving DecidableEq, Repr

/-- Where a method is. -/
inductive MethodPc
  | purge (topicName : GoString) (opened : Bool)
  | purgeAt (t : TopicRef) (topicName : GoString) (opened : Bool)
  | clearLog (topicName : GoString) (opened : Bool)
  | deleteTopic (topicName : GoString) (removed : Bool)
  | deleteLog (topicName : GoString) (removed : Bool)
  | redriveDLQ (targetTopic dlqName : GoString)
  | redriveAt (t : TopicRef) (targetTopic dlqName : GoString)
  | redrive (targetTopic dlqName : GoString) (msgs : List Message) (redriven : Nat)
  /-- In `publishCore`, with more messages to come. -/
  | redriving (targetTopic dlqName : GoString) (msgs : List Message) (redriven : Nat)
  | sweep
  /-- Before `time.Now()`, with the topics to look at. -/
  | sweepNow (topics : List TopicRef)
  | sweepTopics (now : Time) (topics : List TopicRef)
  | sweepAck (now : Time) (topics : List TopicRef) (name : GoString) (ids : List GoString)
  | addSpy (topicName : GoString)
  | addSpyAt (t : TopicRef) (topicName : GoString)
  | removeSpy (topicName : GoString) (ch : Spy)
  | removeSpyAt (t : TopicRef) (ch : Spy)
  | createTopic (topicName policy : GoString) (retention : Time)
  | createGroup (topicName groupName : GoString)
  | createGroupAt (virtualName : GoString)
  | done (r : MethodRet)
  deriving DecidableEq, Repr

def Method.entry : Method → MethodPc
  | .purge topicName opened => .purge topicName opened
  | .deleteTopic topicName removed => .deleteTopic topicName removed
  | .redriveDLQ targetTopic => .redriveDLQ (redriveNames targetTopic).1 (redriveNames targetTopic).2
  | .purgeExpiredMessages => .sweep
  | .addSpy topicName => .addSpy topicName
  | .removeSpy topicName ch => .removeSpy topicName ch
  | .createTopic topicName policy retention => .createTopic topicName policy retention
  | .createGroup topicName groupName => .createGroup topicName groupName

/-- The outcome of a critical section: the broker, how the method goes on,
the `publishCore` it calls, the channel it closes. -/
structure MethodOutcome where
  broker : Broker
  next : MethodPc
  call : Option PublishArgs
  closes : Option Spy

def MethodOutcome.goto (b : Broker) (pc : MethodPc) : MethodOutcome := ⟨b, pc, none, none⟩

/-- A critical section of a method; `ret` is what the `publishCore` it has
called returned. -/
def MethodPc.step (now : Time) (b : Broker) (ret : Option Ret) : MethodPc → Option MethodOutcome
  | .purge topicName opened =>
    match b.topics.lookup topicName with
    | none => some (.goto b (.done (.error (ascii "queue not found"))))
    | some t => some (.goto b (.purgeAt t topicName opened))
  | .purgeAt t topicName opened => (b.purgeTopic t).map fun b => .goto b (.clearLog topicName opened)
  | .clearLog topicName opened => some (.goto (b.clearLog topicName opened) (.done .ok))
  | .deleteTopic topicName removed =>
    (b.markDeleted topicName).map fun (found, b) =>
      .goto b (if found then .deleteLog topicName removed else .done (.error (ascii "queue not found")))
  | .deleteLog topicName removed => some (.goto (b.deleteLog topicName removed) (.done .ok))
  | .redriveDLQ targetTopic dlqName =>
    match b.topics.lookup dlqName with
    | none => some (.goto b (.done (.error (ascii "DLQ topic '" ++ dlqName ++ ascii "' not found"))))
    | some t => some (.goto b (.redriveAt t targetTopic dlqName))
  | .redriveAt t targetTopic dlqName =>
    (b.takeMessages t).map fun (msgs, b) => .goto b (.redrive targetTopic dlqName msgs 0)
  | .redrive _ _ [] redriven => some (.goto b (.done (.redriven redriven)))
  | .redrive targetTopic dlqName (msg :: msgs) redriven =>
    some ⟨b.log dlqName (.ack msg.id), .redriving targetTopic dlqName msgs redriven,
      some (redriveArgs targetTopic msg), none⟩
  | .redriving targetTopic dlqName msgs redriven =>
    ret.map fun r => .goto b (.redrive targetTopic dlqName msgs (if r.isOk then redriven + 1 else redriven))
  | .sweep =>
    let (names, b) := b.range b.topics.keys
    some (.goto b (.sweepNow (names.filterMap fun name => b.topics.lookup name)))
  | .sweepNow topics => some (.goto b (.sweepTopics now topics))
  | .sweepTopics _ [] => some (.goto b (.done .ok))
  | .sweepTopics since (t :: topics) =>
    (b.purgeExpired t since).map fun ((name, ids), b) => .goto b (.sweepAck since topics name ids)
  | .sweepAck since topics _ [] => some (.goto b (.sweepTopics since topics))
  | .sweepAck since topics name (id :: ids) => some (.goto (b.log name (.ack id)) (.sweepAck since topics name ids))
  | .addSpy topicName =>
    if !isValidTopicName topicName then some (.goto b (.done (.error (ascii "invalid topic name"))))
    else
      match b.getOrCreateTopic topicName with
      | (none, b) => some (.goto b (.done (.error (ascii "broker maximum topic limit reached"))))
      | (some t, b) => some (.goto b (.addSpyAt t topicName))
  | .addSpyAt t _ => (b.addSpy t).map fun (ch, b) => .goto b (.done (.spy ch))
  | .removeSpy topicName ch =>
    match b.topics.lookup topicName with
    | none => some (.goto b (.done .ok))
    | some t => some (.goto b (.removeSpyAt t ch))
  | .removeSpyAt t ch =>
    (b.removeSpy t ch).map fun (closes, b) => ⟨b, .done .ok, none, if closes then some ch else none⟩
  | .createTopic topicName policy retention =>
    match b.createTopic topicName policy retention with
    | (some e, b) => some (.goto b (.done (.error e)))
    | (none, b) => some (.goto b (.done .ok))
  | .createGroup topicName groupName =>
    if !validTopicRegex groupName then some (.goto b (.done (.error (ascii "invalid group name format"))))
    else
      let name := virtualName topicName groupName
      some (.goto (b.bind topicName name) (.createGroupAt name))
  | .createGroupAt name =>
    match b.getOrCreateTopic name with
    | (none, b) => some (.goto b (.done (.error (ascii "broker maximum topic limit reached"))))
    | (some _, b) => some (.goto b (.done (.group name)))
  | .done _ => none

/-- What a section does, with what it has found. -/
inductive MethodPc.Steps (now : Time) (b : Broker) : MethodPc → MethodOutcome → Prop
  | purgeMissing {n opened e} : Steps now b (.purge n opened) (.goto b (.done e))
  | purge {n opened r} : Steps now b (.purge n opened) (.goto b (.purgeAt r n opened))
  | purgeAt {r n opened t} : b.lock r = some t →
      Steps now b (.purgeAt r n opened) (.goto (b.setTopic r t.emptied) (.clearLog n opened))
  | clearLog {n opened} : Steps now b (.clearLog n opened) (.goto (b.clearLog n opened) (.done .ok))
  | deleteMissing {n removed e} : Steps now b (.deleteTopic n removed) (.goto b (.done e))
  | deleteTopic {n removed r t} : b.topics.lookup n = some r → b.lock r = some t →
      Steps now b (.deleteTopic n removed)
        (.goto ((b.setTopic r { t with deleted := true }).removeTopic n) (.deleteLog n removed))
  | deleteLog {n removed} : Steps now b (.deleteLog n removed) (.goto (b.deleteLog n removed) (.done .ok))
  | redriveDLQ {target dlq next} : Steps now b (.redriveDLQ target dlq) (.goto b next)
  | redriveNone {r target dlq next} : Steps now b (.redriveAt r target dlq) (.goto b next)
  | redriveAt {r target dlq t next} : b.lock r = some t →
      Steps now b (.redriveAt r target dlq) (.goto (b.setTopic r { t with messages := [] }) next)
  | redriven {target dlq n next} : Steps now b (.redrive target dlq [] n) (.goto b next)
  | redrive {target dlq m ms n} : Steps now b (.redrive target dlq (m :: ms) n)
      ⟨b.log dlq (.ack m.id), .redriving target dlq ms n, some (redriveArgs target m), none⟩
  | redriving {target dlq ms n next} : Steps now b (.redriving target dlq ms n) (.goto b next)
  | sweep {next} : Steps now b .sweep (.goto (b.range b.topics.keys).2 next)
  | sweepNow {rs next} : Steps now b (.sweepNow rs) (.goto b next)
  | swept {since next} : Steps now b (.sweepTopics since []) (.goto b next)
  | sweepTopics {since r rs t next} : b.lock r = some t →
      Steps now b (.sweepTopics since (r :: rs)) (.goto (b.setTopic r (t.purgeExpired since)) next)
  | acked {since rs n next} : Steps now b (.sweepAck since rs n []) (.goto b next)
  | sweepAck {since rs n id ids next} : Steps now b (.sweepAck since rs n (id :: ids)) (.goto (b.log n (.ack id)) next)
  | spyInvalid {n e} : Steps now b (.addSpy n) (.goto b (.done e))
  | spyFull {n e} : Steps now b (.addSpy n) (.goto (b.getOrCreateTopic n).2 (.done e))
  | addSpy {n r b'} : b.getOrCreateTopic n = (some r, b') → Steps now b (.addSpy n) (.goto b' (.addSpyAt r n))
  | addSpyAt {r n ch b'} : b.addSpy r = some (ch, b') → Steps now b (.addSpyAt r n) (.goto b' (.done (.spy ch)))
  | removeSpyMissing {n ch} : Steps now b (.removeSpy n ch) (.goto b (.done .ok))
  | removeSpy {n ch r} : Steps now b (.removeSpy n ch) (.goto b (.removeSpyAt r ch))
  | removeSpyAt {r ch closes b'} : b.removeSpy r ch = some (closes, b') →
      Steps now b (.removeSpyAt r ch) ⟨b', .done .ok, none, if closes then some ch else none⟩
  | createTopic {n policy retention e} :
      Steps now b (.createTopic n policy retention) (.goto (b.createTopic n policy retention).2 (.done e))
  | groupInvalid {T g e} : validTopicRegex g = false → Steps now b (.createGroup T g) (.goto b (.done e))
  | createGroup {T g} : validTopicRegex g = true →
      Steps now b (.createGroup T g) (.goto (b.bind T (virtualName T g)) (.createGroupAt (virtualName T g)))
  | createGroupAt {n e} : Steps now b (.createGroupAt n) (.goto (b.getOrCreateTopic n).2 (.done e))

theorem MethodPc.steps (h : MethodPc.step now b ret pc = some o) : pc.Steps now b o := by
  cases pc with
  | purge | redriveDLQ | removeSpy =>
    simp only [step] at h
    split at h <;> cases h <;> constructor
  | clearLog | deleteLog | sweep | sweepNow => cases h; constructor
  | redrive _ _ l | sweepAck _ _ _ l => cases l <;> cases h <;> constructor
  | purgeAt r =>
    obtain ⟨b', hb, rfl⟩ := map_eq_some_iff.mp h
    obtain ⟨t, ht, rfl⟩ := map_eq_some_iff.mp hb
    exact .purgeAt ht
  | deleteTopic n =>
    obtain ⟨⟨found, b'⟩, hb, rfl⟩ := map_eq_some_iff.mp h
    unfold Broker.markDeleted at hb
    split at hb
    · cases hb; exact .deleteMissing
    next hr =>
      obtain ⟨t, ht, hb⟩ := map_eq_some_iff.mp hb
      cases hb
      exact .deleteTopic hr ht
  | redriveAt r =>
    obtain ⟨⟨ms, b'⟩, hb, rfl⟩ := map_eq_some_iff.mp h
    obtain ⟨t, ht, hb⟩ := map_eq_some_iff.mp hb
    cases hb
    dsimp only
    split
    · exact .redriveNone
    · exact .redriveAt ht
  | redriving =>
    obtain ⟨r, -, rfl⟩ := map_eq_some_iff.mp h
    exact .redriving
  | sweepTopics since rs =>
    cases rs with
    | nil => cases h; exact .swept
    | cons r rs =>
      obtain ⟨⟨x, b'⟩, hb, rfl⟩ := map_eq_some_iff.mp h
      obtain ⟨t, ht, hb⟩ := map_eq_some_iff.mp hb
      cases hb
      exact .sweepTopics ht
  | addSpy n =>
    simp only [step] at h
    split at h
    · cases h; exact .spyInvalid
    split at h
    next b' hb => cases h; rw [show b' = (b.getOrCreateTopic n).2 by rw [hb]]; exact .spyFull
    next hb => cases h; exact .addSpy hb
  | addSpyAt | removeSpyAt =>
    obtain ⟨⟨x, b'⟩, hb, rfl⟩ := map_eq_some_iff.mp h
    constructor
    exact hb
  | createTopic n policy retention =>
    simp only [step] at h
    rcases hc : b.createTopic n policy retention with ⟨_ | e, b'⟩ <;> rw [hc] at h <;> cases h <;>
      rw [show b' = (b.createTopic n policy retention).2 by rw [hc]] <;> exact .createTopic
  | createGroup T g =>
    simp only [step] at h
    cases hg : validTopicRegex g <;> rw [hg] at h <;> cases h
    · exact .groupInvalid hg
    · exact .createGroup hg
  | createGroupAt n =>
    simp only [step] at h
    rcases hc : b.getOrCreateTopic n with ⟨_ | r, b'⟩ <;> rw [hc] at h <;> cases h <;>
      rw [show b' = (b.getOrCreateTopic n).2 by rw [hc]] <;> exact .createGroupAt
  | done => cases h

/-! ## The world -/

/-- What has happened, in its order: the messages handed to consumers, with
the time, those sent to notify channels and to spies, those that were
appended to a queue, those of them that wait for a timer, those that are not
in their topic any more, and the notify channels passed to `Consume`. -/
structure Past where
  handed : List (Time × Chan × Message)
  sent : List (Chan × Message)
  spied : List (Spy × Message)
  appended : List (TopicRef × Message)
  delayed : List (TopicRef × Message)
  removed : List (TopicRef × Message)
  passed : List Chan

/-- The calls of `Sys`, the other methods, and the spies whose channel is
closed. A send to a closed channel and a second close panic. -/
structure World where
  sys : Sys
  methods : Nat → Option MethodPc
  closed : List Spy
  panicked : Bool
  past : Past

inductive WorldLabel
  | sys (l : Label)
  /-- A caller starts a method in goroutine `i`. -/
  | start (i : Nat) (m : Method)
  /-- The method in goroutine `i` runs its next critical section. -/
  | run (i : Nat)
  /-- The owner of a spy receives from it. -/
  | recvSpy (ch : Spy)
  deriving DecidableEq, Repr

/-- The messages that are in a topic that was not deleted. -/
def Broker.present (b : Broker) : List (TopicRef × Message) :=
  b.heap.zipIdx.flatMap fun (t, r) => if t.deleted then [] else t.queued.map fun m => (r, m)

/-- The spies of a topic object that have room. -/
def Broker.readySpies (b : Broker) (r : TopicRef) : List Spy :=
  ((b.heap[r]?.map Topic.spies).getD []).filter fun ch => (b.spyChans ch).buf.length < (b.spyChans ch).cap

namespace Pc

def isConsume : Pc → Bool
  | .consume _ _ => true
  | _ => false

/-- The topic object to whose spies a push sends next, and the message. -/
def spiesAt : Pc → Option (TopicRef × Message)
  | .push p .spies => some (p.t, p.msg)
  | .push p (.wildSpies (w :: _)) => some (w, p.msg)
  | _ => none

/-- The message a call appends to a queue next, unless it is refused. -/
def appends (b : Broker) : Pc → Option (TopicRef × Message)
  | .publish _ p (.store t _ m _) =>
    match b.store t p.topicName (.ofString p.priority) p.isBroadcast m with
    | some (none, _) => some (t, m)
    | _ => none
  | .requeueAt t m =>
    match b.requeueTo t m with
    | some (none, _) => some (t, m)
    | _ => none
  | _ => none

/-- The same if the message is one that a timer pushes. -/
def delays (b : Broker) : Pc → Option (TopicRef × Message)
  | .publish left p (.store t wildcards m true) => appends b (.publish left p (.store t wildcards m true))
  | _ => none

end Pc

namespace World

def now (w : World) : Time := w.sys.now

def broker (w : World) : Broker := w.sys.broker

def runs (w : World) : WorldLabel → Option Pc
  | .sys (.run i) => (w.sys.calls i).map Call.pc
  | _ => none

/-- The spies a step sends to, with the message. -/
def spySends (w : World) (l : WorldLabel) : List (Spy × Message) :=
  match (w.runs l).bind Pc.spiesAt with
  | some (r, m) => (w.broker.readySpies r).map fun ch => (ch, m)
  | none => []

/-- A step sends to a spy whose channel is closed: the `select` panics
whether there is room or not. -/
def sendsToClosed (w : World) (l : WorldLabel) : Bool :=
  match (w.runs l).bind Pc.spiesAt with
  | some (r, _) => ((w.broker.heap[r]?.map Topic.spies).getD []).any fun ch => ch ∈ w.closed
  | none => false

instance : LawfulBEq (TopicRef × Message) := inferInstance

/-- What is written down of a step. -/
def record (w : World) (l : WorldLabel) (s : Sys) : Past where
  handed := w.past.handed ++ (s.handed.drop w.sys.handed.length).map fun x => (w.now, x)
  sent := w.past.sent ++ if ((w.runs l).map Pc.isConsume).getD true then [] else s.handed.drop w.sys.handed.length
  spied := w.past.spied ++ w.spySends l
  appended := w.past.appended ++ ((w.runs l).bind fun pc => pc.appends w.broker).toList
  delayed := w.past.delayed ++ ((w.runs l).bind fun pc => pc.delays w.broker).toList
  removed := w.past.removed ++ w.broker.present.filter fun x => x ∉ s.broker.present
  passed := w.past.passed ++
    match l with
    | .sys (.start _ (.consume q)) => [q.notifyChan]
    | _ => []

/-- A number is used once. -/
def free (w : World) (i : Nat) : Bool := (w.methods i).isNone

/-- A goroutine that a label starts runs no method. -/
def allows (w : World) : Label → Bool
  | .start i _ => w.free i
  | .fire _ i => w.free i
  | _ => true

/-- The calls after a section of the method in goroutine `i`: it may have
called `publishCore`, or looked at what that returned. -/
def afterMethod (s : Sys) (i : Nat) (pc : MethodPc) (o : MethodOutcome) : Sys :=
  { s with
    broker := o.broker
    calls := match o.call with
      | some p => update s.calls i (some (Op.publish p).entry)
      | none => s.calls
    results := match pc with
      | .redriving _ _ _ _ => update s.results i none
      | _ => s.results }

def step (w : World) : WorldLabel → Option World
  | .sys l =>
    if w.allows l then
      (w.sys.step l).map fun s =>
        { w with sys := s, panicked := w.panicked || w.sendsToClosed (.sys l), past := w.record (.sys l) s }
    else none
  | .start i m =>
    if w.sys.free i && w.free i then some { w with methods := update w.methods i (some m.entry) } else none
  | .run i => do
    let pc ← w.methods i
    let o ← pc.step w.now w.broker (w.sys.results i)
    let s := afterMethod w.sys i pc o
    return {
      sys := s
      methods := update w.methods i (some o.next)
      closed := o.closes.toList ++ w.closed
      panicked := w.panicked || o.closes.toList.any fun ch => ch ∈ w.closed
      past := w.record (.run i) s }
  | .recvSpy ch =>
    match (w.broker.spyChans ch).buf with
    | [] => none
    | _ :: rest =>
      let spyChans := update w.broker.spyChans ch { w.broker.spyChans ch with buf := rest }
      some { w with sys := { w.sys with broker := { w.broker with spyChans } } }

def init (now : Time) (b : Broker) : World where
  sys := .init now b
  methods := fun _ => none
  closed := []
  panicked := false
  past := ⟨[], [], [], [], [], [], []⟩

end World

namespace WorldLabel

/-- A call is started in goroutine `i` and runs `n` of its sections. -/
def call (i : Nat) (op : Op) (n : Nat) : List WorldLabel := .sys (.start i op) :: List.replicate n (.sys (.run i))

/-- A method is started in goroutine `i` and runs `n` of its sections. -/
def method (i : Nat) (m : Method) (n : Nat) : List WorldLabel := .start i m :: List.replicate n (.run i)

/-- The goroutine that is started or runs. -/
def goroutine : WorldLabel → Option Nat
  | .sys (.start i _) => some i
  | .sys (.run i) => some i
  | .sys (.fire _ i) => some i
  | .start i _ => some i
  | .run i => some i
  | _ => none

end WorldLabel

end TinyMQ
