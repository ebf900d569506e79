/-
The REST handlers that publish and consume (`internal/transport/rest`), on
top of the goroutines of the broker.

A request runs in a goroutine of its number, and the channel it makes for
its `Consume` has that number too. `Handler` is where its handler is; it
calls one method of the broker at a time and goes on when that has
returned. Reading the request (method, path, limits of the body, groups,
filters, idempotency keys) comes before: a `Request` has its parameters
parsed.
-/
import TinyMQ.Machine

namespace TinyMQ

open Text

/-- The requests that publish. A TTL and a delay that do not parse are none. -/
inductive PublishRequest
  /-- `handlePublish`. -/
  | publish (topic : GoString) (body : List UInt8) (userHeaders : List (GoString × GoString)) (priority : GoString)
      (ttl delay : Option Time) (isBroadcast : Bool)
  /-- `handleQueuePublish`. -/
  | queuePublish (queue : GoString) (payload : List UInt8) (ttl delay : Option Time) (broadcast : Bool)
  deriving DecidableEq, Repr

/-- The requests that consume. A limit that does not parse is none, a
timeout that does not parse is 0. -/
inductive ConsumeRequest
  /-- `handleConsume`. -/
  | consume (topic : GoString) (limit : Option Int) (timeout : Time) (autoAck : Bool)
  /-- `handleQueueConsume`. -/
  | queueConsume (queue : GoString)
  deriving DecidableEq, Repr

inductive Request
  | publish (req : PublishRequest)
  | consume (req : ConsumeRequest)
  deriving DecidableEq, Repr

/-- What a client gets. An acceptance is written with the message that was
stored. -/
inductive Response
  | accepted (m : Message)
  | error (status : Nat) (text : GoString)
  | messages (msgs : List Message)
  | noContent
  | notFound
  /-- The client has gone; nothing is written. -/
  | cancelled
  deriving DecidableEq, Repr

/-- Where a handler is. -/
inductive Handler
  /-- In `Publish`. -/
  | publishing (req : PublishRequest)
  /-- In `Consume`. -/
  | consuming (req : ConsumeRequest)
  /-- In the `select` on the channel, the timer and the context. -/
  | selecting (req : ConsumeRequest) (deadline : Time)
  /-- In `RemoveWaitingConsumer`, after the timer or the context. -/
  | leaving (req : ConsumeRequest) (cancelled : Bool)
  /-- Before `TopicExists`. -/
  | checking (req : ConsumeRequest)
  /-- In the `Ack` of an ID, with more to come. -/
  | acking (req : ConsumeRequest) (msgs : List Message) (id : GoString) (todo : List GoString)
  | done (r : Response)
  deriving DecidableEq, Repr

namespace PublishRequest

def args (now : Time) : PublishRequest → PublishArgs
  | .publish topic body userHeaders priority ttl delay isBroadcast =>
    { topicName := topic
      payload := body
      headers := userHeaders
      priority := if priority = [] then ascii "normal" else priority
      expiresAt := ttl.map (now + ·)
      deliverAt := delay.map (now + ·)
      isBroadcast
      isReplication := false }
  | .queuePublish queue payload ttl delay broadcast =>
    { topicName := queue
      payload
      headers := []
      priority := ascii "normal"
      expiresAt := ttl.map (now + ·)
      deliverAt := delay.map (now + ·)
      isBroadcast := broadcast
      isReplication := false }

/-- The status of an error of `Publish`. -/
def errorStatus (err : GoString) : PublishRequest → Nat
  | .publish .. =>
    if contains err (ascii "capacity") || contains err (ascii "limit") then 429
    else if contains err (ascii "invalid topic") then 400
    else 500
  | .queuePublish .. => 429

end PublishRequest

namespace ConsumeRequest

def topic : ConsumeRequest → GoString
  | .consume topic _ _ _ => topic
  | .queueConsume queue => queue

def limit : ConsumeRequest → Nat
  | .consume _ (some n) _ _ => if 0 < n then (min n 1000).toNat else 1
  | .consume _ none _ _ => 1
  | .queueConsume _ => 1

def timeout : ConsumeRequest → Time
  | .consume _ _ timeout _ => timeout
  | .queueConsume _ => 0

def args (i : Nat) (req : ConsumeRequest) : ConsumeArgs := ⟨req.topic, req.limit, i⟩

def empty (req : ConsumeRequest) : Handler :=
  match req with
  | .consume .. => .checking req
  | .queueConsume _ => .done .noContent

/-- `Consume` has found nothing. -/
def noMessage (now : Time) (req : ConsumeRequest) : Handler :=
  if 0 < req.timeout then .selecting req (now + req.timeout) else req.empty

/-- The next `Ack`, or the answer. -/
def ackNext (req : ConsumeRequest) (msgs : List Message) : List GoString → Option Op × Handler
  | [] => (none, .done (.messages msgs))
  | id :: todo => (some (.ack req.topic id), .acking req msgs id todo)

/-- There are messages to answer with, if the list is not empty. -/
def answer (req : ConsumeRequest) (msgs : List Message) : Option Op × Handler :=
  match req, msgs with
  | req, [] => (none, req.empty)
  | .consume _ _ _ autoAck, msgs => req.ackNext msgs (if autoAck then msgs.map Message.id else [])
  | .queueConsume _, m :: _ => req.ackNext [m] [m.id]

end ConsumeRequest

def Request.entry (now : Time) (i : Nat) : Request → Option Op × Handler
  | .publish req => (some (.publish (req.args now)), .publishing req)
  | .consume req => (some (.consume (req.args i)), .consuming req)

/-- How a handler goes on when the method it has called returns. -/
def Handler.resume (now : Time) : Handler → Ret → Option (Option Op × Handler)
  | .publishing _, .published (.ok m) => some (none, .done (.accepted m))
  | .publishing req, .published (.error e) => some (none, .done (.error (req.errorStatus e) e))
  | .consuming req, .consumed (some msgs) => some (req.answer msgs)
  | .consuming req, .consumed none => some (none, req.noMessage now)
  | .leaving _ true, .done => some (none, .done .cancelled)
  | .leaving req false, .done => some (none, req.empty)
  | .acking req msgs _ todo, .acked _ => some (req.ackNext msgs todo)
  | _, _ => none

/-- The server: the broker with its goroutines, and the requests. -/
structure Rest where
  sys : Sys
  handlers : Nat → Option Handler

inductive RestLabel
  /-- Time passes. -/
  | tick (d : Nat)
  /-- Request `i` comes in. -/
  | request (i : Nat) (req : Request)
  /-- Goroutine `i` runs its next critical section or send in the broker. -/
  | run (i : Nat)
  /-- A goroutine of the broker starts to run, as number `i`. -/
  | fire (k i : Nat)
  /-- The handler of request `i` goes on after a call. -/
  | resume (i : Nat)
  /-- The three cases of the `select` of request `i`. -/
  | receive (i : Nat)
  | timeout (i : Nat)
  | cancel (i : Nat)
  /-- `TopicExists` in request `i`. -/
  | check (i : Nat)
  deriving DecidableEq, Repr

/-- The caller in goroutine `i` has taken the result of its call. -/
def Sys.take (s : Sys) (i : Nat) : Sys := { s with results := Function.update s.results i none }

namespace Rest

/-- The handler of request `i` goes on as `next` says, with a call or none. -/
def go (R : Rest) (i : Nat) (s : Sys) (next : Option Op × Handler) : Option Rest :=
  (match next.1 with
  | none => some s
  | some op => s.step (.start i op)).map fun s => ⟨s, Function.update R.handlers i (some next.2)⟩

/-- The request and the deadline of a handler in its `select`. -/
def selecting (R : Rest) (i : Nat) : Option (ConsumeRequest × Time) :=
  match R.handlers i with
  | some (.selecting req deadline) => some (req, deadline)
  | _ => none

/-- The request leaves its `select` without a message. -/
def leave (R : Rest) (i : Nat) (req : ConsumeRequest) (cancelled : Bool) : Option Rest :=
  R.go i R.sys (some (.removeWaitingConsumer req.topic i), .leaving req cancelled)

def step (R : Rest) : RestLabel → Option Rest
  | .tick d => (R.sys.step (.tick d)).map fun s => { R with sys := s }
  | .request i req => if (R.handlers i).isNone then R.go i R.sys (req.entry R.sys.now i) else none
  | .run i => (R.sys.step (.run i)).map fun s => { R with sys := s }
  | .fire k i => if (R.handlers i).isNone then (R.sys.step (.fire k i)).map fun s => { R with sys := s } else none
  | .resume i => do
    let h ← R.handlers i
    let r ← R.sys.results i
    let next ← h.resume R.sys.now r
    R.go i (R.sys.take i) next
  | .receive i => do
    let (req, _) ← R.selecting i
    let m ← (R.sys.broker.chans i).buf.head?
    let s ← R.sys.step (.recv i)
    R.go i s (req.answer [m])
  | .timeout i => do
    let (req, deadline) ← R.selecting i
    if deadline ≤ R.sys.now then R.leave i req false else none
  | .cancel i => do
    let (req, _) ← R.selecting i
    R.leave i req true
  | .check i =>
    match R.handlers i with
    | some (.checking req) =>
      R.go i R.sys (none, .done (if (R.sys.broker.topics.lookup req.topic).isSome then .noContent else .notFound))
    | _ => none

def init (now : Time) (b : Broker) : Rest := ⟨.init now b, fun _ => none⟩

/-- Every request that has come in is answered. -/
def Finished (R : Rest) : Prop := ∀ i h, R.handlers i = some h → ∃ r, h = .done r

end Rest

end TinyMQ
