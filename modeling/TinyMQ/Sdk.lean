/-
The WebSocket SDK (`client/ws.go`) and the commands of the server
(`internal/transport/ws/client.go`).

The SDK keeps a map of handlers and the server a map of spies, both by
topic; they speak in JSON texts, a frame each. `encoding/json` is a
parameter (`Json`): a result asks of it that it carries the values in
question, with their strings repaired to UTF-8 on the way.

The server has no command to give a subscription up, which `Unsubscribe`
sends all the same: `subscriptions_agree_iff` says when the two maps have
the same keys.
-/
import TinyMQ.Frames
import TinyMQ.Gateways
import TinyMQ.Lib.Utf8

namespace TinyMQ

open List Utf8 Stream

namespace Ws

variable {t : GoString}

/-! ## Texts -/

/-- `wsCommand` of the SDK. -/
structure SdkCommand where
  action : GoString
  topic : GoString
  payload : GoString
  deriving DecidableEq, Repr

/-- `WSCommand` of the server. -/
structure Command extends SdkCommand where
  filterKey : GoString
  filterVal : GoString
  deriving DecidableEq, Repr

/-- `wsResponse`. -/
structure Response where
  status : GoString
  message : GoString
  topic : GoString
  deriving DecidableEq, Repr

/-- `json.Marshal` and `json.Unmarshal` on what the two sides exchange, and
`helper.MatchJSONFilter`. An object is read into a map for its keys. -/
structure Json where
  marshalCommand : SdkCommand → GoString
  unmarshalCommand : List UInt8 → Option Command
  marshalResponse : Response → GoString
  marshalMessage : Message → Option GoString
  unmarshalKeys : List UInt8 → Option (List GoString)
  unmarshalMessage : List UInt8 → Option Message
  matchFilter : List UInt8 → GoString → GoString → Bool

/-- A string in JSON is UTF-8; a byte slice is base64 and comes back as it was. -/
def SdkCommand.sanitized (cmd : SdkCommand) : Command where
  action := sanitize cmd.action
  topic := sanitize cmd.topic
  payload := sanitize cmd.payload
  filterKey := []
  filterVal := []

def sanitizedMessage (m : Message) : Message :=
  { m with
    id := sanitize m.id
    topic := sanitize m.topic
    headers := m.headers.map fun (k, v) => (sanitize k, sanitize v) }

namespace Json

variable (j : Json)

/-- The command is read back, with its strings repaired. -/
def CarriesCommand (cmd : SdkCommand) : Prop := j.unmarshalCommand (j.marshalCommand cmd) = some cmd.sanitized

instance (cmd : SdkCommand) : Decidable (j.CarriesCommand cmd) := inferInstanceAs (Decidable (_ = _))

/-- A response is an object with a `status`. -/
def CarriesResponse (r : Response) : Prop :=
  ∃ keys, j.unmarshalKeys (j.marshalResponse r) = some keys ∧ ascii "status" ∈ keys

/-- The message is read back, with its strings repaired; it has no `status`. -/
def CarriesMessage (m : Message) (data : GoString) : Prop :=
  j.marshalMessage m = some data ∧ (∃ keys, j.unmarshalKeys data = some keys ∧ ascii "status" ∉ keys) ∧
    j.unmarshalMessage data = some (sanitizedMessage m)

end Json

theorem lt_of_isTopicByte (h : isTopicByte c = true) : c < 0x80 := by
  unfold isTopicByte at h
  grind

theorem sanitize_validTopicRegex (h : validTopicRegex t = true) : sanitize t = t :=
  sanitize_eq_self.mpr (valid_of_ascii fun c hc =>
    lt_of_isTopicByte ((validTopicRegex_iff.mp h).2 c hc))

theorem sanitize_isValidTopicName (h : isValidTopicName t = true) : sanitize t = t := by
  rcases isValidTopicName_cases h with ht | ⟨p, rfl, hp⟩
  · exact sanitize_validTopicRegex ht
  · refine sanitize_eq_self.mpr (valid_of_ascii fun c hc => ?_)
    rcases mem_append.mp hc with hc | hc
    · exact lt_of_isTopicByte (hp c hc)
    · rw [show c = 42 by simpa [ascii_star] using hc]
      decide

/-! ## The server -/

/-- A client of the server: its spies, and how often the broker was asked. -/
structure Client where
  spies : AList fun _ : GoString => Spy
  asked : Nat

def Client.new : Client := ⟨∅, 0⟩

/-- What the server does for a client. `spawn` is the goroutine that pushes
what it receives from a spy, and passes the filter, to the client. -/
inductive Event
  | respond (r : Response)
  | pong
  | publish (args : PublishArgs)
  | spawn (filterKey filterVal : GoString) (ch : Spy)
  deriving DecidableEq, Repr

def sendError (msg : GoString) : Event := .respond ⟨ascii "error", msg, []⟩

/-- The arguments of the `Publish` for a command. -/
def Command.publishArgs (cmd : Command) : PublishArgs where
  topicName := cmd.topic
  payload := cmd.payload
  headers := []
  priority := ascii "normal"
  expiresAt := none
  deliverAt := none
  isBroadcast := false
  isReplication := false

namespace Client

variable (hub : Hub) (c : Client)

def publish (cmd : Command) : List Event × Client :=
  if cmd.topic = [] then ([sendError (ascii "topic required")], c)
  else
    let answer := match hub.publish c.asked cmd.topic cmd.payload with
      | some e => sendError e
      | none => .respond ⟨ascii "published", [], cmd.topic⟩
    ([.publish cmd.publishArgs, answer], { c with asked := c.asked + 1 })

def subscribe (cmd : Command) : List Event × Client :=
  if cmd.topic = [] then ([sendError (ascii "topic required")], c)
  else if (c.spies.lookup cmd.topic).isSome then ([sendError (ascii "already subscribed to this topic")], c)
  else
    match hub.addSpy c.asked cmd.topic with
    | .error e => ([sendError e], { c with asked := c.asked + 1 })
    | .ok spyChan => ([.respond ⟨ascii "subscribed", [], cmd.topic⟩, .spawn cmd.filterKey cmd.filterVal spyChan],
        { spies := c.spies.insert cmd.topic spyChan, asked := c.asked + 1 })

end Client

def handleCommand (j : Json) (hub : Hub) (c : Client) (raw : List UInt8) : List Event × Client :=
  match j.unmarshalCommand raw with
  | none => ([sendError (ascii "invalid json format")], c)
  | some cmd =>
    if cmd.action = ascii "ping" then ([.respond ⟨ascii "pong", [], []⟩], c)
    else if cmd.action = ascii "publish" then c.publish hub cmd
    else if cmd.action = ascii "subscribe" then c.subscribe hub cmd
    else ([sendError (ascii "unknown action")], c)

section Commands

variable {j : Json} (hub : Hub) (c : Client)

theorem handleCommand_eq (h : j.CarriesCommand cmd) : handleCommand j hub c (j.marshalCommand cmd) =
    if sanitize cmd.action = ascii "ping" then ([.respond ⟨ascii "pong", [], []⟩], c)
    else if sanitize cmd.action = ascii "publish" then c.publish hub cmd.sanitized
    else if sanitize cmd.action = ascii "subscribe" then c.subscribe hub cmd.sanitized
    else ([sendError (ascii "unknown action")], c) := by
  rw [handleCommand, h]
  rfl

theorem handleCommand_publish (h : j.CarriesCommand ⟨ascii "publish", topic, payload⟩) :
    handleCommand j hub c (j.marshalCommand ⟨ascii "publish", topic, payload⟩) =
      c.publish hub (SdkCommand.sanitized ⟨ascii "publish", topic, payload⟩) := by
  rw [handleCommand_eq hub c h]
  dsimp only
  rw [if_neg (by decide), if_pos (by decide)]

theorem handleCommand_subscribe (h : j.CarriesCommand ⟨ascii "subscribe", topic, payload⟩) :
    handleCommand j hub c (j.marshalCommand ⟨ascii "subscribe", topic, payload⟩) =
      c.subscribe hub (SdkCommand.sanitized ⟨ascii "subscribe", topic, payload⟩) := by
  rw [handleCommand_eq hub c h]
  dsimp only
  rw [if_neg (by decide), if_neg (by decide), if_pos (by decide)]

theorem handleCommand_unsubscribe (h : j.CarriesCommand ⟨ascii "unsubscribe", topic, payload⟩) :
    handleCommand j hub c (j.marshalCommand ⟨ascii "unsubscribe", topic, payload⟩) =
      ([sendError (ascii "unknown action")], c) := by
  rw [handleCommand_eq hub c h]
  dsimp only
  rw [if_neg (by decide), if_neg (by decide), if_neg (by decide)]

end Commands

/-- What `readPump` does for the frames it has read, in their order. -/
def handleAll (j : Json) (hub : Hub) : Client → List PumpEvent → List Event × Client
  | c, [] => ([], c)
  | c, .pong :: rest => (.pong :: (handleAll j hub c rest).1, (handleAll j hub c rest).2)
  | c, .handleCommand raw :: rest =>
    let (events, c) := handleCommand j hub c raw
    (events ++ (handleAll j hub c rest).1, (handleAll j hub c rest).2)

/-- The server on the bytes of a connection, before the connection ends. -/
def serve (j : Json) (hub : Hub) (c : Client) (s : List UInt8) : List Event × Client := handleAll j hub c (readPump s).1

theorem serve_nil (j : Json) (hub : Hub) (c : Client) : serve j hub c [] = ([], c) := rfl

theorem serve_text (j : Json) (hub : Hub) (c : Client) (maskKey : MaskKey) (h : text.length ≤ 2 <<< 20)
    (rest : List UInt8) : serve j hub c (writeFrame text maskKey ++ rest) =
      ((handleCommand j hub c text).1 ++ (serve j hub (handleCommand j hub c text).2 rest).1,
        (serve j hub (handleCommand j hub c text).2 rest).2) := by
  have hread := readPump_of_ok (pumpFrame_text maskKey h rest)
  rw [serve, hread]
  rfl

/-! ## The SDK -/

section Sdk

variable {hub : Hub} {s rest : List UInt8} {m : Message}

variable {H : Type}

/-- `handlers` of a `WSClient`; a handler may be `nil`. -/
abbrev Handlers (H : Type) := AList fun _ : GoString => Option H

/-- A call of the SDK, with the mask key that it draws for its frame. -/
inductive SdkCall (H : Type)
  | subscribe (topic : GoString) (handler : Option H) (maskKey : MaskKey)
  | unsubscribe (topic : GoString) (maskKey : MaskKey)

namespace SdkCall

def topic : SdkCall H → GoString
  | .subscribe topic _ _ => topic
  | .unsubscribe topic _ => topic

def isSubscribe : SdkCall H → Bool
  | .subscribe _ _ _ => true
  | .unsubscribe _ _ => false

/-- The command that the call sends. -/
def command : SdkCall H → SdkCommand
  | .subscribe topic _ _ => ⟨ascii "subscribe", topic, []⟩
  | .unsubscribe topic _ => ⟨ascii "unsubscribe", topic, []⟩

end SdkCall

def writeCommand (j : Json) (cmd : SdkCommand) (maskKey : MaskKey) : List UInt8 :=
  writeFrame (j.marshalCommand cmd) maskKey

theorem serve_writeCommand (hub : Hub) (c : Client) (maskKey : MaskKey)
    (h : (j.marshalCommand cmd).length ≤ 2 <<< 20) :
    serve j hub c (writeCommand j cmd maskKey) = handleCommand j hub c (j.marshalCommand cmd) := by
  have hserve := serve_text j hub c maskKey h []
  rwa [serve_nil, append_nil, append_nil] at hserve

/-- `Subscribe` and `Unsubscribe`: what is written, and the handlers. -/
def SdkCall.run (j : Json) (handlers : Handlers H) (call : SdkCall H) : List UInt8 × Handlers H :=
  match call with
  | .subscribe topic handler maskKey => (writeCommand j call.command maskKey, handlers.insert topic handler)
  | .unsubscribe topic maskKey =>
    (if (handlers.lookup topic).isSome then writeCommand j call.command maskKey else [], handlers.erase topic)

/-- `Publish`. -/
def sdkPublish (j : Json) (topic : GoString) (payload : List UInt8) (maskKey : MaskKey) : List UInt8 :=
  writeCommand j ⟨ascii "publish", topic, payload⟩ maskKey

def runCalls (j : Json) : Handlers H → List (SdkCall H) → List UInt8 × Handlers H
  | handlers, [] => ([], handlers)
  | handlers, call :: calls =>
    let (bytes, handlers) := call.run j handlers
    (bytes ++ (runCalls j handlers calls).1, (runCalls j handlers calls).2)

/-- Why `readLoop` reconnects: `readFrame` fails, or the server closes. -/
inductive LoopEnd
  | failed (e : GoString)
  | closed
  deriving DecidableEq, Repr

instance : Inhabited LoopEnd := ⟨.closed⟩

/-- The payload is decoded once more if it can be. -/
def decodePayload (payload : List UInt8) : List UInt8 := (Codec.decodeBase64 payload).getD payload

/-- The handler that `readLoop` calls for a payload, with its message. -/
def dispatch (j : Json) (handlers : Handlers H) (payload : List UInt8) : Option (H × Message) := do
  let raw ← j.unmarshalKeys payload
  if ascii "status" ∈ raw then none
  else do
    let msg ← j.unmarshalMessage payload
    let msg := { msg with payload := decodePayload msg.payload }
    let handler ← handlers.lookup msg.topic
    handler.map fun h => (h, msg)

/-- One pass of the loop of `readLoop`. -/
def readNext (j : Json) (handlers : Handlers H) (s : List UInt8) : Except LoopEnd (Option (H × Message) × List UInt8) :=
  match readFrame s with
  | .error e => .error (.failed e)
  | .ok ((opCode, payload), s) =>
    if opCode = 0x8 then .error .closed
    else if opCode = 0xA then .ok (none, s)
    else .ok (dispatch j handlers payload, s)

/-- `readLoop` on the bytes of a connection, with handlers that stay: the
calls it makes, in their order, and how it ends. -/
def readLoop (j : Json) (handlers : Handlers H) (s : List UInt8) : List (H × Message) × LoopEnd :=
  let (calls, e) := drain (readNext j handlers) List.length s
  (calls.reduceOption, e)

/-! ## The two maps -/

/-- What the last call on a topic was. -/
def lastIsSubscribe (calls : List (SdkCall H)) (t : GoString) : Option Bool :=
  ((calls.filter fun call => call.topic = t).getLast?).map SdkCall.isSubscribe

/-- The last call on every topic that was subscribed to is a `Subscribe`. -/
def Kept (calls : List (SdkCall H)) : Prop :=
  ∀ call ∈ calls, call.isSubscribe = true → lastIsSubscribe calls call.topic = some true

instance (calls : List (SdkCall H)) : Decidable (Kept calls) := by
  unfold Kept
  infer_instance

theorem lastIsSubscribe_cons (call : SdkCall H) (calls : List (SdkCall H)) (t : GoString) :
    lastIsSubscribe (call :: calls) t =
      if call.topic = t then some ((lastIsSubscribe calls t).getD call.isSubscribe) else lastIsSubscribe calls t := by
  unfold lastIsSubscribe
  rw [filter_cons]
  by_cases ht : call.topic = t
  · simp only [ht, decide_true, if_true, getLast?_cons]
    cases (calls.filter fun call => call.topic = t).getLast? <;> rfl
  · simp only [ht, decide_false, if_false, Bool.false_eq_true]

/-- **The handlers** are those of the topics on which the last call was a
`Subscribe`. -/
theorem mem_runCalls (j : Json) (handlers : Handlers H) (calls : List (SdkCall H)) (t : GoString) :
    t ∈ (runCalls j handlers calls).2 ↔ (lastIsSubscribe calls t).getD (decide (t ∈ handlers)) = true := by
  induction calls generalizing handlers with
  | nil => simp [runCalls, lastIsSubscribe]
  | cons call calls ih =>
    rw [runCalls, ih, lastIsSubscribe_cons]
    cases call with
    | subscribe topic handler maskKey | unsubscribe topic maskKey =>
      by_cases ht : topic = t
      · subst ht
        cases hlast : lastIsSubscribe calls topic <;> simp [SdkCall.run, SdkCall.topic, SdkCall.isSubscribe]
      · have ht' : t ≠ topic := fun h => ht h.symm
        simp [SdkCall.run, SdkCall.topic, ht, ht']

/-- The topic is one that the server accepts, at any time. -/
def Accepted (hub : Hub) (t : GoString) : Prop := ∀ n, ∃ ch, hub.addSpy n t = .ok ch

/-- The command of a call gets to the server. -/
def SdkCall.Sent (j : Json) (call : SdkCall H) : Prop :=
  j.CarriesCommand call.command ∧ (j.marshalCommand call.command).length ≤ 2 <<< 20

instance (j : Json) (call : SdkCall H) : Decidable (call.Sent j) :=
  inferInstanceAs (Decidable (_ ∧ _))

theorem Accepted.valid (h : Accepted hub t) : isValidTopicName t = true := by
  obtain ⟨ch, hch⟩ := h 0
  exact hub.addSpy_valid hch

theorem mem_subscribe (h : Accepted hub cmd.topic) (c : Client) (t : GoString) :
    t ∈ (c.subscribe hub cmd).2.spies ↔ t ∈ c.spies ∨ cmd.topic = t := by
  have hne : cmd.topic ≠ [] := by
    intro hnil
    have hvalid := h.valid
    rw [hnil] at hvalid
    exact absurd hvalid (by decide)
  obtain ⟨ch, hch⟩ := h c.asked
  unfold Client.subscribe
  rw [if_neg hne]
  split
  next hexists =>
    have hmem : cmd.topic ∈ c.spies := AList.lookup_isSome.mp hexists
    exact ⟨.inl, fun ht => ht.elim id fun heq => heq ▸ hmem⟩
  next =>
    rw [hch]
    simp only [AList.mem_insert]
    tauto

theorem mem_handleCommand {j : Json} {call : SdkCall H} (hcarried : j.CarriesCommand call.command)
    (haccepted : Accepted hub call.topic) (c : Client) (t : GoString) :
    t ∈ (handleCommand j hub c (j.marshalCommand call.command)).2.spies ↔
      t ∈ c.spies ∨ call.isSubscribe = true ∧ call.topic = t := by
  cases call with
  | subscribe topic handler maskKey =>
    have htopic : (SdkCommand.sanitized ⟨ascii "subscribe", topic, []⟩).topic = topic :=
      sanitize_isValidTopicName haccepted.valid
    rw [SdkCall.command, handleCommand_subscribe hub c hcarried, mem_subscribe (by rwa [htopic]), htopic]
    simp [SdkCall.isSubscribe, SdkCall.topic]
  | unsubscribe topic maskKey =>
    rw [SdkCall.command, handleCommand_unsubscribe hub c hcarried]
    simp [SdkCall.isSubscribe]

/-- **The spies** are those of the topics that were subscribed to. -/
theorem mem_serve_runCalls (hsent : ∀ call ∈ calls, call.Sent j)
    (haccepted : ∀ call ∈ calls, Accepted hub call.topic) (c : Client) (handlers : Handlers H) (t : GoString) :
    t ∈ (serve j hub c (runCalls j handlers calls).1).2.spies ↔
      t ∈ c.spies ∨ ∃ call ∈ calls, call.isSubscribe = true ∧ call.topic = t := by
  induction calls generalizing c handlers with
  | nil => simp [runCalls, serve_nil]
  | cons call calls ih =>
    obtain ⟨⟨hcarried, hfits⟩, hsent'⟩ := forall_mem_cons.mp hsent
    obtain ⟨haccepted₁, haccepted'⟩ := forall_mem_cons.mp haccepted
    have ih := ih hsent' haccepted'
    have hstep : ∀ maskKey, t ∈ (serve j hub c (writeCommand j call.command maskKey ++
        (runCalls j (call.run j handlers).2 calls).1)).2.spies ↔
        (t ∈ c.spies ∨ call.isSubscribe = true ∧ call.topic = t) ∨
          ∃ call ∈ calls, call.isSubscribe = true ∧ call.topic = t := by
      intro maskKey
      rw [writeCommand, serve_text j hub c maskKey hfits, ih, mem_handleCommand hcarried haccepted₁]
    rw [exists_mem_cons_iff, ← or_assoc, runCalls]
    cases call with
    | subscribe topic handler maskKey => exact hstep maskKey
    | unsubscribe topic maskKey =>
      cases hexists : (handlers.lookup topic).isSome with
      | true => simpa [SdkCall.run, hexists] using hstep maskKey
      | false =>
        -- Nothing is sent.
        simp [SdkCall.run, hexists, ih, SdkCall.isSubscribe]

/-- **When the two maps have the same keys**: after any sequence of calls on
topics that the server accepts, they do if and only if the last call on
every topic that was subscribed to is a `Subscribe`. -/
theorem subscriptions_agree_iff {j : Json} {hub : Hub} {calls : List (SdkCall H)} (hsent : ∀ call ∈ calls, call.Sent j)
    (haccepted : ∀ call ∈ calls, Accepted hub call.topic) :
    (∀ t, t ∈ (serve j hub .new (runCalls j ∅ calls).1).2.spies ↔ t ∈ (runCalls j ∅ calls).2) ↔ Kept calls := by
  have hspies := fun t => mem_serve_runCalls hsent haccepted .new ∅ t
  have hlast : ∀ t, t ∈ (runCalls j ∅ calls).2 ↔ lastIsSubscribe calls t = some true := by
    intro t
    rw [mem_runCalls]
    cases lastIsSubscribe calls t <;> simp
  have hnew : ∀ t, t ∉ Client.new.spies := fun t h => by cases h
  simp only [hspies, hlast, hnew, false_or]
  constructor
  · intro h call hcall hsub
    exact (h call.topic).mp ⟨call, hcall, hsub, rfl⟩
  · intro h t
    constructor
    · rintro ⟨call, hcall, hsub, rfl⟩
      exact h call hcall hsub
    · intro ht
      obtain ⟨call, hcall, hsub⟩ := Option.map_eq_some_iff.mp ht
      obtain ⟨hcall, htopic⟩ := mem_filter.mp (mem_of_getLast? hcall)
      exact ⟨call, hcall, hsub, by simpa using htopic⟩

/-- `resubscribeAll` on a new connection, for the topics in the order in
which the map is ranged over. -/
def resubscribeAll (j : Json) (topics : List (GoString × MaskKey)) : List UInt8 :=
  topics.flatMap fun (topic, maskKey) => writeCommand j ⟨ascii "subscribe", topic, []⟩ maskKey

theorem resubscribeAll_eq (j : Json) (handlers : Handlers H) (topics : List (GoString × MaskKey)) :
    resubscribeAll j topics =
      (runCalls j handlers (topics.map fun (topic, maskKey) => .subscribe topic none maskKey)).1 := by
  induction topics generalizing handlers with
  | nil => rfl
  | cons p topics ih =>
    rw [resubscribeAll, flatMap_cons, map_cons, runCalls]
    exact congrArg _ (ih _)

/-- **A reconnection brings the two maps together again.** -/
theorem resubscribed_agree {j : Json} {handlers : Handlers H} {topics : List (GoString × MaskKey)}
    (hrange : (topics.map Prod.fst).Perm handlers.keys) (haccepted : ∀ t ∈ handlers, Accepted hub t)
    (hsent : ∀ t ∈ handlers, j.CarriesCommand ⟨ascii "subscribe", t, []⟩ ∧
      (j.marshalCommand ⟨ascii "subscribe", t, []⟩).length ≤ 2 <<< 20) (t : GoString) :
    t ∈ (serve j hub .new (resubscribeAll j topics)).2.spies ↔ t ∈ handlers := by
  have hkeys : ∀ t, t ∈ handlers ↔ t ∈ topics.map Prod.fst := fun t => by rw [AList.mem_keys, hrange.mem_iff]
  have hmem : ∀ {p}, p ∈ topics → p.1 ∈ handlers := fun hp => (hkeys _).mpr (List.mem_map_of_mem hp)
  rw [resubscribeAll_eq j handlers, mem_serve_runCalls, hkeys]
  · have hnew : t ∉ Client.new.spies := fun h => by cases h
    simp [hnew, SdkCall.isSubscribe, SdkCall.topic]
  · intro call hcall
    obtain ⟨p, hp, rfl⟩ := List.mem_map.mp hcall
    exact hsent p.1 (hmem hp)
  · intro call hcall
    obtain ⟨p, hp, rfl⟩ := List.mem_map.mp hcall
    exact haccepted p.1 (hmem hp)

/-! ## What the SDK reads -/

theorem readFullE_length (h : readFullE n s = .ok (l, rest)) : rest.length + n = s.length := by
  unfold readFullE at h
  split at h
  next r hr =>
    cases h
    exact readFull_length hr
  next => cases h

theorem frameLength_length {n m} (h : frameLength n s = .ok (m, rest)) : rest.length ≤ s.length := by
  have hmap : ∀ {k : Nat} {f : List UInt8 × List UInt8 → UInt64}, (readFullE k s).map
    (fun x => (f x, x.2)) = .ok (m, rest) →
      rest.length ≤ s.length := by
    intro k f h
    cases hr : readFullE k s with
    | error e => rw [hr] at h; cases h
    | ok x =>
      rw [hr] at h
      cases h
      have := readFullE_length hr
      omega
  unfold frameLength at h
  split_ifs at h
  · exact hmap (f := fun x => (x.1.getD 0 0).toUInt64 <<< 8 ||| (x.1.getD 1 0).toUInt64) h
  · exact hmap (f := fun x => x.1.foldl (fun length b => length <<< 8 ||| b.toUInt64) 0) h
  · cases h
    exact Nat.le_refl _

theorem readFrame_length (h : readFrame s = .ok (x, rest)) : rest.length < s.length := by
  obtain ⟨⟨header, s₁⟩, hheader, h⟩ := bind_eq_ok h
  obtain ⟨⟨length, s₂⟩, hlength, h⟩ := bind_eq_ok h
  have h₁ := readFullE_length hheader
  have h₂ := frameLength_length hlength
  -- The payload is read after a mask key, or without one.
  have hpayload : ∀ {s₃ : List UInt8} {g : List UInt8 × List UInt8 →
    Except GoString ((UInt8 × List UInt8) × List UInt8)},
      s₃.length ≤ s₂.length → (∀ y z, g y = .ok z → z.2 = y.2) → (readFullE length.toNat s₃ >>= g) =
        .ok (x, rest) →
      rest.length < s.length := by
    intro s₃ g hle hg h
    obtain ⟨⟨payload, s₄⟩, hread, h⟩ := bind_eq_ok h
    have h₄ := readFullE_length hread
    have hrest : rest = s₄ := hg _ _ h
    rw [hrest]
    omega
  dsimp only at h
  split at h
  next => cases h
  split at h
  next =>
    obtain ⟨⟨maskKey, s₃⟩, hkey, h⟩ := bind_eq_ok h
    have h₃ := readFullE_length hkey
    exact hpayload (show s₃.length ≤ s₂.length by omega) (fun y z hz => by cases hz; rfl) h
  next => exact hpayload (Nat.le_refl s₂.length) (fun y z hz => by cases hz; rfl) h

theorem readNext_shrinks (j : Json) (handlers : Handlers H) : Stream.Shrinks (readNext j handlers) List.length := by
  intro s e s' h
  unfold readNext at h
  split at h
  next => cases h
  next hread =>
    have hlt := readFrame_length hread
    split_ifs at h <;> cases h <;> exact hlt

/-- The calls that `readLoop` makes for a frame. -/
def ServerFrame.calls (j : Json) (handlers : Handlers H) : ServerFrame → List (H × Message)
  | .message data => (dispatch j handlers data).toList
  | .pong => []

theorem readLoop_of_ok (h : readNext j handlers s = .ok (call, rest)) :
    readLoop j handlers s = (call.toList ++ (readLoop j handlers rest).1, (readLoop j handlers rest).2) := by
  rw [readLoop, drain_ok (readNext_shrinks j handlers) h]
  cases call <;> rfl

theorem readLoop_frame (j : Json) (handlers : Handlers H) {f : ServerFrame} (h : f.Fits) (rest : List UInt8) :
    readLoop j handlers (f.bytes ++ rest) =
    (f.calls j handlers ++ (readLoop j handlers rest).1, (readLoop j handlers rest).2) := by
  have hread := readFrame_written h rest
  have hnext : ∃ call, readNext j handlers (f.bytes ++ rest) = .ok (call, rest) ∧
    call.toList = f.calls j handlers := by
    rw [readNext, hread]
    cases f with
    | message data => exact ⟨dispatch j handlers data, rfl, rfl⟩
    | pong => exact ⟨none, rfl, rfl⟩
  obtain ⟨call, hnext, hcall⟩ := hnext
  rw [readLoop_of_ok hnext, hcall]

/-- What the handler of a message is given. -/
def received (m : Message) : Message := { sanitizedMessage m with payload := decodePayload m.payload }

/-- The call of a handler for a message that is pushed. -/
def deliver (handlers : Handlers H) (m : Message) : Option (H × Message) :=
  (handlers.lookup (received m).topic).bind fun handler => handler.map fun h => (h, received m)

theorem deliver_of_lookup (hlookup : handlers.lookup (received m).topic = some (some h)) :
    deliver handlers m = some (h, received m) := by
  rw [deliver, hlookup]
  rfl

theorem dispatch_message (handlers : Handlers H) (h : j.CarriesMessage m data) :
    dispatch j handlers data = deliver handlers m := by
  obtain ⟨-, ⟨keys, hkeys, hstatus⟩, hmsg⟩ := h
  simp only [dispatch, hkeys, hmsg, Option.bind_eq_bind, Option.bind_some, if_neg hstatus]
  rfl

theorem dispatch_response (handlers : Handlers H) (h : j.CarriesResponse r) :
    dispatch j handlers (j.marshalResponse r) = none := by
  obtain ⟨keys, hkeys, hstatus⟩ := h
  simp only [dispatch, hkeys, Option.bind_eq_bind, Option.bind_some, if_pos hstatus]

end Sdk

/-! ## Samples -/

/-- The JSON of the commands and the messages of two tables. -/
def Json.table (commands : List (GoString × SdkCommand)) (messages : List (GoString × Message)) : Json where
  marshalCommand cmd := ((commands.find? fun p => p.2 = cmd).map Prod.fst).getD []
  unmarshalCommand s := (commands.find? fun p => p.1 = s).map fun p => p.2.sanitized
  marshalResponse r := ascii "\x7b\"status\":\"" ++ r.status ++ ascii "\"\x7d"
  marshalMessage m := (messages.find? fun p => p.2 = m).map Prod.fst
  unmarshalKeys s :=
    if ascii "\x7b\"status\"" <+: s then some [ascii "status"]
    else (messages.find? fun p => p.1 = s).map fun _ =>
      ["id", "topic", "payload", "timestamp", "retry_count"].map ascii
  unmarshalMessage s := (messages.find? fun p => p.1 = s).map fun p => sanitizedMessage p.2
  matchFilter _ _ _ := true

def sampleJson : Json := .table
  [(ascii "\x7b\"action\":\"subscribe\",\"topic\":\"a\"\x7d", ⟨ascii "subscribe", ascii "a", []⟩),
    (ascii "\x7b\"action\":\"unsubscribe\",\"topic\":\"a\"\x7d", ⟨ascii "unsubscribe", ascii "a", []⟩),
    (ascii "\x7b\"action\":\"subscribe\",\"topic\":\"b.*\"\x7d", ⟨ascii "subscribe", ascii "b.*", []⟩)] []

def sampleKey : MaskKey := ⟨[5, 6, 7, 8], rfl⟩

/-- A topic is given up and subscribed to again, and a wildcard is. -/
def sampleCalls : List (SdkCall Unit) :=
  [.subscribe (ascii "a") (some ()) sampleKey, .unsubscribe (ascii "a") sampleKey,
    .subscribe (ascii "b.*") (some ()) sampleKey, .subscribe (ascii "a") none sampleKey]

theorem accepted_sample (h : isValidTopicName t = true) : Accepted .sample t := fun n => ⟨n, if_pos h⟩

theorem resubscribed_agree_sample : ∃ handlers : Handlers Unit, handlers.keys = [ascii "b.*", ascii "a"] ∧
    ∀ t, t ∈ (serve sampleJson .sample .new
      (resubscribeAll sampleJson [(ascii "a", sampleKey), (ascii "b.*", sampleKey)])).2.spies ↔ t ∈ handlers := by
  refine ⟨(AList.singleton (ascii "a") ()).insert (ascii "b.*") (), rfl, fun t =>
    resubscribed_agree (by decide) (fun t ht => accepted_sample ?_) (fun t ht => ?_) t⟩ <;>
    rcases (AList.mem_insert _).mp ht with rfl | ht
  · decide +kernel
  · rw [mem_singleton.mp ht]
    decide +kernel
  · decide +kernel
  · rw [mem_singleton.mp ht]
    decide +kernel

theorem subscriptions_agree_sample : (∀ call ∈ sampleCalls, call.Sent sampleJson) ∧
    (∀ call ∈ sampleCalls, Accepted .sample call.topic) ∧ Kept sampleCalls ∧
    ∀ t, t ∈ (serve sampleJson .sample .new (runCalls sampleJson ∅ sampleCalls).1).2.spies ↔
      t ∈ (runCalls sampleJson ∅ sampleCalls).2 := by
  have hsent : ∀ call ∈ sampleCalls, call.Sent sampleJson := by decide +kernel
  have hvalid : ∀ call ∈ sampleCalls, isValidTopicName call.topic = true := by decide
  have haccepted : ∀ call ∈ sampleCalls, Accepted .sample call.topic := fun call hcall =>
    accepted_sample (hvalid call hcall)
  have hkept : Kept sampleCalls := by decide
  exact ⟨hsent, haccepted, hkept, (subscriptions_agree_iff hsent haccepted).mpr hkept⟩

/-- A topic that is given up stays subscribed to. -/
theorem unsubscribe_ignored : (serve sampleJson .sample .new
      (runCalls sampleJson ∅ [SdkCall.subscribe (ascii "a") (some ()) sampleKey,
        .unsubscribe (ascii "a") sampleKey]).1).2.spies.keys = [ascii "a"] ∧
    (runCalls sampleJson ∅ [SdkCall.subscribe (ascii "a") (some ()) sampleKey,
      .unsubscribe (ascii "a") sampleKey]).2.keys = [] := by
  decide +kernel

end Ws

end TinyMQ
