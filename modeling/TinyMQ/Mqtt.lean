/-
The MQTT gateway (`internal/transport/mqtt`): the framing of packets, the
handlers and the loop of a connection.

The handlers go through a packet with an offset. An access outside of the
packet is a panic of the runtime, and so is here a loop over the filters
that does not end: `Proc` crashes on both, and `handlers_safe` says that
no packet makes a handler do so.
-/
import TinyMQ.Gateways
import TinyMQ.Lib.Proc
import TinyMQ.Lib.Varint

namespace TinyMQ

open List

namespace Mqtt

namespace Session

open Stream (readFull)

/-! ## Packets -/

def packetConnect : UInt8 := 1
def packetConnAck : UInt8 := 2
def packetPublish : UInt8 := 3
def packetPubAck : UInt8 := 4
def packetSubscribe : UInt8 := 8
def packetSubAck : UInt8 := 9
def packetUnsubscribe : UInt8 := 10
def packetUnsubAck : UInt8 := 11
def packetPingReq : UInt8 := 12
def packetPingResp : UInt8 := 13
def packetDisconnect : UInt8 := 14

def eof : GoString := ascii "EOF"

def unexpectedEOF : GoString := ascii "unexpected EOF"

def readRemainingLength (s : List UInt8) : Except GoString (Nat × List UInt8) :=
  match Varint.read 4 s with
  | .ok r => .ok r
  | .error .eof => .error eof
  | .error .tooLong => .error (ascii "malformed remaining length: exceeded 4 bytes")

def writeRemainingLength (value : Nat) : List UInt8 := Varint.write value

structure Packet where
  pType : UInt8
  flags : UInt8
  payload : List UInt8
  deriving DecidableEq, Repr

def maxPacketSize : Nat := 2 <<< 20

/-- The reads of `handleClient` for one packet, with a limit on its size or
without. -/
def readPacket (limit : Option Nat) (s : List UInt8) : Except GoString (Packet × List UInt8) :=
  match s with
  | [] => .error eof
  | header :: s =>
    match readRemainingLength s with
    | .error e => .error e
    | .ok (remLength, s) =>
      if limit.any (· < remLength) then .error (ascii "Oversized packet")
      else
        match readFull remLength s with
        | none => .error (if s = [] then eof else unexpectedEOF)
        | some (payload, s) => .ok (⟨header >>> 4, header &&& 0x0F, payload⟩, s)

/-! ## Connections -/

/-- The environment: the broker, the value of `TINYMQ_API_KEY`, and the error
of a write to the connection, if any. -/
structure Server where
  hub : Hub
  apiKey : GoString
  write : Nat → Option GoString

/-- A connection: `mqttConn`, its spies, what it has handed to
`broker.Publish` and the packets it has written. -/
structure Conn where
  connected : Bool
  subs : Subscriptions
  published : List (GoString × List UInt8)
  written : List (List UInt8)

def Conn.new : Conn := ⟨false, ⟨∅, [], 0⟩, [], []⟩

/-- `mc.write`. -/
def write (srv : Server) (data : List UInt8) : Proc Conn (Option GoString) := fun c =>
  (some (srv.write c.written.length), { c with written := c.written ++ [data] })

/-- `broker.Publish`, as the gateway calls it. -/
def publish (srv : Server) (topic : GoString) (payload : List UInt8) : Proc Conn (Option GoString) := fun c =>
  (some (srv.hub.publish c.subs.asked topic payload),
    { c with subs := { c.subs with asked := c.subs.asked + 1 }, published := c.published ++ [(topic, payload)] })

/-! ## Accesses to a packet -/

/-- `buf[i]`. -/
def index (buf : List UInt8) (i : Nat) : Proc Conn UInt8 :=
  match buf[i]? with
  | some b => pure b
  | none => .crash

/-- `buf[lo:hi]`. -/
def slice (buf : List UInt8) (lo hi : Nat) : Proc Conn (List UInt8) :=
  if lo ≤ hi ∧ hi ≤ buf.length then pure ((buf.drop lo).take (hi - lo)) else .crash

/-- `binary.BigEndian.Uint16`. -/
def uint16 (b : List UInt8) : Proc Conn Nat := do
  let low ← index b 1
  let high ← index b 0
  return high.toNat * 256 + low.toNat

/-- `readString`: its results and the offset after it. -/
def readString (buf : List UInt8) (offset : Nat) : Proc Conn (Except GoString GoString × Nat) :=
  if buf.length < offset + 2 then return (.error unexpectedEOF, offset)
  else do
    let length ← uint16 (← slice buf offset (offset + 2))
    let offset := offset + 2
    if buf.length < offset + length then return (.error unexpectedEOF, offset)
    else
      let str ← slice buf offset (offset + length)
      return (.ok str, offset + length)

/-! ## Handlers -/

/-- A string that is there only with its flag. -/
def readOptional (present : Bool) (buf : List UInt8) (offset : Nat) : Proc Conn (Except GoString GoString × Nat) :=
  if present then readString buf offset else return (.ok [], offset)

/-- The end of `handleConnect`: the credentials against the key. -/
def authenticate (srv : Server) (hasUsername hasPassword : Bool) (username password : GoString) :
    Proc Conn (Option GoString) :=
  if srv.apiKey ≠ [] && !((hasPassword && password = srv.apiKey) || (hasUsername && username = srv.apiKey)) then do
    let _ ← write srv [packetConnAck <<< 4, 2, 0x00, 0x05]
    return some (ascii "authentication failed")
  else do
    let () ← fun c => (some (), { c with connected := true })
    write srv [packetConnAck <<< 4, 2, 0x00, 0x00]

/-- `handleConnect` behind the flags: the client's name and its credentials. -/
def readCredentials (srv : Server) (connFlags : UInt8) (payload : List UInt8) (offset : Nat) :
    Proc Conn (Option GoString) := do
  match ← readString payload offset with
  | (.error e, _) => return some e
  | (.ok _, offset) =>
    let hasUsername := connFlags &&& 0x80 != 0
    let hasPassword := connFlags &&& 0x40 != 0
    if hasPassword && !hasUsername then do
      let _ ← write srv [packetConnAck <<< 4, 2, 0x00, 0x04]
      return some (ascii "password flag set without username flag (MQTT 3.1.1 " ++ [0xC2, 0xA7] ++ ascii "3.1.2.9)")
    else
      match ← readOptional hasUsername payload offset with
      | (.error e, _) => return some e
      | (.ok username, offset) =>
        match ← readOptional hasPassword payload offset with
        | (.error e, _) => return some e
        | (.ok password, _) => authenticate srv hasUsername hasPassword username password

def handleConnect (srv : Server) (payload : List UInt8) : Proc Conn (Option GoString) :=
  if payload.length < 10 then return some (ascii "malformed CONNECT packet")
  else do
    match ← readString payload 0 with
    | (.error e, _) => return some (ascii "failed to read protocol name: " ++ e)
    | (.ok protoName, offset) =>
      if protoName ≠ ascii "MQTT" && protoName ≠ ascii "MQIsdp" then
        return some (ascii "invalid protocol name: " ++ protoName)
      else if payload.length < offset + 4 then return some unexpectedEOF
      else
        let protoLevel ← index payload offset
        if protoLevel ≠ 4 then do
          let _ ← write srv [packetConnAck <<< 4, 2, 0x00, 0x01]
          return some (ascii "unsupported MQTT version: " ++ Codec.decimal protoLevel.toNat)
        else
          let connFlags ← index payload (offset + 1)
          readCredentials srv connFlags payload (offset + 4)

/-- What `handlePublish` reads from a packet. -/
structure Publication where
  qos : UInt8
  packetID : Nat
  topic : GoString
  payload : List UInt8
  deriving DecidableEq, Repr

/-- The packet identifier of a publication, which is there above QoS 0. -/
def readPacketID (qos : UInt8) (payload : List UInt8) (offset : Nat) : Proc Conn (Nat × Nat) :=
  if 0 < qos then do
    let packetID ← uint16 (← slice payload offset (offset + 2))
    return (packetID, offset + 2)
  else return (0, offset)

/-- `handlePublish` up to the call of `Publish`. -/
def readPublish (flags : UInt8) (payload : List UInt8) : Proc Conn (Except GoString Publication) := do
  match ← readString payload 0 with
  | (.error e, _) => return .error e
  | (.ok topic, offset) =>
    let qos := (flags >>> 1) &&& 0x03
    if 0 < qos && payload.length < offset + 2 then return .error unexpectedEOF
    else
      let (packetID, offset) ← readPacketID qos payload offset
      if qos = 2 then return .error (ascii "QoS 2 not supported")
      else
        let msgPayload ← slice payload offset payload.length
        return .ok ⟨qos, packetID, topic, msgPayload⟩

def handlePublish (srv : Server) (flags : UInt8) (payload : List UInt8) : Proc Conn (Option GoString) := do
  match ← readPublish flags payload with
  | .error e => return some e
  | .ok p =>
    match ← publish srv p.topic p.payload with
    | some e => return some e
    | none =>
      if p.qos = 1 then write srv (packetPubAck <<< 4 :: 2 :: Stream.bigEndian 2 p.packetID) else return none

/-- How a pass of a loop over the filters ends: the loop is left with an
error, or goes on from an offset. -/
inductive Pass
  | leave (err : GoString)
  | go (offset : Nat) (code : UInt8)

/-- One pass of the loop of `handleSubscribe`: the filter at the offset and
its return code. -/
def subscribePass (srv : Server) (payload : List UInt8) (offset : Nat) : Proc Conn Pass := do
  match ← readString payload offset with
  | (.error e, _) => return .leave e
  | (.ok topic, offset) =>
    if payload.length ≤ offset then return .leave unexpectedEOF
    else
      let _requestedQoS ← index payload offset
      let code ← fun c =>
        (some (c.subs.subscribe srv.hub topic).1, { c with subs := (c.subs.subscribe srv.hub topic).2 })
      return .go (offset + 1) code

/-- The loop of `handleSubscribe`, for at most `fuel` passes: the return
codes, or the error it is left with. -/
def subscribeLoop (srv : Server) (payload : List UInt8) :
    Nat → Nat → List UInt8 → Proc Conn (Except GoString (List UInt8))
  | fuel, offset, grantedQoS =>
    if payload.length ≤ offset then return .ok grantedQoS
    else
      match fuel with
      | 0 => .crash
      | fuel + 1 => do
        match ← subscribePass srv payload offset with
        | .leave e => return .error e
        | .go offset code => subscribeLoop srv payload fuel offset (grantedQoS ++ [code])

def handleSubscribe (srv : Server) (payload : List UInt8) : Proc Conn (Option GoString) :=
  if payload.length < 2 then return some unexpectedEOF
  else do
    let packetID ← uint16 (← slice payload 0 2)
    match ← subscribeLoop srv payload payload.length 2 [] with
    | .error e => return some e
    | .ok grantedQoS =>
      write srv (packetSubAck <<< 4 :: writeRemainingLength (2 + grantedQoS.length) ++
        Stream.bigEndian 2 packetID ++ grantedQoS)

/-- `handleUnsubscribe` for one filter. -/
def unsubscribe (subs : Subscriptions) (topic : GoString) : Subscriptions :=
  let cleanTopic := translateMQTTWildcard topic
  match subs.spies.lookup cleanTopic with
  | none => subs
  | some ch => { subs with spies := subs.spies.erase cleanTopic, removed := subs.removed ++ [(cleanTopic, ch)] }

/-- One pass of the loop of `handleUnsubscribe`. -/
def unsubscribePass (payload : List UInt8) (offset : Nat) : Proc Conn Pass := do
  match ← readString payload offset with
  | (.error e, _) => return .leave e
  | (.ok topic, offset) =>
    let () ← fun c => (some (), { c with subs := unsubscribe c.subs topic })
    return .go offset 0

/-- The loop of `handleUnsubscribe`, for at most `fuel` passes; an error only
ends it. -/
def unsubscribeLoop (payload : List UInt8) : Nat → Nat → Proc Conn Unit
  | fuel, offset =>
    if payload.length ≤ offset then return ()
    else
      match fuel with
      | 0 => .crash
      | fuel + 1 => do
        match ← unsubscribePass payload offset with
        | .leave _ => return ()
        | .go offset _ => unsubscribeLoop payload fuel offset

def handleUnsubscribe (srv : Server) (payload : List UInt8) : Proc Conn (Option GoString) :=
  if payload.length < 2 then return some unexpectedEOF
  else do
    let packetID ← slice payload 0 2
    unsubscribeLoop payload payload.length 2
    let high ← index packetID 0
    let low ← index packetID 1
    write srv [packetUnsubAck <<< 4, 2, high, low]

def processPacket (srv : Server) (p : Packet) : Proc Conn (Option GoString) := do
  let connected ← fun c => (some c.connected, c)
  if p.pType ≠ packetConnect && !connected then return some (ascii "protocol violation: packet sent before CONNECT")
  else if p.pType = packetConnect then handleConnect srv p.payload
  else if p.pType = packetPublish then handlePublish srv p.flags p.payload
  else if p.pType = packetSubscribe then handleSubscribe srv p.payload
  else if p.pType = packetPingReq then write srv [packetPingResp <<< 4, 0x00]
  else if p.pType = packetDisconnect then return some (ascii "client disconnected gracefully")
  else if p.pType = packetUnsubscribe then handleUnsubscribe srv p.payload
  else return some (ascii "unsupported packet type: " ++ Codec.decimal p.pType.toNat)

/-! ## Reading strings -/

theorem index_of_lt {buf : List UInt8} {i} (h : i < buf.length) : index buf i = pure buf[i] := by
  simp [index, h]

theorem slice_of_le {buf : List UInt8} {lo hi} (h : lo ≤ hi) (hhi : hi ≤ buf.length) :
    slice buf lo hi = pure ((buf.drop lo).take (hi - lo)) := if_pos ⟨h, hhi⟩

theorem uint16_pair (high low : UInt8) : uint16 [high, low] = pure (high.toNat * 256 + low.toNat) := rfl

def field (s : GoString) : List UInt8 := Stream.bigEndian 2 s.length ++ s

theorem field_eq {high low : UInt8} {s : GoString} (h : s.length = high.toNat * 256 + low.toNat) :
    field s = high :: low :: s := by
  have hhigh := high.toNat_lt
  have hlow := low.toNat_lt
  have h1 : (s.length >>> (8 * 1)).toUInt8 = high := by
    rw [← UInt8.toNat_inj]
    simp only [Nat.toUInt8_eq, UInt8.toNat_ofNat', Nat.shiftRight_eq_div_pow]
    omega
  have h0 : (s.length >>> (8 * 0)).toUInt8 = low := by
    rw [← UInt8.toNat_inj]
    simp only [Nat.toUInt8_eq, UInt8.toNat_ofNat', Nat.shiftRight_eq_div_pow]
    omega
  simp only [field, Stream.bigEndian, h1, h0, cons_append, nil_append]

/-- What `readString` returns: it moves its offset forward, but not beyond
the end, and returns the string that stands there, as the readers of the
rest of a packet have it. -/
structure Reads (buf : List UInt8) (offset : Nat) (r : Except GoString GoString) (next : Nat) : Prop where
  le : offset ≤ next
  inside : offset ≤ buf.length → next ≤ buf.length
  ok : ∀ {s}, r = .ok s → buf.drop offset = field s ++ buf.drop next ∧ offset + 2 ≤ next ∧ next ≤ buf.length ∧
    Mqtt.readString (buf.drop offset) = some (s, buf.drop next)
  error : ∀ {e}, r = .error e → e = unexpectedEOF ∧ Mqtt.readString (buf.drop offset) = none

theorem readString_pair (high low : UInt8) (rest : List UInt8) :
    Mqtt.readString (high :: low :: rest) = readFull (high.toNat * 256 + low.toNat) rest := by
  simp [Mqtt.readString, readFull, Stream.ofBigEndian]

/-- **`readString` makes no access outside of its buffer.** -/
theorem readString_reads (buf : List UInt8) (offset : Nat) :
    ∃ r next, readString buf offset = pure (r, next) ∧ Reads buf offset r next := by
  unfold readString
  split
  next h =>
    have hshort : Mqtt.readString (buf.drop offset) = none := by
      rw [Mqtt.readString, readFull, if_neg (by rw [length_drop]; omega)]
      rfl
    refine ⟨_, _, rfl, le_rfl, fun h => h, by simp, fun h => ?_⟩
    cases h
    exact ⟨rfl, hshort⟩
  next h =>
    obtain ⟨high, low, rest, hrest⟩ : ∃ high low rest, buf.drop offset = high :: low :: rest := by
      have hlong : 2 ≤ (buf.drop offset).length := by simp; omega
      rcases hd : buf.drop offset with - | ⟨high, - | ⟨low, rest⟩⟩
      · simp [hd] at hlong
      · simp [hd] at hlong
      · exact ⟨high, low, rest, rfl⟩
    have hlen := congrArg List.length hrest
    simp only [length_drop, length_cons] at hlen
    have hdrop : buf.drop (offset + 2) = rest := by
      rw [← drop_drop, hrest]
      rfl
    rw [slice_of_le (by omega) (by omega), hrest, Nat.add_sub_cancel_left]
    simp only [take_succ_cons, take_zero, Proc.pure_bind, uint16_pair]
    split
    next hshort =>
      have hnone : Mqtt.readString (buf.drop offset) = none := by
        rw [hrest, readString_pair, readFull, if_neg (by omega)]
      refine ⟨_, _, rfl, by omega, fun _ => by omega, by simp, fun h => ?_⟩
      cases h
      exact ⟨rfl, hnone⟩
    next hfits =>
      rw [slice_of_le (by omega) (by omega), hdrop, Nat.add_sub_cancel_left, Proc.pure_bind]
      refine ⟨_, _, rfl, by omega, fun _ => by omega, fun hs => ?_, by simp⟩
      cases hs
      refine ⟨?_, by omega, by omega, ?_⟩
      · rw [@field_eq high low _ (by rw [length_take]; omega), hrest, ← drop_drop, hdrop]
        simp
      · rw [hrest, readString_pair, readFull, if_pos (by omega), ← hdrop, drop_drop]

theorem readString_field {s : GoString} (hs : s.length < 256 ^ 2) (rest : List UInt8) :
    readString (field s ++ rest) 0 = pure (.ok s, 2 + s.length) := by
  obtain ⟨r, next, hr, hreads⟩ := readString_reads (field s ++ rest) 0
  have hread : Mqtt.readString (field s ++ rest) = some (s, rest) := by
    rw [Mqtt.readString, field, append_assoc, Stream.readFull_append (Stream.length_bigEndian 2 _),
      Option.bind_some]
    simp only [Stream.ofBigEndian_bigEndian hs, Stream.readFull_append]
  rw [hr]
  cases r with
  | error e =>
    have hnone := (hreads.error rfl).2
    rw [drop_zero, hread] at hnone
    cases hnone
  | ok s' =>
    obtain ⟨-, -, hle, hsome⟩ := hreads.ok rfl
    rw [drop_zero, hread, Option.some.injEq, Prod.mk.injEq] at hsome
    obtain ⟨rfl, hrest⟩ := hsome
    have hlen := congrArg List.length hrest
    simp only [length_drop, length_append, field, Stream.length_bigEndian] at hlen hle
    rw [show next = 2 + s.length by omega]

/-! ## Packets that are pushed -/

/-- The packet the goroutine of a subscription writes for a message. -/
def pushPacket (msg : Message) : List UInt8 :=
  let varHeader := (msg.topic.length >>> 8).toUInt8 :: msg.topic.length.toUInt8 :: msg.topic
  let totalPayload := varHeader ++ msg.payload
  packetPublish <<< 4 :: (writeRemainingLength totalPayload.length ++ totalPayload)

theorem readRemainingLength_write {n} (h : n < 2 ^ 28) (rest : List UInt8) :
    readRemainingLength (writeRemainingLength n ++ rest) = .ok (n, rest) := by
  rw [readRemainingLength, writeRemainingLength, Varint.read_write (by decide) (by simpa using h)]

theorem readRemainingLength_ok {n s rest} (h : readRemainingLength s = .ok (n, rest)) :
    (∃ digits, s = digits ++ rest ∧ 0 < digits.length ∧ digits.length ≤ 4) ∧ n < 2 ^ 28 := by
  unfold readRemainingLength at h
  split at h
  next r hr =>
    cases h
    exact Varint.read_ok hr
  next => cases h
  next => cases h

theorem pushPacket_eq (msg : Message) : pushPacket msg = packetPublish <<< 4 ::
      (writeRemainingLength (field msg.topic ++ msg.payload).length ++ (field msg.topic ++ msg.payload)) := rfl

theorem readPacket_push {msg : Message} (h : (field msg.topic ++ msg.payload).length < 2 ^ 28) (rest : List UInt8) :
    readPacket none (pushPacket msg ++ rest) = .ok (⟨packetPublish, 0, field msg.topic ++ msg.payload⟩, rest) := by
  rw [pushPacket_eq, cons_append, append_assoc, readPacket]
  simp only [readRemainingLength_write h, Option.any_none, Bool.false_eq_true, if_false, Stream.readFull_append]
  rfl

theorem readPublish_field {topic : GoString} (h : topic.length < 256 ^ 2) (payload : List UInt8) :
    readPublish 0 (field topic ++ payload) = pure (.ok ⟨0, 0, topic, payload⟩) := by
  have hlen : (field topic).length = 2 + topic.length := by simp [field]
  have hslice : slice (field topic ++ payload) (2 + topic.length) (field topic ++ payload).length = pure payload := by
    rw [slice_of_le (by simp [hlen]) le_rfl, ← hlen]
    simp
  have hid : readPacketID 0 (field topic ++ payload) (2 + topic.length) = pure (0, 2 + topic.length) := rfl
  have hno : ¬(0 : UInt8) < 0 ∧ (0 : UInt8) ≠ 2 := by decide
  simp [readPublish, readString_field h, hid, hslice, hno, -length_append]

/-- **A pushed message is read back.** The packet of a message, whatever
follows it, is framed as one packet of type 3, and `handlePublish` reads
from it, with QoS 0, the topic and the payload of the message and hands
them to the broker; the lengths that `writeRemainingLength` writes are
read back, none of more than four bytes is accepted, and four that all say
that another one follows are refused. -/
theorem push_round_trip (srv : Server) {msg : Message} (htopic : msg.topic.length ≤ 65535)
    (hlen : 2 + msg.topic.length + msg.payload.length < 2 ^ 28) (rest : List UInt8) :
    (∃ p, readPacket none (pushPacket msg ++ rest) = .ok (p, rest) ∧ p.pType = 3 ∧
      (∀ c, readPublish p.flags p.payload c = (some (.ok ⟨0, 0, msg.topic, msg.payload⟩), c)) ∧
      ∀ c, (handlePublish srv p.flags p.payload c).2.published = c.published ++ [(msg.topic, msg.payload)]) ∧
    (∀ n < 2 ^ 28, readRemainingLength (writeRemainingLength n ++ rest) = .ok (n, rest)) ∧
    (∀ s n, readRemainingLength s = .ok (n, rest) → ∃ digits, s = digits ++ rest ∧ digits.length ≤ 4) ∧
    ∀ digits : List UInt8, digits.length = 4 → (∀ b ∈ digits, b &&& 0x80 ≠ 0) →
      readRemainingLength (digits ++ rest) = .error (ascii "malformed remaining length: exceeded 4 bytes") := by
  have hread := readPublish_field (show msg.topic.length < 256 ^ 2 by omega) msg.payload
  refine ⟨⟨_, readPacket_push ?_ rest, rfl, fun c => ?_, fun c => ?_⟩,
    fun n hn => readRemainingLength_write hn rest, fun s n h => ?_, fun digits hlen hmore => ?_⟩
  · simpa [field, Nat.add_assoc] using hlen
  · rw [hread]
    rfl
  · rw [handlePublish, hread, Proc.pure_bind]
    simp only [Proc.bind_apply, publish]
    cases srv.hub.publish c.subs.asked msg.topic msg.payload <;> rfl
  · obtain ⟨⟨digits, hs, -, hle⟩, -⟩ := readRemainingLength_ok h
    exact ⟨digits, hs, hle⟩
  · have hread := @Varint.readFrom_tooLong 1 0 digits hmore rest
    rw [hlen] at hread
    rw [readRemainingLength, Varint.read, hread]

def Server.sample : Server := ⟨.sample, ascii "k", fun _ => none⟩

def sampleMessage : Message := { (default : Message) with topic := ascii "a/b", payload := ascii "hi" }

theorem push_round_trip_sample : (sampleMessage.topic.length ≤ 65535 ∧
    2 + sampleMessage.topic.length + sampleMessage.payload.length < 2 ^ 28) ∧
    ∃ p, readPacket none (pushPacket sampleMessage ++ [7]) = .ok (p, [7]) ∧ p.pType = 3 ∧
      ∀ c, readPublish p.flags p.payload c = (some (.ok ⟨0, 0, ascii "a/b", ascii "hi"⟩), c) := by
  obtain ⟨p, hp, htype, hread, -⟩ := (@push_round_trip .sample sampleMessage (by decide) (by decide) [7]).1
  exact ⟨by decide, p, hp, htype, hread⟩

/-! ## No handler panics -/

section Safe

open Proc (Yields)

variable {srv : Server} {payload : List UInt8} {offset : Nat}

theorem yields_write (srv : Server) (data : List UInt8) : Yields (write srv data) fun _ => True := .step

theorem yields_index {buf : List UInt8} {i} (h : i < buf.length) : Yields (index buf i) fun _ => True := by
  rw [index_of_lt h]
  exact .pure trivial

theorem yields_slice {buf : List UInt8} {lo hi} (h : lo ≤ hi) (hhi : hi ≤ buf.length) :
    Yields (slice buf lo hi) fun b => b.length = hi - lo := by
  rw [slice_of_le h hhi]
  refine .pure ?_
  rw [length_take, length_drop]
  omega

theorem yields_uint16 {b : List UInt8} (h : b.length = 2) : Yields (uint16 b) fun _ => True :=
  (yields_index (by omega)).bind fun _ _ => (yields_index (by omega)).bind fun _ _ => .pure trivial

theorem yields_readString (buf : List UInt8) (offset : Nat) :
    Yields (readString buf offset) fun r => Reads buf offset r.1 r.2 := by
  obtain ⟨r, next, hr, hreads⟩ := readString_reads buf offset
  rw [hr]
  exact .pure hreads

theorem yields_authenticate (hasUsername hasPassword : Bool) (username password : GoString) :
    Yields (authenticate srv hasUsername hasPassword username password) fun _ => True := by
  unfold authenticate
  split
  · exact (yields_write _ _).bind fun _ _ => .pure trivial
  · exact Proc.Yields.step.bind fun _ _ => yields_write _ _

theorem yields_readOptional (present : Bool) (buf : List UInt8) (offset : Nat) :
    Yields (readOptional present buf offset) fun _ => True := by
  unfold readOptional
  split
  · intro c
    obtain ⟨r, c', hr, -⟩ := yields_readString buf offset c
    exact ⟨r, c', hr, trivial⟩
  · exact .pure trivial

theorem yields_readCredentials (connFlags : UInt8) :
    Yields (readCredentials srv connFlags payload offset) fun _ => True := by
  refine (yields_readString payload offset).bind fun r _ => ?_
  split
  next => exact .pure trivial
  next =>
    dsimp only
    split
    next => exact (yields_write _ _).bind fun _ _ => .pure trivial
    next =>
      refine (yields_readOptional _ _ _).bind fun r _ => ?_
      split
      next => exact .pure trivial
      next =>
        refine (yields_readOptional _ _ _).bind fun r _ => ?_
        split
        next => exact .pure trivial
        next => exact yields_authenticate _ _ _ _

theorem yields_handleConnect (srv : Server) (payload : List UInt8) :
    Yields (handleConnect srv payload) fun _ => True := by
  unfold handleConnect
  split
  next => exact .pure trivial
  next =>
    refine (yields_readString payload 0).bind fun r _ => ?_
    split
    next => exact .pure trivial
    next protoName offset =>
      split
      next => exact .pure trivial
      split
      next => exact .pure trivial
      next hfits =>
        refine (yields_index (by omega)).bind fun protoLevel _ => ?_
        split
        next => exact (yields_write _ _).bind fun _ _ => .pure trivial
        next => exact (yields_index (by omega)).bind fun connFlags _ => yields_readCredentials connFlags

theorem yields_readPublish (flags : UInt8) (payload : List UInt8) :
    Yields (readPublish flags payload) fun _ => True := by
  refine (yields_readString payload 0).bind fun r hr => ?_
  split
  next => exact .pure trivial
  next topic offset =>
    obtain ⟨-, -, hle, -⟩ := hr.ok rfl
    dsimp only at hle ⊢
    split
    next => exact .pure trivial
    next hfits =>
      refine Proc.Yields.bind (P := fun r : Nat × Nat => r.2 ≤ payload.length) ?_ fun r hr => ?_
      · unfold readPacketID
        split
        next hqos =>
          have hfits : offset + 2 ≤ payload.length := by
            by_contra hlt
            exact hfits (by simp [hqos]; omega)
          exact (yields_slice (by omega) hfits).bind fun b hb =>
            (yields_uint16 (by omega)).bind fun _ _ => .pure hfits
        next => exact .pure hle
      · split
        next => exact .pure trivial
        next => exact (yields_slice hr le_rfl).bind fun _ _ => .pure trivial

theorem yields_handlePublish (srv : Server) (flags : UInt8) (payload : List UInt8) :
    Yields (handlePublish srv flags payload) fun _ => True := by
  refine (yields_readPublish flags payload).bind fun r _ => ?_
  split
  next => exact .pure trivial
  next p =>
    refine Proc.Yields.step.bind fun r _ => ?_
    split
    next => exact .pure trivial
    next =>
      split
      · exact yields_write _ _
      · exact .pure trivial

/-- A pass over a filter goes on behind it, within the packet. -/
def Pass.Advances (payload : List UInt8) (offset : Nat) : Pass → Prop
  | .leave _ => True
  | .go next _ => offset < next ∧ next ≤ payload.length

theorem yields_subscribePass (srv : Server) (payload : List UInt8) (offset : Nat) :
    Yields (subscribePass srv payload offset) (Pass.Advances payload offset) := by
  refine (yields_readString payload offset).bind fun r hr => ?_
  split
  next => exact .pure trivial
  next topic next =>
    have hle := (hr.ok rfl).2.1
    dsimp only at hle ⊢
    split
    next => exact .pure trivial
    next hinside =>
      refine (yields_index (by omega)).bind fun _ _ => ?_
      exact Proc.Yields.step.bind fun _ _ => .pure ⟨by omega, by omega⟩

theorem yields_unsubscribePass (payload : List UInt8) (offset : Nat) :
    Yields (unsubscribePass payload offset) (Pass.Advances payload offset) := by
  refine (yields_readString payload offset).bind fun r hr => ?_
  split
  next => exact .pure trivial
  next topic next =>
    obtain ⟨-, hle, hinside, -⟩ := hr.ok rfl
    dsimp only at hle hinside
    exact Proc.Yields.step.bind fun _ _ => .pure ⟨by omega, hinside⟩

/-- The bytes behind the offset are enough fuel. -/
theorem yields_subscribeLoop (srv : Server) {fuel} (h : payload.length ≤ offset + fuel) (grantedQoS : List UInt8) :
    Yields (subscribeLoop srv payload fuel offset grantedQoS) fun _ => True := by
  induction fuel generalizing offset grantedQoS with
  | zero =>
    rw [subscribeLoop, if_pos (by omega)]
    exact .pure trivial
  | succ fuel ih =>
    rw [subscribeLoop]
    split
    next => exact .pure trivial
    next =>
      refine (yields_subscribePass srv payload offset).bind fun p hp => ?_
      cases p with
      | leave e => exact .pure trivial
      | go next code => exact ih (by have := hp.1; omega) _

theorem yields_unsubscribeLoop {fuel} (h : payload.length ≤ offset + fuel) :
    Yields (unsubscribeLoop payload fuel offset) fun _ => True := by
  induction fuel generalizing offset with
  | zero =>
    rw [unsubscribeLoop, if_pos (by omega)]
    exact .pure trivial
  | succ fuel ih =>
    rw [unsubscribeLoop]
    split
    next => exact .pure trivial
    next =>
      refine (yields_unsubscribePass payload offset).bind fun p hp => ?_
      cases p with
      | leave e => exact .pure trivial
      | go next code => exact ih (by have := hp.1; omega)

theorem yields_handleSubscribe (srv : Server) (payload : List UInt8) :
    Yields (handleSubscribe srv payload) fun _ => True := by
  unfold handleSubscribe
  split
  next => exact .pure trivial
  next hfits =>
    refine (yields_slice (by omega) (by omega)).bind fun b hb => (yields_uint16 hb).bind fun packetID _ => ?_
    refine (yields_subscribeLoop srv (by omega) []).bind fun r _ => ?_
    split
    · exact .pure trivial
    · exact yields_write _ _

theorem yields_handleUnsubscribe (srv : Server) (payload : List UInt8) :
    Yields (handleUnsubscribe srv payload) fun _ => True := by
  unfold handleUnsubscribe
  split
  next => exact .pure trivial
  next hfits =>
    refine (yields_slice (by omega) (by omega)).bind fun b hb => ?_
    refine (yields_unsubscribeLoop (by omega)).bind fun _ _ => ?_
    exact (yields_index (by omega)).bind fun _ _ => (yields_index (by omega)).bind fun _ _ => yields_write _ _

end Safe

/-- **No packet makes a handler panic or spin.** Whatever the body and the
flags of a packet, every access of the four handlers is in range and their
loops end, as each pass over a filter moves the offset forward within the
packet; `readString` never moves it beyond the end. -/
theorem handlers_safe (srv : Server) (flags : UInt8) (payload : List UInt8) (c : Conn) :
    (handleConnect srv payload c).1.isSome ∧ (handlePublish srv flags payload c).1.isSome ∧
    (handleSubscribe srv payload c).1.isSome ∧ (handleUnsubscribe srv payload c).1.isSome ∧ ∀ offset ≤ payload.length,
      (∃ p, (subscribePass srv payload offset c).1 = some p ∧ p.Advances payload offset) ∧
      (∃ p, (unsubscribePass payload offset c).1 = some p ∧ p.Advances payload offset) ∧
      ∃ r next, readString payload offset c = (some (r, next), c) ∧ offset ≤ next ∧ next ≤ payload.length := by
  have hsome : ∀ {α : Type} {x : Proc Conn α}, x.Yields (fun _ => True) → (x c).1.isSome := by
    intro α x h
    obtain ⟨a, c', hx, -⟩ := h c
    rw [hx]
    rfl
  refine ⟨hsome (yields_handleConnect srv payload), hsome (yields_handlePublish srv flags payload),
    hsome (yields_handleSubscribe srv payload), hsome (yields_handleUnsubscribe srv payload), fun offset hle => ?_⟩
  refine ⟨?_, ?_, ?_⟩
  · obtain ⟨p, c', hx, hp⟩ := yields_subscribePass srv payload offset c
    exact ⟨p, by rw [hx], hp⟩
  · obtain ⟨p, c', hx, hp⟩ := yields_unsubscribePass payload offset c
    exact ⟨p, by rw [hx], hp⟩
  · obtain ⟨r, next, hr, hreads⟩ := readString_reads payload offset
    exact ⟨r, next, by rw [hr]; rfl, hreads.le, hreads.inside hle⟩

end Session

end Mqtt

end TinyMQ
