/-
The JSON of messages and log records: `encoding/json` on `message.Message`
and `LogRecord`.

A struct is written with its fields in their order, and read from an object
with its members in any order. A record comes back with its strings repaired
to UTF-8 and its headers in the order of their names (`unmarshal_marshal`);
a record that was read comes back as it is, which is what compaction relies
on (`jsonCodec_lawful`).
-/
import TinyMQ.LogStore
import TinyMQ.Lib.JsonFields

namespace TinyMQ

open List Utf8 SortedMap
open JsonText

/-! ## Times -/

/-- `Time.MarshalJSON` and `Time.UnmarshalJSON` between the quotes: RFC 3339
with nanoseconds, in the years 0 to 9999. -/
structure TimeText where
  format : Time → Option GoString
  parse : GoString → Option Time
  /-- `time.Time{}`. -/
  zero : Time
  parse_format : ∀ {t s}, format t = some s → parse s = some t
  raw : ∀ {t s}, format t = some s → ∀ b ∈ s, isRaw b = true
  length_le : ∀ {t s}, format t = some s → s.length ≤ 35

namespace TimeText

variable {t : Time}

variable (tt : TimeText)

def formatPointer : Option Time → Option (Option GoString)
  | none => some none
  | some t => (tt.format t).map some

/-- `UnmarshalJSON` gets the text as it is written. -/
def decode : Value → Time → Option Time
  | .null, t => some t
  | .str b, _ => tt.parse b
  | _, _ => none

variable {tt}

theorem decode_format (h : tt.format t = some s) (old : Time) : tt.decode (.str s) old = some t :=
  tt.parse_format h

theorem isBody (h : tt.format t = some s) : IsBody s := isBody_raw (tt.raw h)

end TimeText

/-! ## Messages -/

inductive MessageField
  | id
  | topic
  | payload
  | timestamp
  | expiresAt
  | deliverAt
  | retryCount
  | headers
  deriving DecidableEq, Repr

/-- The name of a field in JSON. -/
def MessageField.tag : MessageField → GoString
  | .id => ascii "id"
  | .topic => ascii "topic"
  | .payload => ascii "payload"
  | .timestamp => ascii "timestamp"
  | .expiresAt => ascii "expires_at"
  | .deliverAt => ascii "deliver_at"
  | .retryCount => ascii "retry_count"
  | .headers => ascii "headers"

def messageTags : List (GoString × MessageField) :=
  [.id, .topic, .payload, .timestamp, .expiresAt, .deliverAt, .retryCount, .headers].map fun f => (f.tag, f)

section Codec

variable (tt : TimeText)

/-- The members of a message; `expires_at`, `deliver_at` and `headers` are
left out when they are empty. -/
def messageMembers (m : Message) : Option (List (GoString × Value)) := do
  let timestamp ← tt.format m.timestamp
  let expiresAt ← tt.formatPointer m.expiresAt
  let deliverAt ← tt.formatPointer m.deliverAt
  return [(MessageField.id.tag, stringValue m.id), (MessageField.topic.tag, stringValue m.topic),
      (MessageField.payload.tag, bytesValue m.payload), (MessageField.timestamp.tag, .str timestamp)] ++
    (expiresAt.map fun s => (MessageField.expiresAt.tag, .str s)).toList ++
    (deliverAt.map fun s => (MessageField.deliverAt.tag, .str s)).toList ++
    (MessageField.retryCount.tag, intValue m.retryCount.toInt) ::
    if m.headers = [] then [] else [(MessageField.headers.tag, mapValue (ofList m.headers))]

def setMessage : MessageField → Value → Message → Option Message
  | .id, v, m => (decodeString v m.id).map fun s => { m with id := s }
  | .topic, v, m => (decodeString v m.topic).map fun s => { m with topic := s }
  | .payload, v, m => (decodeBytes v m.payload).map fun bs => { m with payload := bs }
  | .timestamp, v, m => (tt.decode v m.timestamp).map fun t => { m with timestamp := t }
  | .expiresAt, v, m => (decodePointer tt.zero tt.decode v m.expiresAt).map fun t => { m with expiresAt := t }
  | .deliverAt, v, m => (decodePointer tt.zero tt.decode v m.deliverAt).map fun t => { m with deliverAt := t }
  | .retryCount, v, m => (decodeInt v m.retryCount.toInt).map fun z => { m with retryCount := Int64.ofInt z }
  | .headers, v, m => (decodeMap v m.headers).map fun hs => { m with headers := hs }

/-- `message.Message{}`. -/
def zeroMessage : Message where
  id := []
  topic := []
  payload := []
  timestamp := tt.zero
  expiresAt := none
  deliverAt := none
  retryCount := 0
  headers := []

def decodeMessage : Value → Message → Option Message := decodeStruct messageTags (setMessage tt)

/-- The limit of `http.MaxBytesReader`. -/
def maxBodySize : Nat := 2 * 2 ^ 20

/-- `json.NewDecoder(r.Body).Decode(&msg)` of `handleRequeue`. -/
def readMessage (body : List UInt8) : Option Message :=
  (parseFront (body.take maxBodySize)).bind fun (v, _) => decodeMessage tt v (zeroMessage tt)

/-! ## Log records -/

inductive RecordField
  | type
  | message
  | messageID
  | timestamp
  | checksum
  deriving DecidableEq, Repr

def RecordField.tag : RecordField → GoString
  | .type => ascii "type"
  | .message => ascii "message"
  | .messageID => ascii "message_id"
  | .timestamp => ascii "timestamp"
  | .checksum => ascii "checksum"

def recordTags : List (GoString × RecordField) :=
  [.type, .message, .messageID, .timestamp, .checksum].map fun f => (f.tag, f)

def RecordType.text : RecordType → GoString
  | .put => ascii "PUT"
  | .ack => ascii "ACK"
  | .other text => text

def RecordType.ofText (text : GoString) : RecordType :=
  if text = ascii "PUT" then .put else if text = ascii "ACK" then .ack else .other text

/-- The member of the message, if there is one. -/
def messageMember : Option Message → Option (List (GoString × Value))
  | none => some []
  | some m => (messageMembers tt m).map fun ms => [(RecordField.message.tag, .obj ms)]

/-- The members of a record; `message`, `message_id` and `checksum` are left
out when they are empty. -/
def recordMembers (rec : LogRecord) : Option (List (GoString × Value)) := do
  let message ← messageMember tt rec.message
  let timestamp ← tt.format rec.timestamp
  return (RecordField.type.tag, stringValue rec.type.text) :: message ++
    (if rec.messageID = [] then [] else [(RecordField.messageID.tag, stringValue rec.messageID)]) ++
    (RecordField.timestamp.tag, .str timestamp) ::
    if rec.checksum = 0 then [] else [(RecordField.checksum.tag, .num (Codec.decimal rec.checksum.toNat))]

def setRecord : RecordField → Value → LogRecord → Option LogRecord
  | .type, v, rec => (decodeString v rec.type.text).map fun s => { rec with type := .ofText s }
  | .message, v, rec => (decodePointer (zeroMessage tt) (decodeMessage tt) v rec.message).map fun m =>
      { rec with message := m }
  | .messageID, v, rec => (decodeString v rec.messageID).map fun s => { rec with messageID := s }
  | .timestamp, v, rec => (tt.decode v rec.timestamp).map fun t => { rec with timestamp := t }
  | .checksum, v, rec => (decodeUint 32 v rec.checksum.toNat).map fun n => { rec with checksum := UInt32.ofNat n }

/-- `LogRecord{}`. -/
def zeroRecord : LogRecord where
  type := .other []
  message := none
  messageID := []
  timestamp := tt.zero
  checksum := 0

/-- `json.Marshal` and `json.Unmarshal` on `LogRecord`. -/
def jsonCodec : Codec where
  marshal rec := (recordMembers tt rec).map fun ms => print (.obj ms)
  unmarshal line := (parse line).bind fun v => decodeStruct recordTags (setRecord tt) v (zeroRecord tt)

end Codec

/-! ## What is written is read back -/

/-- A message with its strings repaired and its headers in order. -/
def Message.repaired (m : Message) : Message :=
  { m with
    id := sanitize m.id
    topic := sanitize m.topic
    headers := ofList ((ofList m.headers).map repairPair) }

def LogRecord.repaired (rec : LogRecord) : LogRecord :=
  { rec with
    type := .ofText (sanitize rec.type.text)
    message := rec.message.map Message.repaired
    messageID := sanitize rec.messageID }

section RoundTrip

variable {text : Option GoString} {b : List UInt8} {v : Value} {m' : Message}

variable {tt : TimeText} {m : Message} {rec : LogRecord} {ms : List (GoString × Value)}

/-- A member as it is written: what stands between quotes, what is printed,
and how deep it is. -/
structure Written (n : Nat) (ms : List (GoString × Value)) : Prop where
  key : ∀ x ∈ ms, IsBody x.1
  well : ∀ x ∈ ms, Well x.2
  depth : ∀ x ∈ ms, depth x.2 ≤ n

theorem Written.nil (n : Nat) : Written n [] := ⟨by simp, by simp, by simp⟩

theorem Written.cons (hk : IsBody k) (hv : Well v) (hd : JsonText.depth v ≤ n)
    (h : Written n ms) : Written n ((k, v) :: ms) :=
  ⟨forall_mem_cons.mpr ⟨hk, h.key⟩, forall_mem_cons.mpr ⟨hv, h.well⟩, forall_mem_cons.mpr ⟨hd, h.depth⟩⟩

theorem Written.append (h : Written n ms) (h' : Written n ms') : Written n (ms ++ ms') :=
  ⟨forall_mem_append.mpr ⟨h.key, h'.key⟩, forall_mem_append.mpr ⟨h.well, h'.well⟩,
    forall_mem_append.mpr ⟨h.depth, h'.depth⟩⟩

theorem Written.obj (h : Written n ms) : Well (.obj ms) ∧ JsonText.depth (.obj ms) ≤ n + 1 :=
  ⟨.obj h.key h.well, Nat.succ_le_succ (depthMembers_le h.depth)⟩

theorem isBody_messageTag (f : MessageField) : IsBody f.tag := isBody_raw (by cases f <;> decide +kernel)

theorem isBody_recordTag (f : RecordField) : IsBody f.tag := isBody_raw (by cases f <;> decide +kernel)

theorem fieldFor_messageTag (f : MessageField) : fieldFor messageTags (unquote f.tag) = some f := by
  cases f <;> decide

theorem fieldFor_recordTag (f : RecordField) : fieldFor recordTags (unquote f.tag) = some f := by
  cases f <;> decide

theorem messageMembers_eq (h : messageMembers tt m = some ms) : ∃ timestamp expiresAt deliverAt,
    tt.format m.timestamp = some timestamp ∧ tt.formatPointer m.expiresAt = some expiresAt ∧
    tt.formatPointer m.deliverAt = some deliverAt ∧
    ms = [(MessageField.id.tag, stringValue m.id), (MessageField.topic.tag, stringValue m.topic),
        (MessageField.payload.tag, bytesValue m.payload), (MessageField.timestamp.tag, .str timestamp)] ++
      (expiresAt.map fun s => (MessageField.expiresAt.tag, Value.str s)).toList ++
      (deliverAt.map fun s => (MessageField.deliverAt.tag, Value.str s)).toList ++
      (MessageField.retryCount.tag, intValue m.retryCount.toInt) ::
      if m.headers = [] then [] else [(MessageField.headers.tag, mapValue (ofList m.headers))] := by
  simp only [messageMembers, Option.bind_eq_bind, Option.bind_eq_some_iff] at h
  obtain ⟨timestamp, hts, expiresAt, hex, deliverAt, hdl, h⟩ := h
  exact ⟨timestamp, expiresAt, deliverAt, hts, hex, hdl, (Option.some.inj h).symm⟩

theorem formatPointer_cases (h : tt.formatPointer o = some text) :
    o = none ∧ text = none ∨ ∃ t s, o = some t ∧ text = some s ∧ tt.format t = some s := by
  cases o with
  | none => exact .inl ⟨rfl, (Option.some.inj h).symm⟩
  | some t =>
    obtain ⟨s, hs, rfl⟩ := Option.map_eq_some_iff.mp h
    exact .inr ⟨t, s, rfl, rfl, hs⟩

theorem written_messageMembers (h : messageMembers tt m = some ms) : Written 1 ms := by
  obtain ⟨timestamp, expiresAt, deliverAt, hts, hex, hdl, rfl⟩ := messageMembers_eq h
  have htime : ∀ {o : Option Time} {text : Option GoString} (f : MessageField), tt.formatPointer o = some text →
      Written 1 (text.map fun s => (f.tag, Value.str s)).toList := by
    intro o text f htext
    rcases formatPointer_cases htext with ⟨-, rfl⟩ | ⟨t, s, -, rfl, hs⟩
    · exact .nil 1
    · exact .cons (isBody_messageTag f) (.str (TimeText.isBody hs)) (Nat.zero_le 1) (.nil 1)
  have hheaders : Written 1 (if m.headers = [] then [] else
      [(MessageField.headers.tag, mapValue (ofList m.headers))]) := by
    split
    · exact .nil 1
    · refine .cons (isBody_messageTag .headers) (well_mapValue _)
        (Nat.succ_le_succ (depthMembers_le fun x hx => ?_)) (.nil 1)
      obtain ⟨kv, -, rfl⟩ := List.mem_map.mp hx
      exact Nat.le_refl 0
  refine .append (.append (.append ?_ (htime .expiresAt hex)) (htime .deliverAt hdl))
    (.cons (isBody_messageTag .retryCount) (well_formatInt _) (Nat.zero_le 1) hheaders)
  exact .cons (isBody_messageTag .id) (well_stringValue _) (Nat.zero_le 1) <|
    .cons (isBody_messageTag .topic) (well_stringValue _) (Nat.zero_le 1) <|
    .cons (isBody_messageTag .payload) (well_bytesValue _) (Nat.zero_le 1) <|
    .cons (isBody_messageTag .timestamp) (.str (TimeText.isBody hts)) (Nat.zero_le 1) (.nil 1)

theorem decode_formatPointer (h : tt.formatPointer o = some text) (f : MessageField) (put : Option Time → Message)
    (hset : ∀ v, setMessage tt f v (put none) = (decodePointer tt.zero tt.decode v none).map put)
    (rest : List (GoString × Value)) :
    decodeMembers messageTags (setMessage tt) ((text.map fun s => (f.tag, .str s)).toList ++ rest) (put none) =
      decodeMembers messageTags (setMessage tt) rest (put o) := by
  rcases formatPointer_cases h with ⟨rfl, rfl⟩ | ⟨t, s, rfl, rfl, hs⟩
  · rfl
  · refine decodeMembers_cons (fieldFor_messageTag f) ?_
    simp [hset, decodePointer, TimeText.decode_format hs]

theorem decode_headers (hs : List (GoString × GoString)) (hm : m.headers = []) :
    decodeMembers messageTags (setMessage tt)
      (if hs = [] then [] else [(MessageField.headers.tag, mapValue (ofList hs))]) m =
    some { m with headers := ofList ((ofList hs).map repairPair) } := by
  split
  next hnil =>
    subst hnil
    rw [decodeMembers]
    exact congrArg (fun headers => some { m with headers := headers }) hm
  next => simp [decodeMembers, fieldFor_messageTag, setMessage, hm, decodeMap_mapValue]

/-- **A message is read back repaired.** -/
theorem decode_messageMembers (h : messageMembers tt m = some ms) :
    decodeMembers messageTags (setMessage tt) ms (zeroMessage tt) = some m.repaired := by
  obtain ⟨timestamp, expiresAt, deliverAt, hts, hex, hdl, rfl⟩ := messageMembers_eq h
  have hcount := decodeInt_intValue ⟨m.retryCount.le_toInt, m.retryCount.toInt_lt⟩
  let m₁ : Message := { zeroMessage tt with
    id := sanitize m.id, topic := sanitize m.topic, payload := m.payload, timestamp := m.timestamp }
  -- The fields that are always there, up to the times that may be missing.
  have hfirst : ∀ rest, decodeMembers messageTags (setMessage tt) ([(MessageField.id.tag, stringValue m.id),
      (MessageField.topic.tag, stringValue m.topic), (MessageField.payload.tag, bytesValue m.payload),
      (MessageField.timestamp.tag, Value.str timestamp)] ++ rest) (zeroMessage tt) =
        decodeMembers messageTags (setMessage tt) rest m₁ := by
    intro rest
    simp [decodeMembers, fieldFor_messageTag, setMessage, decodeString_stringValue, decodeBytes_bytesValue,
      TimeText.decode_format hts, m₁]
  let m₂ : Message := { m₁ with expiresAt := m.expiresAt, deliverAt := m.deliverAt }
  have hexpires := decode_formatPointer hex .expiresAt (fun t => { m₁ with expiresAt := t }) fun v => rfl
  have hdeliver := decode_formatPointer hdl .deliverAt (fun t => { m₂ with deliverAt := t }) fun v => rfl
  have hretry :
    setMessage tt .retryCount (intValue m.retryCount.toInt) m₂ = some { m₂ with retryCount := m.retryCount } := by
    simp [setMessage, hcount]
  rw [append_assoc, append_assoc, hfirst]
  exact (hexpires _).trans <| (hdeliver _).trans <|
    (decodeMembers_cons (fieldFor_messageTag .retryCount) hretry).trans (decode_headers m.headers rfl)

theorem recordMembers_eq (h : recordMembers tt rec = some ms) : ∃ message timestamp,
    (rec.message = none ∧ message = [] ∨ ∃ m mms, rec.message = some m ∧ messageMembers tt m = some mms ∧
      message = [(RecordField.message.tag, Value.obj mms)]) ∧ tt.format rec.timestamp = some timestamp ∧
    ms = (RecordField.type.tag, stringValue rec.type.text) :: message ++
      (if rec.messageID = [] then [] else [(RecordField.messageID.tag, stringValue rec.messageID)]) ++
      (RecordField.timestamp.tag, .str timestamp) ::
      if rec.checksum = 0 then [] else [(RecordField.checksum.tag, .num (Codec.decimal rec.checksum.toNat))] := by
  simp only [recordMembers, Option.bind_eq_bind, Option.bind_eq_some_iff] at h
  obtain ⟨message, hmessage, timestamp, hts, h⟩ := h
  refine ⟨message, timestamp, ?_, hts, (Option.some.inj h).symm⟩
  cases hm : rec.message with
  | none =>
    rw [hm] at hmessage
    exact .inl ⟨rfl, (Option.some.inj hmessage).symm⟩
  | some m =>
    rw [hm] at hmessage
    obtain ⟨mms, hmms, rfl⟩ := Option.map_eq_some_iff.mp hmessage
    exact .inr ⟨m, mms, rfl, hmms, rfl⟩

theorem written_recordMembers (h : recordMembers tt rec = some ms) : Written 2 ms := by
  obtain ⟨message, timestamp, hmessage, hts, rfl⟩ := recordMembers_eq h
  have hmsg : Written 2 message := by
    rcases hmessage with ⟨-, rfl⟩ | ⟨m, mms, -, hmms, rfl⟩
    · exact .nil 2
    · obtain ⟨hwell, hdepth⟩ := (written_messageMembers hmms).obj
      exact .cons (isBody_recordTag .message) hwell hdepth (.nil 2)
  refine .append (.append (.cons (isBody_recordTag .type) (well_stringValue _) (Nat.zero_le 2) hmsg) ?_)
    (.cons (isBody_recordTag .timestamp) (.str (TimeText.isBody hts)) (Nat.zero_le 2) ?_)
  · split
    · exact .nil 2
    · exact .cons (isBody_recordTag .messageID) (well_stringValue _) (Nat.zero_le 2) (.nil 2)
  · split
    · exact .nil 2
    · exact .cons (isBody_recordTag .checksum) (well_decimal _) (Nat.zero_le 2) (.nil 2)

/-- **A record is read back repaired.** -/
theorem decode_recordMembers (h : recordMembers tt rec = some ms) :
    decodeMembers recordTags (setRecord tt) ms (zeroRecord tt) = some rec.repaired := by
  obtain ⟨message, timestamp, hmessage, hts, rfl⟩ := recordMembers_eq h
  let r₁ : LogRecord := { zeroRecord tt with type := .ofText (sanitize rec.type.text) }
  let r₂ : LogRecord := { r₁ with message := rec.message.map Message.repaired }
  let r₃ : LogRecord := { r₂ with messageID := sanitize rec.messageID }
  let r₄ : LogRecord := { r₃ with timestamp := rec.timestamp }
  have htype : setRecord tt .type (stringValue rec.type.text) (zeroRecord tt) = some r₁ := by
    simp [setRecord, decodeString_stringValue, r₁]
  have hmsg : ∀ rest, decodeMembers recordTags (setRecord tt) (message ++ rest) r₁ =
      decodeMembers recordTags (setRecord tt) rest r₂ := by
    intro rest
    rcases hmessage with ⟨hm, rfl⟩ | ⟨m, mms, hm, hmms, rfl⟩
    · simp [r₂, hm, r₁, zeroRecord]
    · refine decodeMembers_cons (fieldFor_recordTag .message) ?_
      have hdecode : decodeMessage tt (.obj mms) (zeroMessage tt) = some m.repaired := decode_messageMembers hmms
      simp [setRecord, decodePointer, r₂, r₁, zeroRecord, hm, hdecode]
  have hid : ∀ rest, decodeMembers recordTags (setRecord tt)
      ((if rec.messageID = [] then [] else [(RecordField.messageID.tag, stringValue rec.messageID)]) ++ rest) r₂ =
      decodeMembers recordTags (setRecord tt) rest r₃ := by
    intro rest
    split
    next hnil => simp [r₃, hnil, r₂, r₁, zeroRecord, sanitize, sanitizeFrom]
    next =>
      refine decodeMembers_cons (fieldFor_recordTag .messageID) ?_
      simp [setRecord, decodeString_stringValue, r₃]
  have htime : setRecord tt .timestamp (.str timestamp) r₃ = some r₄ := by
    simp [setRecord, TimeText.decode_format hts, r₄]
  have hsum : decodeMembers recordTags (setRecord tt)
      (if rec.checksum = 0 then [] else [(RecordField.checksum.tag, .num (Codec.decimal rec.checksum.toNat))]) r₄ =
      some rec.repaired := by
    split
    next hzero => simp [decodeMembers, LogRecord.repaired, r₄, r₃, r₂, r₁, zeroRecord, hzero]
    next =>
      have hset : setRecord tt .checksum (.num (Codec.decimal rec.checksum.toNat)) r₄ = some rec.repaired := by
        rw [setRecord, decodeUint_decimal rec.checksum.toNat_lt, Option.map_some, UInt32.ofNat_toNat]
        rfl
      exact decodeMembers_cons (fieldFor_recordTag .checksum) hset
  rw [append_assoc, cons_append, decodeMembers_cons (fieldFor_recordTag .type) htype, hmsg, hid,
    decodeMembers_cons (fieldFor_recordTag .timestamp) htime, hsum]

/-- **`json.Unmarshal` after `json.Marshal`.** -/
theorem unmarshal_marshal (h : (jsonCodec tt).marshal rec = some b) :
    (jsonCodec tt).unmarshal b = some rec.repaired := by
  obtain ⟨ms, hms, rfl⟩ := Option.map_eq_some_iff.mp h
  obtain ⟨hwell, hdepth⟩ := (written_recordMembers hms).obj
  have hparse : parse (print (.obj ms)) = some (.obj ms) := parse_print hwell (by unfold maxNestingDepth; omega)
  simp only [jsonCodec, hparse, Option.bind_some]
  exact decode_recordMembers hms

theorem marshal_bytes (h : (jsonCodec tt).marshal rec = some b) : ∀ c ∈ b, 32 ≤ c := by
  obtain ⟨ms, hms, rfl⟩ := Option.map_eq_some_iff.mp h
  exact print_bytes (written_recordMembers hms).obj.1

theorem oneLine_of_bytes (h : ∀ c ∈ b, 32 ≤ c) : (10 : UInt8) ∉ b ∧ b.getLast? ≠ some 13 :=
  ⟨fun hmem => absurd (h 10 hmem) (by decide), fun hlast => absurd (h 13 (mem_of_getLast? hlast)) (by decide)⟩

theorem marshal_head (h : (jsonCodec tt).marshal rec = some b) : ∃ rest, b = ascii "\x7b\"type\":" ++ rest := by
  obtain ⟨ms, hms, rfl⟩ := Option.map_eq_some_iff.mp h
  obtain ⟨message, timestamp, -, -, rfl⟩ := recordMembers_eq hms
  exact ⟨_, rfl⟩

/-! ## What was read stays as it is -/

/-- A message whose strings are UTF-8 and whose headers are in order. -/
structure Message.Clean (m : Message) : Prop where
  id : sanitize m.id = m.id
  topic : sanitize m.topic = m.topic
  headers : CleanMap m.headers

structure LogRecord.Clean (rec : LogRecord) : Prop where
  type : RecordType.ofText rec.type.text = rec.type
  text : sanitize rec.type.text = rec.type.text
  message : ∀ m, rec.message = some m → m.Clean
  messageID : sanitize rec.messageID = rec.messageID

theorem Message.Clean.repaired_eq (h : m.Clean) : m.repaired = m := by
  rw [Message.repaired, h.id, h.topic, h.headers.ofList]

theorem LogRecord.Clean.repaired_eq (h : rec.Clean) : rec.repaired = rec := by
  have hmessage : rec.message.map Message.repaired = rec.message := by
    cases hm : rec.message with
    | none => rfl
    | some m => rw [Option.map_some, (h.message m hm).repaired_eq]
  rw [LogRecord.repaired, h.text, h.type, hmessage, h.messageID]

theorem RecordType.text_ofText (s : GoString) : (RecordType.ofText s).text = s := by
  unfold RecordType.ofText
  split
  next h => exact h.symm
  split
  next h => exact h.symm
  next => rfl

theorem clean_setMessage (hm : m.Clean) (h : setMessage tt f v m = some m') : m'.Clean := by
  cases f with
  | id =>
    obtain ⟨s, hs, rfl⟩ := Option.map_eq_some_iff.mp h
    exact ⟨sanitize_decodeString hm.id hs, hm.topic, hm.headers⟩
  | topic =>
    obtain ⟨s, hs, rfl⟩ := Option.map_eq_some_iff.mp h
    exact ⟨hm.id, sanitize_decodeString hm.topic hs, hm.headers⟩
  | headers =>
    obtain ⟨hs, hhs, rfl⟩ := Option.map_eq_some_iff.mp h
    exact ⟨hm.id, hm.topic, cleanMap_decodeMap hm.headers hhs⟩
  | payload | timestamp | expiresAt | deliverAt | retryCount =>
    obtain ⟨_, _, rfl⟩ := Option.map_eq_some_iff.mp h
    exact ⟨hm.id, hm.topic, hm.headers⟩

theorem clean_zeroMessage (tt : TimeText) : (zeroMessage tt).Clean := ⟨rfl, rfl, .nil⟩

theorem clean_decodeMessage (hm : m.Clean) (h : decodeMessage tt v m = some m') : m'.Clean :=
  decodeStruct_invariant (fun _ _ _ _ => clean_setMessage) hm h

theorem clean_setRecord (hr : rec.Clean) (h : setRecord tt f v rec = some rec') : rec'.Clean := by
  cases f with
  | type =>
    obtain ⟨s, hs, rfl⟩ := Option.map_eq_some_iff.mp h
    have hclean := sanitize_decodeString hr.text hs
    exact ⟨by rw [RecordType.text_ofText], by rw [RecordType.text_ofText, hclean], hr.message, hr.messageID⟩
  | message =>
    obtain ⟨m, hm, rfl⟩ := Option.map_eq_some_iff.mp h
    exact ⟨hr.type, hr.text,
      decodePointer_invariant (clean_zeroMessage tt) (fun _ _ _ => clean_decodeMessage) hr.message hm, hr.messageID⟩
  | messageID =>
    obtain ⟨s, hs, rfl⟩ := Option.map_eq_some_iff.mp h
    exact ⟨hr.type, hr.text, hr.message, sanitize_decodeString hr.messageID hs⟩
  | timestamp | checksum =>
    obtain ⟨_, _, rfl⟩ := Option.map_eq_some_iff.mp h
    exact ⟨hr.type, hr.text, hr.message, hr.messageID⟩

theorem clean_unmarshal (h : (jsonCodec tt).unmarshal line = some rec) : rec.Clean := by
  obtain ⟨v, -, hv⟩ := Option.bind_eq_some_iff.mp h
  have hzero : (zeroRecord tt).Clean := ⟨rfl, rfl, (fun m hm => by cases hm), rfl⟩
  exact decodeStruct_invariant (fun _ _ _ _ => clean_setRecord) hzero hv

/-- **`encoding/json` has what compaction relies on.** -/
theorem jsonCodec_lawful (tt : TimeText) : (jsonCodec tt).Lawful where
  oneLine rec b h := oneLine_of_bytes (marshal_bytes h)
  decodes line rec h sum b hb := by
    have hclean := clean_unmarshal h
    have hsum : LogRecord.Clean { rec with checksum := sum } :=
      ⟨hclean.type, hclean.text, hclean.message, hclean.messageID⟩
    rw [unmarshal_marshal hb, hsum.repaired_eq]

/-! ## A record and its checksum -/

/-- The strings of a message are UTF-8, those of its headers as the map has
them. -/
def Message.validTexts (m : Message) : Bool :=
  valid m.id && valid m.topic && validPairs (ofList m.headers)

def LogRecord.validTexts (rec : LogRecord) : Bool :=
  valid rec.type.text && valid rec.messageID && rec.message.all Message.validTexts

/-- The line of a record and that of what is read from it, which is shorter,
have one checksum, or the checksum is zero, which is not looked at. -/
def LogRecord.Collides (tt : TimeText) (rec : LogRecord) : Prop :=
  ∃ b b', (jsonCodec tt).marshal { rec with checksum := 0 } = some b ∧
    (jsonCodec tt).marshal { rec.repaired with checksum := 0 } = some b' ∧ b'.length < b.length ∧
    (crc32 b = 0 ∨ crc32 b' = crc32 b)

theorem headers_repaired (h : ∀ kv ∈ ofList hs, repairPair kv = kv) :
    ofList ((ofList hs).map repairPair) = ofList hs := by
  have hclean : CleanMap (ofList hs) := ⟨sorted_ofList hs, h⟩
  have hsame := hclean.ofList
  rwa [ofList_sorted hclean.sorted] at hsame

theorem messageMembers_repaired (h : m.validTexts = true) : messageMembers tt m.repaired = messageMembers tt m := by
  simp only [Message.validTexts, validPairs, Bool.and_eq_true, List.all_eq_true] at h
  obtain ⟨⟨hid, htopic⟩, hheaders⟩ := h
  have hpairs : ∀ kv ∈ ofList m.headers, repairPair kv = kv := fun kv hkv => by
    rw [repairPair, sanitize_eq_self.mpr (hheaders kv hkv).1, sanitize_eq_self.mpr (hheaders kv hkv).2]
  simp only [messageMembers, Message.repaired, sanitize_eq_self.mpr hid, sanitize_eq_self.mpr htopic,
    headers_repaired hpairs, ofList_eq_nil, ofList_sorted (sorted_ofList m.headers)]

theorem recordMembers_repaired (h : rec.validTexts = true) : recordMembers tt rec.repaired = recordMembers tt rec := by
  simp only [LogRecord.validTexts, Bool.and_eq_true] at h
  obtain ⟨⟨htype, hid⟩, hmessage⟩ := h
  have hmember : messageMember tt (rec.message.map Message.repaired) = messageMember tt rec.message := by
    cases hm : rec.message with
    | none => rfl
    | some m =>
      rw [hm, Option.all_some] at hmessage
      rw [Option.map_some, messageMember, messageMember, messageMembers_repaired hmessage]
  simp only [recordMembers, LogRecord.repaired, RecordType.text_ofText, sanitize_eq_self.mpr htype,
    sanitize_eq_self.mpr hid, hmember]

theorem checksumFor_repaired (h : rec.validTexts = true) :
    checksumFor (jsonCodec tt) rec.repaired = checksumFor (jsonCodec tt) rec := by
  have htexts : LogRecord.validTexts { rec with checksum := 0 } = true := h
  have hzero : recordMembers tt { rec.repaired with checksum := 0 } = recordMembers tt { rec with checksum := 0 } :=
    recordMembers_repaired htexts
  simp only [checksumFor, jsonCodec, hzero]

theorem checksum_repaired_resum (rec : LogRecord) :
    (resum (jsonCodec tt) rec).repaired.checksum = checksumFor (jsonCodec tt) rec := rfl

theorem checksumFor_repaired_resum (rec : LogRecord) :
    checksumFor (jsonCodec tt) (resum (jsonCodec tt) rec).repaired = checksumFor (jsonCodec tt) rec.repaired := rfl

theorem validateRecord_repaired : validateRecord (jsonCodec tt) (resum (jsonCodec tt) rec).repaired = true ↔
    checksumFor (jsonCodec tt) rec = 0 ∨ checksumFor (jsonCodec tt) rec.repaired = checksumFor (jsonCodec tt) rec := by
  rw [validateRecord, checksumFor_repaired_resum, checksum_repaired_resum]
  by_cases h : checksumFor (jsonCodec tt) rec = 0 <;> simp [h]

/-- A message that was read is written with fewer bytes, if one of its
strings was not UTF-8. -/
theorem length_messageMembers_repaired (h : messageMembers tt m = some ms) :
    ∃ ms', messageMembers tt m.repaired = some ms' ∧
    (print (.obj ms')).length + flaw m.validTexts ≤ (print (.obj ms)).length := by
  obtain ⟨timestamp, expiresAt, deliverAt, hts, hex, hdl, rfl⟩ := messageMembers_eq h
  have hid := length_stringValue_sanitize m.id
  have htopic := length_stringValue_sanitize m.topic
  have hmap := length_mapValue_repaired (ofList m.headers)
  have htexts := flaw_and_le (valid m.id && valid m.topic) (validPairs (ofList m.headers))
  have htwo := flaw_and_le (valid m.id) (valid m.topic)
  obtain ⟨ms', h'⟩ :
    ∃ ms', messageMembers tt m.repaired = some ms' := by simp [messageMembers, Message.repaired, hts, hex, hdl]
  refine ⟨ms', h', ?_⟩
  obtain ⟨_, _, _, hts', hex', hdl', rfl⟩ := messageMembers_eq h'
  cases hts.symm.trans hts'
  cases hex.symm.trans hex'
  cases hdl.symm.trans hdl'
  rw [length_print_obj_of_ne (by simp), length_print_obj_of_ne (by simp)]
  simp only [membersSize_append, membersSize_cons, Message.validTexts, Message.repaired, ofList_eq_nil,
    ofList_sorted (sorted_ofList _), map_eq_nil_iff]
  split
  next hnil =>
    have hnone : flaw (validPairs (ofList m.headers)) = 0 := by rw [hnil]; rfl
    omega
  next =>
    simp only [membersSize_cons, membersSize_nil]
    omega

/-- **A record that was read is written with fewer bytes**, if one of its
strings was not UTF-8. -/
theorem length_marshal_repaired (h : (jsonCodec tt).marshal rec = some b) :
    ∃ b', (jsonCodec tt).marshal rec.repaired = some b' ∧ b'.length + flaw rec.validTexts ≤ b.length := by
  obtain ⟨ms, hms, rfl⟩ := Option.map_eq_some_iff.mp h
  obtain ⟨message, timestamp, hmessage, hts, rfl⟩ := recordMembers_eq hms
  have htype := length_stringValue_sanitize rec.type.text
  have hid := length_stringValue_sanitize rec.messageID
  have htexts := flaw_and_le (valid rec.type.text && valid rec.messageID) (rec.message.all Message.validTexts)
  have htwo := flaw_and_le (valid rec.type.text) (valid rec.messageID)
  obtain ⟨message', hmessage', hle⟩ : ∃ message', messageMember tt (rec.message.map Message.repaired) = some message' ∧
      membersSize message' + flaw (rec.message.all Message.validTexts) ≤ membersSize message := by
    rcases hmessage with ⟨hm, rfl⟩ | ⟨m, mms, hm, hmms, rfl⟩
    · exact ⟨[], by simp [hm, messageMember], by simp [hm, flaw]⟩
    · obtain ⟨mms', hmms', hle⟩ := length_messageMembers_repaired hmms
      refine ⟨[(RecordField.message.tag, .obj mms')], by simp [hm, messageMember, hmms'], ?_⟩
      simp only [membersSize_cons, membersSize_nil, hm, Option.all_some]
      omega
  have hid' : membersSize (if sanitize rec.messageID = [] then [] else
      [(RecordField.messageID.tag, stringValue (sanitize rec.messageID))]) + flaw (valid rec.messageID) ≤
        membersSize (if rec.messageID = [] then [] else [(RecordField.messageID.tag, stringValue rec.messageID)]) := by
    by_cases hnil : rec.messageID = []
    · simp only [hnil]
      decide
    · simp only [hnil, if_false, membersSize_cons, membersSize_nil]
      split <;> simp only [membersSize_cons, membersSize_nil] <;> omega
  simp only [jsonCodec, recordMembers, LogRecord.repaired, hmessage', hts, RecordType.text_ofText, Option.bind_eq_bind,
    Option.bind_some, Option.pure_def, Option.map_some]
  refine ⟨_, rfl, ?_⟩
  rw [length_print_obj_of_ne (by simp), length_print_obj_of_ne (by simp)]
  simp only [membersSize_append, membersSize_cons, LogRecord.validTexts]
  omega

theorem marshal_sum (h : (jsonCodec tt).marshal rec = some b) (sum : UInt32) :
    ∃ b', (jsonCodec tt).marshal { rec with checksum := sum } = some b' := by
  obtain ⟨ms, hms, -⟩ := Option.map_eq_some_iff.mp h
  simp only [recordMembers, Option.bind_eq_bind, Option.bind_eq_some_iff] at hms
  obtain ⟨message, hmessage, timestamp, hts, -⟩ := hms
  exact ⟨_, by simp only [jsonCodec, recordMembers, hmessage, hts]; rfl⟩

/-- **Which records survive their own checksum**: those with texts of UTF-8,
and the others only by a collision. -/
theorem validateRecord_written (h : (jsonCodec tt).marshal { rec with checksum := 0 } = some b) :
    validateRecord (jsonCodec tt) (resum (jsonCodec tt) rec).repaired = true ↔
      rec.validTexts = true ∨ rec.Collides tt := by
  obtain ⟨b', h', hlen⟩ := length_marshal_repaired h
  have hsums : checksumFor (jsonCodec tt) rec = crc32 b ∧ checksumFor (jsonCodec tt) rec.repaired = crc32 b' := by
    constructor
    · rw [checksumFor, h]
    · rw [checksumFor,
        show { rec.repaired with checksum := 0 } = LogRecord.repaired { rec with checksum := 0 } from rfl, h']
  rw [validateRecord_repaired, hsums.1, hsums.2]
  constructor
  · intro hsum
    by_cases hvalid : rec.validTexts = true
    · exact .inl hvalid
    · have hflaw : flaw (LogRecord.validTexts { rec with checksum := 0 }) = 1 := if_neg hvalid
      exact .inr ⟨b, b', h, h', by omega, hsum⟩
  · rintro (hvalid | ⟨_, _, hb, hb', -, hsum⟩)
    · rw [← hsums.1, ← hsums.2]
      exact .inr (checksumFor_repaired hvalid)
    · cases h.symm.trans hb
      cases h'.symm.trans hb'
      exact hsum

end RoundTrip

/-! ## The size of a record -/

/-- A bound for the text of a message: each byte of a string takes at most
six, the payload is in base64. -/
def Message.textSize (m : Message) : Nat :=
  6 * (m.id.length + m.topic.length) + 4 * ((m.payload.length + 2) / 3) + pairsSize m.headers + 234

def LogRecord.textSize (rec : LogRecord) : Nat :=
  6 * (rec.type.text.length + rec.messageID.length) + (rec.message.elim 0 fun m => m.textSize + 11) + 100

theorem natAbs_lt_of_int64 (h : -2 ^ 63 ≤ z ∧ z < 2 ^ 63) : z.natAbs < 10 ^ 19 := by omega

section Size

variable {b : List UInt8}

variable {tt : TimeText} {m : Message} {rec : LogRecord} {ms : List (GoString × Value)}

theorem length_time_le (h : tt.format t = some s) : (print (.str s)).length ≤ 37 := by
  have hlen := tt.length_le h
  simp only [print, length_cons, length_append, length_nil]
  omega

theorem membersSize_formatPointer_le {o text} (h : tt.formatPointer o = some text)
    (f : MessageField) : membersSize (text.map fun s => (f.tag, Value.str s)).toList ≤ f.tag.length + 41 := by
  rcases formatPointer_cases h with ⟨-, rfl⟩ | ⟨t, s, -, rfl, hs⟩
  · simp
  · have hlen := length_time_le hs
    simp only [Option.map_some, Option.toList_some, membersSize_cons, membersSize_nil]
    omega

theorem length_message_le (h : messageMembers tt m = some ms) : (print (.obj ms)).length ≤ m.textSize := by
  obtain ⟨timestamp, expiresAt, deliverAt, hts, hex, hdl, rfl⟩ := messageMembers_eq h
  have hid := length_stringValue_le m.id
  have htopic := length_stringValue_le m.topic
  have htime := length_time_le hts
  have hexpires := membersSize_formatPointer_le hex .expiresAt
  have hdeliver := membersSize_formatPointer_le hdl .deliverAt
  have hcount : (print (intValue m.retryCount.toInt)).length ≤ 20 :=
    Codec.length_formatInt_le (by decide) (natAbs_lt_of_int64 ⟨m.retryCount.le_toInt, m.retryCount.toInt_lt⟩)
  have hheaders : membersSize (if m.headers = [] then [] else
      [(MessageField.headers.tag, mapValue (ofList m.headers))]) ≤ pairsSize m.headers + 13 := by
    have hmap := length_mapValue_le (ofList m.headers)
    have hpairs := pairsSize_ofList_le m.headers
    split
    · simp
    · simp only [membersSize_cons, membersSize_nil]
      have htag : MessageField.headers.tag.length = 7 := by decide
      omega
  refine (length_print_obj _).2.trans ?_
  simp only [membersSize_append, membersSize_cons, membersSize_nil, length_bytesValue, Message.textSize]
  have htags : MessageField.id.tag.length = 2 ∧ MessageField.topic.tag.length = 5 ∧
    MessageField.payload.tag.length = 7 ∧
      MessageField.timestamp.tag.length = 9 ∧ MessageField.expiresAt.tag.length = 10 ∧
      MessageField.deliverAt.tag.length = 10 ∧ MessageField.retryCount.tag.length = 11 := by decide
  omega

/-- **The line of a record is no longer than its size.** -/
theorem length_marshal_le (h : (jsonCodec tt).marshal rec = some b) : b.length ≤ rec.textSize := by
  obtain ⟨ms, hms, rfl⟩ := Option.map_eq_some_iff.mp h
  obtain ⟨message, timestamp, hmessage, hts, rfl⟩ := recordMembers_eq hms
  have htags : RecordField.type.tag.length = 4 ∧ RecordField.message.tag.length = 7 ∧
    RecordField.messageID.tag.length = 10 ∧
      RecordField.timestamp.tag.length = 9 ∧ RecordField.checksum.tag.length = 8 := by decide
  have htype := length_stringValue_le rec.type.text
  have htime := length_time_le hts
  have hmsg : membersSize message ≤ rec.message.elim 0 fun m => m.textSize + 11 := by
    rcases hmessage with ⟨hm, rfl⟩ | ⟨m, mms, hm, hmms, rfl⟩
    · simp
    · have hlen := length_message_le hmms
      simp only [hm, Option.elim_some, membersSize_cons, membersSize_nil]
      omega
  have hid : membersSize (if rec.messageID = [] then [] else [(RecordField.messageID.tag, stringValue rec.messageID)]) ≤
      6 * rec.messageID.length + 16 := by
    have hlen := length_stringValue_le rec.messageID
    split
    · simp
    · simp only [membersSize_cons, membersSize_nil]
      omega
  have hsum : membersSize (if rec.checksum = 0 then [] else
      [(RecordField.checksum.tag, Value.num (Codec.decimal rec.checksum.toNat))]) ≤ 22 := by
    have hdigits : (Codec.decimal rec.checksum.toNat).length ≤ 10 :=
      Codec.length_decimal_le (by decide) (rec.checksum.toNat_lt.trans (by decide))
    split
    · simp
    · simp only [membersSize_cons, membersSize_nil, print]
      omega
  refine (length_print_obj _).2.trans ?_
  simp only [membersSize_append, membersSize_cons, LogRecord.textSize]
  omega

theorem length_header_le {k v : List UInt8} (hmessage : rec.message = some m)
    (hkv : (k, v) ∈ ofList m.headers) (h : (jsonCodec tt).marshal rec = some b) : (quote v).length ≤ b.length := by
  obtain ⟨ms, hms, rfl⟩ := Option.map_eq_some_iff.mp h
  obtain ⟨message, timestamp, hmember, -, hmembers⟩ := recordMembers_eq hms
  rcases hmember with ⟨hm, -⟩ | ⟨m', mms, hm, hmms, hmember⟩
  · rw [hmessage] at hm
    cases hm
  rw [hmessage, Option.some.injEq] at hm
  subst hm
  have hne : m.headers ≠ [] := fun hnil => by
    rw [hnil] at hkv
    cases hkv
  have hheaders : (MessageField.headers.tag, mapValue (ofList m.headers)) ∈ mms := by
    obtain ⟨_, _, _, -, -, -, heq⟩ := messageMembers_eq hmms
    rw [heq, if_neg hne]
    simp
  have hobj : (RecordField.message.tag, Value.obj mms) ∈ ms := by
    rw [hmembers, hmember]
    simp
  have hvalue : (quote v).length < (print (stringValue v)).length := by
    simp only [stringValue, print, length_cons, length_append]
    omega
  have hmap : (print (stringValue v)).length < (print (mapValue (ofList m.headers))).length :=
    length_member_lt (m := (quote k, stringValue v)) (List.mem_map.mpr ⟨(k, v), hkv, rfl⟩)
  have hinner := length_member_lt hheaders
  have houter := length_member_lt hobj
  exact ((hvalue.trans hmap).trans (hinner.trans houter)).le

end Size

/-- Times as the numbers of their nanoseconds. -/
def unixText : TimeText where
  format t := if -2 ^ 63 ≤ t ∧ t < 2 ^ 63 then some (Codec.formatInt t) else none
  parse s := Codec.scanInt s
  zero := 0
  parse_format := by
    intro t s h
    split at h
    next ht =>
      cases h
      exact Codec.scanInt_formatInt ht
    next => cases h
  raw := by
    intro t s h
    split at h
    next =>
      cases h
      exact fun b hb => isRaw_of_isPlain (Codec.isPlain_formatInt t b hb)
    next => cases h
  length_le := by
    intro t s h
    split at h
    next ht =>
      cases h
      exact (Codec.length_formatInt_le (by decide) (natAbs_lt_of_int64 ht)).trans (by decide)
    next => cases h

end TinyMQ
