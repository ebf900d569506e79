/-
The command loop of the NATS gateway (`internal/transport/nats`).

The loop reads a line, and `PUB` then reads as many bytes as its line says.
A `PUB` that is refused reads nothing: the loop goes on with the payload as
if it were commands. `serve_frames` says what is published from a stream of
frames when no line of a refused payload starts with a command.
-/
import TinyMQ.Gateways
import TinyMQ.Frames
import Mathlib.Data.List.DropRight

namespace TinyMQ

open List Text

namespace Nats

open Cluster (trimSpaces)
open Stream (readFull readDelim drain)

/-! ## Lines -/

/-- `strings.TrimRight(line, "\r\n")`. -/
def trimRight (line : GoString) : GoString := line.rdropWhile fun c => c = 13 || c = 10

/-- `strings.ToUpper`, with the two letters outside ASCII whose upper case is
in it; the others, which are in no command, are left as they are. -/
def toUpper : GoString → GoString
  | 0xC4 :: 0xB1 :: s => 73 :: toUpper s
  | 0xC5 :: 0xBF :: s => 83 :: toUpper s
  | c :: s => (if 97 ≤ c ∧ c ≤ 122 then c - 32 else c) :: toUpper s
  | [] => []

inductive Verb
  | connect
  | pub
  | sub
  | unsub
  | ping
  | pong
  | unknown
  deriving DecidableEq, Repr

def Verb.ofString (s : GoString) : Verb :=
  if s = ascii "CONNECT" then .connect
  else if s = ascii "PUB" then .pub
  else if s = ascii "SUB" then .sub
  else if s = ascii "UNSUB" then .unsub
  else if s = ascii "PING" then .ping
  else if s = ascii "PONG" then .pong
  else .unknown

def verb (fields : List GoString) : Verb := .ofString (toUpper (trimSpaces (fields.headD [])))

def fieldsOf (line : GoString) : List GoString := splitN 32 4 line

/-- `strconv.Atoi`. -/
def atoi (s : GoString) : Option Int := if (Codec.scanSign s).2.all Codec.isDigit then Codec.scanInt s else none

def natsErr (reason : GoString) : GoString := ascii "-ERR '" ++ reason ++ ascii "'\r\n"

/-! ## Commands -/

/-- The environment of the server; the candidates of a `CONNECT` are what its
JSON has as `auth_token`, `pass` and `user`. -/
structure Server where
  hub : Hub
  apiKey : GoString
  candidates : GoString → Option (List GoString)

inductive Event
  | write (text : GoString)
  | publish (topic : GoString) (payload : List UInt8)
  | removeSpy (subject : GoString) (ch : Spy)
  deriving DecidableEq, Repr

/-- How the loop is left: what it does last, and the connection. -/
structure End where
  events : List Event
  conn : Conn

instance : Inhabited End := ⟨[], true, ∅, 0⟩

def handleConnect (srv : Server) (fields : List GoString) : Option GoString :=
  if fields.length < 2 then some (ascii "CONNECT requires a JSON argument")
  else
    match srv.candidates ([32].intercalate fields.tail) with
    | none => some (ascii "CONNECT payload is not valid JSON")
    | some candidates =>
      if srv.apiKey = [] then none
      else if candidates.any fun c => c ≠ [] && c = srv.apiKey then none
      else some (ascii "Authorization Violation")

def maxPayload : Nat := 2 <<< 20

/-- `reader.ReadString('\n')`, whose result is not looked at. -/
def skipLine (s : List UInt8) : List UInt8 := ((readDelim 10 s).map Prod.snd).getD []

/-- `handlePub` up to the call of `Publish`: the topic and the payload, or an
error, and what is left of the stream. -/
def readPub (fields : List GoString) (s : List UInt8) : Except GoString (GoString × List UInt8) × List UInt8 :=
  match fields with
  | _ :: subject :: size :: _ =>
    let sizeStr := trimSpaces size
    match atoi sizeStr with
    | none => (.error (ascii "PUB invalid byte count: " ++ sizeStr), s)
    | some size =>
      if size < 0 then (.error (ascii "PUB invalid byte count: " ++ sizeStr), s)
      else if maxPayload < size then
        (.error (ascii "PUB payload exceeds maximum size (" ++ Codec.decimal maxPayload ++ ascii " bytes)"), s)
      else
        let topic := translateSubject subject
        if !isValidTopicName topic then (.error (ascii "PUB invalid subject: " ++ subject), s)
        else
          match readFull size.toNat s with
          | none => (.error (ascii "PUB failed to read payload: " ++ Ws.readFullError s), [])
          | some (payload, s) => (.ok (topic, payload), skipLine s)
  | _ => (.error (ascii "PUB requires subject and byte count"), s)

/-- The `-ERR` for an error, nothing for `nil`. -/
def report (err : Option GoString) : List Event := (err.map fun e => Event.write (natsErr e)).toList

def handlePub (hub : Hub) (c : Conn) (fields : List GoString) (s : List UInt8) : List Event × (Conn × List UInt8) :=
  match readPub fields s with
  | (.error e, s) => (report (some e), (c, s))
  | (.ok (topic, payload), s) =>
    (.publish topic payload :: report (hub.publish c.asked topic payload), ({ c with asked := c.asked + 1 }, s))

def handleUnsub (c : Conn) : List GoString → List Event × Conn
  | _ :: sid :: _ =>
    let sid := trimSpaces sid
    match c.subs.lookup sid with
    | none => ([], c)
    | some sub => ([.removeSpy sub.subject sub.ch], { c with subs := c.subs.erase sid })
  | _ => ([], c)

/-- The `switch` of `handleClient`. -/
def handleLine (srv : Server) (c : Conn) (fields : List GoString) (s : List UInt8) :
    Except End (List Event × (Conn × List UInt8)) :=
  let unauthorized : End := ⟨report (some (ascii "Authorization Violation")), c⟩
  match verb fields with
  | .connect =>
    match handleConnect srv fields with
    | some e => .error ⟨report (some e), c⟩
    | none => .ok ([.write (ascii "+OK\r\n")], ({ c with authenticated := true }, s))
  | .pub => if c.authenticated then .ok (handlePub srv.hub c fields s) else .error unauthorized
  | .sub =>
    if c.authenticated then
      let (err, c) := handleSub srv.hub c fields
      .ok (report err, (c, s))
    else .error unauthorized
  | .unsub =>
    if c.authenticated then
      let (events, c) := handleUnsub c fields
      .ok (events, (c, s))
    else .error unauthorized
  | .ping => .ok ([.write (ascii "PONG\r\n")], (c, s))
  | .pong => .ok ([.write (ascii "PING\r\n")], (c, s))
  | .unknown => .ok (report (some (ascii "Unknown Protocol Operation")), (c, s))

/-- One pass of the loop of `handleClient`. -/
def next (srv : Server) : Conn × List UInt8 → Except End (List Event × (Conn × List UInt8))
  | (c, s) =>
    match readDelim 10 s with
    | none => .error ⟨[], c⟩
    | some (line, s) =>
      let line := trimRight line
      if line = [] then .ok ([], (c, s)) else handleLine srv c (fieldsOf line) s

/-- The loop of `handleClient`: what it does, and the connection at its end. -/
def serve (srv : Server) (c : Conn) (s : List UInt8) : List Event × Conn :=
  let (events, e) := drain (next srv) (fun s => s.2.length) (c, s)
  (events.flatten ++ e.events, e.conn)

def info (srv : Server) : GoString :=
  ascii "INFO \x7b\"server_id\":\"tinymq\",\"version\":\"2.8.5\",\"proto\":1,\"max_payload\":" ++
    Codec.decimal maxPayload ++ ascii ",\"auth_required\":" ++ ascii (if srv.apiKey = [] then "false" else "true") ++
    ascii "\x7d\r\n"

/-- `handleClient` on the bytes of a connection. At the end the spies are
removed, in the order of the map. -/
def handleClient (srv : Server) (s : List UInt8) : List Event :=
  let (events, c) := serve srv ⟨srv.apiKey = [], ∅, 0⟩ s
  .write (info srv) :: events ++ c.subs.entries.map fun sub => .removeSpy sub.2.subject sub.2.ch

/-- What `handleClient` hands to `broker.Publish`. -/
def published (events : List Event) : List (GoString × List UInt8) :=
  events.filterMap fun
    | .publish topic payload => some (topic, payload)
    | _ => none

theorem published_append (as bs : List Event) : published (as ++ bs) = published as ++ published bs :=
  filterMap_append

theorem published_report (err : Option GoString) : published (report err) = [] := by cases err <;> rfl

theorem skipLine_length (s : List UInt8) : (skipLine s).length ≤ s.length := by
  unfold skipLine
  cases h : readDelim 10 s with
  | none => simp
  | some r => exact Nat.le_of_lt (Stream.readDelim_length h)

theorem readPub_length (fields : List GoString) (s : List UInt8) : (readPub fields s).2.length ≤ s.length := by
  unfold readPub
  split
  next first subject size rest =>
    dsimp only
    split
    next => exact Nat.le_refl _
    next size' hsize =>
      split
      next => exact Nat.le_refl _
      split
      next => exact Nat.le_refl _
      split
      next => exact Nat.le_refl _
      split
      next => exact Nat.zero_le _
      next payload s' hread =>
        have hle := Stream.readFull_length hread
        have hskip := skipLine_length s'
        simp only
        omega
  next => exact Nat.le_refl _

theorem handleLine_length (h : handleLine srv c fields s = .ok (events, (c', s'))) : s'.length ≤ s.length := by
  have hpub := readPub_length fields s
  unfold handleLine at h
  dsimp only at h
  split at h
  next =>
    split at h
    next => cases h
    next => cases h; exact Nat.le_refl _
  next =>
    split at h
    next =>
      simp only [handlePub, Except.ok.injEq] at h
      split at h
      next e s₁ hread => rw [hread] at hpub; cases h; exact hpub
      next topic payload s₁ hread => rw [hread] at hpub; cases h; exact hpub
    next => cases h
  next =>
    split at h
    next => cases h; exact Nat.le_refl _
    next => cases h
  next =>
    split at h
    next => cases h; exact Nat.le_refl _
    next => cases h
  next => cases h; exact Nat.le_refl _
  next => cases h; exact Nat.le_refl _
  next => cases h; exact Nat.le_refl _

theorem next_shrinks (srv : Server) : Stream.Shrinks (next srv) fun s => s.2.length := by
  rintro ⟨c, s⟩ events ⟨c', s'⟩ h
  simp only [next] at h
  split at h
  next => cases h
  next line s₁ hread =>
    have hlt := Stream.readDelim_length hread
    split at h
    next => cases h; exact hlt
    next => exact Nat.lt_of_le_of_lt (handleLine_length h) hlt

theorem serve_of_ok (h : next srv (c, s) = .ok (events, (c', s'))) :
    serve srv c s = (events ++ (serve srv c' s').1, (serve srv c' s').2) := by
  rw [serve, Stream.drain_ok (next_shrinks srv) h]
  simp [serve]

/-! ## Frames -/

/-- `PUB subject n CRLF payload CRLF`. -/
structure PubFrame where
  subject : GoString
  payload : List UInt8
  deriving DecidableEq, Repr

namespace PubFrame

def header (f : PubFrame) : GoString :=
  ascii "PUB" ++ 32 :: (f.subject ++ 32 :: Codec.decimal f.payload.length)

def bytes (f : PubFrame) : List UInt8 := f.header ++ [13, 10] ++ (f.payload ++ [13, 10])

/-- The topic the payload is published to. -/
def topic (f : PubFrame) : GoString := translateSubject f.subject

/-- The subject is valid and the payload within the limit. -/
def accepted (f : PubFrame) : Bool := isValidTopicName f.topic && decide (f.payload.length ≤ maxPayload)

end PubFrame

/-- The command of a line as it stands in the stream. -/
def lineVerb (line : GoString) : Verb := verb (fieldsOf (trimRight line))

/-- No line of the payload starts with a command. -/
def Inert (payload : List UInt8) : Prop := ∀ line ∈ payload.splitOn 10, lineVerb line = .unknown

instance : DecidablePred Inert := fun _ => by
  unfold Inert
  infer_instance

theorem trimRight_lineEnd (line : GoString) (hc : c = 13 ∨ c = 10) : trimRight (line ++ [c]) = trimRight line := by
  rw [trimRight, rdropWhile_concat_pos _ _ _ (by rcases hc with rfl | rfl <;> rfl), trimRight]

theorem trimRight_eq_self (hc : c ≠ 13 ∧ c ≠ 10) : trimRight (line ++ [c]) = line ++ [c] := by
  rw [trimRight, rdropWhile_concat_neg _ _ _ (by simp [hc.1, hc.2])]

theorem next_unknown (srv : Server) (hline : 10 ∉ line) (h : lineVerb line = .unknown)
    (rest : List UInt8) : ∃ events, published events = [] ∧ next srv (c, line ++ 10 :: rest) =
      .ok (events, (c, rest)) := by
  have htrim : trimRight (line ++ [10]) = trimRight line := trimRight_lineEnd line (.inr rfl)
  simp only [next, Stream.readDelim_append hline, htrim]
  split
  next => exact ⟨[], rfl, rfl⟩
  next =>
    have hverb : verb (fieldsOf (trimRight line)) = .unknown := h
    simp only [handleLine, hverb]
    exact ⟨_, published_report _, rfl⟩

/-- **A payload that is read as commands and has none.** -/
theorem serve_inert (srv : Server) (h : Inert payload) (rest : List UInt8) : ∃ events, published events = [] ∧
      serve srv c (payload ++ 13 :: 10 :: rest) = (events ++ (serve srv c rest).1, (serve srv c rest).2) := by
  induction hn : payload.length using Nat.strong_induction_on generalizing payload with
  | _ n ih =>
    by_cases hmem : 10 ∈ payload
    · -- The first line, and then the others.
      obtain ⟨line, more, rfl, hline⟩ := eq_append_cons_of_mem hmem
      have hsplit : (line ++ 10 :: more).splitOn 10 = line :: more.splitOn 10 := by
        rw [splitOn_append_cons_self, splitOn_eq_singleton hline]
        rfl
      have hfirst : lineVerb line = .unknown := h line (by rw [hsplit]; exact mem_cons_self)
      have hmore : Inert more := fun l hl => h l (by rw [hsplit]; exact mem_cons_of_mem _ hl)
      obtain ⟨events, hnone, hnext⟩ := next_unknown srv (c := c) hline hfirst (more ++ 13 :: 10 :: rest)
      obtain ⟨events', hnone', hserve⟩ := ih more.length (by rw [← hn]; simp; omega) hmore rfl
      refine ⟨events ++ events', by rw [published_append, hnone, hnone']; rfl, ?_⟩
      rw [append_assoc, cons_append, serve_of_ok hnext, hserve, append_assoc]
    · -- The last line ends with the line end of the frame.
      have hlast : lineVerb (payload ++ [13]) = .unknown := by
        have hsingle : payload.splitOn 10 = [payload] := splitOn_eq_singleton hmem
        rw [lineVerb, trimRight_lineEnd payload (.inl rfl)]
        exact h payload (by rw [hsingle]; exact mem_cons_self)
      obtain ⟨events, hnone, hnext⟩ := next_unknown srv (c := c) (by simpa using hmem) hlast rest
      refine ⟨events, hnone, ?_⟩
      rw [show payload ++ 13 :: 10 :: rest = (payload ++ [13]) ++ 10 :: rest by simp]
      exact serve_of_ok hnext

/-! ### One frame -/

theorem formatInt_natCast (n : Nat) : Codec.formatInt n = Codec.decimal n := by simp [Codec.formatInt]

theorem decimal_digits (n : Nat) : ∀ c ∈ Codec.decimal n, Codec.isPlain c = true := by
  rw [← formatInt_natCast]
  exact Codec.isPlain_formatInt n

theorem trimSpaces_decimal (n : Nat) : trimSpaces (Codec.decimal n) = Codec.decimal n := by
  have hplain := decimal_digits n
  have hne := (Codec.decimal_spec n).2.2
  refine trim_eq_self ?_ ?_
  · obtain ⟨c, cs, hcs⟩ := exists_cons_of_ne_nil hne
    rw [hcs] at hplain ⊢
    exact Cluster.not_space_start (hplain c mem_cons_self)
  · obtain ⟨cs, c, hcs⟩ := eq_nil_or_concat (Codec.decimal n) |>.resolve_left hne
    rw [concat_eq_append] at hcs
    rw [hcs] at hplain ⊢
    exact Cluster.not_space_end (hplain c (by simp))

theorem atoi_decimal (n : Nat) : atoi (Codec.decimal n) = if n < 2 ^ 63 then some (n : Int) else none := by
  obtain ⟨hdigits, hvalue, hne⟩ := Codec.decimal_spec n
  rw [atoi, Codec.scanSign_decimal, if_pos (List.all_eq_true.mpr hdigits)]
  split
  next hn =>
    rw [← formatInt_natCast]
    exact Codec.scanInt_formatInt (by omega)
  next hn =>
    have hall : (Codec.decimal n).takeWhile Codec.isDigit = Codec.decimal n :=
      takeWhile_eq_self_iff.mpr hdigits
    have hrange : ¬ (-2 ^ 63 ≤ (n : Int) ∧ (n : Int) < 2 ^ 63) := by omega
    simp only [Codec.scanInt, Codec.scanSign_decimal, hall, hne, if_false, hvalue,
      Bool.false_eq_true, if_neg hrange]

theorem header_fields {f : PubFrame} (hblank : 32 ∉ f.subject) :
    fieldsOf f.header = [ascii "PUB", f.subject, Codec.decimal f.payload.length] := by
  have hsize : 32 ∉ Codec.decimal f.payload.length := Cluster.not_blank_of_isPlain (decimal_digits _)
  rw [fieldsOf, PubFrame.header, splitN_cons 2 (by decide), splitN_cons 1 hblank,
    splitN_last 1 hsize]

theorem next_header (srv : Server) {c : Conn} {f : PubFrame} (hauth : c.authenticated = true)
    (hblank : 32 ∉ f.subject) (hline : 10 ∉ f.subject) (rest : List UInt8) :
    next srv (c, f.bytes ++ rest) = .ok (handlePub srv.hub c
      [ascii "PUB", f.subject, Codec.decimal f.payload.length] (f.payload ++ 13 :: 10 :: rest)) := by
  have hplain := decimal_digits f.payload.length
  obtain ⟨ds, d, hds⟩ := eq_nil_or_concat (Codec.decimal f.payload.length) |>.resolve_left
    (Codec.decimal_spec _).2.2
  rw [concat_eq_append] at hds
  have hd : Codec.isPlain d = true := hplain d (by rw [hds]; simp)
  have hend : d ≠ 13 ∧ d ≠ 10 := by
    constructor <;> rintro rfl <;> exact absurd hd (by decide)
  have hno : 10 ∉ f.header ++ [13] := by
    have hsize : 10 ∉ Codec.decimal f.payload.length := Cluster.not_break_of_isPlain hplain
    simp only [PubFrame.header, mem_append, mem_cons, not_or]
    exact ⟨⟨by decide, by decide, hline, by decide, hsize⟩, by decide⟩
  have htrim : trimRight (f.header ++ [13] ++ [10]) = f.header := by
    have hshape : f.header = ascii "PUB" ++ 32 :: (f.subject ++ 32 :: ds) ++ [d] := by
      simp [PubFrame.header, hds]
    rw [trimRight_lineEnd _ (.inr rfl), trimRight_lineEnd _ (.inl rfl), hshape, trimRight_eq_self hend]
  have hbytes : f.bytes ++ rest = (f.header ++ [13]) ++ 10 :: (f.payload ++ 13 :: 10 :: rest) := by
    simp [PubFrame.bytes]
  have hne : f.header ≠ [] := by simp [PubFrame.header]
  have hverb : verb [ascii "PUB", f.subject, Codec.decimal f.payload.length] = .pub := by
    rw [verb, headD_cons]
    decide
  simp only [next, hbytes, Stream.readDelim_append hno, htrim, if_neg hne, header_fields hblank,
    handleLine, hverb, hauth,
    if_true]

theorem readPub_frame (f : PubFrame) (rest : List UInt8) : (f.accepted = true ∧
      readPub [ascii "PUB", f.subject, Codec.decimal f.payload.length] (f.payload ++ 13 :: 10 :: rest) =
        (.ok (f.topic, f.payload), rest)) ∨ (f.accepted = false ∧ ∃ e,
      readPub [ascii "PUB", f.subject, Codec.decimal f.payload.length] (f.payload ++ 13 :: 10 :: rest) =
        (.error e, f.payload ++ 13 :: 10 :: rest)) := by
  simp only [readPub, trimSpaces_decimal, atoi_decimal]
  by_cases hlimit : f.payload.length ≤ maxPayload
  · have hsmall : f.payload.length ≤ 2097152 := hlimit
    have hint : f.payload.length < 2 ^ 63 := by omega
    have hneg : ¬ ((f.payload.length : Int) < 0) := by omega
    have hmax : ¬ ((maxPayload : Int) < f.payload.length) := by omega
    simp only [if_pos hint, if_neg hneg, if_neg hmax]
    by_cases hvalid : isValidTopicName (translateSubject f.subject) = true
    · have hread : readFull (f.payload.length : Int).toNat (f.payload ++ 13 :: 10 :: rest) =
          some (f.payload, 13 :: 10 :: rest) := Stream.readFull_append (Int.toNat_natCast _).symm _
      have hskip : skipLine (13 :: 10 :: rest) = rest := rfl
      simp only [hvalid, Bool.not_true, Bool.false_eq_true, if_false, hread, hskip]
      exact .inl ⟨by simp [PubFrame.accepted, PubFrame.topic, hvalid, hlimit], rfl⟩
    · refine .inr ⟨by simp [PubFrame.accepted, PubFrame.topic, hvalid], ?_⟩
      simp only [hvalid, Bool.not_false, if_true]
      exact ⟨_, rfl⟩
  · have hrejected : f.accepted = false := by simp [PubFrame.accepted, hlimit]
    refine .inr ⟨hrejected, ?_⟩
    by_cases hint : f.payload.length < 2 ^ 63
    · have hneg : ¬ ((f.payload.length : Int) < 0) := by omega
      have hmax : (maxPayload : Int) < f.payload.length := by omega
      simp only [if_pos hint, if_neg hneg, if_pos hmax]
      exact ⟨_, rfl⟩
    · simp only [if_neg hint]
      exact ⟨_, rfl⟩

theorem not_break_of_accepted {f : PubFrame} (h : f.accepted = true) : 10 ∉ f.subject := by
  simp only [PubFrame.accepted, Bool.and_eq_true] at h
  rcases stem_of_valid h.1 with ⟨hplain, -⟩ | ⟨p, c, hsubject, -, hp, hc⟩
  · exact not_newline_of_validTopicRegex hplain
  · have h10 : 10 ∉ p := Mqtt.not_mem_of_topicBytes hp (by decide)
    rw [hsubject]
    rcases hc with ⟨rfl, -⟩ | rfl <;> simpa using h10

/-- A frame that is refused is one a stream can go on after. -/
def PubFrame.Harmless (f : PubFrame) : Prop := f.accepted = false → 10 ∉ f.subject ∧ Inert f.payload

instance : DecidablePred PubFrame.Harmless := fun _ => by
  unfold PubFrame.Harmless
  infer_instance

def PubFrame.pairs (f : PubFrame) : List (GoString × List UInt8) := if f.accepted then [(f.topic, f.payload)] else []

theorem serve_frame (srv : Server) {c : Conn} {f : PubFrame} (hauth : c.authenticated = true)
    (hblank : 32 ∉ f.subject) (hf : f.Harmless) (rest : List UInt8) : ∃ events c', published events = f.pairs ∧
      (c'.authenticated = true ∧ c'.subs = c.subs) ∧
      serve srv c (f.bytes ++ rest) = (events ++ (serve srv c' rest).1, (serve srv c' rest).2) := by
  rcases readPub_frame f rest with ⟨haccepted, hread⟩ | ⟨hrefused, e, hread⟩
  · have hnext := next_header srv hauth hblank (not_break_of_accepted haccepted) rest
    simp only [handlePub, hread] at hnext
    refine ⟨_, { c with asked := c.asked + 1 }, ?_, ⟨hauth, rfl⟩, serve_of_ok hnext⟩
    rw [PubFrame.pairs, if_pos haccepted]
    exact congrArg (_ :: ·) (published_report _)
  · obtain ⟨hline, hinert⟩ := hf hrefused
    have hnext := next_header srv hauth hblank hline rest
    simp only [handlePub, hread] at hnext
    obtain ⟨events, hnone, hserve⟩ := serve_inert srv (c := c) hinert rest
    refine ⟨report (some e) ++ events, c, ?_, ⟨hauth, rfl⟩, ?_⟩
    · rw [published_append, published_report, hnone, PubFrame.pairs, hrefused]
      rfl
    · rw [serve_of_ok hnext, hserve, append_assoc]

/-- **What a stream of frames publishes**: the frames that are accepted, in
their order, as long as the payload of a frame that is refused has no line
that starts with a command. No subscription is made or given up. -/
theorem serve_frames {srv : Server} {c : Conn} {frames : List PubFrame} (hauth : c.authenticated = true)
    (hblank : ∀ f ∈ frames, 32 ∉ f.subject) (hf : ∀ f ∈ frames, f.Harmless) :
    published (serve srv c (frames.flatMap PubFrame.bytes)).1 =
        (frames.filter PubFrame.accepted).map (fun f => (f.topic, f.payload)) ∧
      (serve srv c (frames.flatMap PubFrame.bytes)).2.subs = c.subs := by
  induction frames generalizing c with
  | nil => exact ⟨rfl, rfl⟩
  | cons f frames ih =>
    obtain ⟨events, c', hpairs, ⟨hauth', hsubs⟩, hserve⟩ := serve_frame srv hauth (hblank f mem_cons_self)
      (hf f mem_cons_self) (frames.flatMap PubFrame.bytes)
    obtain ⟨hrest, hsubs'⟩ := ih hauth' (fun g hg => hblank g (mem_cons_of_mem f hg))
      fun g hg => hf g (mem_cons_of_mem f hg)
    rw [flatMap_cons, hserve]
    refine ⟨?_, hsubs'.trans hsubs⟩
    rw [published_append, hpairs, hrest, filter_cons, PubFrame.pairs]
    split <;> rfl

def Server.sample : Server := ⟨.sample, [], fun _ => some []⟩

/-- A frame whose payload is a command, one that is refused, and one more. -/
def sampleFrames : List PubFrame :=
  [⟨ascii "a", ascii "x\r\nPUB b 1\r\n"⟩, ⟨ascii "a..b", ascii "not a\ncommand"⟩, ⟨ascii "c.>", []⟩]

theorem serve_frames_sample : (∀ f ∈ sampleFrames, 32 ∉ f.subject) ∧ (∀ f ∈ sampleFrames, f.Harmless) ∧
    published (serve .sample ⟨true, ∅, 0⟩ (sampleFrames.flatMap PubFrame.bytes)).1 =
      [(ascii "a", ascii "x\r\nPUB b 1\r\n"), (ascii "c.*", [])] := by
  have hblank : ∀ f ∈ sampleFrames, 32 ∉ f.subject := by decide
  have hf : ∀ f ∈ sampleFrames, f.Harmless := by decide +kernel
  exact ⟨hblank, hf, (serve_frames rfl hblank hf).1.trans (by decide +kernel)⟩

/-- A frame that is refused for its subject, with a command as its payload. -/
def smuggling : PubFrame := ⟨ascii "a..b", ascii "PUB x 0\r\n"⟩

/-- The payload of a frame that is refused is executed. -/
theorem serve_smuggling : 32 ∉ smuggling.subject ∧ smuggling.accepted = false ∧
    published (serve .sample ⟨true, ∅, 0⟩ smuggling.bytes).1 = [(ascii "x", [])] := by
  decide +kernel

end Nats

end TinyMQ
