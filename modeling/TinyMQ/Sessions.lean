/-
The gates of the gateways: which bytes on a connection reach the broker.

A connection of MQTT or NATS is a loop of passes over a stream, one packet
or one line each. With a key set, a pass calls the broker only behind one
that has read a CONNECT with the key (`gateways_gated`): the sessions start
closed, and no other pass opens them (`Stream.Path.closed`).
-/
import TinyMQ.Mqtt
import TinyMQ.Nats

namespace TinyMQ

open List Proc

namespace Mqtt

namespace Session

/-! ## The loop of an MQTT connection -/

instance : Inhabited Conn := ⟨.new⟩

/-- One pass of the loop of `handleClient`; it is left with the connection
as it is then. -/
def next (srv : Server) : Conn × List UInt8 → Except Conn (Packet × (Conn × List UInt8))
  | (c, s) =>
    match readPacket (some maxPacketSize) s with
    | .error _ => .error c
    | .ok (p, s) =>
      match processPacket srv p c with
      | (some none, c) => .ok (p, (c, s))
      | (_, c) => .error c

/-- `handleClient` on the bytes of a connection: the connection at its end,
with its spies removed in the order of the map. -/
def handleClient (srv : Server) (s : List UInt8) : Conn :=
  let c := (Stream.drain (next srv) (fun s => s.2.length) (.new, s)).2
  { c with subs := { c.subs with
    spies := ∅
    removed := c.subs.removed ++ c.subs.spies.entries.map fun e => (e.1, e.2) } }

/-- The calls of `Publish` and `RemoveSpy`, and how many of `Publish` and
`AddSpy` there were. -/
def Conn.calls (c : Conn) : List (GoString × List UInt8) × List (GoString × Spy) × Nat :=
  (c.published, c.subs.removed, c.subs.asked)

def after (srv : Server) (x : Conn × List UInt8) : Conn :=
  match next srv x with
  | .ok (_, (c, _)) => c
  | .error c => c

/-- The body of a CONNECT with the key as its user name or its password. -/
def Presents (key : GoString) (payload : List UInt8) : Prop :=
  ∃ protoName connFlags keepAlive clientID username rest, payload =
      field protoName ++ 4 :: connFlags :: (keepAlive ++ (field clientID ++ (field username ++ rest))) ∧
    keepAlive.length = 2 ∧ connFlags &&& 0x80 ≠ 0 ∧
    (username = key ∨ connFlags &&& 0x40 ≠ 0 ∧ ∃ rest', rest = field key ++ rest')

/-- The pass at a state reads a CONNECT with the key. -/
def Opens (srv : Server) (x : Conn × List UInt8) : Prop :=
  ∃ p rest, readPacket (some maxPacketSize) x.2 = .ok (p, rest) ∧ p.pType = packetConnect ∧
    Presents srv.apiKey p.payload

/-! ## What CONNECT does -/

/-- The program does not call the broker or change its spies, and it connects
only when `P` holds. -/
def Guarded {α : Type} (x : Proc Conn α) (P : Prop) : Prop :=
  ∀ c, (x c).2.subs = c.subs ∧ (x c).2.published = c.published ∧ ((x c).2.connected = true → c.connected = true ∨ P)

section Guarded

variable {α β : Type} {x : Proc Conn α} {f : α → Proc Conn β} {P Q : Prop} {srv : Server}

theorem guarded_pure (a : α) : Guarded (pure a) P := fun _ => ⟨rfl, rfl, .inl⟩

theorem guarded_write (data : List UInt8) : Guarded (write srv data) P := fun _ => ⟨rfl, rfl, .inl⟩

theorem Guarded.bind (hx : Guarded x P) (hf : ∀ a, Guarded (f a) P) : Guarded (x >>= f) P := by
  intro c
  obtain ⟨hsubs, hpub, hconn⟩ := hx c
  rw [bind_apply]
  cases h : x c with
  | mk r c₁ =>
    rw [h] at hsubs hpub hconn
    cases r with
    | none => exact ⟨hsubs, hpub, hconn⟩
    | some a =>
      obtain ⟨hsubs', hpub', hconn'⟩ := hf a c₁
      refine ⟨hsubs'.trans hsubs, hpub'.trans hpub, fun h => ?_⟩
      exact (hconn' h).elim hconn .inr

theorem Guarded.mono (h : Guarded x P) (hP : P → Q) : Guarded x Q := fun c =>
  ⟨(h c).1, (h c).2.1, fun hc => ((h c).2.2 hc).imp_right hP⟩

theorem guarded_authenticate (hkey : srv.apiKey ≠ []) (hasUsername hasPassword : Bool) (username password : GoString) :
    Guarded (authenticate srv hasUsername hasPassword username password)
      (hasPassword = true ∧ password = srv.apiKey ∨ hasUsername = true ∧ username = srv.apiKey) := by
  unfold authenticate
  split
  next => exact (guarded_write _).bind fun _ => guarded_pure _
  next hvalid =>
    refine Guarded.bind (fun c => ⟨rfl, rfl, fun _ => .inr ?_⟩) fun _ => guarded_write _
    grind

end Guarded

theorem readOptional_reads (present : Bool) (buf : List UInt8) (offset : Nat) :
    ∃ r next, readOptional present buf offset = pure (r, next) ∧
      ∀ s, r = .ok s → if present then buf.drop offset = field s ++ buf.drop next else next = offset := by
  unfold readOptional
  split
  next hpresent =>
    obtain ⟨r, next, hr, hreads⟩ := readString_reads buf offset
    exact ⟨r, next, hr, fun s hs => (hreads.ok hs).1⟩
  next => exact ⟨_, _, rfl, fun s hs => rfl⟩

theorem guarded_readCredentials {srv : Server} (hkey : srv.apiKey ≠ []) (connFlags : UInt8) (payload : List UInt8)
    (offset : Nat) : Guarded (readCredentials srv connFlags payload offset) (∃ clientID username rest,
      payload.drop offset = field clientID ++ (field username ++ rest) ∧ connFlags &&& 0x80 ≠ 0 ∧
      (username = srv.apiKey ∨ connFlags &&& 0x40 ≠ 0 ∧ ∃ rest', rest = field srv.apiKey ++ rest')) := by
  obtain ⟨r, next, hr, hreads⟩ := readString_reads payload offset
  rw [readCredentials, hr, pure_bind]
  cases r with
  | error e => exact guarded_pure _
  | ok clientID =>
    have hclient := (hreads.ok rfl).1
    dsimp only
    split
    next => exact (guarded_write _).bind fun _ => guarded_pure _
    next hflags =>
      obtain ⟨r₁, next₁, hr₁, hreads₁⟩ := readOptional_reads (connFlags &&& 0x80 != 0) payload next
      rw [hr₁, pure_bind]
      cases r₁ with
      | error e => exact guarded_pure _
      | ok username =>
        obtain ⟨r₂, next₂, hr₂, hreads₂⟩ := readOptional_reads (connFlags &&& 0x40 != 0) payload next₁
        dsimp only
        rw [hr₂, pure_bind]
        cases r₂ with
        | error e => exact guarded_pure _
        | ok password =>
          refine (guarded_authenticate hkey _ _ username password).mono fun hcred => ?_
          -- Either credential stands only behind the flag of the user name.
          have huser : (connFlags &&& 0x80 != 0) = true := by
            rcases hcred with ⟨hpass, -⟩ | ⟨huser, -⟩
            · simpa [hpass] using hflags
            · exact huser
          have hname := hreads₁ username rfl
          rw [if_pos huser] at hname
          refine ⟨clientID, username, payload.drop next₁, by rw [hclient, hname], by simpa using huser, ?_⟩
          rcases hcred with ⟨hpass, rfl⟩ | ⟨-, rfl⟩
          · have hword := hreads₂ _ rfl
            rw [if_pos hpass] at hword
            exact .inr ⟨by simpa using hpass, _, hword⟩
          · exact .inl rfl

/-- **CONNECT connects only with the key.** -/
theorem guarded_handleConnect {srv : Server} (hkey : srv.apiKey ≠ []) (payload : List UInt8) :
    Guarded (handleConnect srv payload) (Presents srv.apiKey payload) := by
  unfold handleConnect
  split
  next => exact guarded_pure _
  next =>
    obtain ⟨r, offset, hr, hreads⟩ := readString_reads payload 0
    rw [hr, pure_bind]
    cases r with
    | error e => exact guarded_pure _
    | ok protoName =>
      have hproto := (hreads.ok rfl).1
      dsimp only
      split
      next => exact guarded_pure _
      split
      next => exact guarded_pure _
      next hfits =>
        rw [index_of_lt (show offset < payload.length by omega), pure_bind]
        split
        next => exact (guarded_write _).bind fun _ => guarded_pure _
        next hlevel =>
          rw [index_of_lt (show offset + 1 < payload.length by omega), pure_bind]
          refine (guarded_readCredentials hkey _ payload (offset + 4)).mono ?_
          intro hrest
          obtain ⟨clientID, username, rest, hrest, hflags, hcred⟩ := hrest
          refine ⟨protoName, _, [payload[offset + 2], payload[offset + 3]], clientID, username, rest, ?_, rfl,
            hflags, hcred⟩
          have hcons : payload.drop offset = payload[offset] :: payload[offset + 1] :: payload[offset + 2] ::
              payload[offset + 3] :: payload.drop (offset + 4) := by
            rw [drop_eq_getElem_cons, drop_eq_getElem_cons, drop_eq_getElem_cons, drop_eq_getElem_cons]
          calc payload = field protoName ++ payload.drop offset := hproto
            _ = _ := by rw [hcons, not_not.mp hlevel, hrest]; rfl

/-! ## Passes of a closed session -/

/-- The session is not connected and has not called the broker. -/
structure Closed (x : Conn × List UInt8) : Prop where
  connected : x.1.connected = false
  subs : x.1.subs = ⟨∅, [], 0⟩
  published : x.1.published = []

theorem closed_new (s : List UInt8) : Closed (.new, s) := ⟨rfl, rfl, rfl⟩

theorem processPacket_of_closed (srv : Server) {p : Packet} {c : Conn} (hc : c.connected = false) :
    processPacket srv p c = if p.pType = packetConnect then handleConnect srv p.payload c
      else (some (some (ascii "protocol violation: packet sent before CONNECT")), c) := by
  by_cases hp : p.pType = packetConnect
  · simp [processPacket, Bind.bind, andThen, hp]
  · simp [processPacket, Bind.bind, andThen, hp, hc]

theorem processPacket_closed {srv : Server} (hkey : srv.apiKey ≠ []) {p : Packet} {c : Conn}
    (hc : c.connected = false) :
    (processPacket srv p c).2.subs = c.subs ∧ (processPacket srv p c).2.published = c.published ∧
      ((processPacket srv p c).2.connected = true → p.pType = packetConnect ∧ Presents srv.apiKey p.payload) := by
  rw [processPacket_of_closed srv hc]
  split
  next hp =>
    obtain ⟨hsubs, hpub, hconn⟩ := guarded_handleConnect hkey p.payload c
    exact ⟨hsubs, hpub, fun h => ⟨hp, (hconn h).resolve_left (by simp [hc])⟩⟩
  next => exact ⟨rfl, rfl, fun h => by simp [hc] at h⟩

theorem after_eq (srv : Server) (c : Conn) (s : List UInt8) :
    after srv (c, s) = match readPacket (some maxPacketSize) s with
      | .error _ => c
      | .ok (p, _) => (processPacket srv p c).2 := by
  simp only [after, next]
  cases readPacket (some maxPacketSize) s with
  | error e => rfl
  | ok r =>
    obtain ⟨p, rest⟩ := r
    dsimp only
    rcases processPacket srv p c with ⟨_ | _ | e, c'⟩ <;> rfl

theorem after_closed {srv : Server} (hkey : srv.apiKey ≠ []) {x : Conn × List UInt8} (h : Closed x) :
    (after srv x).subs = x.1.subs ∧ (after srv x).published = x.1.published ∧
      ((after srv x).connected = true → Opens srv x) := by
  obtain ⟨c, s⟩ := x
  have hc : c.connected = false := h.connected
  rw [after_eq]
  cases hread : readPacket (some maxPacketSize) s with
  | error e => exact ⟨rfl, rfl, fun hconn => by simp [hc] at hconn⟩
  | ok r =>
    obtain ⟨p, rest⟩ := r
    obtain ⟨hsubs, hpub, hconn⟩ := @processPacket_closed srv hkey p c hc
    exact ⟨hsubs, hpub, fun h => ⟨p, rest, hread, hconn h⟩⟩

theorem Closed.next {srv : Server} (hkey : srv.apiKey ≠ []) {x y : Conn × List UInt8} {p : Packet} (h : Closed x)
    (hx : ¬Opens srv x) (hnext : Session.next srv x = .ok (p, y)) : Closed y := by
  obtain ⟨hsubs, hpub, hconn⟩ := after_closed hkey h
  have hy : after srv x = y.1 := by simp only [after, hnext]
  rw [hy] at hsubs hpub hconn
  exact ⟨Bool.eq_false_iff.mpr fun hc => hx (hconn hc), hsubs.trans h.subs, hpub.trans h.published⟩

theorem readPacket_length {limit : Option Nat} {s rest : List UInt8} {p : Packet}
    (h : readPacket limit s = .ok (p, rest)) : rest.length < s.length := by
  cases s with
  | nil => cases h
  | cons header s =>
    simp only [readPacket] at h
    split at h
    · cases h
    next n s₁ hn =>
      obtain ⟨⟨digits, rfl, -, -⟩, -⟩ := readRemainingLength_ok hn
      split at h
      · cases h
      split at h
      · cases h
      next payload s₂ hread =>
        have hlen := Stream.readFull_length hread
        cases h
        simp only [length_cons, length_append]
        omega

theorem next_shrinks (srv : Server) : Stream.Shrinks (next srv) fun s => s.2.length := by
  intro x p y h
  obtain ⟨c, s⟩ := x
  unfold next at h
  dsimp only at h
  split at h
  · cases h
  next p' s' hread =>
    have hlen := readPacket_length hread
    split at h
    next => cases h; exact hlen
    next => cases h

/-- A state the loop comes to, with the ones it has passed. -/
abbrev Visits (srv : Server) (s : List UInt8) (passed : List (Conn × List UInt8)) (x : Conn × List UInt8) : Prop :=
  Stream.Path (next srv) (.new, s) passed x

theorem Visits.closed {srv : Server} (hkey : srv.apiKey ≠ []) {s : List UInt8} {passed : List (Conn × List UInt8)}
    {x : Conn × List UInt8} (h : Visits srv s passed x) (hpassed : ∀ y ∈ passed, ¬Opens srv y) : Closed x :=
  Stream.Path.closed (fun hc ho hnext => hc.next hkey ho hnext) h (closed_new s) hpassed

theorem Visits.opened {srv : Server} (hkey : srv.apiKey ≠ []) {s : List UInt8} {passed : List (Conn × List UInt8)}
    {x : Conn × List UInt8} (h : Visits srv s passed x) (hcalls : (after srv x).calls ≠ x.1.calls) :
    ∃ y ∈ passed, Opens srv y := by
  by_contra hno
  obtain ⟨hsubs, hpub, -⟩ := after_closed hkey (h.closed hkey fun y hy ho => hno ⟨y, hy, ho⟩)
  exact hcalls (by rw [Conn.calls, Conn.calls, hsubs, hpub])

theorem handleClient_closed {srv : Server} (hkey : srv.apiKey ≠ []) {s : List UInt8}
    (h : ∀ passed x, Visits srv s passed x → ¬Opens srv x) : (handleClient srv s).calls = ([], [], 0) := by
  obtain ⟨-, x, ⟨-, hclosed⟩, hlast⟩ := Stream.drain_invariant
    (I := fun x => (∃ passed, Visits srv s passed x) ∧ Closed x) (P := fun _ => True) (next_shrinks srv)
    (fun ⟨⟨passed, hpath⟩, hc⟩ hnext => ⟨trivial, ⟨_, hpath.snoc hnext⟩, hc.next hkey (h passed _ hpath) hnext⟩)
    ⟨⟨[], .nil⟩, closed_new s⟩
  obtain ⟨hsubs, hpub, -⟩ := after_closed hkey hclosed
  have hx : after srv x = (Stream.drain (next srv) (fun s => s.2.length) (Conn.new, s)).2 := by
    simp only [after, hlast]
  rw [hx, hclosed.subs] at hsubs
  rw [hx, hclosed.published] at hpub
  simp only [handleClient, Conn.calls, hsubs, hpub]
  rfl

end Session

end Mqtt

namespace Nats

open Stream (readDelim)

/-! ## NATS -/

/-- The event is a call of the broker. -/
def Event.isCall : Event → Bool
  | .write _ => false
  | .publish _ _ => true
  | .removeSpy _ _ => true

/-- What a pass does, and the connection after it. -/
def outcome : Except End (List Event × (Conn × List UInt8)) → List Event × Conn
  | .ok (events, (c, _)) => (events, c)
  | .error e => (e.events, e.conn)

def after (srv : Server) (x : Conn × List UInt8) : List Event × Conn := outcome (next srv x)

/-- The arguments of a CONNECT with the key among its credentials. -/
def Presents (srv : Server) (fields : List GoString) : Prop :=
  ∃ candidates, srv.candidates ([32].intercalate fields.tail) = some candidates ∧ srv.apiKey ∈ candidates

/-- The pass at a state reads a CONNECT with the key. -/
def Opens (srv : Server) (x : Conn × List UInt8) : Prop :=
  ∃ line rest, readDelim 10 x.2 = some (line, rest) ∧ lineVerb line = .connect ∧
    Presents srv (fieldsOf (trimRight line))

structure Closed (x : Conn × List UInt8) : Prop where
  authenticated : x.1.authenticated = false
  subs : x.1.subs = ∅
  asked : x.1.asked = 0

theorem handleConnect_none {srv : Server} (hkey : srv.apiKey ≠ []) {fields : List GoString}
    (h : handleConnect srv fields = none) : Presents srv fields := by
  unfold handleConnect at h
  simp only [hkey, if_false] at h
  split at h
  · cases h
  split at h
  · cases h
  next candidates hc =>
    split at h
    next hany =>
      obtain ⟨c, hmem, hc'⟩ := List.any_eq_true.mp hany
      simp only [ne_eq, Bool.and_eq_true, decide_eq_true_eq] at hc'
      exact ⟨candidates, hc, hc'.2 ▸ hmem⟩
    next => cases h

/-- A pass that only writes, and authenticates only when `P` holds. -/
structure Harmless (c : Conn) (r : List Event × Conn) (P : Prop) : Prop where
  events : ∀ e ∈ r.1, e.isCall = false
  subs : r.2.subs = c.subs
  asked : r.2.asked = c.asked
  authenticated : r.2.authenticated = true → c.authenticated = true ∨ P

theorem harmless_report (c : Conn) (err : Option GoString) (P : Prop) : Harmless c (report err, c) P where
  events e he := by
    cases err with
    | none => cases he
    | some text => rw [mem_singleton.mp he]; rfl
  subs := rfl
  asked := rfl
  authenticated := .inl

theorem harmless_write {c c' : Conn} {P : Prop} (text : GoString) (hsubs : c'.subs = c.subs)
    (hasked : c'.asked = c.asked)
    (h : c'.authenticated = true → c.authenticated = true ∨ P) : Harmless c ([.write text], c') P where
  events e he := by rw [mem_singleton.mp he]; rfl
  subs := hsubs
  asked := hasked
  authenticated := h

theorem handleLine_closed {srv : Server} (hkey : srv.apiKey ≠ []) {c : Conn} (hc : c.authenticated = false)
    (fields : List GoString) (s : List UInt8) :
    Harmless c (outcome (handleLine srv c fields s)) (verb fields = .connect ∧ Presents srv fields) := by
  unfold handleLine
  cases hverb : verb fields with
  | connect =>
    dsimp only
    cases hconn : handleConnect srv fields with
    | some e => exact harmless_report c (some e) _
    | none => exact harmless_write _ rfl rfl fun _ => .inr ⟨rfl, handleConnect_none hkey hconn⟩
  | pub | sub | unsub =>
    simp only [hc, Bool.false_eq_true, if_false]
    exact harmless_report c (some _) _
  | ping | pong => exact harmless_write _ rfl rfl .inl
  | unknown => exact harmless_report c _ _

theorem after_closed {srv : Server} (hkey : srv.apiKey ≠ []) {x : Conn × List UInt8} (h : Closed x) :
    Harmless x.1 (after srv x) (Opens srv x) := by
  obtain ⟨c, s⟩ := x
  unfold after next
  dsimp only
  cases hread : readDelim 10 s with
  | none => exact harmless_report c none _
  | some r =>
    obtain ⟨line, rest⟩ := r
    dsimp only
    split
    next => exact harmless_report c none _
    next =>
      have hline := handleLine_closed hkey h.authenticated (fieldsOf (trimRight line)) rest
      exact ⟨hline.events, hline.subs, hline.asked, fun ha =>
        (hline.authenticated ha).imp_right fun hp => ⟨line, rest, hread, hp⟩⟩

theorem Closed.next {srv : Server} (hkey : srv.apiKey ≠ []) {x y : Conn × List UInt8}
    {events : List Event} (h : Closed x)
    (hx : ¬Opens srv x) (hnext : Nats.next srv x = .ok (events, y)) : Closed y := by
  have hpass := after_closed hkey h
  have hy : after srv x = (events, y.1) := by rw [after, hnext]; rfl
  rw [hy] at hpass
  refine ⟨Bool.eq_false_iff.mpr fun ha => ?_, hpass.subs.trans h.subs, hpass.asked.trans h.asked⟩
  exact (hpass.authenticated ha).elim (fun hc => by simp [h.authenticated] at hc) hx

/-- A state the loop comes to, with the ones it has passed. -/
abbrev Visits (srv : Server) (s : List UInt8) (passed : List (Conn × List UInt8)) (x : Conn × List UInt8) : Prop :=
  Stream.Path (next srv) (⟨srv.apiKey = [], ∅, 0⟩, s) passed x

theorem Visits.closed {srv : Server} (hkey : srv.apiKey ≠ []) {s : List UInt8} {passed : List (Conn × List UInt8)}
    {x : Conn × List UInt8} (h : Visits srv s passed x) (hpassed : ∀ y ∈ passed, ¬Opens srv y) : Closed x :=
  Stream.Path.closed (fun hc ho hnext => hc.next hkey ho hnext) h ⟨by simp [hkey], rfl, rfl⟩ hpassed

/-- The pass at a state calls the broker. -/
def Calls (srv : Server) (x : Conn × List UInt8) : Prop :=
  (∃ e ∈ (after srv x).1, e.isCall = true) ∨ (after srv x).2.asked ≠ x.1.asked

theorem Visits.opened {srv : Server} (hkey : srv.apiKey ≠ []) {s : List UInt8} {passed : List (Conn × List UInt8)}
    {x : Conn × List UInt8} (h : Visits srv s passed x) (hcalls : Calls srv x) : ∃ y ∈ passed, Opens srv y := by
  by_contra hno
  have hpass := after_closed hkey (h.closed hkey fun y hy ho => hno ⟨y, hy, ho⟩)
  rcases hcalls with ⟨e, he, hcall⟩ | hasked
  · rw [hpass.events e he] at hcall
    cases hcall
  · exact hasked hpass.asked

theorem handleClient_closed {srv : Server} (hkey : srv.apiKey ≠ []) {s : List UInt8}
    (h : ∀ passed x, Visits srv s passed x → ¬Opens srv x) :
    (∀ e ∈ handleClient srv s, e.isCall = false) ∧ (serve srv ⟨srv.apiKey = [], ∅, 0⟩ s).2.asked = 0 := by
  obtain ⟨hevents, x, ⟨-, hclosed⟩, hlast⟩ := Stream.drain_invariant
    (I := fun x => (∃ passed, Visits srv s passed x) ∧ Closed x)
    (P := fun events : List Event => ∀ e ∈ events, e.isCall = false) (next_shrinks srv)
    (fun {x events y} hx hnext => by
      obtain ⟨⟨passed, hpath⟩, hc⟩ := hx
      have hpass := (after_closed hkey hc).events
      rw [after, hnext] at hpass
      exact ⟨hpass, ⟨_, hpath.snoc hnext⟩, hc.next hkey (h passed _ hpath) hnext⟩)
    (s := (⟨srv.apiKey = [], ∅, 0⟩, s)) ⟨⟨[], .nil⟩, by simp [hkey], rfl, rfl⟩
  have hpass := after_closed hkey hclosed
  rw [after, hlast] at hpass
  refine ⟨fun e he => ?_, hpass.asked.trans hclosed.asked⟩
  have hsubs : (serve srv ⟨srv.apiKey = [], ∅, 0⟩ s).2.subs = ∅ := hpass.subs.trans hclosed.subs
  simp only [handleClient, hsubs] at he
  rcases mem_append.mp he with he | he
  · rcases mem_cons.mp he with rfl | he
    · rfl
    · rcases mem_append.mp he with he | he
      · obtain ⟨events, hmem, he⟩ := mem_flatten.mp he
        exact hevents events hmem e he
      · exact hpass.events e he
  · cases he

end Nats

/-! ## Both gateways -/

/-- **The gateways act only for clients with the key.** With a key set, on
any bytes a pass that calls `Publish`, `AddSpy` or `RemoveSpy` comes behind
one that has read a CONNECT with the key as a credential; a connection on
which there is none leaves the broker alone. -/
theorem gateways_gated {m : Mqtt.Session.Server} {n : Nats.Server} (hm : m.apiKey ≠ []) (hn : n.apiKey ≠ [])
    (s : List UInt8) : ((∀ passed x, Mqtt.Session.Visits m s passed x →
        (Mqtt.Session.after m x).calls ≠ x.1.calls → ∃ y ∈ passed, Mqtt.Session.Opens m y) ∧
      ((∀ passed x, Mqtt.Session.Visits m s passed x → ¬Mqtt.Session.Opens m x) →
        (Mqtt.Session.handleClient m s).calls = ([], [], 0))) ∧
    (∀ passed x, Nats.Visits n s passed x → Nats.Calls n x → ∃ y ∈ passed, Nats.Opens n y) ∧
      ((∀ passed x, Nats.Visits n s passed x → ¬Nats.Opens n x) →
        (∀ e ∈ Nats.handleClient n s, e.isCall = false) ∧ (Nats.serve n ⟨n.apiKey = [], ∅, 0⟩ s).2.asked = 0) :=
  ⟨⟨fun _ _ h => h.opened hm, Mqtt.Session.handleClient_closed hm⟩,
    fun _ _ h => h.opened hn, Nats.handleClient_closed hn⟩

def Mqtt.Session.samplePublish : List UInt8 := [0x30, 5] ++ field (ascii "t") ++ ascii "hi"

/-- A CONNECT with the key as its user name, and a PUBLISH. -/
def Mqtt.Session.sampleStream : List UInt8 :=
  [0x10, 17] ++ field (ascii "MQTT") ++ [4, 0x80, 0, 60] ++ field (ascii "id") ++ field (ascii "k") ++ samplePublish

/-- A server with a key, which is a candidate of every CONNECT. -/
def Nats.credentials : GoString := ascii "\x7b\"auth_token\":\"k\"\x7d"

def Nats.Server.keyed : Nats.Server :=
  ⟨.sample, ascii "k", fun text => if text = credentials then some [ascii "k", [], []] else none⟩

def Nats.sampleStream : List UInt8 := ascii "CONNECT " ++ credentials ++ ascii "\r\nPUB t 2\r\nhi\r\n"

theorem gateways_gated_sample :
    ((∃ y ∈ [(Mqtt.Session.Conn.new, Mqtt.Session.sampleStream)], Mqtt.Session.Opens .sample y) ∧
      (Mqtt.Session.handleClient .sample Mqtt.Session.sampleStream).published = [(ascii "t", ascii "hi")]) ∧
    (∃ y ∈ [((⟨false, ∅, 0⟩ : Nats.Conn), Nats.sampleStream)], Nats.Opens .keyed y) ∧
      Nats.published (Nats.handleClient .keyed Nats.sampleStream) = [(ascii "t", ascii "hi")] := by
  have hgated := @gateways_gated .sample Nats.Server.keyed (by decide) (by decide)
  refine ⟨⟨(hgated _).1.1 _ (⟨true, ⟨∅, [], 0⟩, [], [[0x20, 2, 0, 0]]⟩, Mqtt.Session.samplePublish) (.snoc .nil rfl)
      (by decide +kernel), by decide +kernel⟩,
    (hgated _).2.1 _ (⟨true, ∅, 0⟩, ascii "PUB t 2\r\nhi\r\n") (.snoc .nil rfl) (.inr (by decide +kernel)),
    by decide +kernel⟩

end TinyMQ
