/-
The text protocol between nodes: signed lines, the commands they carry, the
loop of `handlePeer` over the bytes of a connection, and how `requestSync`
reads a line.

A line ends with a MAC of what stands before it. `unsigned_inert` says that
a line without it does nothing, whatever its bytes are: with one word no
command has its fields, with more the check fails. `handleLine_replicate`
and `syncLine_replicate` say that a `REPLICATE` is read as it was written.

A command is served here without another goroutine in between.
-/
import TinyMQ.Cluster
import TinyMQ.Groups
import TinyMQ.Lib.Codec

namespace TinyMQ

open List

/-! ## What the broker is asked for -/

/-- `PublishReplicated`. -/
def replicatedArgs (topicName : GoString) (payload : List UInt8) : PublishArgs where
  topicName := topicName
  payload := payload
  headers := []
  priority := ascii "normal"
  expiresAt := none
  deliverAt := none
  isBroadcast := false
  isReplication := true

/-- `GetStateSnapshot`, which waits for the lock of each topic. -/
def Broker.getStateSnapshot (b : Broker) : Option (List Message × Broker) :=
  let (names, b) := b.range b.topics.keys
  (names.mapM fun name => (b.topics.lookup name).bind fun r => (b.lock r).map Topic.queued).map fun msgs =>
    (msgs.flatten, b)

namespace Cluster

/-! ## Signed lines -/

/-- The secret of the cluster, and HMAC-SHA256 of a key and a message. -/
structure Keys where
  clusterSecret : GoString
  hmac : GoString → GoString → List UInt8
  hmac_length : ∀ key message, (hmac key message).length = 32

namespace Keys

def signMessage (k : Keys) (message : GoString) : GoString :=
  if k.clusterSecret = [] then ascii "NO_MAC" else Codec.hex (k.hmac k.clusterSecret message)

def verifyMessage (k : Keys) (message receivedMac : GoString) : Bool :=
  if k.clusterSecret = [] then true else k.signMessage message == receivedMac

/-- A body and its MAC, as they are sent. -/
def signed (k : Keys) (body : GoString) : GoString := body ++ ascii " " ++ k.signMessage body

end Keys

/-- Fields joined by blanks, as the formats of the commands join them. -/
def joinFields (fields : List GoString) : GoString := [32].intercalate fields

/-- `REPLICATE %d %s %s %s` of `Replicate` and of the snapshot. -/
def replicateBody (term : Int) (leader topic : GoString) (payload : List UInt8) : GoString :=
  joinFields [ascii "REPLICATE", Codec.formatInt term, leader, topic, Codec.base64 payload]

/-! ## Commands -/

inductive Command
  | ping (senderAddr : GoString)
  | heartbeat (term : Int) (leaderAddr leaderHttp : GoString)
  | replicate (term : Int) (leaderAddr topic payloadB64 : GoString)
  | syncReq (targetAddr : GoString)
  | requestVote (term : Int) (candidateAddr : GoString)
  | bindGroup (term : Int) (leaderAddr topic group : GoString)
  deriving DecidableEq, Repr

/-- `fmt.Sscanf(s, "%d", &term)` on a `term` that is 0. -/
def scanTerm (s : GoString) : Int := (Codec.scanInt (Text.trimStart spaces s.length s)).getD 0

/-- The cases of the `switch`, each with the number of fields it needs. -/
def parseCommand : List GoString → Option Command
  | [] => none
  | cmd :: args =>
    if cmd = ascii "PING" then
      match args with
      | senderAddr :: _ :: _ => some (.ping senderAddr)
      | _ => none
    else if cmd = ascii "HEARTBEAT" then
      match args with
      | term :: leaderAddr :: rest => some (.heartbeat (scanTerm term) leaderAddr (rest.headD []))
      | _ => none
    else if cmd = ascii "REPLICATE" then
      match args with
      | term :: leaderAddr :: topic :: payloadB64 :: _ => some (.replicate (scanTerm term) leaderAddr topic payloadB64)
      | _ => none
    else if cmd = ascii "SYNC_REQ" then
      match args with
      | targetAddr :: _ => some (.syncReq targetAddr)
      | _ => none
    else if cmd = ascii "REQUEST_VOTE" then
      match args with
      | term :: candidateAddr :: _ => some (.requestVote (scanTerm term) candidateAddr)
      | _ => none
    else if cmd = ascii "BIND_GROUP" then
      match args with
      | term :: leaderAddr :: topic :: group :: _ => some (.bindGroup (scanTerm term) leaderAddr topic group)
      | _ => none
    else none

/-- What is left to do for a line when the node has been looked at. -/
inductive Action
  | skip
  /-- The connection is closed. -/
  | close (text : GoString)
  | reply (text : GoString)
  | publishReplicated (topic : GoString) (payload : List UInt8)
  /-- The snapshot is sent, under this term. -/
  | sendSnapshot (term : Int)
  | createGroup (topic group : GoString)
  deriving DecidableEq, Repr

/-- A line that was handled: the node, the leader that a `requestSync` was
started for, and the rest. -/
structure Handled where
  node : Node
  sync : Option GoString
  action : Action

section Handlers

variable (k : Keys) (c : Config) (now : Time)

def Command.serve (n : Node) : Command → Handled
  | .ping senderAddr => ⟨n.markPeerAlive now senderAddr, none, .reply (ascii "PONG\n")⟩
  | .heartbeat term leaderAddr leaderHttp =>
    let (needsSync, n) := n.handleHeartbeat now term leaderAddr leaderHttp
    let n := if needsSync then n.setSynced else n
    ⟨n.markPeerAlive now leaderAddr, if needsSync then some leaderAddr else none, .reply (ascii "PONG_HEARTBEAT\n")⟩
  | .replicate term leaderAddr topic payloadB64 =>
    let (trustedLeader, n) := n.handleReplicate now term leaderAddr
    if trustedLeader then
      match Codec.decodeBase64 payloadB64 with
      | some payload => ⟨n, none, .publishReplicated topic payload⟩
      | none => ⟨n, none, .reply (ascii "REPLICATE_ERR\n")⟩
    else ⟨n, none, .reply (ascii "REPLICATE_DENIED\n")⟩
  | .syncReq _ => ⟨n, none, if n.role = .leader then .sendSnapshot n.currentTerm else .skip⟩
  | .requestVote term candidateAddr =>
    let (allowed, n) := n.evaluateVote c now term candidateAddr
    ⟨n, none,
      .reply (if allowed then k.signed (joinFields [ascii "VOTE_GRANTED", Codec.formatInt n.currentTerm]) ++ ascii "\n"
      else joinFields [ascii "VOTE_DENIED", Codec.formatInt n.currentTerm] ++ ascii "\n")⟩
  | .bindGroup term leaderAddr topic group =>
    ⟨n, none, if n.trustsLeader term leaderAddr then .createGroup topic group else .reply (ascii "BIND_GROUP_DENIED\n")⟩

/-- The `switch` on fields that need no check any more. -/
def dispatch (n : Node) (parts : List GoString) : Handled :=
  match parseCommand parts with
  | some cmd => cmd.serve k c now n
  | none => ⟨n, none, .skip⟩

/-- The body of the loop of `handlePeer`. A line of one word is not checked. -/
def handleLine (n : Node) (line : GoString) : Handled :=
  let parts := (trimSpaces line).splitOn 32
  if parts.headD [] = [] then ⟨n, none, .skip⟩
  else if 1 < parts.length then
    let receivedMac := parts.getLastD []
    let msgBody := joinFields parts.dropLast
    if !k.verifyMessage msgBody receivedMac then ⟨n, none, .close (ascii "ERR_UNAUTHORIZED\n")⟩
    else dispatch k c now n parts.dropLast
  else dispatch k c now n parts

def snapshotLine (term : Int) (msg : Message) : GoString :=
  k.signed (replicateBody term c.selfAddr msg.topic msg.payload)

/-- The bytes `SYNC_REQ` is answered with. -/
def snapshotBytes (term : Int) (msgs : List Message) : GoString :=
  (msgs.map (snapshotLine k c term) ++ [k.signed (ascii "SYNC_COMPLETE")]).flatMap fun line => line ++ [10]

/-- An action on the broker, with what is written to the connection. -/
inductive Action.Runs : Action → Broker → GoString → Broker → Prop
  | skip {b} : Runs .skip b [] b
  | close {text b} : Runs (.close text) b text b
  | reply {text b} : Runs (.reply text) b text b
  | publishReplicated {topic payload b b' r} :
      Returns now b (Op.publish (replicatedArgs topic payload)).entry r b' →
      Runs (.publishReplicated topic payload) b (ascii "REPLICATE_ACK\n") b'
  | sendSnapshot {term} {b b' : Broker} {msgs} : b.getStateSnapshot = some (msgs, b') →
      Runs (.sendSnapshot term) b (snapshotBytes k c term msgs) b'
  | created {topic group name} {b : Broker} : (b.createGroup topic group).1 = .ok name →
      Runs (.createGroup topic group) b (ascii "BIND_GROUP_ACK\n") (b.createGroup topic group).2
  | notCreated {topic group e} {b : Broker} : (b.createGroup topic group).1 = .error e →
      Runs (.createGroup topic group) b (ascii "BIND_GROUP_ERR\n") (b.createGroup topic group).2

end Handlers

/-- A node with its broker, and the synchronizations it has started. -/
structure Server where
  node : Node
  broker : Broker
  syncs : List GoString

inductive Serves (k : Keys) (c : Config) (now : Time) (line : GoString) (s : Server) : GoString → Server → Prop
  | intro {reply b'} : (handleLine k c now s.node line).action.Runs k c now s.broker reply b' →
      Serves k c now line s reply
        ⟨(handleLine k c now s.node line).node, b', s.syncs ++ (handleLine k c now s.node line).sync.toList⟩

/-- `handlePeer` on the lines of a connection, with what it writes. -/
inductive HandlePeer (k : Keys) (c : Config) : List GoString → Server → List GoString → Server → Prop
  | done {s} : HandlePeer k c [] s [] s
  | closed {now line text lines} {s s' : Server} :
      (handleLine k c now s.node line).action = .close text → Serves k c now line s text s' →
      HandlePeer k c (line :: lines) s [text] s'
  | next {now line reply lines replies} {s s₁ s' : Server} :
      (∀ text, (handleLine k c now s.node line).action ≠ .close text) → Serves k c now line s reply s₁ →
      HandlePeer k c lines s₁ replies s' → HandlePeer k c (line :: lines) s (reply :: replies) s'

/-! ## Lines without a MAC -/

/-- The line is, after trimming, a body, a blank and the MAC of the body. -/
def Keys.Signed (k : Keys) (line : GoString) : Prop :=
  ∃ body, trimSpaces line = body ++ ascii " " ++ Codec.hex (k.hmac k.clusterSecret body)

section Unsigned

variable {k : Keys} {c : Config} {now : Time}

theorem parseCommand_word (word : GoString) : parseCommand [word] = none := by
  unfold parseCommand
  repeat' split
  all_goals first | rfl | simp_all

theorem ascii_blank : ascii " " = [32] := by decide

theorem joinFields_concat (h : fields ≠ []) (last : GoString) :
    joinFields (fields ++ [last]) = joinFields fields ++ ascii " " ++ last := by
  rw [ascii_blank]
  induction fields with
  | nil => exact absurd rfl h
  | cons f fields ih =>
    by_cases hf : fields = []
    · subst hf
      simp [joinFields, intercalate_cons_cons]
    · have ih : [32].intercalate (fields ++ [last]) = [32].intercalate fields ++ [32] ++ last := ih hf
      rw [joinFields, joinFields, cons_append, intercalate_cons_of_ne_nil (by simp),
        intercalate_cons_of_ne_nil hf, ih]
      simp only [append_assoc]

theorem signed_of_verifies (hk : k.clusterSecret ≠ []) (hparts : 1 < ((trimSpaces line).splitOn 32).length)
    (h : k.verifyMessage (joinFields ((trimSpaces line).splitOn 32).dropLast)
      (((trimSpaces line).splitOn 32).getLastD []) = true) : k.Signed line := by
  have hne : (trimSpaces line).splitOn 32 ≠ [] := splitOn_ne_nil 32 _
  have hinit : ((trimSpaces line).splitOn 32).dropLast ≠ [] := by
    intro he
    have := congrArg List.length he
    rw [length_dropLast, length_nil] at this
    omega
  refine ⟨joinFields ((trimSpaces line).splitOn 32).dropLast, ?_⟩
  have hlast : ((trimSpaces line).splitOn 32).getLastD [] =
      Codec.hex (k.hmac k.clusterSecret (joinFields ((trimSpaces line).splitOn 32).dropLast)) := by
    rw [Keys.verifyMessage, if_neg hk, beq_iff_eq, Keys.signMessage, if_neg hk] at h
    exact h.symm
  rw [← hlast, ← joinFields_concat hinit]
  have hsplit : ((trimSpaces line).splitOn 32).dropLast ++ [((trimSpaces line).splitOn 32).getLastD []] =
      (trimSpaces line).splitOn 32 := by
    rw [getLastD_eq_getLast?, getLast?_eq_some_getLast hne, Option.getD_some]
    exact dropLast_append_getLast hne
  rw [hsplit]
  exact (intercalate_splitOn 32).symm

theorem handleLine_of_unsigned (hk : k.clusterSecret ≠ []) (h : ¬ k.Signed line) (c : Config)
    (now : Time) (n : Node) : handleLine k c now n line = ⟨n, none, .skip⟩ ∨
      handleLine k c now n line = ⟨n, none, .close (ascii "ERR_UNAUTHORIZED\n")⟩ := by
  unfold handleLine
  dsimp only
  split
  · exact .inl rfl
  split
  next hparts =>
    split
    · exact .inr rfl
    next hverify => exact absurd (signed_of_verifies hk hparts (by simpa using hverify)) h
  next hparts =>
    -- One word: no command has its fields.
    refine .inl ?_
    have hne : (trimSpaces line).splitOn 32 ≠ [] := splitOn_ne_nil 32 _
    obtain ⟨word, hword⟩ := length_eq_one_iff.mp
      (show ((trimSpaces line).splitOn 32).length = 1 from Nat.le_antisymm (by omega)
        (length_pos_iff.mpr hne))
    rw [hword, dispatch, parseCommand_word]

theorem serves_of_unsigned (hk : k.clusterSecret ≠ []) (h : ¬ k.Signed line)
    (hs : Serves k c now line s reply s') : s' = s := by
  cases hs with
  | intro hrun =>
    rcases handleLine_of_unsigned hk h c now s.node with he | he
    all_goals
      rw [he] at hrun ⊢
      cases hrun
      simp

theorem serves_unsigned (hk : k.clusterSecret ≠ []) (h : ¬ k.Signed line) (c : Config) (now : Time) (s : Server) :
    (∃ text, (handleLine k c now s.node line).action = .close text ∧ Serves k c now line s text s) ∨
      (∀ text, (handleLine k c now s.node line).action ≠ .close text) ∧ ∃ reply, Serves k c now line s reply s := by
  have hserve : ∀ {reply o}, handleLine k c now s.node line = o →
    o.action.Runs k c now s.broker reply s.broker →
      o.node = s.node → o.sync = none → Serves k c now line s reply s := by
    intro reply o he hrun hnode hsync
    subst he
    have hs := Serves.intro hrun
    rw [hnode, hsync] at hs
    simpa using hs
  rcases handleLine_of_unsigned hk h c now s.node with he | he
  · exact .inr ⟨fun text => by rw [he]; nofun, [], hserve he .skip rfl rfl⟩
  · exact .inl ⟨_, by rw [he], hserve he .close rfl rfl⟩

theorem handlePeer_unsigned (hk : k.clusterSecret ≠ []) (h : ∀ line ∈ lines, ¬ k.Signed line) (s : Server) :
    ∃ replies, HandlePeer k c lines s replies s := by
  induction lines with
  | nil => exact ⟨[], .done⟩
  | cons line lines ih =>
    obtain ⟨replies, hrest⟩ := ih fun l hl => h l (mem_cons_of_mem _ hl)
    rcases serves_unsigned hk (h line mem_cons_self) c 0 s with ⟨text, hclose, hs⟩ | ⟨hopen, reply, hs⟩
    · exact ⟨[text], .closed hclose hs⟩
    · exact ⟨reply :: replies, .next hopen hs hrest⟩

theorem handlePeer_of_unsigned (hk : k.clusterSecret ≠ [])
    (h : ∀ line ∈ lines, ¬ k.Signed line) (hp : HandlePeer k c lines s replies s') : s' = s := by
  induction hp with
  | done => rfl
  | closed _ hs => exact serves_of_unsigned hk (h _ mem_cons_self) hs
  | next _ hs _ ih =>
    exact (ih fun l hl => h l (mem_cons_of_mem _ hl)).trans
      (serves_of_unsigned hk (h _ mem_cons_self) hs)

end Unsigned

/-- **Unsigned lines do nothing.** In a cluster with a secret, a line that is
not a body with its MAC leaves the node, its synchronizations and the
broker as they were; and so does a connection that sends no other lines,
which `handlePeer` always comes to the end of. -/
theorem unsigned_inert {k : Keys} (hk : k.clusterSecret ≠ []) (c : Config) :
    (∀ line, ¬ k.Signed line → ∀ {now s reply s'}, Serves k c now line s reply s' → s' = s) ∧
    ∀ stream, (∀ line ∈ Text.completeLines 10 stream, ¬ k.Signed line) → ∀ s,
      (∃ replies, HandlePeer k c (Text.completeLines 10 stream) s replies s) ∧
        ∀ {replies s'}, HandlePeer k c (Text.completeLines 10 stream) s replies s' → s' = s := by
  exact ⟨fun line h _ _ _ _ hs => serves_of_unsigned hk h hs, fun stream hall s =>
    ⟨handlePeer_unsigned hk hall s, fun hp => handlePeer_of_unsigned hk hall hp⟩⟩

/-- A secret, and a MAC of the bytes of the key and of the message. -/
def sampleKeys : Keys :=
  ⟨ascii "secret", fun key body => replicate 32 ((key ++ body).foldl (fun mac b => 31 * mac + b) 0), fun _ _ => rfl⟩

def forgedStream : GoString := ascii "HEARTBEAT 5 evil evil:80\n"

theorem unsigned_inert_sample : sampleKeys.clusterSecret ≠ [] ∧ ∃ replies,
      HandlePeer sampleKeys loneConfig (Text.completeLines 10 forgedStream) ⟨newNode loneConfig 0, .sample, []⟩ replies
      ⟨newNode loneConfig 0, .sample, []⟩ := by
  refine ⟨by decide, ((unsigned_inert (by decide) loneConfig).2 forgedStream (fun line hline => ?_) _).1⟩
  have hlines : Text.completeLines 10 forgedStream = [ascii "HEARTBEAT 5 evil evil:80"] := by decide
  rw [hlines, mem_singleton] at hline
  subst hline
  rintro ⟨body, hbody⟩
  have hlen := congrArg length hbody
  have hline : (trimSpaces (ascii "HEARTBEAT 5 evil evil:80")).length = 24 := by decide
  rw [hline, length_append, Codec.length_hex, Keys.hmac_length] at hlen
  omega

/-! ## The reader of a snapshot -/

/-- What the loop of `requestSync` does with a line. -/
inductive SyncAction
  | skip
  | complete
  | publishReplicated (topic : GoString) (payload : List UInt8)
  /-- `parts[0]` of a slice that is empty. -/
  | crash
  deriving DecidableEq, Repr

/-- The body of the loop of `requestSync`. Here a line of one word loses it
as its MAC. -/
def syncLine (k : Keys) (line : GoString) : SyncAction :=
  let parts := (trimSpaces line).splitOn 32
  if parts.headD [] = [] then .skip
  else
    let receivedMac := parts.getLastD []
    let msgBody := joinFields parts.dropLast
    if !k.verifyMessage msgBody receivedMac then .skip
    else
      match parts.dropLast with
      | [] => .crash
      | cmd :: args =>
        if cmd = ascii "SYNC_COMPLETE" then .complete
        else if cmd = ascii "REPLICATE" then
          match args with
          | _ :: _ :: topic :: payloadB64 :: _ =>
            match Codec.decodeBase64 payloadB64 with
            | some payload => .publishReplicated topic payload
            | none => .skip
          | _ => .skip
        else .skip

/-! ## Signed lines are read back -/

section RoundTrip

variable {k : Keys} {fields : List GoString} {term : Int} {leader topic : GoString} {payload : List UInt8}

theorem spaces_not_plain : ∀ w ∈ spaces, Codec.isPlain (w.headD 65) = false ∧
    Codec.isPlain (w.getLastD 65) = false := by decide

theorem not_space_start (hc : Codec.isPlain c = true) : ∀ w ∈ spaces, ¬ w <+: c :: s := by
  intro w hw hpre
  obtain ⟨hhead, -⟩ := spaces_not_plain w hw
  cases w with
  | nil => exact absurd hhead (by decide)
  | cons d w =>
    obtain ⟨rfl, -⟩ := cons_prefix_cons.mp hpre
    rw [headD_cons, hc] at hhead
    cases hhead

theorem not_space_end (hc : Codec.isPlain c = true) : ∀ w ∈ spaces, ¬ w <:+ s ++ [c] := by
  intro w hw hsuf
  obtain ⟨-, hlast⟩ := spaces_not_plain w hw
  rcases eq_nil_or_concat w with rfl | ⟨w, d, rfl⟩
  · exact absurd hlast (by decide)
  · obtain ⟨v, hv⟩ := hsuf
    rw [concat_eq_append, ← append_assoc] at hv
    obtain ⟨-, hd⟩ := append_inj' hv rfl
    rw [concat_eq_append, getLastD_concat, singleton_inj.mp hd, hc] at hlast
    cases hlast

theorem Keys.signMessage_spec (k : Keys) (message : GoString) :
    k.signMessage message ≠ [] ∧ ∀ c ∈ k.signMessage message, Codec.isPlain c = true := by
  unfold signMessage
  split
  · rw [show ascii "NO_MAC" = [78, 79, 95, 77, 65, 67] by decide]
    exact ⟨by simp, by simp [Codec.isPlain]⟩
  · refine ⟨fun h => ?_, Codec.isPlain_hex⟩
    obtain ⟨d, ds, hmac⟩ := exists_cons_of_length_eq_add_one (k.hmac_length k.clusterSecret message)
    rw [hmac] at h
    cases h

theorem not_blank_of_isPlain {s : GoString} (h : ∀ c ∈ s, Codec.isPlain c = true) : 32 ∉ s :=
  fun hmem => absurd (h 32 hmem) (by decide)

theorem not_break_of_isPlain {s : GoString} (h : ∀ c ∈ s, Codec.isPlain c = true) : 10 ∉ s :=
  fun hmem => absurd (h 10 hmem) (by decide)

theorem trimSpaces_signed {c : UInt8} {word : GoString} (hc : Codec.isPlain c = true) (fields : List GoString) :
    trimSpaces (k.signed (joinFields ((c :: word) :: fields))) = k.signed (joinFields ((c :: word) :: fields)) := by
  obtain ⟨hne, hplain⟩ := k.signMessage_spec (joinFields ((c :: word) :: fields))
  obtain ⟨mac, d, hmac⟩ := eq_nil_or_concat _ |>.resolve_left hne
  rw [concat_eq_append] at hmac
  have hd : Codec.isPlain d = true := hplain d (by rw [hmac]; simp)
  refine Text.trim_eq_self ?_ ?_
  · obtain ⟨rest, hrest⟩ : ∃ rest, k.signed (joinFields ((c :: word) :: fields)) = c :: rest := by
      cases fields <;> exact ⟨_, rfl⟩
    rw [hrest]
    exact not_space_start hc
  · rw [Keys.signed, hmac, ← append_assoc]
    exact not_space_end hd

/-- The parts of a line that was signed, after trimming: the fields and the
MAC. -/
theorem split_signed {c : UInt8} {word : GoString} (hc : Codec.isPlain c = true)
    (hblank : ∀ f ∈ (c :: word) :: fields, 32 ∉ f) :
    (trimSpaces (k.signed (joinFields ((c :: word) :: fields)))).splitOn 32 =
      (c :: word) :: fields ++ [k.signMessage (joinFields ((c :: word) :: fields))] := by
  have hline : k.signed (joinFields ((c :: word) :: fields)) =
      joinFields ((c :: word) :: fields ++ [k.signMessage (joinFields ((c :: word) :: fields))]) :=
    (joinFields_concat (by simp) _).symm
  rw [trimSpaces_signed hc, hline]
  refine splitOn_intercalate 32 (fun f hf => ?_) (by simp)
  rcases mem_append.mp hf with hf | hf
  · exact hblank f hf
  · rw [mem_singleton.mp hf]
    exact not_blank_of_isPlain (k.signMessage_spec _).2

theorem Keys.verifyMessage_signMessage (k : Keys) (message : GoString) :
    k.verifyMessage message (k.signMessage message) = true := by
  unfold verifyMessage
  split <;> simp

theorem handleLine_signed {c : UInt8} {word : GoString} (hc : Codec.isPlain c = true)
    (hblank : ∀ f ∈ (c :: word) :: fields, 32 ∉ f) (cfg : Config) (now : Time) (n : Node) :
    handleLine k cfg now n (k.signed (joinFields ((c :: word) :: fields))) = dispatch k cfg now n
    ((c :: word) :: fields) := by
  unfold handleLine
  simp only [split_signed hc hblank, dropLast_concat, getLastD_concat]
  rw [k.verifyMessage_signMessage]
  simp

theorem scanTerm_formatInt (hterm : -2 ^ 63 ≤ term ∧ term < 2 ^ 63) : scanTerm (Codec.formatInt term) = term := by
  have hplain := Codec.isPlain_formatInt term
  have hscan := Codec.scanInt_formatInt hterm
  cases hs : Codec.formatInt term with
  | nil =>
    rw [hs] at hscan
    cases hscan
  | cons c s =>
    rw [hs] at hplain hscan
    rw [scanTerm, Text.trimStart_eq_self (not_space_start (hplain c mem_cons_self)), hscan,
      Option.getD_some]

theorem replicate_fields (hleader : 32 ∉ leader) (htopic : 32 ∉ topic) (term : Int) (payload : List UInt8) :
    ∀ f ∈ [ascii "REPLICATE", Codec.formatInt term, leader, topic, Codec.base64 payload], (32 : UInt8) ∉ f := by
  have hterm := not_blank_of_isPlain (Codec.isPlain_formatInt term)
  have hpayload := not_blank_of_isPlain (Codec.isPlain_base64 payload)
  have hword : (32 : UInt8) ∉ ascii "REPLICATE" := by decide
  simpa using ⟨hword, hterm, hleader, htopic, hpayload⟩

theorem not_break_replicate (hleader : 10 ∉ leader) (htopic : 10 ∉ topic) (term : Int) (payload : List UInt8) :
    10 ∉ k.signed (replicateBody term leader topic payload) := by
  have hterm := not_break_of_isPlain (Codec.isPlain_formatInt term)
  have hpayload := not_break_of_isPlain (Codec.isPlain_base64 payload)
  have hmac := not_break_of_isPlain (k.signMessage_spec (replicateBody term leader topic payload)).2
  have hwords : (10 : UInt8) ∉ ascii "REPLICATE" ∧ (10 : UInt8) ∉ ascii " " := by decide
  have hbody : 10 ∉ replicateBody term leader topic payload := by
    simp [replicateBody, joinFields, intercalate_cons_cons, hwords.1, hterm, hleader, htopic, hpayload]
  simp [Keys.signed, hbody, hwords.2, hmac]

/-- **`handlePeer` reads what `Replicate` has written.** -/
theorem handleLine_replicate (hterm : -2 ^ 63 ≤ term ∧ term < 2 ^ 63) (hleader : 32 ∉ leader) (htopic : 32 ∉ topic)
    (payload : List UInt8) (c : Config) (now : Time) (n : Node) :
    handleLine k c now n (k.signed (replicateBody term leader topic payload)) =
      (Command.replicate term leader topic (Codec.base64 payload)).serve k c now n := by
  have hword : ascii "REPLICATE" = 82 :: ascii "EPLICATE" := by decide
  have hblank := replicate_fields hleader htopic term payload
  rw [hword] at hblank
  rw [replicateBody, hword, handleLine_signed (by decide) hblank, ← hword, dispatch]
  have hparse : parseCommand [ascii "REPLICATE", Codec.formatInt term, leader, topic, Codec.base64 payload] =
      some (.replicate term leader topic (Codec.base64 payload)) := by
    have hping : ascii "REPLICATE" ≠ ascii "PING" := by decide
    have hbeat : ascii "REPLICATE" ≠ ascii "HEARTBEAT" := by decide
    simp [parseCommand, hping, hbeat, scanTerm_formatInt hterm]
  rw [hparse]

/-- **`requestSync` reads what the snapshot was written as.** -/
theorem syncLine_replicate (hleader : 32 ∉ leader) (htopic : 32 ∉ topic) (term : Int) (payload : List UInt8) :
    syncLine k (k.signed (replicateBody term leader topic payload)) = .publishReplicated topic payload := by
  have hword : ascii "REPLICATE" = 82 :: ascii "EPLICATE" := by decide
  have hblank := replicate_fields hleader htopic term payload
  rw [hword] at hblank
  have hcmd : 82 :: ascii "EPLICATE" ≠ ascii "SYNC_COMPLETE" := by decide
  unfold syncLine
  rw [replicateBody, hword]
  simp only [split_signed (by decide) hblank, dropLast_concat, getLastD_concat]
  rw [k.verifyMessage_signMessage]
  simp [hcmd, Codec.decodeBase64_base64]

end RoundTrip

end Cluster

end TinyMQ
