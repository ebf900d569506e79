/-
Lines of the protocol between nodes, from one end to the other.

A `REPLICATE` is read by `handlePeer` and by `requestSync` as it was written
(`replicate_read_back`). A `BIND_GROUP` is written without the address of its
sender, which `handlePeer` counts on: `binding_read_back_iff` says that a
group is passed on only if no line is sent at all. `sync_reader_safe_iff`
says which lines make the loop of `requestSync` panic.
-/
import TinyMQ.Replicas
import TinyMQ.Lib.Levels
import Mathlib.Data.List.Infix

namespace TinyMQ

open List Text

namespace Cluster

variable {k : Keys} {c : Config} {n : Node} {term : Int} {leader topic group line : GoString}

/-! ## Replication -/

/-- A text without white space. -/
def Unspaced (s : GoString) : Prop := ∀ w ∈ spaces, ¬ w <:+: s

theorem Unspaced.not_mem (h : Unspaced s) (hb : [b] ∈ spaces) : b ∉ s :=
  fun hmem => h [b] hb ((singleton_infix_iff b s).mpr hmem)

/-- What a reader has of a line: its fields, without the MAC. -/
def fieldsOf (line : GoString) : List GoString := ((trimSpaces line).splitOn 32).dropLast

inductive ReplicateLine (k : Keys) (term : Int) : (leader topic : GoString) → List UInt8 → GoString → Prop
  | replicate {leader topic payload} :
      ReplicateLine k term leader topic payload (k.signed (replicateBody term leader topic payload))
  | snapshot {c : Config} {m : Message} : ReplicateLine k term c.selfAddr m.topic m.payload (snapshotLine k c term m)

theorem ReplicateLine.eq (h : ReplicateLine k term leader topic payload line) :
    line = k.signed (replicateBody term leader topic payload) := by
  cases h <;> rfl

/-- **A `REPLICATE` is read back**: its bytes are one line with the term, the
sender, the topic and the payload as fields, and both readers act on them. -/
theorem replicate_read_back {payload : List UInt8} (hterm : 0 ≤ term ∧ term < 2 ^ 63) (hleader : Unspaced leader)
    (htopic : validTopicRegex topic = true) (hline : ReplicateLine k term leader topic payload line)
    (c : Config) (now : Time) (n : Node) : completeLines 10 (line ++ [10]) = [line] ∧
      (∃ payloadB64, parseCommand (fieldsOf line) = some (.replicate term leader topic payloadB64) ∧
        Codec.decodeBase64 payloadB64 = some payload ∧
        handleLine k c now n line = (Command.replicate term leader topic payloadB64).serve k c now n) ∧
      (∃ args, fieldsOf line = ascii "REPLICATE" :: args ∧ args[0]?.map scanTerm = some term ∧ args[1]? = some leader) ∧
      syncLine k line = .publishReplicated topic payload := by
  rw [hline.eq]
  have hsender : 32 ∉ leader ∧ 10 ∉ leader := ⟨hleader.not_mem (by decide), hleader.not_mem (by decide)⟩
  have hname : 32 ∉ topic ∧ 10 ∉ topic :=
    ⟨not_mem_of_validTopicRegex htopic (by decide), not_mem_of_validTopicRegex htopic (by decide)⟩
  have hrange : -2 ^ 63 ≤ term ∧ term < 2 ^ 63 := by omega
  have hword : ascii "REPLICATE" = 82 :: ascii "EPLICATE" := by decide
  have hblank := replicate_fields hsender.1 hname.1 term payload
  have hfields : fieldsOf (k.signed (replicateBody term leader topic payload)) =
      [ascii "REPLICATE", Codec.formatInt term, leader, topic, Codec.base64 payload] := by
    rw [hword] at hblank ⊢
    rw [fieldsOf, replicateBody, hword, split_signed (by decide) hblank, dropLast_concat]
  refine ⟨?_, ⟨Codec.base64 payload, ?_, Codec.decodeBase64_base64 payload,
    handleLine_replicate hrange hsender.1 hname.1 payload c now n⟩, ⟨_, hfields, ?_, rfl⟩,
    syncLine_replicate hsender.1 hname.1 term payload⟩
  · have hlines :
      completeLines 10 ([k.signed (replicateBody term leader topic payload)].flatMap (· ++ [10])) = _ :=
      completeLines_flatMap (by simpa using not_break_replicate hsender.2 hname.2 term payload)
    rwa [flatMap_singleton] at hlines
  · have hcmd : ascii "REPLICATE" ≠ ascii "PING" ∧ ascii "REPLICATE" ≠ ascii "HEARTBEAT" := by decide
    simp [hfields, parseCommand, hcmd, scanTerm_formatInt hrange]
  · simp [scanTerm_formatInt hrange]

theorem replicate_read_back_sample : syncLine sampleKeys
    (sampleKeys.signed (replicateBody 3 (ascii "n:7000") (ascii "orders") (ascii "two words\n"))) =
      .publishReplicated (ascii "orders") (ascii "two words\n") := by
  have hunspaced : Unspaced (ascii "n:7000") := by unfold Unspaced; decide
  exact (replicate_read_back (by decide) hunspaced (by decide) .replicate loneConfig 0 (newNode loneConfig 0)).2.2.2

/-! ## Bindings -/

/-- `BIND_GROUP %d %s %s` of `ReplicateBinding`. -/
def bindBody (term : Int) (topic group : GoString) : GoString :=
  joinFields [ascii "BIND_GROUP", Codec.formatInt term, topic, group]

/-- The lines `ReplicateBinding` sends, each with the peer it goes to. -/
def Node.replicateBinding (k : Keys) (topic group : GoString) (n : Node) :
    Except GoString (List (GoString × GoString)) :=
  if n.role ≠ .leader then .error (ascii "HTTP_PROXY_REQUIRED")
  else .ok (n.alivePeers.map fun addr => (addr, k.signed (bindBody n.currentTerm topic group)))

/-- A line makes every node that trusts its sender bind the group: the
command is read as it was meant, and once the broker has the group the
answer is an ACK. -/
def BindsGroup (k : Keys) (line : GoString) (term : Int) (leader topic group : GoString) : Prop :=
  ∀ (c : Config) (now : Time) (n : Node), n.trustsLeader term leader = true →
    handleLine k c now n line = (Command.bindGroup term leader topic group).serve k c now n ∧
      ∀ {b : Broker} {name : GoString} {syncs : List GoString}, (b.createGroup topic group).1 = .ok name →
        Serves k c now line ⟨n, b, syncs⟩ (ascii "BIND_GROUP_ACK\n") ⟨n, (b.createGroup topic group).2, syncs⟩

theorem handleLine_binding (htopic : 32 ∉ topic) (hgroup : 32 ∉ group) (term : Int) (c : Config) (now : Time)
    (n : Node) : handleLine k c now n (k.signed (bindBody term topic group)) = ⟨n, none, .skip⟩ := by
  have hword : ascii "BIND_GROUP" = 66 :: ascii "IND_GROUP" := by decide
  have hterm := not_blank_of_isPlain (Codec.isPlain_formatInt term)
  have hblank : ∀ f ∈ [66 :: ascii "IND_GROUP", Codec.formatInt term, topic, group], (32 : UInt8) ∉ f := by
    have hcmd : (32 : UInt8) ∉ 66 :: ascii "IND_GROUP" := by decide
    simpa using ⟨by simpa using hcmd, hterm, htopic, hgroup⟩
  have hcmds : ascii "BIND_GROUP" ≠ ascii "PING" ∧ ascii "BIND_GROUP" ≠ ascii "HEARTBEAT" ∧
      ascii "BIND_GROUP" ≠ ascii "REPLICATE" ∧ ascii "BIND_GROUP" ≠ ascii "SYNC_REQ" ∧
      ascii "BIND_GROUP" ≠ ascii "REQUEST_VOTE" := by decide
  rw [bindBody, hword, handleLine_signed (by decide) hblank, ← hword, dispatch]
  simp [parseCommand, hcmds]

/-- **When a binding is read back**: only if no line is sent, because the node
is no leader or thinks that no peer is alive. -/
theorem binding_read_back_iff (htopic : Unspaced topic) (hgroup : Unspaced group) :
    (∀ {sent}, n.replicateBinding k topic group = .ok sent → ∀ m ∈ sent,
        BindsGroup k m.2 n.currentTerm c.selfAddr topic group) ↔ n.role ≠ .leader ∨ n.alivePeers = [] := by
  constructor
  · intro h
    by_contra hsends
    rw [not_or, not_not] at hsends
    obtain ⟨addr, haddr⟩ := exists_mem_of_ne_nil _ hsends.2
    have hsent : n.replicateBinding k topic group =
        .ok (n.alivePeers.map fun addr => (addr, k.signed (bindBody n.currentTerm topic group))) := by
      simp [Node.replicateBinding, hsends.1]
    have hbinds := h hsent _ (List.mem_map_of_mem haddr)
    -- A follower of the same term that has not voted.
    let f : Node := { newNode c 0 with currentTerm := n.currentTerm }
    have htrust : f.trustsLeader n.currentTerm c.selfAddr = true := by simp [f, Node.trustsLeader, newNode]
    have hread := (hbinds c 0 f htrust).1
    rw [handleLine_binding (htopic.not_mem (by decide)) (hgroup.not_mem (by decide))] at hread
    simp [Command.serve, htrust] at hread
  · rintro hnone sent hsent m hm
    unfold Node.replicateBinding at hsent
    split at hsent
    · cases hsent
    next hrole =>
      cases hsent
      rw [hnone.resolve_left hrole] at hm
      cases hm

theorem binding_read_back_sample : (newNode loneConfig 0).alivePeers = [] ∧
    ∀ {sent}, (newNode loneConfig 0).replicateBinding sampleKeys (ascii "t") (ascii "g") = .ok sent → ∀ m ∈ sent,
      BindsGroup sampleKeys m.2 0 loneConfig.selfAddr (ascii "t") (ascii "g") :=
  ⟨rfl, (binding_read_back_iff (c := loneConfig) (n := newNode loneConfig 0) (by unfold Unspaced; decide)
    (by unfold Unspaced; decide)).mpr (.inr rfl)⟩

/-- **A binding that gets lost**: a leader with one peer that is alive, and a
follower that trusts it. -/
theorem binding_ignored : ∃ n f : Node, n.replicateBinding sampleKeys (ascii "t") (ascii "g") =
      .ok [(ascii "a:1", sampleKeys.signed (bindBody 1 (ascii "t") (ascii "g")))] ∧
    f.trustsLeader 1 loneConfig.selfAddr = true ∧
    (Broker.sample.createGroup (ascii "t") (ascii "g")).1 = .ok (ascii "t::g") ∧
    Serves sampleKeys loneConfig 0 (sampleKeys.signed (bindBody 1 (ascii "t") (ascii "g")))
      ⟨f, .sample, []⟩ [] ⟨f, .sample, []⟩ := by
  let peers : AList fun _ : GoString => Peer := AList.singleton (ascii "a:1") ⟨ascii "a:1", true, none⟩
  refine ⟨{ newNode loneConfig 0 with role := .leader, currentTerm := 1, peers }, newNode loneConfig 0, rfl, by decide,
    by decide, ?_⟩
  have hline := @handleLine_binding sampleKeys (ascii "t") (ascii "g") (by decide) (by decide) 1 loneConfig 0
    (newNode loneConfig 0)
  have hserves : Serves sampleKeys loneConfig 0 (sampleKeys.signed (bindBody 1 (ascii "t") (ascii "g")))
      ⟨newNode loneConfig 0, .sample, []⟩ [] _ := .intro (by rw [hline]; exact .skip)
  simpa [hline] using hserves

/-! ## The reader of a snapshot -/

/-- How the loop of `requestSync` ends. -/
inductive SyncEnd
  /-- There are no more lines. -/
  | closed
  | complete
  | panicked
  deriving DecidableEq, Repr

/-- The loop of `requestSync` over the lines it gets. -/
def syncLoop (k : Keys) : List GoString → SyncEnd
  | [] => .closed
  | line :: lines =>
    match syncLine k line with
    | .crash => .panicked
    | .complete => .complete
    | .skip => syncLoop k lines
    | .publishReplicated _ _ => syncLoop k lines

/-- A line of one word that passes for its own MAC. -/
def LoneMac (k : Keys) (line : GoString) : Prop :=
  trimSpaces line ≠ [] ∧ 32 ∉ trimSpaces line ∧
    (k.clusterSecret = [] ∨ trimSpaces line = Codec.hex (k.hmac k.clusterSecret []))

def completes (k : Keys) (line : GoString) : Bool :=
  let parts := (trimSpaces line).splitOn 32
  parts.dropLast.head? == some (ascii "SYNC_COMPLETE") && k.verifyMessage
    (joinFields parts.dropLast) (parts.getLastD [])

/-- The lines before the one that completes the synchronization. -/
def linesRead (k : Keys) (lines : List GoString) : List GoString := lines.takeWhile fun line => !completes k line

/-- A word is a MAC with nothing before it, and then there is no command. -/
theorem syncLine_crash_iff : syncLine k line = .crash ↔ LoneMac k line := by
  by_cases hblank : 32 ∈ trimSpaces line
  · have hlong : ((trimSpaces line).splitOn 32).dropLast ≠ [] := by
      intro hnil
      have hlen := congrArg List.length hnil
      have hpos := length_pos_iff.mpr (splitOn_ne_nil 32 (trimSpaces line))
      rw [length_dropLast, length_nil] at hlen
      obtain ⟨w, hw⟩ := length_eq_one_iff.mp (show ((trimSpaces line).splitOn 32).length = 1 by omega)
      have hword : 32 ∉ w := Levels.not_mem_of_mem_splitOn (by rw [hw]; simp)
      rw [Levels.splitOn_inj (hw.trans (splitOn_eq_singleton hword).symm)] at hblank
      exact hword hblank
    obtain ⟨cmd, args, hargs⟩ := exists_cons_of_ne_nil hlong
    refine iff_of_false (fun h => ?_) fun h => h.2.1 hblank
    unfold syncLine at h
    simp only [hargs] at h
    repeat' split at h
    all_goals cases h
  · simp only [syncLine, LoneMac, splitOn_eq_singleton hblank, headD_cons, getLastD_cons, getLastD_nil,
      dropLast_singleton, Keys.verifyMessage, Keys.signMessage]
    by_cases hnil : trimSpaces line = [] <;> by_cases hk : k.clusterSecret = [] <;>
      simp [hnil, hk, hblank, joinFields, eq_comm (a := trimSpaces line)]

theorem syncLine_complete_iff : syncLine k line = .complete ↔ completes k line = true := by
  cases hargs : ((trimSpaces line).splitOn 32).dropLast with
  | nil =>
    simp only [syncLine, completes, hargs]
    repeat' split
    all_goals simp
  | cons cmd args =>
    have hhead : ((trimSpaces line).splitOn 32).headD [] = cmd := by
      rw [← dropLast_append_getLast (splitOn_ne_nil 32 (trimSpaces line)), hargs]
      rfl
    have hword : ascii "SYNC_COMPLETE" ≠ [] ∧ ascii "REPLICATE" ≠ ascii "SYNC_COMPLETE" := by decide
    simp only [syncLine, completes, hargs, hhead]
    repeat' split
    all_goals simp_all

theorem syncLoop_panicked_iff (k : Keys) (lines : List GoString) :
    syncLoop k lines = .panicked ↔ ∃ line ∈ linesRead k lines, LoneMac k line := by
  induction lines with
  | nil => simp [syncLoop, linesRead]
  | cons line lines ih =>
    rw [syncLoop, linesRead, takeWhile_cons]
    have hcrash := @syncLine_crash_iff k line
    have hcomplete := @syncLine_complete_iff k line
    rw [linesRead] at ih
    cases hline : syncLine k line <;> simp_all

/-- **When the reader is safe**: it panics at the lines of one word that pass
for a MAC, without a secret at every line of one word, and at no others
before the line that completes the synchronization. -/
theorem sync_reader_safe_iff (k : Keys) (lines : List GoString) :
    syncLoop k lines ≠ .panicked ↔ ∀ line ∈ linesRead k lines, ¬ LoneMac k line := by
  simp [syncLoop_panicked_iff]

/-- **A reader that panics**: it has no secret, and the other side answers
that it has one. -/
theorem sync_reader_panics :
    syncLoop ⟨[], fun _ _ => replicate 32 0, fun _ _ => rfl⟩ [ascii "ERR_UNAUTHORIZED"] = .panicked := by decide

end Cluster

end TinyMQ
