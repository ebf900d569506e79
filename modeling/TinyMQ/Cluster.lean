/-
A node of a cluster (`internal/cluster`): its configuration, its state, and
the critical sections of its methods and of the commands `handlePeer`
serves.

A command has its fields parsed: writing a line, splitting it at its blanks
and checking its HMAC come before.
-/
import TinyMQ.Lib.Register
import TinyMQ.Lib.Text
import TinyMQ.Data
import Mathlib.Algebra.Group.Int.Defs
import Mathlib.Algebra.Group.Nat.Defs
import Mathlib.Data.List.AList

namespace TinyMQ

open AList Text

namespace Cluster

/-! ## Configuration -/

/-- What a node is started with: the arguments of `NewNode` and its
environment. -/
structure Config where
  address : GoString
  httpPort : GoString
  /-- `TINYMQ_CLUSTER_SELF`. -/
  self : GoString
  /-- `TINYMQ_CLUSTER_NODES`. -/
  nodes : GoString
  /-- `TINYMQ_CLUSTER_LEADER` is `true`. -/
  isDesignatedLeader : Bool
  /-- `TINYMQ_CLUSTER_HTTP_ADVERTISE`. -/
  httpAdvertise : GoString
  /-- `os.Hostname()`. -/
  hostname : GoString
  deriving DecidableEq, Repr

/-- The encodings of the characters for which `unicode.IsSpace` holds. -/
def spaces : List GoString :=
  [[9], [10], [11], [12], [13], [32], [0xC2, 0x85], [0xC2, 0xA0], [0xE1, 0x9A, 0x80]] ++
    (List.range 11).map (fun i => [0xE2, 0x80, 0x80 + UInt8.ofNat i]) ++
    [[0xE2, 0x80, 0xA8], [0xE2, 0x80, 0xA9], [0xE2, 0x80, 0xAF], [0xE2, 0x81, 0x9F], [0xE3, 0x80, 0x80]]

/-- `strings.TrimSpace`. -/
def trimSpaces (s : GoString) : GoString := trim spaces s

/-- The host of `net.SplitHostPort`, empty when that fails. -/
def splitHost (hostport : GoString) : GoString :=
  match hostport.reverse.idxOf? 58 with
  | none => []
  | some k =>
    -- The port starts after the last colon.
    let i := hostport.length - 1 - k
    if hostport.head? = some 91 then
      match hostport.idxOf? 93 with
      | none => []
      | some fin =>
        if fin + 1 = i ∧ 91 ∉ hostport.drop 1 ∧ 93 ∉ hostport.drop (fin + 1) then (hostport.take fin).drop 1 else []
    else if 58 ∈ hostport.take i ∨ 91 ∈ hostport ∨ 93 ∈ hostport then []
    else hostport.take i

def hostPort (host port : GoString) : GoString := host ++ ascii ":" ++ port

namespace Config

def selfAddr (c : Config) : GoString := if c.self ≠ [] then c.self else c.address

/-- The entries of `TINYMQ_CLUSTER_NODES`. -/
def entries (c : Config) : List GoString := c.nodes.splitOn 44

/-- An entry that is the node itself, or none. -/
def skips (c : Config) (addr : GoString) : Bool :=
  addr = [] || addr = c.selfAddr || splitHost addr = c.hostname ||
    hasPrefix (splitHost addr) (c.hostname ++ ascii ".")

/-- The number of nodes that must agree, as `calculateQuorum` computes it
from the environment. -/
def quorum (c : Config) : Nat := if c.nodes = [] then 1 else (c.entries.length + 1) / 2 + 1

theorem quorum_pos (c : Config) : 0 < c.quorum := by
  unfold quorum
  split <;> omega

/-- The address `sendHeartbeat` advertises for HTTP. -/
def advertiseAddr (c : Config) : GoString :=
  if c.httpAdvertise = [] then hostPort (splitHost c.address) c.httpPort
  else if contains c.httpAdvertise (ascii ":") then c.httpAdvertise
  else hostPort c.httpAdvertise c.httpPort

end Config

/-! ## The state of a node -/

/-- `CurrentTerm++`: a term is an `int`, which wraps around. -/
def nextTerm (term : Int) : Int := (term + 1).bmod (2 ^ 64)

def lastTerm : Int := 2 ^ 63 - 1

theorem nextTerm_of_lt (hlow : -2 ^ 63 ≤ term) (h : term < lastTerm) : nextTerm term = term + 1 := by
  unfold lastTerm at h
  rw [nextTerm, Int.bmod_eq_of_le (by omega) (by omega)]

theorem nextTerm_ne (term : Int) : nextTerm term ≠ term := by
  rw [nextTerm, Int.bmod_def]
  split <;> omega

inductive Role
  | follower
  | candidate
  | leader
  deriving DecidableEq, Repr

structure Peer where
  address : GoString
  isAlive : Bool
  lastSeen : Option Time
  deriving DecidableEq, Repr

abbrev Peers := AList fun _ : GoString => Peer

structure Node where
  role : Role
  peers : Peers
  currentTerm : Int
  votedFor : GoString
  votesReceived : Nat
  lastHeartbeatSeen : Time
  leaderHttp : GoString
  isSynced : Bool
  /-- The quorum once it has been computed, 0 before. -/
  quorumSize : Nat

/-- The peers listed in the environment. -/
def loadPeersFromEnv (c : Config) : Peers :=
  if c.nodes = [] then ∅
  else ((c.entries.map trimSpaces).filter fun addr => !c.skips addr).foldl
    (fun peers addr => peers.insert addr ⟨addr, false, none⟩) ∅

theorem mem_foldl_insert (l : List GoString) (peers : Peers) :
    addr ∈ l.foldl (fun peers addr => peers.insert addr ⟨addr, false, none⟩) peers ↔ addr ∈ l ∨ addr ∈ peers := by
  induction l generalizing peers with
  | nil => simp
  | cons a l ih => rw [List.foldl_cons, ih, mem_insert, List.mem_cons, or_left_comm, or_assoc]

theorem mem_loadPeersFromEnv (h : addr ∈ loadPeersFromEnv c) : addr ∈ c.entries.map trimSpaces := by
  unfold loadPeersFromEnv at h
  split at h
  · exact absurd h (notMem_empty addr)
  · rcases (mem_foldl_insert _ _).mp h with h | h
    · exact List.mem_of_mem_filter h
    · exact absurd h (notMem_empty addr)

def newNode (c : Config) (now : Time) : Node where
  role := if c.isDesignatedLeader then .leader else .follower
  peers := loadPeersFromEnv c
  currentTerm := 0
  votedFor := []
  votesReceived := 0
  lastHeartbeatSeen := now
  leaderHttp := []
  isSynced := false
  quorumSize := 0

namespace Node

/-- The quorum, computed at the first call. -/
def calculateQuorum (c : Config) (n : Node) : Nat × Node :=
  if 0 < n.quorumSize then (n.quorumSize, n) else (c.quorum, { n with quorumSize := c.quorum })

/-- The check of a command of a leader (`acceptsHeartbeat`, `trustedLeader`). -/
def trustsLeader (n : Node) (term : Int) (leader : GoString) : Bool :=
  n.currentTerm < term || term == n.currentTerm && (n.votedFor == [] || n.votedFor == leader)

/-- The first critical section of `handleHeartbeat`, and whether a
synchronization is needed. -/
def handleHeartbeat (now : Time) (term : Int) (leader leaderHttp : GoString) (n : Node) : Bool × Node :=
  let n := if n.votedFor ≠ leader then { n with isSynced := false } else n
  let n :=
    if n.trustsLeader term leader then
      { n with lastHeartbeatSeen := now, role := .follower, currentTerm := term, votedFor := leader, leaderHttp }
    else n
  (!n.isSynced && n.role == .follower, n)

/-- Its second critical section. -/
def setSynced (n : Node) : Node := { n with isSynced := true }

/-- The critical section of `REPLICATE`, and whether the leader is trusted. -/
def handleReplicate (now : Time) (term : Int) (leader : GoString) (n : Node) : Bool × Node :=
  if n.trustsLeader term leader then
    (true, { n with currentTerm := term, role := .follower, votedFor := leader, lastHeartbeatSeen := now })
  else (false, n)

def evaluateVote (c : Config) (now : Time) (term : Int) (candidate : GoString) (n : Node) : Bool × Node :=
  if c.isDesignatedLeader then (false, n)
  else if term < n.currentTerm then (false, n)
  else
    let n := if n.currentTerm < term then { n with currentTerm := term, role := .follower, votedFor := [] } else n
    if n.votedFor = [] ∨ n.votedFor = candidate then (true, { n with votedFor := candidate, lastHeartbeatSeen := now })
    else (false, n)

/-- The critical section of `startElection`; a request goes to each of the
peers. -/
def startElection (c : Config) (now : Time) (n : Node) : Node :=
  { n with
    role := .candidate, currentTerm := nextTerm n.currentTerm, votedFor := c.selfAddr, votesReceived := 1,
    lastHeartbeatSeen := now }

/-- The count of a vote that was granted in `term` (`requestVoteFromPeer`). -/
def countVote (c : Config) (term : Int) (n : Node) : Node :=
  let (quorum, n) := n.calculateQuorum c
  if n.role = .candidate ∧ n.currentTerm = term then
    let n := { n with votesReceived := n.votesReceived + 1 }
    if quorum ≤ n.votesReceived then { n with role := .leader } else n
  else n

def markPeerAlive (now : Time) (addr : GoString) (n : Node) : Node :=
  match n.peers.lookup addr with
  | some peer => { n with peers := n.peers.insert addr { peer with isAlive := true, lastSeen := some now } }
  | none => n

def markPeerDead (addr : GoString) (n : Node) : Node :=
  match n.peers.lookup addr with
  | some peer => { n with peers := n.peers.insert addr { peer with isAlive := false } }
  | none => n

def alivePeers (n : Node) : List GoString :=
  n.peers.keys.filter fun addr => ((n.peers.lookup addr).map Peer.isAlive).getD false

/-! ## Votes are not taken back -/

def register (n : Node) : Register GoString := ⟨n.currentTerm, if n.votedFor = [] then none else some n.votedFor⟩

/-- What a node does as long as it does not run for the leadership: it keeps
its vote, and steps down or stays what it is. -/
structure Follows (n n' : Node) : Prop where
  forward : n.register.Forward n'.register
  role : n'.role = .follower ∨
    n'.role = n.role ∧ n'.currentTerm = n.currentTerm ∧ n'.votesReceived = n.votesReceived
  quorum : n'.quorumSize = n.quorumSize
  peers : ∀ addr, addr ∈ n'.peers ↔ addr ∈ n.peers

variable {n n' : Node} {c : Config} {now : Time} {term : Int} {addr : GoString}

theorem Follows.refl (n : Node) : n.Follows n := ⟨.of_eq rfl, .inr ⟨rfl, rfl, rfl⟩, rfl, fun _ => Iff.rfl⟩

theorem Follows.of_eq (hterm : n'.currentTerm = n.currentTerm) (hvote : n'.votedFor = n.votedFor)
    (hrole : n'.role = n.role) (hvotes : n'.votesReceived = n.votesReceived) (hquorum : n'.quorumSize = n.quorumSize)
    (hpeers : ∀ addr, addr ∈ n'.peers ↔ addr ∈ n.peers) : n.Follows n' where
  forward := .of_eq (by rw [register, register, hterm, hvote])
  role := .inr ⟨hrole, hterm, hvotes⟩
  quorum := hquorum
  peers := hpeers

theorem Follows.of_trusts (h : n.trustsLeader term addr = true) (hrole : n'.role = .follower)
    (hterm : n'.currentTerm = term)
    (hvote : n'.votedFor = addr) (hquorum : n'.quorumSize = n.quorumSize) (hpeers : n'.peers = n.peers) :
    n.Follows n' := by
  refine ⟨?_, .inl hrole, hquorum, fun a => by rw [hpeers]⟩
  simp only [trustsLeader, Bool.or_eq_true, decide_eq_true_eq, Bool.and_eq_true, beq_iff_eq] at h
  rcases h with hlt | ⟨he, hv⟩
  · left
    show n.currentTerm < n'.currentTerm
    omega
  · right
    refine ⟨show n.currentTerm = n'.currentTerm by omega, ?_⟩
    rcases hv with hv | hv
    · exact .inl (by simp [register, hv])
    · exact .inr (by simp [register, hvote, hv])

theorem handleHeartbeat_follows {leaderHttp} (n : Node) :
    n.Follows (n.handleHeartbeat now term addr leaderHttp).2 := by
  -- The flag that is reset first has nothing to do with the rest.
  have hflag : ∀ n₀ : Node, n₀.currentTerm = n.currentTerm → n₀.votedFor = n.votedFor → n₀.role = n.role →
      n₀.votesReceived = n.votesReceived → n₀.quorumSize = n.quorumSize → n₀.peers = n.peers →
      n.Follows (if n₀.trustsLeader term addr then
        { n₀ with lastHeartbeatSeen := now, role := .follower, currentTerm := term, votedFor := addr, leaderHttp }
      else n₀) := by
    intro n₀ hterm hvote hrole hvotes hquorum hpeers
    split
    next htrust =>
      have htrust : n.trustsLeader term addr = true := by rwa [trustsLeader, hterm, hvote] at htrust
      exact .of_trusts htrust rfl rfl rfl hquorum hpeers
    · exact .of_eq hterm hvote hrole hvotes hquorum fun a => by rw [hpeers]
  unfold handleHeartbeat
  by_cases hv : n.votedFor ≠ addr
  · simpa only [if_pos hv] using hflag { n with isSynced := false } rfl rfl rfl rfl rfl rfl
  · simpa only [if_neg hv] using hflag n rfl rfl rfl rfl rfl rfl

theorem setSynced_follows (n : Node) : n.Follows n.setSynced := .of_eq rfl rfl rfl rfl rfl fun _ => Iff.rfl

theorem handleReplicate_follows (n : Node) : n.Follows (n.handleReplicate now term addr).2 := by
  unfold handleReplicate
  split
  next htrust => exact .of_trusts htrust rfl rfl rfl rfl rfl
  · exact .refl n

theorem evaluateVote_follows (n : Node) (c : Config) (now : Time) (term : Int) (hc : addr ≠ []) :
    n.Follows (n.evaluateVote c now term addr).2 ∧
    ((n.evaluateVote c now term addr).1 = true → (n.evaluateVote c now term addr).2.register =
      ⟨term, some addr⟩) := by
  unfold evaluateVote
  split
  · exact ⟨.refl n, fun h => by cases h⟩
  split
  · exact ⟨.refl n, fun h => by cases h⟩
  next hge =>
    by_cases hlt : n.currentTerm < term
    · simp only [if_pos hlt, true_or, if_true]
      refine ⟨⟨.inl hlt, .inl rfl, rfl, fun _ => Iff.rfl⟩, fun _ => ?_⟩
      simp [register, hc]
    · have hterm : n.currentTerm = term := by omega
      simp only [if_neg hlt]
      split
      next hv =>
        refine ⟨⟨.inr ⟨rfl, ?_⟩, .inr ⟨rfl, rfl, rfl⟩, rfl, fun _ => Iff.rfl⟩, fun _ => by
          simp [register, hterm, hc]⟩
        rcases hv with hv | hv
        · exact .inl (by simp [register, hv])
        · exact .inr (by simp [register, hv])
      · exact ⟨.refl n, fun h => by cases h⟩

theorem follows_insert {n : Node} (hp : n.peers.lookup addr = some peer) (peer') :
    n.Follows { n with peers := n.peers.insert addr peer' } := by
  refine .of_eq rfl rfl rfl rfl rfl fun a => ?_
  have hmem : addr ∈ n.peers := lookup_isSome.mp (by rw [hp]; rfl)
  rw [mem_insert]
  exact ⟨fun h => h.elim (fun he => he ▸ hmem) id, .inr⟩

theorem markPeerAlive_follows (n : Node) : n.Follows (n.markPeerAlive now addr) := by
  unfold markPeerAlive
  split
  next hp => exact follows_insert hp _
  · exact .refl n

theorem markPeerDead_follows (n : Node) : n.Follows (n.markPeerDead addr) := by
  unfold markPeerDead
  split
  next hp => exact follows_insert hp _
  · exact .refl n

theorem calculateQuorum_eq (hq : n.quorumSize = 0 ∨ n.quorumSize = c.quorum) :
    n.calculateQuorum c = (c.quorum, { n with quorumSize := c.quorum }) := by
  have hpos := c.quorum_pos
  unfold calculateQuorum
  rcases hq with hq | hq
  · rw [if_neg (by omega)]
  · rw [if_pos (by omega), ← hq]

/-- A candidate counts one more vote in its term, and leads with a quorum. -/
theorem countVote_cases (n : Node) (term : Int) (hq : n.quorumSize = 0 ∨ n.quorumSize = c.quorum) :
    (n.countVote c term).register = n.register ∧ (n.countVote c term).quorumSize = c.quorum ∧
      (n.countVote c term).peers = n.peers ∧
      ((n.countVote c term).role = n.role ∧ (n.countVote c term).votesReceived = n.votesReceived ∨
        n.role = .candidate ∧ n.currentTerm = term ∧ (n.countVote c term).votesReceived = n.votesReceived + 1 ∧
          ((n.countVote c term).role = .candidate ∧ n.votesReceived + 1 < c.quorum ∨
            (n.countVote c term).role = .leader ∧ c.quorum ≤ n.votesReceived + 1)) := by
  have hcalc := calculateQuorum_eq hq
  by_cases hcand : n.role = .candidate ∧ n.currentTerm = term
  · by_cases hwin : c.quorum ≤ n.votesReceived + 1
    · have he : n.countVote c term =
          { n with quorumSize := c.quorum, votesReceived := n.votesReceived + 1, role := .leader } := by
        simp [countVote, hcalc, hcand, hwin]
      rw [he]
      exact ⟨rfl, rfl, rfl, .inr ⟨hcand.1, hcand.2, rfl, .inr ⟨rfl, hwin⟩⟩⟩
    · have he : n.countVote c term =
        { n with quorumSize := c.quorum, votesReceived := n.votesReceived + 1 } := by
        simp [countVote, hcalc, hcand, hwin]
      rw [he]
      exact ⟨rfl, rfl, rfl, .inr ⟨hcand.1, hcand.2, rfl, .inl ⟨hcand.1, by omega⟩⟩⟩
  · have he : n.countVote c term = { n with quorumSize := c.quorum } := by
      simp only [countVote, hcalc, if_neg hcand]
    rw [he]
    exact ⟨rfl, rfl, rfl, .inl ⟨rfl, rfl⟩⟩

end Node

def loneConfig : Config where
  address := ascii "n:7000"
  httpPort := ascii "8080"
  self := []
  nodes := []
  isDesignatedLeader := false
  httpAdvertise := []
  hostname := ascii "n"

end Cluster

end TinyMQ
