/-
Elections: the nodes of a cluster, the commands and replies between them,
and why no two nodes lead in one term.

A node votes once in each term (`Node.Follows`), so its votes have a log in
which nothing is overwritten. A candidate counts each peer once, since a
request is answered at most once. A leader therefore has a majority of the
logs of its term on its side, and two majorities meet.

A command arrives as the line it was written as, without line breaks, and
its fields are what stands between blanks (`handleLine_body`). A node whose
address has a blank asks for votes under another name (`two_leaders`).
-/
import TinyMQ.Wire
import TinyMQ.Lib.Levels
import TinyMQ.Lib.Lts
import Mathlib.Data.Fintype.EquivFin

namespace TinyMQ

open List Function

namespace Cluster

/-! ## The cluster -/

/-- `HEARTBEAT %d %s %s` of `sendHeartbeat`. -/
def heartbeatBody (term : Int) (leader leaderHttp : GoString) : GoString :=
  joinFields [ascii "HEARTBEAT", Codec.formatInt term, leader, leaderHttp]

/-- `REQUEST_VOTE %d %s` of `requestVoteFromPeer`. -/
def voteBody (term : Int) (candidate : GoString) : GoString :=
  joinFields [ascii "REQUEST_VOTE", Codec.formatInt term, candidate]

/-- The command that arrives with a body. -/
def arrives (body : GoString) : Option Command := parseCommand (body.splitOn 32)

/-- What is under way: goroutines of a node, and commands on their way to
an address. -/
inductive Task (ι : Type)
  /-- `sendHeartbeat` of node `i`, before it reads the term. -/
  | gossip (i : ι) (target : GoString)
  /-- A heartbeat or a message to replicate. -/
  | send (addr body : GoString)
  /-- `handleHeartbeat` of node `i`, before its second critical section. -/
  | sync (i : ι)
  /-- `requestVoteFromPeer` of node `i`: its command is on its way to `addr`,
  then the reply that grants the vote is on its way back. -/
  | requestVote (i : ι) (addr : GoString) (term : Int)
  | voteGranted (i : ι) (addr : GoString) (term : Int)
  deriving DecidableEq

structure Net (ι : Type) where
  now : Time
  nodes : ι → Node
  tasks : List (Task ι)

inductive Event (ι : Type)
  /-- Time passes. -/
  | tick (d : Nat)
  | startElection (i : ι)
  /-- `gossipLoop` of a leader. -/
  | dispatchGossip (i : ι)
  /-- `Replicate` sends its commands. -/
  | replicate (i : ι) (topic : GoString) (payload : List UInt8)
  /-- Node `i` finds a peer alive or dead. -/
  | mark (i : ι) (addr : GoString) (alive : Bool)
  /-- Task `k` goes on at node `j`. -/
  | run (k : Nat) (j : ι)
  /-- Task `k` is lost. -/
  | lose (k : Nat)
  deriving DecidableEq

section Step

variable {ι : Type} [DecidableEq ι] (cfg : ι → Config)

/-- The effect of a task on node `j`, and the tasks that follow. A command
is served by the node that has its address. -/
def Task.run (now : Time) (j : ι) (n : Node) : Task ι → Option (Node × List (Task ι))
  | .gossip i target =>
    if i = j then some (n, [.send target (heartbeatBody n.currentTerm (cfg j).selfAddr (cfg j).advertiseAddr)])
    else none
  | .send addr body =>
    if (cfg j).selfAddr = addr then
      match arrives body with
      | some (.heartbeat term leader leaderHttp) =>
        let (needsSync, n) := n.handleHeartbeat now term leader leaderHttp
        some (n, if needsSync then [.sync j] else [])
      | some (.replicate term leader _ _) => some ((n.handleReplicate now term leader).2, [])
      | _ => some (n, [])
    else none
  | .sync i => if i = j then some (n.setSynced, []) else none
  | .requestVote i addr term =>
    if (cfg j).selfAddr = addr then
      match arrives (voteBody term (cfg i).selfAddr) with
      | some (.requestVote asked candidate) =>
        let (allowed, n) := n.evaluateVote (cfg j) now asked candidate
        some (n, if allowed then [.voteGranted i addr term] else [])
      | _ => some (n, [])
    else none
  | .voteGranted i _ term => if i = j then some (n.countVote (cfg j) term, []) else none

namespace Net

def set (s : Net ι) (i : ι) (n : Node) (tasks : List (Task ι)) : Net ι :=
  { s with nodes := update s.nodes i n, tasks }

def step (s : Net ι) : Event ι → Option (Net ι)
  | .tick d => some { s with now := s.now + d }
  | .startElection i =>
    -- The designated leader never runs for an election.
    if (cfg i).isDesignatedLeader then none
    else
      let n := (s.nodes i).startElection (cfg i) s.now
      some (s.set i n (s.tasks ++ n.peers.keys.map fun addr => .requestVote i addr n.currentTerm))
  | .dispatchGossip i =>
    if (s.nodes i).role = .leader then some { s with tasks := s.tasks ++ (s.nodes i).peers.keys.map (.gossip i) }
    else none
  | .replicate i topic payload =>
    if (s.nodes i).role = .leader then
      let term := (s.nodes i).currentTerm
      let body := replicateBody term (cfg i).selfAddr topic payload
      some { s with tasks := s.tasks ++ (s.nodes i).alivePeers.map (.send · body) }
    else none
  | .mark i addr alive =>
    some (s.set i (if alive then (s.nodes i).markPeerAlive s.now addr else (s.nodes i).markPeerDead addr) s.tasks)
  | .run k j => do
    let t ← s.tasks[k]?
    let (n, new) ← t.run cfg s.now j (s.nodes j)
    some (s.set j n (s.tasks.eraseIdx k ++ new))
  | .lose k => some { s with tasks := s.tasks.eraseIdx k }

/-- No election is started in the last term. -/
def InTerms (s : Net ι) (e : Event ι) : Prop := ∀ i, e = .startElection i → (s.nodes i).currentTerm < lastTerm

instance [Fintype ι] (s : Net ι) (e : Event ι) : Decidable (s.InTerms e) := Fintype.decidableForallFintype

def init (now : Time) : Net ι := ⟨now, fun i => newNode (cfg i) now, []⟩

end Net

end Step

/-- The configurations of one cluster: every node has an address of its own,
its peers are all the others, and one leader at most is designated. -/
structure Deployment {ι : Type} (cfg : ι → Config) : Prop where
  self_inj : Injective fun i => (cfg i).selfAddr
  self_ne : ∀ i, (cfg i).selfAddr ≠ []
  peers : ∀ i addr, addr ∈ loadPeersFromEnv (cfg i) ↔ ∃ j, j ≠ i ∧ (cfg j).selfAddr = addr
  designated : ∀ i j, (cfg i).isDesignatedLeader = true → (cfg j).isDesignatedLeader = true → i = j

/-- **A quorum is a majority**, also when a node lists itself. -/
theorem Deployment.majority [Fintype ι] [DecidableEq ι] {cfg : ι → Config} (h : Deployment cfg) (i : ι) :
    Fintype.card ι < 2 * (cfg i).quorum := by
  -- The others all are in the list of node `i`.
  have hcard : (Finset.univ.erase i).card ≤ (cfg i).entries.length := by
    have hsub : (Finset.univ.erase i).image (fun j => (cfg j).selfAddr) ⊆
      ((cfg i).entries.map trimSpaces).toFinset := by
      intro addr haddr
      obtain ⟨j, hj, rfl⟩ := Finset.mem_image.mp haddr
      have hmem := (h.peers i _).mpr ⟨j, Finset.ne_of_mem_erase hj, rfl⟩
      exact List.mem_toFinset.mpr (mem_loadPeersFromEnv hmem)
    have hle := Finset.card_le_card hsub
    rw [Finset.card_image_of_injective _ h.self_inj] at hle
    have hlen := toFinset_card_le ((cfg i).entries.map trimSpaces)
    rw [length_map] at hlen
    omega
  rw [Finset.card_erase_of_mem (Finset.mem_univ i), Finset.card_univ] at hcard
  unfold Config.quorum
  split
  next hnodes =>
    -- Without a list there are no others.
    have hlone : ∀ j, j = i := by
      intro j
      by_contra hj
      have hmem := (h.peers i _).mpr ⟨j, hj, rfl⟩
      rw [loadPeersFromEnv, if_pos hnodes] at hmem
      exact AList.notMem_empty _ hmem
    have hone : Fintype.card ι ≤ 1 := Fintype.card_le_one_iff.mpr fun j k => (hlone j).trans (hlone k).symm
    omega
  · omega

/-! ## Commands that arrive -/

/-- **What arrives is what `handlePeer` reads** of a body that was signed. -/
theorem handleLine_body (hsplit : body.splitOn 32 = (ch :: word) :: fields)
    (hch : Codec.isPlain ch = true) (c : Config) (now : Time) (n : Node) : handleLine k c now n (k.signed body) =
      ((arrives body).map (Command.serve k c now n)).getD ⟨n, none, .skip⟩ := by
  have hbody : joinFields ((ch :: word) :: fields) = body := by
    rw [← hsplit]
    exact intercalate_splitOn 32
  have hblank : ∀ f ∈ (ch :: word) :: fields, 32 ∉ f := fun f hf => Levels.not_mem_of_mem_splitOn (hsplit ▸ hf)
  rw [← hbody, handleLine_signed hch hblank, hbody, dispatch, arrives, hsplit]
  cases parseCommand ((ch :: word) :: fields) <;> rfl

/-- A request for a vote arrives as it was written if the address has no
blanks. -/
theorem arrives_voteBody (hterm : -2 ^ 63 ≤ term ∧ term < 2 ^ 63) (h : 32 ∉ candidate) :
    arrives (voteBody term candidate) = some (.requestVote term candidate) := by
  have hblank : ∀ f ∈ [ascii "REQUEST_VOTE", Codec.formatInt term, candidate], (32 : UInt8) ∉ f := by
    have hword : (32 : UInt8) ∉ ascii "REQUEST_VOTE" := by decide
    simpa using ⟨hword, not_blank_of_isPlain (Codec.isPlain_formatInt term), h⟩
  have hsplit : (voteBody term candidate).splitOn 32 = [ascii "REQUEST_VOTE", Codec.formatInt term, candidate] :=
    splitOn_intercalate 32 hblank (by simp)
  have hwords : ascii "REQUEST_VOTE" ≠ ascii "PING" ∧ ascii "REQUEST_VOTE" ≠ ascii "HEARTBEAT" ∧
      ascii "REQUEST_VOTE" ≠ ascii "REPLICATE" ∧ ascii "REQUEST_VOTE" ≠ ascii "SYNC_REQ" := by decide
  simp [arrives, hsplit, parseCommand, hwords, scanTerm_formatInt hterm]

/-! ## What holds of votes -/

/-- The vote that a task asks for or brings. -/
def Task.ask? {ι : Type} : Task ι → Option (ι × GoString × Int)
  | .requestVote i addr term => some (i, addr, term)
  | .voteGranted i addr term => some (i, addr, term)
  | _ => none

/-- The votes that are asked for and not counted yet. -/
def asks {ι : Type} (tasks : List (Task ι)) : List (ι × GoString × Int) := tasks.filterMap Task.ask?

abbrev Votes (ι : Type) := ι → Int → Option GoString

section Voting

variable {ι : Type} {cfg : ι → Config} {s : Net ι} {tasks tasks' : List (Task ι)} {log log' : Votes ι} {i j : ι}
  {n : Node}

/-- All of `V` have voted for node `i`. -/
def Backed (cfg : ι → Config) (log : Votes ι) (V : Finset ι) (i : ι) (term : Int) : Prop :=
  ∀ v ∈ V, log v term = some (cfg i).selfAddr

/-- Nothing is ever erased from the votes. -/
def Extends (log log' : Votes ι) : Prop := ∀ {v t a}, log v t = some a → log' v t = some a

theorem Backed.mono (h : Backed cfg log V i term) (hlog : Extends log log') :
    Backed cfg log' V i term := fun v hv => hlog (h v hv)

/-- The votes a candidate has counted were cast, and are asked for no longer.
A leader has a quorum, unless it was designated. -/
structure Standing (cfg : ι → Config) (tasks : List (Task ι)) (log : Votes ι) (i : ι) (n : Node) : Prop where
  candidate : n.role = .candidate → 0 < n.currentTerm ∧ ∃ V : Finset ι, V.card = n.votesReceived ∧
    Backed cfg log V i n.currentTerm ∧ ∀ v ∈ V, (i, (cfg v).selfAddr, n.currentTerm) ∉ asks tasks
  leader : n.role = .leader → (cfg i).isDesignatedLeader = true ∧ n.currentTerm = 0 ∨
    0 < n.currentTerm ∧ ∃ V : Finset ι, (cfg i).quorum ≤ V.card ∧ Backed cfg log V i n.currentTerm

theorem Standing.mono (h : Standing cfg tasks log i n) (hlog : Extends log log')
    (hasks : ∀ addr t, (i, addr, t) ∈ asks tasks' → (i, addr, t) ∈ asks tasks) : Standing cfg tasks' log' i n where
  candidate hr := by
    obtain ⟨hpos, V, hcard, hback, hnot⟩ := h.candidate hr
    exact ⟨hpos, V, hcard, hback.mono hlog, fun v hv hin => hnot v hv (hasks _ _ hin)⟩
  leader hr := by
    rcases h.leader hr with hdes | ⟨hpos, V, hcard, hback⟩
    · exact .inl hdes
    · exact .inr ⟨hpos, V, hcard, hback.mono hlog⟩

theorem Standing.follows (h : Standing cfg tasks log i n) (hn : n.Follows n') : Standing cfg tasks log i n' := by
  rcases hn.role with hr | ⟨hr, hterm, hvotes⟩
  · refine ⟨fun h' => ?_, fun h' => ?_⟩
    · cases hr.symm.trans h'
    · cases hr.symm.trans h'
  · refine ⟨fun h' => ?_, fun h' => ?_⟩
    · rw [hterm, hvotes]
      exact h.candidate (hr ▸ h')
    · rw [hterm]
      exact h.leader (hr ▸ h')

structure Voting (cfg : ι → Config) (s : Net ι) (log : Votes ι) : Prop where
  records : ∀ i, Register.Records (log i) (s.nodes i).register
  standing : ∀ i, Standing cfg s.tasks log i (s.nodes i)
  term : ∀ i, 0 ≤ (s.nodes i).currentTerm
  quorum : ∀ i, (s.nodes i).quorumSize = 0 ∨ (s.nodes i).quorumSize = (cfg i).quorum
  peers : ∀ i addr, addr ∈ (s.nodes i).peers ↔ addr ∈ loadPeersFromEnv (cfg i)
  /-- No vote is asked for twice. -/
  nodup : (asks s.tasks).Nodup
  asked : ∀ {i addr t}, (i, addr, t) ∈ asks s.tasks → addr ∈ loadPeersFromEnv (cfg i) ∧ t ≤ (s.nodes i).currentTerm ∧
    -2 ^ 63 ≤ t ∧ t < 2 ^ 63
  granted : ∀ {i j t}, .voteGranted i (cfg j).selfAddr t ∈ s.tasks → log j t = some (cfg i).selfAddr

theorem voting_init (now : Time) : Voting cfg (Net.init cfg now) fun _ _ => none where
  records i := ⟨rfl, fun _ => rfl⟩
  standing i := by
    refine ⟨fun hr => ?_, fun hr => ?_⟩
    · simp only [Net.init, newNode] at hr
      split at hr <;> cases hr
    · simp only [Net.init, newNode] at hr
      split at hr
      next hdes => exact .inl ⟨hdes, rfl⟩
      · cases hr
  term i := Int.le_refl 0
  quorum i := .inl rfl
  peers i addr := Iff.rfl
  nodup := nodup_nil
  asked hin := by cases hin
  granted hin := by cases hin

theorem Voting.fewer (h : Voting cfg s log) (hnodes : s'.nodes = s.nodes)
    (hsub : (asks s'.tasks).Sublist (asks s.tasks))
    (hgranted : ∀ {j addr t}, .voteGranted j addr t ∈ s'.tasks → .voteGranted j addr t ∈ s.tasks) :
    Voting cfg s' log where
  records i := by rw [hnodes]; exact h.records i
  standing i := by
    rw [hnodes]
    exact (h.standing i).mono id fun _ _ hin => hsub.subset hin
  term i := by rw [hnodes]; exact h.term i
  quorum i := by rw [hnodes]; exact h.quorum i
  peers i := by rw [hnodes]; exact h.peers i
  nodup := h.nodup.sublist hsub
  asked hin := by rw [hnodes]; exact h.asked (hsub.subset hin)
  granted hin := h.granted (hgranted hin)

theorem Voting.more (h : Voting cfg s log) (hnodes : s'.nodes = s.nodes)
    (htasks : s'.tasks = s.tasks ++ new) (hnone : ∀ t ∈ new, t.ask? = none) : Voting cfg s' log := by
  refine h.fewer hnodes ?_ fun {j addr t} hin => ?_
  · rw [htasks, asks, filterMap_append, filterMap_eq_nil_iff.mpr hnone, append_nil]
    exact Sublist.refl _
  · rw [htasks] at hin
    rcases mem_append.mp hin with hin | hin
    · exact hin
    · cases hnone _ hin

variable [DecidableEq ι]

/-- **The rule for a step of node `i`**: its vote moves forward, and it asks
for votes in its own name only. What is left to show is its standing. -/
theorem Voting.set (h : Voting cfg s log) (hf : (s.nodes i).register.Forward n'.register)
    (hquorum : n'.quorumSize = 0 ∨ n'.quorumSize = (cfg i).quorum)
    (hpeers : ∀ addr, addr ∈ n'.peers ↔ addr ∈ (s.nodes i).peers) (hnodup : (asks tasks').Nodup)
    (hasked : ∀ {j addr t}, (j, addr, t) ∈ asks tasks' →
      (j, addr, t) ∈ asks s.tasks ∨ j = i ∧ addr ∈ loadPeersFromEnv (cfg i) ∧ t ≤ n'.currentTerm ∧
        -2 ^ 63 ≤ t ∧ t < 2 ^ 63) (hgranted : ∀ {j v t}, .voteGranted j (cfg v).selfAddr t ∈ tasks' →
      .voteGranted j (cfg v).selfAddr t ∈ s.tasks ∨ v = i ∧ n'.register = ⟨t, some (cfg j).selfAddr⟩)
    (hstanding : ∀ log' : Votes ι, Extends log log' → Register.Records (log' i) n'.register →
      Standing cfg tasks' log' i n') : ∃ log', Voting cfg (s.set i n' tasks') log' := by
  obtain ⟨li, hli, hext⟩ := (h.records i).forward hf
  have hterm : (s.nodes i).currentTerm ≤ n'.currentTerm := hf.epoch_le
  have hnodes : ∀ {P : ι → Node → Prop}, P i n' → (∀ j, j ≠ i → P j (s.nodes j)) →
      ∀ j, P j ((s.set i n' tasks').nodes j) := fun hi ho =>
    (forall_update_iff _ (p := fun j n => _)).mpr ⟨hi, ho⟩
  have hlog : Extends log (update log i li) := by
    intro v t a
    by_cases hv : v = i
    · subst hv
      simpa using fun ha => hext ha
    · simp [hv]
  have hlogi : update log i li i = li := update_self ..
  have hreached : ∀ j, (s.nodes j).currentTerm ≤ ((s.set i n' tasks').nodes j).currentTerm :=
    hnodes (P := fun j n => (s.nodes j).currentTerm ≤ n.currentTerm) hterm fun j _ => le_rfl
  refine ⟨update log i li,
    hnodes (P := fun j n => Register.Records (update log i li j) n.register) (by rwa [hlogi]) fun j hj => ?_,
    hnodes (P := Standing cfg tasks' _) (hstanding _ hlog (by rwa [hlogi])) fun j hj => ?_,
    fun j => (h.term j).trans (hreached j),
      hnodes (P := fun j n => n.quorumSize = 0 ∨ n.quorumSize = _) hquorum fun j _ => h.quorum j,
    hnodes (P := fun j n => ∀ addr, addr ∈ n.peers ↔ addr ∈ loadPeersFromEnv _)
      (fun addr => (hpeers addr).trans (h.peers i addr))
      fun j _ => h.peers j,
    hnodup, fun {j addr t} hin => ?_, fun {j v t} hin => ?_⟩
  · rw [update_of_ne hj]
    exact h.records j
  · exact (h.standing j).mono hlog fun addr t hin => (hasked hin).resolve_right fun hji => hj hji.1
  · rcases hasked hin with hin | ⟨rfl, haddr, ht⟩
    · obtain ⟨haddr, ht, hrange⟩ := h.asked hin
      exact ⟨haddr, ht.trans (hreached j), hrange⟩
    · exact ⟨haddr, by simpa [Net.set] using ht.1, ht.2⟩
  · rcases hgranted hin with hin | ⟨rfl, hreg⟩
    · exact hlog (h.granted hin)
    · have hcur := hli.current
      rw [hreg] at hcur
      rw [hlogi]
      exact hcur

theorem Voting.follows (h : Voting cfg s log) (hn : (s.nodes i).Follows n') (hnodup : (asks tasks').Nodup)
    (hasked : ∀ x ∈ asks tasks', x ∈ asks s.tasks) (hgranted : ∀ {j v t}, .voteGranted j (cfg v).selfAddr t ∈ tasks' →
      .voteGranted j (cfg v).selfAddr t ∈ s.tasks ∨ v = i ∧ n'.register = ⟨t, some (cfg j).selfAddr⟩) :
    ∃ log', Voting cfg (s.set i n' tasks') log' :=
  h.set hn.forward (hn.quorum ▸ h.quorum i) hn.peers hnodup
    (fun hin => .inl (hasked _ hin)) hgranted fun _ hlog _ =>
    ((h.standing i).follows hn).mono hlog fun _ _ hin => hasked _ hin

theorem Voting.startElection (hd : Deployment cfg) (h : Voting cfg s log) (hlast : (s.nodes i).currentTerm < lastTerm)
    (hn' : n' = (s.nodes i).startElection (cfg i) s.now) :
    ∃ log', Voting cfg (s.set i n' (s.tasks ++ n'.peers.keys.map fun addr =>
      .requestVote i addr n'.currentTerm)) log' := by
  have hpeers : n'.peers = (s.nodes i).peers := by rw [hn']; rfl
  have hnonneg := h.term i
  have hterm : n'.currentTerm = (s.nodes i).currentTerm + 1 := by
    rw [hn']
    exact nextTerm_of_lt (by omega) hlast
  have hrange : n'.currentTerm < 2 ^ 63 := by
    unfold lastTerm at hlast
    omega
  have hreg : n'.register = ⟨n'.currentTerm, some (cfg i).selfAddr⟩ := by
    rw [hn']
    simp [Node.register, Node.startElection, hd.self_ne i]
  have hnew : asks (n'.peers.keys.map fun addr => Task.requestVote i addr n'.currentTerm) =
      n'.peers.keys.map fun addr => (i, addr, n'.currentTerm) := by
    simp [asks, filterMap_map, comp_def, Task.ask?]
  have hasks : asks (s.tasks ++ n'.peers.keys.map fun addr => Task.requestVote i addr n'.currentTerm) =
      asks s.tasks ++ n'.peers.keys.map fun addr => (i, addr, n'.currentTerm) := by
    rw [asks, filterMap_append, ← hnew]
    rfl
  -- Votes of the new term have not been asked for before.
  have hold : ∀ {addr}, (i, addr, n'.currentTerm) ∉ asks s.tasks := by
    intro addr hin
    have := (h.asked hin).2.1
    omega
  refine h.set (.inl ?_) ?_ (fun addr => by rw [hpeers]) ?_ ?_ ?_ ?_
  · show (s.nodes i).currentTerm < n'.currentTerm
    omega
  · rw [hn']
    exact h.quorum i
  · rw [hasks, nodup_append']
    refine ⟨h.nodup, n'.peers.keys_nodup.map fun a b he => by simpa using he, ?_⟩
    intro x hx hin
    obtain ⟨addr, -, rfl⟩ := List.mem_map.mp hin
    exact hold hx
  · intro j addr t hin
    rw [hasks, mem_append] at hin
    rcases hin with hin | hin
    · exact .inl hin
    · obtain ⟨addr', hmem, he⟩ := List.mem_map.mp hin
      cases he
      refine .inr ⟨rfl, (h.peers i _).mp ?_, Int.le_refl _, by omega, hrange⟩
      rw [← hpeers]
      exact hmem
  · intro j v t hin
    rcases mem_append.mp hin with hin | hin
    · exact .inl hin
    · obtain ⟨addr, -, he⟩ := List.mem_map.mp hin
      cases he
  · intro log' hlog hrec
    refine ⟨fun _ => ⟨by omega, {i}, ?_, ?_, ?_⟩, fun hr => ?_⟩
    · rw [hn']
      rfl
    · intro v hv
      rw [Finset.mem_singleton.mp hv]
      have hcur := hrec.current
      rw [hreg] at hcur
      exact hcur
    · intro v hv hin
      rw [Finset.mem_singleton.mp hv, hasks, mem_append] at hin
      rcases hin with hin | hin
      · exact hold hin
      · -- The node is not among its own peers.
        obtain ⟨addr, hmem, he⟩ := List.mem_map.mp hin
        cases he
        have hmem : (cfg i).selfAddr ∈ (s.nodes i).peers := by
          rw [← hpeers]
          exact hmem
        obtain ⟨j, hj, he⟩ := (hd.peers i _).mp ((h.peers i _).mp hmem)
        exact hj (hd.self_inj he)
    · rw [hn'] at hr
      cases hr

theorem Voting.countVote {v term} (h : Voting cfg s log)
    (htasks : (asks s.tasks).Perm ((i, (cfg v).selfAddr, term) :: asks tasks'))
    (hvote : log v term = some (cfg i).selfAddr) (hsub : ∀ t ∈ tasks', t ∈ s.tasks) :
    ∃ log', Voting cfg (s.set i ((s.nodes i).countVote (cfg i) term) tasks') log' := by
  obtain ⟨hreg, hquorum, hpeers, hcases⟩ := (s.nodes i).countVote_cases term (h.quorum i)
  have hnodup := htasks.nodup_iff.mp h.nodup
  rw [nodup_cons] at hnodup
  have hasked : ∀ x ∈ asks tasks', x ∈ asks s.tasks := fun x hx =>
    htasks.mem_iff.mpr (mem_cons_of_mem _ hx)
  have hterm : ((s.nodes i).countVote (cfg i) term).currentTerm = (s.nodes i).currentTerm :=
    congrArg Register.epoch hreg
  refine h.set (.of_eq hreg) (.inr hquorum) (fun addr => by rw [hpeers]) hnodup.2
    (fun hin => .inl (hasked _ hin))
    (fun hin => .inl (hsub _ hin)) fun log' hlog _ => ?_
  have hstand : Standing cfg tasks' log' i (s.nodes i) := (h.standing i).mono hlog fun _ _ hin => hasked _ hin
  rcases hcases with ⟨hrole, hvotes⟩ | ⟨hcand, ht, hvotes, hrole⟩
  · refine ⟨fun hr => ?_, fun hr => ?_⟩
    · rw [hterm, hvotes]
      exact hstand.candidate (hrole ▸ hr)
    · rw [hterm]
      exact hstand.leader (hrole ▸ hr)
  -- A candidate adds the node to those it has counted.
  obtain ⟨hpos, V, hcard, hback, hnot⟩ := (h.standing i).candidate hcand
  rw [ht] at hpos hback hnot
  have hv : v ∉ V := fun hv => hnot v hv (htasks.mem_iff.mpr (by simp))
  have hcard' : (insert v V).card = (s.nodes i).votesReceived + 1 := by
    rw [Finset.card_insert_of_notMem hv, hcard]
  have hback' : Backed cfg log' (insert v V) i term := by
    intro w hw
    rcases Finset.mem_insert.mp hw with rfl | hw
    · exact hlog hvote
    · exact hlog (hback w hw)
  rw [ht] at hterm
  refine ⟨fun _ => ?_, fun hr => ?_⟩
  · rw [hterm, hvotes]
    refine ⟨hpos, insert v V, hcard', hback', fun w hw hin => ?_⟩
    rcases Finset.mem_insert.mp hw with rfl | hw
    · exact hnodup.1 hin
    · exact hnot w hw (hasked _ hin)
  · rw [hterm]
    rcases hrole with ⟨hrole, -⟩ | ⟨-, hwin⟩
    · cases hrole.symm.trans hr
    · exact .inr ⟨hpos, insert v V, by omega, hback'⟩

theorem Voting.run (hd : Deployment cfg) (hclean : ∀ i, 32 ∉ (cfg i).selfAddr) (h : Voting cfg s log)
    (ht : s.tasks[k]? = some t) (hrun : t.run cfg s.now j (s.nodes j) = some (n', new)) :
    ∃ log', Voting cfg (s.set j n' (s.tasks.eraseIdx k ++ new)) log' := by
  obtain ⟨hk, hget⟩ := List.getElem?_eq_some_iff.mp ht
  have hperm : (t :: s.tasks.eraseIdx k).Perm s.tasks := hget ▸ getElem_cons_eraseIdx_perm hk
  have hsub : ∀ x ∈ s.tasks.eraseIdx k, x ∈ s.tasks := fun x hx => hperm.subset (mem_cons_of_mem _ hx)
  have hasks : (t.ask?.toList ++ asks (s.tasks.eraseIdx k)).Perm (asks s.tasks) := by
    have hp := hperm.filterMap Task.ask?
    rw [filterMap_cons] at hp
    cases hask : t.ask? with
    | none | some x => rw [hask] at hp; exact hp
  have hnodup := hasks.nodup_iff.mpr h.nodup
  have hrest : (asks (s.tasks.eraseIdx k)).Nodup := (nodup_append'.mp hnodup).2.1
  have hin : ∀ x ∈ asks (s.tasks.eraseIdx k), x ∈ asks s.tasks := fun x hx =>
    hasks.subset (mem_append_right _ hx)
  -- A node that follows, and whose new tasks ask for no vote.
  have hquiet : (s.nodes j).Follows n' → (∀ t ∈ new, t.ask? = none) →
      ∃ log', Voting cfg (s.set j n' (s.tasks.eraseIdx k ++ new)) log' := by
    intro hn hnone
    have hnew : asks (s.tasks.eraseIdx k ++ new) = asks (s.tasks.eraseIdx k) := by
      rw [asks, filterMap_append, filterMap_eq_nil_iff.mpr hnone, append_nil]
      rfl
    refine h.follows hn (by rw [hnew]; exact hrest) (by rw [hnew]; exact hin) fun {j v t} hmem => ?_
    rcases mem_append.mp hmem with hmem | hmem
    · exact .inl (hsub _ hmem)
    · cases hnone _ hmem
  cases t with
  | gossip i target =>
    simp only [Task.run] at hrun
    split at hrun <;> cases hrun
    exact hquiet (.refl _) (by simp [Task.ask?])
  | send addr body =>
    simp only [Task.run] at hrun
    split at hrun
    · split at hrun <;> cases hrun
      · refine hquiet (Node.handleHeartbeat_follows _) fun t ht => ?_
        split at ht
        · rw [mem_singleton.mp ht]
          rfl
        · cases ht
      · exact hquiet (Node.handleReplicate_follows _) (by simp)
      · exact hquiet (.refl _) (by simp)
    · cases hrun
  | sync i =>
    simp only [Task.run] at hrun
    split at hrun <;> cases hrun
    exact hquiet (Node.setSynced_follows _) (by simp)
  | requestVote i addr term =>
    have hask : (i, addr, term) ∈ asks s.tasks := mem_filterMap.mpr ⟨_, mem_of_getElem? ht, rfl⟩
    simp only [Task.run, arrives_voteBody (h.asked hask).2.2 (hclean i)] at hrun
    split at hrun <;> cases hrun
    next hj =>
      subst hj
      obtain ⟨hn, hreg⟩ := (s.nodes j).evaluateVote_follows (cfg j) s.now term (hd.self_ne i)
      cases hallowed : ((s.nodes j).evaluateVote (cfg j) s.now term (cfg i).selfAddr).1 with
      | false =>
        rw [if_neg (by simp)]
        rw [hallowed] at hquiet
        exact hquiet hn (by simp)
      | true =>
        -- The reply brings the vote that the command has asked for.
        have hnew : (asks (s.tasks.eraseIdx k ++ [.voteGranted i (cfg j).selfAddr term])).Perm
          (asks s.tasks) := by
          rw [asks, filterMap_append]
          exact perm_append_comm.trans hasks
        rw [if_pos rfl]
        refine h.follows hn (hnew.nodup_iff.mpr h.nodup) (fun x hx => hnew.subset hx) fun {i' v t} hmem => ?_
        rcases mem_append.mp hmem with hmem | hmem
        · exact .inl (hsub _ hmem)
        · obtain ⟨rfl, haddr, rfl⟩ := Task.voteGranted.inj (mem_singleton.mp hmem)
          exact .inr ⟨hd.self_inj haddr, hreg hallowed⟩
  | voteGranted i addr term =>
    simp only [Task.run] at hrun
    split at hrun <;> cases hrun
    next hij =>
      subst hij
      rw [append_nil]
      have hmem : Task.voteGranted i addr term ∈ s.tasks := mem_of_getElem? ht
      have hask : (i, addr, term) ∈ asks s.tasks := mem_filterMap.mpr ⟨_, hmem, rfl⟩
      obtain ⟨v, -, rfl⟩ := (hd.peers i addr).mp (h.asked hask).1
      exact h.countVote hasks.symm (h.granted hmem) hsub

/-- **Every step keeps the votes.** -/
theorem Voting.step (hd : Deployment cfg) (hclean : ∀ i, 32 ∉ (cfg i).selfAddr) (h : Voting cfg s log)
    (hlast : s.InTerms e) (hstep : s.step cfg e = some s') : ∃ log', Voting cfg s' log' := by
  cases e with
  | tick d =>
    cases hstep
    exact ⟨log, h.fewer rfl (Sublist.refl _) id⟩
  | startElection i =>
    simp only [Net.step] at hstep
    split at hstep <;> cases hstep
    exact h.startElection hd (hlast i rfl) rfl
  | dispatchGossip i | replicate i topic payload =>
    simp only [Net.step] at hstep
    split at hstep <;> cases hstep
    refine ⟨log, h.more rfl rfl fun t ht => ?_⟩
    obtain ⟨addr, -, rfl⟩ := List.mem_map.mp ht
    rfl
  | mark i addr alive =>
    cases hstep
    refine h.follows ?_ h.nodup (fun x hx => hx) fun hin => .inl hin
    cases alive with
    | true => exact Node.markPeerAlive_follows _
    | false => exact Node.markPeerDead_follows _
  | run k j =>
    obtain ⟨t, ht, hstep⟩ := Option.bind_eq_some_iff.mp hstep
    obtain ⟨⟨n', new⟩, hrun, hstep⟩ := Option.bind_eq_some_iff.mp hstep
    cases hstep
    exact h.run hd hclean ht hrun
  | lose k =>
    cases hstep
    have hsub : (s.tasks.eraseIdx k).Sublist s.tasks := eraseIdx_sublist ..
    exact ⟨log, h.fewer rfl (hsub.filterMap _) fun hin => hsub.subset hin⟩

end Voting

/-! ## One leader in a term -/

/-- **Election safety.** In every run of a cluster whose addresses have no
blanks or line breaks, and in which no election is started in the last term,
two nodes that lead in the same term are the same. -/
theorem leader_unique {ι : Type} [Fintype ι] [DecidableEq ι] {cfg : ι → Config} {now : Time} {s : Net ι} {i j : ι}
    (hd : Deployment cfg) (hclean : ∀ i, 32 ∉ (cfg i).selfAddr ∧ 10 ∉ (cfg i).selfAddr)
    (hrun : Lts.Run (Net.step cfg) Net.InTerms (Net.init cfg now) s)
    (hi : (s.nodes i).role = .leader) (hj : (s.nodes j).role = .leader)
    (hterm : (s.nodes i).currentTerm = (s.nodes j).currentTerm) : i = j := by
  obtain ⟨log, h⟩ : ∃ log, Voting cfg s log :=
    hrun.invariant (I := fun s => ∃ log, Voting cfg s log)
      (fun s e s' ⟨log, h⟩ hlast hstep => h.step hd (fun i => (hclean i).1) hlast hstep) ⟨_, voting_init now⟩
  rcases (h.standing i).leader hi with ⟨hdi, hti⟩ | ⟨hti, V, hV, hbackV⟩ <;>
    rcases (h.standing j).leader hj with ⟨hdj, htj⟩ | ⟨htj, W, hW, hbackW⟩
  · exact hd.designated i j hdi hdj
  · omega
  · omega
  · -- Some node has voted for both.
    have hmeet : Fintype.card ι < V.card + W.card := by
      have hi := hd.majority i
      have hj := hd.majority j
      omega
    obtain ⟨v, hv⟩ := Finset.inter_nonempty_of_card_lt_card_add_card (Finset.subset_univ V)
      (Finset.subset_univ W)
      (by rwa [Finset.card_univ])
    obtain ⟨hvV, hvW⟩ := Finset.mem_inter.mp hv
    have hvote := hbackV v hvV
    rw [hterm, hbackW v hvW] at hvote
    exact hd.self_inj (Option.some.inj hvote).symm

def sampleConfig (i : Fin 3) : Config where
  address := [ascii "a:1", ascii "b:1", ascii "c:1"].getD i []
  httpPort := ascii "80"
  self := []
  nodes := [ascii "b:1,c:1", ascii "a:1,c:1", ascii "a:1,b:1"].getD i []
  isDesignatedLeader := i == 2
  httpAdvertise := []
  hostname := ascii "h"

theorem deployment_of_keys {cfg : Fin 3 → Config} (hinj : Injective fun i => (cfg i).selfAddr)
    (hne : ∀ i, (cfg i).selfAddr ≠ []) (hkeys : ∀ i, (loadPeersFromEnv (cfg i)).keys.Perm
      ((finRange 3).filterMap fun j => if j ≠ i then some (cfg j).selfAddr else none))
    (hd : ∀ i j, (cfg i).isDesignatedLeader = true → (cfg j).isDesignatedLeader = true → i = j) : Deployment cfg := by
  refine ⟨hinj, hne, fun i addr => ?_, hd⟩
  rw [AList.mem_keys, (hkeys i).mem_iff]
  simp

theorem sampleConfig_deployment : Deployment sampleConfig :=
  deployment_of_keys (by decide) (by decide) (by decide) (by decide)

/-- Node 0 is elected by node 1 in term 1, while node 2 still leads in term 0. -/
def sampleElection : List (Event (Fin 3)) := [.startElection 0, .run 1 1, .run 1 0]

theorem leader_unique_sample : ∃ s : Net (Fin 3), Deployment sampleConfig ∧
    Lts.Run (Net.step sampleConfig) Net.InTerms (Net.init sampleConfig 0) s ∧ (s.nodes 0).role = .leader ∧
    (s.nodes 2).role = .leader ∧ (s.nodes 0).currentTerm = 1 ∧
    ∀ j, (s.nodes j).role = .leader → (s.nodes 0).currentTerm = (s.nodes j).currentTerm → 0 = j := by
  have hrun : Lts.Run (Net.step sampleConfig) Net.InTerms (Net.init sampleConfig 0)
      ((Lts.exec (Net.step sampleConfig) (Net.init sampleConfig 0) sampleElection).get (by decide +kernel)) :=
    Lts.Run.of_exec_get sampleElection (by decide +kernel) (by decide +kernel)
  refine ⟨_, sampleConfig_deployment, hrun,
    by decide +kernel, by decide +kernel, by decide +kernel, fun j hj hterm => ?_⟩
  exact leader_unique sampleConfig_deployment (by decide) hrun (by decide +kernel) hj hterm

/-- Three nodes; the address of the second begins with that of the first. -/
def blankConfig (i : Fin 3) : Config where
  address := [ascii "x:1", ascii "x:1 y", ascii "z:1"].getD i []
  httpPort := ascii "80"
  self := []
  nodes := [ascii "x:1 y,z:1", ascii "x:1,z:1", ascii "x:1,x:1 y"].getD i []
  isDesignatedLeader := false
  httpAdvertise := []
  hostname := ascii "h"

/-- **Two leaders in one term**: the third node votes for both of the others,
whose requests it cannot tell apart. -/
theorem two_leaders : Deployment blankConfig ∧
    ∃ s : Net (Fin 3), Lts.exec (Net.step blankConfig) (Net.init blankConfig 0)
        [.startElection 0, .startElection 1, .run 0 2, .run 1 2, .run 2 0, .run 2 1] = some s ∧
      (s.nodes 0).role = .leader ∧ (s.nodes 1).role = .leader ∧
      (s.nodes 0).currentTerm = 1 ∧ (s.nodes 1).currentTerm = 1 := by
  refine ⟨deployment_of_keys (by decide) (by decide) (by decide) (by decide), ?_⟩
  exact ⟨_, Option.eq_some_of_isSome (by decide +kernel), by decide +kernel⟩

end Cluster

end TinyMQ
