/-
The quorum of a cluster, computed from `TINYMQ_CLUSTER_NODES`.

`calculateQuorum` counts the entries of the variable, and one more for the
node itself; `loadPeersFromEnv` skips the node, empty entries and repeated
ones. `quorum_majority_iff` says for which values the two agree.
`candidate_short_iff` says that a candidate never has a quorum of votes,
unless one vote is a quorum.
-/
import TinyMQ.Ballots

namespace TinyMQ

open List

namespace Cluster

variable {c : Config} {l : Life} {n : Node} {now : Time}

/-- The addresses of the other nodes that the variable lists. -/
def Config.peerAddrs (c : Config) : List GoString :=
  ((c.entries.map trimSpaces).filter fun addr => !c.skips addr).dedup

theorem length_peerAddrs_le (c : Config) : c.peerAddrs.length ≤ c.entries.length :=
  calc c.peerAddrs.length ≤ ((c.entries.map trimSpaces).filter fun addr => !c.skips addr).length :=
        (dedup_sublist _).length_le
    _ ≤ (c.entries.map trimSpaces).length := length_filter_le _ _
    _ = c.entries.length := length_map _

theorem length_loadPeersFromEnv (c : Config) : (loadPeersFromEnv c).keys.length = c.peerAddrs.length := by
  by_cases hnodes : c.nodes = []
  · have hskips : c.skips [] = true := by simp [Config.skips]
    have htrim : trimSpaces [] = [] := rfl
    have hentries : c.entries = [[]] := by rw [Config.entries, hnodes]; rfl
    have hnone : c.peerAddrs = [] := by simp [Config.peerAddrs, hentries, htrim, hskips]
    rw [hnone, loadPeersFromEnv, if_pos hnodes]
    rfl
  · refine ((perm_ext_iff_of_nodup (AList.keys_nodup _) (nodup_dedup _)).mpr fun addr => ?_).length_eq
    rw [← AList.mem_keys, loadPeersFromEnv, if_neg hnodes, mem_foldl_insert]
    simp [AList.notMem_empty]

theorem one_lt_quorum (h : c.nodes ≠ []) : 1 < c.quorum := by
  have hpos := length_pos_iff.mpr (splitOn_ne_nil 44 c.nodes)
  rw [Config.quorum, if_neg h, Config.entries]
  omega

/-- What a node knows of its election: the quorum is that of the variable
once it is computed, and a candidate has less votes. One vote may be a
quorum. -/
structure Node.Counts (c : Config) (n : Node) : Prop where
  quorum : n.quorumSize = 0 ∨ n.quorumSize = c.quorum
  short : n.role = .candidate → c.isDesignatedLeader = false ∧ n.votesReceived < max 2 c.quorum

theorem Node.Counts.yields (h : n.Counts c) (hy : n.Yields n') : n'.Counts c := by
  refine ⟨hy.quorum ▸ h.quorum, fun hrole => ?_⟩
  rcases hy.role with hfollower | ⟨hsame, -, hvotes⟩
  · simp [hfollower] at hrole
  · rw [hvotes]
    exact h.short (hsame ▸ hrole)

theorem Node.Counts.countVote (h : n.Counts c) (term : Int) : (n.countVote c term).Counts c := by
  obtain ⟨-, hquorum, -, hcases⟩ := n.countVote_cases term h.quorum
  refine ⟨.inr hquorum, fun hrole => ?_⟩
  rcases hcases with ⟨hsame, hvotes⟩ | ⟨hcand, -, hvotes, ⟨-, hlt⟩ | ⟨hleader, -⟩⟩
  · rw [hvotes]
    exact h.short (hsame ▸ hrole)
  · exact ⟨(h.short hcand).1, by omega⟩
  · simp [hleader] at hrole

theorem Life.counts_step (h : l.node.Counts c) (hs : l.step c e = some l') : l'.node.Counts c := by
  obtain ⟨t, input⟩ := e
  cases input with
  | restart =>
    cases hs
    refine ⟨.inl rfl, fun hrole => ?_⟩
    simp only [newNode] at hrole
    split at hrole <;> cases hrole
  | startElection =>
    simp only [Life.step] at hs
    split at hs <;> cases hs
    next hd => exact ⟨h.quorum, fun _ => ⟨by simpa using hd, lt_max_of_lt_left Nat.one_lt_two⟩⟩
  | requestVote term candidate => cases hs; exact h.yields (l.node.evaluateVote_yields c t term candidate)
  | heartbeat term leader leaderHttp => cases hs; exact h.yields l.node.handleHeartbeat_follows.yields
  | setSynced => cases hs; exact h.yields l.node.setSynced_follows.yields
  | dialFailed => cases hs; exact h.yields ⟨.inr ⟨rfl, rfl, rfl⟩, Int.le_refl _, rfl⟩
  | replicate term leader => cases hs; exact h.yields l.node.handleReplicate_follows.yields
  | voteGranted term => cases hs; exact h.countVote term
  | mark addr alive =>
    cases hs
    cases alive
    · exact h.yields l.node.markPeerDead_follows.yields
    · exact h.yields l.node.markPeerAlive_follows.yields

theorem Life.counts_of_run (hrun : Lts.Run (Life.step c) (fun _ _ => True) (Life.start c now) l) : l.node.Counts c := by
  refine hrun.invariant (I := fun l => l.node.Counts c) (fun _ _ _ hI _ hs => counts_step hI hs)
    ⟨.inl rfl, fun hrole => ?_⟩
  simp only [Life.start, newNode] at hrole
  split at hrole <;> cases hrole

/-- **When the quorum is the majority** of the node and its peers: without the
variable, if every entry is another peer, or if all entries but one are and
their number is odd. -/
theorem quorum_majority_iff (hrun : Lts.Run (Life.step c) (fun _ _ => True) (Life.start c now) l) :
    (l.node.calculateQuorum c).1 = (1 + (loadPeersFromEnv c).keys.length) / 2 + 1 ↔
      c.nodes = [] ∨ c.entries.length = c.peerAddrs.length ∨
        c.entries.length = c.peerAddrs.length + 1 ∧ c.peerAddrs.length % 2 = 1 := by
  rw [Node.calculateQuorum_eq (Life.counts_of_run hrun).quorum, length_loadPeersFromEnv]
  have hle := length_peerAddrs_le c
  by_cases hnodes : c.nodes = []
  · have hone : c.peerAddrs.length = 0 := by rw [← length_loadPeersFromEnv, loadPeersFromEnv, if_pos hnodes]; rfl
    simp [hnodes, Config.quorum, hone]
  · simp only [Config.quorum, hnodes, if_false, false_or]
    omega

/-- The two other nodes of a cluster of three. -/
theorem quorum_majority_sample : ∃ l, Lts.Run (Life.step trioConfig) (fun _ _ => True) (Life.start trioConfig 0) l ∧
    (l.node.calculateQuorum trioConfig).1 = (1 + (loadPeersFromEnv trioConfig).keys.length) / 2 + 1 :=
  ⟨_, .refl, (quorum_majority_iff .refl).mpr (by decide)⟩

/-- **Every node listed** on every node: three of three must agree, where two
are the majority. -/
theorem quorum_unanimous : ∃ c : Config, c.nodes = ascii "mq-0:7000,mq-1:7000,mq-2:7000" ∧
    c.selfAddr = ascii "mq-0:7000" ∧
    (loadPeersFromEnv c).keys.length = 2 ∧ ((Life.start c 0).node.calculateQuorum c).1 = 3 :=
  ⟨{ loneConfig with self := ascii "mq-0:7000", nodes := ascii "mq-0:7000,mq-1:7000,mq-2:7000" },
    rfl, rfl, by decide, by decide⟩

/-- **When a candidate is short of a quorum** in every state it comes to: if the
variable is set, or the node never runs for an election. -/
theorem candidate_short_iff (c : Config) :
    (∀ now l, Lts.Run (Life.step c) (fun _ _ => True) (Life.start c now) l → l.node.role = .candidate →
      l.node.votesReceived < (l.node.calculateQuorum c).1) ↔ c.nodes ≠ [] ∨ c.isDesignatedLeader = true := by
  constructor
  · intro h
    by_contra hnot
    rw [not_or, not_not, Bool.not_eq_true] at hnot
    have hstep : (Life.start c 0).step c (1, .startElection) =
        some { Life.start c 0 with node := (newNode c 0).startElection c 1, grants := [(nextTerm 0, c.selfAddr)] } := by
      simp [Life.step, hnot.2, Life.start, Node.startElection, newNode]
    have hlt := h 0 _ (Lts.Run.refl.snoc trivial hstep) rfl
    have hone : c.quorum = 1 := if_pos hnot.1
    simp [Node.calculateQuorum, Node.startElection, newNode, hone] at hlt
  · intro hc now l hrun hrole
    have hcounts := Life.counts_of_run hrun
    obtain ⟨hdesignated, hlt⟩ := hcounts.short hrole
    have htwo := one_lt_quorum (hc.resolve_right (by simp [hdesignated]))
    rw [Node.calculateQuorum_eq hcounts.quorum]
    exact lt_of_lt_of_eq hlt (max_eq_right htwo)

/-- **A candidate with a quorum**: a node without peers is never the leader. -/
theorem lone_candidate : ∃ l, Lts.exec (Life.step loneConfig) (Life.start loneConfig 0) [(1, .startElection)] = some l ∧
    l.node.role = .candidate ∧ (l.node.calculateQuorum loneConfig).1 ≤ l.node.votesReceived :=
  ⟨_, rfl, rfl, by decide⟩

end Cluster

end TinyMQ
