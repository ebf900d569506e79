/-
Replication: `Replicate` on a leader, its goroutines, and the followers that
serve its command.

A follower that trusts the leader publishes the message locally and answers
`REPLICATE_ACK` whatever became of it. `Replicate` counts the answers, and
asks only peers it thinks alive; when there are none it succeeds at once.
-/
import TinyMQ.Cluster
import TinyMQ.Lib.Lts
import Mathlib.Data.Finset.Card

namespace TinyMQ

open List

namespace Cluster

/-! ## The call -/

/-- A follower when the command reaches it, and the error its
`PublishReplicated` returns, if any. -/
structure Follower where
  node : Node
  publishError : Option GoString

inductive Reply
  | ack
  | denied
  deriving DecidableEq, Repr

/-- The command `REPLICATE` at a follower: its reply, and whether the
message was published. The payload decodes, as the leader has encoded it. -/
def Follower.serve (f : Follower) (now : Time) (term : Int) (leader : GoString) : Reply × Bool :=
  if (f.node.handleReplicate now term leader).1 then (.ack, f.publishError.isNone) else (.denied, false)

inductive ReplicateError
  /-- `HTTP_PROXY_REQUIRED`. -/
  | proxyRequired
  /-- `replication quorum timeout: %d/%d ACKs received`. -/
  | quorumTimeout (acks total : Nat)
  deriving DecidableEq, Repr

/-- Where `Replicate` is: before the test of its loop, in its `select`, or
done. -/
inductive Progress
  | testing
  | selecting
  | done (r : Except ReplicateError Unit)

structure Replication where
  /-- Peers whose goroutines wait for a reply. -/
  asked : List GoString
  /-- Peers whose `REPLICATE_ACK` is on its way. -/
  acks : List GoString
  /-- Peers whose goroutines have added to `successCount`. -/
  counted : List GoString
  /-- How many of these have not sent to `ackChan` yet. -/
  unsent : Nat
  /-- What is in `ackChan`. -/
  ackChan : Nat
  /-- Followers whose `PublishReplicated` has returned nil. -/
  accepted : List GoString
  progress : Progress

/-- The leader counts itself. -/
def Replication.successCount (r : Replication) : Nat := r.counted.length + 1

inductive ReplicationEvent
  /-- The follower at `addr` serves the command. -/
  | serve (addr : GoString)
  /-- The goroutine of `addr` reads the reply and counts it, then sends. -/
  | count (addr : GoString)
  | send
  /-- The test of the loop, and the two cases of its `select`. -/
  | test
  | receive
  | timeout
  deriving DecidableEq

section Step

variable (c : Config) (n : Node) (followers : GoString → Follower)

/-- `Replicate` up to its loop. -/
def Replication.start : Replication where
  asked := if n.role = .leader then n.alivePeers else []
  acks := []
  counted := []
  unsent := 0
  ackChan := 0
  accepted := []
  progress :=
    if n.role = .leader then if n.alivePeers = [] then .done (.ok ()) else .testing
    else .done (.error .proxyRequired)

def Replication.step (now : Time) (r : Replication) : ReplicationEvent → Option Replication
  | .serve addr =>
    if addr ∈ r.asked then
      let (reply, published) := (followers addr).serve now n.currentTerm c.selfAddr
      some { r with
        asked := r.asked.erase addr
        acks := if reply = .ack then addr :: r.acks else r.acks
        accepted := if published then addr :: r.accepted else r.accepted }
    else none
  | .count addr =>
    if addr ∈ r.acks then
      some { r with acks := r.acks.erase addr, counted := addr :: r.counted, unsent := r.unsent + 1 }
    else none
  | .send => if 0 < r.unsent then some { r with unsent := r.unsent - 1, ackChan := r.ackChan + 1 } else none
  | .test =>
    match r.progress with
    | .testing =>
      if r.successCount < (n.calculateQuorum c).1 then some { r with progress := .selecting }
      else some { r with progress := .done (.ok ()) }
    | _ => none
  | .receive =>
    match r.progress with
    | .selecting => if 0 < r.ackChan then some { r with ackChan := r.ackChan - 1, progress := .testing } else none
    | _ => none
  | .timeout =>
    match r.progress with
    | .selecting =>
      some { r with progress := .done (.error (.quorumTimeout r.successCount (n.peers.keys.length + 1))) }
    | _ => none

end Step

/-! ## What has been counted -/

section Counting

variable {c : Config} {n : Node} {followers : GoString → Follower} {now : Time} {r r' : Replication} {addr : GoString}

/-- The peers that answer `REPLICATE_ACK` if they are asked, with the message
published or not. -/
def published (c : Config) (n : Node) (followers : GoString → Follower) : List GoString :=
  n.alivePeers.filter fun addr =>
    (followers addr).node.trustsLeader n.currentTerm c.selfAddr && (followers addr).publishError.isNone

def unpublished (c : Config) (n : Node) (followers : GoString → Follower) : List GoString :=
  n.alivePeers.filter fun addr =>
    (followers addr).node.trustsLeader n.currentTerm c.selfAddr && !(followers addr).publishError.isNone

theorem Follower.serve_eq (f : Follower) (term : Int) (leader : GoString) : f.serve now term leader =
    if f.node.trustsLeader term leader then (.ack, f.publishError.isNone) else (.denied, false) := by
  unfold serve Node.handleReplicate
  by_cases h : f.node.trustsLeader term leader = true <;> simp [h]

theorem Node.alivePeers_nodup (n : Node) : n.alivePeers.Nodup := n.peers.keys_nodup.filter _

/-- Each peer is asked once. Those that have acknowledged trust the leader,
and have accepted the message if they could publish it. -/
structure Counts (c : Config) (n : Node) (followers : GoString → Follower) (r : Replication) : Prop where
  nodup : (r.asked ++ r.acks ++ r.counted).Nodup
  alive : ∀ addr ∈ r.asked ++ r.acks ++ r.counted, addr ∈ n.alivePeers
  trusts : ∀ addr ∈ r.acks ++ r.counted, (followers addr).node.trustsLeader n.currentTerm c.selfAddr = true
  accepted : ∀ addr ∈ r.acks ++ r.counted, (followers addr).publishError.isNone = true → addr ∈ r.accepted
  leader : n.role = .leader ∨ ∃ e, r.progress = .done (.error e)
  done : ∀ {u}, r.progress = .done (.ok u) → n.alivePeers = [] ∨ (n.calculateQuorum c).1 ≤ r.successCount

theorem Counts.start : Counts c n followers (.start n) := by
  by_cases hrole : n.role = .leader
  · refine ⟨?_, ?_, ?_, ?_, .inl hrole, fun {u} h => ?_⟩
    · simpa [Replication.start, hrole] using n.alivePeers_nodup
    · simp [Replication.start, hrole]
    · simp [Replication.start]
    · simp [Replication.start]
    · simp only [Replication.start, if_pos hrole] at h
      split at h
      next halive => exact .inl halive
      · cases h
  · refine ⟨?_, ?_, ?_, ?_, .inr ⟨.proxyRequired, ?_⟩, fun {u} h => ?_⟩
    · simp [Replication.start, hrole]
    · simp [Replication.start, hrole]
    · simp [Replication.start]
    · simp [Replication.start]
    · simp only [Replication.start, if_neg hrole]
    · simp only [Replication.start, if_neg hrole] at h
      cases h

theorem Counts.serve (h : Counts c n followers r) (hmem : addr ∈ r.asked)
    (hr' : r.step c n followers now (.serve addr) = some r') : Counts c n followers r' := by
  simp only [Replication.step, if_pos hmem, Follower.serve_eq] at hr'
  have hperm := perm_cons_erase hmem
  by_cases htrust : (followers addr).node.trustsLeader n.currentTerm c.selfAddr = true
  · simp only [if_pos htrust, if_true] at hr'
    cases hr'
    have hp : (r.asked.erase addr ++ (addr :: r.acks) ++ r.counted).Perm
      (r.asked ++ r.acks ++ r.counted) := by
      refine Perm.append_right _ ?_
      exact perm_middle.trans (hperm.symm.append_right _)
    refine ⟨hp.nodup_iff.mpr h.nodup, fun a ha => h.alive a (hp.subset ha), fun a ha => ?_,
      fun a ha hok => ?_, h.leader,
      h.done⟩
    · rcases mem_cons.mp ha with rfl | ha
      · exact htrust
      · exact h.trusts a ha
    · rcases mem_cons.mp ha with rfl | ha
      · simp [hok]
      · have hold := h.accepted a ha hok
        show a ∈ if _ then _ else _
        split
        · exact mem_cons_of_mem _ hold
        · exact hold
  · simp only [if_neg htrust] at hr'
    cases hr'
    have hsub : (r.asked.erase addr ++ r.acks ++ r.counted).Sublist (r.asked ++ r.acks ++ r.counted) :=
      (erase_sublist.append_right _).append_right _
    exact ⟨h.nodup.sublist hsub, fun a ha => h.alive a (hsub.subset ha), h.trusts, h.accepted,
      h.leader, h.done⟩

theorem Counts.count (h : Counts c n followers r) (hmem : addr ∈ r.acks) : Counts c n followers
    { r with acks := r.acks.erase addr, counted := addr :: r.counted, unsent := r.unsent + 1 } := by
  have hp : (r.acks.erase addr ++ addr :: r.counted).Perm (r.acks ++ r.counted) :=
    perm_middle.trans ((perm_cons_erase hmem).symm.append_right _)
  have hp' : (r.asked ++ r.acks.erase addr ++ addr :: r.counted).Perm (r.asked ++ r.acks ++ r.counted) := by
    rw [append_assoc, append_assoc]
    exact hp.append_left _
  refine ⟨hp'.nodup_iff.mpr h.nodup, fun a ha => h.alive a (hp'.subset ha), fun a ha =>
    h.trusts a (hp.subset ha),
    fun a ha => h.accepted a (hp.subset ha), h.leader, fun hdone => (h.done hdone).imp_right fun hq => ?_⟩
  simp only [Replication.successCount, length_cons] at hq ⊢
  omega

/-- **Every step of the call keeps the count.** -/
theorem Counts.step (h : Counts c n followers r)
    (hstep : r.step c n followers now e = some r') : Counts c n followers r' := by
  cases e with
  | serve addr =>
    by_cases hmem : addr ∈ r.asked
    · exact h.serve hmem hstep
    · simp [Replication.step, hmem] at hstep
  | count addr =>
    simp only [Replication.step] at hstep
    split at hstep <;> cases hstep
    next hmem => exact h.count hmem
  | send =>
    simp only [Replication.step] at hstep
    split at hstep <;> cases hstep
    exact ⟨h.nodup, h.alive, h.trusts, h.accepted, h.leader, h.done⟩
  | test =>
    simp only [Replication.step] at hstep
    split at hstep
    next hprogress =>
      have hrole : n.role = .leader := h.leader.resolve_right (by simp [hprogress])
      split at hstep <;> cases hstep
      · exact ⟨h.nodup, h.alive, h.trusts, h.accepted, .inl hrole, fun hdone => by cases hdone⟩
      next hq =>
        exact ⟨h.nodup, h.alive, h.trusts, h.accepted, .inl hrole, fun _ =>
          .inr (Nat.le_of_not_lt hq)⟩
    · cases hstep
  | receive =>
    simp only [Replication.step] at hstep
    split at hstep
    next hprogress =>
      have hrole : n.role = .leader := h.leader.resolve_right (by simp [hprogress])
      split at hstep <;> cases hstep
      exact ⟨h.nodup, h.alive, h.trusts, h.accepted, .inl hrole, fun hdone => by cases hdone⟩
    · cases hstep
  | timeout =>
    simp only [Replication.step] at hstep
    split at hstep <;> cases hstep
    exact ⟨h.nodup, h.alive, h.trusts, h.accepted, .inr ⟨_, rfl⟩, fun hdone => by cases hdone⟩

/-- The peers that were counted, by what became of their publish. -/
theorem Counts.counted_le (h : Counts c n followers r) :
    r.counted.length ≤ (unpublished c n followers).length + (published c n followers).length ∧
      r.counted.length ≤ (unpublished c n followers).length + r.accepted.toFinset.card := by
  have hnodup : r.counted.Nodup := (nodup_append'.mp h.nodup).2.1
  have hmem : ∀ a ∈ r.counted, a ∈ n.alivePeers ∧
    (followers a).node.trustsLeader n.currentTerm c.selfAddr = true :=
    fun a ha => ⟨h.alive a (mem_append_right _ ha), h.trusts a (mem_append_right _ ha)⟩
  let ok : GoString → Bool := fun a => (followers a).publishError.isNone
  have hlen : r.counted.length = (r.counted.filter ok).length + (r.counted.filter fun a => !ok a).length :=
    length_eq_length_filter_add ok
  have hbad : (r.counted.filter fun a => !ok a).length ≤ (unpublished c n followers).length := by
    refine (subperm_of_subset (hnodup.filter _) fun a ha => ?_).length_le
    obtain ⟨ha, hok⟩ := mem_filter.mp ha
    exact mem_filter.mpr ⟨(hmem a ha).1, by simp only [(hmem a ha).2, Bool.true_and]; exact hok⟩
  have hgood : (r.counted.filter ok).length ≤ (published c n followers).length := by
    refine (subperm_of_subset (hnodup.filter _) fun a ha => ?_).length_le
    obtain ⟨ha, hok⟩ := mem_filter.mp ha
    exact mem_filter.mpr ⟨(hmem a ha).1, by simp only [(hmem a ha).2, Bool.true_and]; exact hok⟩
  have haccepted : (r.counted.filter ok).length ≤ r.accepted.toFinset.card := by
    rw [← toFinset_card_of_nodup (hnodup.filter _)]
    refine Finset.card_le_card fun a ha => ?_
    obtain ⟨ha, hok⟩ := mem_filter.mp (List.mem_toFinset.mp ha)
    exact List.mem_toFinset.mpr (h.accepted a (mem_append_right _ ha) hok)
  omega

/-- Peers that trust the leader can be served and counted, one after the
other. -/
theorem exists_counted (l : List GoString) (hprogress : r.progress = .testing) (hnodup : l.Nodup)
    (hl : ∀ a ∈ l, a ∈ r.asked ∧ (followers a).node.trustsLeader n.currentTerm c.selfAddr = true) :
    ∃ r', Lts.Run (Replication.step c n followers now) (fun _ _ => True) r r' ∧ r'.progress = .testing ∧
      r'.counted.length = r.counted.length + l.length ∧ r'.accepted.length = r.accepted.length +
      (l.filter fun a => (followers a).publishError.isNone).length := by
  induction l generalizing r with
  | nil => exact ⟨r, .refl, hprogress, rfl, rfl⟩
  | cons a l ih =>
    obtain ⟨hasked, htrust⟩ := hl a (by simp)
    rw [nodup_cons] at hnodup
    let r₁ : Replication := { r with
      asked := r.asked.erase a
      acks := a :: r.acks
      accepted := if (followers a).publishError.isNone then a :: r.accepted else r.accepted }
    let r₂ : Replication := { r₁ with acks := r.acks, counted := a :: r.counted, unsent := r.unsent + 1 }
    have h₁ : r.step c n followers now (.serve a) = some r₁ := by
      simp [Replication.step, hasked, Follower.serve_eq, htrust, r₁]
    have h₂ : r₁.step c n followers now (.count a) = some r₂ := by
      simp [Replication.step, r₁, r₂]
    have hrest : ∀ b ∈ l, b ∈ r₂.asked ∧ (followers b).node.trustsLeader n.currentTerm c.selfAddr = true := by
      intro b hb
      obtain ⟨hasked', htrust'⟩ := hl b (mem_cons_of_mem _ hb)
      have hne : b ≠ a := fun he => hnodup.1 (he ▸ hb)
      exact ⟨(mem_erase_of_ne hne).mpr hasked', htrust'⟩
    obtain ⟨r', hrun, hprogress', hcounted, haccepted⟩ := ih (r := r₂) hprogress hnodup.2 hrest
    refine ⟨r', Lts.Run.trans (.snoc (.snoc .refl trivial h₁) trivial h₂) hrun, hprogress', ?_, ?_⟩
    · rw [hcounted]
      simp only [r₂, length_cons]
      omega
    · rw [haccepted, show r₂.accepted =
        if (followers a).publishError.isNone then a :: r.accepted else r.accepted from rfl]
      cases hok : (followers a).publishError.isNone with
      | true =>
        simp only [filter_cons, hok, if_true, length_cons]
        omega
      | false => simp [hok]

/-- When `Replicate` succeeds, a majority of the nodes has accepted the
message, the leader counted. -/
def Durable (c : Config) (n : Node) (followers : GoString → Follower) (now : Time) : Prop :=
  ∀ r, Lts.Run (Replication.step c n followers now) (fun _ _ => True) (.start n) r → r.progress = .done (.ok ()) →
    (n.peers.keys.length + 1) / 2 + 1 ≤ r.accepted.toFinset.card + 1

/-- An outcome against a majority: the peers that could not publish are
counted first. -/
theorem not_durable (hrole : n.role = .leader) (halive : n.alivePeers ≠ [])
    (hq : (n.calculateQuorum c).1 ≤ (published c n followers).length + (unpublished c n followers).length + 1)
    (hbad : (n.calculateQuorum c).1 < (unpublished c n followers).length + (n.peers.keys.length + 1) / 2 + 1)
    (hpeers : 0 < n.peers.keys.length) : ¬ Durable c n followers now := by
  intro hdur
  let ok : GoString → Bool := fun a => (followers a).publishError.isNone
  let l := (unpublished c n followers ++ published c n followers).take ((n.calculateQuorum c).1 - 1)
  have hnodup : (unpublished c n followers ++ published c n followers).Nodup := by
    refine nodup_append'.mpr ⟨n.alivePeers_nodup.filter _, n.alivePeers_nodup.filter _,
      fun a ha ha' => ?_⟩
    have h := (mem_filter.mp ha).2
    have h' := (mem_filter.mp ha').2
    simp only [Bool.and_eq_true, Bool.not_eq_true'] at h h'
    rw [h.2] at h'
    exact absurd h'.2 Bool.false_ne_true
  have hmem : ∀ a ∈ l, a ∈ (Replication.start n).asked ∧
      (followers a).node.trustsLeader n.currentTerm c.selfAddr = true := by
    intro a ha
    rcases mem_append.mp (mem_of_mem_take ha) with ha | ha <;>
      obtain ⟨ha, hp⟩ := mem_filter.mp ha <;> simp only [Bool.and_eq_true] at hp <;>
      exact ⟨by simpa [Replication.start, hrole] using ha, hp.1⟩
  obtain ⟨r, hrun, hprogress, hcounted, haccepted⟩ :=
    exists_counted l (show (Replication.start n).progress = .testing by
    simp [Replication.start, hrole, halive]) (hnodup.sublist (take_sublist ..)) hmem
  have hl : l.length = (n.calculateQuorum c).1 - 1 := by
    simp only [l, length_take, length_append]
    omega
  -- Of those counted, only the ones beyond the failures have accepted.
  have hok : (l.filter ok).length ≤ (n.calculateQuorum c).1 - 1 - (unpublished c n followers).length := by
    have hnone : ((unpublished c n followers).take ((n.calculateQuorum c).1 - 1)).filter ok = [] := by
      refine filter_eq_nil_iff.mpr fun a ha => ?_
      have h := (mem_filter.mp (mem_of_mem_take ha)).2
      simp only [Bool.and_eq_true, Bool.not_eq_true'] at h
      exact Bool.eq_false_iff.mp h.2
    simp only [l, take_append, filter_append, hnone, nil_append]
    refine (length_filter_le _ _).trans ?_
    rw [length_take]
    omega
  have hdone : r.step c n followers now .test = some { r with progress := .done (.ok ()) } := by
    have hnot : ¬ r.successCount < (n.calculateQuorum c).1 := by
      rw [Replication.successCount, hcounted, hl]
      omega
    simp only [Replication.step, hprogress, if_neg hnot]
  have hmajority := hdur _ (.snoc hrun trivial hdone) rfl
  have hcard := r.accepted.toFinset_card_le
  have hstart : (Replication.start n).accepted = [] := rfl
  rw [hstart, length_nil, Nat.zero_add] at haccepted
  have haccepted : r.accepted.length = (l.filter ok).length := haccepted
  have hmajority : (n.peers.keys.length + 1) / 2 + 1 ≤ r.accepted.toFinset.card + 1 := hmajority
  omega

/-- **When a replication is durable.** -/
theorem replicate_durable_iff (hpeers : 0 < n.peers.keys.length) : Durable c n followers now ↔
    n.role ≠ .leader ∨ n.alivePeers ≠ [] ∧
      ((published c n followers).length + (unpublished c n followers).length + 1 < (n.calculateQuorum c).1 ∨
        (unpublished c n followers).length + (n.peers.keys.length + 1) / 2 + 1 ≤ (n.calculateQuorum c).1) := by
  constructor
  · intro hdur
    by_contra hnot
    simp only [not_or, not_and, not_not, Nat.not_lt, Nat.not_le] at hnot
    obtain ⟨hrole, hrest⟩ := hnot
    by_cases halive : n.alivePeers = []
    · -- Nobody is asked.
      have hstart : (Replication.start n).progress = .done (.ok ()) := by
        simp [Replication.start, hrole, halive]
      have hmajority := hdur _ .refl hstart
      have hnone : (Replication.start n).accepted = [] := rfl
      rw [hnone] at hmajority
      simp only [toFinset_nil, Finset.card_empty] at hmajority
      omega
    · obtain ⟨hq, hbad⟩ := hrest halive
      exact not_durable hrole halive hq hbad hpeers hdur
  · intro hcond r hrun hdone
    have h : Counts c n followers r := hrun.invariant (fun r e r' h _ hstep => h.step hstep) .start
    have hrole : n.role = .leader := h.leader.resolve_right (by simp [hdone])
    obtain ⟨halive, hcond⟩ := hcond.resolve_left fun hne => hne hrole
    have hq := (h.done hdone).resolve_left halive
    rw [Replication.successCount] at hq
    obtain ⟨hle, hle'⟩ := h.counted_le
    omega

end Counting

/-! ## Three nodes -/

def leaderConfig : Config where
  address := ascii "c:1"
  httpPort := ascii "80"
  self := []
  nodes := ascii "a:1,b:1"
  isDesignatedLeader := true
  httpAdvertise := []
  hostname := ascii "h"

def follower : Follower := ⟨newNode { leaderConfig with isDesignatedLeader := false } 0, none⟩

/-- Before any peer has been seen alive, `Replicate` succeeds and no other
node has the message. -/
theorem replicate_alone : (newNode leaderConfig 0).role = .leader ∧ (newNode leaderConfig 0).peers.keys.length = 2 ∧
    ¬ Durable leaderConfig (newNode leaderConfig 0) (fun _ => follower) 0 :=
  ⟨rfl, by decide, fun h => absurd (h _ .refl rfl) (by decide)⟩

/-- With both peers alive and able to publish, it is durable. -/
theorem replicate_durable_sample : Durable leaderConfig
    (((newNode leaderConfig 0).markPeerAlive 0 (ascii "a:1")).markPeerAlive 0 (ascii "b:1")) (fun _ => follower) 0 :=
  (replicate_durable_iff (by decide)).mpr (.inr ⟨by decide, .inr (by decide)⟩)

end Cluster

end TinyMQ
