/-
One node over its whole life: the elections it starts, the commands it
serves in any order, and its restarts.

What a node has voted in a term, and whose address it hands out, are kept in
memory only. `votes_once_iff` says after which inputs it still votes once a
term, `no_stale_leader_iff` which inputs leave it with the address of a
leader of an earlier term.
-/
import Mathlib.Data.Int.Order.Basic
import TinyMQ.Cluster
import TinyMQ.Lib.Lts

namespace TinyMQ

open List

namespace Cluster

/-! ## What is read off a node -/

/-- `GetLeaderHTTP`. -/
def Node.getLeaderHTTP (c : Config) (n : Node) : GoString :=
  if n.role = .leader then
    if c.httpAdvertise ≠ [] then
      if Text.contains c.httpAdvertise (ascii ":") then c.httpAdvertise else hostPort c.httpAdvertise c.httpPort
    else hostPort (ascii "127.0.0.1") c.httpPort
  else n.leaderHttp

inductive ProxyAnswer
  /-- The request is handled here. -/
  | next
  | forward (leaderAddr : GoString)
  | error (status : Nat) (text : GoString)
  deriving DecidableEq, Repr

/-- `leaderProxy`, from what `IsLeader` and `GetLeaderHTTP` return. -/
def leaderProxy (isLeader : Bool) (leaderAddr : GoString) : ProxyAnswer :=
  if !isLeader then
    if leaderAddr ≠ [] then .forward leaderAddr
    else .error 503 (ascii "Cluster is electing a new leader, please retry")
  else .next

/-- The status and the code of `handleHealthz`. -/
def handleHealthz (role : Role) (leaderAddr : GoString) : GoString × Nat :=
  if role ≠ .leader ∧ leaderAddr = [] then (ascii "electing", 503) else (ascii "ok", 200)

/-! ## The life of a node -/

/-- What happens to a node: commands it serves with their fields parsed,
replies it gets, and what its own goroutines do. -/
inductive Input
  /-- The process ends and is started again. -/
  | restart
  | startElection
  | requestVote (term : Int) (candidate : GoString)
  | heartbeat (term : Int) (leader leaderHttp : GoString)
  /-- The second critical section of `handleHeartbeat`. -/
  | setSynced
  /-- `requestSync` cannot dial the leader. -/
  | dialFailed
  | replicate (term : Int) (leader : GoString)
  /-- A reply that grants a vote for the election of a term. -/
  | voteGranted (term : Int)
  | mark (addr : GoString) (alive : Bool)
  deriving DecidableEq, Repr

/-- A node with its past: the votes it has granted, its own candidacies
among them, and the heartbeats it has accepted since it was started or its
term wrapped around, with the address they advertised. -/
structure Life where
  node : Node
  grants : List (Int × GoString)
  accepted : List (Int × GoString)

def Life.start (c : Config) (now : Time) : Life := ⟨newNode c now, [], []⟩

def Life.step (c : Config) (l : Life) : Time × Input → Option Life
  | (now, .restart) => some ⟨newNode c now, l.grants, []⟩
  | (now, .startElection) =>
    -- The designated leader never runs for an election.
    if c.isDesignatedLeader then none
    else
      let n := l.node.startElection c now
      let accepted := if n.currentTerm < l.node.currentTerm then [] else l.accepted
      some ⟨n, (n.currentTerm, n.votedFor) :: l.grants, accepted⟩
  | (now, .requestVote term candidate) =>
    let (allowed, n) := l.node.evaluateVote c now term candidate
    some { l with node := n, grants := if allowed then (n.currentTerm, candidate) :: l.grants else l.grants }
  | (now, .heartbeat term leader leaderHttp) =>
    some { l with
      node := (l.node.handleHeartbeat now term leader leaderHttp).2
      accepted := if l.node.trustsLeader term leader then (term, leaderHttp) :: l.accepted else l.accepted }
  | (_, .setSynced) => some { l with node := l.node.setSynced }
  | (_, .dialFailed) => some { l with node := { l.node with isSynced := false } }
  | (now, .replicate term leader) => some { l with node := (l.node.handleReplicate now term leader).2 }
  | (_, .voteGranted term) => some { l with node := l.node.countVote c term }
  | (now, .mark addr alive) =>
    some { l with node := if alive then l.node.markPeerAlive now addr else l.node.markPeerDead addr }

/-! ## What an input changes -/

namespace Node

variable {n : Node} {c : Config} {now : Time} {term : Int} {candidate leader leaderHttp addr : GoString}

/-- Whether a vote is granted. -/
def Grants (c : Config) (n : Node) (term : Int) (candidate : GoString) : Prop :=
  c.isDesignatedLeader = false ∧
    (n.currentTerm < term ∨ term = n.currentTerm ∧ (n.votedFor = [] ∨ n.votedFor = candidate))

/-- The node that has granted a vote. -/
def granted (now : Time) (term : Int) (candidate : GoString) (n : Node) : Node :=
  { n with
    currentTerm := term
    role := if n.currentTerm < term then .follower else n.role
    votedFor := candidate
    lastHeartbeatSeen := now }

theorem evaluateVote_of_grants (h : n.Grants c term candidate) :
    n.evaluateVote c now term candidate = (true, n.granted now term candidate) := by
  obtain ⟨hd, hlt | ⟨rfl, hv⟩⟩ := h
  · have hge : ¬ term < n.currentTerm := by omega
    simp [evaluateVote, granted, hd, hlt, hge]
  · simp [evaluateVote, granted, hd, hv]

/-- A vote that is not granted changes nothing: a newer term always gets it. -/
theorem evaluateVote_of_not_grants (h : ¬ n.Grants c term candidate) :
    n.evaluateVote c now term candidate = (false, n) := by
  unfold evaluateVote
  split
  · rfl
  next hd =>
    split
    · rfl
    next hge =>
      have hlt : ¬ n.currentTerm < term := fun hlt => h ⟨by simpa using hd, .inl hlt⟩
      have hv : ¬ (n.votedFor = [] ∨ n.votedFor = candidate) := fun hv =>
        h ⟨by simpa using hd, .inr ⟨by omega, hv⟩⟩
      simp [hlt, hv]

/-- What the rest of the node's business leaves alone: its term and the
address it hands out. -/
structure Idle (n n' : Node) : Prop where
  currentTerm : n'.currentTerm = n.currentTerm
  votedFor : n'.votedFor = n.votedFor
  leaderHttp : n'.leaderHttp = n.leaderHttp

theorem markPeer_idle (n : Node) (alive : Bool) :
    n.Idle (if alive then n.markPeerAlive now addr else n.markPeerDead addr) := by
  cases alive with
  | true =>
    rw [if_pos rfl, markPeerAlive]
    split <;> exact ⟨rfl, rfl, rfl⟩
  | false =>
    rw [if_neg Bool.false_ne_true, markPeerDead]
    split <;> exact ⟨rfl, rfl, rfl⟩

theorem countVote_idle (n : Node) : n.Idle (n.countVote c term) := by
  have hcalc : n.Idle (n.calculateQuorum c).2 := by
    unfold calculateQuorum
    split <;> exact ⟨rfl, rfl, rfl⟩
  unfold countVote
  dsimp only
  split
  · split <;> exact ⟨hcalc.currentTerm, hcalc.votedFor, hcalc.leaderHttp⟩
  · exact hcalc

theorem Idle.forward (h : n.Idle n') : n.register.Forward n'.register :=
  .of_eq (by rw [register, register, h.currentTerm, h.votedFor])

theorem le_of_trustsLeader (h : n.trustsLeader term leader = true) : n.currentTerm ≤ term := by
  simp only [trustsLeader, Bool.or_eq_true, decide_eq_true_eq, Bool.and_eq_true, beq_iff_eq] at h
  omega

theorem handleHeartbeat_eq (n : Node) (now : Time) (term : Int) (leader leaderHttp : GoString) :
    (n.handleHeartbeat now term leader leaderHttp).2.currentTerm =
    (if n.trustsLeader term leader then term else n.currentTerm) ∧
      (n.handleHeartbeat now term leader leaderHttp).2.leaderHttp =
        (if n.trustsLeader term leader then leaderHttp else n.leaderHttp) := by
  have htrust : ∀ n₀ : Node, n₀.currentTerm = n.currentTerm → n₀.votedFor = n.votedFor →
      n₀.trustsLeader term leader = n.trustsLeader term leader := by
    intro n₀ ht hv
    rw [trustsLeader, trustsLeader, ht, hv]
  unfold handleHeartbeat
  by_cases hv : n.votedFor ≠ leader
  · simp only [if_pos hv, htrust { n with isSynced := false } rfl rfl]
    split <;> exact ⟨rfl, rfl⟩
  · simp only [if_neg hv]
    split <;> exact ⟨rfl, rfl⟩

end Node

/-! ## One vote in each term -/

namespace Life

theorem step_of_grants {l : Life} (h : l.node.Grants c term candidate) : l.step c (now, .requestVote term candidate) =
      some { l with node := l.node.granted now term candidate, grants := (term, candidate) :: l.grants } := by
  simp only [step, Node.evaluateVote_of_grants h, if_true]
  rfl

theorem step_of_not_grants {l : Life}
    (h : ¬ l.node.Grants c term candidate) : l.step c (now, .requestVote term candidate) = some l := by
  simp only [step, Node.evaluateVote_of_not_grants h, Bool.false_eq_true, if_false]

/-- No two candidates got a vote in one term. -/
def OneVote (l : Life) : Prop := ∀ {t a a'}, (t, a) ∈ l.grants → (t, a') ∈ l.grants → a = a'

/-- No election is started in the last term. -/
def InTerms (l : Life) (e : Time × Input) : Prop := e.2 = .startElection → l.node.currentTerm < lastTerm

/-- What an input must meet: no restart of a node that has voted, no vote for
a candidate without an address, and no election in the last term. -/
def VotesOk (c : Config) (l : Life) : Time × Input → Prop
  | (_, .restart) => l.grants = []
  | (_, .startElection) => c.selfAddr ≠ [] ∧ l.node.currentTerm < lastTerm
  | (_, .requestVote term candidate) => candidate = [] →
      c.isDesignatedLeader = true ∨ term < l.node.currentTerm ∨ term = l.node.currentTerm ∧ l.node.votedFor ≠ []
  | _ => True

/-- The votes of the past are in terms that are over, or they are the one the
node remembers. -/
structure Voted (c : Config) (l : Life) : Prop where
  one : l.OneVote
  term : 0 ≤ l.node.currentTerm
  past : ∀ {t a}, (t, a) ∈ l.grants → 0 ≤ t ∧ a ≠ [] ∧ t ≤ l.node.currentTerm ∧
    (t = l.node.currentTerm → l.node.votedFor = a)
  designated : c.isDesignatedLeader = true → l.grants = []

variable {c : Config} {l l' l'' : Life} {e : Time × Input} {now : Time}

theorem voted_start (c : Config) (now : Time) : (start c now).Voted c where
  one ht := by cases ht
  term := Int.le_refl 0
  past ht := by cases ht
  designated _ := rfl

theorem Voted.forward (h : l.Voted c) (hf : l.node.register.Forward l'.node.register) (hg : l'.grants = l.grants) :
    l'.Voted c := by
  have hle : l.node.currentTerm ≤ l'.node.currentTerm := hf.epoch_le
  refine ⟨?_, Int.le_trans h.term hle, fun {t a} ha => ?_, fun hd => hg ▸ h.designated hd⟩
  · intro t a a' ha ha'
    rw [hg] at ha ha'
    exact h.one ha ha'
  · rw [hg] at ha
    obtain ⟨h0, hne, hterm, hvote⟩ := h.past ha
    refine ⟨h0, hne, Int.le_trans hterm hle, fun ht => ?_⟩
    have hvoted := hvote (by omega)
    -- The vote of the present term is the one that was there before.
    rcases hf with hlt | ⟨-, hnone | hsame⟩
    · have : l.node.currentTerm < l'.node.currentTerm := hlt
      omega
    · simp [Node.register, hvoted, hne] at hnone
    · simp only [Node.register, hvoted, hne, if_false] at hsame
      split at hsame
      · cases hsame
      · exact Option.some.inj hsame

theorem Voted.grant (h : l.Voted c) (hd : c.isDesignatedLeader = false) (hv : l.node.votedFor = a) (ha : a ≠ []) :
    Voted c { l with grants := (l.node.currentTerm, a) :: l.grants } := by
  refine ⟨fun {t b b'} hb hb' => ?_, h.term, fun {t b} hb => ?_, fun hd' => by rw [hd] at hd'; cases hd'⟩
  · rcases mem_cons.mp hb with he | hb
    · cases he
      rcases mem_cons.mp hb' with he' | hb'
      · cases he'; rfl
      · rw [← hv]
        exact (h.past hb').2.2.2 rfl
    · rcases mem_cons.mp hb' with he' | hb'
      · cases he'
        rw [← hv]
        exact ((h.past hb).2.2.2 rfl).symm
      · exact h.one hb hb'
  · rcases mem_cons.mp hb with he | hb
    · cases he
      exact ⟨h.term, ha, Int.le_refl _, fun _ => hv⟩
    · exact h.past hb

theorem Voted.step (h : l.Voted c) (hok : l.VotesOk c e) (hs : l.step c e = some l') : l'.Voted c := by
  obtain ⟨now, i⟩ := e
  cases i with
  | restart =>
    cases hs
    have hnone : l.grants = [] := hok
    refine ⟨?_, Int.le_refl 0, ?_, h.designated⟩
    · intro t a a' ha
      rw [hnone] at ha
      cases ha
    · intro t a ha
      rw [hnone] at ha
      cases ha
  | startElection =>
    simp only [step] at hs
    split at hs
    · cases hs
    next hd =>
      cases hs
      have hnext : nextTerm l.node.currentTerm = l.node.currentTerm + 1 :=
        nextTerm_of_lt (by have := h.term; omega) hok.2
      have hlt : l.node.currentTerm < nextTerm l.node.currentTerm := by omega
      have hstart : ∀ accepted, Voted c { l with node := l.node.startElection c now, accepted } := fun _ =>
        h.forward (.inl hlt) rfl
      exact (hstart _).grant (by simpa using hd) rfl hok.1
  | requestVote term candidate =>
    by_cases hg : l.node.Grants c term candidate
    · have hne : candidate ≠ [] := by
        intro he
        obtain ⟨hd, hcase⟩ := hg
        rcases hok he with hd' | hlt | ⟨heq, hvote⟩
        · cases hd.symm.trans hd'
        · rcases hcase with hgt | ⟨hterm, -⟩ <;> omega
        · rcases hcase with hgt | ⟨-, hnil | hnil⟩
          · omega
          · exact hvote hnil
          · exact hvote (hnil.trans he)
      rw [step_of_grants hg] at hs
      cases hs
      have hfol := (l.node.evaluateVote_follows c now term hne).1.forward
      rw [Node.evaluateVote_of_grants hg] at hfol
      have hnode : Voted c { l with node := l.node.granted now term candidate } := h.forward hfol rfl
      exact hnode.grant hg.1 rfl hne
    · rw [step_of_not_grants hg] at hs
      cases hs
      exact h
  | heartbeat term leader leaderHttp =>
    cases hs
    exact h.forward (l.node.handleHeartbeat_follows).forward rfl
  | setSynced =>
    cases hs
    exact h.forward (l.node.setSynced_follows).forward rfl
  | dialFailed =>
    cases hs
    exact h.forward (.of_eq rfl) rfl
  | replicate term leader =>
    cases hs
    exact h.forward (l.node.handleReplicate_follows).forward rfl
  | voteGranted term =>
    cases hs
    exact h.forward (l.node.countVote_idle).forward rfl
  | mark addr alive =>
    cases hs
    exact h.forward (l.node.markPeer_idle alive).forward rfl

theorem Voted.run (h : l.Voted c) (hrun : Lts.Run (Life.step c) (VotesOk c) l l') : l'.Voted c :=
  hrun.invariant (fun _ _ _ hI hok hs => hI.step hok hs) h

/-- A node that does not remember a vote of a term can vote again in it. -/
theorem votes_again {t a} (ha : (t, a) ∈ l.grants) (hd : c.isDesignatedLeader = false)
    (hfree : l.node.currentTerm < t ∨ t = l.node.currentTerm ∧ l.node.votedFor = []) :
    ∃ l', Lts.Run (step c) (VotesOk c) l l' ∧ ¬ l'.OneVote := by
  have hg : l.node.Grants c t (0 :: a) := ⟨hd, hfree.imp id fun h => ⟨h.1, .inl h.2⟩⟩
  have hok : l.VotesOk c (0, .requestVote t (0 :: a)) := fun he => by cases he
  refine ⟨_, .snoc .refl hok (step_of_grants hg), fun hone => ?_⟩
  have hne : a = 0 :: a := hone (mem_cons_of_mem _ ha) mem_cons_self
  simpa using congrArg List.length hne

end Life

section Votes

open Life

variable {c : Config} {l l' : Life} {e : Time × Input} {now : Time}

/-- **One vote per term over whole lives**: as long as every input meets the
condition no two candidates get a vote in one term, and after the first
that does not meet it one more request is enough, unless it is an election
in the last term. -/
theorem votes_once_iff (hrun : Lts.Run (Life.step c) (VotesOk c) (Life.start c now) l) (hs : l.step c e = some l')
    (hlast : l.InTerms e) : (∀ l'', Lts.Run (Life.step c) (VotesOk c) l' l'' → l''.OneVote) ↔ l.VotesOk c e := by
  have hv : l.Voted c := (voted_start c now).run hrun
  refine ⟨fun hall => ?_, fun hok l'' hrun' => ((hv.step hok hs).run hrun').one⟩
  by_contra hbad
  suffices h : ∃ l'', Lts.Run (Life.step c) (VotesOk c) l' l'' ∧ ¬ l''.OneVote by
    obtain ⟨l'', hrun', hnot⟩ := h
    exact hnot (hall l'' hrun')
  obtain ⟨time, i⟩ := e
  cases i with
  | restart =>
    cases hs
    have hne : l.grants ≠ [] := hbad
    have hd : c.isDesignatedLeader = false := by
      cases hd : c.isDesignatedLeader with
      | false => rfl
      | true => exact absurd (hv.designated hd) hne
    obtain ⟨⟨t, a⟩, ha⟩ := exists_mem_of_ne_nil _ hne
    have h0 := (hv.past ha).1
    refine votes_again (a := a) (t := t) ha hd ?_
    show 0 < t ∨ t = 0 ∧ _
    rcases Int.lt_or_eq_of_le h0 with hlt | heq
    · exact .inl hlt
    · exact .inr ⟨heq.symm, rfl⟩
  | startElection =>
    simp only [Life.step] at hs
    split at hs
    · cases hs
    next hd =>
      cases hs
      have hself : c.selfAddr = [] := by_contra fun hne => hbad ⟨hne, hlast rfl⟩
      exact votes_again mem_cons_self (by simpa using hd) (.inr ⟨rfl, hself⟩)
  | requestVote term candidate =>
    simp only [VotesOk, not_forall, not_or, not_and, not_not] at hbad
    obtain ⟨rfl, hd, hge, hvote⟩ := hbad
    have hd : c.isDesignatedLeader = false := by simpa using hd
    have hg : l.node.Grants c term [] := by
      refine ⟨hd, ?_⟩
      by_cases hlt : l.node.currentTerm < term
      · exact .inl hlt
      · have heq : term = l.node.currentTerm := by omega
        exact .inr ⟨heq, .inl (hvote heq)⟩
    rw [step_of_grants hg] at hs
    cases hs
    exact votes_again mem_cons_self hd (.inr ⟨rfl, rfl⟩)
  | heartbeat term leader leaderHttp | setSynced | dialFailed | replicate term leader | voteGranted term
  | mark addr alive => exact absurd trivial hbad

/-- A restarted node votes for `b` in the term in which it had voted for `a`. -/
theorem vote_forgotten : ∃ l, Lts.exec (Life.step loneConfig) (Life.start loneConfig 0)
      [(1, .requestVote 1 (ascii "a")), (2, .restart), (3, .requestVote 1 (ascii "b"))] = some l ∧
    (1, ascii "a") ∈ l.grants ∧ (1, ascii "b") ∈ l.grants ∧ ¬ l.OneVote := by
  refine ⟨_, rfl, by decide, by decide, fun h => ?_⟩
  have hsame : ascii "a" = ascii "b" := h (t := 1) (by decide) (by decide)
  exact absurd hsame (by decide)

theorem votes_once_sample :
    ∃ l', Life.step loneConfig (Life.start loneConfig 0) (1, .requestVote 1 (ascii "a")) = some l' ∧
    ∀ l'', Lts.Run (Life.step loneConfig) (VotesOk loneConfig) l' l'' → l''.OneVote := by
  have hok : (Life.start loneConfig 0).VotesOk loneConfig (1, .requestVote 1 (ascii "a")) :=
    fun he => absurd he (by decide)
  exact ⟨_, rfl, (votes_once_iff .refl rfl fun h => by cases h).mpr hok⟩

end Votes

/-! ## The address of the leader -/

namespace Life

/-- A node that does not lead hands out the address of a leader of its term;
while there is none it says so. -/
structure NoStaleLeader (c : Config) (l : Life) : Prop where
  advertised : l.node.role ≠ .leader → l.node.getLeaderHTTP c ≠ [] →
    (l.node.currentTerm, l.node.getLeaderHTTP c) ∈ l.accepted
  electing : l.node.role ≠ .leader → (∀ addr, (l.node.currentTerm, addr) ∉ l.accepted) →
    l.node.getLeaderHTTP c = [] ∧
      leaderProxy (l.node.role = .leader) (l.node.getLeaderHTTP c) =
        .error 503 (ascii "Cluster is electing a new leader, please retry") ∧
      handleHealthz l.node.role (l.node.getLeaderHTTP c) = (ascii "electing", 503)

/-- What an input must meet: a term that comes with no heartbeat finds no
address of a leader. -/
def ProxyOk (c : Config) (l : Life) : Time × Input → Prop
  | (_, .startElection) => l.node.leaderHttp = []
  | (_, .requestVote term _) => c.isDesignatedLeader = true ∨ term ≤ l.node.currentTerm ∨ l.node.leaderHttp = []
  | (_, .replicate term _) => term ≤ l.node.currentTerm ∨ l.node.leaderHttp = []
  | _ => True

/-- The address is from a heartbeat of the present term, whatever the role. -/
structure Current (l : Life) : Prop where
  advertised : l.node.leaderHttp ≠ [] → (l.node.currentTerm, l.node.leaderHttp) ∈ l.accepted
  past : ∀ {t addr}, (t, addr) ∈ l.accepted → t ≤ l.node.currentTerm

variable {c : Config} {l l' : Life} {e : Time × Input} {now : Time}

theorem getLeaderHTTP_of_not_leader {n : Node} (h : n.role ≠ .leader) : n.getLeaderHTTP c = n.leaderHttp := if_neg h

theorem Current.noStaleLeader (h : l.Current) : l.NoStaleLeader c where
  advertised hrole hne := by
    rw [getLeaderHTTP_of_not_leader hrole] at hne ⊢
    exact h.advertised hne
  electing hrole hnone := by
    have hnil : l.node.leaderHttp = [] := by_contra fun hne => hnone _ (h.advertised hne)
    rw [getLeaderHTTP_of_not_leader hrole, hnil]
    simp [leaderProxy, handleHealthz, hrole]

theorem current_start (c : Config) (now : Time) : (start c now).Current :=
    ⟨fun h => absurd rfl h, fun h => by cases h⟩

/-- The term goes on and the address stays: it is still that of the term
exactly if there is none. -/
theorem Current.kept (h : l.Current) (hle : l.node.currentTerm ≤ l'.node.currentTerm)
    (hhttp : l'.node.leaderHttp = l.node.leaderHttp) (hacc : l'.accepted = l.accepted)
    (hsame : l'.node.currentTerm ≤ l.node.currentTerm ∨ l.node.leaderHttp = []) : l'.Current := by
  refine ⟨fun hne => ?_, fun {t addr} ha => (h.past (hacc ▸ ha)).trans hle⟩
  rw [hhttp] at hne ⊢
  rw [hacc, ← hle.antisymm (hsame.resolve_right hne)]
  exact h.advertised hne

theorem Current.stale (h : l.Current) (hstale : l'.NoStaleLeader c)
    (hrole : l.node.currentTerm < l'.node.currentTerm → l'.node.role ≠ .leader)
    (hhttp : l'.node.leaderHttp = l.node.leaderHttp) (hacc : l'.accepted = l.accepted) :
    l'.node.currentTerm ≤ l.node.currentTerm ∨ l.node.leaderHttp = [] := by
  by_contra! hne
  have hadv := hstale.advertised (hrole hne.1)
  rw [getLeaderHTTP_of_not_leader (hrole hne.1), hhttp, hacc] at hadv
  exact (h.past (hadv hne.2)).not_gt hne.1

theorem Current.idle (h : l.Current) (hidle : l.node.Idle l'.node) (hacc : l'.accepted = l.accepted) : l'.Current :=
  h.kept hidle.currentTerm.ge hidle.leaderHttp hacc (.inl hidle.currentTerm.le)

/-- Each input that meets its condition keeps the address current, and what
is promised fails after each that does not. -/
theorem Current.step (h : l.Current) (hs : l.step c e = some l') :
    (l'.NoStaleLeader c → l.ProxyOk c e) ∧ (l.ProxyOk c e → l'.Current) := by
  obtain ⟨now, i⟩ := e
  cases i with
  | restart =>
    cases hs
    exact ⟨fun _ => trivial, fun _ => ⟨fun hne => absurd rfl hne, fun ha => by cases ha⟩⟩
  | startElection =>
    simp only [Life.step] at hs
    split at hs <;> cases hs
    rcases lt_or_gt_of_ne (nextTerm_ne l.node.currentTerm) with hlt | hlt
    · -- The term wraps around: an address would be that of an old one.
      refine ⟨fun hs => by_contra fun hne => ?_, fun hok => ⟨fun hne => absurd hok hne, fun {t addr} ha => ?_⟩⟩
      · have hadv := hs.advertised (fun h => by cases h) hne
        simp [Node.startElection, hlt] at hadv
      · simp [Node.startElection, hlt] at ha
    · have hacc : (if nextTerm l.node.currentTerm < l.node.currentTerm then [] else l.accepted) = l.accepted :=
        if_neg hlt.asymm
      exact ⟨fun hs => (h.stale hs nofun rfl hacc).resolve_left hlt.not_ge,
        fun hok => h.kept hlt.le rfl hacc (.inr hok)⟩
  | requestVote term candidate =>
    by_cases hg : l.node.Grants c term candidate
    · rw [step_of_grants hg] at hs
      cases hs
      have hle : l.node.currentTerm ≤ term := by rcases hg.2 with hlt | ⟨heq, -⟩ <;> omega
      have hrole : l.node.currentTerm < term → (l.node.granted now term candidate).role ≠ .leader := by
        intro hlt
        simp [Node.granted, hlt]
      exact
        ⟨fun hs => .inr (h.stale hs hrole rfl rfl), fun hok => h.kept hle rfl rfl (hok.resolve_left (by simp [hg.1]))⟩
    · rw [step_of_not_grants hg] at hs
      cases hs
      refine ⟨fun _ => ?_, fun _ => h⟩
      cases hd : c.isDesignatedLeader with
      | true => exact .inl hd
      | false => exact .inr (.inl (not_lt.mp fun hlt => hg ⟨hd, .inl hlt⟩))
  | heartbeat term leader leaderHttp =>
    cases hs
    refine ⟨fun _ => trivial, fun _ => ?_⟩
    obtain ⟨hterm, hhttp⟩ := l.node.handleHeartbeat_eq now term leader leaderHttp
    by_cases htrust : l.node.trustsLeader term leader = true
    · rw [if_pos htrust] at hterm hhttp
      refine ⟨fun _ => by simp [hterm, hhttp, htrust], fun {t addr} ha => ?_⟩
      simp only [hterm, if_pos htrust] at ha ⊢
      rcases mem_cons.mp ha with he | ha
      · cases he
        exact le_rfl
      · exact (h.past ha).trans (Node.le_of_trustsLeader htrust)
    · rw [if_neg htrust] at hterm hhttp
      exact h.kept hterm.ge hhttp (if_neg htrust) (.inl hterm.le)
  | setSynced | dialFailed =>
    cases hs
    exact ⟨fun _ => trivial, fun _ => h.idle ⟨rfl, rfl, rfl⟩ rfl⟩
  | replicate term leader =>
    by_cases htrust : l.node.trustsLeader term leader = true
    · simp only [Life.step, Node.handleReplicate, if_pos htrust, Option.some.injEq] at hs
      subst hs
      exact ⟨fun hs => h.stale hs nofun rfl rfl, fun hok => h.kept (Node.le_of_trustsLeader htrust) rfl rfl hok⟩
    · simp only [Life.step, Node.handleReplicate, if_neg htrust, Option.some.injEq] at hs
      subst hs
      refine ⟨fun _ => .inl ?_, fun _ => h⟩
      simp only [Node.trustsLeader, Bool.or_eq_true, decide_eq_true_eq, not_or] at htrust
      omega
  | voteGranted term =>
    cases hs
    exact ⟨fun _ => trivial, fun _ => h.idle l.node.countVote_idle rfl⟩
  | mark addr alive =>
    cases hs
    exact ⟨fun _ => trivial, fun _ => h.idle (l.node.markPeer_idle alive) rfl⟩

end Life

section Proxy

open Life

variable {c : Config} {l l' : Life} {e : Time × Input} {now : Time}

/-- **The address of the leader over whole lives**: as long as every input
meets its condition, a node hands out no address of an earlier term, and
the first that does not meet it leaves it with one. -/
theorem no_stale_leader_iff (hrun : Lts.Run (Life.step c) (ProxyOk c) (Life.start c now) l)
    (hs : l.step c e = some l') : l'.NoStaleLeader c ↔ l.ProxyOk c e := by
  have hc : l.Current := hrun.invariant (fun _ _ _ hI hok hstep => (hI.step hstep).2 hok)
    (current_start c now)
  exact ⟨(hc.step hs).1, fun hok => ((hc.step hs).2 hok).noStaleLeader⟩

/-- After a vote in term 2, the node still hands out the address that was
advertised in term 1. -/
theorem stale_leader : ∃ l, Lts.exec (Life.step loneConfig) (Life.start loneConfig 0)
      [(1, .heartbeat 1 (ascii "a") (ascii "a:80")), (2, .requestVote 2 (ascii "b"))] = some l ∧
    l.node.role = .follower ∧ l.node.currentTerm = 2 ∧
    leaderProxy (l.node.role = .leader) (l.node.getLeaderHTTP loneConfig) = .forward (ascii "a:80") ∧
      ¬ l.NoStaleLeader loneConfig := by
  refine ⟨_, rfl, rfl, rfl, by decide, fun h => ?_⟩
  exact absurd (h.advertised (by decide) (by decide)) (by decide)

/-- A node that knows of no leader votes and has no address to hand out. -/
theorem no_stale_leader_sample :
    ∃ l', Life.step loneConfig (Life.start loneConfig 0) (1, .requestVote 1 (ascii "a")) = some l' ∧
    l'.NoStaleLeader loneConfig := by
  have hok : (Life.start loneConfig 0).ProxyOk loneConfig (1, .requestVote 1 (ascii "a")) := .inr (.inr rfl)
  exact ⟨_, rfl, (no_stale_leader_iff .refl rfl).mpr hok⟩

end Proxy

/-! ## Refused heartbeats -/

section Refused

variable {n : Node} {now : Time} {term : Int} {leader leaderHttp : GoString}

/-- **When a refused heartbeat has no effect**: `isSynced` is not reset, and
nothing is left to synchronize. -/
theorem refused_heartbeat_iff (h : n.trustsLeader term leader = false) :
    n.handleHeartbeat now term leader leaderHttp = (false, n) ↔
      (n.votedFor = leader ∨ n.isSynced = false) ∧ (n.role ≠ .follower ∨ n.isSynced = true) := by
  have hreset : ({ n with isSynced := false } : Node).trustsLeader term leader = false := h
  by_cases hvoted : n.votedFor = leader
  · simp only [Node.handleHeartbeat, hvoted, ne_eq, not_true_eq_false, if_false, h,
      Bool.false_eq_true, true_or, true_and]
    cases n.isSynced <;> cases n.role <;> simp
  · simp only [Node.handleHeartbeat, hvoted, ne_eq, not_false_eq_true, if_true, hreset,
      Bool.false_eq_true, if_false, false_or]
    constructor
    · intro hsame
      obtain ⟨hsync, hnode⟩ := Prod.mk.inj hsame
      have hflag : n.isSynced = false := (congrArg Node.isSynced hnode).symm
      exact ⟨hflag, .inl (by simpa using hsync)⟩
    · rintro ⟨hflag, hrole⟩
      have hnode : { n with isSynced := false } = n := by cases n; simp_all
      simp_all

/-- A candidate of term 2 gets the heartbeat of the leader of term 1. -/
theorem refused_heartbeat_sample : ∃ n : Node, n.trustsLeader 1 (ascii "a") = false ∧
    n.handleHeartbeat 5 1 (ascii "a") (ascii "a:80") = (false, n) :=
  ⟨{ newNode loneConfig 0 with role := .candidate, currentTerm := 2, votedFor := loneConfig.selfAddr }, by decide,
    (refused_heartbeat_iff (by decide)).mpr (by decide)⟩

/-- **A refused heartbeat that has one**: a follower of term 2 asks the leader
of term 1 for its messages. -/
theorem refused_heartbeat_synchronizes : ∃ l, Lts.exec (Life.step loneConfig) (Life.start loneConfig 0)
      [(1, .heartbeat 2 (ascii "b") (ascii "b:80")), (2, .setSynced)] = some l ∧
    l.node.trustsLeader 1 (ascii "a") = false ∧ (l.node.handleHeartbeat 3 1 (ascii "a") (ascii "a:80")).1 = true ∧
    l.node.isSynced = true ∧ (l.node.handleHeartbeat 3 1 (ascii "a") (ascii "a:80")).2.isSynced = false := by
  exact ⟨_, rfl, by decide, by decide, by decide, by decide⟩

end Refused

end Cluster

end TinyMQ
