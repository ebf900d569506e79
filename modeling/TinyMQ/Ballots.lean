/-
The elections of one node, with whatever bytes answer its requests for
votes.

A grant is signed by the node that writes it (`Command.serve`), and
`requestVoteFromPeer` reads no more of an answer than its first word.
`authentic_votes_iff` says which answers it may be given: then a vote is
counted only when it is signed for the term of the election, and the node
leads only with a quorum of such votes, from different peers. It is about
lives in which no election is started in the last term.
-/
import TinyMQ.Terms
import TinyMQ.Wire

namespace TinyMQ

open List Text

namespace Cluster

/-! ## The answer to a request -/

/-- The body that `handlePeer` signs when a vote is granted. -/
def grantBody (term : Int) : GoString := joinFields [ascii "VOTE_GRANTED", Codec.formatInt term]

/-- What `requestVoteFromPeer` does with the bytes of an answer: `ReadString`
fails when no line is complete. -/
def Node.receiveVote (c : Config) (term : Int) (answer : GoString) (n : Node) : Node :=
  match (completeLines 10 answer).head? with
  | some resp => if hasPrefix (trimSpaces resp) (ascii "VOTE_GRANTED") then n.countVote c term else n
  | none => n

/-- The answer is a grant of the term, signed with the secret. -/
def Keys.Authentic (k : Keys) (term : Int) (answer : GoString) : Prop :=
  ∃ resp, (completeLines 10 answer).head? = some resp ∧ trimSpaces resp = k.signed (grantBody term)

/-! ## Campaigns -/

/-- A node with the requests it waits for, each with the peer and the term,
and the answers it has counted since it was started. -/
structure Campaign where
  life : Life
  requests : List (GoString × Int)
  counted : List (GoString × Int × GoString)

inductive CampaignEvent
  | input (e : Time × Input)
  /-- A peer answers a request for a vote. -/
  | answer (addr : GoString) (term : Int) (bytes : GoString)
  deriving DecidableEq, Repr

namespace Campaign

def start (c : Config) (now : Time) : Campaign := ⟨.start c now, [], []⟩

def step (c : Config) (s : Campaign) : CampaignEvent → Option Campaign
  -- Votes are counted from answers only.
  | .input (_, .voteGranted _) => none
  | .input (now, .restart) => (s.life.step c (now, .restart)).map fun life => ⟨life, [], []⟩
  | .input (now, .startElection) =>
    (s.life.step c (now, .startElection)).map fun life =>
      { s with life, requests := s.requests ++ life.node.peers.keys.map fun addr => (addr, life.node.currentTerm) }
  | .input e => (s.life.step c e).map fun life => { s with life }
  | .answer addr term bytes =>
    if (addr, term) ∈ s.requests then
      let node := s.life.node.receiveVote c term bytes
      some {
        life := { s.life with node }
        requests := s.requests.erase (addr, term)
        counted :=
          if s.life.node.votesReceived < node.votesReceived then (addr, term, bytes) :: s.counted else s.counted }
    else none

/-- A step adds to the votes only for a signed grant of the election's term. -/
def OnlyAuthentic (k : Keys) (s s' : Campaign) (e : CampaignEvent) : Prop :=
  ∀ addr term bytes, e = .answer addr term bytes → s.life.node.votesReceived < s'.life.node.votesReceived →
    k.Authentic term bytes

/-- A node that was elected has, with its own vote, a quorum of signed grants
of its term, from different peers. -/
def WonByHolders (k : Keys) (c : Config) (s : Campaign) : Prop :=
  c.isDesignatedLeader = false → s.life.node.role = .leader → ∃ addrs : List GoString, addrs.Nodup ∧
    (∀ addr ∈ addrs, ∃ bytes, (addr, s.life.node.currentTerm, bytes) ∈ s.counted ∧
      k.Authentic s.life.node.currentTerm bytes) ∧
    c.quorum ≤ addrs.length + 1

/-- What an answer must meet: when it comes to a candidate in the term of the
election and its text begins with the word, it is a signed grant. -/
def AnswersOk (k : Keys) (s : Campaign) : CampaignEvent → Prop
  | .answer _ term bytes =>
    s.life.node.role = .candidate → s.life.node.currentTerm = term →
    (∀ resp, (completeLines 10 bytes).head? = some resp → ascii "VOTE_GRANTED" <+: trimSpaces resp →
      trimSpaces resp = k.signed (grantBody term))
  | .input _ => True

/-- No election is started in the last term. -/
def InTerms (s : Campaign) (e : CampaignEvent) : Prop := ∀ x, e = .input x → s.life.InTerms x

end Campaign

/-! ## What the node does -/

namespace Node

variable {n n' : Node} {c : Config} {now : Time} {term : Int}

/-- The node steps down, or what it knows of its election stays. -/
structure Yields (n n' : Node) : Prop where
  role : n'.role = .follower ∨
    n'.role = n.role ∧ n'.currentTerm = n.currentTerm ∧ n'.votesReceived = n.votesReceived
  term : n.currentTerm ≤ n'.currentTerm
  quorum : n'.quorumSize = n.quorumSize

theorem Yields.refl (n : Node) : n.Yields n := ⟨.inr ⟨rfl, rfl, rfl⟩, Int.le_refl _, rfl⟩

theorem Follows.yields (h : n.Follows n') : n.Yields n' := ⟨h.role, h.forward.epoch_le, h.quorum⟩

theorem evaluateVote_yields (n : Node) (c : Config) (now : Time) (term : Int) (candidate : GoString) :
    n.Yields (n.evaluateVote c now term candidate).2 := by
  by_cases hg : n.Grants c term candidate
  · rw [evaluateVote_of_grants hg]
    obtain ⟨-, hlt | ⟨heq, -⟩⟩ := hg
    · exact ⟨.inl (if_pos hlt), Int.le_of_lt hlt, rfl⟩
    · have hlt : ¬ n.currentTerm < term := by omega
      exact ⟨.inr ⟨if_neg hlt, heq, rfl⟩, Int.le_of_eq heq.symm, rfl⟩
  · rw [evaluateVote_of_not_grants hg]
    exact .refl n

/-- A candidate counts an answer that begins with the word, whatever follows. -/
theorem receiveVote_cases (n : Node) (term : Int) (answer : GoString) :
    n.receiveVote c term answer = n ∨ ∃ resp, (completeLines 10 answer).head? = some resp ∧
      ascii "VOTE_GRANTED" <+: trimSpaces resp ∧ n.receiveVote c term answer = n.countVote c term := by
  unfold receiveVote
  split
  next resp hresp =>
    split
    next hword => exact .inr ⟨resp, hresp, hasPrefix_iff.mp hword, rfl⟩
    · exact .inl rfl
  · exact .inl rfl

theorem votesReceived_countVote (n : Node) (c : Config) (term : Int) : (n.countVote c term).votesReceived =
    if n.role = .candidate ∧ n.currentTerm = term then n.votesReceived + 1 else n.votesReceived := by
  have hcalc : (n.calculateQuorum c).2.role = n.role ∧ (n.calculateQuorum c).2.currentTerm = n.currentTerm ∧
      (n.calculateQuorum c).2.votesReceived = n.votesReceived := by
    unfold calculateQuorum
    split <;> exact ⟨rfl, rfl, rfl⟩
  unfold countVote
  dsimp only
  rw [hcalc.1, hcalc.2.1]
  split
  · split <;> exact congrArg (· + 1) hcalc.2.2
  · exact hcalc.2.2

end Node

/-! ## The invariant of a campaign -/

namespace Campaign

variable {k : Keys} {c : Config} {s s' : Campaign} {now : Time}

/-- The peers whose answers were counted in the present term. -/
def voters (s : Campaign) : List GoString :=
  (s.counted.filter fun b => b.2.1 = s.life.node.currentTerm).map fun b => b.1

/-- Every request was sent once, every vote comes from its own request and is
signed, and the votes are those that were counted. -/
structure Fair (k : Keys) (c : Config) (s : Campaign) : Prop where
  quorum : s.life.node.quorumSize = 0 ∨ s.life.node.quorumSize = c.quorum
  term : 0 ≤ s.life.node.currentTerm
  once : (s.requests ++ s.counted.map fun b => (b.1, b.2.1)).Nodup
  past : ∀ p ∈ s.requests ++ s.counted.map fun b => (b.1, b.2.1), p.2 ≤ s.life.node.currentTerm
  authentic : ∀ b ∈ s.counted, k.Authentic b.2.1 b.2.2
  votes : s.life.node.role = .candidate → s.life.node.votesReceived ≤ s.voters.length + 1
  won : c.isDesignatedLeader = false → s.life.node.role = .leader → c.quorum ≤ s.voters.length + 1

theorem fair_start (k : Keys) (c : Config) (now : Time) : (start c now).Fair k c where
  quorum := .inl rfl
  term := Int.le_refl 0
  once := nodup_nil
  past p hp := by cases hp
  authentic b hb := by cases hb
  votes hrole := by
    simp only [start, Life.start, newNode] at hrole
    split at hrole <;> cases hrole
  won hd hrole := by
    simp [start, Life.start, newNode, hd] at hrole

theorem Fair.nodup_voters (h : s.Fair k c) : s.voters.Nodup := by
  have hcounted : (s.counted.map fun b => (b.1, b.2.1)).Nodup := (nodup_append.mp h.once).2.1
  have hsub : ((s.counted.filter fun b => b.2.1 = s.life.node.currentTerm).map fun b => (b.1, b.2.1)).Nodup :=
    hcounted.sublist (filter_sublist.map _)
  -- The term is the same for all of them, so the peers differ.
  have hmap : (s.counted.filter fun b => b.2.1 = s.life.node.currentTerm).map (fun b => (b.1, b.2.1)) =
      s.voters.map fun addr => (addr, s.life.node.currentTerm) := by
    rw [voters, List.map_map]
    refine map_congr_left fun b hb => ?_
    have hterm : b.2.1 = s.life.node.currentTerm := by simpa using (mem_filter.mp hb).2
    rw [hterm]
    rfl
  rw [hmap] at hsub
  exact Nodup.of_map _ hsub

theorem Fair.wonByHolders (h : s.Fair k c) : s.WonByHolders k c := by
  intro hd hrole
  refine ⟨s.voters, h.nodup_voters, fun addr haddr => ?_, h.won hd hrole⟩
  obtain ⟨⟨a, t, bytes⟩, hb, rfl⟩ := List.mem_map.mp haddr
  obtain ⟨hmem, hterm⟩ := mem_filter.mp hb
  have ht : t = s.life.node.currentTerm := by simpa using hterm
  subst ht
  exact ⟨bytes, hmem, h.authentic _ hmem⟩

theorem voters_eq (hc : s'.counted = s.counted) (ht : s'.life.node.currentTerm = s.life.node.currentTerm) :
    s'.voters = s.voters := by
  rw [voters, voters, hc, ht]

theorem Fair.yields (h : s.Fair k c) (hy : s.life.node.Yields s'.life.node) (hr : s'.requests = s.requests)
    (hc : s'.counted = s.counted) : s'.Fair k c := by
  refine ⟨hy.quorum ▸ h.quorum,
    Int.le_trans h.term hy.term, by rw [hr, hc]; exact h.once, fun p hp => ?_, by rw [hc]; exact h.authentic, ?_, ?_⟩
  · rw [hr, hc] at hp
    exact Int.le_trans (h.past p hp) hy.term
  · intro hrole
    rcases hy.role with hf | ⟨he, ht, hv⟩
    · cases hf.symm.trans hrole
    · rw [voters_eq hc ht, hv]
      exact h.votes (he ▸ hrole)
  · intro hd hrole
    rcases hy.role with hf | ⟨he, ht, -⟩
    · cases hf.symm.trans hrole
    · rw [voters_eq hc ht]
      exact h.won hd (he ▸ hrole)

theorem Fair.elected (h : s.Fair k c) (hlast : s.life.node.currentTerm < lastTerm)
    (hnode : s'.life.node = s.life.node.startElection c now) (hc : s'.counted = s.counted)
    (hr : s'.requests = s.requests ++ s'.life.node.peers.keys.map fun addr => (addr, s'.life.node.currentTerm)) :
    s'.Fair k c := by
  have hterm : s'.life.node.currentTerm = s.life.node.currentTerm + 1 := by
    rw [hnode]
    exact nextTerm_of_lt (by have := h.term; omega) hlast
  have hnew : ∀ p ∈ s'.life.node.peers.keys.map (fun addr => (addr, s'.life.node.currentTerm)),
      p.2 = s.life.node.currentTerm + 1 := by
    intro p hp
    obtain ⟨addr, -, rfl⟩ := List.mem_map.mp hp
    exact hterm
  have hpos := h.term
  refine ⟨by rw [hnode]; exact h.quorum, by omega, ?_, fun p hp => ?_, by rw [hc]; exact h.authentic, fun _ => ?_,
    fun _ hrole => ?_⟩
  · rw [hr, hc, append_assoc, (perm_append_comm_assoc _ _ _).nodup_iff]
    refine nodup_append.mpr ⟨?_, h.once, ?_⟩
    · exact s'.life.node.peers.keys_nodup.map fun a b hab => (Prod.mk.inj hab).1
    · rintro p hp q hq rfl
      have hle := h.past p hq
      have heq := hnew p hp
      omega
  · rw [hr, hc, append_assoc, (perm_append_comm_assoc _ _ _).mem_iff] at hp
    rcases mem_append.mp hp with hp | hp
    · have heq := hnew p hp
      omega
    · have hle := h.past p hp
      omega
  · rw [hnode]
    exact Nat.le_add_left 1 _
  · rw [hnode] at hrole
    cases hrole

theorem Fair.drop {n' addr term} (h : s.Fair k c) (hy : s.life.node.Yields n' ∨
    n'.role = s.life.node.role ∧ n'.currentTerm = s.life.node.currentTerm ∧
      n'.votesReceived = s.life.node.votesReceived ∧ n'.quorumSize = c.quorum) :
    Fair k c { s with life := { s.life with node := n' }, requests := s.requests.erase (addr, term) } := by
  have hsub : (s.requests.erase (addr, term) ++ s.counted.map fun b => (b.1, b.2.1)).Sublist
      (s.requests ++ s.counted.map fun b => (b.1, b.2.1)) := erase_sublist.append (.refl _)
  have hdrop : Fair k c { s with requests := s.requests.erase (addr, term) } :=
    ⟨h.quorum, h.term, h.once.sublist hsub, fun p hp => h.past p (hsub.subset hp), h.authentic, h.votes, h.won⟩
  rcases hy with hy | ⟨hrole, hterm, hvotes, hq⟩
  · exact hdrop.yields hy rfl rfl
  · refine ⟨.inr hq, hterm ▸ h.term, hdrop.once, fun p hp => hterm ▸ hdrop.past p hp, hdrop.authentic, fun hr => ?_,
      fun hd hr => ?_⟩
    · have hle := h.votes (hrole ▸ hr)
      rwa [voters, ← hterm, ← hvotes] at hle
    · have hle := h.won hd (hrole ▸ hr)
      rwa [voters, ← hterm] at hle

theorem Fair.answer (h : s.Fair k c) {addr bytes term}
    (hok : s.AnswersOk k (.answer addr term bytes)) (hs : s.step c (.answer addr term bytes) = some s') :
    s'.Fair k c := by
  simp only [step] at hs
  split at hs
  next hreq =>
    cases hs
    rcases s.life.node.receiveVote_cases (c := c) term bytes with hsame | ⟨resp, hresp, hword, hcount⟩
    · rw [hsame, if_neg (Nat.lt_irrefl _)]
      exact h.drop (.inl (.refl _))
    rw [hcount]
    obtain ⟨hreg, hq, -, hrole⟩ := s.life.node.countVote_cases term h.quorum
    have hterm : (s.life.node.countVote c term).currentTerm = s.life.node.currentTerm :=
      congrArg Register.epoch hreg
    rcases hrole with ⟨hr, hv⟩ | ⟨hcand, rfl, hv, hwin⟩
    · rw [if_neg (by omega)]
      exact h.drop (.inr ⟨hr, hterm, hv, hq⟩)
    · -- The request moves to the votes that were counted.
      rw [if_pos (by omega)]
      have hauth : k.Authentic s.life.node.currentTerm bytes := ⟨resp, hresp, hok hcand rfl resp hresp hword⟩
      have hperm : (s.requests.erase (addr, s.life.node.currentTerm) ++
          ((addr, s.life.node.currentTerm, bytes) :: s.counted).map fun b => (b.1, b.2.1)).Perm
          (s.requests ++ s.counted.map fun b => (b.1, b.2.1)) := by
        rw [map_cons]
        refine perm_middle.trans ?_
        rw [← cons_append]
        exact (perm_cons_erase hreq).symm.append_right _
      have hvoters : (s.counted.filter fun b => b.2.1 = s.life.node.currentTerm).length + 1 =
          (((addr, s.life.node.currentTerm, bytes) :: s.counted).filter fun b =>
            b.2.1 = s.life.node.currentTerm).length := by simp
      refine
        ⟨.inr hq, hterm.symm ▸ h.term, hperm.nodup_iff.mpr h.once, fun p hp => ?_, ?_, fun hr => ?_, fun hd hr => ?_⟩
      · exact Int.le_trans (h.past p (hperm.mem_iff.mp hp)) (Int.le_of_eq hterm.symm)
      · rintro b (_ | ⟨_, hb⟩)
        · exact hauth
        · exact h.authentic b hb
      · have hle := h.votes hcand
        simp only [voters, length_map, hterm] at hle ⊢
        omega
      · rcases hwin with ⟨hr', -⟩ | ⟨-, hge⟩
        · cases hr'.symm.trans hr
        · have hle := h.votes hcand
          simp only [voters, length_map, hterm] at hle ⊢
          omega
  · cases hs

theorem Fair.step (h : s.Fair k c) (hok : s.AnswersOk k e) (hlast : s.InTerms e)
    (hs : s.step c e = some s') : s'.Fair k c := by
  cases e with
  | answer addr term bytes => exact h.answer hok hs
  | input e =>
    obtain ⟨now, i⟩ := e
    cases i with
    | restart =>
      cases hs
      have hstart := fair_start k c now
      exact ⟨hstart.quorum, hstart.term, hstart.once, hstart.past, hstart.authentic, hstart.votes, hstart.won⟩
    | startElection =>
      simp only [Campaign.step, Life.step] at hs
      split at hs
      · cases hs
      · cases hs
        exact h.elected (hlast _ rfl rfl) rfl rfl rfl
    | requestVote term candidate =>
      cases hs
      exact h.yields (s.life.node.evaluateVote_yields c now term candidate) rfl rfl
    | heartbeat term leader leaderHttp =>
      cases hs
      exact h.yields s.life.node.handleHeartbeat_follows.yields rfl rfl
    | setSynced =>
      cases hs
      exact h.yields s.life.node.setSynced_follows.yields rfl rfl
    | dialFailed =>
      cases hs
      exact h.yields ⟨.inr ⟨rfl, rfl, rfl⟩, Int.le_refl _, rfl⟩ rfl rfl
    | replicate term leader =>
      cases hs
      exact h.yields s.life.node.handleReplicate_follows.yields rfl rfl
    | voteGranted term => cases hs
    | mark addr alive =>
      cases hs
      refine h.yields ?_ rfl rfl
      cases alive with
      | true => exact s.life.node.markPeerAlive_follows.yields
      | false => exact s.life.node.markPeerDead_follows.yields

theorem Fair.run (h : s.Fair k c) (hrun : Lts.Run (Campaign.step c) (fun s e => s.AnswersOk k e ∧ s.InTerms e) s s') :
    s'.Fair k c := hrun.invariant (fun _ _ _ hI hok hs => hI.step hok.1 hok.2 hs) h

/-- A vote is counted as authentic exactly when the answer meets the
condition. -/
theorem onlyAuthentic_iff (hs : s.step c e = some s') : OnlyAuthentic k s s' e ↔ s.AnswersOk k e := by
  constructor
  · intro h
    cases e with
    | input e => exact trivial
    | answer addr term bytes =>
      intro hcand hterm resp hresp hword
      simp only [step] at hs
      split at hs
      · cases hs
        have hcount : s.life.node.receiveVote c term bytes = s.life.node.countVote c term := by
          simp [Node.receiveVote, hresp, hword]
        have hmore : s.life.node.votesReceived < (s.life.node.receiveVote c term bytes).votesReceived := by
          rw [hcount, Node.votesReceived_countVote, if_pos ⟨hcand, hterm⟩]
          omega
        obtain ⟨resp', hresp', hauth⟩ := h addr term bytes rfl hmore
        cases hresp.symm.trans hresp'
        exact hauth
      · cases hs
  · rintro hok addr term bytes rfl hlt
    simp only [step] at hs
    split at hs
    · cases hs
      rcases s.life.node.receiveVote_cases (c := c) term bytes with hsame | ⟨resp, hresp, hword, hcount⟩
      · rw [hsame] at hlt
        exact absurd hlt (Nat.lt_irrefl _)
      · rw [hcount, Node.votesReceived_countVote] at hlt
        split at hlt
        next hcand => exact ⟨resp, hresp, hok hcand.1 hcand.2 resp hresp hword⟩
        · exact absurd hlt (Nat.lt_irrefl _)
    · cases hs

end Campaign

section Elections

open Campaign

variable {k : Keys} {c : Config} {s s' : Campaign} {e : CampaignEvent} {now : Time}

/-- **Only authentic votes count**: after answers that all met the condition,
the next one leaves it so, and a leader with its quorum of signed grants,
exactly when it meets the condition too. -/
theorem authentic_votes_iff
    (hrun : Lts.Run (Campaign.step c) (fun s e => s.AnswersOk k e ∧ s.InTerms e) (Campaign.start c now) s)
    (hs : s.step c e = some s') (hlast : s.InTerms e) :
      OnlyAuthentic k s s' e ∧ s'.WonByHolders k c ↔ s.AnswersOk k e := by
  rw [onlyAuthentic_iff hs]
  refine ⟨fun h => h.1, fun hok => ⟨hok, ?_⟩⟩
  have hfair : s.Fair k c := (fair_start k c now).run hrun
  exact (hfair.step hok hlast hs).wonByHolders

def trioConfig : Config := { loneConfig with nodes := ascii "a:1,b:1" }

/-- Any line that begins with the word makes the node a leader, although it is
not signed. -/
theorem forged_vote_elects : sampleKeys.clusterSecret ≠ [] ∧
    ∃ s s', Lts.exec (Campaign.step trioConfig) (Campaign.start trioConfig 0) [.input (1, .startElection)] = some s ∧
      s.step trioConfig (.answer (ascii "a:1") 1 (ascii "VOTE_GRANTED_NO\n")) = some s' ∧
      s'.life.node.role = .leader ∧
      ¬ OnlyAuthentic sampleKeys s s' (.answer (ascii "a:1") 1 (ascii "VOTE_GRANTED_NO\n")) := by
  refine ⟨by decide, _, _, rfl, rfl, by decide +kernel, fun h => ?_⟩
  obtain ⟨resp, hresp, hauth⟩ := h _ _ _ rfl (by decide +kernel)
  have hline : resp = ascii "VOTE_GRANTED_NO" := by
    have hlines :
      (completeLines 10 (ascii "VOTE_GRANTED_NO\n")).head? = some (ascii "VOTE_GRANTED_NO") := by decide
    exact Option.some.inj (hresp.symm.trans hlines)
  subst hline
  exact absurd hauth (by decide +kernel)

def sampleGrant : GoString := sampleKeys.signed (grantBody 1) ++ ascii "\n"

theorem authentic_votes_sample : ∃ s s',
    Lts.exec (Campaign.step trioConfig) (Campaign.start trioConfig 0) [.input (1, .startElection)] = some s ∧
      s.step trioConfig (.answer (ascii "a:1") 1 sampleGrant) = some s' ∧ s'.life.node.role = .leader ∧
      s'.WonByHolders sampleKeys trioConfig := by
  have hok : ∀ s : Campaign, s.AnswersOk sampleKeys (.answer (ascii "a:1") 1 sampleGrant) := by
    intro s _ _ resp hresp _
    have hlines : (completeLines 10 sampleGrant).head? =
      some (sampleKeys.signed (grantBody 1)) := by decide +kernel
    have hline : resp = sampleKeys.signed (grantBody 1) := Option.some.inj (hresp.symm.trans hlines)
    subst hline
    decide +kernel
  have hrun : Lts.Run (Campaign.step trioConfig) (fun s e => s.AnswersOk sampleKeys e ∧ s.InTerms e)
      (Campaign.start trioConfig 0)
      ((Campaign.step trioConfig (Campaign.start trioConfig 0) (.input (1, .startElection))).get rfl) :=
    have hinput : AnswersOk sampleKeys (Campaign.start trioConfig 0) (.input (1, .startElection)) := trivial
    .snoc .refl ⟨hinput, fun _ he _ => by cases he; decide⟩ (Option.some_get _).symm
  exact ⟨_, _, rfl, rfl, by decide +kernel,
    ((authentic_votes_iff hrun rfl fun _ he => by cases he).mpr (hok _)).2⟩

end Elections

end Cluster

end TinyMQ
