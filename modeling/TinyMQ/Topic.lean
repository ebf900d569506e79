/-
Topics and channels (`internal/broker`): the three queues of a topic, its
waiting consumers, and what the code does with them under `t.mu`.

Each operation comes with what it does to `queued`, the messages of the
three queues together.
-/
import TinyMQ.Data
import Mathlib.Data.List.Perm.Basic

namespace TinyMQ

open List Option

/-- A notify channel of a caller. -/
abbrev Chan := Nat

/-- The channel of a spy. -/
abbrev Spy := Nat

/-- A `*Topic`. -/
abbrev TopicRef := Nat

/-- A buffered channel. -/
structure Channel where
  cap : Nat
  buf : List Message
  deriving DecidableEq, Repr

/-- `select { case ch <- m: default: }`: the channel after the send, or
`none` when the default branch is taken. -/
def Channel.trySend (ch : Channel) (m : Message) : Option Channel :=
  if ch.buf.length < ch.cap then some { ch with buf := ch.buf ++ [m] } else none

structure Topic where
  name : GoString
  messages : List Message
  highMessages : List Message
  lowMessages : List Message
  waitingConsumers : List Chan
  spies : List Spy
  policy : Policy
  deleted : Bool
  retention : Time
  /-- `mu` is locked by a goroutine that will not unlock it. -/
  held : Bool
  deriving DecidableEq, Repr

namespace Topic

variable {limit : Nat} {now : Time} {results queue : List Message} {expiredIDs : List GoString} {id : GoString}

/-- `&Topic{Name: name, Policy: policy}`. -/
def create (name : GoString) (policy : Policy) : Topic where
  name := name
  messages := []
  highMessages := []
  lowMessages := []
  waitingConsumers := []
  spies := []
  policy := policy
  deleted := false
  retention := 0
  held := false

/-- The messages of the three queues, in the order `Consume` looks at them. -/
def queued (t : Topic) : List Message := t.highMessages ++ t.messages ++ t.lowMessages

/-- `*targetQueue = append(*targetQueue, msg)`. -/
def append (t : Topic) (priority : Priority) (m : Message) : Topic :=
  match priority with
  | .high => { t with highMessages := t.highMessages ++ [m] }
  | .low => { t with lowMessages := t.lowMessages ++ [m] }
  | .normal => { t with messages := t.messages ++ [m] }

/-- The message a full `drop-oldest` topic gives up, and the topic without
it; `none` when there is no message at all. -/
def evictOldest (t : Topic) : Option (Message × Topic) :=
  match t.lowMessages with
  | m :: rest => some (m, { t with lowMessages := rest })
  | [] =>
    match t.messages with
    | m :: rest => some (m, { t with messages := rest })
    | [] =>
      match t.highMessages with
      | m :: rest => some (m, { t with highMessages := rest })
      | [] => none

/-- The variables of `extractMessages` in the loop over one queue. -/
structure Extract where
  results : List Message
  expiredIDs : List GoString
  keep : List Message

/-- The body of the loop in `extractFrom`. -/
def extractOne (limit : Nat) (now : Time) (st : Extract) (m : Message) : Extract :=
  if limit ≤ st.results.length then { st with keep := st.keep ++ [m] }
  else if m.expired now then { st with expiredIDs := st.expiredIDs ++ [m.id] }
  else if m.delayed now then { st with keep := st.keep ++ [m] }
  else { st with results := st.results ++ [m] }

/-- `extractFrom`: what it returns starts with what was extracted before. -/
def extractFrom (limit : Nat) (now : Time) (st : Extract) (queue : List Message) : Extract :=
  queue.foldl (extractOne limit now) { st with keep := [] }

/-- `if len(results) < limit { extractFrom(queue) }`. -/
def extractNext (limit : Nat) (now : Time) (st : Extract) (queue : List Message) : Extract :=
  if st.results.length < limit then extractFrom limit now st queue else { st with keep := queue }

/-- `extractMessages`: the results, the expired IDs, the topic that is left. -/
def extractMessages (t : Topic) (limit : Nat) (now : Time) : List Message × List GoString × Topic :=
  let high := extractFrom limit now ⟨[], [], []⟩ t.highMessages
  let normal := extractNext limit now high t.messages
  let low := extractNext limit now normal t.lowMessages
  (low.results, low.expiredIDs,
    { t with highMessages := high.keep, messages := normal.keep, lowMessages := low.keep })

/-- The queue without its first message of that ID, if it has one. -/
def removeFrom (id : GoString) : List Message → Option (List Message)
  | [] => none
  | m :: queue => if m.id = id then some queue else (removeFrom id queue).map (m :: ·)

/-- The loops of `Ack` and `removeMessageByID`: high, normal, low. -/
def remove? (t : Topic) (id : GoString) : Option Topic :=
  match removeFrom id t.highMessages with
  | some q => some { t with highMessages := q }
  | none =>
    match removeFrom id t.messages with
    | some q => some { t with messages := q }
    | none => (removeFrom id t.lowMessages).map fun q => { t with lowMessages := q }

def removeMessageByID (t : Topic) (id : GoString) : Topic := (t.remove? id).getD t

/-! ## What the operations leave alone -/

variable {t t' : Topic} {m : Message}

/-- The topic without its messages. -/
def emptied (t : Topic) : Topic := { t with messages := [], highMessages := [], lowMessages := [] }

theorem fields_of_emptied (h : t'.emptied = t.emptied) : t'.name = t.name ∧ t'.deleted = t.deleted ∧
    t'.waitingConsumers = t.waitingConsumers ∧ t'.spies = t.spies := by
  simp only [emptied, mk.injEq] at h
  simp [h]

theorem static_of_emptied (h : t'.emptied = t.emptied) : t'.policy = t.policy ∧ t'.retention = t.retention := by
  simp only [emptied, mk.injEq] at h
  simp [h]

theorem emptied_append (t : Topic) (p : Priority) (m : Message) : (t.append p m).emptied = t.emptied := by
  cases p <;> rfl

theorem emptied_evictOldest (h : t.evictOldest = some (m, t')) : t'.emptied = t.emptied := by
  unfold evictOldest at h
  split at h
  · cases h; rfl
  · split at h
    · cases h; rfl
    · split at h
      · cases h; rfl
      · cases h

theorem emptied_extractMessages
    (h : t.extractMessages limit now = (results, expiredIDs, t')) : t'.emptied = t.emptied := by
  cases h
  rfl

theorem emptied_remove? (h : t.remove? id = some t') : t'.emptied = t.emptied := by
  unfold remove? at h
  split at h
  · cases h; rfl
  · split at h
    · cases h; rfl
    · obtain ⟨q, -, rfl⟩ := map_eq_some_iff.mp h
      rfl

theorem emptied_removeMessageByID (t : Topic) (id : GoString) : (t.removeMessageByID id).emptied = t.emptied := by
  unfold removeMessageByID
  cases h : t.remove? id with
  | none => rfl
  | some t' => exact emptied_remove? h

/-! ## What they do to the queues -/

@[simp] theorem append_waitingConsumers (t : Topic) (p : Priority) (m : Message) :
    (t.append p m).waitingConsumers = t.waitingConsumers := by
  cases p <;> rfl

theorem queued_append (t : Topic) (p : Priority) (m : Message) : (t.append p m).queued.Perm (m :: t.queued) := by
  cases p with
  | high =>
    simp only [append, queued, append_assoc]
    exact perm_middle
  | normal =>
    simp only [append, queued, append_assoc]
    rw [← append_assoc]
    exact perm_middle.trans (by simp)
  | low =>
    simp only [append, queued]
    rw [← append_assoc]
    exact perm_append_singleton m _

theorem evictOldest_spec (h : t.evictOldest = some (m, t')) :
    t.queued.Perm (m :: t'.queued) ∧ t'.waitingConsumers = t.waitingConsumers := by
  unfold evictOldest at h
  split at h
  next rest hl =>
    cases h
    simp only [queued, hl]
    exact ⟨perm_middle, trivial⟩
  next hl =>
    split at h
    next rest hm =>
      cases h
      simp only [queued, hl, hm, append_nil]
      exact ⟨perm_middle, trivial⟩
    next hm =>
      split at h
      next rest hh =>
        cases h
        simp [queued, hl, hm, hh]
      · cases h

theorem queued_of_evictOldest (h : t.evictOldest = none) : t.queued = [] := by
  unfold evictOldest at h
  split at h
  · cases h
  next hl =>
    split at h
    · cases h
    next hm =>
      split at h
      · cases h
      next hh => simp [queued, hl, hm, hh]

/-- Where a scan that has room puts a message. -/
inductive Place where
  | result
  | expired
  | kept
  deriving DecidableEq

def place (now : Time) (m : Message) : Place :=
  if m.expired now then .expired else if m.delayed now then .kept else .result

/-- The messages that go to a place. -/
def sentTo (p : Place) (now : Time) (queue : List Message) : List Message := queue.filter (place now · = p)

@[simp]
theorem sentTo_nil (p : Place) (now : Time) : sentTo p now [] = [] := rfl

@[simp]
theorem sentTo_append (p : Place) (now : Time) (xs ys : List Message) :
    sentTo p now (xs ++ ys) = sentTo p now xs ++ sentTo p now ys := filter_append ..

theorem mem_sentTo : m ∈ sentTo p now queue ↔ m ∈ queue ∧ place now m = p := by simp [sentTo]

theorem place_eq_result : place now m = .result ↔ m.expired now = false ∧ m.delayed now = false := by
  unfold place
  split <;> simp_all

theorem place_eq_expired : place now m = .expired ↔ m.expired now = true := by
  unfold place
  split <;> simp_all
  split <;> simp

theorem delayed_of_kept (h : place now m = .kept) : m.delayed now = true := by
  unfold place at h
  split at h <;> simp_all

theorem sentTo_perm (now : Time) (queue : List Message) :
    queue.Perm (sentTo .result now queue ++ sentTo .expired now queue ++ sentTo .kept now queue) := by
  induction queue with
  | nil => exact .nil
  | cons m queue ih =>
    cases h : place now m with
    | result => simpa [sentTo, h] using ih
    | expired =>
      rw [append_assoc] at ih ⊢
      simpa [sentTo, h] using (ih.cons m).trans perm_middle.symm
    | kept => simpa [sentTo, h] using (ih.cons m).trans perm_middle.symm

theorem extractOne_eq (h : st.results.length < limit) : extractOne limit now st m = match place now m with
    | .result => { st with results := st.results ++ [m] }
    | .expired => { st with expiredIDs := st.expiredIDs ++ [m.id] }
    | .kept => { st with keep := st.keep ++ [m] } := by
  unfold extractOne place
  rw [if_neg (Nat.not_le.mpr h)]
  split
  · rfl
  · split <;> rfl

theorem foldl_extractOne_full (h : limit ≤ st.results.length) :
    queue.foldl (extractOne limit now) st = { st with keep := st.keep ++ queue } := by
  induction queue generalizing st with
  | nil => simp
  | cons m queue ih =>
    rw [foldl_cons, extractOne, if_pos h, ih]
    · simp
    · exact h

/-- A scan sorts a first part of the queue and keeps the rest, which is empty
as long as there is room. -/
def Extract.Scans (limit : Nat) (now : Time) (st st' : Extract) (queue : List Message) : Prop :=
  ∃ seen rest, queue = seen ++ rest ∧
    st' = ⟨st.results ++ sentTo .result now seen, st.expiredIDs ++ (sentTo .expired now seen).map Message.id,
      sentTo .kept now seen ++ rest⟩ ∧
    (st.results.length ≤ limit → st'.results.length ≤ limit) ∧ (limit ≤ st.results.length → seen = []) ∧
    (st'.results.length < limit → rest = [])

theorem extractFrom_scans (limit : Nat) (now : Time) (st : Extract) (queue : List Message) :
    st.Scans limit now (extractFrom limit now st queue) queue := by
  -- The loop, from any list of messages kept so far.
  have loop : ∀ (queue : List Message) (st : Extract), ∃ seen rest, queue = seen ++ rest ∧
      queue.foldl (extractOne limit now) st = ⟨st.results ++ sentTo .result now seen,
        st.expiredIDs ++ (sentTo .expired now seen).map Message.id, st.keep ++ (sentTo .kept now seen ++ rest)⟩ ∧
      (st.results.length ≤ limit → (st.results ++ sentTo .result now seen).length ≤ limit) ∧
      (limit ≤ st.results.length → seen = []) ∧
      ((st.results ++ sentTo .result now seen).length < limit → rest = []) := by
    intro queue
    induction queue with
    | nil => exact fun st => ⟨[], [], by simp [sentTo]⟩
    | cons m queue ih =>
      intro st
      by_cases hfull : limit ≤ st.results.length
      · rw [foldl_extractOne_full hfull]
        exact ⟨[], m :: queue, rfl, by simp [sentTo], by simp [sentTo], fun _ => rfl, by simpa [sentTo] using hfull⟩
      · obtain ⟨seen, rest, rfl, heq, hmax, -, hroom⟩ := ih (extractOne limit now st m)
        refine ⟨m :: seen, rest, rfl, ?_⟩
        rw [foldl_cons, heq]
        rw [extractOne_eq (Nat.lt_of_not_le hfull)] at hmax hroom ⊢
        cases h : place now m with
        | expired | kept => simp_all [sentTo]
        | result =>
          have hone : sentTo .result now (m :: seen) = [m] ++ sentTo .result now seen := by simp [sentTo, h]
          have hlen : (st.results ++ [m]).length ≤ limit := by simp; omega
          simp only [h, append_assoc] at hmax hroom
          rw [hone]
          exact ⟨by simp [sentTo, h], fun _ => hmax hlen, fun hle => absurd hle hfull, hroom⟩
  obtain ⟨seen, rest, hqueue, heq, h⟩ := loop queue { st with keep := [] }
  exact ⟨seen, rest, hqueue, by simpa [extractFrom, heq] using h⟩

theorem extractNext_eq (limit : Nat) (now : Time) (st : Extract) (queue : List Message) :
    extractNext limit now st queue = extractFrom limit now st queue := by
  unfold extractNext extractFrom
  split
  · rfl
  · rw [foldl_extractOne_full (by simp; omega), nil_append]

/-- **Extraction reads a first part of every queue** and sorts that part; it
reads on in the next queue only when it is through with one. -/
theorem extractMessages_scans (h : t.extractMessages limit now = (results, expiredIDs, t')) :
    ∃ high high' normal normal' low low', t.highMessages = high ++ high' ∧ t.messages = normal ++ normal' ∧
      t.lowMessages = low ++ low' ∧ results = sentTo .result now (high ++ normal ++ low) ∧
      expiredIDs = (sentTo .expired now (high ++ normal ++ low)).map Message.id ∧
      t' = { t with highMessages := sentTo .kept now high ++ high', messages := sentTo .kept now normal ++ normal',
                    lowMessages := sentTo .kept now low ++ low' } ∧
      results.length ≤ limit ∧ (results.length < limit → high' = [] ∧ normal' = [] ∧ low' = []) ∧
      (high' ≠ [] → normal = [] ∧ low = []) ∧ (normal' ≠ [] → low = []) := by
  obtain ⟨high, high', hq₁, he₁, hmax₁, -, hroom₁⟩ := extractFrom_scans limit now ⟨[], [], []⟩ t.highMessages
  obtain ⟨normal, normal', hq₂, he₂, hmax₂, hfull₂, hroom₂⟩ := extractFrom_scans limit now
    (extractFrom limit now ⟨[], [], []⟩ t.highMessages) t.messages
  obtain ⟨low, low', hq₃, he₃, hmax₃, hfull₃, hroom₃⟩ := extractFrom_scans limit now
    (extractFrom limit now (extractFrom limit now ⟨[], [], []⟩ t.highMessages) t.messages) t.lowMessages
  have hmax := hmax₃ (hmax₂ (hmax₁ (Nat.zero_le _)))
  dsimp only [extractMessages] at h
  rw [extractNext_eq, extractNext_eq] at h
  cases h
  rw [he₃] at hmax hroom₃ ⊢
  rw [he₂] at hmax hroom₂ hroom₃ hfull₃ ⊢
  rw [he₁] at hmax hroom₁ hroom₂ hroom₃ hfull₂ hfull₃ ⊢
  simp only [nil_append, length_append] at hroom₁ hroom₂ hroom₃ hfull₂ hfull₃
  refine ⟨high, high', normal, normal', low, low', hq₁, hq₂, hq₃, by simp, by simp, rfl, hmax, ?_, ?_, ?_⟩
  · simp only [nil_append, length_append]
    exact fun hlt => ⟨hroom₁ (by omega), hroom₂ (by omega), hroom₃ hlt⟩
  · intro hne
    have := mt hroom₁ hne
    exact ⟨hfull₂ (by omega), hfull₃ (by omega)⟩
  · intro hne
    have := mt hroom₂ hne
    exact hfull₃ (by omega)

theorem extractMessages_cut (h : t.extractMessages limit now = (results, expiredIDs, t')) :
    ∃ seen rest, t.queued = seen ++ rest ∧ t'.queued = sentTo .kept now seen ++ rest ∧
      results = sentTo .result now seen ∧ expiredIDs = (sentTo .expired now seen).map Message.id ∧
      results.length ≤ limit ∧ (results.length < limit → rest = []) := by
  obtain ⟨high, high', normal, normal', low, low', hh, hn, hl, hr, he, rfl, hmax, hroom, hhigh, hnormal⟩ :=
    extractMessages_scans h
  refine ⟨high ++ normal ++ low, high' ++ normal' ++ low', ?_, ?_, hr, he, hmax, fun hlt => by simp [hroom hlt]⟩
  · by_cases h₁ : high' = []
    · by_cases h₂ : normal' = [] <;> simp_all [queued]
    · simp_all [queued]
  · by_cases h₁ : high' = []
    · by_cases h₂ : normal' = [] <;> simp_all [queued]
    · simp_all [queued]

/-- **What extraction does**: it splits the queued messages into its
results, messages that have expired, and what it leaves. -/
theorem extractMessages_spec (h : t.extractMessages limit now = (results, expiredIDs, t')) :
    t'.waitingConsumers = t.waitingConsumers ∧ ∃ gone : List Message,
      expiredIDs = gone.map Message.id ∧ (∀ m ∈ results, m.expired now = false ∧ m.delayed now = false) ∧
      (∀ m ∈ gone, m.expired now = true) ∧ t.queued.Perm (results ++ gone ++ t'.queued) := by
  obtain ⟨seen, rest, hq, hq', rfl, he, -⟩ := extractMessages_cut h
  refine ⟨congrArg (·.2.2.waitingConsumers) h.symm, _, he, fun m hm => place_eq_result.mp (mem_sentTo.mp hm).2,
    fun m hm => place_eq_expired.mp (mem_sentTo.mp hm).2, ?_⟩
  rw [hq, hq', ← append_assoc]
  exact (sentTo_perm now seen).append_right rest

/-- Extraction takes no more than it was asked for; if it takes less, all it
leaves is delayed. -/
theorem extractMessages_fills (h : t.extractMessages limit now = (results, expiredIDs, t')) :
    results.length ≤ limit ∧ (results.length < limit → ∀ m ∈ t'.queued, m.delayed now = true) := by
  obtain ⟨seen, rest, -, hq', -, -, hmax, hroom⟩ := extractMessages_cut h
  refine ⟨hmax, fun hlt m hm => ?_⟩
  rw [hq', hroom hlt, append_nil] at hm
  exact delayed_of_kept (mem_sentTo.mp hm).2

theorem extractMessages_take (h : t.extractMessages limit now = (results, expiredIDs, t')) :
    results = (sentTo .result now t.queued).take limit := by
  obtain ⟨seen, rest, hq, -, rfl, -, hmax, hroom⟩ := extractMessages_cut h
  rw [hq, sentTo_append]
  rcases Nat.lt_or_ge (sentTo .result now seen).length limit with hlt | hge
  · rw [hroom hlt, take_of_length_le (by simpa [sentTo] using hmax)]
    simp [sentTo]
  · rw [take_left' (Nat.le_antisymm hmax hge)]

/-- The messages of a queue whose places are marked. -/
def marked (p : Place) (marks : List (Message × Place)) : List Message :=
  (marks.filter (·.2 = p)).map Prod.fst

/-- The marks of a queue that was read in its first part. -/
def marks (now : Time) (seen rest : List Message) : List (Message × Place) :=
  seen.map (fun m => (m, place now m)) ++ rest.map (·, .kept)

theorem map_fst_marks (now : Time) (seen rest : List Message) :
    (marks now seen rest).map Prod.fst = seen ++ rest := by
  simp [marks, Function.comp_def]

@[simp]
theorem marked_append (p : Place) (xs ys : List (Message × Place)) :
    marked p (xs ++ ys) = marked p xs ++ marked p ys := by
  simp [marked]

theorem marked_marks (p : Place) (now : Time) (seen rest : List Message) :
    marked p (marks now seen rest) = sentTo p now seen ++ if p = .kept then rest else [] := by
  cases p <;> simp [marked, marks, sentTo, List.filter_map, Function.comp_def]

/-- **Extraction, in full**: its results are the first `limit` messages that are
due, and every message goes to one place, where the order is that of its queue. -/
theorem extractMessages_places (t : Topic) (limit : Nat) (now : Time) :
    let due (queue : List Message) := queue.filter fun m => !m.expired now && !m.delayed now
    let (results, expiredIDs, t') := t.extractMessages limit now
    results = (due t.highMessages ++ due t.messages ++ due t.lowMessages).take limit ∧
      ∃ high normal low : List (Message × Place), high.map Prod.fst = t.highMessages ∧
        normal.map Prod.fst = t.messages ∧ low.map Prod.fst = t.lowMessages ∧
        results = marked .result (high ++ normal ++ low) ∧
        expiredIDs = (marked .expired (high ++ normal ++ low)).map Message.id ∧
        t'.highMessages = marked .kept high ∧ t'.messages = marked .kept normal ∧ t'.lowMessages = marked .kept low ∧
        ∀ m, (m, .expired) ∈ high ++ normal ++ low → ∃ e, m.expiresAt = some e ∧ e < now := by
  intro due
  have hdue : ∀ queue, due queue = sentTo .result now queue := fun queue =>
    filter_congr fun m _ => by simp [place_eq_result, Bool.decide_and]
  obtain ⟨⟨results, expiredIDs, t'⟩, h⟩ : ∃ x, t.extractMessages limit now = x := ⟨_, rfl⟩
  obtain ⟨high, high', normal, normal', low, low', hh, hn, hl, hr, he, ht, -⟩ := extractMessages_scans h
  have htake := extractMessages_take h
  subst ht
  rw [h]
  refine ⟨by simpa [hdue, queued] using htake, marks now high high', marks now normal normal', marks now low low', ?_⟩
  simp only [map_fst_marks, marked_append, marked_marks]
  refine ⟨hh.symm, hn.symm, hl.symm, by simpa using hr, by simpa using he, rfl, rfl, rfl, fun m hm => ?_⟩
  have hexp : m.expired now := by
    simp only [marks, mem_append, List.mem_map, Prod.mk.injEq, reduceCtorEq, and_false, exists_const] at hm
    rw [← place_eq_expired]
    aesop
  unfold Message.expired at hexp
  split at hexp
  · cases hexp
  next e he => exact ⟨e, he, of_decide_eq_true hexp⟩

theorem mem_results_of_ready (h : t.extractMessages limit now = (results, expiredIDs, t')) (hm : m ∈ t.queued)
    (hexp : m.expired now = false)
    (hdel : m.delayed now = false) (hroom : t.queued.length ≤ limit) : m ∈ results := by
  obtain ⟨-, gone, -, -, hgone, hperm⟩ := extractMessages_spec h
  obtain ⟨-, hleft⟩ := extractMessages_fills h
  have hlength := hperm.length_eq
  simp only [length_append] at hlength
  rcases mem_append.mp (hperm.subset hm) with hm | hm
  · rcases mem_append.mp hm with hm | hm
    · exact hm
    · rw [hgone m hm] at hexp
      cases hexp
  · have hpos := length_pos_of_mem hm
    rw [hleft (by omega) m hm] at hdel
    cases hdel

theorem removeFrom_eq_some (h : removeFrom id queue = some rest) : ∃ m, m.id = id ∧ queue.Perm (m :: rest) := by
  induction queue generalizing rest with
  | nil => cases h
  | cons m queue ih =>
    rw [removeFrom] at h
    split at h
    next hid =>
      cases h
      exact ⟨m, hid, .refl _⟩
    next hid =>
      obtain ⟨rest', hr, rfl⟩ := map_eq_some_iff.mp h
      obtain ⟨m', hm', hp⟩ := ih hr
      exact ⟨m', hm', (hp.cons m).trans (.swap m' m rest')⟩

theorem removeFrom_eq_none : removeFrom id queue = none ↔ ∀ m ∈ queue, m.id ≠ id := by
  induction queue with
  | nil => simp [removeFrom]
  | cons m queue ih =>
    rw [removeFrom]
    split
    next hid => simp [hid]
    next hid => simp [hid, ih]

theorem remove?_eq_none : t.remove? id = none ↔ ∀ m ∈ t.queued, m.id ≠ id := by
  have hall : (∀ m ∈ t.queued, m.id ≠ id) ↔ removeFrom id t.highMessages = none ∧
    removeFrom id t.messages = none ∧
      removeFrom id t.lowMessages = none := by
    simp only [removeFrom_eq_none, queued, mem_append, or_imp, forall_and, and_assoc]
  rw [hall, remove?]
  cases removeFrom id t.highMessages with
  | some q => simp
  | none =>
    cases removeFrom id t.messages with
    | some q | none => simp

theorem remove?_eq_some (h : t.remove? id = some t') :
    t'.waitingConsumers = t.waitingConsumers ∧ ∃ m, m.id = id ∧ t.queued.Perm (m :: t'.queued) := by
  unfold remove? at h
  split at h
  next q hq =>
    cases h
    obtain ⟨m, hm, hp⟩ := removeFrom_eq_some hq
    exact ⟨rfl, m, hm, (hp.append_right t.messages).append_right t.lowMessages⟩
  split at h
  next q hq =>
    cases h
    obtain ⟨m, hm, hp⟩ := removeFrom_eq_some hq
    refine ⟨rfl, m, hm, ?_⟩
    have hp' := (hp.append_left t.highMessages).append_right t.lowMessages
    exact hp'.trans (by simp [queued, perm_middle])
  next =>
    obtain ⟨q, hq, rfl⟩ := map_eq_some_iff.mp h
    obtain ⟨m, hm, hp⟩ := removeFrom_eq_some hq
    exact ⟨rfl, m, hm, (hp.append_left (t.highMessages ++ t.messages)).trans perm_middle⟩

theorem removeMessageByID_spec (t : Topic) (id : GoString) :
    (t.removeMessageByID id).waitingConsumers = t.waitingConsumers ∧
      ((t.removeMessageByID id = t ∧ ∀ m ∈ t.queued, m.id ≠ id) ∨
        ∃ m, m.id = id ∧ t.queued.Perm (m :: (t.removeMessageByID id).queued)) := by
  unfold removeMessageByID
  cases h : t.remove? id with
  | none => exact ⟨rfl, .inl ⟨rfl, remove?_eq_none.mp h⟩⟩
  | some t' =>
    obtain ⟨hw, hm⟩ := remove?_eq_some h
    exact ⟨hw, .inr hm⟩

end Topic

end TinyMQ
