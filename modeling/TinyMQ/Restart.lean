/-
The recovery at startup: `main` reads the names of the topics off the log
files, and `LoadExistingTopics` gives each name the live messages of its
log, all in the normal queue.

A topic comes back under its own name when its file name decodes to it;
`round_trip_iff` says which topics those are, and what they can rely on.
-/
import TinyMQ.Acknowledge

namespace TinyMQ

open List LogStore Text

namespace Broker

/-! ## The code -/

/-- `b.bindings[source][name] = true`. -/
def bind (b : Broker) (source name : GoString) : Broker :=
  { b with bindings := Function.update b.bindings source ((b.bindings source).insert name) }

/-- The binding `LoadExistingTopics` reads off a name with `::`. -/
def bindLoaded (b : Broker) (name : GoString) : Broker :=
  if contains name (ascii "::") then b.bind (before (ascii "::") name) name else b

/-- `b.storage.LoadMessages(name)`, unless it fails. -/
def loadMessages (b : Broker) (name : GoString) : Option (List Message) :=
  b.storage.bind fun s => (s.loadMessages name).toOption

/-- A topic with the messages of its log. -/
def loaded (b : Broker) (name : GoString) (msgs : List Message) : Topic :=
  { Topic.create name b.defaultPolicy with messages := msgs }

/-- The body of the loop of `LoadExistingTopics`. A topic whose messages
cannot be loaded is skipped. -/
def loadTopic (b : Broker) (name : GoString) : Broker :=
  let b := b.bindLoaded name
  match b.loadMessages name with
  | some msgs => b.addTopic (b.loaded name msgs)
  | none => b

def loadExistingTopics (b : Broker) (topicNames : List GoString) : Broker := topicNames.foldl loadTopic b

/-- The broker `main` starts with, on the log files of its data directory. -/
def restart (limits : Limits) (defaultPolicy : Policy) (hooked : Bool) (s : LogStore)
    (env : Env) (chans : Chan → Channel) :
    Broker :=
  (new limits defaultPolicy hooked (some s) env chans).loadExistingTopics (topicsToRecover s.files.keys)

/-! ## What is loaded -/

variable {b : Broker} {s : LogStore} {name n : GoString} {names : List GoString} {t : Topic}

theorem queue_addTopic (b : Broker) (t : Topic) (n : GoString) :
    (b.addTopic t).queue n = if n = t.name then t.queued else b.queue n := by
  have hheap : (b.addTopic t).heap = b.heap ++ [t] := rfl
  simp only [queue, lookup_addTopic]
  split
  · simp [queued, hheap]
  · cases hl : b.topics.lookup n with
    | none => rfl
    | some r =>
      obtain ⟨t', ht', -⟩ := b.topics_ok hl
      simp only [Option.map_some, Option.getD_some, queued, hheap,
        getElem?_append_left (List.getElem?_eq_some_iff.mp ht').1]

theorem bindLoaded_topics (b : Broker) (name : GoString) :
    (b.bindLoaded name).topics = b.topics ∧ (b.bindLoaded name).heap = b.heap ∧
    (b.bindLoaded name).storage = b.storage := by
  unfold bindLoaded
  split <;> exact ⟨rfl, rfl, rfl⟩

theorem queue_bindLoaded (b : Broker) (name n : GoString) : (b.bindLoaded name).queue n = b.queue n := by
  obtain ⟨ht, hh, -⟩ := b.bindLoaded_topics name
  have hq : (b.bindLoaded name).queued = b.queued := by
    funext r
    simp only [queued, hh]
  simp only [queue, hq, ht]

theorem loadTopic_storage (b : Broker) (name : GoString) : (b.loadTopic name).storage = b.storage := by
  have hs := (b.bindLoaded_topics name).2.2
  unfold loadTopic
  dsimp only
  split
  · exact hs
  · exact hs

theorem loadTopic_of_safe (hs : b.storage = some s) (hsafe : isSafePath name = none) :
    b.loadTopic name = (b.bindLoaded name).addTopic ((b.bindLoaded name).loaded name (s.recovered name)) := by
  have hload : (b.bindLoaded name).loadMessages name = some (s.recovered name) := by
    rw [loadMessages, (b.bindLoaded_topics name).2.2, hs, recovered_of_safe hsafe]
    simp [LogStore.loadMessages, hsafe, Except.toOption]
  simp only [loadTopic, hload]

theorem queue_loadTopic_self (hs : b.storage = some s) (hsafe : isSafePath name = none) :
    (b.loadTopic name).queue name = s.recovered name := by
  rw [loadTopic_of_safe hs hsafe, queue_addTopic, if_pos (show name = (loaded _ name _).name from rfl)]
  simp [Topic.queued, loaded, Topic.create]

theorem loadTopic_ne (hn : n ≠ name) :
    (b.loadTopic name).queue n = b.queue n ∧ (b.loadTopic name).topics.lookup n = b.topics.lookup n := by
  have hqueue := queue_bindLoaded b name n
  have htopics := (b.bindLoaded_topics name).1
  unfold loadTopic
  dsimp only
  split
  · have hname : n ≠ (loaded (b.bindLoaded name) name ‹_›).name := hn
    rw [queue_addTopic, lookup_addTopic, if_neg hname, if_neg hname, hqueue, htopics]
    exact ⟨rfl, rfl⟩
  · rw [hqueue, htopics]
    exact ⟨rfl, rfl⟩

theorem mem_bind {source T d} : d ∈ (b.bind source name).bindings T ↔ T = source ∧ d = name ∨ d ∈ b.bindings T := by
  by_cases hT : T = source
  · subst hT
    simp [bind]
  · simp [bind, hT]

theorem loadTopic_bindings (b : Broker) (name : GoString) : (b.loadTopic name).bindings =
    (b.bindLoaded name).bindings := by
  unfold loadTopic
  dsimp only
  split <;> rfl

/-- The names that are loaded are bound to what stands before their `::`. -/
theorem mem_loadExistingTopics_bindings {T} : n ∈ (b.loadExistingTopics names).bindings T ↔ n ∈ b.bindings T ∨
      n ∈ names ∧ contains n (ascii "::") = true ∧ before (ascii "::") n = T := by
  induction names generalizing b with
  | nil => simp [loadExistingTopics]
  | cons name names ih =>
    have hone : n ∈ (b.loadTopic name).bindings T ↔ n ∈ b.bindings T ∨
        n = name ∧ contains n (ascii "::") = true ∧ before (ascii "::") n = T := by
      rw [loadTopic_bindings, bindLoaded]
      split
      next hc =>
        rw [mem_bind]
        constructor
        · rintro (⟨rfl, rfl⟩ | hm)
          · exact .inr ⟨rfl, hc, rfl⟩
          · exact .inl hm
        · rintro (hm | ⟨rfl, -, rfl⟩)
          · exact .inr hm
          · exact .inl ⟨rfl, rfl⟩
      next hc =>
        refine ⟨.inl, ?_⟩
        rintro (hm | ⟨rfl, hin, -⟩)
        · exact hm
        · exact absurd hin hc
    have hrest := ih (b := b.loadTopic name)
    rw [show b.loadExistingTopics (name :: names) =
      (b.loadTopic name).loadExistingTopics names from rfl, hrest, hone, mem_cons]
    tauto

theorem loadExistingTopics_of_not_mem (hn : n ∉ names) : (b.loadExistingTopics names).queue n = b.queue n ∧
      (b.loadExistingTopics names).topics.lookup n = b.topics.lookup n := by
  induction names generalizing b with
  | nil => exact ⟨rfl, rfl⟩
  | cons name names ih =>
    obtain ⟨hne, hn⟩ := ne_and_not_mem_of_not_mem_cons hn
    obtain ⟨hq, ht⟩ := loadTopic_ne (b := b) hne
    obtain ⟨hq', ht'⟩ := ih (b := b.loadTopic name) hn
    exact ⟨hq'.trans hq, ht'.trans ht⟩

/-- **Every name that is loaded has the live messages of its log.** -/
theorem loadExistingTopics_of_mem (hs : b.storage = some s) (hsafe : isSafePath n = none) (hn : n ∈ names) :
    (b.loadExistingTopics names).queue n = s.recovered n ∧
      ((b.loadExistingTopics names).topics.lookup n).isSome = true := by
  induction names generalizing b with
  | nil => cases hn
  | cons name names ih =>
    have hs' : (b.loadTopic name).storage = some s := by rw [loadTopic_storage, hs]
    by_cases hrest : n ∈ names
    · exact ih hs' hrest
    · -- The last time the name is loaded.
      obtain rfl : n = name := (mem_cons.mp hn).resolve_right hrest
      obtain ⟨hq, ht⟩ := loadExistingTopics_of_not_mem (b := b.loadTopic n) hrest
      refine ⟨hq.trans (queue_loadTopic_self hs hsafe), ?_⟩
      show (AList.lookup n ((b.loadTopic n).loadExistingTopics names).topics).isSome = true
      rw [ht, loadTopic_of_safe hs hsafe, lookup_addTopic, if_pos (show n = (loaded _ n _).name from rfl)]
      rfl

end Broker

/-! ## Topics that come back -/

/-- A name that the broker and the storage accept. -/
def Accepted (t : GoString) : Prop := validTopicRegex t = true ∧ isSafePath t = none

instance : DecidablePred Accepted := fun _ => inferInstanceAs (Decidable (_ ∧ _))

/-- Every log is that of an accepted topic whose file name decodes to it. -/
def LogStore.Decodes (s : LogStore) : Prop :=
  ∀ f ∈ s.files.keys, ∃ u, Accepted u ∧ decodeStem (topicToFilename u) = u ∧ f = logFilename u

section Restart

variable {s : LogStore} {t u : GoString}

theorem LogStore.Decodes.topicsToRecover (h : s.Decodes) :
    ∃ ts, s.files.keys = ts.map logFilename ∧ topicsToRecover s.files.keys = ts ∧
      ∀ u ∈ ts, Accepted u ∧ decodeStem (topicToFilename u) = u := by
  choose! g hg using h
  have hkeys : s.files.keys = (s.files.keys.map g).map logFilename := by
    rw [List.map_map]
    conv_lhs => rw [← List.map_id s.files.keys]
    exact map_congr_left fun f hf => (hg f hf).2.2
  have hts : ∀ u ∈ s.files.keys.map g, Accepted u ∧ decodeStem (topicToFilename u) = u := by
    intro u hu
    obtain ⟨f, hf, rfl⟩ := List.mem_map.mp hu
    exact ⟨(hg f hf).1, (hg f hf).2.1⟩
  refine ⟨s.files.keys.map g, hkeys, ?_, hts⟩
  conv_lhs => rw [hkeys]
  exact topicsToRecover_logFilename fun u hu =>
    ⟨(hts u hu).1.1, (decodeStem_topicToFilename_iff (hts u hu).1.1).mp (hts u hu).2⟩

theorem LogStore.Decodes.mem_topicsToRecover (h : s.Decodes) (hdecode : decodeStem (topicToFilename t) = t) :
    t ∈ TinyMQ.topicsToRecover s.files.keys ↔ logFilename t ∈ s.files := by
  obtain ⟨ts, hkeys, hts, hall⟩ := h.topicsToRecover
  rw [hts, AList.mem_keys, hkeys, List.mem_map]
  refine ⟨fun hm => ⟨t, hm, rfl⟩, ?_⟩
  rintro ⟨u, hu, he⟩
  have he' : topicToFilename u = topicToFilename t := append_cancel_right he
  rw [← hdecode, ← he', (hall u hu).2]
  exact hu

/-- **A restart recovers each topic under its own name**: its live messages,
and no topic without a log. -/
theorem restart_recovers {limits policy hooked env} {chans : Chan → Channel}
    (h : s.Decodes) (ht : Accepted t) (hdecode : decodeStem (topicToFilename t) = t) :
    (Broker.restart limits policy hooked s env chans).queue t = replay (s.file (logFilename t)) ∧
      (((Broker.restart limits policy hooked s env chans).topics.lookup t).isSome = true ↔
        logFilename t ∈ s.files) := by
  have hmem := h.mem_topicsToRecover hdecode
  unfold Broker.restart
  by_cases hin : t ∈ topicsToRecover s.files.keys
  · obtain ⟨hq, hsome⟩ := Broker.loadExistingTopics_of_mem
      (b := Broker.new limits policy hooked (some s) env chans) rfl ht.2 hin
    refine ⟨?_, by rw [hsome]; simpa using hmem.mp hin⟩
    rw [hq, recovered_of_safe ht.2, source_eq, if_pos (hmem.mp hin)]
  · obtain ⟨hq, hlookup⟩ := Broker.loadExistingTopics_of_not_mem
      (b := Broker.new limits policy hooked (some s) env chans) hin
    have hnot : logFilename t ∉ s.files := fun hf => hin (hmem.mpr hf)
    refine ⟨?_, by rw [hlookup]; simpa [Broker.new] using hnot⟩
    rw [hq, file, AList.lookup_eq_none.mpr hnot]
    rfl

/-- What a topic whose file name decodes to it can rely on: no other such
topic has its log file, and a restart recovers it. -/
structure RoundTrip (t : GoString) : Prop where
  decodes : decodeStem (topicToFilename t) = t
  path_ne : ∀ {dir u}, Accepted u → decodeStem (topicToFilename u) = u → t ≠ u → logFilePath dir t ≠ logFilePath dir u
  recovers : ∀ {s : LogStore} {limits policy hooked env chans}, s.Decodes →
    (Broker.restart limits policy hooked s env chans).queue t = replay (s.file (logFilename t)) ∧
      (((Broker.restart limits policy hooked s env chans).topics.lookup t).isSome = true ↔ logFilename t ∈ s.files)

/-- **Which topics come back under their own name**: those with no `_b_`, no
`_a_` and no `_b/` in it. -/
theorem round_trip_iff (ht : Accepted t) : RoundTrip t ↔ FileNameSafe t := by
  rw [← decodeStem_topicToFilename_iff ht.1]
  refine ⟨fun h => h.decodes, fun hdecode => ⟨hdecode, fun _ hu hne hpath => hne ?_, fun hs => ?_⟩⟩
  · rw [← hdecode, logFilePath_inj.mp hpath, hu]
  · exact restart_recovers hs ht hdecode

/-- Two topics with one log: `a_b_c` is taken for `a/c`. -/
theorem file_shared : Accepted (ascii "a_b_c") ∧ Accepted (ascii "a/c") ∧
    logFilePath (ascii "data") (ascii "a_b_c") = logFilePath (ascii "data") (ascii "a/c") ∧
      ¬ RoundTrip (ascii "a_b_c") :=
  ⟨by decide, by decide, by decide, fun h => absurd h.decodes (by decide)⟩

theorem round_trip_sample : RoundTrip (ascii "orders/eu.dlq") := (round_trip_iff (by decide)).mpr (by decide)

end Restart

end TinyMQ
