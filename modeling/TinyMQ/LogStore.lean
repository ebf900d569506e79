/-
The write-ahead log at the level of records, as the broker uses it: one
sequence of puts and acks per log file.

A write stores its record or it does not (`WriteOutcome`); the callers of
`AppendPut` and `AppendAck` look at the error only to log it, so the
outcome is not returned. `Represents` ties a store to a disk;
`writeRecord_spec` says that a write keeps the two together,
`writeRecords_spec` that a run of writes does, and `Represents.loadMessages`
that `LoadMessages` returns what the store has. The three leave torn writes
out: the first part of a record has no line feed, so the next record is
written to the same line and neither is read back.
-/
import TinyMQ.Compaction
import Mathlib.Data.List.AList

namespace TinyMQ

open List Option Function AList KeyedLog

/-- A record: the put of a message, or the ack of an ID. -/
inductive LogEntry
  | put (m : Message)
  | ack (msgID : GoString)
  deriving DecidableEq, Repr

/-- A record as an entry of a keyed log: a put is keyed by the ID of its message. -/
def LogEntry.entry : LogEntry → KeyedLog.Entry GoString Message
  | .put m => .put m.id m
  | .ack msgID => .del msgID

/-- How far `writeRecord` comes. A file that could be opened is there even
when the record could not be written. -/
inductive WriteOutcome
  | stored
  | openFailed
  | writeFailed
  deriving DecidableEq, Repr

/-- The log files of the data directory, and the outcomes of the writes to
come. -/
structure LogStore where
  files : AList fun _ : GoString => List LogEntry
  outcome : Nat → WriteOutcome
  writes : Nat

namespace LogStore

def file (s : LogStore) (filename : GoString) : List LogEntry := (s.files.lookup filename).getD []

def nextOutcome (s : LogStore) : WriteOutcome := s.outcome s.writes

/-- `writeRecord`. -/
def append (s : LogStore) (topic : GoString) (e : LogEntry) : LogStore :=
  match isSafePath topic with
  | some _ => s
  | none =>
    let s' := { s with writes := s.writes + 1 }
    match s.nextOutcome with
    | .openFailed => s'
    | .writeFailed => { s' with files := s.files.insert (logFilename topic) (s.file (logFilename topic)) }
    | .stored => { s' with files := s.files.insert (logFilename topic) (s.file (logFilename topic) ++ [e]) }

/-- The file `LoadMessages` reads: the topic's own, or its legacy name. -/
def source (s : LogStore) (topic : GoString) : List LogEntry :=
  ((s.files.lookup (logFilename topic)).or (s.files.lookup (legacyFilename topic))).getD []

/-- The live messages of a log. -/
def replay (es : List LogEntry) : List Message := KeyedLog.replay (es.map LogEntry.entry)

def loadMessages (s : LogStore) (topic : GoString) : Except GoString (List Message) :=
  match isSafePath topic with
  | some e => .error e
  | none => .ok (replay (s.source topic))

def recovered (s : LogStore) (topic : GoString) : List Message :=
  match s.loadMessages topic with
  | .error _ => []
  | .ok ms => ms

/-- Whether the next write to a topic's log stores its record. -/
def Writable (s : LogStore) (topic : GoString) : Prop := isSafePath topic = none ∧ s.nextOutcome = .stored

instance (s : LogStore) (topic : GoString) : Decidable (s.Writable topic) :=
  inferInstanceAs (Decidable (_ ∧ _))

variable {s : LogStore} {topic : GoString} {e : LogEntry}

theorem file_append (s : LogStore) (topic : GoString) (e : LogEntry) (filename : GoString) :
    (s.append topic e).file filename = if filename = logFilename topic ∧ s.Writable topic then s.file filename ++
      [e] else s.file filename := by
  unfold append Writable
  split
  next err h => simp [h]
  next h =>
    by_cases hf : filename = logFilename topic
    · subst hf
      split <;> simp_all [file]
    · split <;> simp [file, hf]

theorem file_append_of_writable (h : s.Writable topic) :
    (s.append topic e).file (logFilename topic) = s.file (logFilename topic) ++ [e] := by
  simp [file_append, h]

theorem file_append_or (s : LogStore) (topic : GoString) (e : LogEntry) (filename : GoString) :
    (s.append topic e).file filename = s.file filename ∨ (s.append topic e).file filename =
      s.file filename ++ [e] := by
  rw [file_append]
  split
  · exact .inr rfl
  · exact .inl rfl

theorem outcome_append (s : LogStore) (topic : GoString) (e : LogEntry) : (s.append topic e).outcome = s.outcome := by
  unfold append
  split
  · rfl
  · dsimp only
    split <;> rfl

theorem recovered_of_safe (h : isSafePath topic = none) : s.recovered topic = replay (s.source topic) := by
  simp [recovered, loadMessages, h]

theorem recovered_of_unsafe (h : isSafePath topic ≠ none) : s.recovered topic = [] := by
  unfold recovered loadMessages
  cases hs : isSafePath topic with
  | none => exact absurd hs h
  | some e => rfl

theorem id_of_final {es : List LogEntry} {k m} (h : final (es.map LogEntry.entry) k = some m) : m.id = k := by
  refine final_of_forall (P := fun k m => m.id = k) (fun k m hm => ?_) h
  obtain ⟨e, -, he⟩ := List.mem_map.mp hm
  cases e with
  | put m' => cases he; rfl
  | ack msgID => cases he

theorem mem_replay {es m} : m ∈ replay es ↔ KeyedLog.final (es.map LogEntry.entry) m.id = some m := by
  rw [replay, KeyedLog.mem_replay]
  constructor
  · rintro ⟨k, hk⟩
    rwa [id_of_final hk]
  · intro h
    exact ⟨m.id, h⟩

theorem mem_replay_iff {es id} : (∃ m ∈ replay es, m.id = id) ↔ KeyedLog.final (es.map LogEntry.entry) id ≠ none := by
  constructor
  · rintro ⟨m, hm, rfl⟩
    rw [mem_replay.mp hm]
    exact some_ne_none m
  · intro h
    obtain ⟨m, hm⟩ := ne_none_iff_exists'.mp h
    exact ⟨m, KeyedLog.mem_replay.mpr ⟨id, hm⟩, id_of_final hm⟩

end LogStore

/-! ## The records on the disk -/

/-- The record `AppendPut` or `AppendAck` hands to `writeRecord`. -/
def LogEntry.record (now : Time) : LogEntry → LogRecord
  | .put m => { type := .put, message := some m, messageID := [], timestamp := now, checksum := 0 }
  | .ack msgID => { type := .ack, message := none, messageID := msgID, timestamp := now, checksum := 0 }

/-- What the log needs of `encoding/json` for one record: if it can be
encoded at all, its encoding is one line that fits the scanner's buffer and
decodes to it. -/
def Codec.Carries (c : Codec) (e : LogEntry) (now : Time) : Prop :=
  ∀ b, c.marshal (resum c (e.record now)) = some b →
    c.unmarshal b = some (resum c (e.record now)) ∧ 10 ∉ b ∧ b.getLast? ≠ some 13 ∧ b.length < maxTokenSize

/-- A file holds these records: it has a line for each of them, and other
lines only where a scan skips them. -/
def Encodes (c : Codec) (es : List LogEntry) (content : List UInt8) : Prop :=
  ∃ lines : List (List UInt8), content = lines.flatMap (fun l => l ++ [10]) ∧
    (∀ l ∈ lines, 10 ∉ l ∧ l.getLast? ≠ some 13 ∧ l.length < maxTokenSize) ∧
    lines.filterMap (entryOf c fun _ m => m) = es.map LogEntry.entry

/-- A store stands for a disk: each file holds the records of its name, and
an open handle leads to the log of its topic. -/
structure Represents (c : Codec) (s : LogStore) (d : DiskStorage) : Prop where
  absent : ∀ {f}, s.files.lookup f = none → d.disk.read f = none
  present : ∀ {f es}, s.files.lookup f = some es → ∃ content, d.disk.read f = some content ∧ Encodes c es content
  handle : ∀ {topic i}, d.activeFiles topic = some i → d.disk.dir (logFilename topic) = some i

/-- Replies without torn writes: a write that fails has stored nothing. -/
def Whole (replies : List Reply) : Prop := ∀ r ∈ replies, r = .ok ∨ r = .err 0 ∨ r = .crash 0

section Write

variable {c : Codec} {s : LogStore} {d : DiskStorage} {topic : GoString} {e : LogEntry} {es : List LogEntry}
  {content : List UInt8}

theorem entryOf_record (h : c.unmarshal b = some (resum c (e.record now))) :
    entryOf c (fun _ m => m) b = some e.entry := by
  simp only [entryOf, h, validateRecord_resum, if_true]
  cases e <;> rfl

theorem Encodes.append (h : Encodes c es content) (hc : c.Carries e now)
    (hb : c.marshal (resum c (e.record now)) = some b) : Encodes c (es ++ [e]) (content ++ (b ++ [10])) := by
  obtain ⟨lines, rfl, hlines, hentries⟩ := h
  obtain ⟨hdecodes, hline, hcr, hfit⟩ := hc b hb
  refine ⟨lines ++ [b], by simp, fun l hl => ?_, ?_⟩
  · rcases mem_append.mp hl with hl | hl
    · exact hlines l hl
    · rw [mem_singleton.mp hl]
      exact ⟨hline, hcr, hfit⟩
  · rw [filterMap_append, hentries, map_append]
    simp [entryOf_record hdecodes]

theorem Encodes.nil (c : Codec) : Encodes c [] [] := ⟨[], rfl, by simp, rfl⟩

theorem Encodes.live (h : Encodes c es content) :
    (scanRecords c (fun _ m => m) (scan content).1).live = LogStore.replay es ∧ (scan content).2 = false := by
  obtain ⟨lines, rfl, hlines, hentries⟩ := h
  rw [scan_lines hlines, scanRecords_live, hentries]
  exact ⟨rfl, rfl⟩

/-- **`LoadMessages` reads what the store has.** -/
theorem Represents.loadMessages (h : Represents c s d) (topic : GoString) :
    TinyMQ.loadMessages c d.disk topic = (s.recovered topic, isSafePath topic) := by
  unfold TinyMQ.loadMessages LogStore.recovered LogStore.loadMessages
  cases hsafe : isSafePath topic with
  | some e => rfl
  | none =>
    have hread : ∀ f, (∃ es content, s.files.lookup f = some es ∧ d.disk.read f = some content ∧
      Encodes c es content) ∨
        s.files.lookup f = none ∧ d.disk.read f = none := by
      intro f
      cases hl : s.files.lookup f with
      | none => exact .inr ⟨rfl, h.absent hl⟩
      | some es =>
        obtain ⟨content, hc, hs⟩ := h.present hl
        exact .inl ⟨es, content, rfl, hc, hs⟩
    -- The log of the topic, else the one under its legacy name.
    rcases hread (logFilename topic) with ⟨es, content, hl, hd, hs⟩ | ⟨hl, hd⟩
    · obtain ⟨hlive, hfit⟩ := hs.live
      simp [LogStore.source, hl, hd, hlive, hfit]
    · rcases hread (legacyFilename topic) with ⟨es, content, hl', hd', hs⟩ | ⟨hl', hd'⟩
      · obtain ⟨hlive, hfit⟩ := hs.live
        simp [LogStore.source, hl, hd, hl', hd', hlive, hfit]
      · simp [LogStore.source, LogStore.replay, hl, hd, hl', hd']

/-- The last record about the ID of the message is a put of it. -/
def LastPut (es : List LogEntry) (m : Message) : Prop :=
  (es.map LogEntry.entry).reverse.find? (fun e => e.key = m.id) = some (.put m.id m)

/-- **What a replay returns**: the messages whose ID is live, with the content
of their last put; each once exactly when no live ID was put twice. -/
theorem replay_law_iff (hsafe : isSafePath topic = none) (hread : d.disk.read (logFilename topic) = some content)
    (h : Encodes c es content) :
    (loadMessages c d.disk topic).2 = none ∧ (∀ m, m ∈ (loadMessages c d.disk topic).1 ↔ LastPut es m) ∧
      ((∀ m, LastPut es m → ((loadMessages c d.disk topic).1.map Message.id).count m.id = 1) ↔
        ∀ m, LastPut es m → (putKeys (es.map LogEntry.entry)).count m.id = 1) := by
  obtain ⟨hlive, hfit⟩ := h.live
  have hload : loadMessages c d.disk topic = (LogStore.replay es, none) := by
    simp [loadMessages, hsafe, hread, hlive, hfit]
  have hlast : ∀ m, LastPut es m ↔ final (es.map LogEntry.entry) m.id = some m := fun m =>
    final_eq_some_iff.symm
  rw [hload]
  refine ⟨rfl, fun m => ?_, forall₂_congr fun m hm => ?_⟩
  · rw [hlast, LogStore.mem_replay]
  · rw [LogStore.replay, count_replay LogStore.id_of_final, if_neg (by simp [(hlast m).mp hm])]

def ackedMessage : Message := { sampleMessage with id := ascii "m2" }

/-- A message, one that is acked, and the ACK. -/
def replayEntries : List LogEntry := [.put sampleMessage, .put ackedMessage, .ack (ascii "m2")]

def replayLines : List GoString := [sampleText ++ ascii "\x7d",
  ascii "\x7b\"type\":\"PUT\",\"message\":\x7b\"id\":\"m2\"," ++ sampleText.drop 36 ++ ascii "\x7d",
  ascii "\x7b\"type\":\"ACK\",\"message_id\":\"m2\",\"timestamp\":\"2024-01-01T00:00:00Z\"\x7d"]

theorem replay_law_sample : LastPut replayEntries sampleMessage ∧ ¬ LastPut replayEntries ackedMessage ∧
    ∃ disk : Disk, disk.read (logFilename (ascii "orders")) = some (replayLines.flatMap (· ++ [10])) ∧
      ((loadMessages (tableCodec (replayLines.zip (replayEntries.map (·.record sampleMessage.timestamp)))) disk
        (ascii "orders")).1.map Message.id).count sampleMessage.id = 1 := by
  have hlast : LastPut replayEntries sampleMessage := rfl
  have hacked : ¬ LastPut replayEntries ackedMessage := nofun
  let disk : Disk := { sampleDisk.disk with data := fun _ => replayLines.flatMap (· ++ [10]) }
  have hread : disk.read (logFilename (ascii "orders")) = some (replayLines.flatMap (· ++ [10])) := by
    simp [disk, Disk.read, sampleDisk]
  have h : Encodes (tableCodec (replayLines.zip (replayEntries.map (·.record sampleMessage.timestamp)))) replayEntries
      (replayLines.flatMap (· ++ [10])) := ⟨replayLines, rfl, by decide +kernel, by decide +kernel⟩
  obtain ⟨-, -, honce⟩ := replay_law_iff (d := { sampleDisk with disk }) (show isSafePath (ascii "orders") = none by decide)
    hread h
  refine ⟨hlast, hacked, disk, hread, honce.mpr (fun m hm => ?_) sampleMessage hlast⟩
  have hmem := mem_of_find?_eq_some hm
  simp only [replayEntries, LogEntry.entry, map_cons, map_nil, reverse_cons, reverse_nil, nil_append, cons_append,
    mem_cons, Entry.put.injEq, reduceCtorEq, false_or, not_mem_nil, or_false] at hmem
  rcases hmem with ⟨-, rfl⟩ | ⟨-, rfl⟩
  · exact absurd hm hacked
  · decide

/-- An ID that was put again, as `Requeue` does, is returned once for each
put. -/
theorem replay_returns_twice : Encodes (tableCodec sampleTable) [.put sampleMessage, .put sampleMessage] sampleLog ∧
    sampleDisk.disk.read (logFilename (ascii "orders")) = some sampleLog ∧
    loadMessages (tableCodec sampleTable) sampleDisk.disk (ascii "orders") =
      ([sampleMessage, sampleMessage], none) := by
  refine ⟨⟨[ascii "garbage", sampleText ++ ascii "\x7d", sampleText ++ ascii "\x7d"], ?_, ?_, ?_⟩, ?_, ?_⟩ <;>
    decide +kernel

/-! ## Writing a record -/

/-- The next write has the given outcome. -/
def LogStore.appendAs (s : LogStore) (o : WriteOutcome) (topic : GoString) (e : LogEntry) : LogStore :=
  { s with outcome := fun _ => o }.append topic e

theorem Represents.of_lookup (h : Represents c s d) (hs : ∀ f, s'.files.lookup f = s.files.lookup f) :
    Represents c s' d where
  absent hl := h.absent (by rw [← hs]; exact hl)
  present hl := h.present (by rw [← hs]; exact hl)
  handle := h.handle

theorem Represents.replies (h : Represents c s d) (rs : List Reply) : Represents c s { d with replies := rs } :=
  ⟨h.absent, h.present, h.handle⟩

/-- The log of the topic is there, under an open handle. -/
structure Opened (c : Codec) (s : LogStore) (topic : GoString) (i : Nat) (d : DiskStorage) : Prop where
  represents : Represents c { s with files := s.files.insert (logFilename topic) (s.file (logFilename topic)) } d
  dir : d.disk.dir (logFilename topic) = some i

theorem Represents.opened (h : Represents c s d) (hi : d.activeFiles topic = some i) : Opened c s topic i d where
  dir := h.handle hi
  represents := by
    refine h.of_lookup fun f => ?_
    by_cases hf : f = logFilename topic
    · subst hf
      rw [lookup_insert, LogStore.file]
      cases hl : s.files.lookup (logFilename topic) with
      | some es => rfl
      | none =>
        have hread := h.absent hl
        simp [Disk.read, h.handle hi] at hread
    · rw [lookup_insert_ne hf]

theorem Disk.openAppend_spec (d : Disk) (name : GoString) :
    (d.openAppend name).2.dir name = some (d.openAppend name).1 ∧
      (d.openAppend name).2.read name = some ((d.read name).getD []) ∧
      ∀ f, f ≠ name → (d.openAppend name).2.dir f = d.dir f ∧ (d.openAppend name).2.read f = d.read f := by
  unfold Disk.openAppend
  split
  next i hi => exact ⟨hi, by simp [Disk.read, hi], fun f _ => ⟨rfl, rfl⟩⟩
  next hi =>
    refine ⟨by simp [Disk.create], by simp [Disk.read, Disk.create, hi], fun f hf => ?_⟩
    have hdir : (d.create name hi).dir f = d.dir f := by simp [Disk.create, hf]
    refine ⟨hdir, ?_⟩
    rw [Disk.read, Disk.read, hdir]
    cases hl : d.dir f with
    | none => rfl
    | some j =>
      have hne : j ≠ d.next := Nat.ne_of_lt (d.dir_lt hl)
      simp [Disk.create, hne]

theorem Represents.open (h : Represents c s d) (rs : List Reply) :
    Opened c s topic (d.disk.openAppend (logFilename topic)).1 { d with
        disk := (d.disk.openAppend (logFilename topic)).2
        activeFiles := update d.activeFiles topic (some (d.disk.openAppend (logFilename topic)).1)
        replies := rs } := by
  obtain ⟨hdir, hread, hother⟩ := d.disk.openAppend_spec (logFilename topic)
  refine ⟨⟨fun {f} hl => ?_, fun {f es} hl => ?_, fun {topic' i} hi => ?_⟩, hdir⟩
  · by_cases hf : f = logFilename topic
    · subst hf
      rw [lookup_insert] at hl
      cases hl
    · rw [lookup_insert_ne hf] at hl
      exact (hother f hf).2.trans (h.absent hl)
  · by_cases hf : f = logFilename topic
    · subst hf
      rw [lookup_insert] at hl
      cases hl
      refine ⟨_, hread, ?_⟩
      rw [LogStore.file]
      cases hl : s.files.lookup (logFilename topic) with
      | none =>
        rw [h.absent hl]
        exact .nil c
      | some es =>
        obtain ⟨content, hc, hs⟩ := h.present hl
        rw [hc]
        exact hs
    · rw [lookup_insert_ne hf] at hl
      obtain ⟨content, hc, hs⟩ := h.present hl
      exact ⟨content, (hother f hf).2.trans hc, hs⟩
  · dsimp only at hi ⊢
    by_cases ht : topic' = topic
    · subst ht
      rw [update_self] at hi
      rw [hdir]
      exact hi
    · rw [update_of_ne ht] at hi
      have hold := h.handle hi
      by_cases hf : logFilename topic' = logFilename topic
      · -- Another topic with the same file.
        rw [hf] at hold ⊢
        rw [hdir]
        unfold Disk.openAppend
        split
        next j hj => rw [← hj, hold]
        next hnone => cases hold.symm.trans hnone
      · exact (hother _ hf).1.trans hold

theorem Opened.append (h : Opened c s topic i d)
    (hs : ∀ content, Encodes c (s.file (logFilename topic)) content → Encodes c es' (content ++ bs)) :
    Represents c { s with files := s.files.insert (logFilename topic) es' }
      { d with disk := d.disk.append i bs, replies := rs } := by
  have hread : ∀ f, f ≠ logFilename topic → (d.disk.append i bs).read f = d.disk.read f := by
    intro f hf
    simp only [Disk.read, Disk.append]
    cases hl : d.disk.dir f with
    | none => rfl
    | some j =>
      have hne : j ≠ i := fun hji => hf (d.disk.dir_inj hl (hji ▸ h.dir))
      simp [hne]
  refine ⟨fun {f} hl => ?_, fun {f es} hl => ?_, h.represents.handle⟩
  · by_cases hf : f = logFilename topic
    · rw [hf, lookup_insert] at hl
      cases hl
    · rw [lookup_insert_ne hf] at hl
      exact (hread f hf).trans (h.represents.absent (by rw [lookup_insert_ne hf]; exact hl))
  · by_cases hf : f = logFilename topic
    · subst hf
      rw [lookup_insert] at hl
      cases hl
      obtain ⟨content, hc, hold⟩ := h.represents.present (lookup_insert s.files)
      refine ⟨content ++ bs, ?_, hs content hold⟩
      simp only [Disk.read, h.dir, map_some, some.injEq] at hc
      simp [Disk.read, Disk.append, h.dir, hc]
    · rw [lookup_insert_ne hf] at hl
      obtain ⟨content, hc, hold⟩ := h.represents.present (f := f)
        (by rw [lookup_insert_ne hf]; exact hl)
      exact ⟨content, (hread f hf).trans hc, hold⟩

theorem syscall_whole {run : Disk → α × Disk} {fail : Nat → Disk → α × Disk} {cut : Nat → Disk → Disk}
    {P C : DiskStorage → Prop} {Q : α → DiskStorage → Prop}
    (hrun : ∀ d rs, P d → Q (run d.disk).1 { d with disk := (run d.disk).2, replies := rs })
    (hfail : ∀ d rs, P d → Q (fail 0 d.disk).1 { d with disk := (fail 0 d.disk).2, replies := rs })
    (hcut : ∀ d rs, P d → C { d with disk := cut 0 d.disk, replies := rs }) :
    Proc.Spec (fun d => P d ∧ Whole d.replies) (syscall run fail cut) (fun a d => Q a d ∧ Whole d.replies)
      (fun d => C d) := by
  rintro d ⟨hP, hw⟩
  simp only [syscall]
  cases hr : d.replies with
  | nil => exact ⟨hrun d [] hP, by simp [Whole]⟩
  | cons r rs =>
    rw [hr] at hw
    have hrs : Whole rs := fun r hr => hw r (mem_cons_of_mem _ hr)
    rcases hw r mem_cons_self with rfl | rfl | rfl
    · exact ⟨hrun d rs hP, hrs⟩
    · exact ⟨hfail d rs hP, hrs⟩
    · exact hcut d rs hP

theorem osSync_whole (c : Codec) (s : LogStore) : Proc.Spec (fun d => Represents c s d ∧ Whole d.replies) osSync
    (fun _ d => Represents c s d ∧ Whole d.replies) (fun d => Represents c s d) := by
  unfold osSync simpleCall
  exact syscall_whole (fun _ rs h => h.replies rs) (fun _ rs h => h.replies rs) (fun _ rs h => h.replies rs)

/-- After `writeRecord`, returned or crashed: the store has made the write,
with one of its outcomes. -/
def Appended (c : Codec) (s : LogStore) (topic : GoString) (e : LogEntry) (d : DiskStorage) : Prop :=
  ∃ o, Represents c (s.appendAs o topic e) d

theorem Represents.appended (h : Represents c s d) : Appended c s topic e d := by
  refine ⟨.openFailed, h.of_lookup fun f => ?_⟩
  unfold LogStore.appendAs LogStore.append
  split <;> rfl

theorem Opened.appended (hsafe : isSafePath topic = none) (h : Opened c s topic i d) : Appended c s topic e d := by
  refine ⟨.writeFailed, h.represents.of_lookup fun f => ?_⟩
  simp [LogStore.appendAs, LogStore.append, LogStore.nextOutcome, hsafe, LogStore.file]

theorem getOrOpenFile_spec (c : Codec) (s : LogStore) (topic : GoString) :
    Proc.Spec (fun d => Represents c s d ∧ Whole d.replies) (getOrOpenFile topic) (fun r d => match r with
        | .error _ => Represents c s d ∧ Whole d.replies
        | .ok i => Opened c s topic i d ∧ Whole d.replies)
      (fun d => Represents c s d) := by
  refine Proc.Spec.bind (R := fun cached d => (Represents c s d ∧ d.activeFiles topic = cached) ∧
    Whole d.replies)
    (fun d h => ⟨⟨h.1, rfl⟩, h.2⟩) fun cached => ?_
  cases cached with
  | some i => exact Proc.Spec.pure fun d h => ⟨h.1.1.opened h.1.2, h.2⟩
  | none =>
    refine Proc.Spec.bind (syscall_whole
      (Q := fun r d => match r with
        | .error _ => Represents c s d
        | .ok i =>
          ∀ af, af = update d.activeFiles topic (some i) →
            Opened c s topic i { d with activeFiles := af })
      (fun d rs h af haf => haf ▸ h.1.open rs) (fun d rs h => h.1.replies rs)
        (fun d rs h => h.1.replies rs)) fun r => ?_
    cases r with
    | error e => exact Proc.Spec.pure fun d h => h
    | ok i => exact fun d h => ⟨h.1 _ rfl, h.2⟩

/-- **Writing a record refines the store's append**: without torn writes,
`writeRecord` leaves a disk the store stands for after one of its outcomes,
also when the process dies on the way; it reports no error only for a
stored record. -/
theorem writeRecord_spec (hc : c.Carries e now) :
    Proc.Spec (fun d => Represents c s d ∧ Whole d.replies) (writeRecord c topic (e.record now))
      (fun r d => (Appended c s topic e d ∧
        (r = none → Represents c (s.appendAs .stored topic e) d)) ∧ Whole d.replies)
      (fun d => Appended c s topic e d) := by
  unfold writeRecord
  split
  next err hsafe => exact Proc.Spec.pure fun d h => ⟨⟨h.1.appended, by simp⟩, h.2⟩
  next hsafe =>
    refine ((getOrOpenFile_spec c s topic).crash fun _ => Represents.appended).bind fun r => ?_
    cases r with
    | error err => exact Proc.Spec.pure fun d h => ⟨⟨h.1.appended, by simp⟩, h.2⟩
    | ok i =>
      dsimp only
      split
      next => exact Proc.Spec.pure fun d h => ⟨⟨h.1.appended hsafe, by simp⟩, h.2⟩
      next b hb =>
        have hstored : ∀ {d : DiskStorage} (rs : List Reply), Opened c s topic i d →
            Represents c (s.appendAs .stored topic e)
              { d with disk := d.disk.append i (b ++ [10]), replies := rs } := by
          intro d rs h
          refine (h.append fun content hold => hold.append hc hb).of_lookup fun f => ?_
          simp [LogStore.appendAs, LogStore.append, LogStore.nextOutcome, hsafe, LogStore.file]
        have hnothing : ∀ {d : DiskStorage} (rs : List Reply), Opened c s topic i d →
            Appended c s topic e { d with disk := d.disk.append i ((b ++ [10]).take 0), replies := rs } := by
          intro d rs h
          refine Opened.appended (i := i) hsafe ⟨h.append fun content hold => ?_, h.dir⟩
          rw [take_zero, append_nil]
          exact hold
        refine Proc.Spec.bind (syscall_whole
          (Q := fun r d => Appended c s topic e d ∧ (r = none → Represents c (s.appendAs .stored topic e) d))
          (fun d rs h => ⟨⟨_, hstored rs h⟩, fun _ => hstored rs h⟩)
          (fun d rs h => ⟨hnothing rs h, by simp⟩) (fun d rs h => hnothing rs h)) fun r => ?_
        cases r with
        | some err => exact Proc.Spec.pure fun d h => h
        | none =>
          refine Proc.Spec.bind (R := fun _ d => Represents c (s.appendAs .stored topic e) d ∧
            Whole d.replies)
            (fun d h => ⟨h.1.2 rfl, h.2⟩) fun syncWrites => ?_
          split
          · exact (osSync_whole c _).weaken (fun d h => h) (fun r d h => ⟨⟨⟨_, h.1⟩, fun _ => h.1⟩, h.2⟩)
              (fun d h => ⟨_, h⟩)
          · exact Proc.Spec.pure fun d h => ⟨⟨⟨_, h.1⟩, fun _ => h.1⟩, h.2⟩

end Write

/-! ## A run of writes -/

/-- A call of `AppendPut` or `AppendAck`. -/
structure LogCall where
  topic : GoString
  entry : LogEntry
  now : Time

/-- Calls one after the other; the callers go on after an error. -/
def writeRecords (c : Codec) : List LogCall → Proc DiskStorage Unit
  | [] => pure ()
  | w :: ws => do
    let _ ← writeRecord c w.topic (w.entry.record w.now)
    writeRecords c ws

def LogStore.appendAll (s : LogStore) (ws : List LogCall) : LogStore := ws.foldl (fun s w => s.append w.topic w.entry) s

section Run

variable {c : Codec} {s : LogStore} {ws : List LogCall}

/-- The store after writes with these outcomes. -/
def LogStore.appendEach (s : LogStore) (ws : List (LogCall × WriteOutcome)) : LogStore :=
  ws.foldl (fun s w => s.appendAs w.2 w.1.topic w.1.entry) s

/-- What the calls return, one after the other, until the process dies. -/
def writeResults (c : Codec) : List LogCall → DiskStorage → List (Option GoString) × DiskStorage
  | [], d => ([], d)
  | w :: ws, d =>
    match writeRecord c w.topic (w.entry.record w.now) d with
    | (some r, d) => (r :: (writeResults c ws d).1, (writeResults c ws d).2)
    | (none, d) => ([], d)

/-- What the calls that were made have come to: each that returned, and the
one in which the process died; those that returned no error are stored. -/
structure Outcomes (ws : List LogCall) (results : List (Option GoString))
    (done : List (LogCall × WriteOutcome)) : Prop where
  calls : done.map Prod.fst <+: ws
  returned : results.length ≤ done.length
  died : done.length ≤ results.length + 1
  stored : ∀ x ∈ done.zip results, x.2 = none → x.1.2 = .stored

/-- **A run of writes refines the store**: for every script of system calls
without torn writes the store goes through the same writes, up to the crash
if there is one. -/
theorem writeResults_spec (hc : ∀ w ∈ ws, c.Carries w.entry w.now) (h : Represents c s d) (hwhole : Whole d.replies) :
    ∃ done, Outcomes ws (writeResults c ws d).1 done ∧ Represents c (s.appendEach done) (writeResults c ws d).2 := by
  induction ws generalizing s d with
  | nil => exact ⟨[], ⟨prefix_rfl, Nat.le_refl _, by simp, by simp⟩, h⟩
  | cons w ws ih =>
    have hone := @writeRecord_spec c s w.topic w.entry w.now (hc w mem_cons_self) d ⟨h, hwhole⟩
    rw [writeResults]
    rcases hrun : writeRecord c w.topic (w.entry.record w.now) d with ⟨_ | r, d₁⟩ <;> rw [hrun] at hone
    · obtain ⟨o, h₁⟩ := hone
      exact ⟨[(w, o)], ⟨by simp, by simp, by simp, by simp⟩, h₁⟩
    · obtain ⟨⟨⟨o, h₁⟩, hstored⟩, hwhole₁⟩ := hone
      -- A call that returned no error has stored its record.
      obtain ⟨o, h₁, ho⟩ : ∃ o, Represents c (s.appendAs o w.topic w.entry) d₁ ∧ (r = none → o = .stored) := by
        by_cases hr : r = none
        · exact ⟨.stored, hstored hr, fun _ => rfl⟩
        · exact ⟨o, h₁, fun h => absurd h hr⟩
      obtain ⟨done, hdone, h'⟩ := ih (fun w' hw' => hc w' (mem_cons_of_mem _ hw')) h₁ hwhole₁
      refine ⟨(w, o) :: done, ⟨?_, ?_, ?_, ?_⟩, h'⟩
      · exact cons_prefix_cons.mpr ⟨rfl, hdone.calls⟩
      · simpa using hdone.returned
      · simpa using hdone.died
      · rw [zip_cons_cons, forall_mem_cons]
        exact ⟨ho, hdone.stored⟩

end Run

end TinyMQ
