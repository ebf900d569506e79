/-
The lines of a log, byte by byte: what `writeRecord` adds to a file, and
what becomes of it when the file is read.

A record is one line. It is read again when its text decodes to a record
with the right checksum (`written_record_validates_iff`), when it fits the
buffer of the scanner (`appended_logs_readable`), and when it starts on a
line of its own, which a torn write before it prevents
(`torn_writes_harmless`).
-/
import TinyMQ.Machine
import TinyMQ.Records

namespace TinyMQ

open List Option Function Text Proc DiskStorage
open JsonText

/-! ## A write to the log of a topic -/

namespace Disk

variable {d : Disk} {name f : GoString} {i : Nat}

theorem read_append_of_ne (hi : d.dir name = some i) (hf : f ≠ name) (bs : List UInt8) :
    (d.append i bs).read f = d.read f := by
  simp only [read, append]
  cases hl : d.dir f with
  | none => rfl
  | some j =>
    have hne : j ≠ i := fun hj => hf (d.dir_inj hl (hj ▸ hi))
    simp [hne]

theorem openTrunc_of_ne (hf : f ≠ name) :
    (d.openTrunc name).2.dir f = d.dir f ∧ (d.openTrunc name).2.read f = d.read f := by
  unfold openTrunc
  split
  next j hj =>
    refine ⟨rfl, ?_⟩
    simp only [read]
    cases hl : d.dir f with
    | none => rfl
    | some k =>
      have hne : k ≠ j := fun hkj => hf (d.dir_inj hl (hkj ▸ hj))
      simp [hne]
  next hj =>
    have hdir : (d.create name hj).dir f = d.dir f := by simp [create, hf]
    refine ⟨hdir, ?_⟩
    simp only [read, hdir]
    cases hl : d.dir f with
    | none => rfl
    | some k =>
      have hne : k ≠ d.next := Nat.ne_of_lt (d.dir_lt hl)
      simp [create, hne]

theorem read_rename_of_ne {new} (hold : f ≠ name) (hnew : f ≠ new) : (d.rename name new).read f = d.read f := by
  simp [read, rename, hold, hnew]

end Disk

namespace DiskStorage

variable {d d' : DiskStorage} {topic : GoString} {bs : List UInt8} {rs : List Reply}

/-- The inode `getOrOpenFile` returns, and the disk with the log open. -/
def handle (d : DiskStorage) (topic : GoString) : Nat × Disk :=
  match d.activeFiles topic with
  | some i => (i, d.disk)
  | none => d.disk.openAppend (logFilename topic)

/-- The log of the topic is open and has got some bytes more. -/
def write (d : DiskStorage) (topic : GoString) (bs : List UInt8) (rs : List Reply) : DiskStorage :=
  { d with
    disk := (d.handle topic).2.append (d.handle topic).1 bs
    activeFiles := update d.activeFiles topic (some (d.handle topic).1)
    replies := rs }

/-- An open handle leads to the log of its topic. -/
def HandleOk (d : DiskStorage) (topic : GoString) : Prop :=
  ∀ i, d.activeFiles topic = some i → d.disk.dir (logFilename topic) = some i

theorem handle_spec (h : d.HandleOk topic) : (d.handle topic).2.dir (logFilename topic) = some (d.handle topic).1 ∧
      (d.handle topic).2.read (logFilename topic) = some ((d.disk.read (logFilename topic)).getD []) ∧
      ∀ f, f ≠ logFilename topic → (d.handle topic).2.dir f = d.disk.dir f ∧
        (d.handle topic).2.read f = d.disk.read f := by
  unfold handle
  split
  next i hi => exact ⟨h i hi, by simp [Disk.read, h i hi], fun f _ => ⟨rfl, rfl⟩⟩
  next => exact d.disk.openAppend_spec (logFilename topic)

theorem dir_handle (h : d.HandleOk topic) (hi : d.disk.dir f = some i) : (d.handle topic).2.dir f = some i := by
  by_cases hf : f = logFilename topic
  · subst hf
    unfold handle
    split
    next => exact hi
    next =>
      unfold Disk.openAppend
      split
      next => exact hi
      next hnone =>
        cases hi.symm.trans hnone
  · rw [((handle_spec h).2.2 f hf).1, hi]

/-- The bytes stand at the end of the topic's log; the other files are as they were. -/
theorem read_write (h : d.HandleOk topic) (f : GoString) : (d.write topic bs rs).disk.read f =
      if f = logFilename topic then some ((d.disk.read f).getD [] ++ bs) else d.disk.read f := by
  obtain ⟨hdir, hread, hother⟩ := handle_spec h
  split
  next hf =>
    subst hf
    simp only [Disk.read, hdir, map_some, some.injEq] at hread
    simp only [write, Disk.read, Disk.append, hdir, map_some, update_self, hread]
  next hf =>
    rw [← (hother f hf).2]
    exact Disk.read_append_of_ne hdir hf bs

theorem handleOk_write (h : d.HandleOk topic) (ht : d.HandleOk t) : (d.write topic bs rs).HandleOk t := by
  intro i hi
  by_cases htopic : t = topic
  · subst htopic
    simp only [write, update_self, some.injEq] at hi
    exact hi ▸ (handle_spec h).1
  · simp only [write, update_of_ne htopic] at hi
    exact dir_handle h (ht i hi)

end DiskStorage

section Calls

variable {c : Codec} {d d' : DiskStorage} {topic : GoString} {rec : LogRecord} {b : List UInt8}

theorem syscall_returned {run : Disk → α × Disk} {fail : Nat → Disk → α × Disk} {cut : Nat → Disk → Disk}
    (h : syscall run fail cut d = (some a, d')) :
    ∃ rs, (run d.disk).1 = a ∧ d' = { d with disk := (run d.disk).2, replies := rs } ∨
      ∃ n, (fail n d.disk).1 = a ∧ d' = { d with disk := (fail n d.disk).2, replies := rs } := by
  unfold syscall at h
  split at h
  next hr =>
    cases h
    exact ⟨[], .inl ⟨rfl, by rw [← hr]⟩⟩
  next rs hr =>
    cases h
    exact ⟨rs, .inl ⟨rfl, rfl⟩⟩
  next n rs hr =>
    cases h
    exact ⟨rs, .inr ⟨n, rfl, rfl⟩⟩
  next => cases h

theorem bind_returned {f : α → Proc DiskStorage β}
    (h : (x >>= f) d = (some y, d')) : ∃ a d₁, x d = (some a, d₁) ∧ f a d₁ = (some y, d') := by
  rw [Proc.bind_apply] at h
  rcases hx : x d with ⟨_ | a, d₁⟩
  · rw [hx] at h
    cases h
  · rw [hx] at h
    exact ⟨a, d₁, rfl, h⟩

theorem getOrOpenFile_returned (h : getOrOpenFile topic d = (some (.ok i), d')) :
    ∃ rs, i = (d.handle topic).1 ∧ d' = { d with
      disk := (d.handle topic).2, activeFiles := update d.activeFiles topic (some i), replies := rs } := by
  obtain ⟨cached, d₁, hcached, h⟩ := bind_returned h
  cases hcached
  unfold handle
  cases hactive : d.activeFiles topic with
  | some j =>
    simp only [hactive, Proc.pure_apply, Prod.mk.injEq, some.injEq, Except.ok.injEq] at h
    obtain ⟨rfl, rfl⟩ := h
    exact ⟨d.replies, rfl, by simp [← hactive]⟩
  | none =>
    simp only [hactive] at h
    obtain ⟨r, d₂, hopen, h⟩ := bind_returned h
    obtain ⟨rs, ⟨rfl, rfl⟩ | ⟨n, rfl, rfl⟩⟩ := syscall_returned hopen
    · cases h
      exact ⟨rs, rfl, rfl⟩
    · cases h

/-- **What a successful write has done**: the text of the record, with its
checksum, is a line more in the log. -/
theorem writeRecord_returned (h : writeRecord c topic rec d = (some none, d')) :
    isSafePath topic = none ∧ ∃ b rs, c.marshal (resum c rec) = some b ∧ d' = d.write topic (b ++ [10]) rs := by
  cases hsafe : isSafePath topic with
  | some e =>
    simp only [writeRecord, hsafe] at h
    cases h
  | none =>
    simp only [writeRecord, hsafe] at h
    obtain ⟨r, d₁, hopen, h⟩ := bind_returned h
    cases r with
    | error e => cases h
    | ok i =>
      obtain ⟨rs, rfl, rfl⟩ := getOrOpenFile_returned hopen
      have hsum : { rec with checksum := checksumFor c rec } = resum c rec := rfl
      rw [hsum] at h
      cases hb : c.marshal (resum c rec) with
      | none =>
        simp only [hb] at h
        cases h
      | some b =>
        simp only [hb] at h
        obtain ⟨r, d₂, hwrite, h⟩ := bind_returned h
        obtain ⟨rs, ⟨rfl, rfl⟩ | ⟨n, rfl, rfl⟩⟩ := syscall_returned hwrite
        · obtain ⟨sync, d₃, hsync, h⟩ := bind_returned h
          cases hsync
          refine ⟨rfl, b, ?_⟩
          cases hs : d.syncWrites with
          | true =>
            simp only [hs, if_true, osSync, simpleCall] at h
            obtain ⟨rs, ⟨-, rfl⟩ | ⟨n, hfail, -⟩⟩ := syscall_returned h
            · exact ⟨rs, rfl, by simp [write, hs]⟩
            · cases hfail
          | false =>
            simp only [hs] at h
            cases h
            exact ⟨rs, rfl, by simp [write, hs]⟩
        · cases h

end Calls

/-! ## Checksums -/

/-- **Which records survive their own checksum**: the line that was written
decodes to a record `validateRecord` accepts, and the loop of `LoadMessages`
does not drop it, if the texts of the record are UTF-8. The others are
written again with fewer bytes; only a collision saves them. -/
theorem written_record_validates_iff {tt : TimeText} {d d' : DiskStorage} {topic : GoString} {rec : LogRecord}
    (h : writeRecord (jsonCodec tt) topic rec d = (some none, d')) :
    ∃ i before b rec', d'.activeFiles topic = some i ∧ d'.disk.data i = before ++ (b ++ [10]) ∧ 10 ∉ b ∧
      (jsonCodec tt).unmarshal b = some rec' ∧
      (validateRecord (jsonCodec tt) rec' = true ↔ rec.validTexts = true ∨ rec.Collides tt) ∧
      ∀ (pick : LogRecord → Message → Message) (st : Scan Message),
        (st.line (jsonCodec tt) pick b).corruptedCount = st.corruptedCount ↔
          rec.validTexts = true ∨ rec.Collides tt := by
  obtain ⟨-, b, rs, hb, rfl⟩ := writeRecord_returned h
  have hdecode := unmarshal_marshal hb
  obtain ⟨_, hunsummed⟩ := marshal_sum hb 0
  have hvalid : validateRecord (jsonCodec tt) (resum (jsonCodec tt) rec).repaired = true ↔
    rec.validTexts = true ∨ rec.Collides tt :=
    validateRecord_written hunsummed
  refine ⟨(d.handle topic).1, (d.handle topic).2.data (d.handle topic).1, b, _, update_self _ _ _,
    update_self _ _ _, ((jsonCodec_lawful tt).oneLine _ _ hb).1, hdecode, hvalid, fun pick st => ?_⟩
  rw [← hvalid]
  simp only [Scan.line, hdecode]
  split
  next haccepted =>
    refine ⟨fun _ => haccepted, fun _ => ?_⟩
    split
    · split <;> rfl
    · rfl
    · rfl
  next hrejected => simp [hrejected]

def DiskStorage.fresh : DiskStorage where
  disk := { dir := fun _ => none, data := fun _ => [], next := 0, dir_lt := nofun, dir_inj := nofun }
  activeFiles := fun _ => none
  syncWrites := false
  replies := []

theorem DiskStorage.handleOk_fresh (topic : GoString) : fresh.HandleOk topic := nofun

def taggedMessage : Message := { sampleMessage with timestamp := 0, headers := [(ascii "X-Mq-A", ascii "a")] }

theorem written_record_validates_sample : ∃ d' b rec',
    writeRecord (jsonCodec unixText) (ascii "orders") ((LogEntry.put taggedMessage).record 0) .fresh = (some none, d') ∧
      (jsonCodec unixText).unmarshal b = some rec' ∧ validateRecord (jsonCodec unixText) rec' = true := by
  have hok : (writeRecord (jsonCodec unixText) (ascii "orders") ((LogEntry.put taggedMessage).record 0) .fresh).1 =
    some none := by
    decide +kernel
  obtain ⟨-, -, b, rec', -, -, -, hdecode, hvalid, -⟩ := written_record_validates_iff (Prod.ext hok rfl)
  exact ⟨_, b, rec', Prod.ext hok rfl, hdecode, hvalid.mpr (.inl (by decide +kernel))⟩

/-- A message as `POST /publish/orders` makes it with a byte outside of
UTF-8 in the header `X-Mq-A`. -/
def garbledMessage : Message := { sampleMessage with timestamp := 0, headers := [(ascii "X-Mq-A", [0xFF])] }

/-- Its record with this text for the value of the header. -/
def garbledText (value : GoString) : GoString :=
  ascii "\x7b\"type\":\"PUT\",\"message\":\x7b\"id\":\"m1\",\"topic\":\"orders\"," ++
    (ascii "\"payload\":\"aGk=\",\"timestamp\":\"0\",\"retry_count\":0," ++
      (ascii "\"headers\":\x7b\"X-Mq-A\":\"" ++ value ++ ascii "\"\x7d\x7d,\"timestamp\":\"0\"\x7d"))

theorem crc32_garbledText (value : GoString) : crc32 (garbledText value) =
    (ascii "\"headers\":\x7b\"X-Mq-A\":\"" ++ value ++ ascii "\"\x7d\x7d,\"timestamp\":\"0\"\x7d").foldl
      crc32Byte 3772612805 ^^^ 0xFFFFFFFF := by
  have h₁ :
    (ascii "\x7b\"type\":\"PUT\",\"message\":\x7b\"id\":\"m1\",\"topic\":\"orders\",").foldl crc32Byte 0xFFFFFFFF =
      2874918648 := by decide +kernel
  have h₂ :
    (ascii "\"payload\":\"aGk=\",\"timestamp\":\"0\",\"retry_count\":0,").foldl crc32Byte 2874918648 = 3772612805 := by
    decide +kernel
  rw [crc32, garbledText, foldl_append, h₁, foldl_append, h₂]

/-- The checksum is that of the escape, and the record that is read has the
sum of the character. -/
theorem checksumFor_garbled : checksumFor (jsonCodec unixText) ((LogEntry.put garbledMessage).record 0) = 4149674622 ∧
      checksumFor (jsonCodec unixText) ((LogEntry.put garbledMessage).record 0).repaired = 1132360893 := by
  have h₁ : (jsonCodec unixText).marshal { (LogEntry.put garbledMessage).record 0 with checksum := 0 } =
      some (garbledText (ascii "\\ufffd")) := by decide +kernel
  have h₂ : (jsonCodec unixText).marshal { ((LogEntry.put garbledMessage).record 0).repaired with checksum := 0 } =
      some (garbledText Utf8.replacement) := by decide +kernel
  rw [checksumFor, checksumFor, h₁, h₂]
  simp only [crc32_garbledText]
  exact ⟨by decide +kernel, by decide +kernel⟩

theorem appendPut_returned (h : (appendPut c topic m now d).1 = some none) :
    writeRecord c topic ((LogEntry.put m).record now) d = (some none, (appendPut c topic m now d).2) := Prod.ext h rfl

theorem scan_line (hline : 10 ∉ b) (hcr : b.getLast? ≠ some 13) (hlen : b.length < maxTokenSize) :
    scan (b ++ [10]) = ([b], false) := by
  rw [scan, lines_terminated hline]
  exact scanTokens_of_short (by simp [lines, hlen, hcr])

theorem load_line (hsafe : isSafePath topic = none)
    (hread : d.read (logFilename topic) = some (b ++ [10])) (hline : 10 ∉ b) (hcr : b.getLast? ≠ some 13)
    (hlen : b.length < maxTokenSize) :
    loadMessages c d topic = (((Scan.empty.line c fun _ m => m) b).live, none) := by
  simp [loadMessages, hsafe, hread, scan_line hline hcr hlen, scanRecords]

theorem DiskStorage.read_write_fresh (topic : GoString) (bs : List UInt8) (rs : List Reply) :
    (fresh.write topic bs rs).disk.read (logFilename topic) = some bs := by
  rw [read_write (handleOk_fresh _), if_pos rfl]
  rfl

theorem load_dropped {tt topic rec d'}
    (h : writeRecord (jsonCodec tt) topic rec .fresh = (some none, d')) (hsize : rec.textSize < maxTokenSize)
    (hvalid : validateRecord (jsonCodec tt) (resum (jsonCodec tt) rec).repaired = false) :
    loadMessages (jsonCodec tt) d'.disk topic = ([], none) := by
  obtain ⟨hsafe, b, rs, hb, rfl⟩ := writeRecord_returned h
  obtain ⟨hline, hcr⟩ := (jsonCodec_lawful tt).oneLine _ _ hb
  rw [load_line hsafe (read_write_fresh _ _ _) hline hcr ((length_marshal_le hb).trans_lt hsize)]
  simp [Scan.line, unmarshal_marshal hb, hvalid, Scan.live, Scan.empty]

theorem appendPut_garbled :
    (appendPut (jsonCodec unixText) (ascii "orders") garbledMessage 0 .fresh).1 = some none := by
  decide +kernel

theorem validateRecord_garbled :
    validateRecord (jsonCodec unixText) (resum (jsonCodec unixText) ((LogEntry.put garbledMessage).record 0)).repaired =
      false := by
  rw [Bool.eq_false_iff, ne_eq, validateRecord_repaired, checksumFor_garbled.1, checksumFor_garbled.2]
  decide

theorem load_garbled : loadMessages (jsonCodec unixText)
    (appendPut (jsonCodec unixText) (ascii "orders") garbledMessage 0 .fresh).2.disk (ascii "orders") = ([], none) :=
  load_dropped (appendPut_returned appendPut_garbled) (by decide) validateRecord_garbled

/-- **A record that was written is dropped**: `AppendPut` returns no error,
and `LoadMessages` finds a wrong checksum. -/
theorem garbled_record_dropped :
    (appendPut (jsonCodec unixText) (ascii "orders") garbledMessage 0 .fresh).1 = some none ∧
      validateRecord (jsonCodec unixText)
        (resum (jsonCodec unixText) ((LogEntry.put garbledMessage).record 0)).repaired = false ∧
      loadMessages (jsonCodec unixText) (appendPut (jsonCodec unixText) (ascii "orders") garbledMessage 0 .fresh).2.disk
        (ascii "orders") = ([], none) :=
  ⟨appendPut_garbled, validateRecord_garbled, load_garbled⟩

/-! ## Calls without failures -/

section Quiet

variable {c : Codec} {d : DiskStorage} {topic : GoString} {rec : LogRecord} {b : List UInt8}

theorem syscall_quiet {run : Disk → α × Disk} {fail : Nat → Disk → α × Disk} {cut : Nat → Disk → Disk}
    (hr : d.replies = []) : syscall run fail cut d = (some (run d.disk).1, { d with disk := (run d.disk).2 }) := by
  simp only [syscall, hr]

theorem simpleCall_quiet {run : Disk → Option GoString × Disk} (hr : d.replies = []) :
    simpleCall run d = (some (run d.disk).1, { d with disk := (run d.disk).2 }) := syscall_quiet hr

theorem getOrOpenFile_quiet (hr : d.replies = []) : getOrOpenFile topic d = (some (.ok (d.handle topic).1), { d with
    disk := (d.handle topic).2, activeFiles := update d.activeFiles topic (some (d.handle topic).1) }) := by
  unfold handle
  refine (Proc.bind_eq rfl).trans ?_
  cases hactive : d.activeFiles topic with
  | some i =>
    have hsame : update d.activeFiles topic (some i) = d.activeFiles := by rw [← hactive, update_eq_self]
    simp only [Proc.pure_apply, hsame]
  | none => exact (Proc.bind_eq (syscall_quiet hr)).trans rfl

theorem writeRecord_quiet (hsafe : isSafePath topic = none) (hb : c.marshal (resum c rec) = some b)
    (hr : d.replies = []) : writeRecord c topic rec d = (some none, d.write topic (b ++ [10]) []) := by
  have hsum : c.marshal { rec with checksum := checksumFor c rec } = some b := hb
  simp only [writeRecord, hsafe]
  refine (bind_eq (getOrOpenFile_quiet hr)).trans ?_
  simp only [hsum]
  refine (bind_eq (syscall_quiet (by exact hr))).trans ?_
  refine (bind_eq rfl).trans ?_
  cases hs : d.syncWrites with
  | true =>
    rw [if_pos rfl]
    exact (simpleCall_quiet (by exact hr)).trans (by simp [write, hs, hr])
  | false => simp [write, hs, hr]

theorem writeRecord_unencodable (hsafe : isSafePath topic = none) (hb : c.marshal (resum c rec) = none)
    (hr : d.replies = []) : ∃ e, writeRecord c topic rec d = (some (some e), d.write topic [] []) := by
  have hsum : c.marshal { rec with checksum := checksumFor c rec } = none := hb
  refine ⟨ascii "json: unsupported value", ?_⟩
  simp only [writeRecord, hsafe]
  refine (bind_eq (getOrOpenFile_quiet hr)).trans ?_
  simp [hsum, write, Disk.append, hr]

theorem Disk.append_append (d : Disk) (i : Nat) (bs bs' : List UInt8) :
    (d.append i bs).append i bs' = d.append i (bs ++ bs') := by
  simp [Disk.append]

theorem writeCompacted_quiet (hr : d.replies = [])
    (henc : ∀ rec ∈ rs, c.marshal (resum c rec) = some (encode c rec)) : writeCompacted c tmpFilename j rs d =
      (some none, { d with disk := d.disk.append j (rs.flatMap fun rec => encode c rec ++ [10]) }) := by
  induction rs generalizing d with
  | nil => simp [writeCompacted, Disk.append]
  | cons rec rs ih =>
    have hsum : c.marshal { rec with checksum := checksumFor c rec } = some (encode c rec) := henc rec mem_cons_self
    have hrest := ih (d := { d with disk := d.disk.append j (encode c rec ++ [10]) }) hr
      fun rec hrec => henc rec (mem_cons_of_mem _ hrec)
    simp only [writeCompacted, hsum]
    refine (bind_eq (syscall_quiet (by exact hr))).trans (hrest.trans ?_)
    rw [flatMap_cons, Disk.append_append]

theorem installCompacted_quiet (hr : d.replies = []) (hdir : (d.disk.dir tmpFilename).isSome) :
    installCompacted tmpFilename filename d = (some none, { d with disk := d.disk.rename tmpFilename filename }) := by
  have hrename :
    osRename tmpFilename filename d = (some none, { d with disk := d.disk.rename tmpFilename filename }) := by
    refine (simpleCall_quiet hr).trans ?_
    rw [if_neg (by simpa using isSome_iff_ne_none.mp hdir)]
  unfold installCompacted
  refine (bind_eq (simpleCall_quiet hr)).trans ?_
  dsimp only
  refine (bind_eq (simpleCall_quiet (by exact hr))).trans ?_
  refine (bind_eq hrename).trans ?_
  dsimp only
  refine (bind_eq (simpleCall_quiet (by exact hr))).trans ?_
  dsimp only
  refine (bind_eq (simpleCall_quiet (by exact hr))).trans ?_
  exact bind_eq (simpleCall_quiet (by exact hr))

theorem closeActive_quiet (hr : d.replies = []) :
    closeActive topic d = (some (), { d with activeFiles := update d.activeFiles topic none }) := by
  refine (Proc.bind_eq rfl).trans ?_
  cases hactive : d.activeFiles topic with
  | none =>
    have hsame : update d.activeFiles topic none = d.activeFiles := by rw [← hactive, update_eq_self]
    simp only [Proc.pure_apply, hsame]
  | some i =>
    dsimp only
    exact (Proc.bind_eq (simpleCall_quiet (by exact hr))).trans rfl

theorem compactLog_absent (hsafe : isSafePath topic = none) (hr : d.replies = [])
    (hdir : d.disk.dir (logFilename topic) = none) :
    compactLog c topic d = (some none, { d with activeFiles := update d.activeFiles topic none }) := by
  simp only [compactLog, hsafe]
  refine (bind_eq (closeActive_quiet hr)).trans ?_
  refine (bind_eq (syscall_quiet (by exact hr))).trans ?_
  simp [hdir]

theorem compactLog_open (hsafe : isSafePath topic = none) (hr : d.replies = [])
    (hdir : d.disk.dir (logFilename topic) = some i) : compactLog c topic d =
      rewriteLog c (logFilename topic) i { d with activeFiles := update d.activeFiles topic none } := by
  simp only [compactLog, hsafe]
  refine (bind_eq (closeActive_quiet hr)).trans ?_
  refine (bind_eq (syscall_quiet (by exact hr))).trans ?_
  simp only [hdir, isNone_some, Bool.false_eq_true, if_false]
  refine (bind_eq (syscall_quiet (by exact hr))).trans ?_
  simp only [hdir]

theorem compactLog_tooLong (hsafe : isSafePath topic = none) (hr : d.replies = [])
    (hdir : d.disk.dir (logFilename topic) = some i) (hscan : (scan (d.disk.data i)).2 = true) :
    (compactLog c topic d).1 = some (some (ascii "error scanning log file during compaction: " ++ tooLongError)) := by
  have hrewrite : rewriteLog c (logFilename topic) i { d with activeFiles := update d.activeFiles topic none } =
      (some (some (ascii "error scanning log file during compaction: " ++ tooLongError)),
        { d with activeFiles := update d.activeFiles topic none }) := by
    refine (bind_eq (syscall_quiet (by exact hr))).trans ?_
    dsimp only
    refine (bind_eq (simpleCall_quiet (by exact hr))).trans ?_
    simp [hscan]
  rw [compactLog_open hsafe hr hdir, hrewrite]

/-- **A compaction without failures**: the log holds its live records, and
the files of other names are as they were. -/
theorem compactLog_quiet {i} (hsafe : isSafePath topic = none) (hr : d.replies = [])
    (hdir : d.disk.dir (logFilename topic) = some i) (hscan : (scan (d.disk.data i)).2 = false)
    (henc : ∀ rec ∈ liveRecords c (d.disk.data i), c.marshal (resum c rec) = some (encode c rec)) :
    ∃ d', compactLog c topic d = (some none, d') ∧ d'.replies = [] ∧
      d'.activeFiles = update d.activeFiles topic none ∧ d'.disk.read (logFilename topic) =
        some ((liveRecords c (d.disk.data i)).flatMap fun rec => encode c rec ++ [10]) ∧
      ∀ f, f ≠ logFilename topic → f ≠ logFilename topic ++ ascii ".tmp" → d'.disk.read f = d.disk.read f := by
  have hne := tmpFilename_ne (logFilename topic)
  have hwriting := (Before.openTrunc hne ⟨hdir, rfl⟩).append hne
    ((liveRecords c (d.disk.data i)).flatMap fun rec => encode c rec ++ [10])
  refine ⟨{ d with
    activeFiles := update d.activeFiles topic none
    disk := ((d.disk.openTrunc (logFilename topic ++ ascii ".tmp")).2.append
      (d.disk.openTrunc (logFilename topic ++ ascii ".tmp")).1
      ((liveRecords c (d.disk.data i)).flatMap fun rec => encode c rec ++ [10])).rename
        (logFilename topic ++ ascii ".tmp") (logFilename topic) }, ?_, hr, rfl, hwriting.rename, fun f hf hftmp => ?_⟩
  · rw [compactLog_open hsafe hr hdir]
    refine (bind_eq (syscall_quiet (by exact hr))).trans ?_
    dsimp only
    refine (bind_eq (simpleCall_quiet (by exact hr))).trans ?_
    simp only [hscan, Bool.or_self, Bool.false_eq_true, if_false]
    refine (bind_eq (syscall_quiet (by exact hr))).trans ?_
    simp only [scanRecords_live]
    refine (bind_eq (writeCompacted_quiet (by exact hr) henc)).trans ?_
    exact installCompacted_quiet (by exact hr) (by rw [hwriting.tmpDir]; rfl)
  · have htmp := (Before.openTrunc hne ⟨hdir, rfl⟩).tmpDir
    rw [Disk.read_rename_of_ne hftmp hf, Disk.read_append_of_ne htmp hftmp, (Disk.openTrunc_of_ne hftmp).2]

end Quiet

/-! ## Lines that fit -/

/-- A file of encoded records, each on a line that fits the buffer. -/
def RecordLines (c : Codec) (content : List UInt8) : Prop :=
  ∃ lines : List (List UInt8), content = lines.flatMap (fun l => l ++ [10]) ∧
    ∀ l ∈ lines, l.length < maxTokenSize ∧ ∃ rec, c.marshal rec = some l

/-- Every file is one of encoded records, and the open handles lead to the
logs of their topics. -/
structure Readable (c : Codec) (d : DiskStorage) : Prop where
  files : ∀ {f content}, d.disk.read f = some content → RecordLines c content
  handles : ∀ topic, d.HandleOk topic
  replies : d.replies = []

section Sizes

variable {tt : TimeText} {d : DiskStorage} {topic : GoString} {rec : LogRecord} {content b : List UInt8}

theorem RecordLines.nil (c : Codec) : RecordLines c [] := ⟨[], rfl, by simp⟩

theorem RecordLines.append {c} (h : RecordLines c content) (hb : c.marshal rec = some b)
    (hfit : b.length < maxTokenSize) : RecordLines c (content ++ (b ++ [10])) := by
  obtain ⟨lines, rfl, hlines⟩ := h
  refine ⟨lines ++ [b], by simp, fun l hl => ?_⟩
  rcases mem_append.mp hl with hl | hl
  · exact hlines l hl
  · rw [mem_singleton.mp hl]
    exact ⟨hfit, rec, hb⟩

theorem RecordLines.scan_eq (h : RecordLines (jsonCodec tt) content) :
    ∃ lines, scan content = (lines, false) ∧ ∀ l ∈ lines, ∃ rec, (jsonCodec tt).marshal rec = some l := by
  obtain ⟨lines, rfl, hlines⟩ := h
  have hone : ∀ l ∈ lines, (10 : UInt8) ∉ l ∧ l.getLast? ≠ some 13 := fun l hl => by
    obtain ⟨-, rec, hrec⟩ := hlines l hl
    exact (jsonCodec_lawful tt).oneLine rec l hrec
  exact ⟨lines, scan_lines fun l hl => ⟨(hone l hl).1, (hone l hl).2, (hlines l hl).1⟩, fun l hl => (hlines l hl).2⟩

theorem Readable.write (h : Readable c d)
    (hbs : ∀ content, RecordLines c content → RecordLines c (content ++ bs)) : Readable c (d.write topic bs []) where
  files := by
    intro f content hread
    rw [read_write (h.handles topic)] at hread
    split at hread
    · cases hread
      refine hbs _ ?_
      cases hold : d.disk.read f with
      | none => exact .nil c
      | some content => exact h.files hold
    · exact h.files hread
  handles t := handleOk_write (h.handles topic) (h.handles t)
  replies := rfl

/-- **A step**: `writeRecord` keeps the files readable when its record fits. -/
theorem Readable.writeRecord (h : Readable (jsonCodec tt) d) (hsize : rec.textSize < maxTokenSize) :
    ∃ r d', TinyMQ.writeRecord (jsonCodec tt) topic rec d = (some r, d') ∧ Readable (jsonCodec tt) d' := by
  cases hsafe : isSafePath topic with
  | some e => exact ⟨some e, d, by simp [TinyMQ.writeRecord, hsafe], h⟩
  | none =>
    cases hb : (jsonCodec tt).marshal (resum (jsonCodec tt) rec) with
    | none =>
      obtain ⟨e, he⟩ := writeRecord_unencodable hsafe hb h.replies
      exact ⟨some e, _, he, h.write fun content hc => by rwa [append_nil]⟩
    | some b =>
      have hfit : b.length < maxTokenSize := (length_marshal_le hb).trans_lt hsize
      exact ⟨none, _, writeRecord_quiet hsafe hb h.replies, h.write fun content hc => hc.append hb hfit⟩

/-- **A run**: so does every sequence of calls. -/
theorem Readable.writeRecords (h : Readable (jsonCodec tt) d)
    (hsize : ∀ w ∈ ws, (w.entry.record w.now).textSize < maxTokenSize) :
    ∃ d', TinyMQ.writeRecords (jsonCodec tt) ws d = (some (), d') ∧ Readable (jsonCodec tt) d' := by
  induction ws generalizing d with
  | nil => exact ⟨d, rfl, h⟩
  | cons w ws ih =>
    obtain ⟨r, d₁, hwrite, h₁⟩ := h.writeRecord (hsize w mem_cons_self)
    obtain ⟨d₂, hrest, h₂⟩ := ih h₁ fun w' hw' => hsize w' (mem_cons_of_mem _ hw')
    exact ⟨d₂, (bind_eq hwrite).trans hrest, h₂⟩

theorem encode_live (h : RecordLines (jsonCodec tt) content) : ∀ rec ∈ liveRecords (jsonCodec tt) content,
      (jsonCodec tt).marshal (resum (jsonCodec tt) rec) = some (encode (jsonCodec tt) rec) := by
  intro rec hrec
  obtain ⟨lines, hscan, hlines⟩ := h.scan_eq
  obtain ⟨line, hline, hread⟩ := (putLine_of_mem_replay hrec).read
  rw [hscan] at hline
  obtain ⟨rec₀, hrec₀⟩ := hlines line hline
  rw [unmarshal_marshal hrec₀, some.injEq] at hread
  subst hread
  obtain ⟨_, hagain, -⟩ := length_marshal_repaired hrec₀
  obtain ⟨b, hb⟩ := marshal_sum hagain (checksumFor (jsonCodec tt) rec₀.repaired)
  have hb : (jsonCodec tt).marshal (resum (jsonCodec tt) rec₀.repaired) = some b := hb
  rw [encode, hb]
  rfl

theorem Readable.loadMessages (h : Readable (jsonCodec tt) d) (topic : GoString) :
    (TinyMQ.loadMessages (jsonCodec tt) d.disk topic).2 = isSafePath topic := by
  have hfile : ∀ content, (d.disk.read (logFilename topic)).or (d.disk.read (legacyFilename topic)) = some content →
      (scan content).2 = false := by
    intro content hc
    have hlines : RecordLines (jsonCodec tt) content := by
      rcases or_eq_some_iff.mp hc with hc | ⟨-, hc⟩ <;> exact h.files hc
    obtain ⟨lines, hscan, -⟩ := hlines.scan_eq
    rw [hscan]
  unfold TinyMQ.loadMessages
  split
  next e hsafe => exact hsafe.symm
  next hsafe =>
    rw [hsafe]
    split
    next => rfl
    next content hc => simp [hfile content hc]

theorem Readable.compactLog (h : Readable (jsonCodec tt) d) (topic : GoString) :
    (TinyMQ.compactLog (jsonCodec tt) topic d).1 = some (isSafePath topic) := by
  cases hsafe : isSafePath topic with
  | some e => simp [TinyMQ.compactLog, hsafe]
  | none =>
    cases hdir : d.disk.dir (logFilename topic) with
    | none => rw [compactLog_absent hsafe h.replies hdir]
    | some i =>
      have hlines : RecordLines (jsonCodec tt) (d.disk.data i) :=
        h.files (f := logFilename topic) (by simp [Disk.read, hdir])
      obtain ⟨lines, hscan, -⟩ := hlines.scan_eq
      obtain ⟨d', hcompact, -⟩ := compactLog_quiet hsafe h.replies hdir (by rw [hscan]) (encode_live hlines)
      rw [hcompact]

/-- **Records that fit leave the logs readable**: after any sequence of
`AppendPut` and `AppendAck` calls, `LoadMessages` and `CompactLog` fail on
no topic but for its name. -/
theorem appended_logs_readable {ws : List LogCall} (hstart : Readable (jsonCodec tt) d)
    (hsize : ∀ w ∈ ws, (w.entry.record w.now).textSize < maxTokenSize) (topic : GoString) :
    (TinyMQ.loadMessages (jsonCodec tt) (TinyMQ.writeRecords (jsonCodec tt) ws d).2.disk topic).2 = isSafePath topic ∧
      (TinyMQ.compactLog (jsonCodec tt) topic (TinyMQ.writeRecords (jsonCodec tt) ws d).2).1 =
        some (isSafePath topic) := by
  obtain ⟨d', hrun, hd'⟩ := hstart.writeRecords hsize
  rw [hrun]
  exact ⟨hd'.loadMessages topic, hd'.compactLog topic⟩

end Sizes

theorem DiskStorage.readable_fresh (c : Codec) : Readable c .fresh where
  files := nofun
  handles := handleOk_fresh
  replies := rfl

def taggedCalls : List LogCall :=
  [⟨ascii "orders", .put taggedMessage, 0⟩, ⟨ascii "dead", .put taggedMessage, 1⟩,
    ⟨ascii "orders", .ack (ascii "m1"), 2⟩]

theorem appended_logs_readable_sample :
    (∀ w ∈ taggedCalls, (w.entry.record w.now).textSize < maxTokenSize) ∧ ∀ topic ∈ [ascii "orders", ascii "dead"],
      (loadMessages (jsonCodec unixText) (writeRecords (jsonCodec unixText) taggedCalls .fresh).2.disk topic).2 = none ∧
      (compactLog (jsonCodec unixText) topic (writeRecords (jsonCodec unixText) taggedCalls .fresh).2).1 =
        some none := by
  have hsize : ∀ w ∈ taggedCalls, (w.entry.record w.now).textSize < maxTokenSize := by decide
  have hsafe : ∀ topic ∈ [ascii "orders", ascii "dead"], isSafePath topic = none := by decide
  exact ⟨hsize, fun topic ht => hsafe topic ht ▸ appended_logs_readable (readable_fresh _) hsize topic⟩

def requeueMembers (value : GoString) : List (GoString × Value) :=
  [(MessageField.id.tag, .str (ascii "m1")), (MessageField.topic.tag, .str (ascii "orders")),
    (MessageField.headers.tag, .obj [(ascii "X-Mq-A", .str value)])]

/-- The body of a request to requeue a message with a header. -/
def requeueBody (value : GoString) : List UInt8 := print (.obj (requeueMembers value))

def headerMessage (value : GoString) : Message :=
  { zeroMessage unixText with id := ascii "m1", topic := ascii "orders", headers := [(ascii "X-Mq-A", value)] }

theorem length_requeueBody_le (value : GoString) : (requeueBody value).length ≤ value.length + 73 := by
  have hmap := (length_print_obj [(ascii "X-Mq-A", Value.str value)]).2
  have hnames : MessageField.id.tag.length = 2 ∧ (ascii "m1").length = 2 ∧ MessageField.topic.tag.length = 5 ∧
    (ascii "orders").length = 6 ∧ MessageField.headers.tag.length = 7 ∧ (ascii "X-Mq-A").length = 6 := by decide
  refine (length_print_obj _).2.trans ?_
  simp only [requeueMembers, membersSize_cons, membersSize_nil, print, length_cons, length_append, length_nil] at hmap ⊢
  omega

theorem readMessage_requeueBody (hraw : ∀ b ∈ value, isRaw b = true)
    (hlen : (requeueBody value).length ≤ maxBodySize) :
      readMessage unixText (requeueBody value) = some (headerMessage value) := by
  have hid : ∀ b ∈ ascii "m1", isRaw b = true := by decide +kernel
  have htopic : ∀ b ∈ ascii "orders", isRaw b = true := by decide +kernel
  have hname : ∀ b ∈ ascii "X-Mq-A", isRaw b = true := by decide +kernel
  have hwritten : Written 1 (requeueMembers value) := by
    obtain ⟨hwell, hdepth⟩ := (Written.cons (isBody_raw hname) (.str (isBody_raw hraw)) (Nat.le_refl 0) (.nil 0)).obj
    exact .cons (isBody_messageTag .id) (.str (isBody_raw hid)) (Nat.zero_le 1) <|
      .cons (isBody_messageTag .topic) (.str (isBody_raw htopic)) (Nat.zero_le 1) <|
      .cons (isBody_messageTag .headers) hwell hdepth (.nil 1)
  obtain ⟨hwell, hdepth⟩ := hwritten.obj
  have hfront : parseFront (requeueBody value) = some (.obj (requeueMembers value), []) := by
    have hprint := parseFront_print hwell (hdepth.trans (by decide)) (r := []) nofun
    rwa [append_nil] at hprint
  rw [readMessage, take_of_length_le hlen, hfront]
  change decodeMembers messageTags (setMessage unixText) (requeueMembers value) (zeroMessage unixText) = _
  simp [requeueMembers, decodeMembers, fieldFor_messageTag, setMessage, decodeString,
    decodeMap, decodeEntries, zeroMessage, headerMessage, unquote_raw hid, unquote_raw htopic, unquote_raw hname,
    unquote_raw hraw, SortedMap.insert]

theorem scan_tooLong (hline : 10 ∉ b) (hlen : maxTokenSize ≤ b.length) : scan (b ++ [10]) = ([], true) := by
  rw [scan, lines_terminated hline]
  simp [scanTokens, hlen]

theorem requeued_headerMessage (value : GoString) :
    requeued (headerMessage value) = { headerMessage value with retryCount := 1 } := rfl

theorem flooded_append {value : GoString} (hlong : maxTokenSize ≤ (quote value).length) :
    ∃ d', appendPut (jsonCodec unixText) (ascii "orders") (requeued (headerMessage value)) 0 .fresh = (some none, d') ∧
      (loadMessages (jsonCodec unixText) d'.disk (ascii "orders")).2 = some tooLongError ∧
      (compactLog (jsonCodec unixText) (ascii "orders") d').1 =
        some (some (ascii "error scanning log file during compaction: " ++ tooLongError)) := by
  have hsafe : isSafePath (ascii "orders") = none := by decide
  have hencodes : ((jsonCodec unixText).marshal
      (resum (jsonCodec unixText) ((LogEntry.put (requeued (headerMessage value))).record 0))).isSome := by
    have htime : unixText.format 0 = some (ascii "0") := by decide
    have hzero : unixText.zero = 0 := rfl
    rw [requeued_headerMessage]
    simp [jsonCodec, recordMembers, resum, LogEntry.record, messageMember, messageMembers, headerMessage, zeroMessage,
      TimeText.formatPointer, hzero, htime]
  obtain ⟨b, hb⟩ := isSome_iff_exists.mp hencodes
  have hlen : maxTokenSize ≤ b.length :=
    hlong.trans (length_header_le rfl (by rw [requeued_headerMessage]; exact mem_cons_self) hb)
  have hscan := scan_tooLong ((jsonCodec_lawful unixText).oneLine _ _ hb).1 hlen
  refine ⟨_, writeRecord_quiet hsafe hb rfl, ?_, ?_⟩
  · simp [loadMessages, hsafe, read_write_fresh, hscan]
  · exact compactLog_tooLong (i := 0) hsafe rfl rfl (congrArg Prod.snd hscan)

/-- **A message that was accepted makes its log unreadable**: its header
takes six times its length in the log. -/
theorem flooded_log_unreadable : (requeueBody (replicate 700000 60)).length ≤ maxBodySize ∧
      readMessage unixText (requeueBody (replicate 700000 60)) = some (headerMessage (replicate 700000 60)) ∧
      ∃ d', appendPut (jsonCodec unixText) (ascii "orders") (requeued (headerMessage (replicate 700000 60))) 0 .fresh =
          (some none, d') ∧ (loadMessages (jsonCodec unixText) d'.disk (ascii "orders")).2 = some tooLongError ∧
        (compactLog (jsonCodec unixText) (ascii "orders") d').1 =
          some (some (ascii "error scanning log file during compaction: " ++ tooLongError)) := by
  have hbody : (requeueBody (replicate 700000 60)).length ≤ maxBodySize :=
    (length_requeueBody_le _).trans (by rw [length_replicate]; decide)
  have hraw : ∀ b ∈ replicate 700000 (60 : UInt8), isRaw b = true := fun b hb => by
    rw [(mem_replicate.mp hb).2]
    decide
  exact ⟨hbody, readMessage_requeueBody hraw hbody, flooded_append (by rw [length_quote_replicate]; decide)⟩

end TinyMQ
