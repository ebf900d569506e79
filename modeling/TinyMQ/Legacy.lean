/-
Logs under the names of earlier versions.

`LoadMessages` falls back to the legacy file of a topic while it has no log
of its own; writes and compaction only know the log. The first record that
is written therefore hides all that the legacy file holds:
`legacy_kept_iff` says when nothing is missed. What else is written is loaded
again, also after a crash (`writes_recovered`).
-/
import TinyMQ.LogLines

namespace TinyMQ

open List LogStore Utf8 Proc DiskStorage
open KeyedLog (Entry)

/-- What happens to the topic: a start of the broker, an `AppendPut`, an
`AppendAck`. -/
inductive LegacyOp
  | start
  | append (e : LogEntry) (now : Time)

namespace LegacyOp

/-- A start loads the log and compacts it, with no file open yet. -/
def run (c : Codec) (topic : GoString) : LegacyOp → Proc DiskStorage Unit
  | .start => do
    let _ ← fun d => (some (), { d with activeFiles := fun _ => none })
    let _ ← fun d => (some (loadMessages c d.disk topic), d)
    let _ ← compactLog c topic
    return ()
  | .append e now => do
    let _ ← writeRecord c topic (e.record now)
    return ()

def runAll (c : Codec) (topic : GoString) : List LegacyOp → Proc DiskStorage Unit
  | [] => return ()
  | op :: ops => do
    op.run c topic
    runAll c topic ops

def entry? : LegacyOp → Option LogEntry
  | .start => none
  | .append e _ => some e

/-- The record can be encoded, and the log carries it. -/
def Carried (c : Codec) : LegacyOp → Prop
  | .start => True
  | .append e now => (c.marshal (resum c (e.record now))).isSome ∧ c.Carries e now

end LegacyOp

/-! ## A log of carried records -/

/-- The entries of a file, as `LoadMessages` reads them. -/
def fileEntries (c : Codec) (content : List UInt8) : List (Entry GoString Message) :=
  (scan content).1.filterMap (entryOf c fun _ m => m)

/-- Lines whose records are written the same again. -/
def CarriedLines (c : Codec) (content : List UInt8) : Prop :=
  ∃ lines : List (List UInt8), content = lines.flatMap (fun l => l ++ [10]) ∧
    ∀ l ∈ lines, (10 : UInt8) ∉ l ∧ l.getLast? ≠ some 13 ∧ l.length < maxTokenSize ∧
      ∀ rec, c.unmarshal l = some rec → c.marshal (resum c rec) = some (encode c rec) ∧
        (encode c rec).length < maxTokenSize

section Lines

variable {c : Codec} {content : List UInt8} {e : LogEntry} {now : Time}

theorem resum_resum (c : Codec) (rec : LogRecord) : resum c (resum c rec) = resum c rec := rfl

theorem encode_resum (c : Codec) (rec : LogRecord) : encode c (resum c rec) = encode c rec := rfl

theorem CarriedLines.nil (c : Codec) : CarriedLines c [] := ⟨[], rfl, by simp⟩

theorem CarriedLines.scan_eq (h : CarriedLines c content) : ∃ lines, scan content = (lines, false) ∧
    content = lines.flatMap (fun l => l ++ [10]) ∧ ∀ l ∈ lines, ∀ rec, c.unmarshal l = some rec →
      c.marshal (resum c rec) = some (encode c rec) ∧ (encode c rec).length < maxTokenSize := by
  obtain ⟨lines, rfl, hlines⟩ := h
  exact ⟨lines, scan_lines fun l hl => ⟨(hlines l hl).1, (hlines l hl).2.1, (hlines l hl).2.2.1⟩, rfl,
    fun l hl => (hlines l hl).2.2.2⟩

theorem CarriedLines.append (h : CarriedLines c content) (hc : c.Carries e now) {b}
    (hb : c.marshal (resum c (e.record now)) = some b) : CarriedLines c (content ++ (b ++ [10])) ∧
      fileEntries c (content ++ (b ++ [10])) = fileEntries c content ++ [e.entry] := by
  obtain ⟨hdecodes, hline, hcr, hfit⟩ := hc b hb
  obtain ⟨lines, rfl, hlines⟩ := h
  have hall : ∀ l ∈ lines ++ [b], (10 : UInt8) ∉ l ∧ l.getLast? ≠ some 13 ∧ l.length < maxTokenSize := by
    intro l hl
    rcases mem_append.mp hl with hl | hl
    · exact ⟨(hlines l hl).1, (hlines l hl).2.1, (hlines l hl).2.2.1⟩
    · rw [mem_singleton.mp hl]
      exact ⟨hline, hcr, hfit⟩
  have hcontent : lines.flatMap (fun l => l ++ [10]) ++ (b ++ [10]) = (lines ++ [b]).flatMap fun l =>
    l ++ [10] := by simp
  constructor
  · refine ⟨lines ++ [b], hcontent, fun l hl => ⟨(hall l hl).1, (hall l hl).2.1, (hall l hl).2.2, fun rec hrec => ?_⟩⟩
    rcases mem_append.mp hl with hl | hl
    · exact (hlines l hl).2.2.2 rec hrec
    · rw [mem_singleton.mp hl, hdecodes] at hrec
      cases hrec
      have henc : encode c (e.record now) = b := by rw [encode, hb]; rfl
      rw [resum_resum, encode_resum, henc]
      exact ⟨hb, hfit⟩
  · rw [hcontent, fileEntries, fileEntries, scan_lines hall,
      scan_lines fun l hl => hall l (mem_append_left _ hl), filterMap_append]
    simp [entryOf_record hdecodes]

/-- **A compacted log** is one of carried records with the same live
messages. -/
theorem CarriedLines.rewritten (hlawful : c.Lawful) (h : CarriedLines c content) :
    (∀ rec ∈ liveRecords c content, c.marshal (resum c rec) = some (encode c rec)) ∧
      CarriedLines c ((liveRecords c content).flatMap fun rec => encode c rec ++ [10]) ∧
      KeyedLog.final (fileEntries c ((liveRecords c content).flatMap fun rec => encode c rec ++ [10])) =
        KeyedLog.final (fileEntries c content) := by
  obtain ⟨lines, hscan, -, hlines⟩ := h.scan_eq
  have hlive : ∀ rec ∈ liveRecords c content, c.marshal (resum c rec) = some (encode c rec) ∧
      (encode c rec).length < maxTokenSize ∧ c.unmarshal (encode c rec) = some (resum c rec) := by
    intro rec hrec
    obtain ⟨line, hline, hread⟩ := (putLine_of_mem_replay hrec).read
    rw [hscan] at hline
    obtain ⟨henc, hfit⟩ := hlines line hline rec hread
    exact ⟨henc, hfit, hlawful.decodes line rec hread _ _ henc⟩
  have henc : ∀ rec ∈ liveRecords c content, c.marshal (resum c rec) = some (encode c rec) :=
    fun rec hrec => (hlive rec hrec).1
  have hfits : RewriteFits c content := by
    intro line hline rec hrec
    rw [hscan] at hline
    exact (hlines line hline rec hrec).2
  refine ⟨henc, ⟨(liveRecords c content).map (encode c), by rw [flatMap_map], fun l hl => ?_⟩, ?_⟩
  · obtain ⟨rec, hrec, rfl⟩ := List.mem_map.mp hl
    obtain ⟨hmarshal, hfit, hread⟩ := hlive rec hrec
    obtain ⟨hline, hcr⟩ := hlawful.oneLine _ _ hmarshal
    refine ⟨hline, hcr, hfit, fun rec' hrec' => ?_⟩
    cases hread.symm.trans hrec'
    rw [resum_resum, encode_resum]
    exact ⟨hmarshal, hfit⟩
  · funext k
    rw [fileEntries, fileEntries, scan_rewritten hlawful hfits henc, messageEntries_eq,
      messageEntries_eq, KeyedLog.final_map, KeyedLog.final_map, recordEntries_rewritten hlawful henc,
      KeyedLog.final_map, KeyedLog.final_compact, Option.map_map]
    rfl

end Lines

/-! ## The topic over its starts and writes -/

/-- The topic once records have been written: its own log has the live
messages of these, whatever the legacy file holds. -/
structure OwnLog (c : Codec) (topic : GoString) (es : List LogEntry) (d : DiskStorage) : Prop where
  replies : d.replies = []
  handle : d.HandleOk topic
  log : ∃ content, d.disk.read (logFilename topic) = some content ∧ CarriedLines c content ∧
    KeyedLog.final (fileEntries c content) = KeyedLog.final (es.map LogEntry.entry)

/-- The topic as long as nothing has been written. -/
structure OnlyLegacy (topic : GoString) (content : List UInt8) (d : DiskStorage) : Prop where
  replies : d.replies = []
  handle : d.HandleOk topic
  absent : d.disk.read (logFilename topic) = none
  legacy : d.disk.read (legacyFilename topic) = some content

/-- The topic after the records: until the first one the legacy file is all
there is, and then it is never read again. -/
def Standing (c : Codec) (topic : GoString) (content : List UInt8) (es : List LogEntry) (d : DiskStorage) : Prop :=
  es = [] ∧ OnlyLegacy topic content d ∨ es ≠ [] ∧ OwnLog c topic es d

section Ops

variable {c : Codec} {topic : GoString} {d : DiskStorage} {es : List LogEntry} {content : List UInt8} {e : LogEntry}
  {now : Time}

theorem ownLog_append (hsafe : isSafePath topic = none) (hr : d.replies = []) (hhandle : d.HandleOk topic)
    (hop : (LegacyOp.append e now).Carried c) (hold : CarriedLines c ((d.disk.read (logFilename topic)).getD []))
    (hfinal : KeyedLog.final (fileEntries c ((d.disk.read (logFilename topic)).getD [])) =
      KeyedLog.final (es.map LogEntry.entry)) :
    ∃ d', (LegacyOp.append e now).run c topic d = (some (), d') ∧ OwnLog c topic (es ++ [e]) d' := by
  obtain ⟨hencodes, hcarries⟩ := hop
  obtain ⟨b, hb⟩ := Option.isSome_iff_exists.mp hencodes
  obtain ⟨hlines, hentries⟩ := hold.append hcarries hb
  refine ⟨_, bind_eq (writeRecord_quiet hsafe hb hr), rfl,
    handleOk_write hhandle hhandle, _, ?_, hlines, ?_⟩
  · rw [read_write hhandle, if_pos rfl]
  · rw [hentries, KeyedLog.final_concat, hfinal, ← KeyedLog.final_concat, map_append, map_singleton]

theorem OwnLog.start (hlawful : c.Lawful) (hsafe : isSafePath topic = none) (h : OwnLog c topic es d) :
    ∃ d', LegacyOp.start.run c topic d = (some (), d') ∧ OwnLog c topic es d' := by
  obtain ⟨content, hread, hlines, hfinal⟩ := h.log
  obtain ⟨i, hdir, hdata⟩ := Option.map_eq_some_iff.mp hread
  obtain ⟨henc, hlines', hfinal'⟩ := hlines.rewritten hlawful
  subst hdata
  obtain ⟨lines, hscan, -⟩ := hlines.scan_eq
  obtain ⟨d', hcompact, hr', hactive, hread', -⟩ :=
    compactLog_quiet (d := { d with activeFiles := fun _ => none }) hsafe h.replies
    hdir (by rw [hscan]) henc
  refine ⟨d', ?_, hr', fun i hi => ?_, _, hread', hlines', hfinal'.trans hfinal⟩
  · refine (bind_eq rfl).trans ((bind_eq rfl).trans (bind_eq hcompact))
  · rw [hactive, Function.update_self] at hi
    cases hi

theorem OnlyLegacy.start (hsafe : isSafePath topic = none) (h : OnlyLegacy topic content d) :
    ∃ d', LegacyOp.start.run c topic d = (some (), d') ∧ OnlyLegacy topic content d' := by
  have hdir : d.disk.dir (logFilename topic) = none := Option.map_eq_none_iff.mp h.absent
  have hcompact := compactLog_absent (c := c) (d := { d with activeFiles := fun _ => none }) hsafe h.replies hdir
  refine ⟨_, (bind_eq rfl).trans ((bind_eq rfl).trans (bind_eq hcompact)),
    h.replies, fun i hi => ?_, h.absent, h.legacy⟩
  have hnone : Function.update (fun _ => none) topic none topic = some i := hi
  rw [Function.update_self] at hnone
  cases hnone

theorem Standing.step {op : LegacyOp} (hlawful : c.Lawful) (hsafe : isSafePath topic = none)
    (h : Standing c topic content es d)
    (hop : op.Carried c) :
    ∃ d', op.run c topic d = (some (), d') ∧ Standing c topic content (es ++ op.entry?.toList) d' := by
  cases op with
  | start =>
    rcases h with ⟨rfl, h⟩ | ⟨hne, h⟩
    · obtain ⟨d', hrun, h'⟩ := h.start (c := c) hsafe
      exact ⟨d', hrun, .inl ⟨rfl, h'⟩⟩
    · obtain ⟨d', hrun, h'⟩ := h.start hlawful hsafe
      exact ⟨d', hrun, .inr (by simpa [LegacyOp.entry?] using ⟨hne, h'⟩)⟩
  | append e now =>
    suffices hown : ∃ d', (LegacyOp.append e now).run c topic d = (some (), d') ∧ OwnLog c topic (es ++ [e]) d' by
      obtain ⟨d', hrun, h'⟩ := hown
      exact ⟨d', hrun, .inr ⟨by simp [LegacyOp.entry?], h'⟩⟩
    rcases h with ⟨rfl, h⟩ | ⟨-, h⟩
    · exact ownLog_append hsafe h.replies h.handle hop (by rw [h.absent]; exact .nil c) (by rw [h.absent]; rfl)
    · obtain ⟨content, hread, hlines, hfinal⟩ := h.log
      exact ownLog_append hsafe h.replies h.handle hop (by rwa [hread]) (by rwa [hread])

/-- **A run from the legacy file.** -/
theorem OnlyLegacy.runAll (hlawful : c.Lawful) (hsafe : isSafePath topic = none) {ops}
    (h : OnlyLegacy topic content d) (hops : ∀ op ∈ ops, op.Carried c) :
    ∃ d', LegacyOp.runAll c topic ops d = (some (), d') ∧
      Standing c topic content (ops.filterMap LegacyOp.entry?) d' := by
  suffices hall : ∀ {es d}, Standing c topic content es d → ∃ d', LegacyOp.runAll c topic ops d = (some (), d') ∧
      Standing c topic content (es ++ ops.filterMap LegacyOp.entry?) d' from hall (.inl ⟨rfl, h⟩)
  clear h
  induction ops with
  | nil => exact fun {es d} h => ⟨d, rfl, by simpa using h⟩
  | cons op ops ih =>
    intro es d h
    obtain ⟨d₁, hrun₁, h₁⟩ := h.step hlawful hsafe (hops op mem_cons_self)
    obtain ⟨d₂, hrun₂, h₂⟩ := ih (fun op hop => hops op (mem_cons_of_mem _ hop)) h₁
    refine ⟨d₂, (bind_eq hrun₁).trans hrun₂, ?_⟩
    cases hentry : op.entry? <;> simpa [hentry] using h₂

/-! ## What is loaded -/

theorem OwnLog.mem_load (hsafe : isSafePath topic = none) (h : OwnLog c topic es d) (m : Message) :
    m ∈ (loadMessages c d.disk topic).1 ↔ m ∈ replay es := by
  obtain ⟨content, hread, -, hfinal⟩ := h.log
  have hload : (loadMessages c d.disk topic).1 = KeyedLog.replay (fileEntries c content) := by
    simp [loadMessages, hsafe, hread, scanRecords_live, fileEntries]
  rw [hload, KeyedLog.mem_replay, hfinal, replay, KeyedLog.mem_replay]

theorem OnlyLegacy.load (hsafe : isSafePath topic = none) {legacy} (hcontent : Encodes c legacy content)
    (h : OnlyLegacy topic content d) : (loadMessages c d.disk topic).1 = replay legacy := by
  simp [loadMessages, hsafe, h.absent, h.legacy, hcontent.live.1]

/-- The later records settle every live message of the earlier ones. -/
theorem replay_append_iff (legacy es : List LogEntry) : (∀ m, m ∈ replay es ↔ m ∈ replay (legacy ++ es)) ↔
      ∀ m ∈ replay legacy, ∃ e ∈ es, e.entry.key = m.id := by
  have hfinal : ∀ k, (∃ e ∈ es, e.entry.key = k) →
      KeyedLog.final ((legacy ++ es).map LogEntry.entry) k = KeyedLog.final (es.map LogEntry.entry) k := by
    intro k hk
    obtain ⟨e, he, hkey⟩ := hk
    rw [map_append]
    exact KeyedLog.final_append_of_mem ⟨e.entry, List.mem_map_of_mem he, hkey⟩
  have hother : ∀ k, (¬∃ e ∈ es, e.entry.key = k) →
      KeyedLog.final ((legacy ++ es).map LogEntry.entry) k = KeyedLog.final (legacy.map LogEntry.entry) k ∧
        KeyedLog.final (es.map LogEntry.entry) k = none := by
    intro k hk
    have hne : ∀ x ∈ es.map LogEntry.entry, x.key ≠ k := by
      intro x hx hkey
      obtain ⟨e, he, rfl⟩ := List.mem_map.mp hx
      exact hk ⟨e, he, hkey⟩
    refine ⟨by rw [map_append, KeyedLog.final_append_of_ne hne], ?_⟩
    have hnil := KeyedLog.final_append_of_ne (l := []) hne
    rwa [nil_append] at hnil
  constructor
  · intro hsame m hm
    by_contra hk
    obtain ⟨hkeep, hnone⟩ := hother m.id hk
    have hlive := (hsame m).mpr (mem_replay.mpr (hkeep.trans (mem_replay.mp hm)))
    rw [mem_replay, hnone] at hlive
    cases hlive
  · intro hsettled m
    rw [mem_replay, mem_replay]
    by_cases hk : ∃ e ∈ es, e.entry.key = m.id
    · rw [hfinal m.id hk]
    · obtain ⟨hkeep, hnone⟩ := hother m.id hk
      rw [hkeep, hnone]
      refine ⟨fun h => (by cases h), fun h => absurd (hsettled m (mem_replay.mpr h)) hk⟩

theorem carries_of_clean {tt} (hclean : (e.record now).Clean) (hsize : (e.record now).textSize < maxTokenSize) :
    (jsonCodec tt).Carries e now := by
  intro b hb
  have hresum : (resum (jsonCodec tt) (e.record now)).Clean :=
    ⟨hclean.type, hclean.text, hclean.message, hclean.messageID⟩
  obtain ⟨hline, hcr⟩ := oneLine_of_bytes (marshal_bytes hb)
  have hlen : b.length ≤ (resum (jsonCodec tt) (e.record now)).textSize := length_marshal_le hb
  have hsum : (resum (jsonCodec tt) (e.record now)).textSize = (e.record now).textSize := rfl
  exact ⟨by rw [unmarshal_marshal hb, hresum.repaired_eq], hline, hcr, by omega⟩

/-- **When a legacy log is not lost**: `LoadMessages` returns the live
messages of the legacy file and of all later records exactly if nothing was
written at all, or every live message of the legacy file was written again
or acknowledged. -/
theorem legacy_kept_iff (hlawful : c.Lawful) (hsafe : isSafePath topic = none) {legacy : List LogEntry}
    (hcontent : Encodes c legacy content) (hstart : OnlyLegacy topic content d) {ops : List LegacyOp}
    (hops : ∀ op ∈ ops, op.Carried c) : (∀ m, m ∈ (loadMessages c (LegacyOp.runAll c topic ops d).2.disk topic).1 ↔
        m ∈ replay (legacy ++ ops.filterMap LegacyOp.entry?)) ↔ ops.filterMap LegacyOp.entry? = [] ∨
        ∀ m ∈ replay legacy, ∃ e ∈ ops.filterMap LegacyOp.entry?, e.entry.key = m.id := by
  obtain ⟨d', hrun, ⟨hnone, hd'⟩ | ⟨hsome, hd'⟩⟩ := hstart.runAll hlawful hsafe hops
  · rw [hrun, hd'.load hsafe hcontent, hnone, append_nil]
    simp
  · rw [hrun]
    simp only [hd'.mem_load hsafe, hsome, false_or]
    exact replay_append_iff legacy _

end Ops

def orderMessage (id : GoString) : Message :=
  { sampleMessage with id := id, topic := ascii "shop/orders", timestamp := 0 }

/-- A data directory with this legacy file of the topic `shop/orders`. -/
def legacyStorage (content : List UInt8) : DiskStorage where
  disk :=
    { dir := fun p => if p = ascii "shop@orders.log" then some 0 else none
      data := fun _ => content
      next := 1
      dir_lt := by
        intro p i h
        split at h <;> simp_all
      dir_inj := by
        intro p q i hp hq
        split at hp <;> split at hq <;> simp_all }
  activeFiles := fun _ => none
  syncWrites := false
  replies := []

theorem onlyLegacy_legacyStorage (content : List UInt8) :
    OnlyLegacy (ascii "shop/orders") content (legacyStorage content) where
  replies := rfl
  handle := nofun
  absent := by
    have hne : logFilename (ascii "shop/orders") ≠ ascii "shop@orders.log" := by decide
    simp [legacyStorage, Disk.read, hne]
  legacy := by
    have heq : legacyFilename (ascii "shop/orders") = ascii "shop@orders.log" := by decide
    simp [legacyStorage, Disk.read, heq]

theorem carried_order {id} (hid : id = ascii "m1" ∨ id = ascii "m2") :
    (LegacyOp.append (.put (orderMessage id)) 0).Carried (jsonCodec unixText) := by
  have hclean : ((LogEntry.put (orderMessage id)).record 0).Clean := by
    have htexts : sanitize RecordType.put.text = RecordType.put.text ∧
      sanitize (ascii "shop/orders") = ascii "shop/orders" := by decide
    refine ⟨rfl, htexts.1, fun m hm => ?_, rfl⟩
    cases hm
    refine ⟨?_, htexts.2, .nil⟩
    rcases hid with rfl | rfl <;> decide
  have hsize : ((LogEntry.put (orderMessage id)).record 0).textSize < maxTokenSize := by
    rcases hid with rfl | rfl <;> decide
  refine ⟨?_, carries_of_clean hclean hsize⟩
  rcases hid with rfl | rfl <;> rfl

theorem carried_ack : (LegacyOp.append (.ack (ascii "m1")) 0).Carried (jsonCodec unixText) := by
  have htexts : sanitize RecordType.ack.text = RecordType.ack.text ∧ sanitize (ascii "m1") = ascii "m1" := by
    decide
  exact ⟨rfl, carries_of_clean ⟨rfl, htexts.1, fun m hm => (by cases hm), htexts.2⟩ (by decide)⟩

theorem exists_legacy : ∃ content, Encodes (jsonCodec unixText) [.put (orderMessage (ascii "m1"))] content := by
  obtain ⟨hencodes, hcarries⟩ := carried_order (.inl rfl)
  obtain ⟨b, hb⟩ := Option.isSome_iff_exists.mp hencodes
  exact ⟨_, (Encodes.nil _).append hcarries hb⟩

/-- The message of the legacy file is acknowledged, and another is published. -/
def ackedOps : List LegacyOp :=
  [.start, .append (.ack (ascii "m1")) 0, .append (.put (orderMessage (ascii "m2"))) 0, .start]

theorem legacy_kept_iff_sample : ∃ content, Encodes (jsonCodec unixText) [.put (orderMessage (ascii "m1"))] content ∧
    OnlyLegacy (ascii "shop/orders") content (legacyStorage content) ∧ ∀ m, m ∈ (loadMessages (jsonCodec unixText)
        (LegacyOp.runAll (jsonCodec unixText) (ascii "shop/orders") ackedOps (legacyStorage content)).2.disk
        (ascii "shop/orders")).1 ↔
      m ∈ replay ([.put (orderMessage (ascii "m1"))] ++ ackedOps.filterMap LegacyOp.entry?) := by
  obtain ⟨content, hcontent⟩ := exists_legacy
  have hstart := onlyLegacy_legacyStorage content
  have hops : ∀ op ∈ ackedOps, op.Carried (jsonCodec unixText) := by
    simp only [ackedOps, forall_mem_cons]
    exact ⟨trivial, carried_ack, carried_order (.inr rfl), trivial, by simp⟩
  exact ⟨content, hcontent, hstart,
    (legacy_kept_iff (jsonCodec_lawful unixText) (by decide) hcontent hstart hops).mpr (.inr (by decide))⟩

/-- **A legacy log that is lost**: after a start, a publish and another
start `LoadMessages` has the new message only, and the live one of the
legacy file is gone. -/
theorem legacy_message_lost : ∃ content, Encodes (jsonCodec unixText) [.put (orderMessage (ascii "m1"))] content ∧
    OnlyLegacy (ascii "shop/orders") content (legacyStorage content) ∧
    (LegacyOp.runAll (jsonCodec unixText) (ascii "shop/orders")
      [.start, .append (.put (orderMessage (ascii "m2"))) 0, .start] (legacyStorage content)).1 = some () ∧
    orderMessage (ascii "m1") ∈ replay [.put (orderMessage (ascii "m1")), .put (orderMessage (ascii "m2"))] ∧
    orderMessage (ascii "m1") ∉ (loadMessages (jsonCodec unixText)
      (LegacyOp.runAll (jsonCodec unixText) (ascii "shop/orders")
        [.start, .append (.put (orderMessage (ascii "m2"))) 0, .start] (legacyStorage content)).2.disk
      (ascii "shop/orders")).1 := by
  obtain ⟨content, hcontent⟩ := exists_legacy
  have hstart := onlyLegacy_legacyStorage content
  have hops : ∀ op ∈ [.start, .append (.put (orderMessage (ascii "m2"))) 0, .start],
    LegacyOp.Carried (jsonCodec unixText) op := by
    intro op hop
    simp only [mem_cons, not_mem_nil, or_false] at hop
    rcases hop with rfl | rfl | rfl
    · trivial
    · exact carried_order (.inr rfl)
    · trivial
  obtain ⟨d', hrun, ⟨hnone, -⟩ | ⟨-, hd'⟩⟩ := hstart.runAll (jsonCodec_lawful unixText) (by decide) hops
  · cases hnone
  · refine ⟨content, hcontent, hstart, by rw [hrun], by decide, ?_⟩
    rw [hrun, hd'.mem_load (by decide)]
    decide

/-- **What a run of writes leaves is recovered**: also after a crash, every
topic is loaded with the records that were stored, among them those of all
calls that returned no error. -/
theorem writes_recovered {c : Codec} {s : LogStore} {d : DiskStorage} {ws : List LogCall}
    (hc : ∀ w ∈ ws, c.Carries w.entry w.now) (h : Represents c s d) (hwhole : Whole d.replies) :
    ∃ done : List (LogCall × WriteOutcome), Outcomes ws (writeResults c ws d).1 done ∧
      ∀ topic, loadMessages c (writeResults c ws d).2.disk topic =
        ((s.appendEach done).recovered topic, isSafePath topic) := by
  obtain ⟨done, hdone, h'⟩ := writeResults_spec hc h hwhole
  exact ⟨done, hdone, h'.loadMessages⟩

/-- A write fails after the first record, and then the process dies. -/
def crashingStorage : DiskStorage := { fresh with replies := [.ok, .ok, .err 0, .crash 0] }

def sampleCalls : List LogCall :=
  [⟨ascii "shop/orders", .put (orderMessage (ascii "m1")), 0⟩,
    ⟨ascii "shop/orders", .put (orderMessage (ascii "m2")), 0⟩, ⟨ascii "shop/orders", .ack (ascii "m1"), 0⟩]

/-- The first is stored, the second is not written, and the process dies in
the third call. -/
theorem writes_recovered_sample : (writeResults (jsonCodec unixText) sampleCalls crashingStorage).1 =
      [none, some ioError] ∧
    ∃ done : List (LogCall × WriteOutcome), Outcomes sampleCalls [none, some ioError] done ∧ ∀ topic,
      loadMessages (jsonCodec unixText) (writeResults (jsonCodec unixText) sampleCalls crashingStorage).2.disk topic =
        ((appendEach ⟨∅, fun _ => .stored, 0⟩ done).recovered topic, isSafePath topic) := by
  have hc : ∀ w ∈ sampleCalls, (jsonCodec unixText).Carries w.entry w.now := by
    simpa [sampleCalls] using ⟨(carried_order (.inl rfl)).2, (carried_order (.inr rfl)).2, carried_ack.2⟩
  have hresults : (writeResults (jsonCodec unixText) sampleCalls crashingStorage).1 = [none, some ioError] := by
    decide +kernel
  refine ⟨hresults, hresults ▸ writes_recovered hc (s := ⟨∅, fun _ => .stored, 0⟩) (d := crashingStorage) ?_ ?_⟩
  · exact ⟨fun _ => rfl, fun h => by simp at h, fun h => by cases h⟩
  · simp [Whole, crashingStorage]

end TinyMQ
