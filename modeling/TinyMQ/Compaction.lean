/-
Compaction preserves recovery: whatever happens in `CompactLog`, the next
`LoadMessages` of the topic returns the messages it would have returned
before.

There are two halves. On a log, the scan loops are the replay of
`KeyedLog` (`scanRecords_live`), so rewriting the live records is its
compaction. On the disk, no step before the rename touches the bytes under
the log's name (`Before`), and the rename puts the finished rewriting there.
-/
import TinyMQ.Storage

namespace TinyMQ

open List Option Function

variable {β α : Type} {c : Codec} {tokens : List (List UInt8)} {rec : LogRecord} {P C : Disk → Prop} {d : Disk}
  {filename : GoString} {i : Nat}

open KeyedLog (Entry)

/-! ## The scan as a replay -/

/-- The entry of a keyed log a line stands for; `none` when the scan skips it. -/
def entryOf {β : Type} (c : Codec) (pick : LogRecord → Message → β) (line : List UInt8) :
    Option (Entry GoString β) :=
  match c.unmarshal line with
  | none => none
  | some rec =>
    if validateRecord c rec then
      match rec.type with
      | .put => rec.message.map fun m => .put m.id (pick rec m)
      | .ack => some (.del rec.messageID)
      | .other _ => none
    else none

theorem Scan.line_eq (c : Codec) (pick : LogRecord → Message → β) {st : Scan β}
    (hm : st.msgMap = KeyedLog.final es) (ho : st.orderedIDs = KeyedLog.putKeys es) (line : List UInt8) :
    (st.line c pick line).msgMap = KeyedLog.final (es ++ (entryOf c pick line).toList) ∧
      (st.line c pick line).orderedIDs = KeyedLog.putKeys (es ++ (entryOf c pick line).toList) := by
  cases hu : c.unmarshal line with
  | none => simp [Scan.line, entryOf, hu, hm, ho]
  | some rec =>
    by_cases hv : validateRecord c rec
    · cases ht : rec.type with
      | put => cases hr : rec.message <;> simp [Scan.line, entryOf, hu, hv, ht, hr, hm, ho]
      | ack | other text => simp [Scan.line, entryOf, hu, hv, ht, hm, ho]
    · simp [Scan.line, entryOf, hu, hv, hm, ho]

theorem scanRecords_eq (c : Codec) (pick : LogRecord → Message → β) (tokens : List (List UInt8)) :
    (scanRecords c pick tokens).msgMap = KeyedLog.final (tokens.filterMap (entryOf c pick)) ∧
      (scanRecords c pick tokens).orderedIDs = KeyedLog.putKeys (tokens.filterMap (entryOf c pick)) := by
  induction tokens using reverseRecOn with
  | nil => exact ⟨rfl, rfl⟩
  | append_singleton tokens line ih =>
    have h := Scan.line_eq c pick ih.1 ih.2 line
    have hl : List.filterMap (entryOf c pick) [line] = (entryOf c pick line).toList := by
      cases he : entryOf c pick line <;> simp [he]
    simpa [scanRecords, filterMap_append, hl] using h

/-- **The scan is a replay** of the entries the lines stand for. -/
theorem scanRecords_live (c : Codec) (pick : LogRecord → Message → β) (tokens : List (List UInt8)) :
    (scanRecords c pick tokens).live = KeyedLog.replay (tokens.filterMap (entryOf c pick)) := by
  obtain ⟨hm, ho⟩ := scanRecords_eq c pick tokens
  rw [Scan.live, hm, ho, KeyedLog.replay]

/-! ## Rewriting the live records -/

/-- The entries of a log with their whole records, as `CompactLog` keeps them. -/
def recordEntries (c : Codec) (tokens : List (List UInt8)) : List (Entry GoString LogRecord) :=
  tokens.filterMap (entryOf c fun rec _ => rec)

def LogRecord.content (rec : LogRecord) : Message := rec.message.getD default

/-- The record compaction writes: the same with a fresh checksum. -/
def resum (c : Codec) (rec : LogRecord) : LogRecord := { rec with checksum := checksumFor c rec }

@[simp] theorem resum_content (c : Codec) (rec : LogRecord) : (resum c rec).content = rec.content := rfl

theorem validateRecord_resum (c : Codec) (rec : LogRecord) : validateRecord c (resum c rec) = true := by
  have h : checksumFor c (resum c rec) = (resum c rec).checksum := rfl
  simp [validateRecord, h]

/-- The line compaction writes for a record, when it can be encoded. -/
def encode (c : Codec) (rec : LogRecord) : List UInt8 := (c.marshal (resum c rec)).getD []

theorem entryOf_message (c : Codec) (line : List UInt8) :
    entryOf c (fun _ m => m) line = (entryOf c (fun rec _ => rec) line).map (Entry.map LogRecord.content) := by
  simp only [entryOf]
  split
  · rfl
  next rec hrec =>
  split
  · split
    · cases hm : rec.message <;> simp [Entry.map, LogRecord.content, hm]
    · rfl
    · rfl
  · rfl

theorem messageEntries_eq (c : Codec) (tokens : List (List UInt8)) :
    tokens.filterMap (entryOf c fun _ m => m) = (recordEntries c tokens).map (Entry.map LogRecord.content) := by
  rw [recordEntries, map_filterMap]
  exact filterMap_congr fun line _ => entryOf_message c line

theorem load_eq (c : Codec) (tokens : List (List UInt8)) : (scanRecords c (fun _ m => m) tokens).live =
    (KeyedLog.replay (recordEntries c tokens)).map LogRecord.content := by
  rw [scanRecords_live, messageEntries_eq, KeyedLog.replay_map]

/-- A put among the entries: a line that decodes to a put of that message. -/
structure PutLine (c : Codec) (tokens : List (List UInt8)) (k : GoString) (rec : LogRecord) : Prop where
  read : ∃ line ∈ tokens, c.unmarshal line = some rec
  type : rec.type = .put
  message : ∃ m, rec.message = some m ∧ m.id = k

theorem putLine_of_mem (h : .put k rec ∈ recordEntries c tokens) : PutLine c tokens k rec := by
  simp only [recordEntries, mem_filterMap] at h
  obtain ⟨line, hl, he⟩ := h
  simp only [entryOf] at he
  split at he
  · cases he
  next rec' hrec =>
  split at he
  · split at he
    · next ht =>
      simp only [map_eq_some_iff, Entry.put.injEq] at he
      obtain ⟨m, hm, hk, rfl⟩ := he
      exact ⟨⟨line, hl, hrec⟩, ht, m, hm, hk⟩
    · cases he
    · cases he
  · cases he

theorem putLine_of_mem_replay
    (h : rec ∈ KeyedLog.replay (recordEntries c tokens)) : PutLine c tokens rec.content.id rec := by
  obtain ⟨k, hk⟩ := KeyedLog.mem_replay.mp h
  have hp := KeyedLog.final_of_forall (P := PutLine c tokens) (fun _ _ => putLine_of_mem) hk
  obtain ⟨m, hm, rfl⟩ := hp.message
  simpa [LogRecord.content, hm] using hp

theorem replay_map_put (c : Codec) (tokens : List (List UInt8)) :
    (KeyedLog.replay (recordEntries c tokens)).map (fun rec => Entry.put rec.content.id rec) =
      KeyedLog.compact (recordEntries c tokens) := by
  rw [KeyedLog.replay, KeyedLog.compact, map_filterMap]
  refine filterMap_congr fun k _ => ?_
  cases hk : KeyedLog.final (recordEntries c tokens) k with
  | none => rfl
  | some rec =>
    obtain ⟨m, hm, hmk⟩ := (KeyedLog.final_of_forall (P := PutLine c tokens)
      (fun _ _ => putLine_of_mem) hk).message
    simp [LogRecord.content, hm, hmk]

/-- What compaction relies on in `encoding/json`: an encoding is one line,
and the encoding of a decoded record, whatever its checksum, decodes back
to it. -/
structure Codec.Lawful (c : Codec) : Prop where
  oneLine : ∀ rec b, c.marshal rec = some b → (10 : UInt8) ∉ b ∧ b.getLast? ≠ some 13
  decodes : ∀ line rec, c.unmarshal line = some rec → ∀ sum b,
    c.marshal { rec with checksum := sum } = some b → c.unmarshal b = some { rec with checksum := sum }

/-- The re-encoded records of a log fit the scanner's buffer. -/
def RewriteFits (c : Codec) (content : List UInt8) : Prop :=
  ∀ line ∈ (scan content).1, ∀ rec, c.unmarshal line = some rec → (encode c rec).length < maxTokenSize

theorem scanTokens_of_short (h : ∀ l ∈ ls, l.length < maxTokenSize ∧ l.getLast? ≠ some 13) :
    scanTokens ls = (ls, false) := by
  induction ls with
  | nil => rfl
  | cons l ls ih =>
    obtain ⟨hl, hcr⟩ := h l (by simp)
    have ih := ih fun l' hl' => h l' (by simp [hl'])
    simp [scanTokens, ih, Nat.not_le.mpr hl, dropCR, hcr]

theorem scan_lines (h : ∀ l ∈ lines, (10 : UInt8) ∉ l ∧ l.getLast? ≠ some 13 ∧ l.length < maxTokenSize) :
    scan (lines.flatMap fun l => l ++ [10]) = (lines, false) := by
  rw [scan, Text.lines_flatMap fun l hl => (h l hl).1]
  exact scanTokens_of_short fun l hl => ⟨(h l hl).2.2, (h l hl).2.1⟩

section Rewrite

variable {c : Codec} {content : List UInt8}

/-- The live records of a log, as `CompactLog` writes them. -/
abbrev liveRecords (c : Codec) (content : List UInt8) : List LogRecord :=
  KeyedLog.replay (recordEntries c (scan content).1)

theorem scan_rewritten (hc : c.Lawful) (hfit : RewriteFits c content)
    (henc : ∀ rec ∈ liveRecords c content, c.marshal (resum c rec) = some (encode c rec)) :
    scan ((liveRecords c content).flatMap fun rec => encode c rec ++ [10]) =
      ((liveRecords c content).map (encode c), false) := by
  rw [← flatMap_map (encode c) (fun b => b ++ [10])]
  refine scan_lines fun b hb => ?_
  obtain ⟨rec, hrec, rfl⟩ := List.mem_map.mp hb
  obtain ⟨line, hl, hu⟩ := (putLine_of_mem_replay hrec).read
  obtain ⟨hline, hcr⟩ := hc.oneLine _ _ (henc rec hrec)
  exact ⟨hline, hcr, hfit line hl rec hu⟩

theorem entryOf_encode (hc : c.Lawful) (hrec : rec ∈ liveRecords c content)
    (henc : c.marshal (resum c rec) = some (encode c rec)) :
    entryOf c (fun rec _ => rec) (encode c rec) = some (.put rec.content.id (resum c rec)) := by
  have hp := putLine_of_mem_replay hrec
  obtain ⟨line, -, hu⟩ := hp.read
  obtain ⟨m, hm, -⟩ := hp.message
  have hu' : c.unmarshal (encode c rec) = some (resum c rec) := hc.decodes line rec hu _ _ henc
  have ht : (resum c rec).type = .put := hp.type
  have hm' : (resum c rec).message = some m := hm
  simp [entryOf, hu', validateRecord_resum, ht, hm', LogRecord.content, hm]

theorem recordEntries_rewritten (hc : c.Lawful)
    (henc : ∀ rec ∈ liveRecords c content, c.marshal (resum c rec) = some (encode c rec)) :
    recordEntries c ((liveRecords c content).map (encode c)) =
      (KeyedLog.compact (recordEntries c (scan content).1)).map (Entry.map (resum c)) := by
  rw [← replay_map_put, List.map_map, recordEntries, filterMap_map, ← filterMap_eq_map]
  exact filterMap_congr fun rec hrec => entryOf_encode hc hrec (henc rec hrec)

/-- **Reading a rewritten log.** A file of the re-encoded live records
replays to the same messages. -/
theorem load_rewritten (hc : c.Lawful) (hfit : RewriteFits c content)
    (henc : ∀ rec ∈ liveRecords c content, c.marshal (resum c rec) = some (encode c rec)) :
    (scanRecords c (fun _ m => m) (scan ((liveRecords c content).flatMap fun rec => encode c rec ++ [10])).1).live =
      (scanRecords c (fun _ m => m) (scan content).1).live := by
  rw [scan_rewritten hc hfit henc, load_eq, recordEntries_rewritten hc henc,
    KeyedLog.replay_map, KeyedLog.replay_compact, load_eq, List.map_map]
  rfl

end Rewrite

/-! ## The disk during compaction -/

/-- A system call meets a specification of the disk when each of its
outcomes does. -/
theorem syscall_spec {run : Disk → α × Disk} {fail : Nat → Disk → α × Disk}
    {cut : Nat → Disk → Disk} {Q : α → Disk → Prop} (hrun : ∀ d, P d → Q (run d).1 (run d).2)
    (hfail : ∀ d n, P d → Q (fail n d).1 (fail n d).2) (hcut : ∀ d n, P d → C (cut n d)) :
    Proc.Spec (fun s => P s.disk) (syscall run fail cut) (fun a s => Q a s.disk) (fun s => C s.disk) := by
  intro s hs
  simp only [syscall]
  rcases s.replies with _ | ⟨_ | n | n, rs⟩
  · exact hrun _ hs
  · exact hrun _ hs
  · exact hfail _ n hs
  · exact hcut _ n hs

theorem simpleCall_spec {run : Disk → Option GoString × Disk} {Q : Option GoString → Disk → Prop}
    (hrun : ∀ d, P d → Q (run d).1 (run d).2) (hfail : ∀ d, P d → Q (some ioError) d) (hcut : ∀ d, P d → C d) :
    Proc.Spec (fun s => P s.disk) (simpleCall run) (fun a s => Q a s.disk) (fun s => C s.disk) :=
  syscall_spec hrun (fun d _ => hfail d) (fun d _ => hcut d)

theorem readOnly_spec {x} (hx : x = simpleCall fun d => (none, d)) :
    Proc.Spec (fun s => P s.disk) x (fun _ s => P s.disk) (fun s => P s.disk) := by
  subst hx
  exact simpleCall_spec (Q := fun _ => P) (fun _ h => h) (fun _ h => h) (fun _ h => h)

/-- The log's name still leads to its old bytes. -/
structure Before (filename : GoString) (i : Nat) (content : List UInt8) (d : Disk) : Prop where
  dir : d.dir filename = some i
  data : d.data i = content

/-- And the temporary file holds what has been written so far. -/
structure Writing (filename : GoString) (i : Nat) (content : List UInt8) (tmpFilename : GoString) (j : Nat)
    (written : List UInt8) (d : Disk) : Prop extends Before filename i content d where
  tmpDir : d.dir tmpFilename = some j
  tmpData : d.data j = written

section Steps

variable {c : Codec} {filename tmpFilename : GoString} {i j : Nat} {content written : List UInt8} {d : Disk}

theorem Writing.ne (hne : tmpFilename ≠ filename)
    (h : Writing filename i content tmpFilename j written d) : j ≠ i := by
  rintro rfl
  exact hne (d.dir_inj h.tmpDir h.dir)

theorem Writing.append (hne : tmpFilename ≠ filename) (h : Writing filename i content tmpFilename j written d)
    (bs : List UInt8) : Writing filename i content tmpFilename j (written ++ bs) (d.append j bs) where
  dir := h.dir
  data := (update_of_ne (Ne.symm (h.ne hne)) _ _).trans h.data
  tmpDir := h.tmpDir
  tmpData := (update_self _ _ _).trans (by rw [h.tmpData])

theorem Before.openTrunc (hne : tmpFilename ≠ filename) (h : Before filename i content d) :
    Writing filename i content tmpFilename (d.openTrunc tmpFilename).1 [] (d.openTrunc tmpFilename).2 := by
  unfold Disk.openTrunc
  split
  next j hj =>
    have hij : i ≠ j := fun hij => hne (d.dir_inj hj (hij ▸ h.dir))
    exact ⟨⟨h.dir, (update_of_ne hij _ _).trans h.data⟩, hj, update_self _ _ _⟩
  next hj =>
    have hij : i ≠ d.next := Nat.ne_of_lt (d.dir_lt h.dir)
    exact ⟨⟨(update_of_ne (Ne.symm hne) _ _).trans h.dir,
      (update_of_ne hij _ _).trans h.data⟩,
      update_self _ _ _, update_self _ _ _⟩

theorem Before.remove (hne : tmpFilename ≠ filename) (h : Before filename i content d) :
    Before filename i content (d.remove tmpFilename) :=
  ⟨(update_of_ne (Ne.symm hne) _ _).trans h.dir, h.data⟩

theorem Writing.rename (h : Writing filename i content tmpFilename j written d) :
    (d.rename tmpFilename filename).read filename = some written := by
  simp [Disk.read, Disk.rename, h.tmpDir, h.tmpData]

theorem abandon_spec (hne : tmpFilename ≠ filename) {e} {Q : Option GoString → DiskStorage → Prop}
    {C : DiskStorage → Prop} (hQ : ∀ s, Before filename i content s.disk → Q (some e) s)
    (hC : ∀ s, Before filename i content s.disk → C s) :
    Proc.Spec (fun s => Before filename i content s.disk) (abandon tmpFilename e) Q C := by
  have hremove : Proc.Spec (fun s => Before filename i content s.disk) (osRemove tmpFilename)
      (fun _ s => Before filename i content s.disk) (fun s => Before filename i content s.disk) := by
    refine simpleCall_spec (P := Before filename i content) (Q := fun _ => Before filename i content)
      (C := Before filename i content) (fun d h => ?_) (fun _ h => h) (fun _ h => h)
    split
    · exact h
    · exact h.remove hne
  exact ((readOnly_spec rfl).crash hC).bind fun _ =>
    (hremove.crash hC).bind fun _ => Proc.Spec.pure hQ

/-- The loop either writes every record or gives up with the old log in place. -/
theorem writeCompacted_spec (hne : tmpFilename ≠ filename) (rs : List LogRecord) :
    Proc.Spec (fun s => Writing filename i content tmpFilename j written s.disk) (writeCompacted c tmpFilename j rs)
      (fun r s => match r with
        | some _ => Before filename i content s.disk
        | none =>
          Writing filename i content tmpFilename j
          (written ++ rs.flatMap fun rec => encode c rec ++ [10]) s.disk ∧
            ∀ rec ∈ rs, c.marshal (resum c rec) = some (encode c rec))
      (fun s => Before filename i content s.disk) := by
  induction rs generalizing written with
  | nil => exact Proc.Spec.pure fun s h => ⟨by simpa using h, by simp⟩
  | cons rec rs ih =>
    rw [writeCompacted]
    split
    · exact (abandon_spec hne (fun _ h => h) (fun _ h => h)).weaken (fun _ h => h.toBefore)
        (fun _ _ h => h) (fun _ h => h)
    next b hb =>
      have hb : c.marshal (resum c rec) = some b := hb
      have henc : encode c rec = b := by rw [encode, hb]; rfl
      refine Proc.Spec.bind
        (syscall_spec (P := Writing filename i content tmpFilename j written)
          (Q := fun r d => match r with
            | some _ => Before filename i content d
            | none => Writing filename i content tmpFilename j (written ++ (b ++ [10])) d)
          (C := Before filename i content)
          (fun d h => h.append hne _) (fun d n h => (h.append hne _).toBefore)
          (fun d n h => (h.append hne _).toBefore)) ?_
      rintro (_ | e)
      · refine ih.weaken (fun _ h => h) (fun r s h => ?_) (fun _ h => h)
        cases r with
        | some e => exact h
        | none => simpa [henc, hb, append_assoc] using h
      · exact abandon_spec hne (fun _ h => h) (fun _ h => h)

theorem installCompacted_spec (hne : tmpFilename ≠ filename) :
    Proc.Spec (fun s => Writing filename i content tmpFilename j written s.disk)
      (installCompacted tmpFilename filename)
      (fun _ s => Before filename i content s.disk ∨ s.disk.read filename = some written)
      (fun s => Before filename i content s.disk ∨ s.disk.read filename = some written) := by
  let After (d : Disk) : Prop := Before filename i content d ∨ d.read filename = some written
  have old : ∀ d, Writing filename i content tmpFilename j written d → After d := fun _ h => .inl h.toBefore
  refine ((readOnly_spec rfl).crash fun _ => old _).bind ?_
  rintro (_ | e)
  · refine ((readOnly_spec rfl).crash fun _ => old _).bind fun _ => ?_
    refine Proc.Spec.bind (simpleCall_spec (Q := fun _ => After) (fun d h => ?_) old old) ?_
    · simp only [h.tmpDir, isNone_some, Bool.false_eq_true, if_false]
      exact .inr h.rename
    rintro (_ | e)
    · refine (readOnly_spec (P := After) rfl).bind ?_
      rintro (_ | e)
      · exact (readOnly_spec rfl).bind fun _ => (readOnly_spec rfl).bind fun _ => Proc.Spec.pure fun _ h => h
      · exact Proc.Spec.pure fun _ h => h
    · exact Proc.Spec.pure fun _ h => h
  · exact (abandon_spec hne (fun _ => .inl) (fun _ => .inl)).weaken (fun _ h => h.toBefore)
      (fun _ _ h => h) (fun _ h => h)

end Steps

/-! ## The whole compaction -/

theorem tmpFilename_ne (filename : GoString) : filename ++ ascii ".tmp" ≠ filename := by
  simp [ascii]

theorem closeActive_spec (topic : GoString) (d : Disk) :
    Proc.Spec (fun s => s.disk = d) (closeActive topic) (fun _ s => s.disk = d) (fun s => s.disk = d) := by
  refine Proc.Spec.bind (R := fun _ s => s.disk = d) (fun s h => h) ?_
  rintro (_ | i)
  · exact Proc.Spec.pure fun _ h => h
  · exact (readOnly_spec (P := fun d' => d' = d) rfl).bind fun _ s h => h

theorem readCall_spec {run : Disk → α} {fail : Nat → Disk → α} {R : α → Prop} (hrun : R (run d))
    (hfail : ∀ n, R (fail n d)) :
    Proc.Spec (fun s => s.disk = d) (syscall (fun d => (run d, d)) (fun n d => (fail n d, d)) fun _ d => d)
      (fun a s => s.disk = d ∧ R a) (fun s => s.disk = d) :=
  syscall_spec (P := fun d' => d' = d) (Q := fun a d' => d' = d ∧ R a) (C := fun d' => d' = d)
    (fun _ h => ⟨h, h ▸ hrun⟩) (fun _ n h => ⟨h, h ▸ hfail n⟩) (fun _ _ h => h)

theorem osNotExist_spec (name : GoString) (d : Disk) :
    Proc.Spec (fun s => s.disk = d) (osNotExist name) (fun _ s => s.disk = d ∧ True) (fun s => s.disk = d) :=
  readCall_spec trivial fun _ => trivial

theorem osOpen_spec (name : GoString) (d : Disk) : Proc.Spec (fun s => s.disk = d) (osOpen name)
      (fun r s => s.disk = d ∧ ∀ i, r = .ok i → d.dir name = some i) (fun s => s.disk = d) := by
  refine readCall_spec (fun i hi => ?_) (fun _ => by simp)
  split at hi
  · next h => cases hi; exact h
  · cases hi

theorem osReadAll_spec (i : Nat) (d : Disk) : Proc.Spec (fun s => s.disk = d) (osReadAll i)
      (fun r s => s.disk = d ∧ (r.2 = false → r.1 = d.data i)) (fun s => s.disk = d) :=
  readCall_spec (fun _ => rfl) (by simp)

theorem osOpenTrunc_spec {tmpFilename} (hne : tmpFilename ≠ filename) (hi : d.dir filename = some i) :
    Proc.Spec (fun s => s.disk = d) (osOpenTrunc tmpFilename) (fun r s => match r with
        | .error _ => s.disk = d
        | .ok j => Writing filename i (d.data i) tmpFilename j [] s.disk) (fun s => s.disk = d) := by
  refine syscall_spec (P := fun d' => d' = d)
    (Q := fun (r : Except GoString Nat) d' => match r with
      | .error _ => d' = d
      | .ok j => Writing filename i (d.data i) tmpFilename j [] d') (C := fun d' => d' = d)
    ?_ (fun _ _ h => h) (fun _ _ h => h)
  rintro d' rfl
  exact Before.openTrunc hne ⟨hi, rfl⟩

/-- The state of the log's file after `CompactLog`, returned or crashed: it
is as before, or holds the live records of the file as it was. -/
def Compacted (c : Codec) (filename : GoString) (d d' : Disk) : Prop :=
  d' = d ∨ ∃ i, d.dir filename = some i ∧
    (Before filename i (d.data i) d' ∨
      d'.read filename = some ((liveRecords c (d.data i)).flatMap fun rec => encode c rec ++ [10]) ∧
        ∀ rec ∈ liveRecords c (d.data i), c.marshal (resum c rec) = some (encode c rec))

theorem rewriteLog_spec (hi : d.dir filename = some i) :
    Proc.Spec (fun s => s.disk = d) (rewriteLog c filename i) (fun _ s => Compacted c filename d s.disk)
      (fun s => Compacted c filename d s.disk) := by
  have hne := tmpFilename_ne filename
  have same : ∀ d', d' = d → Compacted c filename d d' := fun _ => .inl
  have old : ∀ d', Before filename i (d.data i) d' → Compacted c filename d d' := fun _ h =>
    .inr ⟨i, hi, .inl h⟩
  refine ((osReadAll_spec i d).crash fun _ => same _).bind ?_
  rintro ⟨content, failed⟩
  refine ((readOnly_spec (P := fun d' => d' = d ∧ (failed = false → content = d.data i)) rfl).crash
    fun _ h => same _ h.1).bind fun _ => ?_
  split
  · exact Proc.Spec.pure fun s h => same _ h.1
  next hok =>
  simp only [Bool.or_eq_true, not_or, Bool.not_eq_true] at hok
  intro s hs
  obtain rfl := hs.2 hok.1
  refine (((osOpenTrunc_spec hne hi).crash fun _ => same _).bind ?_) s hs.1
  rintro (e | j)
  · exact Proc.Spec.pure fun s h => same _ h
  rw [scanRecords_live]
  refine ((writeCompacted_spec hne _).crash fun _ => old _).bind ?_
  rintro (_ | e)
  · intro s hs
    have after : ∀ d', Before filename i (d.data i) d' ∨ d'.read filename = some _ →
      Compacted c filename d d' :=
      fun d' h => .inr ⟨i, hi, h.imp_right fun h => ⟨h, hs.2⟩⟩
    exact (installCompacted_spec hne).weaken (fun _ h => h) (fun _ _ => after _) (fun _ => after _) s hs.1
  · exact Proc.Spec.pure fun s h => old _ h

theorem compactLog_spec (c : Codec) (topic : GoString) (d : Disk) :
    Proc.Spec (fun s => s.disk = d) (compactLog c topic) (fun _ s => Compacted c (logFilename topic) d s.disk)
      (fun s => Compacted c (logFilename topic) d s.disk) := by
  have same : ∀ d', d' = d → Compacted c (logFilename topic) d d' := fun _ => .inl
  rw [compactLog]
  split
  · exact Proc.Spec.pure fun _ => same _
  refine ((closeActive_spec topic d).crash fun _ => same _).bind fun _ => ?_
  refine ((osNotExist_spec _ d).crash fun _ => same _).bind fun missing => ?_
  split
  · exact Proc.Spec.pure fun _ h => same _ h.1
  refine fun s hs => (((osOpen_spec _ d).crash fun _ => same _).bind ?_) s hs.1
  rintro (e | i)
  · exact Proc.Spec.pure fun _ h => same _ h.1
  · intro s hs
    exact rewriteLog_spec (hs.2 i rfl) s hs.1

/-- What `LoadMessages` returns after a compaction that went as far as it
did. -/
theorem loadMessages_of_compacted (hc : c.Lawful)
    (hfit : ∀ content, d.read (logFilename topic) = some content → RewriteFits c content)
    (h : Compacted c (logFilename topic) d d') : (loadMessages c d' topic).1 = (loadMessages c d topic).1 := by
  rcases h with rfl | ⟨i, hi, h⟩
  · rfl
  have hread : d.read (logFilename topic) = some (d.data i) := by rw [Disk.read, hi]; rfl
  simp only [loadMessages]
  split
  · rfl
  rcases h with h | ⟨h, henc⟩
  · have hread' : d'.read (logFilename topic) = some (d.data i) := by
      rw [Disk.read, h.dir, map_some, h.data]
    rw [hread, hread', some_or, some_or]
  · rw [hread, h]
    exact load_rewritten hc (hfit _ hread) henc

/-- **Compaction preserves recovery.** Whatever the log holds and whatever
the replies of the system calls make of `CompactLog` (success, an error, a
crash), `LoadMessages` returns the same messages in the same order. -/
theorem loadMessages_compactLog {c : Codec} (hc : c.Lawful) (s : DiskStorage) (topic : GoString)
    (hfit : ∀ content, s.disk.read (logFilename topic) = some content → RewriteFits c content) :
    (loadMessages c (compactLog c topic s).2.disk topic).1 = (loadMessages c s.disk topic).1 :=
  loadMessages_of_compacted hc hfit ((compactLog_spec c topic s.disk).final rfl)

/-- The codec that knows the lines of a table. -/
def tableCodec (table : List (List UInt8 × LogRecord)) : Codec where
  marshal rec := (table.find? fun p => p.2 = rec).map Prod.fst
  unmarshal line := (table.find? fun p => p.1 = line).map Prod.snd

theorem tableCodec_lawful (h : ∀ p ∈ table, ((10 : UInt8) ∉ p.1 ∧ p.1.getLast? ≠ some 13) ∧
      (tableCodec table).unmarshal p.1 = some p.2) : (tableCodec table).Lawful := by
  have hmem : ∀ rec b, (tableCodec table).marshal rec = some b → (b, rec) ∈ table := by
    intro rec b hb
    simp only [tableCodec, map_eq_some_iff] at hb
    obtain ⟨p, hp, rfl⟩ := hb
    have hrec : p.2 = rec := by simpa using find?_some hp
    exact hrec ▸ mem_of_find?_eq_some hp
  exact ⟨fun rec b hb => (h _ (hmem rec b hb)).1, fun line rec _ sum b hb => (h _ (hmem _ b hb)).2⟩

def sampleMessage : Message where
  id := ascii "m1"
  topic := ascii "orders"
  payload := ascii "hi"
  timestamp := 1704067200000000000
  expiresAt := none
  deliverAt := none
  retryCount := 0
  headers := []

def sampleRecord : LogRecord where
  type := .put
  message := some sampleMessage
  messageID := []
  timestamp := 1704067200000000000
  checksum := 0

/-- The JSON text of `sampleRecord` up to its last brace. -/
def sampleText : GoString :=
  ascii "\x7b\"type\":\"PUT\",\"message\":\x7b\"id\":\"m1\"," ++
    ascii "\"topic\":\"orders\",\"payload\":\"aGk=\"," ++
    ascii "\"timestamp\":\"2024-01-01T00:00:00Z\",\"retry_count\":0" ++
    ascii "\x7d,\"timestamp\":\"2024-01-01T00:00:00Z\""

/-- The two lines `encoding/json` writes for `sampleRecord`, without and
with its checksum. -/
def sampleTable : List (List UInt8 × LogRecord) :=
  [(sampleText ++ ascii "\x7d", sampleRecord),
    (sampleText ++ ascii ",\"checksum\":3269633716\x7d", { sampleRecord with checksum := 3269633716 })]

def sampleLog : List UInt8 :=
  ascii "garbage" ++ [10] ++ sampleText ++ ascii "\x7d" ++ [10] ++ sampleText ++ ascii "\x7d" ++ [10]

def sampleDisk : DiskStorage where
  disk :=
    { dir := fun p => if p = logFilename (ascii "orders") then some 0 else none
      data := fun _ => sampleLog
      next := 1
      dir_lt := by intro p i h; split at h <;> simp_all
      dir_inj := by intro p q i hp hq; split at hp <;> split at hq <;> simp_all }
  activeFiles := fun _ => none
  syncWrites := false
  replies := []

theorem crc32_sampleText : crc32 (sampleText ++ ascii "\x7d") = 3269633716 := by
  have h1 : (ascii "\x7b\"type\":\"PUT\",\"message\":\x7b\"id\":\"m1\",").foldl crc32Byte 4294967295 = 1448784711 := by
    decide +kernel
  have h2 : (ascii "\"topic\":\"orders\",\"payload\":\"aGk=\",").foldl crc32Byte 1448784711 = 3372863857 := by
    decide +kernel
  have h3 :
    (ascii "\"timestamp\":\"2024-01-01T00:00:00Z\",\"retry_count\":0").foldl crc32Byte 3372863857 = 3121537141 := by
    decide +kernel
  have h4 : (ascii "\x7d,\"timestamp\":\"2024-01-01T00:00:00Z\"").foldl crc32Byte 3121537141 = 3318520856 := by
    decide +kernel
  rw [crc32, sampleText]
  simp only [foldl_append]
  rw [show (0xFFFFFFFF : UInt32) = 4294967295 from rfl, h1, h2, h3, h4]
  decide +kernel

theorem encode_sampleRecord :
    encode (tableCodec sampleTable) sampleRecord = sampleText ++ ascii ",\"checksum\":3269633716\x7d" := by
  have hm : (tableCodec sampleTable).marshal sampleRecord = some (sampleText ++ ascii "\x7d") := by decide +kernel
  have hsum : resum (tableCodec sampleTable) sampleRecord = { sampleRecord with checksum := 3269633716 } := by
    rw [resum, checksumFor, show { sampleRecord with checksum := 0 } = sampleRecord from rfl, hm]
    simp only [crc32_sampleText]
  rw [encode, hsum]
  decide +kernel

theorem loadMessages_compactLog_sample : (tableCodec sampleTable).Lawful ∧ (loadMessages (tableCodec sampleTable)
        (compactLog (tableCodec sampleTable) (ascii "orders") sampleDisk).2.disk (ascii "orders")).1 =
          [sampleMessage, sampleMessage] := by
  have hc : (tableCodec sampleTable).Lawful := tableCodec_lawful (by decide +kernel)
  refine ⟨hc, (loadMessages_compactLog hc sampleDisk (ascii "orders") ?_).trans (by decide +kernel)⟩
  intro content h
  obtain rfl : sampleLog = content := by simpa [Disk.read, sampleDisk] using h
  have hlines : ∀ line ∈ (scan sampleLog).1, (tableCodec sampleTable).unmarshal line = none ∨
      (tableCodec sampleTable).unmarshal line = some sampleRecord := by decide +kernel
  intro line hline rec hrec
  rcases hlines line hline with hl | hl
  · cases hl.symm.trans hrec
  · cases hl.symm.trans hrec
    rw [encode_sampleRecord]
    decide +kernel

end TinyMQ
