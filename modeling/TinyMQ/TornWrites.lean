/-
Failed writes: a write that stores a first part of its bytes and reports an
error leaves a line that has begun.

What comes next is written behind it, on the same line, and the line is no
record. `torn_writes_harmless` says which failures leave the log as if they
had not happened: those that stored nothing, and one at the end that stored
less than the text of its record.
-/
import TinyMQ.LogLines

namespace TinyMQ

open List Option Function Text KeyedLog Proc DiskStorage
open JsonText

/-- A call of `writeRecord`; a failed write has stored that many bytes. -/
structure Attempt where
  record : LogRecord
  torn : Option Nat

namespace Attempt

/-- The replies of the system calls: the log is opened if it is not. -/
def script (a : Attempt) (d : DiskStorage) (topic : GoString) : List Reply :=
  match a.torn with
  | none => []
  | some n => if (d.activeFiles topic).isSome then [.err n] else [.ok, .err n]

/-- The bytes the call adds to the log. -/
def stored (c : Codec) (a : Attempt) : List UInt8 :=
  match c.marshal (resum c a.record), a.torn with
  | none, _ => []
  | some b, none => b ++ [10]
  | some b, some n => (b ++ [10]).take n

/-- Whether the call returns no error. -/
def succeeds (c : Codec) (a : Attempt) : Bool := a.torn.isNone && (c.marshal (resum c a.record)).isSome

end Attempt

def attempt (c : Codec) (topic : GoString) (a : Attempt) : Proc DiskStorage (Option GoString) := fun d =>
  writeRecord c topic a.record { d with replies := a.script d topic }

/-- Calls one after the other; those that returned `nil`. -/
def attempts (c : Codec) (topic : GoString) : List Attempt → Proc DiskStorage (List Attempt)
  | [] => return []
  | a :: as => do
    let err ← attempt c topic a
    let rest ← attempts c topic as
    return if err = none then a :: rest else rest

/-! ## What the calls leave in the log -/

section Run

variable {c : Codec} {d : DiskStorage} {topic : GoString} {a : Attempt} {as : List Attempt}

theorem getOrOpenFile_script (rs : List Reply) :
    getOrOpenFile topic { d with replies := if (d.activeFiles topic).isSome then rs else .ok :: rs } =
      (some (.ok (d.handle topic).1), { d with
        disk := (d.handle topic).2
        activeFiles := update d.activeFiles topic (some (d.handle topic).1)
        replies := rs }) := by
  unfold handle
  refine (bind_eq rfl).trans ?_
  cases hactive : d.activeFiles topic with
  | some i =>
    have hsame : update d.activeFiles topic (some i) = d.activeFiles := by rw [← hactive, update_eq_self]
    simp [hsame]
  | none =>
    simp only [isSome_none, Bool.false_eq_true, if_false]
    exact (bind_eq rfl).trans rfl

/-- **A call**: what it adds to the log and when it succeeds. -/
theorem attempt_eq (hsafe : isSafePath topic = none) (a : Attempt) (d : DiskStorage) :
    ∃ r rs, attempt c topic a d = (some r, d.write topic (a.stored c) rs) ∧ (r = none ↔ a.succeeds c = true) := by
  unfold attempt Attempt.script Attempt.stored Attempt.succeeds
  cases hb : c.marshal (resum c a.record) with
  | none =>
    have hsum : c.marshal { a.record with checksum := checksumFor c a.record } = none := hb
    have hopen : ∃ rs, getOrOpenFile topic { d with replies := a.script d topic } =
        (some (.ok (d.handle topic).1), { d with
          disk := (d.handle topic).2
          activeFiles := update d.activeFiles topic (some (d.handle topic).1)
          replies := rs }) := by
      unfold Attempt.script
      cases a.torn with
      | none => exact ⟨[], getOrOpenFile_quiet (d := { d with replies := [] }) rfl⟩
      | some n => exact ⟨[.err n], getOrOpenFile_script [.err n]⟩
    obtain ⟨rs, hopen⟩ := hopen
    refine ⟨some (ascii "json: unsupported value"), rs, ?_, by simp⟩
    simp only [writeRecord, hsafe]
    refine (bind_eq hopen).trans ?_
    simp [hsum, write, Disk.append]
  | some b =>
    cases htorn : a.torn with
    | none => exact ⟨none, [], writeRecord_quiet (d := { d with replies := [] }) hsafe hb rfl, by simp⟩
    | some n =>
      have hsum : c.marshal { a.record with checksum := checksumFor c a.record } = some b := hb
      refine ⟨some ioError, [], ?_, by simp⟩
      simp only [writeRecord, hsafe]
      refine (bind_eq (getOrOpenFile_script [.err n])).trans ?_
      simp only [hsum]
      exact (bind_eq rfl).trans rfl

/-- What a run leaves: the log has got the bytes of every call, and the
other files are as they were. -/
structure After (topic : GoString) (bs : List UInt8) (d d' : DiskStorage) : Prop where
  handle : d'.HandleOk topic
  read : d'.disk.read (logFilename topic) = some ((d.disk.read (logFilename topic)).getD [] ++ bs)
  other : ∀ f, f ≠ logFilename topic → d'.disk.read f = d.disk.read f

theorem After.write (h : d.HandleOk topic) (bs : List UInt8) (rs : List Reply) :
    After topic bs d (d.write topic bs rs) where
  handle := handleOk_write h h
  read := by rw [read_write h, if_pos rfl]
  other f hf := by rw [read_write h, if_neg hf]

theorem After.trans {bs bs' d₁ d₂} (h : After topic bs d d₁) (h' : After topic bs' d₁ d₂) :
    After topic (bs ++ bs') d d₂ where
  handle := h'.handle
  read := by rw [h'.read, h.read, getD_some, append_assoc]
  other f hf := (h'.other f hf).trans (h.other f hf)

/-- **A run of calls.** -/
theorem attempts_eq (hsafe : isSafePath topic = none) (h : d.HandleOk topic) (as : List Attempt) :
    ∃ d', attempts c topic as d = (some (as.filter (Attempt.succeeds c)), d') ∧
      (as = [] ∧ d' = d ∨ After topic (as.flatMap (Attempt.stored c)) d d') := by
  induction as generalizing d with
  | nil => exact ⟨d, rfl, .inl ⟨rfl, rfl⟩⟩
  | cons a as ih =>
    obtain ⟨r, rs, hcall, hr⟩ := attempt_eq (c := c) hsafe a d
    have hafter := After.write h (a.stored c) rs
    obtain ⟨d', hrest, hd'⟩ := ih hafter.handle
    refine ⟨d', ?_, .inr ?_⟩
    · refine (bind_eq hcall).trans ((bind_eq hrest).trans ?_)
      by_cases hok : a.succeeds c = true
      · simp [hr.mpr hok, hok]
      · simp [mt hr.mp hok, hok]
    · rw [flatMap_cons]
      rcases hd' with ⟨rfl, rfl⟩ | hd'
      · simpa using hafter
      · exact hafter.trans hd'

end Run

/-! ## Reading a log with a torn end -/

section Load

variable {c : Codec} {content p : List UInt8}

/-- A file of whole lines. -/
def WholeLines (content : List UInt8) : Prop := content = [] ∨ content.getLast? = some 10

theorem WholeLines.append {bs} (h : WholeLines content) (hbs : WholeLines bs) : WholeLines (content ++ bs) := by
  rcases hbs with rfl | hbs
  · rwa [append_nil]
  · exact .inr (by rw [getLast?_append, hbs, some_or])

theorem WholeLines.lines_append (h : WholeLines content) (p : List UInt8) :
    lines 10 (content ++ p) = lines 10 content ++ lines 10 p := by
  rcases h with rfl | h
  · rfl
  · obtain ⟨s, rfl⟩ := getLast?_eq_some_iff.mp h
    exact lines_concat_append 10 s p

theorem scanTokens_append {ls ls'} (h : (scanTokens ls').2 = false) :
    (scanTokens (ls ++ ls')).2 = (scanTokens ls).2 ∧
      ((scanTokens (ls ++ ls')).1 = (scanTokens ls).1 ∨
        (scanTokens (ls ++ ls')).1 = (scanTokens ls).1 ++ (scanTokens ls').1) := by
  induction ls with
  | nil => exact ⟨h, .inr rfl⟩
  | cons l ls ih =>
    simp only [cons_append, scanTokens]
    split
    · exact ⟨rfl, .inl rfl⟩
    · obtain ⟨hflag, htokens⟩ := ih
      refine ⟨hflag, htokens.imp (fun ht => ?_) fun ht => ?_⟩
      · rw [ht]
      · rw [ht, cons_append]

theorem scanRecords_concat {β : Type} (pick : LogRecord → Message → β) {tokens}
    (h : c.unmarshal p = none) : (scanRecords c pick (tokens ++ [p])).live = (scanRecords c pick tokens).live := by
  simp [scanRecords_live, entryOf, h]

/-- **A torn end is not seen**: behind whole lines, a line that is no record
changes nothing. -/
theorem scan_torn (h : WholeLines content) (hline : 10 ∉ p) (hcr : p.getLast? ≠ some 13)
    (hlen : p.length < maxTokenSize)
    (hp : c.unmarshal p = none) :
    (scanRecords c (fun _ m => m) (scan (content ++ p)).1).live = (scanRecords c (fun _ m => m) (scan content).1).live ∧
      (scan (content ++ p)).2 = (scan content).2 := by
  by_cases hnil : p = []
  · rw [hnil, append_nil]
    exact ⟨rfl, rfl⟩
  have hlast : scanTokens (lines 10 p) = ([p], false) := by
    rw [lines_unterminated hline hnil]
    exact scanTokens_of_short (by simp [hlen, hcr])
  obtain ⟨hflag, htokens⟩ : _ ∧ _ := @scanTokens_append (lines 10 content) (lines 10 p) (by rw [hlast])
  rw [scan, scan, h.lines_append]
  refine ⟨?_, hflag⟩
  rcases htokens with ht | ht
  · rw [ht]
  · rw [ht, hlast]
    exact scanRecords_concat _ hp

end Load

/-! ## Failures that do no harm -/

/-- Failed writes that store nothing do no harm; one that stores less than
the text of its record does none if nothing is stored behind it. -/
def Harmless (c : Codec) : List Attempt → Prop
  | [] => True
  | a :: as =>
    match a.torn with
    | none => Harmless c as
    | some 0 => Harmless c as
    | some (n + 1) => (∀ b, c.marshal (resum c a.record) = some b → n + 1 < b.length ∧ n + 1 < maxTokenSize) ∧
        ∀ a' ∈ as, a'.torn = some 0

section Harmless

variable {tt : TimeText} {d : DiskStorage} {topic : GoString} {as : List Attempt}

/-- The bytes of the calls that succeed, and what a torn write left behind
them. -/
theorem Harmless.stored {c} (h : Harmless c as) : ∃ p, as.flatMap (Attempt.stored c) =
    (as.filter (Attempt.succeeds c)).flatMap (Attempt.stored c) ++ p ∧
      (p = [] ∨ ∃ rec b q, c.marshal rec = some b ∧ b = p ++ q ∧ q ≠ [] ∧ p.length < maxTokenSize) := by
  induction as with
  | nil => exact ⟨[], rfl, .inl rfl⟩
  | cons a as ih =>
    have hkept : ∀ a' : Attempt, a'.succeeds c = false → (a'.torn = none ∨ a'.torn = some 0) → a'.stored c = [] := by
      intro a' hfails htorn
      unfold Attempt.stored
      rcases htorn with htorn | htorn
      · have hnone : c.marshal (resum c a'.record) = none := by simpa [Attempt.succeeds, htorn] using hfails
        rw [hnone]
      · rw [htorn]
        cases c.marshal (resum c a'.record) <;> rfl
    simp only [Harmless] at h
    split at h
    next htorn =>
      obtain ⟨p, hp, hpart⟩ := ih h
      refine ⟨p, ?_, hpart⟩
      by_cases hok : a.succeeds c = true
      · rw [flatMap_cons, filter_cons_of_pos hok, flatMap_cons, hp, append_assoc]
      · rw [flatMap_cons, filter_cons_of_neg hok, hkept a (by simpa using hok) (.inl htorn), hp, nil_append]
    next htorn =>
      have hfails : a.succeeds c = false := by simp [Attempt.succeeds, htorn]
      obtain ⟨p, hp, hpart⟩ := ih h
      refine ⟨p, ?_, hpart⟩
      rw [flatMap_cons, filter_cons_of_neg (by simp [hfails]), hkept a hfails (.inr htorn), hp, nil_append]
    next n htorn =>
      obtain ⟨hpart, hrest⟩ := h
      have hfails : a.succeeds c = false := by simp [Attempt.succeeds, htorn]
      have hnone : ∀ a' ∈ as, a'.succeeds c = false := fun a' ha' => by simp [Attempt.succeeds, hrest a' ha']
      have hempty : as.flatMap (Attempt.stored c) = [] :=
        flatMap_eq_nil_iff.mpr fun a' ha' => hkept a' (hnone a' ha') (.inr (hrest a' ha'))
      have hfilter : as.filter (Attempt.succeeds c) = [] := filter_eq_nil_iff.mpr fun a' ha' => by simp [hnone a' ha']
      refine ⟨a.stored c, ?_, ?_⟩
      · rw [flatMap_cons, filter_cons_of_neg (by simp [hfails]), hempty, hfilter, append_nil]
        rfl
      · unfold Attempt.stored
        cases hb : c.marshal (resum c a.record) with
        | none => exact .inl rfl
        | some b =>
          obtain ⟨hlt, hfit⟩ := hpart b hb
          rw [htorn]
          dsimp only
          rw [take_append_of_le_length hlt.le]
          refine .inr ⟨_, b, b.drop (n + 1), hb, (take_append_drop _ _).symm, ?_, ?_⟩
          · simpa using hlt
          · rw [length_take]
            omega

theorem unmarshal_part {rec b p q} (hb : (jsonCodec tt).marshal rec = some b) (hpq : b = p ++ q)
    (hq : q ≠ []) : (jsonCodec tt).unmarshal p = none := by
  obtain ⟨ms, hms, rfl⟩ := map_eq_some_iff.mp hb
  simp [jsonCodec, parse_part (written_recordMembers hms).obj.1 hpq hq]

theorem wholeLines_stored {c} (as : List Attempt) :
    WholeLines ((as.filter (Attempt.succeeds c)).flatMap (Attempt.stored c)) := by
  induction as with
  | nil => exact .inl rfl
  | cons a as ih =>
    by_cases hok : a.succeeds c = true
    · rw [filter_cons_of_pos hok, flatMap_cons]
      simp only [Attempt.succeeds, Bool.and_eq_true, isNone_iff_eq_none] at hok
      obtain ⟨b, hb⟩ := isSome_iff_exists.mp hok.2
      have hstored : a.stored c = b ++ [10] := by simp [Attempt.stored, hb, hok.1]
      exact WholeLines.append (.inr (by simp [hstored])) ih
    · rwa [filter_cons_of_neg hok]

/-- `LoadMessages` reads the topic's own log if no other one is hidden
behind it; a log that is missing is empty. -/
theorem loadMessages_own {c} {d : Disk} (hsafe : isSafePath topic = none)
    (hlegacy : d.read (logFilename topic) = none → d.read (legacyFilename topic) = none) :
    loadMessages c d topic =
      ((scanRecords c (fun _ m => m) (scan ((d.read (logFilename topic)).getD [])).1).live,
        if (scan ((d.read (logFilename topic)).getD [])).2 then some tooLongError else none) := by
  cases hread : d.read (logFilename topic) with
  | some content => simp [loadMessages, hsafe, hread]
  | none =>
      simp [loadMessages, hsafe, hread, hlegacy hread, scan, lines, scanTokens, scanRecords, Scan.live, Scan.empty]

theorem attempts_unsafe {c e} (hsafe : isSafePath topic = some e) (as : List Attempt) (d : DiskStorage) :
    ∃ d', attempts c topic as d = (some [], d') := by
  induction as generalizing d with
  | nil => exact ⟨d, rfl⟩
  | cons a as ih =>
    have hcall : attempt c topic a d = (some (some e), { d with replies := a.script d topic }) := by
      simp [attempt, writeRecord, hsafe]
    obtain ⟨d', hrest⟩ := ih { d with replies := a.script d topic }
    exact ⟨d', (bind_eq hcall).trans ((bind_eq hrest).trans (by simp))⟩

theorem attempts_read {c} (hsafe : isSafePath topic = none) (h : d.HandleOk topic)
    (hlegacy : d.disk.read (logFilename topic) = none → d.disk.read (legacyFilename topic) = none) (as : List Attempt) :
    ∃ d', attempts c topic as d = (some (as.filter (Attempt.succeeds c)), d') ∧
      (d'.disk.read (logFilename topic)).getD [] =
        (d.disk.read (logFilename topic)).getD [] ++ as.flatMap (Attempt.stored c) ∧
      (d'.disk.read (logFilename topic) = none → d'.disk.read (legacyFilename topic) = none) := by
  obtain ⟨d', hrun, ⟨rfl, rfl⟩ | hafter⟩ := attempts_eq (c := c) hsafe h as
  · exact ⟨d', hrun, by simp, hlegacy⟩
  · exact ⟨d', hrun, by rw [hafter.read, getD_some], fun hnone => by simp [hafter.read] at hnone⟩

/-- **Failures that do no harm**: `LoadMessages` returns what it would if
only the calls that returned `nil` had been made. -/
theorem torn_writes_harmless (hhandle : d.HandleOk topic)
    (hlines : WholeLines ((d.disk.read (logFilename topic)).getD []))
    (hlegacy : d.disk.read (logFilename topic) = none → d.disk.read (legacyFilename topic) = none)
    (hharmless : Harmless (jsonCodec tt) as) :
    ∃ ok d', attempts (jsonCodec tt) topic as d = (some ok, d') ∧ (attempts (jsonCodec tt) topic ok d).1 = some ok ∧
      loadMessages (jsonCodec tt) d'.disk topic =
        loadMessages (jsonCodec tt) (attempts (jsonCodec tt) topic ok d).2.disk topic := by
  cases hsafe : isSafePath topic with
  | some e =>
    obtain ⟨d', hrun⟩ := attempts_unsafe (c := jsonCodec tt) hsafe as d
    exact ⟨[], d', hrun, rfl, by simp [loadMessages, hsafe]⟩
  | none =>
    obtain ⟨d₁, hrun₁, hread₁, hlegacy₁⟩ := attempts_read (c := jsonCodec tt) hsafe hhandle hlegacy as
    obtain ⟨d₂, hrun₂, hread₂, hlegacy₂⟩ := attempts_read (c := jsonCodec tt) hsafe hhandle hlegacy
      (as.filter (Attempt.succeeds (jsonCodec tt)))
    rw [List.filter_filter, filter_congr fun a _ => Bool.and_self _] at hrun₂
    obtain ⟨p, hstored, hp⟩ := hharmless.stored
    refine ⟨_, d₁, hrun₁, by rw [hrun₂], ?_⟩
    rw [hrun₂, loadMessages_own hsafe hlegacy₁, loadMessages_own hsafe hlegacy₂, hread₁,
      hread₂, hstored, ← append_assoc]
    rcases hp with rfl | ⟨rec, b, q, hb, hpq, hq, hfit⟩
    · rw [append_nil]
    · have hbytes : ∀ x ∈ p, 32 ≤ x := fun x hx => marshal_bytes hb x (by rw [hpq]; exact mem_append_left q hx)
      obtain ⟨hline, hcr⟩ := oneLine_of_bytes hbytes
      obtain ⟨hlive, hflag⟩ :=
        scan_torn (hlines.append (wholeLines_stored as)) hline hcr hfit (unmarshal_part hb hpq hq)
      rw [hlive, hflag]

end Harmless

def ackAttempt (torn : Option Nat) : Attempt := ⟨(LogEntry.ack (ascii "m0")).record 0, torn⟩

def putAttempt : Attempt := ⟨(LogEntry.put taggedMessage).record 0, none⟩

theorem torn_writes_harmless_sample :
    Harmless (jsonCodec unixText) [ackAttempt (some 0), putAttempt, ackAttempt (some 5)] ∧
      ∃ ok d',
        attempts (jsonCodec unixText) (ascii "orders") [ackAttempt (some 0), putAttempt, ackAttempt (some 5)] .fresh =
          (some ok, d') ∧
        loadMessages (jsonCodec unixText) d'.disk (ascii "orders") =
          loadMessages (jsonCodec unixText) (attempts (jsonCodec unixText) (ascii "orders") ok .fresh).2.disk
            (ascii "orders") := by
  have hharmless : Harmless (jsonCodec unixText) [ackAttempt (some 0), putAttempt, ackAttempt (some 5)] := by
    refine ⟨fun b hb => ?_, by simp⟩
    change 5 < b.length ∧ 5 < maxTokenSize
    obtain ⟨rest, rfl⟩ := marshal_head hb
    have hsize := length_marshal_le hb
    have hbound : (resum (jsonCodec unixText) (ackAttempt (some 5)).record).textSize < maxTokenSize := by decide
    have hhead : (ascii "\x7b\"type\":").length = 8 := by decide
    rw [length_append] at hsize ⊢
    omega
  obtain ⟨ok, d', hrun, -, hload⟩ :=
    torn_writes_harmless (handleOk_fresh (ascii "orders")) (.inl rfl) (fun _ => rfl)
    hharmless
  exact ⟨hharmless, ok, d', hrun, hload⟩

theorem unmarshal_twice (tt : TimeText) (rest : List UInt8) :
    (jsonCodec tt).unmarshal (ascii "\x7b\"typ" ++ (ascii "\x7b\"type\":" ++ rest)) = none := by
  have hparse : parse (ascii "\x7b\"typ" ++ (ascii "\x7b\"type\":" ++ rest)) = none := rfl
  simp [jsonCodec, hparse]

theorem load_put {tt m now b}
    (hb : (jsonCodec tt).marshal (resum (jsonCodec tt) ((LogEntry.put m).record now)) = some b)
    (htexts : ((LogEntry.put m).record now).validTexts = true) :
    (scanRecords (jsonCodec tt) (fun _ m => m) [b]).live = [m.repaired] := by
  have hvalid : validateRecord (jsonCodec tt) (resum (jsonCodec tt) ((LogEntry.put m).record now)).repaired = true :=
    validateRecord_repaired.mpr (.inr (checksumFor_repaired htexts))
  have htype : (resum (jsonCodec tt) ((LogEntry.put m).record now)).repaired.type = .put := by
    have hput : RecordType.ofText (Utf8.sanitize RecordType.put.text) = .put := by decide
    exact hput
  have hmessage : (resum (jsonCodec tt) ((LogEntry.put m).record now)).repaired.message = some m.repaired := rfl
  simp [scanRecords_live, entryOf, unmarshal_marshal hb, hvalid, htype, hmessage, replay, putKeys,
    KeyedLog.Entry.putKey?, final, KeyedLog.Entry.apply]

/-- **A record is lost behind a torn one**: its own `AppendPut` returned
`nil`, and `LoadMessages` does not return the message. -/
theorem torn_write_hides_record :
    ∃ d' d'', attempts (jsonCodec unixText) (ascii "orders") [ackAttempt (some 5), putAttempt] .fresh =
      (some [putAttempt], d') ∧
      attempts (jsonCodec unixText) (ascii "orders") [putAttempt] .fresh = (some [putAttempt], d'') ∧
      loadMessages (jsonCodec unixText) d'.disk (ascii "orders") = ([], none) ∧
      loadMessages (jsonCodec unixText) d''.disk (ascii "orders") = ([taggedMessage], none) := by
  have hsafe : isSafePath (ascii "orders") = none := by decide
  have hput : putAttempt.succeeds (jsonCodec unixText) = true := by decide +kernel
  have hack : (ackAttempt (some 5)).succeeds (jsonCodec unixText) = false := rfl
  have hackText :
    ((jsonCodec unixText).marshal (resum (jsonCodec unixText) (ackAttempt (some 5)).record)).isSome := by decide +kernel
  obtain ⟨d₁, hrun₁, hread₁, hlegacy₁⟩ := attempts_read (c := jsonCodec unixText) hsafe (handleOk_fresh _)
    (fun _ => rfl) [ackAttempt (some 5), putAttempt]
  obtain ⟨d₂, hrun₂, hread₂, hlegacy₂⟩ := attempts_read (c := jsonCodec unixText) hsafe (handleOk_fresh _)
    (fun _ => rfl) [putAttempt]
  obtain ⟨b, hb⟩ := isSome_iff_exists.mp (Bool.and_eq_true_iff.mp hput).2
  obtain ⟨b₀, hb₀⟩ := isSome_iff_exists.mp hackText
  have hstored : putAttempt.stored (jsonCodec unixText) = b ++ [10] := by
    rw [Attempt.stored, hb]
    rfl
  have htorn : (ackAttempt (some 5)).stored (jsonCodec unixText) = ascii "\x7b\"typ" := by
    obtain ⟨rest, rfl⟩ := marshal_head hb₀
    rw [Attempt.stored, hb₀]
    rfl
  have hlen : (ascii "\x7b\"typ" ++ b).length < maxTokenSize := by
    have hsize := length_marshal_le hb
    have hbound : (resum (jsonCodec unixText) putAttempt.record).textSize + 5 < maxTokenSize := by decide
    have hhead : (ascii "\x7b\"typ").length = 5 := by decide
    rw [length_append]
    omega
  have hbytes := marshal_bytes hb
  have hbytes' : ∀ x ∈ ascii "\x7b\"typ" ++ b, 32 ≤ x := forall_mem_append.mpr ⟨by decide +kernel, hbytes⟩
  have hnone : (jsonCodec unixText).unmarshal (ascii "\x7b\"typ" ++ b) = none := by
    obtain ⟨rest, rfl⟩ := marshal_head hb
    exact unmarshal_twice _ rest
  refine ⟨d₁, d₂, by simpa [hput, hack] using hrun₁, by simpa [hput] using hrun₂, ?_, ?_⟩
  · have hcontent : (d₁.disk.read (logFilename (ascii "orders"))).getD [] = ascii "\x7b\"typ" ++ b ++ [10] := by
      rw [hread₁]
      simp [hstored, htorn, fresh, Disk.read]
    rw [loadMessages_own hsafe hlegacy₁, hcontent,
      scan_line (oneLine_of_bytes hbytes').1 (oneLine_of_bytes hbytes').2 hlen]
    simp [scanRecords_live, entryOf, hnone]
  · have hcontent : (d₂.disk.read (logFilename (ascii "orders"))).getD [] = b ++ [10] := by
      rw [hread₂]
      simp [hstored, fresh, Disk.read]
    have hshort : b.length < maxTokenSize := by
      rw [length_append] at hlen
      omega
    rw [loadMessages_own hsafe hlegacy₂, hcontent,
      scan_line (oneLine_of_bytes hbytes).1 (oneLine_of_bytes hbytes).2 hshort, load_put hb (by decide +kernel)]
    rfl

end TinyMQ
