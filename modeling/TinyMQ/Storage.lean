/-
The write-ahead log on disk (`internal/storage`): records as lines of one
file per topic, their checksums, the replay at startup and the rewriting of
a log by compaction.

The operating system is explicit. A file name leads to an inode and an
inode to its bytes, so that a rename or a removal leaves open handles where
they are. Every system call takes its outcome from a script of replies: it
succeeds, fails (a write may then have stored a first part of its bytes),
or the process dies in it. What holds for every script holds for every
pattern of failures.

`encoding/json` is a parameter (`Codec`).
-/
import TinyMQ.Names
import Mathlib.Algebra.Group.Nat.Defs
import TinyMQ.Lib.KeyedLog
import TinyMQ.Lib.Proc

namespace TinyMQ

open Function

/-! ## Records -/

/-- The `type` of a record: `RecordPut`, `RecordAck`, or any other text a
file may hold. -/
inductive RecordType
  | put
  | ack
  | other (text : GoString)
  deriving DecidableEq, Repr

structure LogRecord where
  type : RecordType
  message : Option Message
  messageID : GoString
  timestamp : Time
  checksum : UInt32
  deriving DecidableEq, Repr

/-- `json.Marshal` and `json.Unmarshal` on log records. -/
structure Codec where
  marshal : LogRecord → Option (List UInt8)
  unmarshal : List UInt8 → Option LogRecord

/-- One byte of the reflected CRC-32 with the IEEE polynomial. -/
def crc32Byte (crc : UInt32) (b : UInt8) : UInt32 :=
  (fun c : UInt32 => if c &&& 1 = 1 then (c >>> 1) ^^^ 0xEDB88320 else c >>> 1)^[8] (crc ^^^ b.toUInt32)

/-- `crc32.ChecksumIEEE`. -/
def crc32 (bs : List UInt8) : UInt32 := bs.foldl crc32Byte 0xFFFFFFFF ^^^ 0xFFFFFFFF

example : crc32 (ascii "123456789") = 0xCBF43926 := by decide +kernel

def checksumFor (c : Codec) (rec : LogRecord) : UInt32 :=
  match c.marshal { rec with checksum := 0 } with
  | none => 0
  | some b => crc32 b

def validateRecord (c : Codec) (rec : LogRecord) : Bool :=
  if rec.checksum = 0 then true else checksumFor c rec = rec.checksum

/-! ## Scanning a file -/

/-- The limit of `scanner.Buffer`. -/
def maxTokenSize : Nat := 4 * 2 ^ 20

/-- `bufio.ScanLines` drops one carriage return before the newline. -/
def dropCR (line : List UInt8) : List UInt8 := if line.getLast? = some 13 then line.dropLast else line

/-- The tokens `bufio.Scanner` returns for these lines, and whether it
stopped at one that does not fit its buffer. -/
def scanTokens : List (List UInt8) → List (List UInt8) × Bool
  | [] => ([], false)
  | line :: rest =>
    if maxTokenSize ≤ line.length then ([], true)
    else (dropCR line :: (scanTokens rest).1, (scanTokens rest).2)

def scan (content : List UInt8) : List (List UInt8) × Bool := scanTokens (Text.lines 10 content)

/-- The text of `bufio.ErrTooLong`. -/
def tooLongError : GoString := ascii "bufio.Scanner: token too long"

/-- What a scan of the records has gathered: the table of live values, the
IDs in order of their puts, the records dropped. -/
structure Scan (β : Type) where
  msgMap : GoString → Option β
  orderedIDs : List GoString
  corruptedCount : Nat

def Scan.empty {β : Type} : Scan β := ⟨fun _ => none, [], 0⟩

/-- The body of the two scan loops. `LoadMessages` keeps the message of a
put (`pick rec m = m`), `CompactLog` the whole record. -/
def Scan.line {β : Type} (c : Codec) (pick : LogRecord → Message → β) (st : Scan β) (line : List UInt8) : Scan β :=
  match c.unmarshal line with
  | none => { st with corruptedCount := st.corruptedCount + 1 }
  | some rec =>
    if validateRecord c rec then
      match rec.type with
      | .put =>
        match rec.message with
        | some m => { st with
            msgMap := update st.msgMap m.id (some (pick rec m))
            orderedIDs := st.orderedIDs ++ [m.id] }
        | none => st
      | .ack => { st with msgMap := update st.msgMap rec.messageID none }
      | .other _ => st
    else { st with corruptedCount := st.corruptedCount + 1 }

/-- The live values in the order of `orderedIDs`. -/
def Scan.live {β : Type} (st : Scan β) : List β := st.orderedIDs.filterMap st.msgMap

def scanRecords {β : Type} (c : Codec) (pick : LogRecord → Message → β) (tokens : List (List UInt8)) : Scan β :=
  tokens.foldl (Scan.line c pick) .empty

/-! ## The disk -/

/-- The data directory: distinct names lead to distinct inodes. -/
structure Disk where
  dir : GoString → Option Nat
  data : Nat → List UInt8
  next : Nat
  dir_lt : ∀ {p i}, dir p = some i → i < next
  dir_inj : ∀ {p q i}, dir p = some i → dir q = some i → p = q

namespace Disk

/-- The bytes stored under a name. -/
def read (d : Disk) (name : GoString) : Option (List UInt8) := (d.dir name).map d.data

/-- `Write` through a handle opened for appending. -/
def append (d : Disk) (i : Nat) (bs : List UInt8) : Disk :=
  { d with data := update d.data i (d.data i ++ bs) }

/-- A new empty file under a name that is not in use. -/
def create (d : Disk) (name : GoString) (_h : d.dir name = none) : Disk where
  dir := update d.dir name (some d.next)
  data := update d.data d.next []
  next := d.next + 1
  dir_lt := by
    intro p i hp
    by_cases hpn : p = name
    · subst hpn
      simp only [update_self, Option.some.injEq] at hp
      omega
    · rw [update_of_ne hpn] at hp
      exact Nat.lt_succ_of_lt (d.dir_lt hp)
  dir_inj := by
    intro p q i hp hq
    by_cases hpn : p = name <;> by_cases hqn : q = name
    · rw [hpn, hqn]
    · rw [hpn, update_self, Option.some.injEq] at hp
      rw [update_of_ne hqn] at hq
      exact absurd (d.dir_lt hq) (by omega)
    · rw [update_of_ne hpn] at hp
      rw [hqn, update_self, Option.some.injEq] at hq
      exact absurd (d.dir_lt hp) (by omega)
    · rw [update_of_ne hpn] at hp
      rw [update_of_ne hqn] at hq
      exact d.dir_inj hp hq

/-- `os.OpenFile` with `O_CREATE|O_TRUNC`: the inode, emptied. -/
def openTrunc (d : Disk) (name : GoString) : Nat × Disk :=
  match h : d.dir name with
  | some i => (i, { d with data := update d.data i [] })
  | none => (d.next, d.create name h)

/-- `os.OpenFile` with `O_CREATE|O_APPEND`. -/
def openAppend (d : Disk) (name : GoString) : Nat × Disk :=
  match h : d.dir name with
  | some i => (i, d)
  | none => (d.next, d.create name h)

/-- `os.Remove`. -/
def remove (d : Disk) (name : GoString) : Disk where
  dir := update d.dir name none
  data := d.data
  next := d.next
  dir_lt := by
    intro p i hp
    by_cases hpn : p = name
    · subst hpn; simp at hp
    · rw [update_of_ne hpn] at hp; exact d.dir_lt hp
  dir_inj := by
    intro p q i hp hq
    by_cases hpn : p = name
    · subst hpn; simp at hp
    · by_cases hqn : q = name
      · subst hqn; simp at hq
      · rw [update_of_ne hpn] at hp
        rw [update_of_ne hqn] at hq
        exact d.dir_inj hp hq

/-- `os.Rename`, atomic: the new name leads to what the old one led to. -/
def rename (d : Disk) (old new : GoString) : Disk where
  dir p := if p = new then d.dir old else if p = old then none else d.dir p
  data := d.data
  next := d.next
  dir_lt := by
    intro p i hp
    split at hp
    · exact d.dir_lt hp
    · split at hp
      · simp at hp
      · exact d.dir_lt hp
  dir_inj := by
    intro p q i hp hq
    split at hp
    · next hpn =>
      split at hq
      · next hqn => rw [hpn, hqn]
      · split at hq
        · simp at hq
        · next hqo => exact absurd (d.dir_inj hq hp) hqo
    · split at hp
      · simp at hp
      · next hpo =>
        split at hq
        · exact absurd (d.dir_inj hp hq) hpo
        · split at hq
          · simp at hq
          · exact d.dir_inj hp hq

end Disk

/-! ## System calls -/

/-- The outcome of a system call; `n` counts the bytes a write had stored. -/
inductive Reply
  | ok
  | err (n : Nat)
  | crash (n : Nat)
  deriving DecidableEq, Repr

/-- `DiskStorage`, with the disk and the outcomes of the system calls to
come (all succeed once the script is used up). -/
structure DiskStorage where
  disk : Disk
  /-- The inode behind the open handle of a topic. -/
  activeFiles : GoString → Option Nat
  syncWrites : Bool
  replies : List Reply

/-- A system call: what it does to the disk when it succeeds, when it fails
and when the process dies in it. -/
def syscall {α : Type} (run : Disk → α × Disk) (fail : Nat → Disk → α × Disk) (cut : Nat → Disk → Disk) :
    Proc DiskStorage α := fun s =>
  match s.replies with
  | [] => (some (run s.disk).1, { s with disk := (run s.disk).2 })
  | .ok :: rs => (some (run s.disk).1, { s with disk := (run s.disk).2, replies := rs })
  | .err n :: rs => (some (fail n s.disk).1, { s with disk := (fail n s.disk).2, replies := rs })
  | .crash n :: rs => (none, { s with disk := cut n s.disk, replies := rs })

/-- The text of a failed system call. -/
def ioError : GoString := ascii "input/output error"

def notExistError : GoString := ascii "no such file or directory"

/-- A call that only returns an error or `nil`, and changes nothing when it
fails or dies. -/
def simpleCall (run : Disk → Option GoString × Disk) : Proc DiskStorage (Option GoString) :=
  syscall run (fun _ d => (some ioError, d)) (fun _ d => d)

/-- Whether `os.Stat` reports `os.IsNotExist`. -/
def osNotExist (name : GoString) : Proc DiskStorage Bool :=
  syscall (fun d => ((d.dir name).isNone, d)) (fun _ d => (false, d)) (fun _ d => d)

def osOpen (name : GoString) : Proc DiskStorage (Except GoString Nat) :=
  syscall
    (fun d => (match d.dir name with
      | some i => .ok i
      | none => .error notExistError, d))
    (fun _ d => (.error ioError, d)) (fun _ d => d)

/-- The bytes read through a handle until the end of the file or an error. -/
def osReadAll (i : Nat) : Proc DiskStorage (List UInt8 × Bool) :=
  syscall (fun d => ((d.data i, false), d)) (fun n d => (((d.data i).take n, true), d)) (fun _ d => d)

def osOpenTrunc (name : GoString) : Proc DiskStorage (Except GoString Nat) :=
  syscall (fun d => (.ok (d.openTrunc name).1, (d.openTrunc name).2)) (fun _ d => (.error ioError, d)) (fun _ d => d)

def osOpenAppend (name : GoString) : Proc DiskStorage (Except GoString Nat) :=
  syscall (fun d => (.ok (d.openAppend name).1, (d.openAppend name).2)) (fun _ d => (.error ioError, d)) (fun _ d => d)

/-- `file.Write`: a failed one may have stored a first part of its bytes. -/
def osWrite (i : Nat) (bs : List UInt8) : Proc DiskStorage (Option GoString) :=
  syscall (fun d => (none, d.append i bs)) (fun n d => (some ioError, d.append i (bs.take n)))
    (fun n d => d.append i (bs.take n))

def osSync : Proc DiskStorage (Option GoString) := simpleCall fun d => (none, d)

def osClose : Proc DiskStorage (Option GoString) := simpleCall fun d => (none, d)

/-- `os.Open` of the data directory. -/
def osOpenDir : Proc DiskStorage (Option GoString) := simpleCall fun d => (none, d)

def osRemove (name : GoString) : Proc DiskStorage (Option GoString) :=
  simpleCall fun d => if (d.dir name).isNone then (some notExistError, d) else (none, d.remove name)

def osRename (old new : GoString) : Proc DiskStorage (Option GoString) :=
  simpleCall fun d => if (d.dir old).isNone then (some notExistError, d) else (none, d.rename old new)

/-! ## The operations -/

/-- `getOrOpenFile`. -/
def getOrOpenFile (topic : GoString) : Proc DiskStorage (Except GoString Nat) := do
  let cached ← fun s => (some (s.activeFiles topic), s)
  match cached with
  | some i => return .ok i
  | none =>
    match ← osOpenAppend (logFilename topic) with
    | .error e => return .error e
    | .ok i =>
      fun s => (some (.ok i), { s with activeFiles := update s.activeFiles topic (some i) })

def writeRecord (c : Codec) (topic : GoString) (record : LogRecord) : Proc DiskStorage (Option GoString) := do
  match isSafePath topic with
  | some e => return some e
  | none =>
    let record := { record with checksum := checksumFor c record }
    match ← getOrOpenFile topic with
    | .error e => return some e
    | .ok i =>
      match c.marshal record with
      | none => return some (ascii "json: unsupported value")
      | some b =>
        match ← osWrite i (b ++ [10]) with
        | some e => return some e
        | none =>
          let syncWrites ← fun s => (some s.syncWrites, s)
          if syncWrites then osSync else return none

def appendPut (c : Codec) (topic : GoString) (msg : Message) (now : Time) : Proc DiskStorage (Option GoString) :=
  writeRecord c topic { type := .put, message := some msg, messageID := [], timestamp := now, checksum := 0 }

/-- `LoadMessages` on a disk it can read: the messages and the error. -/
def loadMessages (c : Codec) (d : Disk) (topic : GoString) : List Message × Option GoString :=
  match isSafePath topic with
  | some e => ([], some e)
  | none =>
    match (d.read (logFilename topic)).or (d.read (legacyFilename topic)) with
    | none => ([], none)
    | some content =>
      ((scanRecords c (fun _ m => m) (scan content).1).live,
        if (scan content).2 then some tooLongError else none)

/-- The exits of `CompactLog` that give up the temporary file. -/
def abandon (tmpFilename e : GoString) : Proc DiskStorage (Option GoString) := do
  let _ ← osClose
  let _ ← osRemove tmpFilename
  return some e

/-- The loop of `CompactLog` that writes the live records. -/
def writeCompacted (c : Codec) (tmpFilename : GoString) (tmp : Nat) :
    List LogRecord → Proc DiskStorage (Option GoString)
  | [] => return none
  | rec :: rest =>
    match c.marshal { rec with checksum := checksumFor c rec } with
    | none => abandon tmpFilename (ascii "json: unsupported value")
    | some b => do
      match ← osWrite tmp (b ++ [10]) with
      | some e => abandon tmpFilename e
      | none => writeCompacted c tmpFilename tmp rest

/-- The end of `CompactLog`: sync, close, rename, sync the directory. -/
def installCompacted (tmpFilename filename : GoString) : Proc DiskStorage (Option GoString) := do
  match ← osSync with
  | some e => abandon tmpFilename (ascii "failed to sync compacted log: " ++ e)
  | none =>
    let _ ← osClose
    match ← osRename tmpFilename filename with
    | some e => return some (ascii "failed to replace old log with compacted version: " ++ e)
    | none =>
      match ← osOpenDir with
      | some _ => return none
      | none =>
        let _ ← osSync
        let _ ← osClose
        return none

/-- The first lines of `CompactLog`: the open handle is closed and dropped. -/
def closeActive (topic : GoString) : Proc DiskStorage Unit := do
  let cached ← fun s => (some (s.activeFiles topic), s)
  match cached with
  | none => return ()
  | some _ =>
    let _ ← osClose
    fun s => (some (), { s with activeFiles := update s.activeFiles topic none })

/-- `CompactLog` once the log is open: read it, write its live records to a
temporary file, put that in its place. -/
def rewriteLog (c : Codec) (filename : GoString) (i : Nat) : Proc DiskStorage (Option GoString) := do
  let (content, failed) ← osReadAll i
  let (tokens, tooLong) := scan content
  let _ ← osClose
  if failed || tooLong then
    return some (ascii "error scanning log file during compaction: " ++ if tooLong then tooLongError else ioError)
  else
    let tmpFilename := filename ++ ascii ".tmp"
    match ← osOpenTrunc tmpFilename with
    | .error e => return some e
    | .ok tmp =>
      match ← writeCompacted c tmpFilename tmp (scanRecords c (fun rec _ => rec) tokens).live with
      | some e => return some e
      | none => installCompacted tmpFilename filename

def compactLog (c : Codec) (topic : GoString) : Proc DiskStorage (Option GoString) := do
  match isSafePath topic with
  | some e => return some e
  | none =>
    closeActive topic
    let filename := logFilename topic
    if ← osNotExist filename then return none
    else
      match ← osOpen filename with
      | .error e => return some e
      | .ok i => rewriteLog c filename i

end TinyMQ
