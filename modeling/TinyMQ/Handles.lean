/-
The open files of `DiskStorage`: which file a handle of `activeFiles` leads to,
and whether it is still open.

`handles_valid`: the handles are open and lead to the log of their topic as
long as `ClearLog` can open the log again, and no file is replaced or removed
under the handle of another topic. In `handle_left_closed` it cannot.
-/
import TinyMQ.Names
import TinyMQ.Lib.Lts
import Mathlib.Logic.Function.Basic

namespace TinyMQ

open Function

/-- The inodes behind the names of the files, and the handles: their inodes and
whether they are open. -/
structure Handles where
  files : GoString → Option Nat
  next : Nat
  activeFiles : GoString → Option (Nat × Bool)

/-- A call on a safe topic, and whether the system call that it goes by
succeeds: the opening of the log, the rename, the removal. -/
inductive HandleOp
  | writeRecord (topic : GoString) (ok : Bool)
  | compactLog (topic : GoString) (ok : Bool)
  | clearLog (topic : GoString) (ok : Bool)
  | deleteLog (topic : GoString) (ok : Bool)
  | closeAll

namespace Handles

variable {s s₀ : Handles} {topic : GoString} {op : HandleOp}

def setHandle (s : Handles) (topic : GoString) (handle : Option (Nat × Bool)) : Handles :=
  { s with activeFiles := update s.activeFiles topic handle }

/-- `os.OpenFile` with `O_CREATE`: the inode of the log, or a new one. -/
def openLog (s : Handles) (topic : GoString) : Handles :=
  let i := (s.files (logFilename topic)).getD s.next
  { files := update s.files (logFilename topic) (some i)
    next := s.next + 1
    activeFiles := update s.activeFiles topic (some (i, true)) }

def step (s : Handles) : HandleOp → Handles
  | .writeRecord topic ok => if (s.activeFiles topic).isNone ∧ ok then s.openLog topic else s
  | .compactLog topic ok =>
    let s := s.setHandle topic none
    if ok ∧ (s.files (logFilename topic)).isSome then
      { s with files := update s.files (logFilename topic) (some s.next), next := s.next + 1 }
    else s
  | .clearLog topic ok =>
    -- The handle is closed, and stays in the map until there is a new one.
    let s := s.setHandle topic ((s.activeFiles topic).map fun h => (h.1, false))
    if ok then s.openLog topic else s
  | .deleteLog topic ok =>
    let s := s.setHandle topic none
    if ok then { s with files := update s.files (logFilename topic) none } else s
  | .closeAll => { s with activeFiles := fun _ => none }

/-- Every handle is open and leads to the log of its topic. -/
def Valid (s : Handles) : Prop :=
  ∀ topic h, s.activeFiles topic = some h → h.2 = true ∧ s.files (logFilename topic) = some h.1

/-- No other topic has a handle on the log of this one. -/
def Alone (s : Handles) (topic : GoString) : Prop :=
  ∀ u, u ≠ topic → logFilename u = logFilename topic → s.activeFiles u = none

/-- A call that does no harm. -/
def Harmless (s : Handles) : HandleOp → Prop
  | .clearLog topic ok => ok = true ∨ s.activeFiles topic = none
  | .compactLog topic ok | .deleteLog topic ok => ok = true → s.Alone topic
  | _ => True

theorem Valid.openLog (h : ∀ u handle, u ≠ topic → s.activeFiles u = some handle →
    handle.2 = true ∧ s.files (logFilename u) = some handle.1) : (s.openLog topic).Valid := by
  intro u handle hu
  by_cases hut : u = topic
  · subst hut
    simp only [Handles.openLog, update_self, Option.some.injEq] at hu ⊢
    simp [← hu]
  · have hold := h u handle hut (by simpa [Handles.openLog, hut] using hu)
    by_cases hlog : logFilename u = logFilename topic
    · simp [Handles.openLog, ← hlog, hold]
    · simpa [Handles.openLog, hlog] using hold

theorem Valid.setHandle (h : s.Valid) (topic : GoString) : (s.setHandle topic none).Valid := by
  intro u handle hu
  by_cases hut : u = topic
  · simp [Handles.setHandle, hut] at hu
  · exact h u handle (by simpa [Handles.setHandle, hut] using hu)

theorem Valid.file (h : s.Valid) (halone : s.Alone topic) (file : Option Nat) (next : Nat) :
    Valid ⟨update s.files (logFilename topic) file, next, (s.setHandle topic none).activeFiles⟩ := by
  intro u handle hu
  obtain ⟨hopen, hfile⟩ := h.setHandle topic u handle hu
  have hne : logFilename u ≠ logFilename topic := by
    intro hlog
    by_cases hut : u = topic
    · simp [Handles.setHandle, hut] at hu
    · simp [Handles.setHandle, hut, halone u hut hlog] at hu
  exact ⟨hopen, (update_of_ne hne ..).trans hfile⟩

theorem Valid.step (h : s.Valid) (hop : s.Harmless op) : (s.step op).Valid := by
  cases op with
  | writeRecord topic ok =>
    simp only [Handles.step]
    split
    · exact .openLog fun u handle _ => h u handle
    · exact h
  | compactLog topic ok =>
    simp only [Handles.step]
    split
    next hok => exact h.file (hop hok.1) _ _
    · exact h.setHandle topic
  | clearLog topic ok =>
    simp only [Handles.step]
    split
    · exact .openLog fun u handle hne hu => h u handle (by simpa [Handles.setHandle, hne] using hu)
    next hok =>
      have hnone := hop.resolve_left hok
      simpa [hnone] using h.setHandle topic
  | deleteLog topic ok =>
    simp only [Handles.step]
    split
    next hok => exact h.file (hop hok) _ _
    · exact h.setHandle topic
  | closeAll => exact fun _ _ hu => by cases hu

/-- **The handles stay valid** along any calls that do no harm. -/
theorem handles_valid (hrun : Lts.Run (fun s op => some (s.step op)) Harmless s₀ s) (h : s₀.Valid) : s.Valid :=
  hrun.invariant (I := Valid) (fun _ _ _ hI hok hs => Option.some.inj hs ▸ hI.step hok) h

def closed : Handles := ⟨fun _ => none, 0, fun _ => none⟩

theorem handles_valid_sample : ([.writeRecord (ascii "t") true, .compactLog (ascii "t") true,
    .writeRecord (ascii "t") true, .clearLog (ascii "t") true,
      .deleteLog (ascii "t") true].foldl step closed).Valid := by
  have h₀ : Lts.Run (fun s op => some (step s op)) Harmless closed closed := .refl
  have h₁ := h₀.snoc (a := HandleOp.writeRecord (ascii "t") true) trivial rfl
  have h₂ :=
    h₁.snoc (a := HandleOp.compactLog (ascii "t") true) (fun _ u hu _ => by simp [step, openLog, closed, hu]) rfl
  have h₃ := h₂.snoc (a := HandleOp.writeRecord (ascii "t") true) trivial rfl
  have h₄ := h₃.snoc (a := HandleOp.clearLog (ascii "t") true) (Or.inl rfl) rfl
  refine handles_valid (h₄.snoc (a := HandleOp.deleteLog (ascii "t") true) (fun _ u hu _ => ?_) rfl) nofun
  simp [step, openLog, setHandle, closed, hu]

/-- **A handle that stays closed**: `ClearLog` closes it and cannot open the log;
the next write takes it from the map. -/
theorem handle_left_closed : ([.writeRecord (ascii "t") true, .clearLog (ascii "t") false,
    .writeRecord (ascii "t") true].foldl step closed).activeFiles (ascii "t") = some (0, false) := by
  decide

end Handles

end TinyMQ
