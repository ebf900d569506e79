/-
First in, first out: what is put into a log waits in a queue, in the order
of the log, and is given out.

An element may be given out while it stays in the queue, and be dropped from
the queue without being given out.
-/
import Mathlib.Data.List.Basic
import Mathlib.Data.List.Pairwise

namespace Fifo

open List

variable {α : Type} [DecidableEq α] {log out queue new : List α} {x y : α}

/-- `x` came to the log before `y`, or is `y`. -/
def Le (log : List α) (x y : α) : Prop := log.idxOf x ≤ log.idxOf y

instance (log : List α) (x y : α) : Decidable (Le log x y) := inferInstanceAs (Decidable (_ ≤ _))

theorem Le.refl (log : List α) (x : α) : Le log x x := Nat.le_refl _

theorem Le.grow (h : Le log x y) (hx : x ∈ log) (hy : y ∈ log) (new : List α) : Le (log ++ new) x y := by
  rwa [Le, idxOf_append_of_mem hx, idxOf_append_of_mem hy]

theorem le_last (hx : x ∈ log) (hy : y ∉ log) : Le (log ++ [y]) x y := by
  rw [Le, idxOf_append_of_mem hx, idxOf_append_of_notMem hy]
  exact Nat.le_trans (idxOf_le_length) (Nat.le_add_right _ _)

theorem pairwise_grow {l : List α} (h : l.Pairwise (Le log)) (hl : ∀ x ∈ l, x ∈ log) (new : List α) :
    l.Pairwise (Le (log ++ new)) :=
  h.imp_of_mem fun hx hy hle => hle.grow (hl _ hx) (hl _ hy) new

/-- What was given out and what is in the queue, one after the other, is in
the order of the log. -/
structure Ordered (log out queue : List α) : Prop where
  logged : ∀ x ∈ out ++ queue, x ∈ log
  sorted : (out ++ queue).Pairwise (Le log)

namespace Ordered

/-- Elements are taken from the front; others may be dropped. -/
theorem take (h : Ordered log out queue) (hsub : (new ++ queue').Sublist queue) :
    Ordered log (out ++ new) queue' := by
  have hsub' : (out ++ new ++ queue').Sublist (out ++ queue) := by
    rw [append_assoc]
    exact hsub.append_left out
  exact ⟨fun x hx => h.logged x (hsub'.subset hx), h.sorted.sublist hsub'⟩

theorem drop (h : Ordered log out queue) (hsub : queue'.Sublist queue) : Ordered log out queue' := by
  have htake : Ordered log (out ++ []) queue' := h.take hsub
  rwa [append_nil] at htake

theorem grow (h : Ordered log out queue) (new : List α) : Ordered (log ++ new) out queue :=
  ⟨fun x hx => mem_append_left _ (h.logged x hx), pairwise_grow h.sorted h.logged new⟩

/-- An element is put at the end of the queue. -/
theorem put (h : Ordered log out queue) (hx : x ∉ log) (hsub : queue'.Sublist queue) :
    Ordered (log ++ [x]) out (queue' ++ [x]) := by
  have hdrop := h.drop hsub
  refine ⟨fun y hy => ?_, ?_⟩
  · rw [← append_assoc] at hy
    rcases mem_append.mp hy with hy | hy
    · exact (hdrop.grow [x]).logged y hy
    · exact mem_append_right _ hy
  · rw [← append_assoc, pairwise_append]
    refine ⟨(hdrop.grow [x]).sorted, pairwise_singleton _ _, fun y hy z hz => ?_⟩
    rw [mem_singleton.mp hz]
    exact le_last (hdrop.logged y hy) hx

/-- The first element of the queue is given out, and stays or goes. -/
theorem give (h : Ordered log out queue) (hhead : queue.head? = some x) (hsub : queue'.Sublist queue) :
    Ordered log (out ++ [x]) queue' := by
  obtain ⟨rest, rfl⟩ := head?_eq_some_iff.mp hhead
  have hgiven : Ordered log (out ++ [x]) (x :: rest) := by
    refine ⟨fun y hy => h.logged y (by simpa using hy), ?_⟩
    have hsorted := pairwise_append.mp h.sorted
    have hcons := pairwise_cons.mp hsorted.2.1
    rw [append_assoc, pairwise_append]
    refine ⟨hsorted.1, pairwise_cons.mpr ⟨fun y hy => ?_, hsorted.2.1⟩, fun y hy z hz => ?_⟩
    · rcases mem_cons.mp hy with rfl | hy
      · exact .refl _ _
      · exact hcons.1 y hy
    · refine hsorted.2.2 y hy z ?_
      rcases mem_cons.mp hz with rfl | hz
      · exact mem_cons_self
      · exact hz
  exact hgiven.drop hsub

end Ordered

end Fifo
