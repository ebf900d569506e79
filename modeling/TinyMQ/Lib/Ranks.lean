/-
Lists sorted by rank, the elements of one rank in the order they had.

`ranked` collects the elements rank by rank, as a queue with a lane for each
rank gives them out. `ranked_eq_self_iff` says which lists it leaves as they
are.
-/
import Mathlib.Data.List.Basic
import Mathlib.Data.List.Nodup
import Mathlib.Data.List.Pairwise
import Mathlib.Order.Lattice

namespace Ranks

open List

variable {α κ : Type} [LinearOrder κ] {rank : α → κ} {ranks : List κ} {l : List α}

/-- The elements of each of the ranks in turn. -/
def ranked (ranks : List κ) (rank : α → κ) (l : List α) : List α := ranks.flatMap fun k => l.filter fun a => rank a = k

theorem mem_of_mem_ranked (h : a ∈ ranked ranks rank l) : a ∈ l := by
  obtain ⟨k, -, ha⟩ := mem_flatMap.mp h
  exact (mem_filter.mp ha).1

theorem pairwise_ranked (h : ranks.Pairwise (· < ·)) (l : List α) :
    (ranked ranks rank l).Pairwise fun a b => rank a ≤ rank b := by
  refine pairwise_flatMap.mpr ⟨fun k _ => ?_, h.imp fun hlt a ha b hb => ?_⟩
  · refine pairwise_of_forall_mem_list fun a ha b hb => ?_
    simp only [mem_filter, decide_eq_true_eq] at ha hb
    rw [ha.2, hb.2]
  · simp only [mem_filter, decide_eq_true_eq] at ha hb
    rw [ha.2, hb.2]
    exact le_of_lt hlt

theorem ranked_cons (hk : k ∉ ranks) (l : List α) : ranked (k :: ranks) rank l =
    l.filter (fun a => rank a = k) ++ ranked ranks rank (l.filter fun a => rank a ≠ k) := by
  refine congrArg (l.filter (fun a => rank a = k) ++ ·) (flatMap_congr fun k' hk' => ?_)
  rw [List.filter_filter]
  refine filter_congr fun a _ => ?_
  have hne : k' ≠ k := ne_of_mem_of_not_mem hk' hk
  by_cases he : rank a = k'
  · simp [he, hne]
  · simp [he]

theorem mem_ranks_of_ne (hall : ∀ a ∈ l, rank a ∈ k :: ranks) :
    ∀ a ∈ l.filter fun a => rank a ≠ k, rank a ∈ ranks := by
  intro a ha
  simp only [mem_filter, ne_eq, decide_eq_true_eq] at ha
  exact (mem_cons.mp (hall a ha.1)).resolve_left ha.2

omit [LinearOrder κ] in
theorem eq_nil_of_ranks (hall : ∀ a ∈ l, rank a ∈ ([] : List κ)) : l = [] :=
  eq_nil_iff_forall_not_mem.mpr fun a ha => by cases hall a ha

theorem ranked_perm (hr : ranks.Nodup) (hall : ∀ a ∈ l, rank a ∈ ranks) : (ranked ranks rank l).Perm l := by
  induction ranks generalizing l with
  | nil => rw [eq_nil_of_ranks hall]; exact .refl _
  | cons k ranks ih =>
    obtain ⟨hk, hr⟩ := nodup_cons.mp hr
    rw [ranked_cons hk]
    refine ((ih hr (mem_ranks_of_ne hall)).append_left _).trans ?_
    simpa using filter_append_perm (fun a => decide (rank a = k)) l

theorem filter_append_filter_ne (hl : l.Pairwise fun a b => rank a ≤ rank b) (hk : ∀ a ∈ l, k ≤ rank a) :
    (l.filter fun a => rank a = k) ++ l.filter (fun a => rank a ≠ k) = l := by
  induction l with
  | nil => rfl
  | cons a l ih =>
    obtain ⟨ha, hl⟩ := pairwise_cons.mp hl
    have hrest := ih hl fun b hb => hk b (mem_cons_of_mem a hb)
    by_cases he : rank a = k
    · simpa [filter_cons, he] using hrest
    · -- Nothing after `a` is of rank `k`.
      have hlt : k < rank a := lt_of_le_of_ne (hk a mem_cons_self) (Ne.symm he)
      have hne : ∀ b ∈ a :: l, rank b ≠ k := by
        intro b hb
        rcases mem_cons.mp hb with rfl | hb
        · exact he
        · exact ne_of_gt (lt_of_lt_of_le hlt (ha b hb))
      rw [filter_eq_nil_iff.mpr (by simpa using hne),
        filter_eq_self.mpr (by simpa using hne), nil_append]

theorem ranked_of_pairwise (hr : ranks.Pairwise (· < ·)) (hall : ∀ a ∈ l, rank a ∈ ranks)
    (hl : l.Pairwise fun a b => rank a ≤ rank b) : ranked ranks rank l = l := by
  induction ranks generalizing l with
  | nil => rw [eq_nil_of_ranks hall]; rfl
  | cons k ranks ih =>
    obtain ⟨hk, hr⟩ := pairwise_cons.mp hr
    have hleast : ∀ a ∈ l, k ≤ rank a := by
      intro a ha
      rcases mem_cons.mp (hall a ha) with he | hm
      · exact le_of_eq he.symm
      · exact le_of_lt (hk _ hm)
    rw [ranked_cons (fun hm => lt_irrefl k (hk k hm)), ih hr (mem_ranks_of_ne hall) (hl.filter _)]
    exact filter_append_filter_ne hl hleast

/-- **The lanes give a list out as it is** exactly if it is sorted. -/
theorem ranked_eq_self_iff (hr : ranks.Pairwise (· < ·)) (hall : ∀ a ∈ l, rank a ∈ ranks) :
    ranked ranks rank l = l ↔ l.Pairwise fun a b => rank a ≤ rank b := by
  refine ⟨fun h => ?_, ranked_of_pairwise hr hall⟩
  rw [← h]
  exact pairwise_ranked hr l

theorem eq_of_map_eq {f : α → β} (hf : ∀ a ∈ l, ∀ a' ∈ l', f a = f a' → a = a')
    (h : l.map f = l'.map f) : l = l' := by
  induction l generalizing l' with
  | nil => exact (map_eq_nil_iff.mp h.symm).symm
  | cons a l ih =>
    obtain ⟨a', l'', rfl, ha, hl⟩ := map_eq_cons_iff.mp h.symm
    rw [hf a mem_cons_self a' mem_cons_self ha.symm,
      ih (fun x hx y hy => hf x (mem_cons_of_mem _ hx) y (mem_cons_of_mem _ hy)) hl.symm]

theorem map_ranked_eq_iff {f : α → β} (hr : ranks.Pairwise (· < ·)) (hall : ∀ a ∈ l, rank a ∈ ranks)
    (hf : (l.map f).Nodup) : (ranked ranks rank l).map f = l.map f ↔ l.Pairwise fun a b => rank a ≤ rank b := by
  rw [← ranked_eq_self_iff hr hall]
  refine ⟨fun h => eq_of_map_eq (fun a ha a' ha' he => ?_) h, fun h => by rw [h]⟩
  exact inj_on_of_nodup_map hf (mem_of_mem_ranked ha) ha' he

end Ranks
