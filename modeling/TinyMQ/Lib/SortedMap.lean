/-
Finite maps as association lists in the order of their keys.

A map is written out in this order, and it has one such list: a list in
order is the map of its own pairs (`ofList_sorted`).
-/
import Mathlib.Algebra.Ring.Nat
import Mathlib.Data.List.Basic

namespace SortedMap

open List

section Maps

variable {κ ν : Type} [LT κ] [DecidableLT κ] [DecidableEq κ]

def insert (k : κ) (v : ν) : List (κ × ν) → List (κ × ν)
  | [] => [(k, v)]
  | (k', v') :: l =>
    if k < k' then (k, v) :: (k', v') :: l
    else if k = k' then (k, v) :: l
    else (k', v') :: insert k v l

def insertAll (l kvs : List (κ × ν)) : List (κ × ν) := kvs.foldl (fun l kv => insert kv.1 kv.2 l) l

def ofList (kvs : List (κ × ν)) : List (κ × ν) := insertAll [] kvs

variable {l kvs : List (κ × ν)} {kv : κ × ν}

theorem mem_insert (h : kv ∈ insert k v l) : kv = (k, v) ∨ kv ∈ l := by
  induction l with
  | nil => simpa [insert] using h
  | cons kv' l ih =>
    obtain ⟨k', v'⟩ := kv'
    simp only [insert] at h
    split at h
    · simpa using h
    · split at h
      · simp only [mem_cons] at h ⊢
        tauto
      · simp only [mem_cons] at h ⊢
        rcases h with h | h
        · exact .inr (.inl h)
        · exact (ih h).imp id .inr

theorem sum_insert_le (w : κ × ν → Nat) (k : κ) (v : ν) (l : List (κ × ν)) :
    ((insert k v l).map w).sum ≤ w (k, v) + (l.map w).sum := by
  induction l with
  | nil => simp [insert]
  | cons kv l ih =>
    obtain ⟨k', v'⟩ := kv
    simp only [insert]
    repeat' split
    all_goals
      simp only [map_cons, sum_cons]
      omega

theorem sum_insertAll_le (w : κ × ν → Nat) (l kvs : List (κ × ν)) :
    ((insertAll l kvs).map w).sum ≤ (l.map w).sum + (kvs.map w).sum := by
  induction kvs generalizing l with
  | nil => exact Nat.le_refl _
  | cons kv kvs ih =>
    obtain ⟨k, v⟩ := kv
    have hfirst := sum_insert_le w k v l
    have hrest := ih (insert k v l)
    rw [map_cons, sum_cons]
    exact Nat.le_trans hrest (by omega)

theorem sum_ofList_le (w : κ × ν → Nat) (kvs : List (κ × ν)) : ((ofList kvs).map w).sum ≤ (kvs.map w).sum := by
  simpa [ofList] using sum_insertAll_le w [] kvs

theorem insert_ne_nil (k : κ) (v : ν) (l : List (κ × ν)) : insert k v l ≠ [] := by
  cases l with
  | nil => simp [insert]
  | cons kv l =>
    simp only [insert]
    repeat' split
    all_goals simp

theorem insertAll_ne_nil (h : l ≠ []) (kvs : List (κ × ν)) : insertAll l kvs ≠ [] := by
  induction kvs generalizing l with
  | nil => exact h
  | cons kv kvs ih => exact ih (insert_ne_nil kv.1 kv.2 l)

theorem ofList_eq_nil : ofList kvs = [] ↔ kvs = [] := by
  refine ⟨fun h => ?_, fun h => by rw [h]; rfl⟩
  cases kvs with
  | nil => rfl
  | cons kv kvs => exact absurd h (insertAll_ne_nil (insert_ne_nil _ _ _) kvs)

/-! ## The order of the keys -/

def Sorted (l : List (κ × ν)) : Prop := l.Pairwise fun a b => a.1 < b.1

variable [Trans (α := κ) (β := κ) (γ := κ) (· < ·) (· < ·) (· < ·)]

section Total

variable [Std.Trichotomous (α := κ) (· < ·)]

theorem Sorted.insert (h : Sorted l) (k : κ) (v : ν) : Sorted (insert k v l) := by
  induction l with
  | nil => simp [Sorted, SortedMap.insert]
  | cons kv l ih =>
    obtain ⟨k', v'⟩ := kv
    obtain ⟨hhead, htail⟩ := pairwise_cons.mp h
    simp only [SortedMap.insert]
    split
    next hlt =>
      refine pairwise_cons.mpr ⟨fun kv hkv => ?_, h⟩
      rcases mem_cons.mp hkv with rfl | hkv
      · exact hlt
      · exact Std.lt_trans hlt (hhead kv hkv)
    next hlt =>
      split
      next heq => exact pairwise_cons.mpr ⟨fun kv hkv => heq ▸ hhead kv hkv, htail⟩
      next hne =>
        refine pairwise_cons.mpr ⟨fun kv hkv => ?_, ih htail⟩
        rcases mem_insert hkv with rfl | hkv
        · exact ((Std.lt_trichotomy k k').resolve_left hlt).resolve_left hne
        · exact hhead kv hkv

theorem Sorted.insertAll (h : Sorted l) (kvs : List (κ × ν)) : Sorted (insertAll l kvs) := by
  induction kvs generalizing l with
  | nil => exact h
  | cons kv kvs ih => exact ih (h.insert kv.1 kv.2)

theorem sorted_ofList (kvs : List (κ × ν)) : Sorted (ofList kvs) := Sorted.insertAll .nil kvs

end Total

variable [Std.Irrefl (α := κ) (· < ·)]

theorem insert_last (h : ∀ kv ∈ l, kv.1 < k) (v : ν) : insert k v l = l ++ [(k, v)] := by
  induction l with
  | nil => rfl
  | cons kv l ih =>
    obtain ⟨k', v'⟩ := kv
    have hk : k' < k := h _ mem_cons_self
    have hlt : ¬k < k' := fun hlt => Std.lt_irrefl (Std.lt_trans hlt hk)
    have hne : k ≠ k' := fun heq => Std.lt_irrefl (heq ▸ hk)
    rw [SortedMap.insert, if_neg hlt, if_neg hne, ih fun kv hkv => h kv (mem_cons_of_mem _ hkv)]
    rfl

theorem insertAll_sorted (h : Sorted (l ++ kvs)) : insertAll l kvs = l ++ kvs := by
  induction kvs generalizing l with
  | nil => simp [insertAll]
  | cons kv kvs ih =>
    have hlast : ∀ kv' ∈ l, kv'.1 < kv.1 := fun kv' hkv' =>
      (pairwise_append.mp h).2.2 kv' hkv' kv mem_cons_self
    have hstep : insertAll l (kv :: kvs) = insertAll (l ++ [kv]) kvs := by
      rw [insertAll, foldl_cons, insert_last hlast]
      rfl
    rw [hstep, ih (by simpa using h)]
    simp

/-- **A list in order is the map of its pairs.** -/
theorem ofList_sorted (h : Sorted kvs) : ofList kvs = kvs := insertAll_sorted (by simpa using h)

end Maps

end SortedMap
