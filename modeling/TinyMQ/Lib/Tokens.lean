/-
Tokens, of each of which there is one: every token that was issued lies in a
common place, or is in the hands of one agent, or is lost.

An agent may pick up tokens from the places, put some down and lose some;
nobody else's hands change. A token that was not issued yet may be given to
an agent.
-/
import Mathlib.Data.List.Perm.Subperm
import Mathlib.Data.List.Nodup

namespace Tokens

open List

variable {α ι : Type}

/-- No token is in two places, and all of them were issued. -/
structure Held (issued : α → Prop) (places : List α) (hands : ι → List α) : Prop where
  nodup : ∀ i, (places ++ hands i).Nodup
  disjoint : ∀ {i j}, i ≠ j → (hands i).Disjoint (hands j)
  issued : ∀ {i a}, a ∈ places ++ hands i → issued a

variable {issued issued' : α → Prop} {places places' : List α} {hands hands' : ι → List α} {i j : ι} {a : α}

theorem Held.not_mem_places (h : Held issued places hands) (ha : a ∈ hands i) : a ∉ places :=
  fun hp => disjoint_of_nodup_append (h.nodup i) hp ha

theorem Held.places_nodup [Nonempty ι] (h : Held issued places hands) : places.Nodup :=
  (nodup_append.mp (h.nodup (Classical.arbitrary ι))).1

/-- Agents lose tokens. -/
theorem Held.lose (h : Held issued places hands) (hsub : ∀ j, (hands' j).Sublist (hands j)) :
    Held issued places hands' where
  nodup j := (h.nodup j).sublist ((Sublist.refl places).append (hsub j))
  disjoint hij _ hi hj := h.disjoint hij ((hsub _).subset hi) ((hsub _).subset hj)
  issued ha := h.issued (((Sublist.refl places).append (hsub _)).subset ha)

/-- Agent `i` moves tokens between the places and its hands. -/
theorem Held.move (h : Held issued places hands) (i : ι)
    (hsub : (places' ++ hands' i).Subperm (places ++ hands i)) (hothers : ∀ j, j ≠ i → hands' j = hands j) :
    Held issued places' hands' := by
  have hnodup : (places' ++ hands' i).Nodup := by
    obtain ⟨l, hperm, hl⟩ := hsub
    exact hperm.nodup_iff.mp ((h.nodup i).sublist hl)
  -- What `i` has touched, nobody else has.
  have hfree : ∀ {j a}, j ≠ i → a ∈ hands j → a ∉ places' ++ hands' i := by
    intro j a hj ha hmem
    rcases mem_append.mp (hsub.subset hmem) with hp | hi
    · exact h.not_mem_places ha hp
    · exact h.disjoint hj ha hi
  refine ⟨fun j => ?_, fun {j k} hjk => ?_, fun {j a} ha => ?_⟩
  · by_cases hj : j = i
    · exact hj ▸ hnodup
    · rw [hothers j hj, nodup_append']
      refine ⟨(nodup_append.mp hnodup).1, (nodup_append.mp (h.nodup j)).2.1, fun a hp ha => ?_⟩
      exact hfree hj ha (mem_append_left _ hp)
  · by_cases hj : j = i
    · have hk : k ≠ i := fun hk => hjk (hj.trans hk.symm)
      rw [hothers k hk, hj]
      exact fun a ha hk' => hfree hk hk' (mem_append_right _ ha)
    · rw [hothers j hj]
      by_cases hk : k = i
      · rw [hk]
        exact fun a ha hk' => hfree hj ha (mem_append_right _ hk')
      · rw [hothers k hk]
        exact h.disjoint hjk
  · by_cases hj : j = i
    · exact h.issued (hsub.subset (hj ▸ ha))
    · rcases mem_append.mp ha with hp | ha
      · exact h.issued (hsub.subset (mem_append_left _ hp))
      · exact h.issued (mem_append_right places (hothers j hj ▸ ha))

/-- Agent `i`, whose hands are empty, gets a token that was not issued
before. -/
theorem Held.give (h : Held issued places hands) (i : ι) (ha : ¬ issued a) (hi : hands' i = [a])
    (hothers : ∀ j, j ≠ i → hands' j = hands j) (hmono : ∀ x, issued x → issued' x) (ha' : issued' a) :
    Held issued' places hands' := by
  have hhands : ∀ j, a ∉ hands j := fun j hj => ha (h.issued (mem_append_right places hj))
  refine ⟨fun j => ?_, fun {j k} hjk => ?_, fun {j x} hx => ?_⟩
  · by_cases hj : j = i
    · rw [hj, hi, nodup_append']
      refine ⟨(nodup_append.mp (h.nodup i)).1, nodup_singleton a, fun x hx hxa => ha ?_⟩
      rw [mem_singleton.mp hxa] at hx
      exact h.issued (mem_append_left (hands i) hx)
    · rw [hothers j hj]
      exact h.nodup j
  · by_cases hj : j = i
    · have hk : k ≠ i := fun hk => hjk (hj.trans hk.symm)
      rw [hj, hi, hothers k hk]
      exact fun x hx hxk => hhands k (mem_singleton.mp hx ▸ hxk)
    · rw [hothers j hj]
      by_cases hk : k = i
      · rw [hk, hi]
        exact fun x hx hxa => hhands j (mem_singleton.mp hxa ▸ hx)
      · rw [hothers k hk]
        exact h.disjoint hjk
  · rcases mem_append.mp hx with hp | hx
    · exact hmono x (h.issued (mem_append_left (hands j) hp))
    · by_cases hj : j = i
      · rw [hj, hi] at hx
        exact mem_singleton.mp hx ▸ ha'
      · exact hmono x (h.issued (mem_append_right places (hothers j hj ▸ hx)))

end Tokens
