import Mathlib.Data.Set.Pairwise.Lattice
import Mathlib.Algebra.Order.BigOperators.Group.Finset
import Mathlib.Order.CompletePartialOrder

/-!
# Sets tiled by the extents of their owners

An allocator hands out parts of a space to owners. `Tiles S I ext` says that it is exact: the
extents `ext i` of the owners `i ∈ I` are pairwise disjoint and make up the used part `S`.
-/

universe u v

variable {α : Type u} {ι : Type v}

structure Tiles (S : Set α) (I : Set ι) (ext : ι → Set α) : Prop where
  union : ⋃ i ∈ I, ext i = S
  disjoint : I.PairwiseDisjoint ext

namespace Tiles

variable {S S' : Set α} {I : Set ι} {ext ext' : ι → Set α} {i j : ι} {a : α}

theorem subset (h : Tiles S I ext) (hi : i ∈ I) : ext i ⊆ S := by
  rw [← h.union]
  exact Set.subset_biUnion_of_mem hi

theorem exists_owner (h : Tiles S I ext) (ha : a ∈ S) : ∃ i ∈ I, a ∈ ext i := by
  rw [← h.union] at ha
  simpa using ha

theorem owner_unique (h : Tiles S I ext) (hi : i ∈ I) (hj : j ∈ I) (ha : a ∈ ext i)
    (ha' : a ∈ ext j) : i = j :=
  h.disjoint.elim_set hi hj a ha ha'

/-- Only the extents of the owners count. -/
theorem congr (h : Tiles S I ext) (hext : ∀ i ∈ I, ext' i = ext i) : Tiles S I ext' where
  union := (Set.iUnion₂_congr hext).trans h.union
  disjoint := fun i hi j hj hij => by
    simp only [Function.onFun, hext i hi, hext j hj]
    exact h.disjoint hi hj hij

/-- A new owner gets an unused extent. -/
theorem insert (h : Tiles S I ext) (hfree : Disjoint (ext i) S) :
    Tiles (S ∪ ext i) (Insert.insert i I) ext where
  union := by rw [Set.biUnion_insert, h.union, Set.union_comm]
  disjoint := h.disjoint.insert fun _ hj _ => hfree.mono_right (h.subset hj)

/-- An owner gives up its extent. -/
theorem erase (h : Tiles S I ext) (hi : i ∈ I) : Tiles (S \ ext i) (I \ {i}) ext where
  union := by
    refine Set.Subset.antisymm (fun a ha => ?_) fun a ha => ?_
    · obtain ⟨j, ⟨hj, hne⟩, ha⟩ := Set.mem_iUnion₂.mp ha
      exact ⟨h.subset hj ha, fun ha' => hne (h.owner_unique hj hi ha ha')⟩
    · obtain ⟨j, hj, haj⟩ := h.exists_owner ha.1
      exact Set.mem_biUnion ⟨hj, fun he => ha.2 (he ▸ haj)⟩ haj
  disjoint := h.disjoint.subset Set.sdiff_subset

/-- Finitely many owners of bounded extents cannot use up a long initial segment. -/
theorem le_of_subset {S : Set Nat} {ext : ι → Set Nat} (h : Tiles S I ext) {b m : Nat}
    (hS : Set.Iio b ⊆ S) (t : Finset ι) (hI : I ⊆ t) (f : ι → Finset Nat)
    (hf : ∀ i ∈ I, ext i ⊆ f i) (hm : ∀ i ∈ t, (f i).card ≤ m) : b ≤ t.card * m := by
  classical
  have hsub : Finset.range b ⊆ t.biUnion f := fun x hx => by
    obtain ⟨i, hi, hxi⟩ := h.exists_owner (hS (Finset.mem_range.mp hx))
    exact Finset.mem_biUnion.mpr ⟨i, hI hi, hf i hi hxi⟩
  calc
    b = (Finset.range b).card := (Finset.card_range b).symm
    _ ≤ (t.biUnion f).card := Finset.card_le_card hsub
    _ ≤ t.card * m := Finset.card_biUnion_le_card_mul _ _ _ hm

end Tiles
