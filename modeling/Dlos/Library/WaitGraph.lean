import Mathlib.Data.Fintype.Card
import Mathlib.Logic.Relation

/-!
# Wait-for graphs in which every node waits for at most one other

`waits x = some y` is the edge from `x` to `y`. Such a graph is acyclic when no node reaches
itself. Following the edges of an acyclic graph on `n` nodes ends within `n` nodes, and the walk
that looks for a node on the way decides reachability. An edge that would not close a cycle
keeps the graph acyclic, and so does removing edges.
-/

namespace WaitGraph

open Relation

variable {α : Type*}

/-- One edge of the graph. -/
def Edge (waits : α → Option α) (x y : α) : Prop := waits x = some y

/-- `y` is reached from `x` by one edge or more. -/
def Reaches (waits : α → Option α) : α → α → Prop := TransGen (Edge waits)

def Acyclic (waits : α → Option α) : Prop := ∀ x, ¬ Reaches waits x x

variable {waits waits' : α → Option α} {x y z : α}

/-- The only way out of a node is along its edge. -/
theorem reaches_iff : Reaches waits x z ↔ ∃ y, waits x = some y ∧ (y = z ∨ Reaches waits y z) := by
  constructor
  · intro h
    obtain ⟨y, hxy, hyz⟩ := TransGen.head'_iff.mp h
    refine ⟨y, hxy, ?_⟩
    rcases reflTransGen_iff_eq_or_transGen.mp hyz with rfl | h
    · exact .inl rfl
    · exact .inr h
  · rintro ⟨y, hxy, rfl | hyz⟩
    · exact .single hxy
    · exact .head hxy hyz

theorem Reaches.single (h : waits x = some y) : Reaches waits x y := TransGen.single h

theorem not_reaches_of_none (h : waits x = none) : ¬ Reaches waits x z := by
  rw [reaches_iff]
  simp [h]

theorem Reaches.mono (sub : ∀ x y, waits x = some y → waits' x = some y)
    (h : Reaches waits x y) : Reaches waits' x y := TransGen.mono (fun a b => sub a b) x y h

/-- Removing edges keeps a graph acyclic. -/
theorem Acyclic.mono (h : Acyclic waits') (sub : ∀ x y, waits x = some y → waits' x = some y) :
    Acyclic waits := fun x hx => h x (hx.mono sub)

/-- A path in the graph with the new edge `src → dest` is an old path or passes that edge. -/
theorem Reaches.split [DecidableEq α] {src dest : α}
    (h : Reaches (Function.update waits src (some dest)) x y) :
    Reaches waits x y ∨
      ((x = src ∨ Reaches waits x src) ∧ (dest = y ∨ Reaches waits dest y)) := by
  induction h with
  | single hxy =>
    by_cases hs : x = src
    · subst hs
      simp only [Edge, Function.update_self, Option.some.injEq] at hxy
      exact .inr ⟨.inl rfl, .inl hxy⟩
    · rw [Edge, Function.update_of_ne hs] at hxy
      exact .inl (.single hxy)
  | @tail u v _ huv ih =>
    by_cases hs : u = src
    · subst hs
      simp only [Edge, Function.update_self, Option.some.injEq] at huv
      rcases ih with h | ⟨h, -⟩
      · exact .inr ⟨.inr h, .inl huv⟩
      · exact .inr ⟨h, .inl huv⟩
    · rw [Edge, Function.update_of_ne hs] at huv
      rcases ih with h | ⟨h, rfl | h'⟩
      · exact .inl (.tail h huv)
      · exact .inr ⟨h, .inr (.single huv)⟩
      · exact .inr ⟨h, .inr (.tail h' huv)⟩

/-- An edge from a node that waits for nobody to one that does not reach it closes no cycle. -/
theorem Acyclic.add [DecidableEq α] (h : Acyclic waits) {src dest : α} (hne : dest ≠ src)
    (hreach : ¬ Reaches waits dest src) :
    Acyclic (Function.update waits src (some dest)) := by
  intro x hx
  rcases hx.split with hx | ⟨hxs, hdx⟩
  · exact h x hx
  · apply hreach
    rcases hxs with rfl | hxs
    · exact hdx.resolve_left hne
    · rcases hdx with rfl | hdx
      · exact hxs
      · exact hdx.trans hxs

/-- Adding the edge `src → dest` closes a cycle through `src` exactly when `dest` is or
reaches `src`. -/
theorem reaches_update_self [DecidableEq α] (h : Acyclic waits) {src dest : α} :
    Reaches (Function.update waits src (some dest)) src src ↔
      dest = src ∨ Reaches waits dest src := by
  constructor
  · intro hs
    rcases hs.split with hs | ⟨-, hd⟩
    · exact absurd hs (h src)
    · exact hd
  · have edge : Edge (Function.update waits src (some dest)) src dest := by simp [Edge]
    rintro (rfl | hd)
    · exact .single edge
    · by_contra hcyc
      -- the old path from `dest` may be taken up to its first visit of `src`
      have lift : ∀ y, Reaches waits y src →
          Reaches (Function.update waits src (some dest)) y src := by
        intro y hy
        induction hy using TransGen.head_induction_on with
        | @single a ha =>
          by_cases hs : a = src
          · subst hs; exact absurd (.single ha) (h a)
          · exact .single ((Function.update_of_ne hs _ _).trans ha)
        | @head a b ha _ ih =>
          by_cases hs : a = src
          · subst hs
            exact absurd (TransGen.head ha (by assumption)) (h a)
          · exact .head ((Function.update_of_ne hs _ _).trans ha) ih
      exact hcyc (.head edge (lift dest hd))

/-! ## Walking the graph -/

section Walk

variable [Fintype α]

open Classical in
/-- The number of nodes reached from `x`; every edge of an acyclic graph lowers it. -/
noncomputable def rank (waits : α → Option α) (x : α) : Nat :=
  (Finset.univ.filter (Reaches waits x)).card

theorem rank_lt (h : Acyclic waits) (hxy : waits x = some y) : rank waits y < rank waits x := by
  classical
  apply Finset.card_lt_card
  rw [Finset.ssubset_iff_of_subset]
  · exact ⟨y, by simpa using Reaches.single hxy, by simpa using h y⟩
  · intro z hz
    simp only [Finset.mem_filter, Finset.mem_univ, true_and] at hz ⊢
    exact .head hxy hz

theorem rank_lt_card (h : Acyclic waits) (x : α) : rank waits x < Fintype.card α := by
  classical
  apply Finset.card_lt_univ_of_notMem (x := x)
  simpa using h x

/-- A walk along the edges from `x` that looks for `src`: it answers `true` at a node that waits
for `src`, `false` at a node that waits for nobody, and `none` when the fuel is used up. -/
def walk [DecidableEq α] (waits : α → Option α) (src : α) : Nat → α → Option Bool
  | 0, _ => none
  | fuel + 1, x =>
    match waits x with
    | none => some false
    | some y => if y = src then some true else walk waits src fuel y

/-- With more fuel than nodes ahead, the walk ends and its answer is reachability. -/
theorem walk_eq [DecidableEq α] (h : Acyclic waits) (src : α) {fuel : Nat}
    (enough : rank waits x < fuel) :
    ∃ b, walk waits src fuel x = some b ∧ (b = true ↔ Reaches waits x src) := by
  induction fuel generalizing x with
  | zero => omega
  | succ fuel ih =>
    rw [walk]
    cases hx : waits x with
    | none => exact ⟨false, rfl, by simpa using not_reaches_of_none hx⟩
    | some y =>
      by_cases hy : y = src
      · subst hy
        exact ⟨true, by simp, by simpa using Reaches.single hx⟩
      · have hlt := rank_lt h hx
        obtain ⟨b, hb, hiff⟩ := ih (x := y) (by omega)
        refine ⟨b, by simpa [hy] using hb, ?_⟩
        rw [hiff, reaches_iff (x := x)]
        simp [hx, hy]

end Walk

end WaitGraph
