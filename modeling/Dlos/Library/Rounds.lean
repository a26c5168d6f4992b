import Mathlib.Algebra.Order.BigOperators.Group.Finset
import Mathlib.Tactic.Tauto

/-!
# Rounds of service

In a round each of finitely many clients gets as many units of service as its weight. A client is
served until it has got all of them, then the one with the most units left is, the first one on a
tie. So the clients are served in the order of their weights, each at the times from `start` on, and
`left` is what remains for a client at time `j` of the round.
-/

namespace Rounds

variable {ι : Type} [LinearOrder ι] {R : Finset ι} {w : ι → ℕ} {p q r : ι} {j : ℕ}

/-- The order of service. -/
def Before (w : ι → ℕ) (p q : ι) : Prop := w q < w p ∨ w q = w p ∧ p < q

instance (w : ι → ℕ) (p q : ι) : Decidable (Before w p q) :=
  inferInstanceAs (Decidable (_ ∨ _ ∧ _))

theorem Before.trans (h : Before w p q) (h' : Before w q r) : Before w p r := by
  rcases h with h | ⟨h, hlt⟩ <;> rcases h' with h' | ⟨h', hlt'⟩
  · exact .inl (h'.trans h)
  · exact .inl (h' ▸ h)
  · exact .inl (h ▸ h')
  · exact .inr ⟨h'.trans h, hlt.trans hlt'⟩

theorem not_before_self : ¬Before w p p := by
  rintro (h | ⟨_, h⟩)
  · exact lt_irrefl _ h
  · exact lt_irrefl _ h

theorem before_or_before (h : p ≠ q) : Before w p q ∨ Before w q p := by
  rcases lt_trichotomy (w p) (w q) with hw | hw | hw
  · exact .inr (.inl hw)
  · rcases lt_or_gt_of_ne h with hlt | hlt
    · exact .inl (.inr ⟨hw.symm, hlt⟩)
    · exact .inr (.inr ⟨hw, hlt⟩)
  · exact .inl (.inl hw)

/-- The time at which a client's service begins. -/
def start (R : Finset ι) (w : ι → ℕ) (p : ι) : ℕ := ∑ q ∈ R with Before w q p, w q

/-- The units that remain for a client at time `j`. -/
def left (R : Finset ι) (w : ι → ℕ) (j : ℕ) (p : ι) : ℕ := min (w p) (start R w p + w p - j)

/-- The client is served at time `j`. -/
structure Serves (R : Finset ι) (w : ι → ℕ) (j : ℕ) (p : ι) : Prop where
  mem : p ∈ R
  start_le : start R w p ≤ j
  lt : j < start R w p + w p

theorem left_zero : left R w 0 p = w p := by
  rw [left]
  omega

theorem sum_insert_before :
    ∑ q ∈ insert p (R.filter (Before w · p)), w q = start R w p + w p := by
  have hnot : p ∉ R.filter (Before w · p) := fun h => not_before_self (Finset.mem_filter.mp h).2
  rw [Finset.sum_insert hnot, start, add_comm]

/-- One client's service ends before another's begins. -/
theorem start_add_le (hp : p ∈ R) (h : Before w p q) : start R w p + w p ≤ start R w q := by
  rw [← sum_insert_before]
  refine Finset.sum_le_sum_of_subset fun r hr => ?_
  rcases Finset.mem_insert.mp hr with rfl | hr
  · exact Finset.mem_filter.mpr ⟨hp, h⟩
  · rw [Finset.mem_filter] at hr ⊢
    exact ⟨hr.1, hr.2.trans h⟩

theorem Serves.eq_of (h : Serves R w j p) (hq : q ∈ R) (hle : start R w q ≤ j)
    (hlt : j < start R w q + w q) : p = q := by
  have h₁ := h.start_le
  have h₂ := h.lt
  by_contra hne
  rcases before_or_before (w := w) hne with hb | hb
  · have := start_add_le h.mem hb
    omega
  · have := start_add_le hq hb
    omega

/-- Who is served loses a unit. -/
theorem Serves.left_succ (h : Serves R w j p) (hq : q ∈ R) :
    left R w (j + 1) q = if q = p then left R w j q - 1 else left R w j q := by
  have h₁ := h.start_le
  have h₂ := h.lt
  rw [left, left]
  split_ifs with hqp
  · rw [hqp]
    omega
  · rcases before_or_before (w := w) hqp with hb | hb
    · have := start_add_le hq hb
      omega
    · have := start_add_le h.mem hb
      omega

theorem Serves.left_pos (h : Serves R w j p) : 0 < left R w j p := by
  have h₁ := h.start_le
  have h₂ := h.lt
  rw [left]
  omega

/-- The one with the most units left, the first one on a tie. -/
structure Next (R : Finset ι) (u : ι → ℕ) (q : ι) : Prop where
  mem : q ∈ R
  pos : 0 < u q
  most : ∀ r ∈ R, u r ≤ u q
  first : ∀ r ∈ R, u r = u q → q ≤ r

theorem Next.not_before (h : Next R w q) (hr : r ∈ R) : ¬Before w r q := by
  rintro (hlt | ⟨heq, hlt⟩)
  · exact absurd (h.most r hr) (by omega)
  · exact absurd (h.first r hr heq.symm) (not_le_of_gt hlt)

/-- At the beginning of a round. -/
theorem serves_zero (h : Next R w q) : Serves R w 0 q := by
  have hstart : start R w q = 0 := by
    rw [start, Finset.filter_eq_empty_iff.mpr fun r hr => h.not_before hr, Finset.sum_empty]
  exact ⟨h.mem, hstart.le, by rw [hstart, Nat.zero_add]; exact h.pos⟩

/-- The next one is served from the time on at which the one before has got all its units. -/
theorem Serves.next (h : Serves R w j p) (hp : left R w (j + 1) p = 0)
    (hq : Next R (left R w (j + 1)) q) : Serves R w (j + 1) q := by
  have h₁ := h.start_le
  have h₂ := h.lt
  have hend : start R w p + w p = j + 1 := by
    rw [left] at hp
    omega
  have hpq : Before w p q := by
    have hne : p ≠ q := fun he => by
      have := hq.pos
      rw [← he] at this
      omega
    refine (before_or_before hne).resolve_right fun hb => ?_
    have hle := start_add_le hq.mem hb
    have hpos := hq.pos
    rw [left] at hpos
    omega
  -- whoever comes behind the one before has all its units, so nobody comes between the two
  have hfull (r : ι) (hb : Before w p r) : left R w (j + 1) r = w r := by
    have := start_add_le h.mem hb
    rw [left]
    omega
  have hset : R.filter (Before w · q) = insert p (R.filter (Before w · p)) := by
    ext r
    rw [Finset.mem_filter, Finset.mem_insert, Finset.mem_filter]
    constructor
    · rintro ⟨hr, hrq⟩
      by_contra hno
      have hpr : Before w p r :=
        (before_or_before fun he => hno (.inl he.symm)).resolve_right fun hb => hno (.inr ⟨hr, hb⟩)
      have hmost := hq.most r hr
      have hfirst := hq.first r hr
      rw [hfull r hpr, hfull q hpq] at hmost hfirst
      rcases hrq with hlt | ⟨heq, hlt⟩
      · omega
      · exact absurd (hfirst heq.symm) (not_le_of_gt hlt)
    · rintro (rfl | ⟨hr, hb⟩)
      · exact ⟨h.mem, hpq⟩
      · exact ⟨hr, hb.trans hpq⟩
  have hstart : start R w q = j + 1 := by
    rw [start, hset, sum_insert_before, hend]
  have hpos := hq.pos
  rw [hfull q hpq] at hpos
  exact ⟨hq.mem, hstart.le, by omega⟩

/-- When nobody has a unit left the round has taken the sum of all weights. -/
theorem Serves.sum_eq (h : Serves R w j p) (hw : ∀ q ∈ R, 0 < w q)
    (hleft : ∀ q ∈ R, left R w (j + 1) q = 0) : ∑ q ∈ R, w q = j + 1 := by
  have h₁ := h.start_le
  have h₂ := h.lt
  have hset : R = insert p (R.filter (Before w · p)) := by
    ext r
    rw [Finset.mem_insert, Finset.mem_filter]
    constructor
    · intro hr
      by_contra hno
      have hpr : Before w p r :=
        (before_or_before fun he => hno (.inl he.symm)).resolve_right fun hb => hno (.inr ⟨hr, hb⟩)
      have hle := start_add_le h.mem hpr
      have hpos := hw r hr
      have hzero := hleft r hr
      rw [left] at hzero
      omega
    · rintro (rfl | ⟨hr, _⟩)
      · exact h.mem
      · exact hr
  have hzero := hleft p h.mem
  rw [left] at hzero
  rw [hset, sum_insert_before]
  omega

end Rounds
