import Mathlib.Data.Nat.Count

/-!
# Tables of slots

A slot holds a key and a value and is free when the value is 0. Of a table of slots the first `n`
count. `lookup` takes the first slot that has the key, free or not; `place` is where a new entry
goes, the first free slot or the one behind the last; `used` counts the slots that are not free.
-/

universe u v

structure Slot (κ : Type u) (ν : Type v) where
  val : ν
  key : κ

namespace Slot

/-- The first number below `n` with a property. -/
def first (P : Nat → Prop) [DecidablePred P] (n : Nat) : Option Nat :=
  (List.range n).find? fun k => decide (P k)

section

variable {P : Nat → Prop} [DecidablePred P] {n k : Nat}

theorem first_eq_some : first P n = some k ↔ k < n ∧ P k ∧ ∀ j < k, ¬P j := by
  simp only [first, List.find?_range_eq_some, decide_eq_true_eq, List.mem_range, Bool.not_eq_true',
    decide_eq_false_iff_not]
  tauto

theorem first_eq_none : first P n = none ↔ ∀ j < n, ¬P j := by
  simp [first]

end

variable {κ : Type u} {ν : Type v} {T T' : Nat → Slot κ ν} {n m k j : Nat} {x : κ}

/-! ## Searching a key -/

/-- Slot `k` is the first one that has the key. -/
structure FoundAt (T : Nat → Slot κ ν) (n : Nat) (x : κ) (k : Nat) : Prop where
  lt : k < n
  key : (T k).key = x
  before : ∀ j < k, (T j).key ≠ x

theorem FoundAt.mono (h : FoundAt T n x k) (hnm : n ≤ m) : FoundAt T m x k :=
  ⟨h.lt.trans_le hnm, h.key, h.before⟩

section

variable [DecidableEq κ]

/-- A key is found in one slot or is in no slot. -/
theorem found_or_absent (T : Nat → Slot κ ν) (n : Nat) (x : κ) :
    (∃ k, FoundAt T n x k) ∨ ∀ j < n, (T j).key ≠ x := by
  cases h : first (fun k => (T k).key = x) n with
  | some k =>
    obtain ⟨hlt, hkey, hbefore⟩ := first_eq_some.mp h
    exact .inl ⟨k, hlt, hkey, hbefore⟩
  | none => exact .inr (first_eq_none.mp h)

variable [Zero ν]

def lookup (T : Nat → Slot κ ν) (n : Nat) (x : κ) : ν :=
  match first (fun k => (T k).key = x) n with
  | some k => (T k).val
  | none => 0

theorem FoundAt.lookup (h : FoundAt T n x k) : lookup T n x = (T k).val := by
  have : first (fun k => (T k).key = x) n = some k :=
    first_eq_some.mpr ⟨h.lt, h.key, h.before⟩
  rw [Slot.lookup, this]

theorem lookup_of_absent (h : ∀ j < n, (T j).key ≠ x) : lookup T n x = 0 := by
  rw [lookup, first_eq_none.mpr h]

/-- Slots that do not have the key do not matter. -/
theorem lookup_congr (h : ∀ k < n, T' k = T k ∨ (T' k).key ≠ x ∧ (T k).key ≠ x) :
    lookup T' n x = lookup T n x := by
  have hkey (k : Nat) (hk : k < n) : (T' k).key = x ↔ (T k).key = x := by
    rcases h k hk with he | ⟨h₁, h₂⟩
    · rw [he]
    · exact ⟨fun hx => absurd hx h₁, fun hx => absurd hx h₂⟩
  rcases found_or_absent T n x with ⟨k, hk⟩ | ha
  · have hk' : FoundAt T' n x k :=
      ⟨hk.lt, (hkey k hk.lt).mpr hk.key, fun j hj he => hk.before j hj ((hkey j (hj.trans hk.lt)).mp he)⟩
    rw [hk.lookup, hk'.lookup]
    rcases h k hk.lt with he | ⟨_, hne⟩
    · rw [he]
    · exact absurd hk.key hne
  · rw [lookup_of_absent ha, lookup_of_absent fun j hj he => ha j hj ((hkey j hj).mp he)]

/-- When only the last slot can have the key. -/
theorem lookup_succ_of_absent (h : ∀ k < n, (T k).key ≠ x) :
    lookup T (n + 1) x = if (T n).key = x then (T n).val else 0 := by
  split_ifs with hn
  · exact FoundAt.lookup ⟨Nat.lt_succ_self n, hn, h⟩
  · refine lookup_of_absent fun k hk => ?_
    rcases Nat.lt_succ_iff_lt_or_eq.mp hk with hlt | rfl
    · exact h k hlt
    · exact hn

end

/-! ## The place of a new entry -/

variable [DecidableEq ν] [Zero ν]

def place (T : Nat → Slot κ ν) (n : Nat) : Nat := (first (fun k => (T k).val = 0) n).getD n

theorem place_le : place T n ≤ n := by
  rw [place]
  cases h : first (fun k => (T k).val = 0) n with
  | some k => exact (first_eq_some.mp h).1.le
  | none => exact Nat.le_refl n

theorem val_place (h : place T n < n) : (T (place T n)).val = 0 := by
  rw [place] at h ⊢
  cases hf : first (fun k => (T k).val = 0) n with
  | some k => exact (first_eq_some.mp hf).2.1
  | none => simp [hf] at h

theorem val_of_lt_place (h : k < place T n) : (T k).val ≠ 0 := by
  rw [place] at h
  cases hf : first (fun k => (T k).val = 0) n with
  | some j =>
    rw [hf] at h
    exact (first_eq_some.mp hf).2.2 k h
  | none =>
    rw [hf] at h
    exact first_eq_none.mp hf k h

theorem place_eq (hk : k ≤ n) (hfree : k < n → (T k).val = 0) (hused : ∀ j < k, (T j).val ≠ 0) :
    place T n = k := by
  rcases Nat.lt_trichotomy (place T n) k with hlt | heq | hgt
  · exact absurd (val_place (hlt.trans_le hk)) (hused _ hlt)
  · exact heq
  · exact absurd (hfree (hgt.trans_le place_le)) (val_of_lt_place hgt)

/-- A key that leads to no entry is in no slot before the place of a new one. -/
theorem key_ne_of_lt_place [DecidableEq κ] (h : lookup T (n + 1) x = 0) :
    ∀ j < place T n, (T j).key ≠ x := by
  intro j hj hkey
  have hle : place T n ≤ n := place_le
  rcases found_or_absent T (n + 1) x with ⟨k, hk⟩ | ha
  · rw [hk.lookup] at h
    have hkj : k ≤ j := by
      by_contra hlt
      exact hk.before j (by omega) hkey
    exact val_of_lt_place (hkj.trans_lt hj) h
  · exact ha j (by omega) hkey

/-! ## Counting the entries -/

/-- The number of entries in the first `n` slots. -/
def used (T : Nat → Slot κ ν) (n : Nat) : Nat := Nat.count (fun k => (T k).val ≠ 0) n

theorem used_zero : used T 0 = 0 := Nat.count_zero _

theorem used_succ : used T (n + 1) = used T n + if (T n).val ≠ 0 then 1 else 0 := Nat.count_succ _ _

theorem used_le : used T n ≤ n := Nat.count_le _

theorem used_mono (h : n ≤ m) : used T n ≤ used T m := Nat.count_monotone _ h

theorem used_lt (hj : j < n) (h : (T j).val ≠ 0) : used T j < used T n := by
  have hone : used T (j + 1) = used T j + 1 := by rw [used_succ, if_pos h]
  have := used_mono (T := T) (show j + 1 ≤ n from hj)
  omega

/-- The number of free slots does not decrease. -/
theorem used_add_le (h : n ≤ m) : used T m + n ≤ used T n + m := by
  induction m, h using Nat.le_induction with
  | base => exact Nat.le_refl _
  | succ m _ ih =>
    rw [used_succ]
    split_ifs <;> omega

/-- Every entry lies below the number of entries or right behind exactly if no entry lies behind
two free slots. -/
theorem le_used_iff : (∀ j < n, (T j).val ≠ 0 → j ≤ used T n) ↔
    ∀ j < n, (T j).val ≠ 0 → j ≤ used T j + 1 := by
  constructor
  · induction n with
    | zero => exact fun _ j hj => absurd hj (Nat.not_lt_zero j)
    | succ n ih =>
      intro h j hj hval
      by_cases hn : (T n).val = 0
      · have hjn : j ≠ n := fun e => hval (e ▸ hn)
        refine ih (fun i hi hi' => ?_) j (by omega) hval
        have := h i (by omega) hi'
        rwa [used_succ, if_neg (not_not.mpr hn)] at this
      · have hlast := h n (by omega) hn
        rw [used_succ, if_pos hn] at hlast
        have := used_add_le (T := T) (Nat.le_of_lt_succ hj)
        omega
  · intro h j hj hval
    have := h j hj hval
    have := used_lt hj hval
    omega

end Slot
