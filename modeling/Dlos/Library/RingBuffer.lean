import Mathlib.Data.List.Range
import Mathlib.Logic.Function.Basic

/-!
# Ring buffers

A buffer of `cap` cells used in a circle: an element is put in at the head and taken out at the
tail, and both wrap at the end. An element put into a full ring is dropped. `contents` lists what
a ring holds, the next one to be taken out first; cells outside it are unrestricted.
-/

universe u

structure RingBuffer (α : Type u) where
  buf : Nat → α
  head : Nat
  tail : Nat
  count : Int

namespace RingBuffer

variable {α : Type u} {cap : Nat} {r : RingBuffer α} {x : α} {l : List α}

/-- The next cell in the circle. -/
def advance (cap p : Nat) : Nat := if p + 1 = cap then 0 else p + 1

/-- The cell `i` places behind `p`. -/
def cell (cap p i : Nat) : Nat := if p + i < cap then p + i else p + i - cap

def put (cap : Nat) (r : RingBuffer α) (x : α) : RingBuffer α :=
  if r.count < cap then
    { buf := Function.update r.buf r.head x
      head := advance cap r.head
      tail := r.tail
      count := r.count + 1 }
  else r

/-- The element to be taken out next. -/
def first (r : RingBuffer α) : α := r.buf r.tail

/-- Take an element out. -/
def drop (cap : Nat) (r : RingBuffer α) : RingBuffer α :=
  { r with tail := advance cap r.tail, count := r.count - 1 }

/-- The pointers are inside the buffer, and the count is the distance between them. -/
structure Valid (cap : Nat) (r : RingBuffer α) : Prop where
  nonneg : 0 ≤ r.count
  le_cap : r.count ≤ cap
  tail_lt : r.tail < cap
  head_eq : r.head = if r.count = cap then r.tail else cell cap r.tail r.count.toNat

def contents (cap : Nat) (r : RingBuffer α) : List α :=
  (List.range r.count.toNat).map fun i => r.buf (cell cap r.tail i)

theorem advance_lt {p : Nat} (h : p < cap) : advance cap p < cap := by
  unfold advance
  split <;> omega

theorem cell_lt {p i : Nat} (h : p < cap) (hi : i < cap) : cell cap p i < cap := by
  unfold cell
  split <;> omega

theorem cell_zero {p : Nat} (h : p < cap) : cell cap p 0 = p := by simp [cell, h]

theorem cell_advance {p i : Nat} (hi : i + 1 < cap) :
    cell cap (advance cap p) i = cell cap p (i + 1) := by
  unfold cell advance
  split_ifs <;> omega

theorem advance_cell {p i : Nat} (h : p < cap) (hi : i + 1 < cap) :
    advance cap (cell cap p i) = cell cap p (i + 1) := by
  unfold cell advance
  split_ifs <;> omega

theorem advance_last {p : Nat} (h : p < cap) : advance cap (cell cap p (cap - 1)) = p := by
  unfold cell advance
  split_ifs <;> omega

theorem cell_ne {p i j : Nat} (hj : j < cap) (hij : i < j) :
    cell cap p i ≠ cell cap p j := by
  unfold cell
  split_ifs <;> omega

namespace Valid

/-- An empty ring whose pointers agree. -/
theorem empty (hcount : r.count = 0) (hhead : r.head = r.tail) (h : r.tail < cap) : Valid cap r where
  nonneg := by omega
  le_cap := by omega
  tail_lt := h
  head_eq := by simp [hcount, hhead, cell_zero h]

theorem head_lt (h : Valid cap r) : r.head < cap := by
  have := h.nonneg
  have := h.le_cap
  rw [h.head_eq]
  split
  · exact h.tail_lt
  · exact cell_lt h.tail_lt (by omega)

theorem put (h : Valid cap r) (x : α) : Valid cap (r.put cap x) := by
  have hnonneg := h.nonneg
  unfold RingBuffer.put
  split
  case isFalse => exact h
  case isTrue hlt =>
    refine ⟨by simp only []; omega, by simp only []; omega, h.tail_lt, ?_⟩
    simp only []
    rw [h.head_eq, if_neg (by omega)]
    split
    · rename_i hfull
      rw [show r.count.toNat = cap - 1 by omega]
      exact advance_last h.tail_lt
    · rw [advance_cell h.tail_lt (by omega)]
      congr 1
      omega

theorem drop (h : Valid cap r) (hpos : 0 < r.count) : Valid cap (r.drop cap) := by
  have htail := h.tail_lt
  have hle := h.le_cap
  have hne : (r.drop cap).count ≠ cap := by simp only [RingBuffer.drop]; omega
  refine ⟨by simp only [RingBuffer.drop]; omega, by simp only [RingBuffer.drop]; omega,
    advance_lt htail, ?_⟩
  rw [if_neg hne]
  simp only [RingBuffer.drop, h.head_eq]
  by_cases hfull : r.count = cap
  · rw [if_pos hfull, hfull]
    unfold cell advance
    split_ifs <;> omega
  · rw [if_neg hfull, cell_advance (by omega)]
    congr 1
    omega

end Valid

theorem contents_eq_nil (h : Valid cap r) : r.contents cap = [] ↔ r.count = 0 := by
  have := h.nonneg
  rw [contents, List.map_eq_nil_iff, List.range_eq_nil]
  omega

theorem length_contents (h : Valid cap r) : ((r.contents cap).length : Int) = r.count := by
  have := h.nonneg
  simp only [contents, List.length_map, List.length_range]
  omega

theorem contents_put_of_lt (h : Valid cap r) (hlt : r.count < cap) (x : α) :
    (r.put cap x).contents cap = r.contents cap ++ [x] := by
  have hnonneg := h.nonneg
  have htail := h.tail_lt
  have hhead : r.head = cell cap r.tail r.count.toNat := by rw [h.head_eq, if_neg (by omega)]
  have hsucc : (r.count + 1).toNat = r.count.toNat + 1 := by omega
  simp only [contents, RingBuffer.put, if_pos hlt, hsucc, List.range_succ, List.map_append, List.map_cons,
    List.map_nil]
  congr 1
  · refine List.map_congr_left fun i hi => ?_
    have hi := List.mem_range.mp hi
    rw [Function.update_of_ne]
    rw [hhead]
    exact cell_ne (by omega) hi
  · rw [hhead, Function.update_self]

theorem put_of_full (hfull : ¬ r.count < cap) (x : α) : r.put cap x = r := by
  simp [RingBuffer.put, hfull]

/-- What is put in comes after everything that is there, or is dropped. -/
theorem contents_put (h : Valid cap r) (x : α) : (r.put cap x).contents cap =
    if (r.contents cap).length < cap then r.contents cap ++ [x] else r.contents cap := by
  have hlen := length_contents h
  by_cases hlt : r.count < cap
  · rw [contents_put_of_lt h hlt, if_pos (by omega)]
  · rw [put_of_full hlt, if_neg (by omega)]

theorem contents_drop (h : Valid cap r) (hpos : 0 < r.count) :
    r.contents cap = r.first :: (r.drop cap).contents cap := by
  have hle := h.le_cap
  have htail := h.tail_lt
  have hsucc : r.count.toNat = (r.count - 1).toNat + 1 := by omega
  simp only [contents, hsucc, List.range_succ_eq_map, List.map_cons, List.map_map, first,
    cell_zero htail, RingBuffer.drop]
  congr 1
  refine List.map_congr_left fun i hi => ?_
  have hi := List.mem_range.mp hi
  rw [cell_advance (by omega)]
  rfl

end RingBuffer
