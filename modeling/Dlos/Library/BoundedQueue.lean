import Dlos.Library.Program
import Dlos.Library.RingBuffer

/-!
# Rings as bounded queues

Two operations of a program, of which one puts an element into a ring that is part of the state and
the other one takes an element out, do together what a queue with a bound does: nothing is lost but
what does not fit, nothing comes out twice, and the order stays.
-/

universe u

open Program

/-- What is done to a queue. -/
inductive QueueOp (α : Type u)
  | insert (x : α)
  | remove

namespace QueueOp

variable {α : Type u} {β σ ε : Type}

/-- What comes out of a queue with room for `cap` elements, and what stays in it. Nothing can be
removed from an empty queue. -/
def queue (cap : Nat) : List (QueueOp α) → List α → Option (List α × List α)
  | [], q => some ([], q)
  | insert x :: l, q => queue cap l (if q.length < cap then q ++ [x] else q)
  | remove :: _, [] => none
  | remove :: l, x :: q => (queue cap l q).map fun r => (x :: r.1, r.2)

/-- The program that does the same, and returns what comes out. -/
def perform (ins : α → EStateM ε σ Unit) (rem : EStateM ε σ β) :
    List (QueueOp α) → EStateM ε σ (List β)
  | [] => pure []
  | insert x :: l => do
    ins x
    perform ins rem l
  | remove :: l => do
    let y ← rem
    let ys ← perform ins rem l
    pure (y :: ys)

end QueueOp

namespace RingBuffer

variable {α : Type u} {β σ ε : Type} {cap : Nat} {r : RingBuffer α} {q : List α}

/-- The ring is a queue that holds these elements: the pointers are inside the buffer, and the head
is as far behind the tail as the count says. -/
structure IsQueue (cap : Nat) (r : RingBuffer α) (q : List α) : Prop where
  nonneg : 0 ≤ r.count
  le_cap : r.count ≤ cap
  head_lt : r.head < cap
  tail_lt : r.tail < cap
  head_eq : r.head = (r.tail + r.count.toNat) % cap
  contents : r.contents cap = q

/-- The two operations on a part of the state are those of a ring; `out` is what is seen of an
element that comes out. -/
structure Serves (cap : Nat) (ring : σ → RingBuffer α) (out : α → β) (ins : α → EStateM ε σ Unit)
    (rem : EStateM ε σ β) : Prop where
  ins : ∀ x s, wp (ins x) (fun _ t => ring t = (ring s).put cap x) (fun _ _ => False) s
  rem : ∀ s, 0 ≤ (ring s).count → wp rem (fun y t => 0 < (ring s).count ∧
    y = out (ring s).first ∧ ring t = (ring s).drop cap) (fun _ _ => (ring s).count = 0) s

/-- From this state on the operations do what the queue does that is empty at first. -/
def RefinesQueue (cap : Nat) (ring : σ → RingBuffer α) (out : α → β) (ins : α → EStateM ε σ Unit)
    (rem : EStateM ε σ β) (s : σ) : Prop :=
  ∀ l, wp (QueueOp.perform ins rem l)
    (fun ys t => ∃ xs q, QueueOp.queue cap l [] = some (xs, q) ∧ ys = xs.map out ∧
      IsQueue cap (ring t) q)
    (fun _ _ => QueueOp.queue cap l [] = none) s

theorem Valid.isQueue (h : Valid cap r) : IsQueue cap r (r.contents cap) where
  nonneg := h.nonneg
  le_cap := h.le_cap
  head_lt := h.head_lt
  tail_lt := h.tail_lt
  head_eq := by
    have hnonneg := h.nonneg
    have hle := h.le_cap
    have htail := h.tail_lt
    rw [h.head_eq]
    split
    next hfull => rw [hfull, Int.toNat_natCast, Nat.add_mod_right, Nat.mod_eq_of_lt htail]
    next hfull =>
      unfold cell
      split
      next hlt => rw [Nat.mod_eq_of_lt hlt]
      next hge =>
        rw [Nat.mod_eq_sub_mod (not_lt.mp hge), Nat.mod_eq_of_lt]
        omega
  contents := rfl

variable {ring : σ → RingBuffer α} {out : α → β} {ins : α → EStateM ε σ Unit} {rem : EStateM ε σ β}
  {s : σ}

/-- One operation after the other, from any ring that is in order. -/
theorem Serves.wp_perform (h : Serves cap ring out ins rem) (hs : Valid cap (ring s))
    (l : List (QueueOp α)) : wp (QueueOp.perform ins rem l)
      (fun ys t => ∃ xs q, QueueOp.queue cap l ((ring s).contents cap) = some (xs, q) ∧
        ys = xs.map out ∧ IsQueue cap (ring t) q)
      (fun _ _ => QueueOp.queue cap l ((ring s).contents cap) = none) s := by
  induction l generalizing s with
  | nil => exact ⟨[], _, rfl, rfl, hs.isQueue⟩
  | cons op l ih =>
    cases op with
    | insert x =>
      rw [QueueOp.perform, wp_bind]
      refine (h.ins x s).mono (fun _ t ht => ?_) fun _ _ h => h.elim
      have hput := ih (s := t) (by rw [ht]; exact hs.put x)
      rw [ht, contents_put hs x] at hput
      exact hput
    | remove =>
      rw [QueueOp.perform, wp_bind]
      refine (h.rem s hs.nonneg).mono (fun y t ht => ?_) fun _ _ hempty => ?_
      · obtain ⟨hpos, rfl, hdrop⟩ := ht
        have hrest := ih (s := t) (by rw [hdrop]; exact hs.drop hpos)
        rw [hdrop] at hrest
        rw [wp_bind, contents_drop hs hpos]
        refine hrest.mono (fun ys u hu => ?_) fun _ _ hnone => ?_
        · obtain ⟨xs, q, hqueue, rfl, hu⟩ := hu
          exact ⟨(ring s).first :: xs, q, by rw [QueueOp.queue, hqueue]; rfl, rfl, hu⟩
        · rw [QueueOp.queue, hnone]
          rfl
      · rw [(contents_eq_nil hs).mpr hempty]
        rfl

/-- A ring that is empty at first refines the queue. -/
theorem Serves.refinesQueue (h : Serves cap ring out ins rem) (hs : Valid cap (ring s))
    (hempty : (ring s).count = 0) : RefinesQueue cap ring out ins rem s := by
  intro l
  have hrun := h.wp_perform hs l
  rwa [(contents_eq_nil hs).mpr hempty] at hrun

end RingBuffer
