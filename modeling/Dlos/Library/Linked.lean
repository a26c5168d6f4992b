import Mathlib.Data.List.Nodup
import Mathlib.Logic.Function.Basic

/-!
# Singly linked lists through a `next` field

`Linked next p l`: following `next` from the pointer `p` visits exactly the cells of `l`, in
order, and ends. The cells are those of one table, so the list is intrusive: appending and
unlinking only change `next` of the cells involved. `last` and `seek` are the two walks a
program makes over such a list.
-/

namespace Linked

variable {α : Type*}

/-- The cells visited from `p` are those of the list. -/
def Chain (next : α → Option α) : Option α → List α → Prop
  | p, [] => p = none
  | p, a :: l => p = some a ∧ Chain next (next a) l

variable {next next' : α → Option α} {p : Option α} {a b x : α} {l l₁ l₂ : List α}

@[simp] theorem chain_nil : Chain next p [] ↔ p = none := Iff.rfl

@[simp] theorem chain_cons : Chain next p (a :: l) ↔ p = some a ∧ Chain next (next a) l := Iff.rfl

/-- The cells are determined by the pointers. -/
theorem Chain.unique (h₁ : Chain next p l₁) (h₂ : Chain next p l₂) : l₁ = l₂ := by
  induction l₁ generalizing p l₂ with
  | nil =>
    cases l₂ with
    | nil => rfl
    | cons b l₂ =>
      rw [chain_nil] at h₁
      simp [h₁] at h₂
  | cons a l₁ ih =>
    cases l₂ with
    | nil => simp [chain_nil.mp h₂] at h₁
    | cons b l₂ =>
      obtain ⟨rfl, h₁⟩ := h₁
      obtain ⟨hab, h₂⟩ := h₂
      obtain rfl := Option.some.inj hab
      rw [ih h₁ h₂]

/-- Only the links of visited cells matter. -/
theorem Chain.congr (h : Chain next p l) (same : ∀ a ∈ l, next' a = next a) :
    Chain next' p l := by
  induction l generalizing p with
  | nil => exact h
  | cons a l ih =>
    refine ⟨h.1, ?_⟩
    rw [same a (by simp)]
    exact ih h.2 fun b hb => same b (by simp [hb])

theorem Chain.eq_nil (h : Chain next none l) : l = [] := by
  cases l with
  | nil => rfl
  | cons a l => simp at h

theorem Chain.eq_cons (h : Chain next (some a) l) : ∃ l', l = a :: l' ∧ Chain next (next a) l' := by
  cases l with
  | nil => simp at h
  | cons b l =>
    obtain ⟨hab, h⟩ := h
    obtain rfl := Option.some.inj hab
    exact ⟨l, rfl, h⟩

/-- A chain can be cut before any of its cells. -/
theorem Chain.suffix (h : Chain next p (l₁ ++ x :: l₂)) : Chain next (next x) l₂ := by
  induction l₁ generalizing p with
  | nil => exact h.2
  | cons a l₁ ih => exact ih h.2

/-- Append `x` behind the last cell `a`: only the links of `a` and `x` change. -/
theorem Chain.append (h : Chain next p (l ++ [a])) (last : next' a = some x)
    (stop : next' x = none) (same : ∀ b ∈ l, next' b = next b) :
    Chain next' p (l ++ [a] ++ [x]) := by
  induction l generalizing p with
  | nil => exact ⟨h.1, last, stop⟩
  | cons b l ih =>
    refine ⟨h.1, ?_⟩
    rw [same b (by simp)]
    exact ih h.2 fun c hc => same c (by simp [hc])

/-- Unlink `x` from behind its predecessor `a`: only the link of `a` matters. -/
theorem Chain.unlink (h : Chain next p (l₁ ++ a :: x :: l₂)) (skip : next' a = next x)
    (same₁ : ∀ b ∈ l₁, next' b = next b) (same₂ : ∀ b ∈ l₂, next' b = next b) :
    Chain next' p (l₁ ++ a :: l₂) := by
  induction l₁ generalizing p with
  | nil =>
    refine ⟨h.1, ?_⟩
    rw [skip]
    exact h.2.2.congr same₂
  | cons b l₁ ih =>
    refine ⟨h.1, ?_⟩
    rw [same₁ b (by simp)]
    exact ih h.2 fun c hc => same₁ c (by simp [hc])

/-! ## The two walks -/

/-- Follow the links from `a` to the last cell; `none` when the fuel does not reach it. -/
def last (next : α → Option α) : Nat → α → Option α
  | 0, _ => none
  | fuel + 1, a =>
    match next a with
    | none => some a
    | some b => last next fuel b

/-- The walk to the end needs one unit of fuel for each cell. -/
theorem Chain.last_eq (h : Chain next (some b) (l ++ [a])) {fuel : Nat}
    (enough : l.length < fuel) : last next fuel b = some a := by
  induction l generalizing b fuel with
  | nil =>
    obtain ⟨hb, hstop⟩ := h
    obtain rfl := Option.some.inj hb
    cases fuel with
    | zero => omega
    | succ fuel => simp [last, chain_nil.mp hstop]
  | cons c l ih =>
    obtain ⟨hb, hrest⟩ := h
    obtain rfl := Option.some.inj hb
    cases fuel with
    | zero => omega
    | succ fuel =>
      obtain ⟨d, hd⟩ : ∃ d, next b = some d := by
        cases l with
        | nil => exact ⟨a, hrest.1⟩
        | cons d l => exact ⟨d, hrest.1⟩
      simp only [last, hd]
      exact ih (hd ▸ hrest) (by simpa using enough)

/-- Look for `x` from the pointer `p` and give the cell before it, or the last cell when `x` is
not met; `none` when the fuel does not reach that far. -/
def seek [DecidableEq α] (next : α → Option α) (x : α) :
    Nat → Option α → Option α → Option (Option α)
  | 0, _, _ => none
  | _ + 1, prev, none => some prev
  | fuel + 1, prev, some b => if b = x then some prev else seek next x fuel (some b) (next b)

theorem Chain.seek_eq [DecidableEq α] (h : Chain next p (l₁ ++ x :: l₂)) (fresh : x ∉ l₁)
    {fuel : Nat} (enough : l₁.length < fuel) (prev : Option α) :
    seek next x fuel prev p = some (l₁.getLast?.or prev) := by
  induction l₁ generalizing p fuel prev with
  | nil =>
    obtain ⟨rfl, -⟩ := h
    cases fuel with
    | zero => omega
    | succ fuel => simp [seek]
  | cons b l₁ ih =>
    obtain ⟨rfl, h⟩ := h
    cases fuel with
    | zero => omega
    | succ fuel =>
      have hb : b ≠ x := fun e => fresh (by simp [e])
      rw [seek, if_neg hb, ih h (fun hx => fresh (by simp [hx])) (by simpa using enough)]
      cases l₁ <;> simp [List.getLast?_cons]

end Linked
