import Mathlib.Logic.Basic

/-!
# Guarded state machines that may stop

A machine starts in one of its initial states and performs events; an event leads to a new
state and may stop the machine for a stated reason. `Reached G s o` says that some run whose
events all meet the guard `G` in the state they start from has come to `s`, still running
(`o = none`) or stopped (`o = some r`).
-/

universe u v w

structure Machine (σ : Type u) (ε : Type v) (ρ : Type w) where
  initial : σ → Prop
  step : ε → σ → σ × Option ρ

namespace Machine

variable {σ : Type u} {ε : Type v} {ρ : Type w} (M : Machine σ ε ρ) {G : σ → ε → Prop}

/-- The states of all runs whose events meet the guard. No event happens after a stop. -/
inductive Reached (G : σ → ε → Prop) : σ → Option ρ → Prop
  | start {s : σ} : M.initial s → Reached G s none
  | step {s : σ} {e : ε} : Reached G s none → G s e → Reached G (M.step e s).1 (M.step e s).2

variable {M}

/-- An event that does not stop the machine. -/
theorem Reached.goOn {s : σ} {e : ε} (h : M.Reached G s none) (he : G s e) (hgo : (M.step e s).2 = none) :
    M.Reached G (M.step e s).1 none := by
  have hstep := h.step he
  rwa [hgo] at hstep

/-- The machine started in one state. -/
def startingAt (M : Machine σ ε ρ) (s : σ) : Machine σ ε ρ := { M with initial := (· = s) }

/-- A run goes on from a state that is reached. -/
theorem Reached.trans {s t : σ} {o : Option ρ} (h : M.Reached G s none) (ht : (M.startingAt s).Reached G t o) :
    M.Reached G t o := by
  induction ht with
  | start hs =>
    obtain rfl := hs
    exact h
  | step _ he ih => exact .step ih he

/-- The induction rule: what holds at the start and is preserved by every guarded event of a
running machine holds of everything reached. The step may use that its state is reached. -/
theorem Reached.invariant {I : σ → Option ρ → Prop} (start : ∀ s, M.initial s → I s none)
    (step : ∀ s e, M.Reached G s none → I s none → G s e → I (M.step e s).1 (M.step e s).2)
    {s : σ} {o : Option ρ} (h : M.Reached G s o) : I s o := by
  induction h with
  | start hs => exact start _ hs
  | step hs he ih => exact step _ _ hs ih he

/-- Perform events one after the other; `none` when an event comes after a stop or does not meet
the guard. -/
def run (M : Machine σ ε ρ) (G : σ → ε → Prop) [∀ s e, Decidable (G s e)] :
    List ε → σ × Option ρ → Option (σ × Option ρ)
  | [], r => some r
  | e :: l, (s, none) => if G s e then M.run G l (M.step e s) else none
  | _ :: _, (_, some _) => none

/-- What a run computes is reached. -/
theorem Reached.of_run [∀ s e, Decidable (G s e)] {s t : σ} {o r : Option ρ}
    (h : M.Reached G s o) {l : List ε} (hrun : M.run G l (s, o) = some (t, r)) :
    M.Reached G t r := by
  induction l generalizing s o with
  | nil =>
    obtain ⟨rfl, rfl⟩ : s = t ∧ o = r := by simpa [run] using hrun
    exact h
  | cons e l ih =>
    cases o with
    | some o => simp [run] at hrun
    | none =>
      rw [run] at hrun
      split at hrun
      · rename_i he
        exact ih (.step h he) hrun
      · simp at hrun

theorem Reached.of_get [∀ s e, Decidable (G s e)] {s : σ} {o : Option ρ} (h : M.Reached G s o)
    {l : List ε} (hrun : (M.run G l (s, o)).isSome) :
    M.Reached G ((M.run G l (s, o)).get hrun).1 ((M.run G l (s, o)).get hrun).2 :=
  h.of_run (Option.some_get hrun).symm

/-- A run under a stronger guard is a run under a weaker one. -/
theorem Reached.mono {H : σ → ε → Prop} (weaker : ∀ s e, G s e → H s e) {s : σ} {o : Option ρ}
    (h : M.Reached G s o) : M.Reached H s o := by
  induction h with
  | start hs => exact .start hs
  | step _ he ih => exact .step ih (weaker _ _ he)

end Machine
