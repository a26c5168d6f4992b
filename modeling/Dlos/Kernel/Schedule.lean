import Dlos.Kernel.Proc

/-!
# What the scheduler changes

`schedule` picks a runnable process and touches nothing but ticks; with nobody to run it never
returns.
-/

namespace Dlos

open Program

/-- The kernel with other ticks and another process picked. -/
def Kernel.retick (k : Kernel) (t : Pid → Int) (p : Pid) : Kernel :=
  { k with
    procTable := fun q => { k.procTable q with ticks := t q }
    pProcReady := p }

/-- The process that runs is runnable. -/
def Kernel.Runs (k : Kernel) : Prop := (k.procTable k.pProcReady).pFlags = 0

section

variable {k : Kernel} {t u : Pid → Int} {p q : Pid} {table : Pid → Proc}

@[simp] theorem Kernel.retick_procTable :
    (k.retick t p).procTable q = { k.procTable q with ticks := t q } := rfl

@[simp] theorem Kernel.retick_msgs : (k.retick t p).msgs = k.msgs := rfl

@[simp] theorem Kernel.retick_copies : (k.retick t p).copies = k.copies := rfl

@[simp] theorem Kernel.retick_kReenter : (k.retick t p).kReenter = k.kReenter := rfl

@[simp] theorem Kernel.retick_pProcReady : (k.retick t p).pProcReady = p := rfl

@[simp] theorem Kernel.retick_retick : (k.retick t p).retick u q = k.retick u q := rfl

theorem Kernel.retick_self : k.retick (fun q => (k.procTable q).ticks) k.pProcReady = k := rfl

/-- The process found by a pass over the table is runnable. -/
theorem mostTicks_runnable {n : Int} (h : mostTicks table = (n, some p)) :
    (table p).pFlags = 0 := by
  suffices key : ∀ (l : List Pid) (best : Int × Option Pid),
      (∀ q, best.2 = some q → (table q).pFlags = 0) →
      ∀ q, (l.foldl (fun best p =>
        if (table p).pFlags = 0 ∧ (table p).ticks > best.1 then ((table p).ticks, some p)
        else best) best).2 = some q → (table q).pFlags = 0 by
    exact key _ (0, none) (by simp) p (by rw [← mostTicks, h])
  intro l
  induction l with
  | nil => exact fun best hb => hb
  | cons a l ih =>
    intro best hb
    rw [List.foldl_cons]
    refine ih _ ?_
    split
    · rename_i ha
      intro q hq
      obtain rfl := Option.some.inj hq
      exact ha.1
    · exact hb

theorem refill_eq (table : Pid → Proc) : refill table = fun q => { table q with
    ticks := if (table q).pFlags = 0 then (table q).priority else (table q).ticks } := by
  funext q
  unfold refill
  split <;> rfl

theorem refill_refill : refill (refill table) = refill table := by
  rw [refill_eq (refill table), refill_eq]
  funext q
  by_cases hq : (table q).pFlags = 0 <;> simp only [hq, if_true, if_false]

theorem scheduleLoop_found {n : Int} (fuel : Nat) (h : mostTicks k.procTable = (n, some p)) :
    scheduleLoop (fuel + 1) k = .ok () { k with pProcReady := p } := by
  rw [scheduleLoop]
  exact (bind_of_ok (x := get) (s := k) rfl).trans (by rw [h]; rfl)

theorem scheduleLoop_refill (fuel : Nat) (h : (mostTicks k.procTable).2 = none) :
    scheduleLoop (fuel + 1) k = scheduleLoop fuel { k with procTable := refill k.procTable } := by
  obtain ⟨n, hn⟩ : ∃ n, mostTicks k.procTable = (n, none) := ⟨_, Prod.ext rfl h⟩
  rw [scheduleLoop]
  exact (bind_of_ok (x := get) (s := k) rfl).trans (by rw [hn]; rfl)

/-- Nobody is found in a table that a refill does not change. -/
theorem scheduleLoop_diverges (fuel : Nat) (same : refill k.procTable = k.procTable)
    (h : (mostTicks k.procTable).2 = none) : scheduleLoop fuel k = .error .diverge k := by
  induction fuel with
  | zero => rfl
  | succ fuel ih =>
    rw [scheduleLoop_refill fuel h, same]
    exact ih

/-- A table is refilled at most once, so two rounds of `schedule` find a process if any number
of rounds does. -/
theorem scheduleLoop_add_two (fuel : Nat) : scheduleLoop (fuel + 2) k = schedule k := by
  rw [schedule]
  cases h : (mostTicks k.procTable).2 with
  | some p =>
    have hp : mostTicks k.procTable = (_, some p) := Prod.ext rfl h
    rw [scheduleLoop_found (fuel + 1) hp, scheduleLoop_found 1 hp]
  | none =>
    rw [scheduleLoop_refill (fuel + 1) h, scheduleLoop_refill 1 h]
    generalize hk : ({ k with procTable := refill k.procTable } : Kernel) = k'
    have same : refill k'.procTable = k'.procTable := by
      rw [← hk]
      exact refill_refill
    cases h' : (mostTicks k'.procTable).2 with
    | some p =>
      have hp : mostTicks k'.procTable = (_, some p) := Prod.ext rfl h'
      rw [scheduleLoop_found fuel hp, scheduleLoop_found 0 hp]
    | none => rw [scheduleLoop_diverges (fuel + 1) same h', scheduleLoop_diverges 1 same h']

theorem wp_scheduleLoop {Q : Unit → Kernel → Prop} {E : Halt → Kernel → Prop} (fuel : Nat)
    (hok : ∀ t p, (k.procTable p).pFlags = 0 → Q () (k.retick t p))
    (herr : ∀ t, E .diverge (k.retick t k.pProcReady)) : wp (scheduleLoop fuel) Q E k := by
  induction fuel generalizing k with
  | zero => exact herr fun q => (k.procTable q).ticks
  | succ fuel ih =>
    rw [scheduleLoop, wp_bind, wp_get]
    split
    · rename_i n p hp
      exact hok (fun q => (k.procTable q).ticks) p (mostTicks_runnable hp)
    · rw [wp_bind, wp_modify]
      refine ih (fun t p hp => ?_) (fun t => ?_)
      · rw [refill_eq] at hp ⊢
        exact hok t p hp
      · rw [refill_eq]
        exact herr t

theorem wp_schedule {Q : Unit → Kernel → Prop} {E : Halt → Kernel → Prop}
    (hok : ∀ t p, (k.procTable p).pFlags = 0 → Q () (k.retick t p))
    (herr : ∀ t, E .diverge (k.retick t k.pProcReady)) : wp schedule Q E k :=
  wp_scheduleLoop 2 hok herr

end

end Dlos
