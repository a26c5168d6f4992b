import Mathlib.Algebra.GroupWithZero.Nat
import Mathlib.Data.Fin.Basic

/-!
# The constants of the system

The macros of `const.h`, `proc.h`, `fs.h`, `tty.h` and `config.h` that the modelled functions
read, under the source's names.
-/

namespace Dlos

/-! ## The process table (`proc.h`) -/

abbrev nrTasks : Nat := 5
abbrev nrProcs : Nat := 32
abbrev nrNativeProcs : Nat := 4

/-- An index of `proc_table`. -/
abbrev Pid := Fin (nrTasks + nrProcs)

instance : NeZero (nrTasks + nrProcs) := ⟨by decide⟩

/-- An integer between the bounds of a table is an index of it. -/
theorem toNat_lt {n : Nat} {i : Int} (h : 0 ≤ i ∧ i < (n : Nat)) : i.toNat < n := by
  omega

/-! ## States of a process (`const.h`); 0 is runnable -/

abbrev sending : BitVec 32 := 0x02
abbrev receiving : BitVec 32 := 0x04
abbrev freeSlot : BitVec 32 := 0x20

/-! ## Message passing (`const.h`) -/

abbrev interrupt : Int := -10
/-- `ANY`: the receiver takes a message from everybody. -/
abbrev anyTask : Int := nrTasks + nrProcs + 10
abbrev noTask : Int := nrTasks + nrProcs + 20

/-- No table index is one of the special values. -/
theorem Pid.val_lt (p : Pid) : (p.val : Int) < anyTask ∧ (p.val : Int) < noTask ∧
    interrupt < (p.val : Int) := by
  have := p.isLt
  simp only [anyTask, noTask, interrupt]
  omega

abbrev taskTty : Pid := 0
abbrev taskSys : Pid := 1
abbrev taskHd : Pid := 2
abbrev taskFs : Pid := 3
abbrev taskMm : Pid := 4

/-- The `function` argument of `sys_sendrec`. -/
abbrev send : Int := 1
abbrev receive : Int := 2

/-! ## Terminals and clock -/

abbrev nrConsoles : Nat := 3

instance : NeZero nrConsoles := ⟨by decide⟩

abbrev maxTicks : Int := 0x7FFFABCD

end Dlos
