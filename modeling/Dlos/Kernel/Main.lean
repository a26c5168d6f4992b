import Mathlib.Tactic.FinCases
import Dlos.Kernel.Proc

/-!
# The process table at the start (`global.c`, `main.c`)
-/

namespace Dlos

/-- The names in `task_table` and, behind them, in `user_proc_table`. -/
def taskName (i : Pid) : String :=
  ["TTY", "SYS", "HD", "FS", "MM", "INIT", "TestA", "TestB", "TestC"].getD i.val ""

/-- The body of `kernel_main`'s loop over the table, which starts out zeroed. `kBase` and
`kLimit` come from `get_kernel_map`. -/
def initProc (kBase kLimit : BitVec 32) (i : Pid) : Proc :=
  if i.val ≥ nrTasks + nrNativeProcs then { pFlags := freeSlot }
  else
    let privilege : BitVec 8 := if i.val < nrTasks then 1 else 3
    let prio := if i.val < nrTasks then 15 else 5
    { ldts :=
        if taskName i ≠ "INIT" then
          fun idx => { gdtFlatC with
            attr1 := (if idx = indexLdtC then 0x98 else 0x92) ||| privilege <<< 5 }
        else
          fun idx => initDescriptor 0 ((kBase + kLimit) >>> limit4kShift)
            (da32 ||| daLimit4k ||| (if idx = indexLdtC then daC else daDrw) |||
              privilege.zeroExtend 16 <<< 5)
      ticks := prio
      priority := prio
      name := taskName i
      pFlags := 0
      pMsg := 0
      pRecvfrom := noTask
      pSendto := noTask
      hasIntMsg := 0
      qSending := none
      nextSending := none
      pParent := noTask }

/-- The kernel when `kernel_main` starts the first process. What is in memory does not matter. -/
structure KernelMain (kBase kLimit : BitVec 32) (k : Kernel) : Prop where
  procTable : k.procTable = initProc kBase kLimit
  pProcReady : k.pProcReady = 0
  ticks : k.ticks = 0
  kReenter : k.kReenter = 0
  copies : k.copies = []

def Proc.free (p : Proc) : Prop := p.pFlags = freeSlot

section

variable {kBase kLimit : BitVec 32} {i : Pid}

theorem initProc_of_native (kBase kLimit : BitVec 32) (h : i.val < nrTasks + nrNativeProcs) :
    ((initProc kBase kLimit i).pFlags = 0 ∧ (initProc kBase kLimit i).pMsg = 0) ∧
    (initProc kBase kLimit i).pRecvfrom = noTask ∧ (initProc kBase kLimit i).pSendto = noTask := by
  simp [initProc, Nat.not_le.mpr h]

theorem initProc_of_free (h : nrTasks + nrNativeProcs ≤ i.val) :
    initProc kBase kLimit i = { pFlags := freeSlot } := by
  simp [initProc, h]

theorem initProc_queues : (initProc kBase kLimit i).qSending = none ∧
    (initProc kBase kLimit i).nextSending = none := by
  unfold initProc
  split <;> simp

/-- The native processes run in flat segments. -/
theorem base_initProc (h : i.val < nrTasks + nrNativeProcs) (idx : Fin 2) :
    ldtSegLinear (initProc kBase kLimit i) idx = 0 := by
  by_cases hi : taskName i = "INIT" <;>
    simp [initProc, Nat.not_le.mpr h, ldtSegLinear, hi, Descriptor.base, gdtFlatC, initDescriptor]

end

end Dlos
