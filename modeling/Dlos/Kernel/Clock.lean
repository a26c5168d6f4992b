import Dlos.Kernel.Proc

/-!
# The clock interrupt (`clock.c`)
-/

namespace Dlos

open Program

def clockHandler : KM Unit := do
  modify fun k => { k with ticks := if k.ticks + 1 ≥ maxTicks then 0 else k.ticks + 1 }
  let k ← get
  onlyIf ((k.procTable k.pProcReady).ticks ≠ 0)
    (setProc k.pProcReady fun p => { p with ticks := p.ticks - 1 })
  onlyIf (k.keyPressed ≠ 0) (informInt taskTty)
  let k ← get
  if k.kReenter ≠ 0 then pure ()
  else if (k.procTable k.pProcReady).ticks > 0 then pure ()
  else schedule

end Dlos
