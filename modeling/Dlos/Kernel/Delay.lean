import Dlos.Kernel.History

/-!
# Timed waits (`clock.c`, `hd.c`)

`milli_delay` and `waitfor` compare two readings of the clock. Between them every clock interrupt
counts a tick, and nothing else does.
-/

namespace Dlos

open Program

/-! ## What message passing leaves alone -/

/-- The condition depends on nothing but the clock, the keys and the depth of interrupts. -/
def IgnoresIpc (I : Kernel → Prop) : Prop := ∀ k table ready msgs copies, I k →
  I { k with procTable := table, pProcReady := ready, msgs := msgs, copies := copies }

namespace IgnoresIpc

variable {I : Kernel → Prop} {p q x : Pid} {f : Proc → Proc} {m va : Addr} {i : Int} {fuel : Nat}
  {prev : Option Pid}

theorem assertReleased {a b c d : String} : Preserves I (assertReleased p a b c d) :=
  .bind .get fun _ => .bind .ensure fun _ => .bind .ensure fun _ => .bind .ensure fun _ => .ensure

theorem procAt : Preserves I (procAt i) := by
  unfold Dlos.procAt
  split
  · exact .pure _
  · exact .throw _

theorem va2la : Preserves I (va2la p va) :=
  .bind .get fun _ => .bind (.onlyIf .ensure) fun _ => .pure _

theorem unblock : Preserves I (unblock p) := .bind .get fun _ => .ensure

theorem printPath : Preserves I (printPath x fuel p) := by
  induction fuel generalizing p with
  | zero => exact .throw _
  | succ fuel ih =>
    exact .bind .get fun _ => .bind .ensure fun _ => .bind procAt fun _ => .ite ih (.pure _)

theorem deadlockLoop : Preserves I (deadlockLoop x q fuel p) := by
  induction fuel generalizing p with
  | zero => exact .throw _
  | succ fuel ih =>
    exact .bind .get fun _ => .ite (.ite (.bind printPath fun _ => .pure _)
      (.bind procAt fun _ => ih)) (.pure _)

theorem queueEnd : Preserves I (queueEnd p) := by
  refine .bind .get fun _ => ?_
  split
  · exact .pure _
  · exact .throw _

theorem assertMatch : Preserves I (assertMatch p x) :=
  .bind .get fun _ => .bind .ensure fun _ => .bind .ensure fun _ => .bind .ensure fun _ =>
    .bind .ensure fun _ => .bind .ensure fun _ => .bind .ensure fun _ => .bind .ensure fun _ =>
    .bind .ensure fun _ => .ensure

theorem findSender : Preserves I (findSender p i) := by
  have found (y : Pid) (prev : Option Pid) : Preserves I (do
      Dlos.assertMatch p y
      pure (some (y, prev)) : KM (Option (Pid × Option Pid))) := .bind assertMatch fun _ => .pure _
  refine .bind .get fun k => .ite ?_ (.ite (.bind procAt fun y => .ite (.bind .ensure fun _ => ?_)
    (.pure _)) (.pure _))
  · split
    · exact found _ _
    · exact .pure _
  · split
    · exact found _ _
    · exact .throw _

variable (h : IgnoresIpc I)

include h

theorem setProc : Preserves I (setProc p f) := .modify fun k hk => h k _ _ _ _ hk

theorem put {g : Kernel → Copy} : Preserves I (modify fun k => k.put (g k) : KM Unit) :=
  .modify fun k hk => h k _ _ _ _ hk

theorem schedule : Preserves I schedule := fun k hk =>
  wp_schedule (fun _ _ _ => h k _ _ _ _ hk) fun _ => h k _ _ _ _ hk

theorem block : Preserves I (block p) := .bind .get fun _ => .bind .ensure fun _ => h.schedule

theorem deliver : Preserves I (deliver p q m) :=
  .bind .get fun _ => .bind .ensure fun _ => .bind .ensure fun _ => .bind va2la fun _ =>
    .bind va2la fun _ => .bind h.put fun _ => .bind h.setProc fun _ => .bind h.setProc fun _ =>
    .bind h.setProc fun _ => .bind unblock fun _ => .bind assertReleased fun _ => assertReleased

theorem enqueue : Preserves I (enqueue p q) := by
  refine .bind .get fun k => ?_
  split
  · exact .bind queueEnd fun _ => .bind h.setProc fun _ => h.setProc
  · exact .bind h.setProc fun _ => h.setProc

theorem awaitReceiver : Preserves I (awaitReceiver p q m) :=
  .bind h.setProc fun _ => .bind .get fun _ => .bind .ensure fun _ => .bind h.setProc fun _ =>
    .bind h.setProc fun _ => .bind h.enqueue fun _ => .bind h.block fun _ => .bind .get fun _ =>
    .bind .ensure fun _ => .bind .ensure fun _ => .bind .ensure fun _ => .ensure

theorem msgSend : Preserves I (msgSend p i m) :=
  .bind procAt fun _ => .bind .ensure fun _ => .bind deadlockLoop fun _ => .bind .get fun _ =>
    .bind (.onlyIf (.throw _)) fun _ => .ite (.bind h.deliver fun _ => .pure _)
      (.bind h.awaitReceiver fun _ => .pure _)

theorem takeInterrupt : Preserves I (takeInterrupt p m) :=
  .bind .ensure fun _ => .bind va2la fun _ => .bind h.put fun _ => .bind h.setProc fun _ =>
    .bind .get fun _ => .bind .ensure fun _ => .bind .ensure fun _ => .bind .ensure fun _ => .ensure

theorem unlink : Preserves I (unlink p x prev) := by
  refine .bind .get fun k => .ite (.bind .ensure fun _ => .bind h.setProc fun _ => h.setProc) ?_
  split
  · exact .throw _
  · exact .bind h.setProc fun _ => h.setProc

theorem takeFrom : Preserves I (takeFrom p x prev m) :=
  .bind h.unlink fun _ => .bind .ensure fun _ => .bind .get fun _ => .bind .ensure fun _ =>
    .bind va2la fun _ => .bind va2la fun _ => .bind h.put fun _ => .bind h.setProc fun _ =>
    .bind h.setProc fun _ => .bind h.setProc fun _ => unblock

theorem awaitSender : Preserves I (awaitSender p i m) :=
  .bind h.setProc fun _ => .bind h.setProc fun _ => .bind h.setProc fun _ => .bind h.block fun _ =>
    .bind .get fun _ => .bind .ensure fun _ => .bind .ensure fun _ => .bind .ensure fun _ =>
    .bind .ensure fun _ => .ensure

theorem msgReceive : Preserves I (msgReceive p i m) := by
  refine .bind .get fun k => .bind .ensure fun _ => .ite (.bind h.takeInterrupt fun _ => .pure _)
    (.bind findSender fun r => ?_)
  cases r with
  | none => exact .bind h.awaitSender fun _ => .pure _
  | some r => exact .bind h.takeFrom fun _ => .pure _

theorem sysSendrec {function : Int} : Preserves I (sysSendrec function i m p) :=
  .bind .get fun _ => .bind .ensure fun _ => .bind .ensure fun _ => .bind va2la fun _ =>
    .bind (.modify fun k hk => h k _ _ _ _ hk) fun _ => .bind .ensure fun _ =>
    .ite h.msgSend (.ite h.msgReceive (.throw _))

theorem informInt : Preserves I (informInt p) :=
  .bind .get fun _ => .ite (.bind h.put fun _ => .bind h.setProc fun _ => .bind h.setProc fun _ =>
    .bind h.setProc fun _ => .bind h.setProc fun _ => .bind .get fun _ => .bind .ensure fun _ =>
    .bind unblock fun _ => assertReleased) h.setProc

end IgnoresIpc

/-! ## The clock -/

/-- `if (++ticks >= MAX_TICKS) ticks = 0` -/
def nextTicks (ticks : Int) : Int := if ticks + 1 ≥ maxTicks then 0 else ticks + 1

def Event.isClock : Event → Bool
  | clock => true
  | _ => false

/-- How many of the events are clock interrupts. -/
def clocks (l : List Event) : Nat := l.countP Event.isClock

section

variable {h h' : History} {o r : Option Halt} {e : Event} {l : List Event} {n : Int} {k : Nat}

theorem ignoresIpc_ticks : IgnoresIpc fun k => k.ticks = n := fun _ _ _ _ _ hk => hk

/-- The clock interrupt counts, and nothing else does. -/
theorem ticks_step : (kernelMachine.step e h).1.kernel.ticks =
    if e.isClock then nextTicks h.kernel.ticks else h.kernel.ticks := by
  change (exec e.run h.kernel).1.ticks = _
  refine exec_of_wp (P := fun (k' : Kernel) _ => k'.ticks = _) ?_
  cases e with
  | sendrec function srcDest m =>
    rw [Event.run]
    exact Preserves.bind .get (fun _ => .bind ignoresIpc_ticks.sysSendrec fun _ => .pure _) _ rfl
  | write la content => rfl
  | informInt task => exact ignoresIpc_ticks.informInt _ rfl
  | clock =>
    rw [Event.run, clockHandler, wp_bind, wp_modify]
    refine Preserves.bind .get (fun _ => .bind (.onlyIf ignoresIpc_ticks.setProc) fun _ =>
      .bind (.onlyIf ignoresIpc_ticks.informInt) fun _ => .bind .get fun _ =>
      .ite (.pure _) (.ite (.pure _) ignoresIpc_ticks.schedule)) _ ?_
    rfl
  | key pressed => rfl

theorem ticks_of_run (hrun : kernelMachine.run ValidEvent l (h, o) = some (h', r)) :
    h'.kernel.ticks = nextTicks^[clocks l] h.kernel.ticks := by
  induction l generalizing h o with
  | nil =>
    obtain ⟨rfl, -⟩ := Prod.mk.inj (Option.some.inj hrun)
    rfl
  | cons e l ih =>
    cases o with
    | some o => simp [Machine.run] at hrun
    | none =>
      rw [Machine.run] at hrun
      split at hrun
      · have hstep := ticks_step (e := e) (h := h)
        rw [ih hrun]
        change nextTicks^[clocks l] (kernelMachine.step e h).1.kernel.ticks = _
        rw [hstep]
        cases he : e.isClock with
        | false => simp [clocks, he]
        | true => simp [clocks, he]
      · simp at hrun

/-- The clock after `k` ticks. -/
theorem nextTicks_iterate (hn : n < maxTicks) (hk : (k : Int) < maxTicks) :
    nextTicks^[k] n = if n + k < maxTicks then n + k else n + k - maxTicks := by
  induction k with
  | zero => simp [hn]
  | succ k ih =>
    rw [Function.iterate_succ_apply', ih (by omega), nextTicks]
    split_ifs <;> omega

/-! ## Waiting -/

abbrev hz : BitVec 32 := 100

/-- What `get_ticks` returns. -/
def getTicks (h : History) : BitVec 32 := BitVec.ofInt 32 h.kernel.ticks

/-- The condition of the loops, `(get_ticks() - t) * 1000 / HZ < mill_sec`. -/
def Waits (t now millSec : BitVec 32) : Prop := (((now - t) * 1000).sdiv hz).toInt < millSec.toInt

instance (t now millSec : BitVec 32) : Decidable (Waits t now millSec) :=
  inferInstanceAs (Decidable (_ < _))

/-- After `k` ticks, at 1000 / `HZ` milliseconds each, the loops go on for exactly the waits that are
longer. -/
def EndsInTime (t now : BitVec 32) (k : Nat) : Prop := ∀ millSec : BitVec 32, 0 ≤ millSec.toInt →
  (Waits t now millSec ↔ (k : Int) * 1000 < millSec.toInt * hz.toInt)

/-- The time that the loops compute, where `d` ticks seem to have passed. -/
def elapsed (d : Int) : Int := ((d * 1000).bmod (2 ^ 32)).tdiv 100

/-- The product wraps to 32 bits, and what remains is cut off. -/
theorem elapsed_spec (d : Int) : ∃ q r, 100 * elapsed d + r = d * 1000 - 2 ^ 32 * q ∧
    (-100 < r ∧ r < 100) ∧ -2 ^ 31 ≤ d * 1000 - 2 ^ 32 * q ∧ d * 1000 - 2 ^ 32 * q < 2 ^ 31 := by
  have hlow := Int.le_bmod (x := d * 1000) (m := 2 ^ 32) (by decide)
  have hhigh := Int.bmod_lt (x := d * 1000) (m := 2 ^ 32) (by decide)
  have hsum := Int.mul_tdiv_add_tmod ((d * 1000).bmod (2 ^ 32)) 100
  have hr := Int.lt_tmod_of_pos ((d * 1000).bmod (2 ^ 32)) (show (0 : Int) < 100 by decide)
  have hr' := Int.tmod_lt_of_pos ((d * 1000).bmod (2 ^ 32)) (show (0 : Int) < 100 by decide)
  obtain ⟨q, hq⟩ := Int.dvd_bmod_sub_self (x := d * 1000) (m := 2 ^ 32)
  refine ⟨-q, ((d * 1000).bmod (2 ^ 32)).tmod 100, ?_, ⟨hr, hr'⟩, ?_, ?_⟩
  · rw [elapsed, hsum]
    omega
  · omega
  · omega

theorem waits_iff {t now : Int} {millSec : BitVec 32} :
    Waits (BitVec.ofInt 32 t) (BitVec.ofInt 32 now) millSec ↔ elapsed (now - t) < millSec.toInt := by
  have hsub : BitVec.ofInt 32 now - BitVec.ofInt 32 t = BitVec.ofInt 32 (now - t) := by
    rw [eq_comm, BitVec.eq_sub_iff_add_eq, ← BitVec.ofInt_add, Int.sub_add_cancel]
  have hprod : BitVec.ofInt 32 (now - t) * 1000 = BitVec.ofInt 32 ((now - t) * 1000) := by
    rw [BitVec.ofInt_mul]
    rfl
  rw [Waits, hsub, hprod, BitVec.toInt_sdiv_of_ne_or_ne _ _ (.inr (by decide)), BitVec.toInt_ofInt]
  rfl

/-- The loops are right for all waits where the elapsed time is. -/
theorem endsInTime_iff_elapsed {t now : Int} :
    EndsInTime (BitVec.ofInt 32 t) (BitVec.ofInt 32 now) k ↔ elapsed (now - t) = 10 * k := by
  have hbound : -2 ^ 31 < elapsed (now - t) ∧ elapsed (now - t) < 2 ^ 31 - 1 := by
    obtain ⟨q, r, h⟩ := elapsed_spec (now - t)
    omega
  have hhz : hz.toInt = 100 := rfl
  have htoInt (x : Int) (hx : 0 ≤ x) (hx' : x < 2 ^ 31) : (BitVec.ofInt 32 x).toInt = x := by
    rw [BitVec.toInt_ofInt]
    exact Int.bmod_eq_of_le (by omega) (by omega)
  simp only [EndsInTime, waits_iff, hhz]
  generalize elapsed (now - t) = f at *
  constructor
  · intro h
    rcases lt_trichotomy f (10 * k) with hlt | heq | hgt
    · have hms := h (BitVec.ofInt 32 (max (f + 1) 0))
      rw [htoInt _ (by omega) (by omega)] at hms
      omega
    · exact heq
    · have hms := h (BitVec.ofInt 32 f)
      rw [htoInt _ (by omega) (by omega)] at hms
      omega
  · intro h millSec hms
    omega

end

/-- One clock interrupt after the start. -/
def History.oneTick : History × Option Halt :=
  kernelMachine.step .clock History.begin

/-- A kernel whose clock starts anew at the next interrupt. -/
def History.lateStart : History :=
  { History.begin with kernel := { History.begin.kernel with ticks := maxTicks - 1 } }

end Dlos
