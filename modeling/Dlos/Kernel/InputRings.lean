import Dlos.Library.BoundedQueue
import Dlos.Kernel.Tty

/-!
# The input rings as queues

The scan codes go through a ring from the keyboard's interrupt to `keyboard_read`, and the keys
through another one from there to `tty_dev_write`.
-/

namespace Dlos

open Program RingBuffer

/-- The state after `init_keyboard`. -/
def TtyState.initKeyboard (s : TtyState) : TtyState := { s with keyboard := s.keyboard.init }

/-- The state after the ring's part of `init_tty`. -/
def TtyState.initTty (s : TtyState) (i : Fin nrConsoles) : TtyState :=
  s.setTty i fun tty => { tty with inBuf := { tty.inBuf with count := 0, head := 0, tail := 0 } }

/-- `get_byte_from_kbuf`, which waits as long as there is nothing in the ring. -/
def getByteFromKbuf : TM Byte := do
  let s ← get
  if s.keyboard.kbIn.count ≤ 0 then throw .diverge
  else do
    modify fun s => { s with keyboard := { s.keyboard with kbIn := s.keyboard.kbIn.drop kbInBytes } }
    pure s.keyboard.kbIn.first

/-- The key that `tty_dev_write` takes out of its ring, where there is one, as a character. -/
def takeKey (i : Fin nrConsoles) : TM Byte := do
  let tty := (← get).ttyTable i
  if tty.inBuf.count = 0 then throw .diverge
  else do
    setTty i fun tty => { tty with inBuf := tty.inBuf.drop ttyInBytes }
    pure (tty.inBuf.first.truncate 8)

section

variable {L : TtyLayout} {i : Fin nrConsoles} {s : TtyState} {pc : KbPc}

/-! ## Where the rings are used -/

theorem run_initKeyboard : TtyPc.run L .initKeyboard = (do
    modify TtyState.initKeyboard
    ttyGoto (.initTty 0)) := rfl

theorem run_initTty : TtyPc.run L (.initTty i) = (do
    modify (TtyState.initTty · i)
    ttyScreen (initScreen i)
    if h : i.val + 1 < nrConsoles then ttyGoto (.initTty ⟨i.val + 1, h⟩)
    else ttyGoto .selectConsole) := rfl

/-- `keyboard_read` takes its bytes out of the ring. -/
theorem keyboardRead_of_count (hpc : pc.Reads) (hs : 0 < s.keyboard.kbIn.count) :
    keyboardRead i pc s = (do
      let b ← getByteFromKbuf
      ttyGoto (.keyboardRead i (pc.feed b)) : TM Unit) s := by
  have hcount : ¬s.keyboard.kbIn.count ≤ 0 := not_le.mpr hs
  rw [keyboardRead_of_reads hpc]
  change (if s.keyboard.kbIn.count ≤ 0 then pure () else _ : TM Unit) s =
    ((if s.keyboard.kbIn.count ≤ 0 then throw .diverge else _ : TM Byte) >>= _) s
  rw [if_neg hcount, if_neg hcount]
  rfl

/-- `tty_dev_write` starts with taking a key out of the ring. -/
theorem ttyDevWrite_of_count (hs : (s.ttyTable i).inBuf.count ≠ 0) :
    ttyDevWrite L i s = (do
      let ch ← takeKey i
      if (s.ttyTable i).ttyLeftCnt = 0 then nextTty i
      else do
        ttyTypeChar i ch
        let tty := (← get).ttyTable i
        if ch = 0x0A ∨ tty.ttyLeftCnt = 0 then ttyResume L i else nextTty i : TM Unit) s := by
  change (if (s.ttyTable i).inBuf.count = 0 then nextTty i else _ : TM Unit) s =
    ((if (s.ttyTable i).inBuf.count = 0 then throw .diverge else _ : TM Byte) >>= _) s
  rw [if_neg hs, if_neg hs]
  rfl

/-! ## Both are queues -/

theorem serves_keyboard :
    Serves kbInBytes (fun s : TtyState => s.keyboard.kbIn) id keyboardHandler getByteFromKbuf where
  ins x s := rfl
  rem s hs := by
    rw [getByteFromKbuf, wp_bind, wp_get, wp_ite]
    exact ⟨fun h => le_antisymm h hs, fun h => ⟨not_le.mp h, rfl, rfl⟩⟩

theorem serves_tty : Serves ttyInBytes (fun s : TtyState => (s.ttyTable i).inBuf)
    (fun key => key.truncate 8) (putKey i) (takeKey i) where
  ins x s := congrArg Tty.inBuf (Function.update_self i _ s.ttyTable)
  rem s hs := by
    rw [takeKey, wp_bind, wp_get, wp_ite]
    refine ⟨fun h => h, fun h => ⟨by omega, rfl, ?_⟩⟩
    exact congrArg Tty.inBuf (Function.update_self i _ s.ttyTable)

/-- From their empty states on, under any sequence of insertions and removals, both rings are bounded
queues of what was put in. -/
theorem inputRings_refine :
    (∀ s : TtyState, RefinesQueue kbInBytes (fun s => s.keyboard.kbIn) id keyboardHandler
      getByteFromKbuf s.initKeyboard) ∧
    ∀ (s : TtyState) (i : Fin nrConsoles), RefinesQueue ttyInBytes (fun s => (s.ttyTable i).inBuf)
      (fun key => key.truncate 8) (putKey i) (takeKey i) (s.initTty i) := by
  refine ⟨fun s => ?_, fun s i => ?_⟩
  · exact serves_keyboard.refinesQueue (.empty rfl rfl (show 0 < kbInBytes by decide)) rfl
  · have hring : ((s.initTty i).ttyTable i).inBuf =
        { (s.ttyTable i).inBuf with count := 0, head := 0, tail := 0 } :=
      congrArg Tty.inBuf (Function.update_self i _ s.ttyTable)
    have hvalid : Valid ttyInBytes ((s.initTty i).ttyTable i).inBuf := by
      rw [hring]
      exact .empty rfl rfl (show 0 < ttyInBytes by decide)
    exact serves_tty.refinesQueue hvalid (by rw [hring])

end

end Dlos
