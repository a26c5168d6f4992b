import Dlos.Kernel.Console
import Dlos.Kernel.History
import Dlos.Kernel.Keyboard

/-!
# The terminals (`tty.c`)

`task_tty` as a program with a place. Between two of its steps the clock may take the processor
away from it, scan codes may come in, and other processes may run. A step is one system call, one
byte read from the keyboard, or a stretch of the loop over the terminals.
-/

namespace Dlos

open Program Bytes

/-- Where TTY's messages are: the `msg` of `task_tty` and that of `tty_dev_write`. -/
structure TtyLayout where
  msg : Addr
  resumeMsg : Addr
  msg_ne_zero : msg ≠ 0
  resumeMsg_ne_zero : resumeMsg ≠ 0

/-- `TTY`; the console of a terminal has the same number. -/
structure Tty where
  inBuf : RingBuffer (BitVec 32)
  ttyCaller : Int
  ttyProcnr : Int
  ttyReqBuf : Addr
  ttyLeftCnt : Int
  ttyTransCnt : Int

/-- The places in `task_tty` and the functions it calls. -/
inductive TtyPc
  | initKeyboard
  | initTty (i : Fin nrConsoles)
  | selectConsole
  | devRead (i : Fin nrConsoles)
  | keyboardRead (i : Fin nrConsoles) (pc : KbPc)
  | devWrite (i : Fin nrConsoles)
  /-- In `tty_dev_write`, after the message that resumes the reader. -/
  | resumed (i : Fin nrConsoles)
  | receive
  | dispatch
  /-- In `tty_do_write`, with `left` bytes from `p` on still to be written. -/
  | output (i : Fin nrConsoles) (p : Addr) (left : Int)
  deriving DecidableEq

structure TtyState where
  kernel : Kernel
  keyboard : Keyboard
  ttyTable : Fin nrConsoles → Tty
  /-- The consoles, and the memory of the machine. -/
  screen : Screen
  pc : TtyPc

abbrev TM := EStateM Halt TtyState

namespace TtyState

def goto (s : TtyState) (pc : TtyPc) : TtyState := { s with pc := pc }

def setTty (s : TtyState) (i : Fin nrConsoles) (f : Tty → Tty) : TtyState :=
  { s with ttyTable := Function.update s.ttyTable i (f (s.ttyTable i)) }

end TtyState

/-- A step of the kernel. -/
def ttyKernel {α : Type} (x : KM α) : TM α :=
  focus TtyState.kernel (fun k s => { s with kernel := k }) x

/-- A step on the consoles. -/
def ttyScreen {α : Type} (x : SM α) : TM α :=
  focus TtyState.screen (fun c s => { s with screen := c }) x

def ttyGoto (pc : TtyPc) : TM Unit := modify (·.goto pc)

def setTty (i : Fin nrConsoles) (f : Tty → Tty) : TM Unit := modify (·.setTty i f)

/-- `sendrec`, called by TTY. -/
def ttySendrec (function srcDest : Int) (m : Addr) : TM Unit := do
  let _ ← ttyKernel (sysSendrec function srcDest m taskTty)

/-- Set fields of a message of TTY. -/
def setTtyMsg (la : Addr) (f : Message → Message) : TM Unit :=
  ttyKernel (modify fun k => k.setMsg la (f (k.msgs la)))

/-- `tty_table + i` -/
def ttyAt (i : Int) : TM (Fin nrConsoles) :=
  if h : 0 ≤ i ∧ i < (nrConsoles : Nat) then pure ⟨i.toNat, toNat_lt h⟩ else throw .wildIndex

/-! ## Keys -/

def putKey (i : Fin nrConsoles) (key : BitVec 32) : TM Unit :=
  setTty i fun tty => { tty with inBuf := tty.inBuf.put ttyInBytes key }

def inProcess (i : Fin nrConsoles) (key : BitVec 32) : TM Unit :=
  if key &&& flagExt = 0 then putKey i key
  else
    let rawCode := key &&& maskRaw
    let shift := key &&& flagShiftL ≠ 0 ∨ key &&& flagShiftR ≠ 0
    if rawCode = keyEnter then putKey i 0x0A
    else if rawCode = keyBackspace then putKey i 0x08
    else if rawCode = keyUp then onlyIf shift (ttyScreen (scrollScreen i scrDn))
    else if rawCode = keyDown then onlyIf shift (ttyScreen (scrollScreen i scrUp))
    else if keyF1 ≤ rawCode ∧ rawCode ≤ keyF12 then
      if key &&& flagAltL ≠ 0 ∨ key &&& flagAltR ≠ 0 then
        ttyScreen (selectConsole (rawCode - keyF1).toNat)
      -- `disable_int(); dump_proc(proc_table + 4); for (;;);`
      else onlyIf (rawCode = keyF12) (throw .diverge)
    else pure ()

/-! ## Input -/

/-- `while (p_tty->inbuf_count)`, and the loop over the terminals around it. -/
def nextTty (i : Fin nrConsoles) : TM Unit := do
  let s ← get
  if (s.ttyTable i).inBuf.count ≠ 0 then ttyGoto (.devRead i)
  else if h : i.val + 1 < nrConsoles then ttyGoto (.devRead ⟨i.val + 1, h⟩)
  else ttyGoto .receive

/-- `tty_dev_read`, and the test at the start of `keyboard_read`. -/
def ttyDevRead (i : Fin nrConsoles) : TM Unit := do
  let s ← get
  if i = s.screen.nrCurrentConsole ∧ s.keyboard.kbIn.count > 0 then ttyGoto (.keyboardRead i .first)
  else ttyGoto (.devWrite i)

/-- A stretch of `keyboard_read`. `get_byte_from_kbuf` waits while the ring is empty. -/
def keyboardRead (i : Fin nrConsoles) : KbPc → TM Unit
  | .decode scanCode codeWithE0 => do
    let s ← get
    let (modifiers, key) := s.keyboard.modifiers.decode scanCode codeWithE0
    modify fun s => { s with keyboard := { s.keyboard with modifiers } }
    match key with
    | some key => inProcess i key
    | none => pure ()
    ttyGoto (.devWrite i)
  | .finish => ttyGoto (.devWrite i)
  | pc => do
    let s ← get
    if s.keyboard.kbIn.count ≤ 0 then pure ()
    else do
      modify fun s => { s with keyboard := { s.keyboard with kbIn := s.keyboard.kbIn.drop kbInBytes } }
      ttyGoto (.keyboardRead i (pc.feed s.keyboard.kbIn.first))

/-- The states of `keyboard_read` that read a byte all do it the same way. -/
theorem keyboardRead_of_reads {i : Fin nrConsoles} {kpc : KbPc} (hr : kpc.Reads) : keyboardRead i kpc = (do
    let s ← get
    if s.keyboard.kbIn.count ≤ 0 then pure ()
    else do
      modify fun s => { s with keyboard := { s.keyboard with
        kbIn := s.keyboard.kbIn.drop kbInBytes } }
      ttyGoto (.keyboardRead i (kpc.feed s.keyboard.kbIn.first))) := by
  cases kpc with
  | decode _ _ => exact hr.elim
  | finish => exact hr.elim
  | first | pause _ | extended | printMake _ | printBreak _ => rfl

/-- Give a character to the process that reads from the terminal, or take one back. -/
def ttyTypeChar (i : Fin nrConsoles) (ch : Byte) : TM Unit := do
  let tty := (← get).ttyTable i
  if 0x20 ≤ ch ∧ ch ≤ 0x7E then do
    ttyScreen (outChar i ch)
    let p := tty.ttyReqBuf + BitVec.ofInt 32 tty.ttyTransCnt
    ttyScreen (modify fun c => { c with mem := Function.update c.mem p.toNat ch })
    setTty i fun tty =>
      { tty with ttyTransCnt := tty.ttyTransCnt + 1, ttyLeftCnt := tty.ttyLeftCnt - 1 }
  else onlyIf (ch = 0x08 ∧ tty.ttyTransCnt ≠ 0) do
    ttyScreen (outChar i ch)
    setTty i fun tty =>
      { tty with ttyTransCnt := tty.ttyTransCnt - 1, ttyLeftCnt := tty.ttyLeftCnt + 1 }

/-- The reader has got a line, or all it asked for. -/
def ttyResume (L : TtyLayout) (i : Fin nrConsoles) : TM Unit := do
  ttyScreen (outChar i 0x0A)
  let tty := (← get).ttyTable i
  setTtyMsg L.resumeMsg fun m => { m with
    type := MsgType.resumeProc
    u := { m.u with m3i3 := tty.ttyProcnr, m3i2 := tty.ttyTransCnt } }
  ttySendrec send tty.ttyCaller L.resumeMsg
  ttyGoto (.resumed i)

def ttyDevWrite (L : TtyLayout) (i : Fin nrConsoles) : TM Unit := do
  let tty := (← get).ttyTable i
  if tty.inBuf.count = 0 then nextTty i
  else do
    let ch : Byte := tty.inBuf.first.truncate 8
    setTty i fun tty => { tty with inBuf := tty.inBuf.drop ttyInBytes }
    if tty.ttyLeftCnt = 0 then nextTty i
    else do
      ttyTypeChar i ch
      let tty := (← get).ttyTable i
      if ch = 0x0A ∨ tty.ttyLeftCnt = 0 then ttyResume L i else nextTty i

/-! ## Requests -/

def ttyDoRead (L : TtyLayout) (i : Fin nrConsoles) (msg : Message) : TM Unit := do
  setTty i fun tty => { tty with ttyCaller := msg.source, ttyProcnr := msg.procNr }
  let pid ← procAt msg.procNr
  let buf ← ttyKernel (va2la pid msg.buf)
  setTty i fun tty =>
    { tty with ttyReqBuf := buf, ttyLeftCnt := msg.cnt, ttyTransCnt := 0 }
  setTtyMsg L.msg fun m =>
    { m with type := MsgType.suspendProc, u := { m.u with m3i2 := msg.cnt } }
  ttySendrec send msg.source L.msg
  ttyGoto (.devRead 0)

/-- A round of the loop of `tty_do_write`, and what follows the last one. A copy of a negative
number of bytes would run over all memory. -/
def ttyOutput (L : TtyLayout) (i : Fin nrConsoles) (p : Addr) (left : Int) : TM Unit := do
  if left = 0 then do
    setTtyMsg L.msg fun m => { m with type := MsgType.syscallRet }
    let s ← get
    ttySendrec send (s.kernel.msgs L.msg).source L.msg
    ttyGoto (.devRead 0)
  else if left < 0 then throw .wildIndex
  else do
    let s ← get
    let n := min ttyOutBufLen left.toNat
    let buf := (List.range n).map fun j => s.screen.mem (p + BitVec.ofNat 32 j).toNat
    buf.forM fun ch => ttyScreen (outChar i ch)
    ttyGoto (.output i (p + BitVec.ofNat 32 n) (left - n))

/-- The message that TTY has received. -/
def ttyDispatch (L : TtyLayout) : TM Unit := do
  let s ← get
  let msg := s.kernel.msgs L.msg
  assert "src != TASK_TTY" (msg.source ≠ taskTty.val)
  if msg.type = MsgType.devOpen then do
    setTtyMsg L.msg fun _ => { type := MsgType.syscallRet }
    ttySendrec send msg.source L.msg
    ttyGoto (.devRead 0)
  else if msg.type = MsgType.devRead then do
    let i ← ttyAt msg.device
    ttyDoRead L i msg
  else if msg.type = MsgType.devWrite then do
    let i ← ttyAt msg.device
    let pid ← procAt msg.procNr
    let p ← ttyKernel (va2la pid msg.buf)
    ttyGoto (.output i p msg.cnt)
  else if msg.type = MsgType.hardInt then do
    ttyKernel (modify ({ · with keyPressed := 0 }))
    ttyGoto (.devRead 0)
  else ttyGoto (.devRead 0)

/-! ## `task_tty` -/

def TtyPc.run (L : TtyLayout) : TtyPc → TM Unit
  | initKeyboard => do
    modify fun s => { s with keyboard := s.keyboard.init }
    ttyGoto (.initTty 0)
  | initTty i => do
    setTty i fun tty => { tty with inBuf := { tty.inBuf with count := 0, head := 0, tail := 0 } }
    ttyScreen (initScreen i)
    if h : i.val + 1 < nrConsoles then ttyGoto (.initTty ⟨i.val + 1, h⟩) else ttyGoto .selectConsole
  | selectConsole => do
    ttyScreen (Dlos.selectConsole 0)
    ttyGoto (.devRead 0)
  | devRead i => ttyDevRead i
  | keyboardRead i pc => Dlos.keyboardRead i pc
  | devWrite i => ttyDevWrite L i
  | resumed i => do
    setTty i ({ · with ttyLeftCnt := 0 })
    nextTty i
  | receive => do
    setTtyMsg L.msg fun _ => {}
    ttySendrec Dlos.receive anyTask L.msg
    ttyGoto .dispatch
  | dispatch => ttyDispatch L
  | output i p left => ttyOutput L i p left

/-! ## Runs -/

/-- The running process, unless it is TTY, or an interrupt does something; the keyboard sends a
byte; or TTY does a step. -/
inductive TtyEvent
  | kernel (e : Event)
  | keyboard (scanCode : Byte)
  | tty

def keyboardHandler (scanCode : Byte) : TM Unit := do
  modify fun s =>
    { s with keyboard := { s.keyboard with kbIn := s.keyboard.kbIn.put kbInBytes scanCode } }
  ttyKernel (modify ({ · with keyPressed := 1 }))

def TtyEvent.run (L : TtyLayout) : TtyEvent → TM Unit
  | kernel e => ttyKernel e.run
  | keyboard scanCode => keyboardHandler scanCode
  | tty => do
    let s ← get
    s.pc.run L

/-- TTY is waiting to be started; its table starts out zeroed. -/
structure TtyState.Initial (s : TtyState) : Prop where
  kernel : ∃ kBase kLimit, KernelMain kBase kLimit s.kernel
  ttyTable : ∀ i, (s.ttyTable i).ttyLeftCnt = 0 ∧ (s.ttyTable i).ttyTransCnt = 0
  screen : s.screen.Booted
  pc : s.pc = .initKeyboard

def ttyMachine (L : TtyLayout) : Machine TtyState TtyEvent Halt where
  initial := TtyState.Initial
  step e := exec (e.run L)

/-- A key press; it comes to the kernel through the keyboard's handler alone. -/
def Event.IsKey : Event → Prop
  | key _ => True
  | _ => False

instance : (e : Event) → Decidable e.IsKey
  | .key _ => isTrue trivial
  | .sendrec _ _ _ | .write _ _ | .informInt _ | .clock => isFalse not_false

/-- Each step is a step of the process that runs, or an interrupt; the keyboard's interrupt is
enabled by `init_keyboard`. -/
def ValidTty (s : TtyState) : TtyEvent → Prop
  | .kernel e => e.Valid s.kernel ∧ ¬ e.IsKey ∧ (e.ByProcess → taskTty ≠ s.kernel.pProcReady)
  | .keyboard _ => s.pc ≠ .initKeyboard
  | .tty => s.kernel.pProcReady = taskTty

instance (s : TtyState) : (e : TtyEvent) → Decidable (ValidTty s e)
  | .kernel _ => inferInstanceAs (Decidable (_ ∧ _ ∧ (_ → _)))
  | .keyboard _ => inferInstanceAs (Decidable (_ ≠ _))
  | .tty => inferInstanceAs (Decidable (_ = _))

/-! ## A start -/

def TtyLayout.low : TtyLayout := ⟨0x8000, 0x8100, by decide, by decide⟩

def TtyState.begin : TtyState where
  kernel := History.begin.kernel
  keyboard := { kbIn := ⟨fun _ => 0, 0, 0, 0⟩, modifiers := {} }
  ttyTable _ := ⟨⟨fun _ => 0, 0, 0, 0⟩, 0, 0, 0, 0, 0⟩
  screen := {
    consoleTable := fun _ => {}
    nrCurrentConsole := 0
    dispPos := 0
    mem := fun _ => 0
    crtc := {}
    writes := [] }
  pc := .initKeyboard

theorem TtyState.begin_initial : TtyState.begin.Initial :=
  ⟨⟨0x1000, 0x1ffff, rfl, rfl, rfl, rfl, rfl⟩, fun _ => ⟨rfl, rfl⟩, ⟨by decide, rfl⟩, rfl⟩

end Dlos
