import Dlos.Library.StateMachine
import Dlos.Library.Bytes
import Dlos.Include.Tty
import Dlos.Kernel.Proc

/-!
# The consoles (`console.c`)

Each console owns a part of the video memory. Writes are recorded with the console they are made
for; no function reads the record. Loops over a 32-bit variable run on enough fuel for every value
it can take.
-/

namespace Dlos

open Program Bytes

/-- `CONSOLE`; the addresses count cells of two bytes. -/
structure Console where
  currentStartAddr : BitVec 32 := 0
  originalAddr : BitVec 32 := 0
  vMemLimit : BitVec 32 := 0
  cursor : BitVec 32 := 0
  deriving DecidableEq

/-- The registers of the video hardware. -/
structure Crtc where
  cursorHigh : Byte := 0
  cursorLow : Byte := 0
  startHigh : Byte := 0
  startLow : Byte := 0
  deriving DecidableEq

structure Screen where
  consoleTable : Fin nrConsoles → Console
  nrCurrentConsole : Fin nrConsoles
  dispPos : Int
  mem : Store
  crtc : Crtc
  writes : List (Fin nrConsoles × Nat)

abbrev SM := EStateM Halt Screen

namespace Screen

def setConsole (s : Screen) (c : Fin nrConsoles) (f : Console → Console) : Screen :=
  { s with consoleTable := Function.update s.consoleTable c (f (s.consoleTable c)) }

/-- Store a byte and record it. -/
def put (s : Screen) (c : Fin nrConsoles) (a : BitVec 32) (b : Byte) : Screen :=
  { s with mem := Function.update s.mem a.toNat b, writes := (c, a.toNat) :: s.writes }

end Screen

def setConsole (c : Fin nrConsoles) (f : Console → Console) : SM Unit := modify (·.setConsole c f)

/-- `*p = b`, for console `c`. -/
def putVideo (c : Fin nrConsoles) (a : BitVec 32) (b : Byte) : SM Unit := modify (·.put c a b)

/-- No loop over a 32-bit variable that ends takes more rounds. -/
def loopFuel : Nat := 2 ^ 32

/-! ## The video hardware -/

def setCursor (position : BitVec 32) : SM Unit :=
  modify fun s => { s with crtc := { s.crtc with
    cursorHigh := (position >>> 8).truncate 8
    cursorLow := position.truncate 8 } }

def setVideoStartAddr (addr : BitVec 32) : SM Unit :=
  modify fun s => { s with crtc := { s.crtc with
    startHigh := (addr >>> 8).truncate 8
    startLow := addr.truncate 8 } }

def flush (c : Fin nrConsoles) : SM Unit := do
  let s ← get
  onlyIf (c = s.nrCurrentConsole) do
    setCursor (s.consoleTable c).cursor
    setVideoStartAddr (s.consoleTable c).currentStartAddr

def selectConsole (nrConsole : Int) : SM Unit :=
  if h : 0 ≤ nrConsole ∧ nrConsole < (nrConsoles : Nat) then do
    let c : Fin nrConsoles := ⟨nrConsole.toNat, toNat_lt h⟩
    modify ({ · with nrCurrentConsole := c })
    flush c
  else pure ()

/-! ## Scrolling -/

def scrollScreen (c : Fin nrConsoles) (direction : Int) : SM Unit := do
  let con := (← get).consoleTable c
  if direction = scrUp then
    onlyIf (con.currentStartAddr > con.originalAddr)
      (setConsole c fun con => { con with currentStartAddr := con.currentStartAddr - screenWidth })
  else if direction = scrDn then
    onlyIf (con.currentStartAddr + screenSize < con.originalAddr + con.vMemLimit)
      (setConsole c fun con => { con with currentStartAddr := con.currentStartAddr + screenWidth })
  else pure ()
  flush c

/-- `while (p_con->cursor >= p_con->current_start_addr + SCREEN_SIZE)` -/
def scrollToCursor (c : Fin nrConsoles) : Nat → SM Unit
  | 0 => throw .diverge
  | fuel + 1 => do
    let con := (← get).consoleTable c
    if con.cursor ≥ con.currentStartAddr + screenSize then do
      scrollScreen c scrDn
      scrollToCursor c fuel
    else pure ()

theorem scrollToCursor_zero {c : Fin nrConsoles} : scrollToCursor c 0 = throw .diverge := rfl

theorem scrollToCursor_succ {c : Fin nrConsoles} {fuel : Nat} : scrollToCursor c (fuel + 1) = (do
    let con := (← get).consoleTable c
    if con.cursor ≥ con.currentStartAddr + screenSize then do
      scrollScreen c scrDn
      scrollToCursor c fuel
    else pure ()) := rfl

attribute [irreducible] scrollToCursor

/-! ## Characters -/

/-- `p_con->cursor + n - p_con->original_addr` in rows -/
def Console.row (con : Console) (n : BitVec 32) : BitVec 32 :=
  (con.cursor - con.originalAddr - n) / screenWidth

/-- The inner loop of a backspace: back over blanks to the end of the text in row `newRow`. -/
def skipBlanks (c : Fin nrConsoles) (newRow : BitVec 32) : Nat → BitVec 32 → SM Unit
  | 0, _ => throw .diverge
  | fuel + 1, pVmem => do
    let s ← get
    let con := s.consoleTable c
    if con.cursor > con.originalAddr ∧ s.mem (pVmem - 2).toNat = blank then do
      if con.row 1 ≠ newRow then pure ()
      else do
        setConsole c fun con => { con with cursor := con.cursor - 1 }
        skipBlanks c newRow fuel (pVmem - 2)
    else pure ()

theorem skipBlanks_zero {c : Fin nrConsoles} {newRow pVmem : BitVec 32} :
    skipBlanks c newRow 0 pVmem = throw .diverge := rfl

theorem skipBlanks_succ {c : Fin nrConsoles} {newRow pVmem : BitVec 32} {fuel : Nat} :
    skipBlanks c newRow (fuel + 1) pVmem = (do
      let s ← get
      let con := s.consoleTable c
      if con.cursor > con.originalAddr ∧ s.mem (pVmem - 2).toNat = blank then do
        if con.row 1 ≠ newRow then pure ()
        else do
          setConsole c fun con => { con with cursor := con.cursor - 1 }
          skipBlanks c newRow fuel (pVmem - 2)
      else pure ()) := rfl

attribute [irreducible] skipBlanks

def newLine (c : Fin nrConsoles) : SM Unit := do
  let con := (← get).consoleTable c
  onlyIf (con.cursor + screenWidth < con.originalAddr + con.vMemLimit)
    (setConsole c fun con => { con with
      cursor := con.originalAddr + screenWidth * (con.row 0 + 1) })

/-- Erase the character before the cursor; `pVmem` follows the cursor. -/
def eraseChar (c : Fin nrConsoles) (pVmem : BitVec 32) : SM (BitVec 32) := do
  let con := (← get).consoleTable c
  if con.cursor > con.originalAddr then do
    setConsole c fun con => { con with cursor := con.cursor - 1 }
    putVideo c (pVmem - 2) blank
    putVideo c (pVmem - 1) defaultCharColor
    pure (pVmem - 2)
  else pure pVmem

def backspace (c : Fin nrConsoles) (pVmem oldRow : BitVec 32) : SM Unit := do
  let pVmem ← eraseChar c pVmem
  let newRow := ((← get).consoleTable c).row 0
  onlyIf (newRow ≠ oldRow) (skipBlanks c newRow loopFuel pVmem)

def printChar (c : Fin nrConsoles) (pVmem : BitVec 32) (ch : Byte) : SM Unit := do
  let con := (← get).consoleTable c
  onlyIf (con.cursor + 1 < con.originalAddr + con.vMemLimit) do
    putVideo c pVmem ch
    putVideo c (pVmem + 1) defaultCharColor
    setConsole c fun con => { con with cursor := con.cursor + 1 }

def outChar (c : Fin nrConsoles) (ch : Byte) : SM Unit := do
  let con := (← get).consoleTable c
  let pVmem := vMemBase + con.cursor * 2
  let oldRow := con.row 0
  if ch = 0x0A then newLine c
  else if ch = 0x08 then backspace c pVmem oldRow
  else printChar c pVmem ch
  scrollToCursor c loopFuel
  flush c

/-! ## The start -/

def initScreen (nrTty : Fin nrConsoles) : SM Unit := do
  let vMemSize : Nat := vMemBytes / 2
  let conVMemSize := vMemSize / nrConsoles
  setConsole nrTty fun _ =>
    { originalAddr := BitVec.ofNat 32 (nrTty.val * conVMemSize)
      vMemLimit := BitVec.ofNat 32 conVMemSize
      currentStartAddr := BitVec.ofNat 32 (nrTty.val * conVMemSize)
      cursor := BitVec.ofNat 32 (nrTty.val * conVMemSize) }
  if nrTty = 0 then do
    let s ← get
    setConsole nrTty fun con => { con with cursor := BitVec.ofInt 32 (s.dispPos.tdiv 2) }
    modify ({ · with dispPos := 0 })
  else do
    outChar nrTty (BitVec.ofNat 8 nrTty.val + 0x30)
    outChar nrTty 0x23
  let s ← get
  setCursor (s.consoleTable nrTty).cursor

/-- `init_tty` of each terminal, as far as the consoles are concerned. -/
def initScreens : SM Unit := (List.finRange nrConsoles).forM initScreen

inductive ScreenEvent
  | outChar (c : Fin nrConsoles) (ch : Byte)
  | scrollScreen (c : Fin nrConsoles) (direction : Int)
  | selectConsole (nrConsole : Int)

def ScreenEvent.run : ScreenEvent → SM Unit
  | .outChar c ch => Dlos.outChar c ch
  | .scrollScreen c direction => Dlos.scrollScreen c direction
  | .selectConsole n => Dlos.selectConsole n

/-- The first cursor of console 0 is inside its memory. -/
def Screen.Booted (s : Screen) : Prop :=
  (BitVec.ofInt 32 (s.dispPos.tdiv 2)).toNat < vMemBytes / 2 / nrConsoles ∧ s.writes = []

def screenMachine : Machine Screen ScreenEvent Halt where
  initial s := ∃ s₀ : Screen, s₀.Booted ∧ initScreens s₀ = .ok () s
  step e s := exec e.run s

end Dlos
