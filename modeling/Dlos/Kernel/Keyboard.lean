import Dlos.Library.RingBuffer
import Dlos.Include.Keyboard

/-!
# The keyboard (`keyboard.c`)

The interrupt handler puts scan codes into a ring. `keyboard_read` takes the code of one key out
of it byte by byte, and waits for the bytes that have not come yet.
-/

namespace Dlos

open Bytes

/-- The keys that are down, and the locks. -/
structure Modifiers where
  shiftL : Bool := false
  shiftR : Bool := false
  altL : Bool := false
  altR : Bool := false
  ctrlL : Bool := false
  ctrlR : Bool := false
  capsLock : Bool := false
  numLock : Bool := true
  scrollLock : Bool := false
  deriving DecidableEq

/-- The variables of `keyboard.c` that outlive a call. -/
structure Keyboard where
  kbIn : RingBuffer Byte
  modifiers : Modifiers

/-- The scan codes that have not been read. -/
def Keyboard.unread (kb : Keyboard) : List Byte := kb.kbIn.contents kbInBytes

/-- `init_keyboard`. -/
def Keyboard.init (kb : Keyboard) : Keyboard where
  kbIn := { kb.kbIn with count := 0, head := 0, tail := 0 }
  modifiers := {}

/-! ## The code of a key -/

namespace Modifiers

/-- The key in column `column` of a row of the key map. -/
def keyOf (s : Modifiers) (keyrow : BitVec 32 × BitVec 32 × BitVec 32) (codeWithE0 : Bool) :
    BitVec 32 :=
  let shift := s.shiftL || s.shiftR
  let letter := ascii 'a' ≤ keyrow.1 && keyrow.1 ≤ ascii 'z'
  let caps := if s.capsLock && letter then !shift else shift
  if codeWithE0 then keyrow.2.2 else if caps then keyrow.2.1 else keyrow.1

/-- Note that a modifier has been pressed or released. -/
def note (s : Modifiers) (key : BitVec 32) (make : Bool) : Modifiers :=
  if key = keyShiftL then { s with shiftL := make }
  else if key = keyShiftR then { s with shiftR := make }
  else if key = keyCtrlL then { s with ctrlL := make }
  else if key = keyCtrlR then { s with ctrlR := make }
  else if key = keyAltL then { s with altL := make }
  else if key = keyAltR then { s with altR := make }
  else if key = keyCapsLock ∧ make then { s with capsLock := !s.capsLock }
  else if key = keyNumLock ∧ make then { s with numLock := !s.numLock }
  else if key = keyScrollLock ∧ make then { s with scrollLock := !s.scrollLock }
  else s

/-- What a key of the number pad stands for. -/
def padKey (s : Modifiers) (key : BitVec 32) : BitVec 32 :=
  if key = keyPadSlash then 0x2F
  else if key = keyPadStar then 0x2A
  else if key = keyPadMinus then 0x2D
  else if key = keyPadPlus then 0x2B
  else if key = keyPadEnter then keyEnter
  else if s.numLock then
    if keyPad0 ≤ key ∧ key ≤ keyPad9 then key - keyPad0 + ascii '0'
    else if key = keyPadDot then 0x2E
    else key
  else if key = keyPadHome then keyHome
  else if key = keyPadEnd then keyEnd
  else if key = keyPadPageup then keyPageup
  else if key = keyPadPagedown then keyPagedown
  else if key = keyPadIns then keyInsert
  else if key = keyPadUp then keyUp
  else if key = keyPadDown then keyDown
  else if key = keyPadLeft then keyLeft
  else if key = keyPadRight then keyRight
  else if key = keyPadDot then keyDelete
  else key

/-- The flags of the modifiers that are down. -/
def flags (s : Modifiers) : BitVec 32 :=
  (if s.shiftL then flagShiftL else 0) ||| (if s.shiftR then flagShiftR else 0) |||
    (if s.ctrlL then flagCtrlL else 0) ||| (if s.ctrlR then flagCtrlR else 0) |||
    (if s.altL then flagAltL else 0) ||| (if s.altR then flagAltR else 0)

/-- The end of `keyboard_read`, with the last byte read: the modifiers afterwards, and for a key
that has been pressed the argument of `in_process`. -/
def decode (s : Modifiers) (scanCode : Byte) (codeWithE0 : Bool) : Modifiers × Option (BitVec 32) :=
  let make : Bool := scanCode &&& flagBreak = 0
  let key := s.keyOf (keymap scanCode) codeWithE0
  let s := s.note key make
  if make then
    if keyPadSlash ≤ key ∧ key ≤ keyPad9 then (s, some (s.padKey key ||| s.flags ||| flagPad))
    else (s, some (key ||| s.flags))
  else (s, none)

end Modifiers

/-! ## The bytes of a code -/

/-- `pausebrk_scode` -/
def pausebrkScode : List Byte := [0xE1, 0x1D, 0x45, 0xE1, 0x9D, 0xC5]

/-- The places in `keyboard_read` before a byte is read, and those with nothing left to read. -/
inductive KbPc
  | first
  /-- Before byte `i` of the code of PAUSE. -/
  | pause (i : Nat)
  /-- After `0xE0`. -/
  | extended
  /-- After `0xE0 0x2A`, and with `second` after a further `0xE0`. -/
  | printMake (second : Bool)
  /-- After `0xE0 0xB7`, and with `second` after a further `0xE0`. -/
  | printBreak (second : Bool)
  | decode (scanCode : Byte) (codeWithE0 : Bool)
  /-- After the code of PAUSE or PRINT SCREEN. -/
  | finish
  deriving DecidableEq

/-- The place after reading a byte. -/
def KbPc.feed : KbPc → Byte → KbPc
  | first, b =>
    if b = 0xE1 then pause 1
    else if b = 0xE0 then extended
    else decode b false
  | pause i, b =>
    if some b ≠ pausebrkScode[i]? then decode 0xE1 false
    else if i + 1 < 6 then pause (i + 1)
    else finish
  | extended, b =>
    if b = 0x2A then printMake false
    else if b = 0xB7 then printBreak false
    else decode b true
  | printMake false, b => if b = 0xE0 then printMake true else decode 0x2A true
  | printMake true, b => if b = 0x37 then finish else decode 0x2A true
  | printBreak false, b => if b = 0xE0 then printBreak true else decode 0xB7 true
  | printBreak true, b => if b = 0xAA then finish else decode 0xB7 true
  | decode scanCode codeWithE0, _ => decode scanCode codeWithE0
  | finish, _ => finish

/-- `get_byte_from_kbuf` is the next thing to happen. -/
def KbPc.Reads : KbPc → Prop
  | decode _ _ => False
  | finish => False
  | _ => True

instance : (pc : KbPc) → Decidable pc.Reads
  | .decode _ _ => isFalse not_false
  | .finish => isFalse not_false
  | .first | .pause _ | .extended | .printMake _ | .printBreak _ => isTrue trivial

end Dlos
