import Dlos.Library.Bytes

/-!
# The keys (`keyboard.h`, `keymap.h`)
-/

namespace Dlos

open Bytes

abbrev kbInBytes : Nat := 32

/-! ## Keys -/

abbrev flagBreak : Byte := 0x80
abbrev flagExt : BitVec 32 := 0x0100
abbrev flagShiftL : BitVec 32 := 0x0200
abbrev flagShiftR : BitVec 32 := 0x0400
abbrev flagCtrlL : BitVec 32 := 0x0800
abbrev flagCtrlR : BitVec 32 := 0x1000
abbrev flagAltL : BitVec 32 := 0x2000
abbrev flagAltR : BitVec 32 := 0x4000
abbrev flagPad : BitVec 32 := 0x8000
abbrev maskRaw : BitVec 32 := 0x01FF

abbrev keyEsc : BitVec 32 := flagExt + 0x01
abbrev keyTab : BitVec 32 := flagExt + 0x02
abbrev keyEnter : BitVec 32 := flagExt + 0x03
abbrev keyBackspace : BitVec 32 := flagExt + 0x04
abbrev keyGuiL : BitVec 32 := flagExt + 0x05
abbrev keyGuiR : BitVec 32 := flagExt + 0x06
abbrev keyApps : BitVec 32 := flagExt + 0x07
abbrev keyShiftL : BitVec 32 := flagExt + 0x08
abbrev keyShiftR : BitVec 32 := flagExt + 0x09
abbrev keyCtrlL : BitVec 32 := flagExt + 0x0A
abbrev keyCtrlR : BitVec 32 := flagExt + 0x0B
abbrev keyAltL : BitVec 32 := flagExt + 0x0C
abbrev keyAltR : BitVec 32 := flagExt + 0x0D
abbrev keyCapsLock : BitVec 32 := flagExt + 0x0E
abbrev keyNumLock : BitVec 32 := flagExt + 0x0F
abbrev keyScrollLock : BitVec 32 := flagExt + 0x10
abbrev keyF1 : BitVec 32 := flagExt + 0x11
abbrev keyF2 : BitVec 32 := flagExt + 0x12
abbrev keyF3 : BitVec 32 := flagExt + 0x13
abbrev keyF4 : BitVec 32 := flagExt + 0x14
abbrev keyF5 : BitVec 32 := flagExt + 0x15
abbrev keyF6 : BitVec 32 := flagExt + 0x16
abbrev keyF7 : BitVec 32 := flagExt + 0x17
abbrev keyF8 : BitVec 32 := flagExt + 0x18
abbrev keyF9 : BitVec 32 := flagExt + 0x19
abbrev keyF10 : BitVec 32 := flagExt + 0x1A
abbrev keyF11 : BitVec 32 := flagExt + 0x1B
abbrev keyF12 : BitVec 32 := flagExt + 0x1C
abbrev keyInsert : BitVec 32 := flagExt + 0x1F
abbrev keyDelete : BitVec 32 := flagExt + 0x20
abbrev keyHome : BitVec 32 := flagExt + 0x21
abbrev keyEnd : BitVec 32 := flagExt + 0x22
abbrev keyPageup : BitVec 32 := flagExt + 0x23
abbrev keyPagedown : BitVec 32 := flagExt + 0x24
abbrev keyUp : BitVec 32 := flagExt + 0x25
abbrev keyDown : BitVec 32 := flagExt + 0x26
abbrev keyLeft : BitVec 32 := flagExt + 0x27
abbrev keyRight : BitVec 32 := flagExt + 0x28
abbrev keyPadSlash : BitVec 32 := flagExt + 0x2C
abbrev keyPadStar : BitVec 32 := flagExt + 0x2D
abbrev keyPadMinus : BitVec 32 := flagExt + 0x2E
abbrev keyPadPlus : BitVec 32 := flagExt + 0x2F
abbrev keyPadEnter : BitVec 32 := flagExt + 0x30
abbrev keyPadDot : BitVec 32 := flagExt + 0x31
abbrev keyPad0 : BitVec 32 := flagExt + 0x32
abbrev keyPad1 : BitVec 32 := flagExt + 0x33
abbrev keyPad2 : BitVec 32 := flagExt + 0x34
abbrev keyPad3 : BitVec 32 := flagExt + 0x35
abbrev keyPad4 : BitVec 32 := flagExt + 0x36
abbrev keyPad5 : BitVec 32 := flagExt + 0x37
abbrev keyPad6 : BitVec 32 := flagExt + 0x38
abbrev keyPad7 : BitVec 32 := flagExt + 0x39
abbrev keyPad8 : BitVec 32 := flagExt + 0x3A
abbrev keyPad9 : BitVec 32 := flagExt + 0x3B

abbrev keyPadUp : BitVec 32 := keyPad8
abbrev keyPadDown : BitVec 32 := keyPad2
abbrev keyPadLeft : BitVec 32 := keyPad4
abbrev keyPadRight : BitVec 32 := keyPad6
abbrev keyPadHome : BitVec 32 := keyPad7
abbrev keyPadEnd : BitVec 32 := keyPad1
abbrev keyPadPageup : BitVec 32 := keyPad9
abbrev keyPadPagedown : BitVec 32 := keyPad3
abbrev keyPadIns : BitVec 32 := keyPad0
abbrev keyPadMid : BitVec 32 := keyPad5

/-! ## The key map -/

def ascii (c : Char) : BitVec 32 := BitVec.ofNat 32 c.toNat

/-- `keymap`, a row for each scan code: without SHIFT, with SHIFT, and after `0xE0`. -/
def keymapRows : List (BitVec 32 × BitVec 32 × BitVec 32) :=
    [(0, 0, 0), (keyEsc, keyEsc, 0), (ascii '1', 0x21, 0), (ascii '2', 0x40, 0),
    (ascii '3', 0x23, 0), (ascii '4', 0x24, 0), (ascii '5', 0x25, 0), (ascii '6', 0x5E, 0),
    (ascii '7', 0x26, 0), (ascii '8', 0x2A, 0), (ascii '9', 0x28, 0), (ascii '0', 0x29, 0),
    (0x2D, 0x5F, 0), (0x3D, 0x2B, 0), (keyBackspace, keyBackspace, 0), (keyTab, keyTab, 0),
    (ascii 'q', ascii 'Q', 0), (ascii 'w', ascii 'W', 0), (ascii 'e', ascii 'E', 0),
    (ascii 'r', ascii 'R', 0), (ascii 't', ascii 'T', 0), (ascii 'y', ascii 'Y', 0),
    (ascii 'u', ascii 'U', 0), (ascii 'i', ascii 'I', 0), (ascii 'o', ascii 'O', 0),
    (ascii 'p', ascii 'P', 0), (0x5B, 0x7B, 0), (0x5D, 0x7D, 0),
    (keyEnter, keyEnter, keyPadEnter), (keyCtrlL, keyCtrlL, keyCtrlR), (ascii 'a', ascii 'A', 0),
    (ascii 's', ascii 'S', 0), (ascii 'd', ascii 'D', 0), (ascii 'f', ascii 'F', 0),
    (ascii 'g', ascii 'G', 0), (ascii 'h', ascii 'H', 0), (ascii 'j', ascii 'J', 0),
    (ascii 'k', ascii 'K', 0), (ascii 'l', ascii 'L', 0), (0x3B, 0x3A, 0), (0x27, 0x22, 0),
    (0x60, 0x7E, 0), (keyShiftL, keyShiftL, 0), (0x5C, 0x7C, 0), (ascii 'z', ascii 'Z', 0),
    (ascii 'x', ascii 'X', 0), (ascii 'c', ascii 'C', 0), (ascii 'v', ascii 'V', 0),
    (ascii 'b', ascii 'B', 0), (ascii 'n', ascii 'N', 0), (ascii 'm', ascii 'M', 0),
    (0x2C, 0x3C, 0), (0x2E, 0x3E, 0), (0x2F, 0x3F, keyPadSlash), (keyShiftR, keyShiftR, 0),
    (0x2A, 0x2A, 0), (keyAltL, keyAltL, keyAltR), (0x20, 0x20, 0), (keyCapsLock, keyCapsLock, 0),
    (keyF1, keyF1, 0), (keyF2, keyF2, 0), (keyF3, keyF3, 0), (keyF4, keyF4, 0), (keyF5, keyF5, 0),
    (keyF6, keyF6, 0), (keyF7, keyF7, 0), (keyF8, keyF8, 0), (keyF9, keyF9, 0),
    (keyF10, keyF10, 0), (keyNumLock, keyNumLock, 0), (keyScrollLock, keyScrollLock, 0),
    (keyPadHome, ascii '7', keyHome), (keyPadUp, ascii '8', keyUp),
    (keyPadPageup, ascii '9', keyPageup), (keyPadMinus, 0x2D, 0),
    (keyPadLeft, ascii '4', keyLeft), (keyPadMid, ascii '5', 0),
    (keyPadRight, ascii '6', keyRight), (keyPadPlus, 0x2B, 0), (keyPadEnd, ascii '1', keyEnd),
    (keyPadDown, ascii '2', keyDown), (keyPadPagedown, ascii '3', keyPagedown),
    (keyPadIns, ascii '0', keyInsert), (keyPadDot, 0x2E, keyDelete), (0, 0, 0), (0, 0, 0),
    (0, 0, 0), (keyF11, keyF11, 0), (keyF12, keyF12, 0), (0, 0, 0), (0, 0, 0), (0, 0, keyGuiL),
    (0, 0, keyGuiR), (0, 0, keyApps)] ++ List.replicate 34 (0, 0, 0)

/-- The row of a scan code; the flag for a break does not count. -/
def keymap (scanCode : Byte) : BitVec 32 × BitVec 32 × BitVec 32 :=
  keymapRows.getD (scanCode &&& 0x7F).toNat (0, 0, 0)

end Dlos
