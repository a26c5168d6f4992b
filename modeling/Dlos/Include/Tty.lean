import Mathlib.Data.BitVec
import Dlos.Include.Const

/-!
# The constants of the terminals (`const.h`, `console.h`, `tty.h`, `keyboard.h`)
-/

namespace Dlos

/-! ## The screen -/

abbrev vMemBase : BitVec 32 := 0xB8000
/-- `V_MEM_SIZE`, in bytes. -/
abbrev vMemBytes : Nat := 0x8000

abbrev scrUp : Int := 1
abbrev scrDn : Int := -1

abbrev screenSize : BitVec 32 := 2000
abbrev screenWidth : BitVec 32 := 80

/-- `' '` -/
abbrev blank : BitVec 8 := 0x20
abbrev defaultCharColor : BitVec 8 := 0x07

/-! ## Input and output -/

abbrev ttyInBytes : Nat := 256
abbrev ttyOutBufLen : Nat := 2

end Dlos
