import Dlos.Include.Type

/-!
# The constants of the memory manager

The macros of `proc.h` and `protect.h` that place the images of forked processes.
-/

namespace Dlos

/-- 10 MB. -/
abbrev procsBase : Nat := 0xA00000

/-- 1 MB. -/
abbrev procImageSizeDefault : Nat := 0x100000

abbrev privilegeUser : BitVec 16 := 3

/-- `sizeof(p->name)` -/
abbrev nameSize : Nat := 16

end Dlos
