import Mathlib.Data.BitVec
import Dlos.Include.Const

/-!
# Messages

`MESSAGE` with the `mess3` layout of its union, the only one the system's code uses. A C `int`
is an `Int`; pointers are 32-bit words, 0 being the null pointer.
-/

namespace Dlos

/-- A linear or a segment-relative address. -/
abbrev Addr := BitVec 32

namespace MsgType

/-! `enum msgtype`, by its values. -/

abbrev hardInt : Int := 1
abbrev getTicks : Int := 2
abbrev getPid : Int := 3
abbrev openFile : Int := 4
abbrev close : Int := 5
abbrev read : Int := 6
abbrev write : Int := 7
abbrev unlink : Int := 10
abbrev diskLog : Int := 11
abbrev suspendProc : Int := 12
abbrev resumeProc : Int := 13
abbrev fork : Int := 16
abbrev exit : Int := 17
abbrev syscallRet : Int := 18
abbrev devOpen : Int := 1001
abbrev devRead : Int := 1003
abbrev devWrite : Int := 1004

end MsgType

/-- `struct mess3`. -/
structure Mess3 where
  m3i1 : Int := 0
  m3i2 : Int := 0
  m3i3 : Int := 0
  m3i4 : Int := 0
  m3l1 : BitVec 64 := 0
  m3l2 : BitVec 64 := 0
  m3p1 : Addr := 0
  m3p2 : Addr := 0
  deriving DecidableEq, Repr

structure Message where
  source : Int := 0
  type : Int := 0
  u : Mess3 := {}
  deriving DecidableEq, Repr

namespace Message

/-! The field macros of `const.h`; several of them name the same word. -/

abbrev fd (m : Message) : Int := m.u.m3i1
abbrev retval (m : Message) : Int := m.u.m3i1
abbrev flags (m : Message) : Int := m.u.m3i1
abbrev nameLen (m : Message) : Int := m.u.m3i2
abbrev cnt (m : Message) : Int := m.u.m3i2
abbrev pid (m : Message) : Int := m.u.m3i2
abbrev procNr (m : Message) : Int := m.u.m3i3
abbrev device (m : Message) : Int := m.u.m3i4
abbrev position (m : Message) : BitVec 64 := m.u.m3l1
abbrev pathname (m : Message) : Addr := m.u.m3p1
abbrev buf (m : Message) : Addr := m.u.m3p2

end Message

end Dlos
