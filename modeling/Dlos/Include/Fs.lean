import Dlos.Include.Type
import Dlos.Library.Bytes

/-!
# The file system's tables (`fs.h`, `const.h`, `hd.h`, `config.h`)

An unsigned field is a `BitVec 32`, a C `int` an `Int`. A pointer into a table is an index of the
table, `none` being the null pointer.
-/

namespace Dlos

/-! ## Sizes -/

abbrev nrFiles : Nat := 64
abbrev nrFileDesc : Nat := 64
abbrev nrInode : Nat := 64
abbrev nrSuperBlock : Nat := 8

instance : NeZero nrInode := ⟨by decide⟩

abbrev sectorSize : Nat := 512
abbrev sectorBits : Nat := sectorSize * 8
abbrev inodeSize : Nat := 32
abbrev dirEntrySize : Nat := 16
abbrev maxFilenameLen : Nat := 12
abbrev maxPath : Nat := 128
abbrev nrDefaultFileSects : Nat := 2048
abbrev nrSectsForLog : Nat := nrDefaultFileSects
/-- The largest number of sectors in one transfer of the log. -/
abbrev maxIoBytes : Nat := 256

/-- The file system's buffer. -/
abbrev fsbuf : Nat := 0x600000
abbrev fsbufSize : Nat := 0x100000

/-! ## Codes -/

abbrev noDev : Int := 0
abbrev devHd : Nat := 3
abbrev devCharTty : Nat := 4
abbrev minorBoot : Nat := 0x20
/-- `MAKE_DEV(DEV_HD, MINOR_BOOT)` -/
abbrev rootDev : Int := 0x320

/-- `MAJOR(dev)` -/
def major (dev : Int) : Nat := (dev / 256 % 256).toNat
/-- `MINOR(dev)` -/
def minor (dev : Int) : Nat := (dev % 256).toNat

abbrev magicV1 : BitVec 32 := 0x111
abbrev invalidInode : Int := 0
abbrev rootInodeNr : Int := 1

abbrev iTypeMask : BitVec 32 := 0o170000
abbrev iRegular : BitVec 32 := 0o100000
abbrev iDirectory : BitVec 32 := 0o040000
abbrev iCharSpecial : BitVec 32 := 0o020000

abbrev oCreat : BitVec 32 := 1
abbrev oRdwr : BitVec 32 := 2

/-- `flags & flag` -/
def hasFlag (flags : Int) (flag : BitVec 32) : Prop := BitVec.ofInt 32 flags &&& flag ≠ 0

instance (flags : Int) (flag : BitVec 32) : Decidable (hasFlag flags flag) :=
  inferInstanceAs (Decidable (_ ≠ _))

/-! ## Records -/

structure SuperBlock where
  magic : BitVec 32 := 0
  nrInodes : BitVec 32 := 0
  nrSects : BitVec 32 := 0
  nrImapSects : BitVec 32 := 0
  nrSmapSects : BitVec 32 := 0
  n1stSect : BitVec 32 := 0
  nrInodeSects : BitVec 32 := 0
  rootInode : BitVec 32 := 0
  inodeSize : BitVec 32 := 0
  inodeIsizeOff : BitVec 32 := 0
  inodeStartOff : BitVec 32 := 0
  dirEntSize : BitVec 32 := 0
  dirEntInodeOff : BitVec 32 := 0
  dirEntFnameOff : BitVec 32 := 0
  sbDev : Int := noDev
  deriving DecidableEq

/-- The part of a super block that is on the disk. -/
def SuperBlock.words (sb : SuperBlock) : List (BitVec 32) :=
  [sb.magic, sb.nrInodes, sb.nrSects, sb.nrImapSects, sb.nrSmapSects, sb.n1stSect,
    sb.nrInodeSects, sb.rootInode, sb.inodeSize, sb.inodeIsizeOff, sb.inodeStartOff,
    sb.dirEntSize, sb.dirEntInodeOff, sb.dirEntFnameOff]

structure Inode where
  iMode : BitVec 32 := 0
  iSize : BitVec 32 := 0
  iStartSect : BitVec 32 := 0
  iNrSects : BitVec 32 := 0
  iDev : Int := 0
  iCnt : Int := 0
  iNum : Int := 0
  deriving DecidableEq

/-- The part of an inode that is on the disk. -/
def Inode.words (i : Inode) : List (BitVec 32) := [i.iMode, i.iSize, i.iStartSect, i.iNrSects]

structure FileDesc where
  fdMode : Int := 0
  fdPos : Int := 0
  fdCnt : Int := 0
  fdInode : Option (Fin nrInode) := none
  deriving DecidableEq

end Dlos
