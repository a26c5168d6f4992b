import Dlos.Include.Fs

/-!
# The hard disk (`hd.h`, `const.h`)
-/

namespace Dlos

open Bytes

/-! ## Devices -/

abbrev maxDrives : Nat := 2
abbrev nrPartPerDrive : Nat := 4
abbrev nrSubPerPart : Nat := 16
abbrev nrSubPerDrive : Nat := nrSubPerPart * nrPartPerDrive
abbrev nrPrimPerDrive : Nat := nrPartPerDrive + 1
abbrev maxPrim : Nat := maxDrives * nrPrimPerDrive - 1
abbrev minorHd1a : Nat := 0x10

instance : NeZero nrPartPerDrive := ⟨by decide⟩

/-- `DRV_OF_DEV` -/
def drvOfDev (dev : Int) : Int :=
  if dev ≤ (maxPrim : Nat) then dev.tdiv (nrPrimPerDrive : Nat)
  else (dev - (minorHd1a : Nat)).tdiv (nrSubPerDrive : Nat)

structure PartInfo where
  base : BitVec 32 := 0
  size : BitVec 32 := 0
  deriving DecidableEq, Repr

/-- `struct hd_info`, without the number of openings. -/
structure HdInfo where
  primary : Fin nrPrimPerDrive → PartInfo := fun _ => {}
  logical : Fin nrSubPerDrive → PartInfo := fun _ => {}

/-! ## Partition tables -/

abbrev noPart : Byte := 0x00
abbrev extPart : Byte := 0x05
abbrev partitionTableOffset : Nat := 0x1BE

/-- `struct part_ent`, without what is about heads and cylinders. -/
structure PartEnt where
  sysId : Byte
  startSect : BitVec 32
  nrSects : BitVec 32
  deriving DecidableEq, Repr

/-- Entry `i` of the partition table in the sector at address `a`. -/
def partEnt (m : Store) (a : Nat) (i : Fin nrPartPerDrive) : PartEnt :=
  let e := a + partitionTableOffset + 16 * i.val
  { sysId := m (e + 4), startSect := word m (e + 8), nrSects := word m (e + 12) }

/-! ## Commands -/

abbrev ataRead : Byte := 0x20
abbrev ataWrite : Byte := 0x30

structure HdCmd where
  features : Byte := 0
  count : Byte := 0
  lbaLow : Byte := 0
  lbaMid : Byte := 0
  lbaHigh : Byte := 0
  device : Byte := 0
  command : Byte := 0
  deriving DecidableEq, Repr

/-- `MAKE_DEVICE_REG`, as it is stored in an `u8` -/
def makeDeviceReg (lba drv lbaHighest : BitVec 32) : Byte :=
  (lba <<< 6 ||| drv <<< 4 ||| (lbaHighest &&& 0xF) ||| 0xA0).truncate 8

namespace HdCmd

/-- The sector that the registers name. -/
def lba (c : HdCmd) : Nat :=
  c.lbaLow.toNat + 2 ^ 8 * c.lbaMid.toNat + 2 ^ 16 * c.lbaHigh.toNat + 2 ^ 24 * (c.device.toNat % 16)

/-- The number of sectors that the drive transfers for the command. -/
def sectors (c : HdCmd) : Nat := if c.count = 0 then 256 else c.count.toNat

end HdCmd

end Dlos
