import Dlos.Include.Hd
import Dlos.Kernel.Proc

/-!
# The disk driver (`kernel/hd.c`)

The driver's variables, the memory it copies to and from, and the drive: the sectors on it, and of the
command in progress how many sectors are left and whether an interrupt waits to be taken. A driver that
waits for an interrupt that does not come waits for ever.
-/

namespace Dlos

open Program Bytes

structure Hd where
  /-- `hd_info[0]`, the only one -/
  hdInfo : HdInfo
  hdbuf : Store
  mem : Store
  procTable : Pid → Proc
  /-- The sectors of the drive, 512 bytes each. -/
  disk : Store
  /-- The commands that were sent, the last one first. -/
  cmds : List HdCmd
  /-- The sector to be transferred next. -/
  lba : Nat
  /-- The number of sectors to be transferred. -/
  left : Nat
  intr : Bool
  /-- The numbers of bytes that were transferred, sector by sector, the last one first. -/
  transfers : List Int

abbrev HM := EStateM Halt Hd

/-! ## The drive -/

/-- `hd_cmd_out`, for a drive that gets ready in time. A drive that reads raises an interrupt when it has
a sector, a drive that writes waits for one first. -/
def hdCmdOut (cmd : HdCmd) : HM Unit :=
  modify fun s => { s with
    cmds := cmd :: s.cmds
    lba := cmd.lba
    left := cmd.sectors
    intr := cmd.command = ataRead }

def interruptWait : HM Unit := do
  if (← get).intr then modify ({ · with intr := false }) else throw .diverge

/-- `port_read(REG_DATA, hdbuf, SECTOR_SIZE)` -/
def portRead : HM Unit :=
  modify fun s => { s with
    hdbuf := blit s.hdbuf 0 s.disk (sectorSize * s.lba) sectorSize
    lba := s.lba + 1
    left := s.left - 1
    intr := s.left - 1 ≠ 0 }

/-- `waitfor(STATUS_DRQ, STATUS_DRQ, HD_TIMEOUT)`: the drive asks for data as long as sectors are left. -/
def waitforDrq : HM Bool := do return (← get).left ≠ 0

/-- `port_write(REG_DATA, la, bytes)`, in words. A drive that has not got all of a sector waits for the
rest. -/
def portWrite (la : Addr) (bytes : Int) : HM Unit :=
  modify fun s =>
    if 2 * ((BitVec.ofInt 32 bytes).toNat / 2) = sectorSize then { s with
      disk := blit s.disk (sectorSize * s.lba) (fun i => s.mem (la + BitVec.ofNat 32 i).toNat) 0
        sectorSize
      lba := s.lba + 1
      left := s.left - 1
      intr := true }
    else s

/-! ## Reading and writing -/

/-- Copy `n` bytes of a buffer to address `dst` on; addresses wrap around. -/
def copyOut (m : Store) (dst : Addr) (src : Store) : Nat → Store
  | 0 => m
  | n + 1 => Function.update (copyOut m dst src n) (dst + BitVec.ofNat 32 n).toNat (src n)

/-- `phys_copy(la, va2la(TASK_HD, hdbuf), bytes)` -/
def copyHdbuf (la : Addr) (bytes : Int) : HM Unit :=
  modify fun s => { s with mem := copyOut s.mem la s.hdbuf (BitVec.ofInt 32 bytes).toNat }

/-- The entry of a device in `hd_info`, `none` outside the tables. -/
def Hd.part (s : Hd) (device : Int) : Option PartInfo :=
  if drvOfDev device ≠ 0 then none
  else if device < (maxPrim : Nat) then
    if h : 0 ≤ device ∧ device < (nrPrimPerDrive : Nat) then
      some (s.hdInfo.primary ⟨device.toNat, toNat_lt h⟩)
    else none
  else
    let logidx := (device - (minorHd1a : Nat)).tmod (nrSubPerDrive : Nat)
    if h : 0 ≤ logidx ∧ logidx < (nrSubPerDrive : Nat) then
      some (s.hdInfo.logical ⟨logidx.toNat, toNat_lt h⟩)
    else none

/-- The registers for `count` sectors from sector `sectNr` on. -/
def lbaCmd (drive : Int) (sectNr : BitVec 32) (count command : Byte) : HdCmd where
  count := count
  lbaLow := (sectNr &&& 0xFF).truncate 8
  lbaMid := ((sectNr >>> 8) &&& 0xFF).truncate 8
  lbaHigh := ((sectNr >>> 16) &&& 0xFF).truncate 8
  device := makeDeviceReg 1 (BitVec.ofInt 32 drive) ((sectNr >>> 24) &&& 0xF)
  command := command

/-- The command of `hd_rdwt`. -/
def rdwtCmd (p : Message) (part : PartInfo) : HdCmd :=
  lbaCmd (drvOfDev p.device) ((p.position >>> 9).truncate 32 + part.base)
    (BitVec.ofInt 8 ((p.cnt + (sectorSize : Nat) - 1).tdiv (sectorSize : Nat)))
    (if p.type = MsgType.devRead then ataRead else ataWrite)

/-- `waitfor` and the panic of a WRITE -/
def waitforData : HM Unit := do
  let drq ← waitforDrq
  if drq then pure () else throw (.panic "hd writing error.")

def readSector (la : Addr) (bytes : Int) : HM Unit := do
  interruptWait
  portRead
  copyHdbuf la bytes

def writeSector (la : Addr) (bytes : Int) : HM Unit := do
  waitforData
  portWrite la bytes
  interruptWait

/-- One round of the loop of `hd_rdwt`. -/
def rdwtSector (type : Int) (la : Addr) (bytes : Int) : HM Unit := do
  if type = MsgType.devRead then readSector la bytes else writeSector la bytes
  modify fun s => { s with transfers := bytes :: s.transfers }

/-- `while (bytes_left)`, for at most `fuel` rounds. -/
def rdwtLoop (type : Int) : Nat → Addr → Int → HM Unit
  | 0, _, bytesLeft => if bytesLeft ≠ 0 then throw .diverge else pure ()
  | fuel + 1, la, bytesLeft => do
    if bytesLeft ≠ 0 then do
      rdwtSector type la (min (sectorSize : Nat) bytesLeft)
      rdwtLoop type fuel (la + BitVec.ofNat 32 sectorSize) (bytesLeft - (sectorSize : Nat))
    else pure ()

/-- The loop has no more rounds than a command has sectors, except one that stops. -/
def hdRdwt (p : Message) : HM Unit := do
  -- the limit is -2147483648, taken as an unsigned number
  assert "pos >> SECTOR_SIZE_SHIFT < 1 << 31" (p.position >>> 9 < (1#32 <<< 31).signExtend 64)
  assert "(pos & 0x1FF) == 0" (p.position &&& 0x1FF = 0)
  match (← get).part p.device with
  | none => throw .wildIndex
  | some part => do
    hdCmdOut (rdwtCmd p part)
    let pid ← procAt p.procNr
    let la ← linear (← get).procTable pid p.buf
    rdwtLoop p.type 257 la p.cnt

/-! ## Partitions -/

/-- `get_part_table` -/
def getPartTable (drive : Int) (sectNr : BitVec 32) : HM (Fin nrPartPerDrive → PartEnt) := do
  hdCmdOut (lbaCmd drive sectNr 1 ataRead)
  interruptWait
  portRead
  let s ← get
  pure (partEnt s.hdbuf 0)

def primaryIndex (i : Int) : HM (Fin nrPrimPerDrive) :=
  if h : 0 ≤ i ∧ i < (nrPrimPerDrive : Nat) then pure ⟨i.toNat, toNat_lt h⟩ else throw .wildIndex

def logicalIndex (i : Int) : HM (Fin nrSubPerDrive) :=
  if h : 0 ≤ i ∧ i < (nrSubPerDrive : Nat) then pure ⟨i.toNat, toNat_lt h⟩ else throw .wildIndex

/-- `hdi->primary[i] = …` -/
def setPrimary (i : Int) (part : PartInfo) : HM Unit := do
  let i ← primaryIndex i
  modify fun s => { s with
    hdInfo := { s.hdInfo with primary := Function.update s.hdInfo.primary i part } }

/-- `hdi->logical[i] = …` -/
def setLogical (i : Int) (part : PartInfo) : HM Unit := do
  let i ← logicalIndex i
  modify fun s => { s with
    hdInfo := { s.hdInfo with logical := Function.update s.hdInfo.logical i part } }

/-- `&hd_info[drive]`, of which there is one -/
def oneDrive (drive : Int) : HM Unit := if drive ≠ 0 then throw .wildIndex else pure ()

/-- The loop over the chain of boot records, `fuel` of them from sector `s` on. -/
def extLoop (drive : Int) (extStartSect : BitVec 32) (nr1stSub : Int) :
    Nat → Int → BitVec 32 → HM Unit
  | 0, _, _ => pure ()
  | fuel + 1, i, s => do
    let partTbl ← getPartTable drive s
    setLogical (nr1stSub + i) { base := s + (partTbl 0).startSect, size := (partTbl 0).nrSects }
    if (partTbl 1).sysId = noPart then pure ()
    else extLoop drive extStartSect nr1stSub fuel (i + 1) (extStartSect + (partTbl 1).startSect)

/-- `partition(device, P_EXTENDED)` -/
def partitionExtended (device : Int) : HM Unit := do
  let drive := drvOfDev device
  oneDrive drive
  let j := device.tmod (nrPrimPerDrive : Nat)
  let jdx ← primaryIndex j
  let extStartSect := ((← get).hdInfo.primary jdx).base
  extLoop drive extStartSect ((j - 1) * (nrSubPerPart : Nat)) nrSubPerPart 0 extStartSect

/-- The loop over the entries of the first boot record: the number of partitions. -/
def primLoop (device : Int) (partTbl : Fin nrPartPerDrive → PartEnt) :
    List (Fin nrPartPerDrive) → Int → HM Int
  | [], nrPrimParts => pure nrPrimParts
  | i :: l, nrPrimParts => do
    if (partTbl i).sysId = noPart then primLoop device partTbl l nrPrimParts
    else do
      let devNr : Int := i.val + 1
      setPrimary devNr { base := (partTbl i).startSect, size := (partTbl i).nrSects }
      onlyIf ((partTbl i).sysId = extPart) (partitionExtended (device + devNr))
      primLoop device partTbl l (nrPrimParts + 1)

/-- `partition(device, P_PRIMARY)` -/
def partitionPrimary (device : Int) : HM Unit := do
  let drive := drvOfDev device
  oneDrive drive
  let partTbl ← getPartTable drive (BitVec.ofInt 32 drive)
  let nrPrimParts ← primLoop device partTbl (List.finRange nrPartPerDrive) 0
  assert "nr_prim_parts != 0" (nrPrimParts ≠ 0)

end Dlos
