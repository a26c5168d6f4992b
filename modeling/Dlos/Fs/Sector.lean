import Dlos.Include.Fs
import Dlos.Kernel.Proc

/-!
# The file system task's state and its access to memory and disk (`fs/main.c`, `fs.h`)

Linear memory and the root partition are byte stores. The disk driver is seen through what its
answer to a message is: the announced bytes have been moved between the partition and `fsbuf`.
Local arrays of the source are lists, and what the code prints is left out. A C expression whose
behaviour is undefined, such as an index below a table, ends in `Halt.wildIndex`.
-/

namespace Dlos

open Program Bytes

/-- A record of a `phys_copy`. No function reads these records. -/
structure PhysCopy where
  dst : Addr
  src : Addr
  size : BitVec 32
  deriving DecidableEq

structure Fs where
  disk : Store
  mem : Store
  procTable : Pid → Proc
  /-- The field `filp` of `struct proc`. -/
  filp : Pid → Fin nrFiles → Option (Fin nrFileDesc)
  fDescTable : Fin nrFileDesc → FileDesc
  inodeTable : Fin nrInode → Inode
  superBlock : Fin nrSuperBlock → SuperBlock
  rootInode : Option (Fin nrInode)
  pcaller : Pid
  fsMsg : Message
  /-- The static variable `pos` of `disklog`. -/
  logPos : Int
  /-- The number of sectors the disk driver answers to `DIOCTL_GET_GEO`. -/
  geoSize : BitVec 32
  /-- What the terminal driver makes of a message before it answers. -/
  ttyReply : Message → Message
  copies : List PhysCopy

abbrev FM := EStateM Halt Fs

namespace Fs

def setInode (s : Fs) (p : Fin nrInode) (f : Inode → Inode) : Fs :=
  { s with inodeTable := Function.update s.inodeTable p (f (s.inodeTable p)) }

def setDesc (s : Fs) (d : Fin nrFileDesc) (f : FileDesc → FileDesc) : Fs :=
  { s with fDescTable := Function.update s.fDescTable d (f (s.fDescTable d)) }

def setFilp (s : Fs) (p : Pid) (i : Fin nrFiles) (d : Option (Fin nrFileDesc)) : Fs :=
  { s with filp := Function.update s.filp p (Function.update (s.filp p) i d) }

end Fs

def setInode (p : Fin nrInode) (f : Inode → Inode) : FM Unit := modify (·.setInode p f)
def setDesc (d : Fin nrFileDesc) (f : FileDesc → FileDesc) : FM Unit := modify (·.setDesc d f)
def setFilp (p : Pid) (i : Fin nrFiles) (d : Option (Fin nrFileDesc)) : FM Unit :=
  modify (·.setFilp p i d)

/-! ## Indices and pointers -/

/-- An index or a shift count, which must not be negative. -/
def natOf (i : Int) : FM Nat := if 0 ≤ i then pure i.toNat else throw .wildIndex

/-- `filp[fd]` -/
def filpIndex (fd : Int) : FM (Fin nrFiles) :=
  if h : 0 ≤ fd ∧ fd < (nrFiles : Nat) then pure ⟨fd.toNat, toNat_lt h⟩ else throw .wildIndex

/-- `*p`, which must not be null. -/
def deref {α : Type} (p : Option α) : FM α :=
  match p with
  | some a => pure a
  | none => throw .wildIndex

/-! ## The buffer -/

/-- `fsbuf[i]` -/
def bufAt (i : Nat) : FM Byte := do return (← get).mem (fsbuf + i)

/-- `fsbuf[i] = b` -/
def setBuf (i : Nat) (b : Byte) : FM Unit :=
  modify fun s => { s with mem := Function.update s.mem (fsbuf + i) b }

/-- `memset(fsbuf + i, b, n)` -/
def memsetBuf (i : Nat) (b : Byte) (n : Nat) : FM Unit :=
  modify fun s => { s with mem := fill s.mem (fsbuf + i) n b }

/-- Copy bytes to `fsbuf + i`. -/
def putBuf (i : Nat) (bs : List Byte) : FM Unit :=
  modify fun s => { s with mem := putBytes s.mem (fsbuf + i) bs }

/-- The word at `fsbuf + i`. -/
def bufWord (i : Nat) : FM (BitVec 32) := do return word (← get).mem (fsbuf + i)

/-- Store words from `fsbuf + i` on. -/
def putBufWords (i : Nat) (ws : List (BitVec 32)) : FM Unit :=
  modify fun s => { s with mem := putWords s.mem (fsbuf + i) ws }

/-! ## The drivers -/

/-- `dd_map`; `none` is `INVALID_DRIVER`. -/
def ddMap : List (Option Pid) := [none, none, none, some taskHd, some taskTty, none]

/-- The driver of a device, which the assertion before every message to a driver demands. -/
def driverOf (dev : Int) : FM Pid :=
  match ddMap[major dev]? with
  | some (some driver) => pure driver
  | some none => throw (.assertion "dd_map[MAJOR(dev)].driver_nr != INVALID_DRIVER")
  | none => throw .wildIndex

/-- `rw_sector` with `fsbuf` and `TASK_FS`, as it is always called. The only disk is the root
partition. -/
def rwSector (ioType dev : Int) (pos : BitVec 32) (bytes : Nat) : FM Unit := do
  let driver ← driverOf dev
  if driver = taskHd ∧ minor dev = minorBoot then
    if ioType = MsgType.devRead then
      modify fun s => { s with mem := blit s.mem fsbuf s.disk pos.toNat bytes }
    else modify fun s => { s with disk := blit s.disk pos.toNat s.mem fsbuf bytes }
  else throw .wildIndex

/-- `sect_nr * SECTOR_SIZE` as the `u32` parameter `pos` of `rw_sector`. -/
def sectPos (sectNr : Int) : BitVec 32 := BitVec.ofInt 32 (sectNr * sectorSize)

/-- `RD_SECT` -/
def rdSect (dev sectNr : Int) : FM Unit := rwSector MsgType.devRead dev (sectPos sectNr) sectorSize

/-- `WR_SECT` -/
def wrSect (dev sectNr : Int) : FM Unit := rwSector MsgType.devWrite dev (sectPos sectNr) sectorSize

/-! ## The callers' memory -/

/-- `va2la` -/
def fsVa2la (pid : Pid) (va : Addr) : FM Addr := do
  let s ← get
  linear s.procTable pid va

/-- `memcpy` byte by byte; addresses wrap around. -/
def memcpy (m : Store) (dst src : Addr) : Nat → Store
  | 0 => m
  | n + 1 => memcpy (Function.update m dst.toNat (m src.toNat)) (dst + 1) (src + 1) n

def physCopy (dst src : Addr) (size : Int) : FM Unit :=
  modify fun s => { s with
    mem := memcpy s.mem dst src (BitVec.ofInt 32 size).toNat
    copies := ⟨dst, src, BitVec.ofInt 32 size⟩ :: s.copies }

/-- The characters of a C string. -/
def cString (bs : List Byte) : List Byte := bs.takeWhile (· ≠ 0)

/-- The first lines of `do_open` and `do_unlink`: copy the path name to a local array, whose
segment starts at 0, and end it with a 0. -/
def fetchPathname : FM (List Byte) := do
  let s ← get
  let nameLen := s.fsMsg.nameLen
  let src ← procAt s.fsMsg.source
  assert "name_len < MAX_PATH" (nameLen < (maxPath : Nat))
  let la ← fsVa2la src s.fsMsg.pathname
  let n ← natOf nameLen
  pure (cString ((List.range n).map fun i => s.mem (la + BitVec.ofNat 32 i).toNat))

end Dlos
