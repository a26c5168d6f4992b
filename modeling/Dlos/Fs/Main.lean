import Dlos.Library.StateMachine
import Dlos.Fs.Link
import Dlos.Fs.ReadWrite
import Dlos.Fs.DiskLog

/-!
# Making the file system and serving requests (`fs/main.c`)

`fsMachine` is the FS task from the end of `init_fs` on: an event is one request with the memory
and the terminal driver it meets.
-/

namespace Dlos

open Program Bytes

/-! ## Making the file system -/

/-- The super block `mkfs` writes on a partition of `size` sectors. -/
def newSuperBlock (size : BitVec 32) : SuperBlock :=
  let nrInodes := BitVec.ofNat 32 sectorBits
  let nrInodeSects := nrInodes * BitVec.ofNat 32 inodeSize / BitVec.ofNat 32 sectorSize
  let nrSmapSects := size / BitVec.ofNat 32 sectorBits + 1
  { magic := magicV1
    nrInodes
    nrInodeSects
    nrSects := size
    nrImapSects := 1
    nrSmapSects
    n1stSect := 1 + 1 + 1 + nrSmapSects + nrInodeSects
    rootInode := 1
    inodeSize := BitVec.ofNat 32 inodeSize
    inodeIsizeOff := 4
    inodeStartOff := 8
    dirEntSize := BitVec.ofNat 32 dirEntrySize
    dirEntInodeOff := 0
    dirEntFnameOff := 4 }

/-- `for (i = …) fsbuf[j] |= 1 << i`, for the bits below `n` -/
def setLowBits (j : Nat) : Nat → FM Unit
  | 0 => pure ()
  | n + 1 => do
    setLowBits j n
    let b ← bufAt j
    setBuf j (b ||| 1#8 <<< n)

/-- Write the buffer to the sectors from `sect` on, `n` of them. -/
def wrSects (dev sect : Int) : Nat → FM Unit
  | 0 => pure ()
  | n + 1 => do
    wrSects dev sect n
    wrSect dev (sect + n)

/-- The text of a name, as C stores it. -/
def cName (s : String) : List Byte := s.toList.map (fun c => BitVec.ofNat 8 c.toNat) ++ [0]

/-- The inode of terminal `i`. -/
def ttyInode (i : Nat) : Inode where
  iMode := iCharSpecial
  iStartSect := BitVec.ofNat 32 (devCharTty * 256 + i)

def rootDirInode (sb : SuperBlock) : Inode where
  iMode := iDirectory
  iSize := BitVec.ofNat 32 (dirEntrySize * 4)
  iStartSect := sb.n1stSect
  iNrSects := BitVec.ofNat 32 nrDefaultFileSects

def mkInodeMap : FM Unit := do
  memsetBuf 0 0 sectorSize
  setLowBits 0 (nrConsoles + 2)
  assert "fsbuf[0] == 0x1F" ((← bufAt 0) = 0x1F)
  wrSect rootDev 2

/-- The reserved bit and those of the root directory are set. -/
def mkSectorMap (sb : SuperBlock) : FM Unit := do
  let nrSects := nrDefaultFileSects + 1
  memsetBuf 0 0 sectorSize
  memsetBuf 0 0xFF (nrSects / 8)
  setLowBits (nrSects / 8) (nrSects % 8)
  wrSect rootDev (2 + sb.nrImapSects).toInt
  memsetBuf 0 0 sectorSize
  wrSects rootDev ((2 + sb.nrImapSects).toInt + 1) (sb.nrSmapSects.toNat - 1)

def mkInodes (sb : SuperBlock) : FM Unit := do
  memsetBuf 0 0 sectorSize
  putBufWords 0 (rootDirInode sb).words
  (List.range nrConsoles).forM fun i => putBufWords (inodeSize * (i + 1)) (ttyInode i).words
  wrSect rootDev (2 + sb.nrImapSects + sb.nrSmapSects).toInt

def mkRootDir (sb : SuperBlock) : FM Unit := do
  memsetBuf 0 0 sectorSize
  putBufWords 0 [1]
  putBuf 4 (cName ".")
  (List.range nrConsoles).forM fun i => do
    putBufWords (dirEntrySize * (i + 1)) [BitVec.ofNat 32 (i + 2)]
    putBuf (dirEntrySize * (i + 1) + 4) (cName ("dev_tty" ++ toString i))
  wrSect rootDev sb.n1stSect.toInt

def mkfs : FM Unit := do
  discard (driverOf rootDev)
  let sb := newSuperBlock (← get).geoSize
  memsetBuf 0 0x90 sectorSize
  putBufWords 0 sb.words
  wrSect rootDev 1
  mkInodeMap
  mkSectorMap sb
  mkInodes sb
  mkRootDir sb

def initFs : FM Unit := do
  modify fun s => { s with
    fDescTable := fun _ => {}
    inodeTable := fun _ => {}
    superBlock := fun i => { s.superBlock i with sbDev := noDev } }
  discard (driverOf rootDev)
  mkfs
  readSuperBlock rootDev
  let sb ← getSuperBlock rootDev
  assert "sb->magic == MAGIC_V1" (sb.magic = magicV1)
  let root ← getInode rootDev rootInodeNr
  modify fun s => { s with rootInode := root }

/-! ## Processes -/

/-- What `fs_fork` does for one slot of `filp`. -/
def forkFilp (child : Pid) (i : Fin nrFiles) : FM Unit := do
  let s ← get
  match s.filp child i with
  | none => pure ()
  | some d => do
    setDesc d fun f => { f with fdCnt := f.fdCnt + 1 }
    let pin ← deref (s.fDescTable d).fdInode
    setInode pin fun n => { n with iCnt := n.iCnt + 1 }

def fsFork : FM Int := do
  let child ← procAt (← get).fsMsg.pid
  (List.finRange nrFiles).forM (forkFilp child)
  pure 0

/-- What `fs_exit` does for one slot of `filp`. -/
def exitFilp (p : Pid) (i : Fin nrFiles) : FM Unit := do
  let s ← get
  match s.filp p i with
  | none => pure ()
  | some d => do
    let pin ← deref (s.fDescTable d).fdInode
    setInode pin fun n => { n with iCnt := n.iCnt - 1 }
    setDesc d fun f => { f with fdCnt := f.fdCnt - 1 }
    onlyIf ((s.fDescTable d).fdCnt - 1 = 0) (setDesc d ({ · with fdInode := none }))
    setFilp p i none

def fsExit : FM Int := do
  let p ← procAt (← get).fsMsg.pid
  (List.finRange nrFiles).forM (exitFilp p)
  pure 0

/-! ## Requests -/

def setFd (m : Message) (r : Int) : Message := { m with u := { m.u with m3i1 := r } }
def setRetval (m : Message) (r : Int) : Message := { m with u := { m.u with m3i1 := r } }
def setCnt (m : Message) (r : Int) : Message := { m with u := { m.u with m3i2 := r } }

/-- Run a function of the server and put its answer into `fs_msg`. -/
def answer (put : Message → Int → Message) (f : FM Int) : FM Unit := do
  let r ← f
  modify fun s => { s with fsMsg := put s.fsMsg r }

/-- One round of `task_fs` for the message it received, up to the reply; `dump_fd_graph` is left
out, which only reads the tables and calls `disklog`. -/
def serve (m : Message) : FM Unit := do
  let caller ← procAt m.source
  modify fun s => { s with fsMsg := m, pcaller := caller }
  if m.type = MsgType.openFile then answer setFd doOpen
  else if m.type = MsgType.close then answer setRetval doClose
  else if m.type = MsgType.read ∨ m.type = MsgType.write then answer setCnt doRdwt
  else if m.type = MsgType.unlink then answer setRetval doUnlink
  else if m.type = MsgType.resumeProc then pure ()
  else if m.type = MsgType.fork then answer setRetval fsFork
  else if m.type = MsgType.exit then answer setRetval fsExit
  else throw (.assertion "0")

/-- What `do_fork` does to the entries of the process table before it sends FORK. -/
def copyProc (parent child : Pid) (base : Addr) : FM Unit :=
  modify fun s => { s with
    procTable := Function.update s.procTable child
      { s.procTable parent with
        pParent := parent.val
        ldts := fun idx => initDescriptor base (BitVec.ofNat 32 ((0x100000 - 1) / 4096))
          (da32 ||| daLimit4k ||| (if idx = indexLdtC then daC else daDrw) ||| 3 <<< 5) }
    filp := Function.update s.filp child (s.filp parent) }

inductive Request
  /-- A message to the FS task. -/
  | message (m : Message)
  /-- A call of `disklog`, which the FS task makes when it logs. -/
  | log (str : List Byte)
  /-- A fork by `do_fork`, with the message it sends. -/
  | fork (parent child : Pid) (base : Addr)

/-- The message `do_fork` sends to FS. -/
def forkMessage (child : Pid) : Message :=
  { source := (taskMm.val : Int), type := MsgType.fork, u := { m3i2 := (child.val : Int) } }

def Request.run : Request → FM Unit
  | .message m => serve m
  | .log str => discard (disklog str)
  | .fork parent child base => do
    copyProc parent child base
    serve (forkMessage child)

structure FsEvent where
  request : Request
  mem : Store
  tty : Message → Message

/-- The machine before `init_fs`: nothing is open and nothing was logged. -/
structure Booted (s : Fs) : Prop where
  filp : ∀ p i, s.filp p i = none
  logPos : s.logPos = 0
  copies : s.copies = []

def fsMachine : Machine Fs FsEvent Halt where
  initial s := ∃ s₀, Booted s₀ ∧ initFs s₀ = .ok () s
  step e s := exec e.request.run { s with mem := e.mem, ttyReply := e.tty }

end Dlos
