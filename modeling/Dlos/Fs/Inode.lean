import Dlos.Fs.Sector

/-!
# Super blocks and inodes (`fs/main.c`)
-/

namespace Dlos

open Program Bytes

/-- The super block in the buffer, as `*psb` in `read_super_block`. -/
def SuperBlock.ofWords (m : Store) (a : Nat) : SuperBlock where
  magic := word m a
  nrInodes := word m (a + 4)
  nrSects := word m (a + 8)
  nrImapSects := word m (a + 12)
  nrSmapSects := word m (a + 16)
  n1stSect := word m (a + 20)
  nrInodeSects := word m (a + 24)
  rootInode := word m (a + 28)
  inodeSize := word m (a + 32)
  inodeIsizeOff := word m (a + 36)
  inodeStartOff := word m (a + 40)
  dirEntSize := word m (a + 44)
  dirEntInodeOff := word m (a + 48)
  dirEntFnameOff := word m (a + 52)
  sbDev := (word m (a + 56)).toInt

def readSuperBlock (dev : Int) : FM Unit := do
  rwSector MsgType.devRead dev (BitVec.ofNat 32 sectorSize) sectorSize
  let s ← get
  match (List.finRange nrSuperBlock).find? fun i => (s.superBlock i).sbDev = noDev with
  | none => throw (.panic "super_block slots used up")
  | some i => do
    assert "i == 0" (i = 0)
    modify fun s => { s with
      superBlock := Function.update s.superBlock i
        { SuperBlock.ofWords s.mem fsbuf with sbDev := dev } }

/-- The super block a pointer leads to; nothing changes it while the pointer is in use. -/
def getSuperBlock (dev : Int) : FM SuperBlock := do
  let s ← get
  match (List.finRange nrSuperBlock).find? fun i => (s.superBlock i).sbDev = dev with
  | some i => pure (s.superBlock i)
  | none => throw (.panic "super block of device %d not found.\n")

/-- `blk_nr`: the sector of the inode array that holds an inode. -/
def inodeBlk (sb : SuperBlock) (num : Int) : Int :=
  (1 + 1 + sb.nrImapSects + sb.nrSmapSects +
    BitVec.ofInt 32 ((num - 1).tdiv (sectorSize / inodeSize : Nat))).toInt

/-- The offset of an inode in its sector. -/
def inodeOff (num : Int) : Int := (num - 1).tmod (sectorSize / inodeSize : Nat) * inodeSize

/-- `p->i_cnt`, as a condition -/
def Inode.cached (i : Inode) : Prop := i.iCnt ≠ 0

instance (i : Inode) : Decidable i.cached := inferInstanceAs (Decidable (_ ≠ _))

def getInode (dev num : Int) : FM (Option (Fin nrInode)) := do
  if num = 0 then pure none
  else do
    let s ← get
    match (List.finRange nrInode).find? fun p => (s.inodeTable p).cached ∧
        (s.inodeTable p).iDev = dev ∧ (s.inodeTable p).iNum = num with
    | some p => do
      setInode p fun i => { i with iCnt := i.iCnt + 1 }
      pure (some p)
    | none => match (List.finRange nrInode).find? fun p => ¬(s.inodeTable p).cached with
      | none => throw (.panic "the inode table is full")
      | some q => do
        setInode q ({ · with iDev := dev, iNum := num, iCnt := 1 })
        let sb ← getSuperBlock dev
        rdSect dev (inodeBlk sb num)
        let off ← natOf (inodeOff num)
        let mode ← bufWord off
        let size ← bufWord (off + 4)
        let start ← bufWord (off + 8)
        let sects ← bufWord (off + 12)
        setInode q ({ · with iMode := mode, iSize := size, iStartSect := start, iNrSects := sects })
        pure (some q)

def putInode (p : Fin nrInode) : FM Unit := do
  let s ← get
  assert "pinode->i_cnt > 0" ((s.inodeTable p).iCnt > 0)
  setInode p fun i => { i with iCnt := i.iCnt - 1 }

def syncInode (p : Fin nrInode) : FM Unit := do
  let i := (← get).inodeTable p
  let sb ← getSuperBlock i.iDev
  rdSect i.iDev (inodeBlk sb i.iNum)
  let off ← natOf (inodeOff i.iNum)
  putBufWords off i.words
  wrSect i.iDev (inodeBlk sb i.iNum)

end Dlos
