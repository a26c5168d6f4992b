import Dlos.Fs.Misc

/-!
# Opening, creating and closing files (`fs/open.c`)
-/

namespace Dlos

open Program Bytes

/-! ## Allocating bits -/

def firstClearFrom (b : Byte) : Nat → Nat → Nat
  | 0, k => k
  | fuel + 1, k => if b.getLsbD k then firstClearFrom b fuel (k + 1) else k

/-- `for (k = 0; ((b >> k) & 1) != 0; k++)` ends at bit 8 at the latest. -/
def firstClear (b : Byte) : Nat := firstClearFrom b 8 0

/-- The bytes of an inode-map sector from byte `j` on, `fuel` of them: the number of the bit that
was taken, or 0. -/
def allocImapBytes (dev : Int) (i : Nat) : Nat → Nat → FM Int
  | 0, _ => pure 0
  | fuel + 1, j => do
    let b ← bufAt j
    if b = 0xFF then allocImapBytes dev i fuel (j + 1)
    else do
      let k := firstClear b
      setBuf j (b ||| 1#8 <<< k)
      wrSect dev (1 + 1 + i : Nat)
      pure (((i * sectorSize + j) * 8 + k : Nat) : Int)

/-- The loop over the sectors returns in its first round. -/
def allocImapBit (dev : Int) : FM Int := do
  let sb ← getSuperBlock dev
  if 0 < sb.nrImapSects.toNat then do
    rdSect dev (1 + 1 : Nat)
    allocImapBytes dev 0 sectorSize 0
  else throw (.panic "inode-map is probably full.\n")

/-- `for (; k < 8; k++)`: take the bits of byte `j` from bit `k` on, `fuel` of them, while more
are wanted. Each must be clear, which the code asserts as `exp`. -/
def takeBits (exp : String) (j : Nat) : Nat → Nat → Nat → FM Nat
  | 0, _, left => pure left
  | fuel + 1, k, left => do
    let b ← bufAt j
    assert exp (b.getLsbD k = false)
    setBuf j (b ||| 1#8 <<< k)
    if left - 1 = 0 then pure 0 else takeBits exp j fuel (k + 1) (left - 1)

/-- `free_sect_nr` for bit `b` of the sector map. -/
def bitSect (n1stSect : BitVec 32) (b : Nat) : BitVec 32 := BitVec.ofNat 32 b - 1 + n1stSect

abbrev bitIsClear : String := "((fsbuf[j] >> k) & 1) == 0"

/-- The bytes of sector `i` of the sector map from byte `j` on, `fuel` of them, with the first
sector found so far and the number of sectors still wanted. -/
def allocSmapBytes (n1stSect : BitVec 32) (i : Nat) :
    Nat → Nat → BitVec 32 → Nat → FM (BitVec 32 × Nat)
  | 0, _, free, left => pure (free, left)
  | fuel + 1, j, free, left => do
    if left = 0 then pure (free, left)
    else if free = 0 then do
      let b ← bufAt j
      if b = 0xFF then allocSmapBytes n1stSect i fuel (j + 1) free left
      else do
        let k := firstClear b
        let left ← takeBits bitIsClear j (8 - k) k left
        allocSmapBytes n1stSect i fuel (j + 1) (bitSect n1stSect ((i * sectorSize + j) * 8 + k)) left
    else do
      let left ← takeBits bitIsClear j 8 0 left
      allocSmapBytes n1stSect i fuel (j + 1) free left

/-- The sectors of the sector map from sector `i` on, `fuel` of them. -/
def allocSmapSects (dev : Int) (sb : SuperBlock) :
    Nat → Nat → BitVec 32 → Nat → FM (BitVec 32 × Nat)
  | 0, _, free, left => pure (free, left)
  | fuel + 1, i, free, left => do
    let blk := (1 + 1 + sb.nrImapSects).toInt + i
    rdSect dev blk
    let (free, left) ← allocSmapBytes sb.n1stSect i sectorSize 0 free left
    onlyIf (free ≠ 0) (wrSect dev blk)
    if left = 0 then pure (free, left) else allocSmapSects dev sb fuel (i + 1) free left

def allocSmapBit (dev : Int) (nrSectsToAlloc : Nat) : FM (BitVec 32) := do
  let sb ← getSuperBlock dev
  let (free, left) ← allocSmapSects dev sb sb.nrSmapSects.toNat 0 0 nrSectsToAlloc
  assert "nr_sects_to_alloc == 0" (left = 0)
  pure free

/-! ## Creating a file -/

def newInode (dev inodeNr : Int) (startSect : BitVec 32) : FM (Fin nrInode) := do
  let p ← deref (← getInode dev inodeNr)
  setInode p ({ · with
    iMode := iRegular
    iSize := 0
    iStartSect := startSect
    iNrSects := BitVec.ofNat 32 nrDefaultFileSects
    iDev := dev
    iCnt := 1
    iNum := inodeNr })
  syncInode p
  pure p

/-- Where the search for a place in a directory ends: at entry `j` of a sector, which is free or
lies behind the last entry. -/
structure DirSlot where
  j : Nat
  behind : Bool

/-- The entries of one sector from entry `j` on, `fuel` of them, after `m` were counted. -/
def slotEntries (nrDirEntries : Int) : Nat → Nat → Int → FM (DirSlot ⊕ Int)
  | 0, _, m => pure (.inr m)
  | fuel + 1, j, m => do
    if m + 1 > nrDirEntries then pure (.inl ⟨j, true⟩)
    else if (← deInode j) = 0 then pure (.inl ⟨j, false⟩)
    else slotEntries nrDirEntries fuel (j + 1) (m + 1)

/-- The directory's sectors from sector `i` on, `fuel` of them: the sector and the place in it. If
no place is found, `pde` stands behind the last entry of the last sector that was read. -/
def slotBlks (dir : Inode) (nrDirEntries : Int) : Nat → Int → Int → FM (Int × DirSlot)
  | 0, i, _ => if i = 0 then throw .wildIndex else pure (i, ⟨entriesPerSect, true⟩)
  | fuel + 1, i, m => do
    rdSect dir.iDev (dir.iStartSect.toInt + i)
    match ← slotEntries nrDirEntries entriesPerSect 0 m with
    | .inl slot => pure (i, slot)
    | .inr m => slotBlks dir nrDirEntries fuel (i + 1) m

/-- `strcpy` ends a name of full length outside its entry. -/
def newDirEntry (dirInode : Fin nrInode) (inodeNr : Int) (filename : List Byte) : FM Unit := do
  let dir := (← get).inodeTable dirInode
  let nrDirBlks := ((dir.iSize + BitVec.ofNat 32 sectorSize) / BitVec.ofNat 32 sectorSize).toInt
  let nrDirEntries := (dir.iSize / BitVec.ofNat 32 dirEntrySize).toInt
  let (i, slot) ← slotBlks dir nrDirEntries nrDirBlks.toNat 0 0
  onlyIf (slot.behind = true)
    (setInode dirInode fun d => { d with iSize := d.iSize + BitVec.ofNat 32 dirEntrySize })
  putBufWords (dirEntrySize * slot.j) [BitVec.ofInt 32 inodeNr]
  putBuf (dirEntrySize * slot.j + 4) (filename ++ [0])
  wrSect dir.iDev (dir.iStartSect.toInt + i)
  syncInode dirInode

def createFile (path : List Byte) : FM (Option (Fin nrInode)) := do
  match ← stripPath path with
  | none => pure none
  | some (filename, dirInode) => do
    let dirInode ← deref dirInode
    let dev := ((← get).inodeTable dirInode).iDev
    let inodeNr ← allocImapBit dev
    let freeSectNr ← allocSmapBit dev nrDefaultFileSects
    let newino ← newInode dev inodeNr freeSectNr
    newDirEntry dirInode ((← get).inodeTable newino).iNum filename
    pure (some newino)

/-! ## Open and close -/

/-- The checks on the file that was opened; a terminal's driver is told. -/
def checkOpened (pin : Fin nrInode) : FM Unit := do
  let i := (← get).inodeTable pin
  let imode := i.iMode &&& iTypeMask
  if imode = iCharSpecial then do
    let dev := i.iStartSect.toInt
    assert "MAJOR(dev) == 4" (major dev = devCharTty)
    discard (driverOf dev)
  else if imode = iDirectory then assert "pin->i_num == ROOT_INODE" (i.iNum = rootInodeNr)
  else assert "pin->i_mode == I_REGULAR" (i.iMode = iRegular)

/-- The inode of the file to open: a new file's or an existing one's. -/
def openedInode (pathname : List Byte) (flags : Int) : FM (Option (Fin nrInode)) := do
  let inodeNr ← searchFile pathname
  if hasFlag flags oCreat then
    if inodeNr ≠ 0 then pure none else createFile pathname
  else do
    assert "flags & O_RDWR" (hasFlag flags oRdwr)
    match ← stripPath pathname with
    | none => pure none
    | some (_, dirInode) => do
      let dirInode ← deref dirInode
      getInode ((← get).inodeTable dirInode).iDev inodeNr

def doOpen : FM Int := do
  let flags := (← get).fsMsg.flags
  let pathname ← fetchPathname
  let s ← get
  match (List.finRange nrFiles).find? fun i => s.filp s.pcaller i = none with
  | none => throw (.panic ("filp[] is full (PID:" ++ toString s.pcaller.val ++ ")"))
  | some fd =>
    match (List.finRange nrFileDesc).find? fun d => (s.fDescTable d).fdInode = none with
    | none => throw (.panic ("f_desc_table[] is full (PID:" ++ toString s.pcaller.val ++ ")"))
    | some d => do
      match ← openedInode pathname flags with
      | none => pure (-1)
      | some pin => do
        setFilp s.pcaller fd (some d)
        setDesc d fun _ => { fdInode := some pin, fdMode := flags, fdCnt := 1, fdPos := 0 }
        checkOpened pin
        pure (fd.val : Int)

def doClose : FM Int := do
  let s ← get
  let fd ← filpIndex s.fsMsg.fd
  let d ← deref (s.filp s.pcaller fd)
  let pin ← deref (s.fDescTable d).fdInode
  putInode pin
  setDesc d fun f => { f with fdCnt := f.fdCnt - 1 }
  onlyIf ((s.fDescTable d).fdCnt - 1 = 0) (setDesc d ({ · with fdInode := none }))
  setFilp s.pcaller fd none
  pure 0

end Dlos
