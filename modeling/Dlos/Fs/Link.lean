import Dlos.Fs.Open

/-!
# Removing files (`fs/link.c`)
-/

namespace Dlos

open Program Bytes

/-! ## Releasing bits -/

/-- Clear the inode's bit in the inode map. -/
def freeImapBit (dev inodeNr : Int) : FM Unit := do
  let byteIdx := inodeNr.tdiv 8
  let bitIdx := inodeNr.tmod 8
  assert "byte_idx < SECTOR_SIZE" (byteIdx < (sectorSize : Nat))
  rdSect dev 2
  let j ← natOf (byteIdx.tmod (sectorSize : Nat))
  let k ← natOf bitIdx
  let b ← bufAt j
  assert "fsbuf[byte_idx % SECTOR_SIZE] & (1 << bit_idx)" (b &&& 1#8 <<< k ≠ 0)
  setBuf j (b &&& ~~~(1#8 <<< k))
  wrSect dev 2

/-- The bits of the first byte, from bit `k` on, `fuel` of them. -/
def clearBits (j : Nat) : Nat → Nat → Int → FM Int
  | 0, _, bitsLeft => pure bitsLeft
  | fuel + 1, k, bitsLeft => do
    if bitsLeft = 0 then pure 0
    else do
      let b ← bufAt j
      assert "(fsbuf[byte_idx % SECTOR_SIZE] >> i & 1) == 1" (b.getLsbD k = true)
      setBuf j (b &&& ~~~(1#8 <<< k))
      clearBits j fuel (k + 1) (bitsLeft - 1)

/-- Go on to the next sector of the map when the buffer is used up: the index and the sector. -/
def nextSect (dev : Int) (i : Nat) (s : Int) : FM (Nat × Int) := do
  if i = sectorSize then do
    wrSect dev s
    rdSect dev (s + 1)
    pure (0, s + 1)
  else pure (i, s)

/-- The whole bytes, `fuel` of them. -/
def clearBytes (dev : Int) : Nat → Nat → Int → Int → FM (Nat × Int × Int)
  | 0, i, s, bitsLeft => pure (i, s, bitsLeft)
  | fuel + 1, i, s, bitsLeft => do
    let (i, s) ← nextSect dev i s
    let b ← bufAt i
    assert "fsbuf[i] == 0xFF" (b = 0xFF)
    setBuf i 0
    clearBytes dev fuel (i + 1) s (bitsLeft - 8)

/-- Clear the `bitsLeft` bits of the sector map from bit `bitIdx` on. -/
def freeSmapBits (dev : Int) (sb : SuperBlock) (bitIdx bitsLeft : Int) : FM Unit := do
  let byteIdx := bitIdx.tdiv 8
  let byteCnt := (bitsLeft - (8 - bitIdx.tmod 8)).tdiv 8
  let s := (2 + sb.nrImapSects + BitVec.ofInt 32 (byteIdx.tdiv (sectorSize : Nat))).toInt
  rdSect dev s
  let j ← natOf (byteIdx.tmod (sectorSize : Nat))
  let k ← natOf (bitIdx.tmod 8)
  let bitsLeft ← clearBits j (8 - k) k bitsLeft
  let (i, s, bitsLeft) ← clearBytes dev byteCnt.toNat (j + 1) s bitsLeft
  let (i, s) ← nextSect dev i s
  let left ← natOf bitsLeft
  let mask := ~~~(0xFF#8 <<< left)
  let b ← bufAt i
  assert "(fsbuf[i] & mask) == mask" (b &&& mask = mask)
  setBuf i (b &&& 0xFF#8 <<< left)
  wrSect dev s

/-! ## Removing the directory entry -/

/-- The entries of one sector from entry `j` on, `fuel` of them: whether the entry was found, the
number of entries counted and the size of the entries in use, and whether the scan is over. -/
def clearEntry (dev sect inodeNr nrDirEntries : Int) :
    Nat → Nat → Int → Int → FM ((Bool × Int × Int) × Bool)
  | 0, _, m, dirSize => pure ((false, m, dirSize), false)
  | fuel + 1, j, m, dirSize => do
    if m + 1 > nrDirEntries then pure ((false, m + 1, dirSize), true)
    else do
      let nr ← deInode j
      if nr = inodeNr then do
        memsetBuf (dirEntrySize * j) 0 dirEntrySize
        wrSect dev sect
        pure ((true, m + 1, dirSize), true)
      else do
        let dirSize := if nr ≠ invalidInode then dirSize + (dirEntrySize : Nat) else dirSize
        clearEntry dev sect inodeNr nrDirEntries fuel (j + 1) (m + 1) dirSize

/-- The directory's sectors from sector `i` on, `fuel` of them. -/
def clearEntryBlks (dir : Inode) (inodeNr nrDirEntries : Int) :
    Nat → Int → Int → Int → FM (Bool × Int × Int)
  | 0, _, m, dirSize => pure (false, m, dirSize)
  | fuel + 1, i, m, dirSize => do
    let sect := dir.iStartSect.toInt + i
    rdSect dir.iDev sect
    let (r, ended) ← clearEntry dir.iDev sect inodeNr nrDirEntries entriesPerSect 0 m dirSize
    if ended then pure r else clearEntryBlks dir inodeNr nrDirEntries fuel (i + 1) r.2.1 r.2.2

/-- If the entry was the last one, the directory's size becomes that of the entries in use. -/
def removeDirEntry (dirInode : Fin nrInode) (inodeNr : Int) : FM Unit := do
  let dir := (← get).inodeTable dirInode
  let nrDirBlks := ((dir.iSize + BitVec.ofNat 32 sectorSize) / BitVec.ofNat 32 sectorSize).toInt
  let nrDirEntries := (dir.iSize / BitVec.ofNat 32 dirEntrySize).toInt
  let (flg, m, dirSize) ← clearEntryBlks dir inodeNr nrDirEntries nrDirBlks.toNat 0 0 0
  assert "flg" (flg = true)
  onlyIf (m = nrDirEntries) do
    setInode dirInode ({ · with iSize := BitVec.ofInt 32 dirSize })
    syncInode dirInode

/-! ## `do_unlink` -/

/-- What `do_unlink` does once nothing stands against it. -/
def removeFile (dirInode pin : Fin nrInode) (inodeNr : Int) : FM Unit := do
  let i := (← get).inodeTable pin
  let sb ← getSuperBlock i.iDev
  freeImapBit i.iDev inodeNr
  freeSmapBits i.iDev sb (i.iStartSect - sb.n1stSect + 1).toInt i.iNrSects.toInt
  setInode pin ({ · with iMode := 0, iSize := 0, iStartSect := 0, iNrSects := 0 })
  syncInode pin
  putInode pin
  removeDirEntry dirInode inodeNr

def doUnlink : FM Int := do
  let pathname ← fetchPathname
  if strcmp pathname [slash] = 0 then pure (-1)
  else do
    let inodeNr ← searchFile pathname
    if inodeNr = invalidInode then pure (-1)
    else match ← stripPath pathname with
      | none => pure (-1)
      | some (_, dirInode) => do
        let dirInode ← deref dirInode
        let pin ← deref (← getInode ((← get).inodeTable dirInode).iDev inodeNr)
        let i := (← get).inodeTable pin
        if i.iMode ≠ iRegular then pure (-1)
        else if i.iCnt > 1 then pure (-1)
        else do
          removeFile dirInode pin inodeNr
          pure 0

end Dlos
