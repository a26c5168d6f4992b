import Dlos.Fs.Open
import Dlos.Lib.Vsprintf

/-!
# The log on the disk (`fs/disklog.c`)
-/

namespace Dlos

open Program Bytes

abbrev logBitIsClear : String := "((fsbuf[byte_off] >> bit_off) & 1) == 0"

/-- The bytes of a sector of the map from byte `byteOff` on, `fuel` of them. -/
def markLogBytes : Nat → Nat → Nat → Nat → FM Nat
  | 0, _, _, bitsLeft => pure bitsLeft
  | fuel + 1, byteOff, bitOff, bitsLeft => do
    if bitsLeft = 0 then pure bitsLeft
    else do
      let bitsLeft ← takeBits logBitIsClear byteOff (8 - bitOff) bitOff bitsLeft
      markLogBytes fuel (byteOff + 1) 0 bitsLeft

/-- The sectors of the map from sector `sectNr` on, `fuel` of them. -/
def markLogSects (device : Int) : Nat → Int → Nat → Nat → Nat → FM Nat
  | 0, _, _, _, bitsLeft => pure bitsLeft
  | fuel + 1, sectNr, byteOff, bitOff, bitsLeft => do
    rdSect device sectNr
    let bitsLeft ← markLogBytes (sectorSize - byteOff) byteOff bitOff bitsLeft
    wrSect device sectNr
    if bitsLeft = 0 then pure bitsLeft else markLogSects device fuel (sectNr + 1) 0 0 bitsLeft

/-- Mark the log's sectors in the sector map: sector `n` by bit `n`. -/
def markLog (device : Int) (sb : SuperBlock) (nrLogBlk0Nr : Int) : FM Unit := do
  let smapBlk0Nr := (1 + 1 + sb.nrImapSects).toInt
  let rest := nrLogBlk0Nr.tmod (sectorBits : Nat)
  let byteOff ← natOf (rest.tdiv 8)
  let bitOff ← natOf (rest.tmod 8)
  let sectCnt := nrSectsForLog / sectorBits + 2
  let bitsLeft ← markLogSects device sectCnt (smapBlk0Nr + nrLogBlk0Nr.tdiv (sectorBits : Nat))
    byteOff bitOff nrSectsForLog
  assert "bits_left == 0" (bitsLeft = 0)

/-- Fill the log with blanks from sector `i` on, `fuel` chunks of it. -/
def blankLog (device : Int) (chunk : Nat) : Nat → Int → FM Unit
  | 0, _ => pure ()
  | fuel + 1, i => do
    memsetBuf 0 0x20 (chunk * sectorSize)
    rwSector MsgType.devWrite device (sectPos i) (chunk * sectorSize)
    blankLog device chunk fuel (i + chunk)

/-- What the first call does. -/
def startLog (device : Int) (sb : SuperBlock) (nrLogBlk0Nr : Int) : FM Unit := do
  markLog device sb nrLogBlk0Nr
  modify fun s => { s with logPos := 0x40 }
  let chunk := min maxIoBytes (fsbufSize / sectorSize)
  assert "chunk == 256" (chunk = 256)
  blankLog device chunk (nrSectsForLog / chunk) nrLogBlk0Nr

/-- Write the characters `p` at `pos`, from sector `sectNr` on; every round writes some. -/
def writeLog (device : Int) : Nat → Int → List Byte → FM Unit
  | 0, _, p => if p = [] then pure () else throw .diverge
  | fuel + 1, sectNr, p => do
    if p = [] then pure ()
    else do
      rdSect device sectNr
      let off ← natOf ((← get).logPos.tmod (sectorSize : Nat))
      let bytes := min p.length (sectorSize - off)
      putBuf off (p.take bytes)
      wrSect device sectNr
      modify fun s => { s with logPos := s.logPos + bytes }
      writeLog device fuel (sectNr + 1) (p.drop bytes)

/-- The digits that `i2a` writes for a number that is not negative. -/
def i2a (n : Nat) : List Byte := (Nat.toDigits 10 n).map fun c => BitVec.ofNat 8 c.toNat

/-- `sprintf` with the format `"%8d\n"`. -/
def logHeader (pos : Int) : List Byte :=
  let digits := (if pos < 0 then [0x2D] else []) ++ i2a pos.natAbs
  List.replicate (8 - digits.length) 0x20 ++ digits ++ [0x0A]

def disklog (logstr : List Byte) : FM Int := do
  let root ← deref (← get).rootInode
  let device := ((← get).inodeTable root).iDev
  let sb ← getSuperBlock device
  let nrLogBlk0Nr := (sb.nrSects - BitVec.ofNat 32 nrSectsForLog).toInt
  onlyIf ((← get).logPos = 0) (startLog device sb nrLogBlk0Nr)
  writeLog device logstr.length (nrLogBlk0Nr + (← get).logPos / (sectorSize : Nat)) logstr
  let pos := (← get).logPos
  rdSect device nrLogBlk0Nr
  putBuf 0 (logHeader pos ++ [0])
  memsetBuf 9 0x20 22
  setBuf 31 0x0A
  memsetBuf 32 0x20 31
  setBuf 63 0x0A
  wrSect device nrLogBlk0Nr
  let b ← bufAt (32 + 19)
  memsetBuf 64 b (512 - 64)
  wrSect device (nrLogBlk0Nr + (nrSectsForLog : Nat) - 1)
  pure pos

end Dlos
