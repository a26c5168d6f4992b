import Dlos.Fs.Inode

/-!
# Reading and writing files (`fs/read_write.c`)
-/

namespace Dlos

open Program Bytes

/-- `pos_end` -/
def posEnd (type pos len : Int) (i : Inode) : Int :=
  let reach := BitVec.ofInt 32 (pos + len)
  let limit := if type = MsgType.read then i.iSize
    else i.iNrSects * BitVec.ofNat 32 sectorSize
  (if reach < limit then reach else limit).toInt

/-- `pin->i_start_sect + (pos >> SECTOR_SIZE_SHIFT)` -/
def rwSect (i : Inode) (pos : Int) : Int :=
  (i.iStartSect + BitVec.ofInt 32 (pos / (sectorSize : Nat))).toInt

/-- What the loop of `do_rdwt` keeps fixed. -/
structure Transfer where
  type : Int
  src : Int
  buf : Addr
  desc : Fin nrFileDesc
  dev : Int
  chunk : Int

/-- One round: the sectors from sector `i` on, of which `bytes` bytes from `off` on are wanted. -/
def rwChunk (t : Transfer) (i off bytesRw bytes : Int) : FM Unit := do
  let size := (t.chunk * (sectorSize : Nat)).toNat
  rwSector MsgType.devRead t.dev (sectPos i) size
  let src ← procAt t.src
  let user ← fsVa2la src (t.buf + BitVec.ofInt 32 bytesRw)
  let fs ← fsVa2la src (BitVec.ofNat 32 fsbuf + BitVec.ofInt 32 off)
  if t.type = MsgType.read then physCopy user fs bytes
  else do
    physCopy fs user bytes
    rwSector MsgType.devWrite t.dev (sectPos i) size
  setDesc t.desc fun f => { f with fdPos := f.fdPos + bytes }

/-- The loop from sector `i` on, for at most `fuel` rounds: the number of bytes moved. -/
def rwLoop (t : Transfer) (rwSectMax : Int) : Nat → Int → Int → Int → Int → FM Int
  | 0, i, _, bytesRw, _ => if i ≤ rwSectMax then throw .diverge else pure bytesRw
  | fuel + 1, i, off, bytesRw, bytesLeft => do
    if i ≤ rwSectMax then do
      let bytes := min bytesLeft (t.chunk * (sectorSize : Nat) - off)
      rwChunk t i off bytesRw bytes
      rwLoop t rwSectMax fuel (i + t.chunk) 0 (bytesRw + bytes) (bytesLeft - bytes)
    else pure bytesRw

/-- `do_rdwt` on a terminal: the message goes on to its driver, whose answer takes its place. -/
def rwTerminal (pin : Inode) (len : Int) : FM Int := do
  modify fun s => { s with fsMsg := { s.fsMsg with
    type := if s.fsMsg.type = MsgType.read then MsgType.devRead else MsgType.devWrite } }
  let dev := pin.iStartSect.toInt
  assert "MAJOR(dev) == 4" (major dev = devCharTty)
  modify fun s => { s with fsMsg := { s.fsMsg with
    u := { s.fsMsg.u with m3i4 := minor dev, m3i3 := s.fsMsg.source } } }
  discard (driverOf dev)
  modify fun s => { s with fsMsg := s.ttyReply s.fsMsg }
  let m := (← get).fsMsg
  assert "fs_msg.CNT == len" (m.cnt = len)
  pure m.cnt

/-- `do_rdwt` on a regular file or a directory. -/
def rwFile (d : Fin nrFileDesc) (p : Fin nrInode) (len : Int) : FM Int := do
  let s ← get
  let m := s.fsMsg
  let pin := s.inodeTable p
  let pos := (s.fDescTable d).fdPos
  assert "pin->i_mode == I_REGULAR || pin->i_mode == I_DIRECTORY"
    (pin.iMode = iRegular ∨ pin.iMode = iDirectory)
  assert "fs_msg.type == READ || fs_msg.type == WRITE"
    (m.type = MsgType.read ∨ m.type = MsgType.write)
  let off := pos.tmod (sectorSize : Nat)
  let rwSectMin := rwSect pin pos
  let rwSectMax := rwSect pin (posEnd m.type pos len pin)
  let chunk := min (rwSectMax - rwSectMin + 1) (fsbufSize / sectorSize : Nat)
  let t : Transfer :=
    { type := m.type, src := m.source, buf := m.buf, desc := d, dev := pin.iDev, chunk }
  let bytesRw ← rwLoop t rwSectMax (rwSectMax - rwSectMin + 1).toNat rwSectMin off 0 len
  let s ← get
  let pos := (s.fDescTable d).fdPos
  -- `fd_pos` is compared as an unsigned number
  onlyIf (BitVec.ofInt 32 pos > (s.inodeTable p).iSize) do
    setInode p ({ · with iSize := BitVec.ofInt 32 pos })
    syncInode p
  pure bytesRw

def doRdwt : FM Int := do
  let s ← get
  let fd ← filpIndex s.fsMsg.fd
  let len := s.fsMsg.cnt
  match s.filp s.pcaller fd with
  | none => throw (.assertion ("pcaller->filp[fd] >= &f_desc_table[0] && " ++
      "pcaller->filp[fd] < &f_desc_table[NR_FILE_DESC]"))
  | some d =>
    if ¬hasFlag (s.fDescTable d).fdMode oRdwr then pure (-1)
    else match (s.fDescTable d).fdInode with
      | none => throw (.assertion "pin >= &inode_table[0] && pin < &inode_table[NR_INODE]")
      | some p =>
        if (s.inodeTable p).iMode &&& iTypeMask = iCharSpecial then
          rwTerminal (s.inodeTable p) len
        else rwFile d p len

end Dlos
