import Dlos.Fs.Layout
import Dlos.Fs.Transfer

/-!
# Reading a file

What a READ moves is chosen by its end in sectors, not in bytes: it stops at the end of the file
only when it was not asked for more.
-/

namespace Dlos

open Program Bytes

/-! ## One round -/

section

variable {s u : Fs} {E : Halt → Fs → Prop} {d : Fin nrFileDesc} {t : Transfer} {src : Nat → Byte}
  {buf len c k b o : Nat}

/-- The state after `k` bytes were moved. -/
def Fs.advanced (s : Fs) (d : Fin nrFileDesc) (D M : Store) (C : List PhysCopy) (k : Int) : Fs :=
  { s.setDesc d fun f => { f with fdPos := f.fdPos + k } with disk := D, mem := M, copies := C }

/-- `k` bytes were moved through descriptor `d`. Besides its position, only the disk, the memory and the
size of inode `p` have changed. -/
def Fs.Transferred (s : Fs) (d : Fin nrFileDesc) (p : Fin nrInode) (k : Int) (u : Fs) : Prop :=
  ∃ D M C w, u = (s.setInode p ({ · with iSize := w })).advanced d D M C k

/-- The state after a round of a READ of a process whose segment starts at 0. -/
def Fs.afterRead (s : Fs) (t : Transfer) (i off bytesRw bytes : Int) : Fs :=
  let user := t.buf + BitVec.ofInt 32 bytesRw
  let fs := BitVec.ofNat 32 fsbuf + BitVec.ofInt 32 off
  let size := (t.chunk * (sectorSize : Nat)).toNat
  let mem := blit s.mem fsbuf s.disk (sectPos i).toNat size
  Fs.setDesc { s with
    mem := memcpy mem user fs (BitVec.ofInt 32 bytes).toNat
    copies := ⟨user, fs, BitVec.ofInt 32 bytes⟩ :: s.copies } t.desc fun f =>
      { f with fdPos := f.fdPos + bytes }

theorem wp_rwChunk_read {pid : Pid} {Q : Unit → Fs → Prop} {i o bytesRw bytes : Int}
    (htype : t.type = MsgType.read) (hdev : t.dev = rootDev) (hsrc : pidOf t.src = some pid)
    (hbase : ldtSegLinear (s.procTable pid) indexLdtRw = 0) :
    wp (rwChunk t i o bytesRw bytes) Q E s ↔ Q () (s.afterRead t i o bytesRw bytes) := by
  have hla : ∀ {D M : Store} {va : Addr} {P : Addr → Fs → Prop},
      wp (fsVa2la pid va) P E (s.io D M) ↔ P va (s.io D M) := wp_fsVa2la_of_zero hbase
  rw [rwChunk, wp_bind, hdev, wp_rwSector, if_pos rfl, wp_bind, procAt, hsrc]
  refine (wp_bind.trans hla).trans ((wp_bind.trans hla).trans ?_)
  rw [if_pos htype]
  rfl

theorem afterRead_advanced {C : List PhysCopy} {D M : Store} {k i o bytesRw bytes : Int}
    (hdesc : t.desc = d) (hu : u = s.advanced d D M C k) :
    u.afterRead t i o bytesRw bytes = s.advanced d D (u.afterRead t i o bytesRw bytes).mem
      (u.afterRead t i o bytesRw bytes).copies (k + bytes) := by
  subst hu hdesc
  simp only [Fs.afterRead, Fs.advanced, Fs.setDesc, Function.update_self, Function.update_idem,
    Int.add_assoc]

/-- `k` bytes were read into the buffer, and nothing else outside `fsbuf` was touched. -/
structure PartlyRead (s : Fs) (d : Fin nrFileDesc) (buf len : Nat) (src : Nat → Byte) (k : Nat)
    (u : Fs) : Prop where
  state : u = s.advanced d s.disk u.mem u.copies k
  bytes : ∀ j < k, u.mem (buf + j) = src j
  frame : ∀ a, (a < buf ∨ buf + len ≤ a) → (a < fsbuf ∨ fsbuf + fsbufSize ≤ a) →
    u.mem a = s.mem a

theorem PartlyRead.start : PartlyRead s d buf len src 0 s where
  state := by
    simp [Fs.advanced, Fs.setDesc]
  bytes j hj := by omega
  frame _ _ _ := rfl

/-- A round reads `b` bytes more. -/
theorem PartlyRead.round {i : Int} (h : PartlyRead s d buf len src k u) (hdesc : t.desc = d)
    (hbuf : t.buf = BitVec.ofNat 32 buf) (hchunk : t.chunk = c) (hc : c ≤ 2048)
    (hend : buf + len ≤ 2 ^ 32) (hapart : buf + len ≤ fsbuf ∨ fsbuf + fsbufSize ≤ buf)
    (hk : k + b ≤ len) (ho : o + b ≤ 512 * c)
    (hsrc : ∀ j, k ≤ j → j < k + b → src j = s.disk ((sectPos i).toNat + (o + (j - k)))) :
    PartlyRead s d buf len src (k + b) (u.afterRead t i o k b) := by
  have hfsbuf : fsbuf = 0x600000 := rfl
  have hfsbufSize : fsbufSize = 0x100000 := rfl
  have hdisk : u.disk = s.disk := by rw [h.state]; rfl
  have hsize : (t.chunk * (sectorSize : Nat)).toNat = 512 * c := by
    rw [hchunk]
    exact_mod_cast Nat.mul_comm c 512
  have hlen : (BitVec.ofInt 32 (b : Int)).toNat = b := by
    rw [BitVec.ofInt_natCast]
    exact Nat.mod_eq_of_lt (by omega)
  have hmem : (u.afterRead t i o k b).mem =
      blit (blit u.mem fsbuf s.disk (sectPos i).toNat (512 * c)) (buf + k)
        (blit u.mem fsbuf s.disk (sectPos i).toNat (512 * c)) (fsbuf + o) b := by
    change memcpy (blit u.mem fsbuf u.disk (sectPos i).toNat (t.chunk * (sectorSize : Nat)).toNat)
      (t.buf + BitVec.ofInt 32 k) (BitVec.ofNat 32 fsbuf + BitVec.ofInt 32 o) _ = _
    rw [hsize, hlen, hdisk, hbuf, BitVec.ofInt_natCast, BitVec.ofInt_natCast, ← BitVec.ofNat_add,
      ← BitVec.ofNat_add, memcpy_eq_blit (by omega) (by omega) (by omega)]
  refine ⟨?_, fun j hj => ?_, fun a ha ha' => ?_⟩
  · exact_mod_cast afterRead_advanced hdesc h.state
  · rw [hmem]
    by_cases hjk : j < k
    · rw [blit_of_notMem (by omega), blit_of_notMem (by omega), h.bytes j hjk]
    · rw [blit_of_mem (by omega) (by omega), blit_of_mem (by omega) (by omega),
        hsrc j (by omega) (by omega)]
      exact congrArg s.disk (by omega)
  · rw [hmem, blit_of_notMem (by omega), blit_of_notMem (by omega), h.frame a ha ha']

end

/-! ## A request -/

/-- A READ of `len` bytes from a file, at a position that is not behind its end, by a process whose
segment starts at 0. -/
structure ReadRequest (s : Fs) (pid : Pid) (d : Fin nrFileDesc) (p : Fin nrInode)
    (buf pos len : Nat) : Prop extends FileRequest s pid d p where
  type : s.fsMsg.type = MsgType.read
  regular : (s.inodeTable p).iMode = iRegular
  base : ldtSegLinear (s.procTable pid) indexLdtRw = 0
  fdPos : (s.fDescTable d).fdPos = (pos : Int)
  pos_le : pos ≤ (s.inodeTable p).iSize.toNat
  pos_lt : pos < 2 ^ 31
  cnt : s.fsMsg.cnt = (len : Int)
  len_lt : len < 2 ^ 31
  /-- The driver addresses sectors with 28 bits. -/
  onDisk : 512 * (s.inodeTable p).iStartSect.toNat + (s.inodeTable p).iSize.toNat ≤ 512 * 2 ^ 28
  buffer : s.fsMsg.buf = BitVec.ofNat 32 buf
  buf_le : buf + len ≤ 2 ^ 32
  apart : buf + len ≤ fsbuf ∨ fsbuf + fsbufSize ≤ buf

/-- The number of bytes between a position and the end of a file. -/
def readable (i : Inode) (pos len : Nat) : Nat := min len (i.iSize.toNat - pos)

/-- A READ stops at the end of the file. -/
structure ReadStops (s : Fs) (d : Fin nrFileDesc) (p : Fin nrInode) (buf pos len : Nat) (r : Int)
    (u : Fs) : Prop where
  answer : r = readable (s.inodeTable p) pos len
  bytes : ∀ j < readable (s.inodeTable p) pos len,
    u.mem (buf + j) = s.disk (fileAddr (s.inodeTable p) (pos + j))
  frame : ∀ a, (a < buf ∨ buf + readable (s.inodeTable p) pos len ≤ a) →
    (a < fsbuf ∨ fsbuf + fsbufSize ≤ a) → u.mem a = s.mem a
  fdPos : (u.fDescTable d).fdPos = pos + readable (s.inodeTable p) pos len
  iSize : (u.inodeTable p).iSize = (s.inodeTable p).iSize
  disk : ∀ sb, s.super rootDev = some sb →
    let a := (sectPos (inodeBlk sb (s.inodeTable p).iNum)).toNat +
      (inodeOff (s.inodeTable p).iNum).toNat
    recordAt u.disk a = recordAt s.disk a

/-- The READs that stop at the end of the file: those that need not, through a descriptor for
reading, and whose sectors are found where the file has them. -/
structure ReadWithin (s : Fs) (d : Fin nrFileDesc) (p : Fin nrInode) (pos len : Nat) : Prop where
  flag : hasFlag (s.fDescTable d).fdMode oRdwr
  size : pos + len ≤ (s.inodeTable p).iSize.toNat
  int : pos + len < 2 ^ 31
  low : ∀ j < len, s.disk (readAddr (s.inodeTable p) pos j) =
    s.disk (fileAddr (s.inodeTable p) (pos + j))

section

variable {s : Fs} {pid : Pid} {d : Fin nrFileDesc} {p : Fin nrInode} {buf pos len : Nat}
  {E : Halt → Fs → Prop}

namespace ReadRequest

theorem range (h : ReadRequest s pid d p buf pos len) :
    RangeRequest s pid d p pos len (s.inodeTable p).iSize.toNat where
  toFileRequest := h.toFileRequest
  type := .inl h.type
  fdPos := h.fdPos
  pos_le := h.pos_le
  pos_lt := h.pos_lt
  len_lt := h.len_lt
  posEnd := by
    rw [h.type]
    exact posEnd_read h.pos_lt h.len_lt
  onDisk := h.onDisk

/-- A READ within the file delivers what is at the positions that its rounds compute. -/
theorem wp_rwFile_within (h : ReadRequest s pid d p buf pos len)
    (hsize : pos + len ≤ (s.inodeTable p).iSize.toNat) (hint : pos + len < 2 ^ 31) :
    wp (rwFile d p (len : Int)) (fun r u => r = len ∧
      PartlyRead s d buf len (fun j => s.disk (readAddr (s.inodeTable p) pos j)) len u) E s := by
  have hstart : PartlyRead s d buf len (fun j => s.disk (readAddr (s.inodeTable p) pos j)) 0 s :=
    .start
  refine h.range.wp_rwFile_within hsize hint hstart (fun c r k b u hb hu => ?_) fun u hu => ?_
  · have hbase : ldtSegLinear (u.procTable pid) indexLdtRw = 0 := by
      rw [hu.state]
      exact h.base
    rw [wp_rwChunk_read h.type rfl h.source hbase]
    refine hu.round rfl h.buffer rfl hb.chunk h.buf_le h.apart hb.le hb.fits fun j hj hj' => ?_
    rw [← hb.addr (j - k) (by omega), Nat.add_sub_cancel' hj]
  · have hpos : (u.fDescTable d).fdPos = ((pos + len : Nat) : Int) := by
      rw [hu.state]
      simp [Fs.advanced, Fs.setDesc, h.fdPos]
    have hinode : u.inodeTable p = s.inodeTable p := by
      rw [hu.state]
      rfl
    have hle : ¬BitVec.ofInt 32 (u.fDescTable d).fdPos > (u.inodeTable p).iSize := by
      rw [hpos, hinode, BitVec.ofInt_natCast, gt_iff_lt, BitVec.lt_def, BitVec.toNat_ofNat]
      omega
    exact ⟨fun hgt => absurd hgt hle, fun _ => ⟨rfl, hu⟩⟩

/-- A READ that is not within the file does not stop at its end. -/
theorem not_stops_of_past (h : ReadRequest s pid d p buf pos len)
    (hpast : ¬(pos + len ≤ (s.inodeTable p).iSize.toNat ∧ pos + len < 2 ^ 31)) :
    ¬wp doRdwt (ReadStops s d p buf pos len) (fun _ _ => False) s := by
  intro hw
  rw [h.toFileRequest.wp_doRdwt, h.cnt] at hw
  split_ifs at hw with hflag
  · exact (hw.and (h.range.wp_rwFile_past hpast)).elim (fun r u hr => hr.2 hr.1.answer)
      fun _ _ he => he.1
  · have := hw.answer
    omega

end ReadRequest

end

/-- A file of 10 bytes that process 6 has open, and its request to read `len` bytes from the start. -/
def shortFile (len : Nat) : Fs where
  disk _ := 0
  mem _ := 0
  procTable _ := {}
  filp _ _ := some 0
  fDescTable _ := { fdMode := 2, fdCnt := 1, fdInode := some 0 }
  inodeTable _ :=
    { iMode := iRegular, iSize := 10, iStartSect := 300, iNrSects := 2048, iDev := rootDev, iCnt := 1,
      iNum := 6 }
  superBlock _ := rootSuper 40960
  rootInode := some 0
  pcaller := 6
  fsMsg := { source := 6, type := MsgType.read, u := { m3i2 := len, m3p2 := 0x1000000 } }
  logPos := 0
  geoSize := 40960
  ttyReply m := m
  copies := []

theorem shortFile_request {len : Nat} (h : len < 2 ^ 20) :
    ReadRequest (shortFile len) 6 0 0 0x1000000 0 len where
  source := rfl
  caller := rfl
  filp := ⟨0, rfl, rfl⟩
  inode := rfl
  mode := .inl rfl
  dev := rfl
  type := rfl
  regular := rfl
  base := by
    change ldtSegLinear {} indexLdtRw = 0
    decide
  fdPos := rfl
  pos_le := Nat.zero_le _
  pos_lt := by decide
  cnt := rfl
  len_lt := by omega
  onDisk := by
    change 512 * 300 + 10 ≤ 512 * 2 ^ 28
    decide
  buffer := rfl
  buf_le := by omega
  apart := .inr (by decide)

end Dlos
