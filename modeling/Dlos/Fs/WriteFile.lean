import Dlos.Fs.Layout
import Dlos.Fs.ReadFile
import Dlos.Include.Mm

/-!
# Writing a file

A WRITE reads whole sectors, changes the bytes it was given in them and writes the sectors back. The
sectors it takes reach behind the file, so its bytes do when it was given more than there is room for.
-/

namespace Dlos

open Program Bytes

/-! ## One round -/

section

variable {s u : Fs} {E : Halt → Fs → Prop} {d : Fin nrFileDesc} {t : Transfer} {i : Inode} {pid : Pid}
  {buf pos len c r k b : Nat}

/-- The state after a round of a WRITE of a process whose segment starts at `base`. -/
def Fs.afterWrite (s : Fs) (base : Addr) (t : Transfer) (i off bytesRw bytes : Int) : Fs :=
  let user := base + (t.buf + BitVec.ofInt 32 bytesRw)
  let fs := base + (BitVec.ofNat 32 fsbuf + BitVec.ofInt 32 off)
  let size := (t.chunk * (sectorSize : Nat)).toNat
  let mem := memcpy (blit s.mem fsbuf s.disk (sectPos i).toNat size) fs user
    (BitVec.ofInt 32 bytes).toNat
  Fs.setDesc { s with
    disk := blit s.disk (sectPos i).toNat mem fsbuf size
    mem
    copies := ⟨fs, user, BitVec.ofInt 32 bytes⟩ :: s.copies } t.desc fun f =>
      { f with fdPos := f.fdPos + bytes }

theorem wp_rwChunk_write {Q : Unit → Fs → Prop} {x o bytesRw bytes : Int}
    (htype : t.type ≠ MsgType.read) (hdev : t.dev = rootDev) (hsrc : pidOf t.src = some pid)
    (hseg : ldtSegLinear (s.procTable pid) indexLdtRw = 0 ∨ nrTasks + nrNativeProcs ≤ pid.val) :
    wp (rwChunk t x o bytesRw bytes) Q E s ↔
      Q () (s.afterWrite (ldtSegLinear (s.procTable pid) indexLdtRw) t x o bytesRw bytes) := by
  have hla : ∀ {D M : Store} {va : Addr} {P : Addr → Fs → Prop}, wp (fsVa2la pid va) P E (s.io D M) ↔
      P (ldtSegLinear (s.procTable pid) indexLdtRw + va) (s.io D M) := wp_fsVa2la_of hseg
  rw [rwChunk, wp_bind, hdev, wp_rwSector, if_pos rfl, wp_bind, procAt, hsrc]
  refine (wp_bind.trans hla).trans ((wp_bind.trans hla).trans ?_)
  rw [if_neg htype, wp_bind, physCopy, wp_modify, wp_bind, wp_rwSector, if_neg (by decide)]
  rfl

theorem afterWrite_advanced {C : List PhysCopy} {D M : Store} {base : Addr} {k o x bytesRw bytes : Int}
    (hdesc : t.desc = d) (hu : u = s.advanced d D M C k) :
    u.afterWrite base t x o bytesRw bytes = s.advanced d (u.afterWrite base t x o bytesRw bytes).disk
      (u.afterWrite base t x o bytesRw bytes).mem (u.afterWrite base t x o bytesRw bytes).copies
        (k + bytes) := by
  subst hu hdesc
  simp only [Fs.afterWrite, Fs.advanced, Fs.setDesc, Function.update_self, Function.update_idem,
    Int.add_assoc]

/-- `k` bytes were written. A process whose segment does not start at 0 changes its own memory in place
of the buffer, so that the sectors are written back as they were. -/
structure PartlyWritten (s : Fs) (d : Fin nrFileDesc) (pid : Pid) (i : Inode) (pos buf k : Nat)
    (u : Fs) : Prop where
  state : u = s.advanced d u.disk u.mem u.copies k
  disk : ∀ a, (ldtSegLinear (s.procTable pid) indexLdtRw = 0 → ∀ j < k, readAddr i pos j ≠ a) →
    u.disk a = s.disk a
  bytes : ldtSegLinear (s.procTable pid) indexLdtRw = 0 →
    ∀ j < k, u.disk (readAddr i pos j) = s.mem (buf + j)
  mem : ldtSegLinear (s.procTable pid) indexLdtRw = 0 →
    ∀ a, (a < fsbuf ∨ fsbuf + fsbufSize ≤ a) → u.mem a = s.mem a

theorem PartlyWritten.start : PartlyWritten s d pid i pos buf 0 s where
  state := by
    simp [Fs.advanced, Fs.setDesc]
  disk _ _ := rfl
  bytes _ j hj := absurd hj (Nat.not_lt_zero j)
  mem _ _ _ := rfl

/-- The segment of a process: it starts at 0, and the `len` bytes at `buf` are not in the buffer of FS;
or it was made for a process that was forked. -/
inductive Segment (s : Fs) (pid : Pid) (buf len : Nat) : Prop
  | native (base : ldtSegLinear (s.procTable pid) indexLdtRw = 0) (le : buf + len ≤ 2 ^ 32)
    (apart : buf + len ≤ fsbuf ∨ fsbuf + fsbufSize ≤ buf)
  | forked (le_pid : nrTasks + nrNativeProcs ≤ pid.val)
    (ge : procsBase ≤ (ldtSegLinear (s.procTable pid) indexLdtRw).toNat)
    (lt : (ldtSegLinear (s.procTable pid) indexLdtRw).toNat + fsbuf + fsbufSize < 2 ^ 32)

theorem Segment.base_or (h : Segment s pid buf len) :
    ldtSegLinear (s.procTable pid) indexLdtRw = 0 ∨ nrTasks + nrNativeProcs ≤ pid.val := by
  cases h with
  | native base => exact .inl base
  | forked hpid => exact .inr hpid

/-! The memory and the disk after round `r`: the sectors from `x` on were read, `b` bytes were copied to
offset `o`, and the sectors were written back. -/

section

variable {base : Addr} {x : Int} {o : Nat}

theorem afterWrite_mem (hchunk : t.chunk = c) (hbuf : t.buf = BitVec.ofNat 32 buf) (hb : b < 2 ^ 32) :
    (u.afterWrite base t x o k b).mem =
      memcpy (blit u.mem fsbuf u.disk (sectPos x).toNat (512 * c))
        (base + BitVec.ofNat 32 (fsbuf + o)) (base + BitVec.ofNat 32 (buf + k)) b := by
  have hsize : (t.chunk * (sectorSize : Nat)).toNat = 512 * c := by
    rw [hchunk]
    exact_mod_cast Nat.mul_comm c 512
  have hcopy : (BitVec.ofInt 32 (b : Int)).toNat = b := by
    rw [BitVec.ofInt_natCast]
    exact Nat.mod_eq_of_lt hb
  change memcpy (blit u.mem fsbuf u.disk (sectPos x).toNat (t.chunk * (sectorSize : Nat)).toNat)
    (base + (BitVec.ofNat 32 fsbuf + BitVec.ofInt 32 o)) (base + (t.buf + BitVec.ofInt 32 k)) _ = _
  rw [hsize, hcopy, hbuf, BitVec.ofInt_natCast, BitVec.ofInt_natCast, ← BitVec.ofNat_add,
    ← BitVec.ofNat_add]

theorem afterWrite_disk (hchunk : t.chunk = c) : (u.afterWrite base t x o k b).disk =
    blit u.disk (sectPos x).toNat (u.afterWrite base t x o k b).mem fsbuf (512 * c) := by
  have hsize : (t.chunk * (sectorSize : Nat)).toNat = 512 * c := by
    rw [hchunk]
    exact_mod_cast Nat.mul_comm c 512
  rw [← hsize]
  rfl

/-- A process whose segment starts at 0 writes the bytes of its buffer. -/
theorem afterWrite_native (hchunk : t.chunk = c) (hbuf : t.buf = BitVec.ofNat 32 buf)
    (hc : c ≤ 2048) (hfits : o + b ≤ 512 * c) (hend : buf + k + b ≤ 2 ^ 32)
    (hapart : buf + k + b ≤ fsbuf ∨ fsbuf + fsbufSize ≤ buf + k) :
    (u.afterWrite 0 t x o k b).disk = blit u.disk ((sectPos x).toNat + o) u.mem (buf + k) b ∧
      ∀ a, (a < fsbuf ∨ fsbuf + fsbufSize ≤ a) → (u.afterWrite 0 t x o k b).mem a = u.mem a := by
  have hfsbuf : fsbuf = 0x600000 := rfl
  have hfsbufSize : fsbufSize = 0x100000 := rfl
  have hzero (n : Nat) : (0 : Addr) + BitVec.ofNat 32 n = BitVec.ofNat 32 n := BitVec.zero_add _
  have hmem : (u.afterWrite 0 t x o k b).mem = _ :=
    afterWrite_mem hchunk hbuf (show b < 2 ^ 32 by omega)
  rw [hzero, hzero, memcpy_eq_blit (by omega) (by omega) (by omega)] at hmem
  refine ⟨?_, fun a ha => ?_⟩
  · rw [afterWrite_disk hchunk, hmem, blit_part_blit hfits]
    exact blit_congr fun j hj => blit_of_notMem (by omega)
  · rw [hmem, blit_of_notMem (by omega), blit_of_notMem (by omega)]

/-- A forked process changes its own memory, and the sectors are written back as they were. -/
theorem afterWrite_forked (hchunk : t.chunk = c) (hbuf : t.buf = BitVec.ofNat 32 buf)
    (hc : c ≤ 2048) (hfits : o + b ≤ 512 * c) (hge : procsBase ≤ base.toNat)
    (hlt : base.toNat + fsbuf + fsbufSize < 2 ^ 32) :
    (u.afterWrite base t x o k b).disk = u.disk := by
  have hfsbuf : fsbuf = 0x600000 := rfl
  have hfsbufSize : fsbufSize = 0x100000 := rfl
  have hprocsBase : procsBase = 0xA00000 := rfl
  have hto : (base + BitVec.ofNat 32 (fsbuf + o)).toNat = base.toNat + (fsbuf + o) := by
    rw [BitVec.toNat_add, BitVec.toNat_ofNat]
    omega
  rw [afterWrite_disk hchunk, afterWrite_mem hchunk hbuf (by omega)]
  have hmem : ∀ j < 512 * c, memcpy (blit u.mem fsbuf u.disk (sectPos x).toNat (512 * c))
      (base + BitVec.ofNat 32 (fsbuf + o)) (base + BitVec.ofNat 32 (buf + k)) b (fsbuf + j) =
        blit u.mem fsbuf u.disk (sectPos x).toNat (512 * c) (fsbuf + j) := fun j hj =>
    memcpy_of_notMem (by omega) (by omega)
  rw [blit_congr hmem, blit_blit_self]

end

/-- A round writes `b` bytes more. -/
theorem PartlyWritten.round (h : PartlyWritten s d pid i pos buf k u)
    (hb : RangeRound i pos len c r k b) (hlen : len < 2 ^ 31) (hseg : Segment s pid buf len)
    (hdesc : t.desc = d) (hbuf : t.buf = BitVec.ofNat 32 buf) (hchunk : t.chunk = c) :
    PartlyWritten s d pid i pos buf (k + b)
      (u.afterWrite (ldtSegLinear (s.procTable pid) indexLdtRw) t
        ((i.iStartSect.toNat : Int) + (pos / 512 : Nat) + (c * r : Nat)) (roundOff (pos % 512) r) k
        b) := by
  obtain ⟨hle, hc, hfits, haddr⟩ := hb
  generalize ((i.iStartSect.toNat : Int) + (pos / 512 : Nat) + (c * r : Nat)) = x at haddr ⊢
  generalize roundOff (pos % 512) r = o at hfits haddr ⊢
  have hstate (base : Addr) : u.afterWrite base t x o k b =
      s.advanced d (u.afterWrite base t x o k b).disk (u.afterWrite base t x o k b).mem
        (u.afterWrite base t x o k b).copies ((k + b : Nat) : Int) := by
    rw [Nat.cast_add]
    exact afterWrite_advanced hdesc h.state
  cases hseg with
  | native base le apart =>
    obtain ⟨hdisk, hmem⟩ := afterWrite_native (u := u) (x := x) hchunk hbuf hc hfits
      (show buf + k + b ≤ 2 ^ 32 by omega) (by omega)
    rw [base]
    refine ⟨hstate 0, fun a hne => ?_, fun _ j hj => ?_, fun _ a hout => ?_⟩
    · rw [hdisk, blit_of_notMem, h.disk a fun hb j hj => hne hb j (by omega)]
      by_contra hin
      refine hne base (k + (a - ((sectPos x).toNat + o))) (by omega) ?_
      rw [haddr _ (by omega)]
      omega
    · rcases lt_or_ge j k with hlt | hge
      · have hne (y : Nat) (hy : y < b) : readAddr i pos j ≠ (sectPos x).toNat + (o + y) := fun he => by
          have := readAddr_injective (by omega) (by omega) (he.trans (haddr y hy).symm)
          omega
        rw [hdisk, blit_of_notMem, h.bytes base j hlt]
        by_contra hin
        exact hne (readAddr i pos j - ((sectPos x).toNat + o)) (by omega) (by omega)
      · have hj' := haddr (j - k) (by omega)
        rw [Nat.add_sub_cancel' hge] at hj'
        rw [hj', hdisk, blit_of_mem (by omega) (by omega), h.mem base _ (by omega)]
        exact congrArg s.mem (by omega)
    · rw [hmem a hout, h.mem base a hout]
  | forked hpid ge lt =>
    have hne : ldtSegLinear (s.procTable pid) indexLdtRw ≠ 0 := fun he => by
      rw [he] at ge
      exact absurd ge (by decide)
    have hdisk := afterWrite_forked (u := u) (x := x) (k := k) hchunk hbuf hc hfits ge lt
    refine ⟨hstate _, fun a _ => ?_, fun he => absurd he hne, fun he => absurd he hne⟩
    rw [hdisk, h.disk a fun he => absurd he hne]

end

/-! ## A request -/

/-- The bytes of the sectors of a file. -/
def InFile (i : Inode) (a : Nat) : Prop :=
  512 * i.iStartSect.toNat ≤ a ∧ a < 512 * (i.iStartSect.toNat + i.iNrSects.toNat)

/-- The bytes of the sector of the inode array that an inode is in. -/
def InInodeSector (sb : SuperBlock) (num : Int) (a : Nat) : Prop :=
  (sectPos (inodeBlk sb num)).toNat ≤ a ∧ a < (sectPos (inodeBlk sb num)).toNat + 512

/-- A WRITE of `len` bytes to a file, at a position that is not behind its sectors. -/
structure WriteRequest (s : Fs) (pid : Pid) (d : Fin nrFileDesc) (p : Fin nrInode) (sb : SuperBlock)
    (buf pos len : Nat) : Prop extends FileRequest s pid d p where
  type : s.fsMsg.type = MsgType.write
  regular : (s.inodeTable p).iMode = iRegular
  super : s.super rootDev = some sb
  iNum : 1 ≤ (s.inodeTable p).iNum
  fdPos : (s.fDescTable d).fdPos = (pos : Int)
  pos_le : pos ≤ reserved (s.inodeTable p)
  pos_lt : pos < 2 ^ 31
  cnt : s.fsMsg.cnt = (len : Int)
  len_lt : len < 2 ^ 31
  /-- The driver addresses sectors with 28 bits. -/
  onDisk : (s.inodeTable p).iStartSect.toNat + (s.inodeTable p).iNrSects.toNat ≤ 2 ^ 28
  buffer : s.fsMsg.buf = BitVec.ofNat 32 buf
  segment : Segment s pid buf len

/-- A WRITE stops at the end of the file's sectors. -/
structure WriteStays (s : Fs) (p : Fin nrInode) (sb : SuperBlock) (pos len : Nat) (r : Int)
    (u : Fs) : Prop where
  answer : r = (min len (reserved (s.inodeTable p) - pos) : Nat)
  disk : ∀ a, ¬InFile (s.inodeTable p) a → ¬InInodeSector sb (s.inodeTable p).iNum a →
    u.disk a = s.disk a
  iSize : (u.inodeTable p).iSize.toNat ≤ reserved (s.inodeTable p)

/-- The WRITEs that stay in the file's sectors: there is room for what they write, through a descriptor
for writing, and the positions that the rounds compute are the file's, or what is there already is what
is written. -/
structure WriteWithin (s : Fs) (pid : Pid) (d : Fin nrFileDesc) (p : Fin nrInode) (sb : SuperBlock)
    (buf pos len : Nat) : Prop where
  flag : hasFlag (s.fDescTable d).fdMode oRdwr
  room : pos + len ≤ reserved (s.inodeTable p)
  int : pos + len < 2 ^ 31
  iSize : (s.inodeTable p).iSize.toNat ≤ reserved (s.inodeTable p)
  low : ldtSegLinear (s.procTable pid) indexLdtRw = 0 → ∀ j < len,
    InFile (s.inodeTable p) (readAddr (s.inodeTable p) pos j) ∨
      InInodeSector sb (s.inodeTable p).iNum (readAddr (s.inodeTable p) pos j) ∨
      s.disk (readAddr (s.inodeTable p) pos j) = s.mem (buf + j)

/-- What a WRITE within the room leaves. -/
structure Written (s : Fs) (pid : Pid) (p : Fin nrInode) (sb : SuperBlock) (buf pos len : Nat)
    (u : Fs) : Prop where
  disk : ∀ a, ¬InInodeSector sb (s.inodeTable p).iNum a →
    (ldtSegLinear (s.procTable pid) indexLdtRw = 0 →
      ∀ j < len, readAddr (s.inodeTable p) pos j ≠ a) → u.disk a = s.disk a
  bytes : ldtSegLinear (s.procTable pid) indexLdtRw = 0 → ∀ j < len,
    ¬InInodeSector sb (s.inodeTable p).iNum (readAddr (s.inodeTable p) pos j) →
      u.disk (readAddr (s.inodeTable p) pos j) = s.mem (buf + j)
  iSize : (u.inodeTable p).iSize.toNat = max (s.inodeTable p).iSize.toNat (pos + len)

section

variable {s u : Fs} {pid : Pid} {d : Fin nrFileDesc} {p : Fin nrInode} {sb : SuperBlock}
  {buf pos len : Nat} {E : Halt → Fs → Prop}

/-- `sync_inode` writes the inode's sector. -/
theorem wp_syncInode_frame {Q : Unit → Fs → Prop} (hsb : s.super rootDev = some sb)
    (hdev : (s.inodeTable p).iDev = rootDev) (hnum : 1 ≤ (s.inodeTable p).iNum)
    (hQ : ∀ D M, (∀ a, ¬InInodeSector sb (s.inodeTable p).iNum a → D a = s.disk a) →
      Q () (s.io D M)) : wp (syncInode p) Q E s := by
  have hoff : 0 ≤ inodeOff (s.inodeTable p).iNum :=
    Int.mul_nonneg (Int.tmod_nonneg _ (by omega)) (by decide)
  rw [syncInode, wp_bind, wp_get]
  dsimp only
  rw [hdev, wp_bind, wp_getSuperBlock hsb, wp_bind, wp_rdSect, wp_bind, wp_natOf]
  refine ⟨fun _ => ?_, fun hneg => absurd hoff hneg⟩
  rw [wp_bind, wp_putBufWords, wp_wrSect]
  exact hQ _ _ fun a ha => blit_of_notMem (by unfold InInodeSector at ha; omega)

theorem reserved_le {i : Inode} : reserved i ≤ 512 * i.iNrSects.toNat := by
  rw [reserved, BitVec.toNat_mul, BitVec.toNat_ofNat, show sectorSize % 2 ^ 32 = 512 from rfl]
  omega

namespace WriteRequest

theorem range (h : WriteRequest s pid d p sb buf pos len) :
    RangeRequest s pid d p pos len (reserved (s.inodeTable p)) where
  toFileRequest := h.toFileRequest
  type := .inr h.type
  fdPos := h.fdPos
  pos_le := h.pos_le
  pos_lt := h.pos_lt
  len_lt := h.len_lt
  posEnd := by
    rw [h.type]
    exact posEnd_write h.pos_lt h.len_lt
  onDisk := by
    have := reserved_le (i := s.inodeTable p)
    have := h.onDisk
    omega

/-- A WRITE for which there is room. -/
theorem wp_rwFile_within (h : WriteRequest s pid d p sb buf pos len)
    (hroom : pos + len ≤ reserved (s.inodeTable p)) (hint : pos + len < 2 ^ 31) :
    wp (rwFile d p (len : Int)) (fun r u => r = len ∧ Written s pid p sb buf pos len u ∧
      s.Transferred d p len u) E s := by
  have hstart : PartlyWritten s d pid (s.inodeTable p) pos buf 0 s := .start
  refine h.range.wp_rwFile_within hroom hint hstart (fun c r k b u hb hu => ?_) fun u hu => ?_
  · have hproc : u.procTable = s.procTable := by
      rw [hu.state]
      rfl
    have hwrite : s.fsMsg.type ≠ MsgType.read := by
      rw [h.type]
      decide
    rw [wp_rwChunk_write hwrite rfl h.source (hproc ▸ h.segment.base_or), hproc]
    exact hu.round hb h.len_lt h.segment rfl h.buffer rfl
  · have hpos : BitVec.ofInt 32 (u.fDescTable d).fdPos = BitVec.ofNat 32 (pos + len) := by
      rw [hu.state, ← BitVec.ofInt_natCast, Nat.cast_add, ← h.fdPos]
      simp [Fs.advanced, Fs.setDesc]
    have hinode : u.inodeTable p = s.inodeTable p := by
      rw [hu.state]
      rfl
    have hend : (BitVec.ofNat 32 (pos + len)).toNat = pos + len := Nat.mod_eq_of_lt (by omega)
    rw [RangeRequest.AfterLoop, hpos, hinode, gt_iff_lt, BitVec.lt_def, hend]
    refine ⟨fun hgt => ?_, fun hle => ?_⟩
    · have hsuper : u.super rootDev = some sb := by
        rw [hu.state]
        exact h.super
      refine wp_syncInode_frame hsuper ?_ ?_ fun D M hD => ?_
      · rw [Fs.setInode_self, hinode]
        exact h.dev
      · rw [Fs.setInode_self, hinode]
        exact h.iNum
      · simp only [Fs.setInode_self, hinode] at hD
        refine ⟨rfl, ⟨fun a ha hne => (hD a ha).trans (hu.disk a hne),
          fun hb j hj ha => (hD _ ha).trans (hu.bytes hb j hj), ?_⟩,
          D, M, u.copies, BitVec.ofNat 32 (pos + len), ?_⟩
        · rw [Fs.io_inodeTable, Fs.setInode_self]
          dsimp only
          rw [hend]
          omega
        · rw [hu.state]
          rfl
    · refine ⟨rfl, ⟨fun a _ hne => hu.disk a hne, fun hb j hj _ => hu.bytes hb j hj, ?_⟩,
        u.disk, u.mem, u.copies, (s.inodeTable p).iSize, ?_⟩
      · rw [hinode]
        omega
      · rw [Fs.setInode_eq_self rfl]
        exact hu.state

/-- A WRITE for which there is no room does not stop at the end of the sectors. -/
theorem not_stays_of_past (h : WriteRequest s pid d p sb buf pos len)
    (hpast : ¬(pos + len ≤ reserved (s.inodeTable p) ∧ pos + len < 2 ^ 31)) :
    ¬wp doRdwt (WriteStays s p sb pos len) (fun _ _ => False) s := by
  intro hw
  rw [h.toFileRequest.wp_doRdwt, h.cnt] at hw
  split_ifs at hw with hflag
  · exact (hw.and (h.range.wp_rwFile_past hpast)).elim (fun r u hr => hr.2 hr.1.answer)
      fun _ _ he => he.1
  · have := hw.answer
    omega

end WriteRequest

end

/-- A file with room for 10 bytes, and a request to write `len` bytes behind its last one. -/
def fullFile (len : Nat) : Fs := { shortFile len with
  fDescTable _ := { fdMode := 2, fdPos := 1048566, fdCnt := 1, fdInode := some 0 }
  inodeTable _ :=
    { iMode := iRegular, iSize := 1048566, iStartSect := 300, iNrSects := 2048, iDev := rootDev,
      iCnt := 1, iNum := 6 }
  fsMsg := { source := 6, type := MsgType.write, u := { m3i2 := len, m3p2 := 0x1000000 } } }

theorem fullFile_request {len : Nat} (h : len < 2 ^ 20) :
    WriteRequest (fullFile len) 6 0 0 (rootSuper 40960) 0x1000000 1048566 len where
  source := rfl
  caller := rfl
  filp := ⟨0, rfl, rfl⟩
  inode := rfl
  mode := .inl rfl
  dev := rfl
  type := rfl
  regular := rfl
  super := rfl
  iNum := by
    change (1 : Int) ≤ 6
    decide
  fdPos := rfl
  pos_le := by
    change 1048566 ≤ (2048#32 * BitVec.ofNat 32 sectorSize).toNat
    decide
  pos_lt := by decide
  cnt := rfl
  len_lt := by omega
  onDisk := by
    change 300 + 2048 ≤ 2 ^ 28
    decide
  buffer := rfl
  segment := .native (by change ldtSegLinear {} indexLdtRw = 0; decide) (by omega) (.inr (by decide))

end Dlos
