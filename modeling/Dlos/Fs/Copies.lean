import Dlos.Fs.WriteFile

/-!
# Whose segment

A copy between a process and FS has one side in the memory of the process and one side in the buffer of
FS. `do_rdwt` translates both with the segment of the process, so that the side of FS is right only for
a process whose segment starts at 0, as that of FS does.
-/

namespace Dlos

open Program Bytes

/-! ## The copies of a request -/

namespace PhysCopy

/-- The side of the process in a copy of a READ or a WRITE. -/
def user (type : Int) (x : PhysCopy) : Addr := if type = MsgType.read then x.dst else x.src

/-- The side of FS. -/
def server (type : Int) (x : PhysCopy) : Addr := if type = MsgType.read then x.src else x.dst

end PhysCopy

/-- A copy of a request for `len` bytes at `buf`, after `k` bytes were copied, from offset `o` of the
buffer of FS on: nothing is copied, or what comes next in the caller's buffer and in `fsbuf`. -/
def OwnCopy (type : Int) (base buf : Addr) (len : Int) (k : Nat) (o : Int) (x : PhysCopy) : Prop :=
  x.size = 0 ∨ x.user type = base + (buf + BitVec.ofNat 32 k) ∧
    x.server type = BitVec.ofNat 32 fsbuf + BitVec.ofInt 32 o ∧ (k : Int) + x.size.toNat ≤ len ∧
    0 ≤ o ∧ o + x.size.toNat ≤ fsbufSize

/-- The copies of a request, the last one first; the first one starts at offset `off`. -/
inductive OwnCopies (type : Int) (base buf : Addr) (len off : Int) : Nat → List PhysCopy → Prop
  | nil : OwnCopies type base buf len off 0 []
  | cons {k : Nat} {l : List PhysCopy} {x : PhysCopy} : OwnCopies type base buf len off k l →
      OwnCopy type base buf len k (if l.length = 0 then off else 0) x →
      OwnCopies type base buf len off (k + x.size.toNat) (x :: l)

/-- The addresses of the buffer of FS. -/
def InFsbuf (a : Nat) : Prop := fsbuf ≤ a ∧ a < fsbuf + fsbufSize

/-- The addresses of the `len` bytes at `buf` of a process whose segment starts at `base`. -/
def InBuffer (base buf : Addr) (len : Int) (a : Nat) : Prop :=
  ∃ j : Nat, (j : Int) < len ∧ a = (base + (buf + BitVec.ofNat 32 j)).toNat

/-- The bytes at `buf` are not in the buffer of FS. -/
structure CallerApart (base buf : Addr) (len : Int) : Prop where
  le : (base + buf).toNat + len ≤ 2 ^ 32
  apart : (base + buf).toNat + len ≤ fsbuf ∨ fsbuf + fsbufSize ≤ (base + buf).toNat

/-- Where byte `j` of a request is on the disk, from offset `off` of sector `lo` on. -/
def sectAddr (lo : Int) (off j : Nat) : Nat :=
  (sectPos (lo + (2048 * ((off + j) / 2 ^ 20) : Nat))).toNat + (off + j) % 2 ^ 20

/-- Where the segment of a process starts. -/
abbrev Fs.base (s : Fs) (pid : Pid) : Addr := ldtSegLinear (s.procTable pid) indexLdtRw

/-- `rw_sect_min` -/
def Fs.rwSectMin (s : Fs) (d : Fin nrFileDesc) (p : Fin nrInode) : Int :=
  rwSect (s.inodeTable p) (s.fDescTable d).fdPos

/-- `rw_sect_max` -/
def Fs.rwSectMax (s : Fs) (d : Fin nrFileDesc) (p : Fin nrInode) : Int :=
  rwSect (s.inodeTable p) (posEnd s.fsMsg.type (s.fDescTable d).fdPos s.fsMsg.cnt (s.inodeTable p))

/-- `pos % SECTOR_SIZE` -/
def Fs.off (s : Fs) (d : Fin nrFileDesc) : Int := (s.fDescTable d).fdPos.tmod 512

/-- Every pointer was translated with its owner's segment, and nothing else was touched. -/
structure OwnSegments (s : Fs) (pid : Pid) (d : Fin nrFileDesc) (u : Fs) : Prop where
  copies : ∃ k l, u.copies = l ++ s.copies ∧
    OwnCopies s.fsMsg.type (s.base pid) s.fsMsg.buf s.fsMsg.cnt (s.off d) k l
  mem : ∀ a, ¬InFsbuf a →
    (s.fsMsg.type = MsgType.read → ¬InBuffer (s.base pid) s.fsMsg.buf s.fsMsg.cnt a) →
      u.mem a = s.mem a

/-- The `r` bytes that were moved are those of the sectors. -/
structure Delivered (s : Fs) (pid : Pid) (d : Fin nrFileDesc) (p : Fin nrInode) (r : Int)
    (u : Fs) : Prop where
  read : s.fsMsg.type = MsgType.read → ∀ j : Nat, (j : Int) < r →
    u.mem (s.base pid + (s.fsMsg.buf + BitVec.ofNat 32 j)).toNat =
      s.disk (sectAddr (s.rwSectMin d p) (s.off d).toNat j)
  write : s.fsMsg.type = MsgType.write → ∀ sb, s.super rootDev = some sb → ∀ j : Nat, (j : Int) < r →
    ¬InInodeSector sb (s.inodeTable p).iNum (sectAddr (s.rwSectMin d p) (s.off d).toNat j) →
      u.disk (sectAddr (s.rwSectMin d p) (s.off d).toNat j) =
        s.mem (s.base pid + (s.fsMsg.buf + BitVec.ofNat 32 j)).toNat

section

variable {s u : Fs} {E : Halt → Fs → Prop} {t : Transfer} {i : Inode} {pid : Pid} {d : Fin nrFileDesc}
  {p : Fin nrInode} {type len off : Int} {base buf : Addr} {k b c r pos : Nat} {x : PhysCopy}
  {l : List PhysCopy}

/-- The first copy starts with the first byte. -/
theorem OwnCopies.first (h : OwnCopies type base buf len off k (l ++ [x])) :
    OwnCopy type base buf len 0 off x := by
  generalize hl : l ++ [x] = l' at h
  induction h generalizing l with
  | nil => exact absurd hl (by simp)
  | @cons k l' y hown hy ih =>
    cases l with
    | nil =>
      obtain ⟨rfl, rfl⟩ := List.cons.inj hl
      cases hown
      exact hy
    | cons z l => exact ih (List.cons.inj hl).2

/-! ## One round -/

/-- The copy of a round of a process whose segment starts at `base`. -/
def roundCopy (t : Transfer) (base : Addr) (off bytesRw bytes : Int) : PhysCopy :=
  let user := base + (t.buf + BitVec.ofInt 32 bytesRw)
  let fs := base + (BitVec.ofNat 32 fsbuf + BitVec.ofInt 32 off)
  if t.type = MsgType.read then ⟨user, fs, BitVec.ofInt 32 bytes⟩ else ⟨fs, user, BitVec.ofInt 32 bytes⟩

/-- The state after a round. -/
def Fs.afterCopy (s : Fs) (base : Addr) (t : Transfer) (i off bytesRw bytes : Int) : Fs :=
  let x := roundCopy t base off bytesRw bytes
  let size := (t.chunk * (sectorSize : Nat)).toNat
  let mem := memcpy (blit s.mem fsbuf s.disk (sectPos i).toNat size) x.dst x.src x.size.toNat
  Fs.setDesc { s with
    disk := if t.type = MsgType.read then s.disk else blit s.disk (sectPos i).toNat mem fsbuf size
    mem
    copies := x :: s.copies } t.desc fun f => { f with fdPos := f.fdPos + bytes }

section

variable {y o bytesRw bytes : Int}

theorem roundCopy_size : (roundCopy t base o bytesRw bytes).size = BitVec.ofInt 32 bytes := by
  rw [roundCopy]
  split_ifs <;> rfl

theorem roundCopy_user : (roundCopy t base o bytesRw bytes).user t.type =
    base + (t.buf + BitVec.ofInt 32 bytesRw) := by
  rw [roundCopy, PhysCopy.user]
  split_ifs <;> rfl

theorem roundCopy_server : (roundCopy t base o bytesRw bytes).server t.type =
    base + (BitVec.ofNat 32 fsbuf + BitVec.ofInt 32 o) := by
  rw [roundCopy, PhysCopy.server]
  split_ifs <;> rfl

theorem wp_rwChunk {Q : Unit → Fs → Prop} (hdev : t.dev = rootDev) (hsrc : pidOf t.src = some pid)
    (hseg : s.base pid = 0 ∨ nrTasks + nrNativeProcs ≤ pid.val) :
    wp (rwChunk t y o bytesRw bytes) Q E s ↔ Q () (s.afterCopy (s.base pid) t y o bytesRw bytes) := by
  by_cases htype : t.type = MsgType.read
  · have hla : ∀ {D M : Store} {va : Addr} {P : Addr → Fs → Prop}, wp (fsVa2la pid va) P E (s.io D M) ↔
        P (s.base pid + va) (s.io D M) := wp_fsVa2la_of hseg
    rw [rwChunk, wp_bind, hdev, wp_rwSector, if_pos rfl, wp_bind, procAt, hsrc]
    refine (wp_bind.trans hla).trans ((wp_bind.trans hla).trans ?_)
    rw [if_pos htype, Fs.afterCopy, roundCopy, if_pos htype, if_pos htype]
    rfl
  · rw [wp_rwChunk_write htype hdev hsrc hseg, Fs.afterCopy, roundCopy, if_neg htype, if_neg htype]
    rfl

theorem afterCopy_advanced {C : List PhysCopy} {D M : Store} {k : Int} (hdesc : t.desc = d)
    (hu : u = s.advanced d D M C k) :
    u.afterCopy base t y o bytesRw bytes = s.advanced d (u.afterCopy base t y o bytesRw bytes).disk
      (u.afterCopy base t y o bytesRw bytes).mem (roundCopy t base o bytesRw bytes :: C)
        (k + bytes) := by
  subst hu hdesc
  simp only [Fs.afterCopy, Fs.advanced, Fs.setDesc, Function.update_self, Function.update_idem,
    Int.add_assoc]

theorem afterCopy_read (htype : t.type = MsgType.read) :
    u.afterCopy 0 t y o bytesRw bytes = u.afterRead t y o bytesRw bytes := by
  have hzero (a : Addr) : 0 + a = a := BitVec.zero_add a
  rw [Fs.afterCopy, roundCopy, if_pos htype, if_pos htype, hzero, hzero]
  rfl

theorem afterCopy_write (htype : t.type ≠ MsgType.read) :
    u.afterCopy base t y o bytesRw bytes = u.afterWrite base t y o bytesRw bytes := by
  rw [Fs.afterCopy, roundCopy, if_neg htype, if_neg htype]
  rfl

theorem afterCopy_congr {z : Int} (h : sectPos y = sectPos z) :
    u.afterCopy base t y o bytesRw bytes = u.afterCopy base t z o bytesRw bytes := by
  rw [Fs.afterCopy, Fs.afterCopy, h]

/-- Outside `fsbuf` a round changes what it copies to. -/
theorem afterCopy_mem_of_ne {a : Nat} (hchunk : t.chunk ≤ 2048) (ha : ¬InFsbuf a)
    (hne : ∀ i < (BitVec.ofInt 32 bytes).toNat,
      a ≠ ((roundCopy t base o bytesRw bytes).dst + BitVec.ofNat 32 i).toNat) :
    (u.afterCopy base t y o bytesRw bytes).mem a = u.mem a := by
  have hsize : (t.chunk * (sectorSize : Nat)).toNat ≤ fsbufSize := by
    rw [show ((sectorSize : Nat) : Int) = 512 from rfl, show fsbufSize = 0x100000 from rfl]
    omega
  unfold InFsbuf at ha
  change memcpy _ _ _ (roundCopy t base o bytesRw bytes).size.toNat a = _
  rw [roundCopy_size, memcpy_of_ne hne, blit_of_notMem (by omega)]

end

/-! ## A process whose segment starts at 0 -/

/-- `r` rounds copied `k` bytes of a request of a process whose segment starts at 0. -/
structure PartlyCopied (s : Fs) (pid : Pid) (d : Fin nrFileDesc) (i : Inode) (off len r k : Nat)
    (u : Fs) : Prop where
  state : ∃ l, l.length = r ∧ OwnCopies s.fsMsg.type 0 s.fsMsg.buf len off k l ∧
    u = s.advanced d u.disk u.mem (l ++ s.copies) k
  mem : ∀ a, ¬InFsbuf a → (s.fsMsg.type = MsgType.read → ¬InBuffer 0 s.fsMsg.buf len a) →
    u.mem a = s.mem a
  read : CallerApart 0 s.fsMsg.buf len → s.fsMsg.type = MsgType.read →
    PartlyRead s d s.fsMsg.buf.toNat len (fun j => s.disk (readAddr i off j)) k u
  write : CallerApart 0 s.fsMsg.buf len → s.fsMsg.type ≠ MsgType.read →
    PartlyWritten s d pid i off s.fsMsg.buf.toNat k u

theorem PartlyCopied.start {off len : Nat} : PartlyCopied s pid d i off len 0 0 s where
  state := ⟨[], rfl, .nil, (PartlyWritten.start : PartlyWritten s d pid i 0 0 0 s).state⟩
  mem _ _ _ := rfl
  read _ _ := .start
  write _ _ := .start

/-- A round copies what comes next. -/
theorem ownCopy_round {len o : Nat} (hk : k + b ≤ len) (ho : o + b ≤ fsbufSize) (hb : b < 2 ^ 32) :
    OwnCopy t.type 0 t.buf len k o (roundCopy t 0 o k b) := by
  have hzero (a : Addr) : 0 + a = a := BitVec.zero_add a
  have hsize : (BitVec.ofInt 32 (b : Int)).toNat = b := by
    rw [BitVec.ofInt_natCast]
    exact Nat.mod_eq_of_lt hb
  refine .inr ⟨?_, ?_, ?_, Int.natCast_nonneg o, ?_⟩
  · rw [roundCopy_user, BitVec.ofInt_natCast]
  · rw [roundCopy_server, hzero]
  · rw [roundCopy_size, hsize]
    exact_mod_cast hk
  · rw [roundCopy_size, hsize]
    exact_mod_cast ho

/-- A round changes the caller's buffer, when it reads, and the buffer of FS. -/
theorem afterCopy_mem_of_notMem {len a o : Nat} {y : Int} (hk : k + b ≤ len) (hlen : len < 2 ^ 31)
    (ho : o + b ≤ fsbufSize) (hchunk : t.chunk ≤ 2048) (ha : ¬InFsbuf a)
    (ha' : t.type = MsgType.read → ¬InBuffer 0 t.buf len a) :
    (u.afterCopy 0 t y o k b).mem a = u.mem a := by
  have hfsbuf : fsbuf = 0x600000 := rfl
  have hfsbufSize : fsbufSize = 0x100000 := rfl
  have hsize : (BitVec.ofInt 32 (b : Int)).toNat = b := by
    rw [BitVec.ofInt_natCast]
    exact Nat.mod_eq_of_lt (by omega)
  have hzero (a : Addr) : 0 + a = a := BitVec.zero_add a
  have hadd (n i : Nat) : BitVec.ofNat 32 n + BitVec.ofNat 32 i = BitVec.ofNat 32 (n + i) :=
    (BitVec.ofNat_add n i).symm
  rw [afterCopy_mem_of_ne hchunk ha fun i hi he => ?_]
  rw [hsize] at hi
  by_cases htype : t.type = MsgType.read
  · rw [roundCopy, if_pos htype] at he
    dsimp only at he
    rw [BitVec.ofInt_natCast, BitVec.add_assoc, BitVec.add_assoc, hadd] at he
    exact ha' htype ⟨k + i, by omega, he⟩
  · rw [roundCopy, if_neg htype] at he
    dsimp only at he
    rw [BitVec.ofInt_natCast, hadd, BitVec.add_assoc, hadd, hzero, BitVec.toNat_ofNat] at he
    unfold InFsbuf at ha
    omega

/-- A round copies `b` bytes more. -/
theorem PartlyCopied.round {off len : Nat} {y : Int} (h : PartlyCopied s pid d i off len r k u)
    (hoff : off < 512) (hlen : len < 2 ^ 31) (hbase : s.base pid = 0)
    (hb : RangeRound i off len c r k b)
    (hy : sectPos y = sectPos ((i.iStartSect.toNat : Int) + (off / 512 : Nat) + (c * r : Nat)))
    (ht : t = ⟨s.fsMsg.type, s.fsMsg.source, s.fsMsg.buf, d, rootDev, (c : Nat)⟩) :
    PartlyCopied s pid d i off len (r + 1) (k + b) (u.afterCopy 0 t y (roundOff off r : Nat) k b) := by
  have hmod : roundOff (off % 512) r = roundOff off r := by rw [Nat.mod_eq_of_lt hoff]
  have hfsbufSize : fsbufSize = 0x100000 := rfl
  have hk := hb.le
  have hfits := hb.fits
  have hchunk := hb.chunk
  rw [hmod] at hfits
  have hsize : (BitVec.ofInt 32 (b : Int)).toNat = b := by
    rw [BitVec.ofInt_natCast]
    exact Nat.mod_eq_of_lt (by omega)
  have hbuf : t.buf = BitVec.ofNat 32 s.fsMsg.buf.toNat := by
    rw [ht, BitVec.ofNat_toNat, BitVec.setWidth_eq]
  have hbuf0 (hapart : CallerApart 0 s.fsMsg.buf len) : s.fsMsg.buf.toNat + len ≤ 2 ^ 32 ∧
      (s.fsMsg.buf.toNat + len ≤ fsbuf ∨ fsbuf + fsbufSize ≤ s.fsMsg.buf.toNat) := by
    have hle := hapart.le
    have hor := hapart.apart
    rw [show (0 : Addr) + s.fsMsg.buf = s.fsMsg.buf from BitVec.zero_add _] at hle hor
    omega
  have htype : t.type = s.fsMsg.type := by rw [ht]
  have hdesc : t.desc = d := by rw [ht]
  have hchunk' : t.chunk = (c : Nat) := by rw [ht]
  rw [afterCopy_congr hy]
  refine ⟨?_, fun a ha ha' => ?_, fun hapart hread => ?_, fun hapart hwrite => ?_⟩
  · obtain ⟨l, hl, hown, hu⟩ := h.state
    have hstart : (if l.length = 0 then (off : Int) else 0) = (roundOff off r : Nat) := by
      rw [hl, roundOff]
      split_ifs <;> rfl
    have hcopy : OwnCopy t.type 0 t.buf len k (roundOff off r : Nat) _ :=
      ownCopy_round hk (show roundOff off r + b ≤ fsbufSize by omega) (by omega)
    rw [htype, show t.buf = s.fsMsg.buf by rw [ht], ← hstart] at hcopy
    have hown' := hown.cons hcopy
    rw [roundCopy_size, hsize, hstart] at hown'
    refine ⟨_, ?_, hown', ?_⟩
    · rw [List.length_cons, hl]
    · exact_mod_cast afterCopy_advanced hdesc hu
  · rw [afterCopy_mem_of_notMem hk hlen (by omega) (by omega) ha, h.mem a ha ha']
    rw [htype, ht]
    exact ha'
  · rw [afterCopy_read (htype.trans hread)]
    refine (h.read hapart hread).round hdesc hbuf hchunk' hchunk (hbuf0 hapart).1 (hbuf0 hapart).2 hk
      hfits fun j hj hj' => ?_
    have haddr := hb.addr (j - k) (by omega)
    rw [hmod, Nat.add_sub_cancel' hj] at haddr
    rw [haddr]
  · rw [afterCopy_write (htype ▸ hwrite)]
    have := (h.write hapart hwrite).round hb hlen (.native hbase (hbuf0 hapart).1 (hbuf0 hapart).2)
      hdesc hbuf hchunk'
    rwa [hmod, show ldtSegLinear (s.procTable pid) indexLdtRw = 0 from hbase] at this

/-! ## What follows the rounds -/

/-- The addresses of the caller's bytes. -/
theorem CallerApart.toNat_add (h : CallerApart base buf len) {j : Nat} (hj : (j : Int) < len) :
    (base + (buf + BitVec.ofNat 32 j)).toNat = (base + buf).toNat + j := by
  have hle := h.le
  rw [← BitVec.add_assoc, BitVec.toNat_add, BitVec.toNat_ofNat]
  omega

/-- What changes the buffer of FS alone copies nothing. -/
theorem OwnSegments.mono {v : Fs} (h : OwnSegments s pid d u) (hcopies : v.copies = u.copies)
    (hmem : ∀ a, ¬InFsbuf a → v.mem a = u.mem a) : OwnSegments s pid d v where
  copies := hcopies ▸ h.copies
  mem a ha ha' := (hmem a ha).trans (h.mem a ha ha')

theorem Delivered.mono {v : Fs} (h : Delivered s pid d p r u)
    (hapart : CallerApart (s.base pid) s.fsMsg.buf s.fsMsg.cnt) (hr : r ≤ max s.fsMsg.cnt 0)
    (hmem : ∀ a, ¬InFsbuf a → v.mem a = u.mem a)
    (hdisk : ∀ sb, s.super rootDev = some sb → ∀ a, ¬InInodeSector sb (s.inodeTable p).iNum a →
      v.disk a = u.disk a) : Delivered s pid d p r v where
  read htype j hj := by
    have hout : ¬InFsbuf (s.base pid + (s.fsMsg.buf + BitVec.ofNat 32 j)).toNat := by
      have hor := hapart.apart
      rw [hapart.toNat_add (by omega), InFsbuf]
      omega
    rw [hmem _ hout, h.read htype j hj]
  write htype sb hsb j hj hnot := by
    rw [hdisk sb hsb _ hnot, h.write htype sb hsb j hj hnot]

/-- `sync_inode` changes the buffer of FS and the sector of the inode. -/
theorem wp_syncInode_of {Q : Unit → Fs → Prop} (hdev : (s.inodeTable p).iDev = rootDev)
    (hQ : ∀ D M, (∀ a, ¬InFsbuf a → M a = s.mem a) →
      (∀ sb, s.super rootDev = some sb → ∀ a, ¬InInodeSector sb (s.inodeTable p).iNum a →
        D a = s.disk a) → Q () (s.io D M))
    (hE : ∀ e M, (∀ a, ¬InFsbuf a → M a = s.mem a) → E e (s.io s.disk M)) :
    wp (syncInode p) Q E s := by
  have hfsbufSize : fsbufSize = 0x100000 := rfl
  have hread {a n : Nat} (ha : ¬InFsbuf a) : blit s.mem fsbuf s.disk n 512 a = s.mem a :=
    blit_of_notMem (by unfold InFsbuf at ha; omega)
  rw [syncInode, wp_bind, wp_get]
  dsimp only
  rw [hdev, wp_bind]
  cases hsb : s.super rootDev with
  | none =>
    rw [getSuperBlock, wp_bind, wp_get, Option.map_eq_none_iff.mp hsb]
    exact hE _ s.mem fun _ _ => rfl
  | some sb =>
    rw [wp_getSuperBlock hsb, wp_bind, wp_rdSect, wp_bind, wp_natOf]
    refine ⟨fun hoff => ?_, fun _ => hE _ _ fun a ha => hread ha⟩
    have hlt : (inodeOff (s.inodeTable p).iNum).toNat + 16 ≤ 512 := by
      rw [inodeOff, show ((sectorSize / inodeSize : Nat) : Int) = 16 from rfl,
        show ((inodeSize : Nat) : Int) = 32 from rfl] at hoff ⊢
      have := Int.tmod_lt_of_pos ((s.inodeTable p).iNum - 1) (show (0 : Int) < 16 by decide)
      omega
    rw [wp_bind, wp_putBufWords, wp_wrSect]
    refine hQ _ _ (fun a ha => ?_) fun sb' hsb' a ha => ?_
    · rw [Fs.io_mem, Fs.io_mem, putWords_of_notMem, hread ha]
      unfold InFsbuf at ha
      rw [show (s.inodeTable p).words.length = 4 from rfl]
      omega
    · obtain rfl : sb = sb' := Option.some.inj (hsb.symm.trans hsb')
      exact blit_of_notMem (by unfold InInodeSector at ha; omega)

/-- The size of the file is updated after the last round. -/
theorem wp_afterLoop (h : OwnSegments s pid d u)
    (hr : CallerApart (s.base pid) s.fsMsg.buf s.fsMsg.cnt → Delivered s pid d p r u)
    (hle : r ≤ max s.fsMsg.cnt 0) (hdev : (u.inodeTable p).iDev = rootDev)
    (hnum : (u.inodeTable p).iNum = (s.inodeTable p).iNum)
    (hsuper : u.super rootDev = s.super rootDev) :
    RangeRequest.AfterLoop d p (fun r u => OwnSegments s pid d u ∧
      (CallerApart (s.base pid) s.fsMsg.buf s.fsMsg.cnt → Delivered s pid d p r u))
        (fun _ u => OwnSegments s pid d u) r u := by
  refine ⟨fun _ => ?_, fun _ => ⟨h, hr⟩⟩
  refine wp_syncInode_of ?_ (fun D M hM hD => ?_) fun e M hM => h.mono rfl hM
  · rwa [Fs.setInode_self]
  · refine ⟨h.mono rfl hM, fun hapart => (hr hapart).mono hapart hle hM fun sb hsb a ha => ?_⟩
    refine hD sb ?_ a ?_
    · rwa [Fs.setInode_super, hsuper]
    · rwa [Fs.setInode_self, hnum]

end

/-! ## A request -/

/-- A READ or a WRITE of a file or a directory. The segments of native processes start at 0. -/
structure CopyRequest (s : Fs) (pid : Pid) (d : Fin nrFileDesc) (p : Fin nrInode) : Prop
    extends FileRequest s pid d p where
  type : s.fsMsg.type = MsgType.read ∨ s.fsMsg.type = MsgType.write
  segment : s.base pid = 0 ∨ nrTasks + nrNativeProcs ≤ pid.val
  cnt_ge : -2 ^ 31 ≤ s.fsMsg.cnt
  cnt_lt : s.fsMsg.cnt < 2 ^ 31

section

variable {s u : Fs} {E : Halt → Fs → Prop} {t : Transfer} {pid : Pid} {d : Fin nrFileDesc}
  {p : Fin nrInode} {lo : Int} {off j : Nat}

theorem toNat_sectPos_int {x : Int} : (sectPos x).toNat = (x * 512 % 2 ^ 32).toNat :=
  BitVec.toNat_ofInt _

/-- The positions that the rounds compute depend on the sector modulo 2 ^ 32. -/
theorem sectPos_ofInt {x : Int} : sectPos (((BitVec.ofInt 32 lo).toNat : Int) + x) = sectPos (lo + x) := by
  have hlo : (BitVec.ofInt 32 lo).toNat = (lo % 2 ^ 32).toNat := BitVec.toNat_ofInt lo
  refine BitVec.eq_of_toNat_eq ?_
  rw [toNat_sectPos_int, toNat_sectPos_int, hlo]
  omega

theorem readAddr_eq_sectAddr (hoff : off < 512) :
    readAddr { iStartSect := BitVec.ofInt 32 lo } off j = sectAddr lo off j := by
  have hstart : (BitVec.ofInt 32 lo).toNat = (lo % 2 ^ 32).toNat := BitVec.toNat_ofInt lo
  rw [readAddr, sectAddr, toNat_sectPos_int, hstart, Nat.mod_eq_of_lt hoff]
  omega

/-- What the rounds have done after `r` bytes. -/
structure RoundsDone (s : Fs) (pid : Pid) (d : Fin nrFileDesc) (p : Fin nrInode) (r : Int) (u : Fs) :
    Prop where
  state : ∃ k : Nat, r = k ∧ k ≤ max s.fsMsg.cnt 0 ∧ u = s.advanced d u.disk u.mem u.copies k
  own : OwnSegments s pid d u
  delivered : CallerApart (s.base pid) s.fsMsg.buf s.fsMsg.cnt → Delivered s pid d p r u

theorem RoundsDone.start : RoundsDone s pid d p 0 s where
  state := ⟨0, rfl, le_max_right _ _, (PartlyWritten.start : PartlyWritten s d pid {} 0 0 0 s).state⟩
  own := ⟨⟨0, [], rfl, .nil⟩, fun _ _ _ => rfl⟩
  delivered _ := ⟨fun _ j hj => absurd hj (by omega), fun _ _ _ j hj => absurd hj (by omega)⟩

/-- A request for no bytes copies none, whatever the segment. -/
theorem wp_rwLoop_nothing {max y o : Int} {fuel : Nat} (h : RoundsDone s pid d p 0 u)
    (hcnt : s.fsMsg.cnt = 0) (hseg : s.base pid = 0 ∨ nrTasks + nrNativeProcs ≤ pid.val)
    (hsrc : pidOf t.src = some pid) (hdev : t.dev = rootDev) (hdesc : t.desc = d)
    (hchunk : 1 ≤ t.chunk) (hchunk' : t.chunk ≤ 2048) (ho : o ≤ 512) :
    wp (rwLoop t max fuel y o 0 0) (RoundsDone s pid d p) (fun _ => OwnSegments s pid d) u := by
  induction fuel generalizing u y o with
  | zero =>
    rw [rwLoop, wp_ite]
    exact ⟨fun _ => h.own, fun _ => h⟩
  | succ fuel ih =>
    rw [rwLoop, wp_ite]
    refine ⟨fun _ => ?_, fun _ => h⟩
    have hbytes : min 0 (t.chunk * (sectorSize : Nat) - o) = 0 := by
      rw [show ((sectorSize : Nat) : Int) = 512 from rfl]
      omega
    obtain ⟨k, hk, -, hu⟩ := h.state
    have hbase : u.base pid = s.base pid := by
      rw [hu]
      rfl
    have hseg' : u.base pid = 0 ∨ nrTasks + nrNativeProcs ≤ pid.val := by
      rwa [hbase]
    rw [wp_bind, hbytes, wp_rwChunk hdev hsrc hseg', Int.add_zero, Int.sub_zero, hbase]
    have hsize : (roundCopy t (s.base pid) o 0 0).size = 0 := roundCopy_size
    refine ih ⟨⟨k, hk, by omega, ?_⟩, ⟨?_, fun a ha ha' => ?_⟩, fun _ => ?_⟩ (by decide)
    · have hstate : u.afterCopy (s.base pid) t y o 0 0 = s.advanced d _ _ _ (k + 0) :=
        afterCopy_advanced hdesc hu
      rwa [Int.add_zero] at hstate
    · obtain ⟨n, l, hl, hown⟩ := h.own.copies
      refine ⟨_, roundCopy t (s.base pid) o 0 0 :: l, ?_, hown.cons (.inl hsize)⟩
      rw [List.cons_append, ← hl]
      rfl
    · refine (afterCopy_mem_of_ne hchunk' ha fun i hi => ?_).trans (h.own.mem a ha ha')
      exact absurd hi (Nat.not_lt_zero i)
    · exact ⟨fun _ j hj => absurd hj (by omega), fun _ _ _ j hj => absurd hj (by omega)⟩

theorem PartlyCopied.roundsDone {len r k : Nat} (hbase : s.base pid = 0) (hcnt : s.fsMsg.cnt = (len : Int))
    (hoff : s.off d = (off : Int)) (hlt : off < 512) (hk : k ≤ len)
    (h : PartlyCopied s pid d { iStartSect := BitVec.ofInt 32 (s.rwSectMin d p) } off len r k u) :
    RoundsDone s pid d p k u := by
  have haddr (j : Nat) : sectAddr (s.rwSectMin d p) (s.off d).toNat j =
      readAddr { iStartSect := BitVec.ofInt 32 (s.rwSectMin d p) } off j := by
    rw [hoff]
    exact (readAddr_eq_sectAddr hlt).symm
  have hbuf (hapart : CallerApart 0 s.fsMsg.buf len) {j : Nat} (hj : j < k) :
      ((0 : Addr) + (s.fsMsg.buf + BitVec.ofNat 32 j)).toNat = s.fsMsg.buf.toNat + j := by
    rw [hapart.toNat_add (by omega), show (0 : Addr) + s.fsMsg.buf = s.fsMsg.buf from BitVec.zero_add _]
  obtain ⟨l, -, hown, hu⟩ := h.state
  have hcopies : u.copies = l ++ s.copies := by
    rw [hu]
    rfl
  refine ⟨⟨k, rfl, by omega, hcopies ▸ hu⟩, ⟨⟨k, l, hcopies, ?_⟩, ?_⟩, fun hapart => ⟨?_, ?_⟩⟩
  · rwa [hbase, hcnt, hoff]
  · rw [hbase, hcnt]
    exact h.mem
  · intro htype j hj
    rw [hbase, hcnt] at hapart
    rw [hbase, hbuf hapart (by omega), haddr, (h.read hapart htype).bytes j (by omega)]
  · intro htype sb _ j hj _
    have hwrite : s.fsMsg.type ≠ MsgType.read := by
      rw [htype]
      decide
    rw [hbase, hcnt] at hapart
    rw [hbase, hbuf hapart (by omega), haddr, (h.write hapart hwrite).bytes hbase j (by omega)]

/-- The rounds of a process whose segment starts at 0. -/
theorem CopyRequest.wp_rwLoop {len n c : Nat} (h : CopyRequest s pid d p) (hbase : s.base pid = 0)
    (hcnt : s.fsMsg.cnt = (len : Int)) (hoff : s.off d = (off : Int)) (hlt : off < 512) (hn : 0 < n)
    (hc : min n 2048 = c) :
    wp (rwLoop ⟨s.fsMsg.type, s.fsMsg.source, s.fsMsg.buf, d, rootDev, (c : Nat)⟩
        (s.rwSectMin d p + n - 1) n (s.rwSectMin d p) off 0 len) (RoundsDone s pid d p)
      (fun _ => OwnSegments s pid d) s := by
  have hlen := h.cnt_lt
  have hmod : off % 512 = off := Nat.mod_eq_of_lt hlt
  generalize hi : ({ iStartSect := BitVec.ofInt 32 (s.rwSectMin d p) } : Inode) = i
  refine wp_rwLoop_start (c := c) (I := fun r u => ∃ k : Nat, movedBytes c off len r = k ∧ k ≤ len ∧
    PartlyCopied s pid d i off len r k u) rfl (by omega) ?_ ?_ ⟨0, rfl, Nat.zero_le _, .start⟩
  · rintro r u hr ⟨k, hk, -, hu⟩
    have hk' : movedBytes c (off % 512) len r = k := by
      rwa [hmod]
    obtain ⟨b, hb, hb'⟩ := exists_rangeRound (i := i) hc hr hk'
    rw [hmod] at hb
    obtain ⟨l, -, -, hstate⟩ := hu.state
    have hbase' : u.base pid = 0 := by
      rw [hstate]
      exact hbase
    have hsect : sectPos (s.rwSectMin d p + (c * r : Nat)) =
        sectPos ((i.iStartSect.toNat : Int) + (off / 512 : Nat) + (c * r : Nat)) := by
      rw [Nat.div_eq_of_lt hlt, Nat.cast_zero, Int.add_zero, ← hi, sectPos_ofInt]
    rw [wp_rwChunk rfl h.source (.inl hbase'), hbase', hb, hk,
      show ((k + b : Nat) : Int) - k = (b : Nat) by omega]
    exact ⟨k + b, rfl, hb'.le, hu.round hlt (by omega) hbase hb' hsect rfl⟩
  · rintro r u - ⟨k, hk, hle, hu⟩
    rw [hk]
    subst hi
    exact hu.roundsDone hbase hcnt hoff hlt hle

/-- A request translates every pointer with its owner's segment when it has no bytes to copy or no
sectors to take them from, or comes from a process whose segment starts at 0. -/
theorem CopyRequest.wp_rwFile_of (h : CopyRequest s pid d p)
    (hcond : s.fsMsg.cnt = 0 ∨ s.rwSectMax d p < s.rwSectMin d p ∨
      s.base pid = 0 ∧ 0 ≤ s.fsMsg.cnt ∧ 0 ≤ s.off d) :
    wp (rwFile d p s.fsMsg.cnt) (fun r u => OwnSegments s pid d u ∧
      (CallerApart (s.base pid) s.fsMsg.buf s.fsMsg.cnt → Delivered s pid d p r u))
        (fun _ => OwnSegments s pid d) s := by
  rw [h.toFileRequest.wp_rwFile h.type rfl rfl]
  have hloop : wp (rwLoop ⟨s.fsMsg.type, s.fsMsg.source, s.fsMsg.buf, d, rootDev,
      min (s.rwSectMax d p - s.rwSectMin d p + 1) 2048⟩ (s.rwSectMax d p)
      (s.rwSectMax d p - s.rwSectMin d p + 1).toNat (s.rwSectMin d p) (s.off d) 0 s.fsMsg.cnt)
      (RoundsDone s pid d p) (fun _ => OwnSegments s pid d) s := by
    have hoff : s.off d < 512 := Int.tmod_lt_of_pos _ (by decide)
    rcases lt_or_ge (s.rwSectMax d p) (s.rwSectMin d p) with hlt | hle
    · rw [Int.toNat_of_nonpos (by omega), rwLoop, if_neg (by omega)]
      exact .start
    · rcases hcond with hcnt | hlt | ⟨hbase, hcnt, hpos⟩
      · rw [hcnt]
        exact wp_rwLoop_nothing .start hcnt h.segment h.source rfl rfl (by dsimp only; omega)
          (by dsimp only; omega) hoff.le
      · omega
      · obtain ⟨len, hlen⟩ := Int.eq_ofNat_of_zero_le hcnt
        obtain ⟨off, hoff'⟩ := Int.eq_ofNat_of_zero_le hpos
        obtain ⟨n, hn⟩ := Int.eq_ofNat_of_zero_le (show 0 ≤ s.rwSectMax d p - s.rwSectMin d p + 1 by omega)
        have hmax : s.rwSectMax d p = s.rwSectMin d p + n - 1 := by omega
        have hrun := h.wp_rwLoop hbase hlen hoff' (by omega) (show 0 < n by omega) rfl
        have hchunk : min (n : Int) 2048 = (min n 2048 : Nat) := by omega
        rwa [hn, hmax, hlen, hoff', Int.toNat_natCast, hchunk]
  refine hloop.mono (fun r u hu => ?_) fun _ _ he => he
  obtain ⟨k, rfl, hk, hstate⟩ := hu.state
  have hinode : u.inodeTable = s.inodeTable := by
    rw [hstate]
    rfl
  refine wp_afterLoop hu.own hu.delivered hk ?_ ?_ ?_
  · rw [hinode]
    exact h.dev
  · rw [hinode]
  · rw [hstate]
    rfl

/-! ## The first copy stays -/

/-- The copies in `C` were made. -/
def CopyMade (C : List PhysCopy) (u : Fs) : Prop := ∃ l, u.copies = l ++ C

section

variable {C : List PhysCopy}

theorem copyMade_rwSector {ioType dev : Int} {pos : BitVec 32} {n : Nat} :
    Preserves (CopyMade C) (rwSector ioType dev pos n) := fun _ hs =>
  wp_rwSector_of hs (fun _ => hs) fun _ => hs

theorem copyMade_procAt {x : Int} : Preserves (CopyMade C) (procAt x) := by
  rw [procAt]
  split
  · exact .pure _
  · exact .throw _

theorem copyMade_fsVa2la {va : Addr} : Preserves (CopyMade C) (fsVa2la pid va) :=
  .bind .get fun _ => .bind (.onlyIf .ensure) fun _ => .pure _

theorem copyMade_physCopy {a b : Addr} {n : Int} : Preserves (CopyMade C) (physCopy a b n) :=
  .modify fun _ ⟨l, hl⟩ => ⟨_ :: l, congrArg (List.cons _) hl⟩

theorem copyMade_setDesc {f : FileDesc → FileDesc} : Preserves (CopyMade C) (setDesc d f) :=
  .modify fun _ hs => hs

theorem copyMade_rwChunk {y o bytesRw bytes : Int} : Preserves (CopyMade C) (rwChunk t y o bytesRw bytes) :=
  .bind copyMade_rwSector fun _ => .bind copyMade_procAt fun _ => .bind copyMade_fsVa2la fun _ =>
    .bind copyMade_fsVa2la fun _ => .ite (.bind copyMade_physCopy fun _ => copyMade_setDesc)
      (.bind copyMade_physCopy fun _ => .bind copyMade_rwSector fun _ => copyMade_setDesc)

theorem copyMade_rwLoop {max y o k left : Int} {fuel : Nat} :
    Preserves (CopyMade C) (rwLoop t max fuel y o k left) := by
  induction fuel generalizing y o k left with
  | zero => exact .ite (.throw _) (.pure _)
  | succ fuel ih => exact .ite (.bind copyMade_rwChunk fun _ => ih) (.pure _)

theorem copyMade_syncInode : Preserves (CopyMade C) (syncInode p) := by
  refine .bind .get fun s => .bind ?_ fun _ => .bind copyMade_rwSector fun _ =>
    .bind (.ite (.pure _) (.throw _)) fun _ => .bind (.modify fun _ hs => hs) fun _ => copyMade_rwSector
  refine .bind .get fun s => ?_
  split
  · exact .pure _
  · exact .throw _

end

/-- The first copy of a request is as it should be. -/
theorem OwnSegments.first (h : OwnSegments s pid d u) {x : PhysCopy} (hx : CopyMade (x :: s.copies) u) :
    OwnCopy s.fsMsg.type (s.base pid) s.fsMsg.buf s.fsMsg.cnt 0 (s.off d) x := by
  obtain ⟨k, l, hl, hown⟩ := h.copies
  obtain ⟨l', hl'⟩ := hx
  have hsplit : l = l' ++ [x] := List.append_cancel_right (by rw [← hl, hl']; simp)
  exact (hsplit ▸ hown).first

/-- The first round makes the first copy. -/
theorem CopyRequest.first_copyMade (h : CopyRequest s pid d p)
    (hflag : hasFlag (s.fDescTable d).fdMode oRdwr) {chunk bytes : Int}
    (hle : s.rwSectMin d p ≤ s.rwSectMax d p)
    (hchunk : min (s.rwSectMax d p - s.rwSectMin d p + 1) 2048 = chunk)
    (hbytes : min s.fsMsg.cnt (chunk * (sectorSize : Nat) - s.off d) = bytes) :
    let x := roundCopy ⟨s.fsMsg.type, s.fsMsg.source, s.fsMsg.buf, d, rootDev, chunk⟩ (s.base pid)
      (s.off d) 0 bytes
    wp doRdwt (fun _ => CopyMade (x :: s.copies)) (fun _ => CopyMade (x :: s.copies)) s := by
  intro x
  rw [h.toFileRequest.wp_doRdwt, if_pos hflag, h.toFileRequest.wp_rwFile h.type rfl rfl]
  change wp (rwLoop ⟨_, _, _, _, _, min (s.rwSectMax d p - s.rwSectMin d p + 1) 2048⟩ (s.rwSectMax d p)
    (s.rwSectMax d p - s.rwSectMin d p + 1).toNat (s.rwSectMin d p) (s.off d) 0 s.fsMsg.cnt) _ _ s
  obtain ⟨n, hn⟩ : ∃ n, (s.rwSectMax d p - s.rwSectMin d p + 1).toNat = n + 1 :=
    Nat.exists_eq_succ_of_ne_zero (by omega)
  rw [hchunk, hn, rwLoop, if_pos hle]
  dsimp only
  rw [hbytes, wp_bind, wp_rwChunk rfl h.source h.segment]
  have hstart : CopyMade (x :: s.copies) (s.afterCopy (s.base pid)
      ⟨s.fsMsg.type, s.fsMsg.source, s.fsMsg.buf, d, rootDev, chunk⟩ (s.rwSectMin d p) (s.off d) 0
        bytes) := ⟨[], rfl⟩
  refine (copyMade_rwLoop _ hstart).mono (fun r u hu => ⟨fun _ => ?_, fun _ => hu⟩) fun _ _ hu => hu
  exact copyMade_syncInode _ hu

/-- When there is a byte to copy, the first copy shows that the segment starts at 0. -/
theorem CopyRequest.base_of_ownSegments (h : CopyRequest s pid d p)
    (hflag : hasFlag (s.fDescTable d).fdMode oRdwr) (hcnt : s.fsMsg.cnt ≠ 0)
    (hle : s.rwSectMin d p ≤ s.rwSectMax d p)
    (hw : wp doRdwt (fun _ => OwnSegments s pid d) (fun _ => OwnSegments s pid d) s) :
    s.base pid = 0 ∧ 0 ≤ s.fsMsg.cnt ∧ 0 ≤ s.off d := by
  have hge := h.cnt_ge
  have hlt := h.cnt_lt
  have hoff : s.off d < 512 := Int.tmod_lt_of_pos _ (by decide)
  have hoff' : -512 < s.off d := Int.lt_tmod_of_pos _ (by decide)
  obtain ⟨chunk, hchunk⟩ : ∃ chunk, min (s.rwSectMax d p - s.rwSectMin d p + 1) 2048 = chunk := ⟨_, rfl⟩
  obtain ⟨bytes, hbytes⟩ : ∃ bytes, min s.fsMsg.cnt (chunk * (sectorSize : Nat) - s.off d) = bytes :=
    ⟨_, rfl⟩
  have hcopy := (hw.and (h.first_copyMade hflag hle hchunk hbytes)).elim (fun _ u hu => hu.1.first hu.2)
    fun _ u hu => hu.1.first hu.2
  have hsize : (BitVec.ofInt 32 bytes).toNat = (bytes % 2 ^ 32).toNat := BitVec.toNat_ofInt bytes
  rw [show ((sectorSize : Nat) : Int) = 512 from rfl] at hbytes
  rcases hcopy with hzero | ⟨-, hserver, hle', hpos, -⟩
  · rw [roundCopy_size] at hzero
    have := congrArg BitVec.toNat hzero
    rw [hsize, show BitVec.toNat (0 : BitVec 32) = 0 from rfl] at this
    omega
  · have hfs := (roundCopy_server (t :=
      ⟨s.fsMsg.type, s.fsMsg.source, s.fsMsg.buf, d, rootDev, chunk⟩)).symm.trans hserver
    exact ⟨BitVec.add_left_eq_self.mp hfs, by omega, hpos⟩

/-- A request translates every pointer with its owner's segment exactly when there is nothing to copy, or
the segment of the process starts at 0, as that of FS does. -/
theorem doRdwt_ownSegments_iff (h : CopyRequest s pid d p) :
    wp doRdwt (fun r u => OwnSegments s pid d u ∧
      (CallerApart (s.base pid) s.fsMsg.buf s.fsMsg.cnt → Delivered s pid d p r u))
        (fun _ => OwnSegments s pid d) s ↔
      ¬hasFlag (s.fDescTable d).fdMode oRdwr ∨ s.fsMsg.cnt = 0 ∨
        s.rwSectMax d p < s.rwSectMin d p ∨
          s.base pid = 0 ∧ 0 ≤ s.fsMsg.cnt ∧ 0 ≤ s.off d := by
  constructor
  · intro hw
    by_contra hnot
    obtain ⟨hflag, hnot⟩ := not_or.mp hnot
    obtain ⟨hcnt, hnot⟩ := not_or.mp hnot
    obtain ⟨hle, hnot⟩ := not_or.mp hnot
    exact hnot (h.base_of_ownSegments (not_not.mp hflag) hcnt (not_lt.mp hle)
      (hw.mono (fun _ _ hu => hu.1) fun _ _ hu => hu))
  · intro hcond
    rw [h.toFileRequest.wp_doRdwt]
    split_ifs with hflag
    · exact h.wp_rwFile_of (hcond.resolve_left (not_not.mpr hflag))
    · exact ⟨⟨⟨0, [], rfl, .nil⟩, fun _ _ _ => rfl⟩, fun _ =>
        ⟨fun _ j hj => absurd hj (by omega), fun _ _ _ j hj => absurd hj (by omega)⟩⟩

end

/-- A process that was forked, with its request to read `len` bytes from the start of a file of 10. -/
def forkedReader (len : Nat) : Fs := { shortFile len with
  procTable _ := { ldts := fun _ => { baseMid := 0xA0 } }
  pcaller := 9
  fsMsg := { source := 9, type := MsgType.read, u := { m3i2 := len, m3p2 := 0x1000 } } }

theorem copyRequest_shortFile {len : Nat} (h : len < 2 ^ 20) : CopyRequest (shortFile len) 6 0 0 where
  toFileRequest := (shortFile_request h).toFileRequest
  type := .inl rfl
  segment := .inl (shortFile_request h).base
  cnt_ge := by
    change -2 ^ 31 ≤ (len : Int)
    omega
  cnt_lt := by
    change (len : Int) < 2 ^ 31
    omega

theorem doRdwt_ownSegments_shortFile :
    wp doRdwt (fun r u => OwnSegments (shortFile 10) 6 0 u ∧
      (CallerApart ((shortFile 10).base 6) (shortFile 10).fsMsg.buf (shortFile 10).fsMsg.cnt →
        Delivered (shortFile 10) 6 0 0 r u)) (fun _ => OwnSegments (shortFile 10) 6 0) (shortFile 10) :=
  (doRdwt_ownSegments_iff (copyRequest_shortFile (by decide))).mpr
    (.inr (.inr (.inr ⟨(shortFile_request (by decide)).base, by decide, by decide⟩)))

theorem copyRequest_forkedReader : CopyRequest (forkedReader 10) 9 0 0 where
  source := rfl
  caller := rfl
  filp := ⟨0, rfl, rfl⟩
  inode := rfl
  mode := .inl rfl
  dev := rfl
  type := .inl rfl
  segment := .inr (by decide)
  cnt_ge := by decide
  cnt_lt := by decide

/-- What a forked process reads is copied from its own memory. -/
theorem not_ownSegments_forkedReader :
    CopyRequest (forkedReader 10) 9 0 0 ∧
      ¬wp doRdwt (fun r u => OwnSegments (forkedReader 10) 9 0 u ∧
        (CallerApart ((forkedReader 10).base 9) (forkedReader 10).fsMsg.buf (forkedReader 10).fsMsg.cnt →
          Delivered (forkedReader 10) 9 0 0 r u)) (fun _ => OwnSegments (forkedReader 10) 9 0)
          (forkedReader 10) := by
  refine ⟨copyRequest_forkedReader, fun hw => ?_⟩
  have hbase := copyRequest_forkedReader.base_of_ownSegments (by decide) (by decide) (by decide)
    (hw.mono (fun _ _ hu => hu.1) fun _ _ hu => hu)
  exact absurd hbase.1 (by decide)

end Dlos
