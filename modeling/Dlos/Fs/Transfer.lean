import Dlos.Fs.Device
import Dlos.Fs.ReadWrite

/-!
# The loop of `do_rdwt`

The loop moves bytes in rounds of the same number of sectors. Only the first round starts in the
middle of a sector, and the last ones may have nothing left to move.
-/

namespace Dlos

open Program Bytes

/-- The number of bytes moved before round `r`, in rounds of `c` sectors, from offset `off` on. -/
def movedBytes (c off : Nat) (len : Int) (r : Nat) : Int :=
  if r = 0 then 0 else min len (512 * (c * r : Nat) - off)

/-- The offset that a round starts at. -/
def roundOff (off r : Nat) : Nat := if r = 0 then off else 0

section

variable {s u : Fs} {E : Halt → Fs → Prop} {m : Store} {dst src c off n r : Nat} {len lo : Int}
  {t : Transfer}

theorem movedBytes_succ (hc : 0 < c) :
    movedBytes c off len (r + 1) = movedBytes c off len r +
      min (len - movedBytes c off len r) (c * (512 : Nat) - roundOff off r) := by
  unfold movedBytes roundOff
  by_cases hr : r = 0
  · subst hr
    rw [if_neg (by omega), if_pos rfl, if_pos rfl, Nat.zero_add, Nat.mul_one]
    omega
  · rw [if_neg (by omega), if_neg hr, if_neg hr, Nat.mul_succ]
    have : 0 < c * r := Nat.mul_pos hc (by omega)
    generalize c * r = q at this ⊢
    omega

/-- What every round of `c` sectors takes one step further holds at the end, when the rounds have
covered the `n` sectors from sector `lo` on. -/
theorem wp_rwLoop {I : Nat → Fs → Prop} {Q : Int → Fs → Prop} (hchunk : t.chunk = c) (hc : 0 < c)
    (hround : ∀ r s, c * r < n → I r s → wp (rwChunk t (lo + (c * r : Nat)) (roundOff off r)
      (movedBytes c off len r) (movedBytes c off len (r + 1) - movedBytes c off len r))
      (fun _ => I (r + 1)) E s)
    (hend : ∀ r s, n ≤ c * r → I r s → Q (movedBytes c off len r) s) {fuel : Nat}
    (hfuel : n ≤ c * r + fuel) (hI : I r s) :
    wp (rwLoop t (lo + n - 1) fuel (lo + (c * r : Nat)) (roundOff off r) (movedBytes c off len r)
      (len - movedBytes c off len r)) Q E s := by
  induction fuel generalizing r s with
  | zero =>
    rw [rwLoop, if_neg (by omega), wp_pure]
    exact hend r s hfuel hI
  | succ fuel ih =>
    rw [rwLoop, wp_ite]
    refine ⟨fun hle => ?_, fun hgt => hend r s (by omega) hI⟩
    have hnext : movedBytes c off len (r + 1) = movedBytes c off len r +
        min (len - movedBytes c off len r) (c * (512 : Nat) - roundOff off r) := movedBytes_succ hc
    have hbytes : min (len - movedBytes c off len r) (t.chunk * (sectorSize : Nat) - roundOff off r) =
        movedBytes c off len (r + 1) - movedBytes c off len r := by
      rw [hchunk, hnext, show sectorSize = 512 from rfl]
      omega
    rw [wp_bind, hbytes]
    refine (hround r s (by omega) hI).mono (fun _ u hu => ?_) fun _ _ h => h
    have hrest := ih (r := r + 1) (s := u) (by rw [Nat.mul_succ]; omega) hu
    have hsect : lo + (c * (r + 1) : Nat) = lo + (c * r : Nat) + t.chunk := by
      rw [hchunk, Nat.mul_succ]
      omega
    have hoff' : (roundOff off (r + 1) : Int) = 0 := rfl
    rw [hsect, hoff', show movedBytes c off len (r + 1) = movedBytes c off len r +
      (movedBytes c off len (r + 1) - movedBytes c off len r) by omega] at hrest
    rwa [show len - movedBytes c off len r - (movedBytes c off len (r + 1) -
      movedBytes c off len r) = len - (movedBytes c off len r + (movedBytes c off len (r + 1) -
        movedBytes c off len r)) by omega]

/-- The whole loop. -/
theorem wp_rwLoop_start {I : Nat → Fs → Prop} {Q : Int → Fs → Prop} (hchunk : t.chunk = c)
    (hc : 0 < c)
    (hround : ∀ r s, c * r < n → I r s → wp (rwChunk t (lo + (c * r : Nat)) (roundOff off r)
      (movedBytes c off len r) (movedBytes c off len (r + 1) - movedBytes c off len r))
      (fun _ => I (r + 1)) E s)
    (hend : ∀ r s, n ≤ c * r → I r s → Q (movedBytes c off len r) s) (hI : I 0 s) :
    wp (rwLoop t (lo + n - 1) n lo off 0 len) Q E s := by
  have := wp_rwLoop (r := 0) hchunk hc hround hend (show n ≤ c * 0 + n by omega) hI
  have hlen : len - movedBytes c off len 0 = len := Int.sub_zero len
  rwa [Nat.mul_zero, Nat.cast_zero, Int.add_zero, hlen] at this

/-! ## Copying -/

/-- A copy between ranges that do not meet. -/
theorem memcpy_eq_blit (hd : dst + n ≤ 2 ^ 32) (hs : src + n ≤ 2 ^ 32)
    (hapart : dst + n ≤ src ∨ src + n ≤ dst) :
    memcpy m (BitVec.ofNat 32 dst) (BitVec.ofNat 32 src) n = blit m dst m src n := by
  induction n generalizing m dst src with
  | zero =>
    funext a
    rw [memcpy, blit_of_notMem (by omega)]
  | succ n ih =>
    have hdst : (BitVec.ofNat 32 dst).toNat = dst := Nat.mod_eq_of_lt (by omega)
    have hsrc : (BitVec.ofNat 32 src).toNat = src := Nat.mod_eq_of_lt (by omega)
    have hnext (x : Nat) : BitVec.ofNat 32 x + 1 = BitVec.ofNat 32 (x + 1) := (BitVec.ofNat_add x 1).symm
    rw [memcpy, hdst, hsrc, hnext, hnext, ih (by omega) (by omega) (by omega)]
    funext a
    by_cases ha : dst + 1 ≤ a ∧ a < dst + 1 + n
    · rw [blit_of_mem ha.1 ha.2, blit_of_mem (by omega) (by omega),
        Function.update_of_ne (by omega)]
      congr 1
      omega
    · rw [blit_of_notMem (by omega)]
      by_cases ha' : a = dst
      · subst ha'
        rw [Function.update_self, blit_of_mem (by omega) (by omega), Nat.sub_self, Nat.add_zero]
      · rw [Function.update_of_ne ha', blit_of_notMem (by omega)]

/-- Outside its destination a copy changes nothing. -/
theorem memcpy_of_notMem {a b : Addr} {x : Nat} (hn : a.toNat + n ≤ 2 ^ 32)
    (hx : x < a.toNat ∨ a.toNat + n ≤ x) : memcpy m a b n x = m x := by
  induction n generalizing m a b with
  | zero => rfl
  | succ n ih =>
    rw [memcpy]
    rcases Nat.eq_zero_or_pos n with rfl | hpos
    · exact Function.update_of_ne (by omega) _ _
    · have hnext : (a + 1).toNat = a.toNat + 1 := by
        rw [BitVec.toNat_add]
        exact Nat.mod_eq_of_lt (by change a.toNat + 1 < 2 ^ 32; omega)
      rw [ih (by omega) (by omega), Function.update_of_ne (by omega)]

section

variable {a b : Addr}

theorem add_ofNat_succ {i : Nat} : a + BitVec.ofNat 32 (i + 1) = a + 1 + BitVec.ofNat 32 i := by
  rw [BitVec.add_assoc, BitVec.add_comm 1, BitVec.ofNat_add i 1]
  rfl

/-- Outside its destination, which may wrap around, a copy changes nothing. -/
theorem memcpy_of_ne {x : Nat} (h : ∀ i < n, x ≠ (a + BitVec.ofNat 32 i).toNat) :
    memcpy m a b n x = m x := by
  induction n generalizing m a b with
  | zero => rfl
  | succ n ih =>
    have hfirst := h 0 (Nat.succ_pos n)
    rw [BitVec.add_zero] at hfirst
    rw [memcpy, ih fun i hi => add_ofNat_succ (a := a) ▸ h (i + 1) (Nat.succ_lt_succ hi),
      Function.update_of_ne hfirst]

end

/-- The address of a process. -/
theorem wp_fsVa2la_of {pid : Pid} {va : Addr} {Q : Addr → Fs → Prop}
    (h : ldtSegLinear (s.procTable pid) indexLdtRw = 0 ∨ nrTasks + nrNativeProcs ≤ pid.val) :
    wp (fsVa2la pid va) Q E s ↔ Q (ldtSegLinear (s.procTable pid) indexLdtRw + va) s := by
  rw [fsVa2la, wp_bind, wp_get, wp_linear_of h]

/-- An address of a process whose segment starts at 0. -/
theorem wp_fsVa2la_of_zero {pid : Pid} {va : Addr} {Q : Addr → Fs → Prop}
    (hbase : ldtSegLinear (s.procTable pid) indexLdtRw = 0) : wp (fsVa2la pid va) Q E s ↔ Q va s := by
  have hla : ldtSegLinear (s.procTable pid) indexLdtRw + va = va := by
    rw [hbase]
    exact BitVec.zero_add va
  rw [wp_fsVa2la_of (.inl hbase), hla]

/-! ## Requests -/

/-- A request of a process for a file or a directory of the root device. -/
structure FileRequest (s : Fs) (pid : Pid) (d : Fin nrFileDesc) (p : Fin nrInode) : Prop where
  source : pidOf s.fsMsg.source = some pid
  caller : s.pcaller = pid
  filp : ∃ fd : Fin nrFiles, s.fsMsg.fd = fd.val ∧ s.filp pid fd = some d
  inode : (s.fDescTable d).fdInode = some p
  mode : (s.inodeTable p).iMode = iRegular ∨ (s.inodeTable p).iMode = iDirectory
  dev : (s.inodeTable p).iDev = rootDev

theorem wp_filpIndex {fd : Fin nrFiles} {Q : Fin nrFiles → Fs → Prop} :
    wp (filpIndex fd.val) Q E s ↔ Q fd s := by
  rw [filpIndex, dif_pos (by omega)]
  exact Iff.rfl

theorem FileRequest.wp_doRdwt {pid : Pid} {d : Fin nrFileDesc} {p : Fin nrInode}
    {Q : Int → Fs → Prop} (h : FileRequest s pid d p) : wp doRdwt Q E s ↔
      if hasFlag (s.fDescTable d).fdMode oRdwr then wp (rwFile d p s.fsMsg.cnt) Q E s
      else Q (-1) s := by
  obtain ⟨fd, hfd, hd⟩ := h.filp
  have hmode : (s.inodeTable p).iMode &&& iTypeMask ≠ iCharSpecial := by
    rcases h.mode with hm | hm <;> rw [hm] <;> decide
  rw [doRdwt, wp_bind, wp_get, hfd, wp_bind, wp_filpIndex, h.caller, hd]
  dsimp only
  by_cases hflag : hasFlag (s.fDescTable d).fdMode oRdwr
  · rw [if_neg (not_not.mpr hflag), if_pos hflag, h.inode]
    dsimp only
    rw [if_neg hmode]
  · rw [if_pos hflag, if_neg hflag, wp_pure]

/-! ## Sectors of a position -/

variable {i : Inode} {pos lim : Nat}

theorem rwSect_eq {x : Int} (h : -2 ^ 31 ≤ i.iStartSect.toNat + x / 512)
    (h' : i.iStartSect.toNat + x / 512 < 2 ^ 31) : rwSect i x = i.iStartSect.toNat + x / 512 := by
  have hsum : i.iStartSect + BitVec.ofInt 32 (x / 512) =
      BitVec.ofInt 32 (i.iStartSect.toNat + x / 512) := by
    rw [BitVec.ofInt_add, BitVec.ofInt_natCast, BitVec.ofNat_toNat, BitVec.setWidth_eq]
  rw [rwSect, show ((sectorSize : Nat) : Int) = 512 from rfl, hsum, BitVec.toInt_ofInt]
  exact Int.bmod_eq_of_le (by omega) (by omega)

/-- The smaller of two unsigned numbers, the first of them a sum of two `int`s. -/
theorem toInt_min_reach {k : Nat} {w : BitVec 32} (hpos : pos < 2 ^ 31) (hk : k < 2 ^ 31) :
    (if BitVec.ofInt 32 ((pos : Int) + k) < w then BitVec.ofInt 32 ((pos : Int) + k) else w).toInt =
      Int.bmod (min (pos + k) w.toNat : Nat) (2 ^ 32) := by
  have hreach : (BitVec.ofInt 32 ((pos : Int) + k)).toNat = pos + k := by
    rw [BitVec.toNat_ofInt]
    omega
  rw [BitVec.toInt_eq_toNat_bmod]
  split_ifs with hlt
  · rw [BitVec.lt_def, hreach] at hlt
    rw [hreach, min_eq_left hlt.le]
  · rw [BitVec.lt_def, hreach, not_lt] at hlt
    rw [min_eq_right hlt]

/-- The end of a READ, as an unsigned number that is kept in an `int`. -/
theorem posEnd_read {k : Nat} (hpos : pos < 2 ^ 31) (hk : k < 2 ^ 31) :
    posEnd MsgType.read pos k i = Int.bmod (min (pos + k) i.iSize.toNat : Nat) (2 ^ 32) := by
  rw [posEnd, if_pos rfl]
  exact toInt_min_reach hpos hk

/-- `pin->i_nr_sects * SECTOR_SIZE`, an unsigned number -/
def reserved (i : Inode) : Nat := (i.iNrSects * BitVec.ofNat 32 sectorSize).toNat

theorem posEnd_write {k : Nat} (hpos : pos < 2 ^ 31) (hk : k < 2 ^ 31) :
    posEnd MsgType.write pos k i = Int.bmod (min (pos + k) (reserved i) : Nat) (2 ^ 32) := by
  rw [posEnd, if_neg (show ¬MsgType.write = MsgType.read by decide)]
  exact toInt_min_reach hpos hk

/-- `rwFile` is its loop between the two sectors and the update of the file's size. -/
theorem FileRequest.wp_rwFile {pid : Pid} {d : Fin nrFileDesc} {p : Fin nrInode}
    {Q : Int → Fs → Prop} {lo hi : Int} (h : FileRequest s pid d p)
    (htype : s.fsMsg.type = MsgType.read ∨ s.fsMsg.type = MsgType.write)
    (hlo : rwSect (s.inodeTable p) (s.fDescTable d).fdPos = lo)
    (hhi : rwSect (s.inodeTable p)
      (posEnd s.fsMsg.type (s.fDescTable d).fdPos len (s.inodeTable p)) = hi) :
    wp (rwFile d p len) Q E s ↔
      wp (rwLoop ⟨s.fsMsg.type, s.fsMsg.source, s.fsMsg.buf, d, rootDev, min (hi - lo + 1) 2048⟩ hi
          (hi - lo + 1).toNat lo ((s.fDescTable d).fdPos.tmod 512) 0 len)
        (fun r u =>
          (BitVec.ofInt 32 (u.fDescTable d).fdPos > (u.inodeTable p).iSize →
            wp (syncInode p) (fun _ => Q r) E
              (u.setInode p ({ · with iSize := BitVec.ofInt 32 (u.fDescTable d).fdPos }))) ∧
          (¬BitVec.ofInt 32 (u.fDescTable d).fdPos > (u.inodeTable p).iSize → Q r u)) E s := by
  rw [rwFile, wp_bind, wp_get, wp_bind, wp_assert_of h.mode, wp_bind, wp_assert_of htype, hlo, hhi,
    h.dev, wp_bind]
  simp only [wp_bind, wp_get, wp_onlyIf, wp_setInode, wp_pure, Nat.cast_ofNat,
    show fsbufSize / sectorSize = 2048 from rfl]

end

/-! ## Requests for a range -/

/-- The address on the disk of byte `x` of a file. -/
def fileAddr (i : Inode) (x : Nat) : Nat := 512 * i.iStartSect.toNat + x

/-- Where byte `j` of a READ from `pos` on comes from: the loop computes the position of every
2048 sectors anew, modulo 2 ^ 32. -/
def readAddr (i : Inode) (pos j : Nat) : Nat :=
  (512 * (i.iStartSect.toNat + pos / 512) + 2 ^ 20 * ((pos % 512 + j) / 2 ^ 20)) % 2 ^ 32 +
    (pos % 512 + j) % 2 ^ 20

theorem readAddr_of_round {i : Inode} {pos j r : Nat} (h : 2 ^ 20 * r ≤ pos % 512 + j)
    (h' : pos % 512 + j < 2 ^ 20 * (r + 1)) : readAddr i pos j =
      (512 * (i.iStartSect.toNat + pos / 512 + 2048 * r)) % 2 ^ 32 +
        (pos % 512 + j - 2 ^ 20 * r) := by
  have hr : (pos % 512 + j) / 2 ^ 20 = r := by
    omega
  rw [readAddr, hr]
  omega

/-- Different bytes of a request are at different addresses. -/
theorem readAddr_injective {i : Inode} {pos j k : Nat} (hj : j < 2 ^ 31) (hk : k < 2 ^ 31)
    (h : readAddr i pos j = readAddr i pos k) : j = k := by
  unfold readAddr at h
  omega

/-- The range of `len` bytes from `pos` on of a file for which the request ends at `lim`. -/
structure RangeRequest (s : Fs) (pid : Pid) (d : Fin nrFileDesc) (p : Fin nrInode)
    (pos len lim : Nat) : Prop extends FileRequest s pid d p where
  type : s.fsMsg.type = MsgType.read ∨ s.fsMsg.type = MsgType.write
  fdPos : (s.fDescTable d).fdPos = (pos : Int)
  pos_le : pos ≤ lim
  pos_lt : pos < 2 ^ 31
  len_lt : len < 2 ^ 31
  posEnd : posEnd s.fsMsg.type pos len (s.inodeTable p) =
    Int.bmod (min (pos + len) lim : Nat) (2 ^ 32)
  /-- The driver addresses sectors with 28 bits. -/
  onDisk : 512 * (s.inodeTable p).iStartSect.toNat + lim ≤ 512 * 2 ^ 28

/-- The rounds of a transfer: round `r`, with `c` sectors, moves `b` bytes after the first `k`. -/
structure RangeRound (i : Inode) (pos len c r k b : Nat) : Prop where
  le : k + b ≤ len
  chunk : c ≤ 2048
  fits : roundOff (pos % 512) r + b ≤ 512 * c
  addr : ∀ j < b, readAddr i pos (k + j) =
    (sectPos ((i.iStartSect.toNat : Int) + (pos / 512 : Nat) + (c * r : Nat))).toNat +
      (roundOff (pos % 512) r + j)

section

variable {i : Inode} {pos len n c r k : Nat}

/-- Every round takes its part of the range. -/
theorem exists_rangeRound (hc : min n 2048 = c)
    (hr : c * r < n) (hk : movedBytes c (pos % 512) len r = k) :
    ∃ b : Nat, movedBytes c (pos % 512) len (r + 1) = (k + b : Nat) ∧
      RangeRound i pos len c r k b := by
  have hmoved : ∀ r, 0 < r → movedBytes c (pos % 512) len r =
      min (len : Int) (512 * (c * r : Nat) - (pos % 512 : Nat)) := fun r hr => if_neg hr.ne'
  have hcr : c * r = 2048 * r := by
    rcases le_or_gt n 2048 with hle | hgt
    · have hr0 : r = 0 := by
        by_contra hr0
        have := Nat.mul_le_mul_left c (Nat.pos_of_ne_zero hr0)
        omega
      rw [hr0, Nat.mul_zero, Nat.mul_zero]
    · rw [show c = 2048 by omega]
  have hnext := hmoved (r + 1) (Nat.succ_pos r)
  rw [Nat.mul_succ, hcr] at hnext
  have hk' : k = 0 ∧ r = 0 ∨ 0 < r ∧ c = 2048 ∧ k = min len (2 ^ 20 * r - pos % 512) := by
    rcases Nat.eq_zero_or_pos r with rfl | hr0
    · exact .inl ⟨Int.ofNat_inj.mp hk.symm, rfl⟩
    · rw [hmoved r hr0, hcr] at hk
      exact .inr ⟨hr0, Nat.eq_of_mul_eq_mul_right hr0 hcr, by omega⟩
  obtain ⟨b, hb⟩ : ∃ b : Nat, movedBytes c (pos % 512) len (r + 1) = (k + b : Nat) :=
    ⟨(movedBytes c (pos % 512) len (r + 1) - k).toNat, by omega⟩
  refine ⟨b, hb, by omega, by omega, ?_, fun j hj => ?_⟩
  · rw [roundOff]
    split_ifs <;> omega
  · have hsect : (sectPos ((i.iStartSect.toNat : Int) + (pos / 512 : Nat) + (c * r : Nat))).toNat =
        (512 * (i.iStartSect.toNat + pos / 512 + 2048 * r)) % 2 ^ 32 := by
      rw [hcr, ← toNat_sectPos_mod]
      norm_cast
    rw [hsect, readAddr_of_round (r := r) (by omega) (by omega), roundOff]
    refine Nat.add_left_cancel_iff.mpr ?_
    split_ifs <;> omega

/-- The rounds move the whole range. -/
theorem movedBytes_range (hn : n + pos / 512 = (pos + len) / 512 + 1) (hr : n ≤ c * r) :
    movedBytes c (pos % 512) len r = len := by
  have hr0 : r ≠ 0 := by
    rintro rfl
    omega
  rw [movedBytes, if_neg hr0]
  generalize c * r = q at *
  omega

end

namespace RangeRequest

variable {s : Fs} {pid : Pid} {d : Fin nrFileDesc} {p : Fin nrInode} {pos len lim : Nat}
  {E : Halt → Fs → Prop} {Q : Int → Fs → Prop}

theorem rwSect_min (h : RangeRequest s pid d p pos len lim) :
    rwSect (s.inodeTable p) (s.fDescTable d).fdPos =
      ((s.inodeTable p).iStartSect.toNat : Int) + (pos / 512 : Nat) := by
  have hdisk := h.onDisk
  have hle := h.pos_le
  rw [h.fdPos, rwSect_eq (by omega) (by omega)]
  rfl

/-- The last sector, when the end is a position of an `int`. -/
theorem rwSect_max (h : RangeRequest s pid d p pos len lim) (hlt : min (pos + len) lim < 2 ^ 31) :
    rwSect (s.inodeTable p)
        (Dlos.posEnd s.fsMsg.type (s.fDescTable d).fdPos (len : Int) (s.inodeTable p)) =
      ((s.inodeTable p).iStartSect.toNat : Int) + (min (pos + len) lim / 512 : Nat) := by
  have hdisk := h.onDisk
  rw [h.fdPos, h.posEnd, Int.bmod_eq_of_le (by omega) (by omega), rwSect_eq (by omega) (by omega)]
  rfl

/-- Otherwise it is before the first one. -/
theorem rwSect_max_lt (h : RangeRequest s pid d p pos len lim)
    (hge : 2 ^ 31 ≤ min (pos + len) lim) :
    rwSect (s.inodeTable p)
        (Dlos.posEnd s.fsMsg.type (s.fDescTable d).fdPos (len : Int) (s.inodeTable p)) <
      ((s.inodeTable p).iStartSect.toNat : Int) := by
  have hdisk := h.onDisk
  have hpos := h.pos_lt
  have hlen := h.len_lt
  have hend : Int.bmod (min (pos + len) lim : Nat) (2 ^ 32) =
      (min (pos + len) lim : Nat) - 2 ^ 32 := by
    rw [Int.bmod_def]
    omega
  rw [h.fdPos, h.posEnd, hend, rwSect_eq (by omega) (by omega)]
  omega

/-- What follows the loop. -/
def AfterLoop (d : Fin nrFileDesc) (p : Fin nrInode) (Q : Int → Fs → Prop) (E : Halt → Fs → Prop)
    (r : Int) (u : Fs) : Prop :=
  (BitVec.ofInt 32 (u.fDescTable d).fdPos > (u.inodeTable p).iSize →
    wp (syncInode p) (fun _ => Q r) E
      (u.setInode p ({ · with iSize := BitVec.ofInt 32 (u.fDescTable d).fdPos }))) ∧
  (¬BitVec.ofInt 32 (u.fDescTable d).fdPos > (u.inodeTable p).iSize → Q r u)

/-- The loop over the `n` sectors between the position and the end. -/
theorem wp_rwFile {n : Nat} (h : RangeRequest s pid d p pos len lim)
    (hlt : min (pos + len) lim < 2 ^ 31) (hn : n + pos / 512 = min (pos + len) lim / 512 + 1) :
    wp (rwFile d p (len : Int)) Q E s ↔
      wp (rwLoop ⟨s.fsMsg.type, s.fsMsg.source, s.fsMsg.buf, d, rootDev, (min n 2048 : Nat)⟩
          (((s.inodeTable p).iStartSect.toNat : Int) + (pos / 512 : Nat) + n - 1) n
          (((s.inodeTable p).iStartSect.toNat : Int) + (pos / 512 : Nat)) (pos % 512 : Nat) 0 len)
        (AfterLoop d p Q E) E s := by
  have hhi := h.rwSect_max hlt
  have hoff : (s.fDescTable d).fdPos.tmod 512 = ((pos % 512 : Nat) : Int) := by
    rw [h.fdPos]
    exact (Int.ofNat_tmod pos 512).symm
  generalize hlo : ((s.inodeTable p).iStartSect.toNat : Int) + (pos / 512 : Nat) = lo
  have hmax : ((s.inodeTable p).iStartSect.toNat : Int) + (min (pos + len) lim / 512 : Nat) =
      lo + n - 1 := by
    omega
  have hchunk : min (lo + n - 1 - lo + 1) 2048 = ((min n 2048 : Nat) : Int) := by
    omega
  rw [h.toFileRequest.wp_rwFile h.type (h.rwSect_min.trans hlo) (hhi.trans hmax), hchunk, hoff,
    show (lo + n - 1 - lo + 1).toNat = n by omega]
  rfl

/-- A request that is not within its limit answers something else than what there is up to it. -/
theorem wp_rwFile_past (h : RangeRequest s pid d p pos len lim)
    (hpast : ¬(pos + len ≤ lim ∧ pos + len < 2 ^ 31)) :
    wp (rwFile d p (len : Int)) (fun r _ => r ≠ (min len (lim - pos) : Nat)) (fun _ _ => True) s := by
  have hpos := h.pos_le
  have hpos' := h.pos_lt
  rcases lt_or_ge (min (pos + len) lim) (2 ^ 31) with hlt | hge
  · obtain ⟨n, hn⟩ : ∃ n, n + pos / 512 = min (pos + len) lim / 512 + 1 :=
      ⟨_, Nat.sub_add_cancel (by omega)⟩
    rw [h.wp_rwFile hlt hn]
    refine (wp_rwLoop_start (I := fun _ _ => True) rfl (by omega)
      (fun _ _ _ _ => wp_trivial.mono (fun _ _ _ => trivial) fun _ _ _ => trivial)
      (Q := fun r _ => r ≠ (min len (lim - pos) : Nat)) (fun r _ hr _ => ?_) trivial).mono
      (fun r u hr => ⟨fun _ => wp_trivial.mono (fun _ _ _ => hr) fun _ _ _ => trivial,
        fun _ => hr⟩) fun _ _ _ => trivial
    -- the rounds cover more than the bytes up to the limit
    have hr : r ≠ 0 := by
      rintro rfl
      omega
    rw [movedBytes, if_neg hr]
    generalize min n 2048 * r = q at *
    omega
  · have hlt := h.rwSect_max_lt hge
    rw [h.toFileRequest.wp_rwFile h.type h.rwSect_min rfl, Int.toNat_of_nonpos (by omega), rwLoop,
      if_neg (by omega), wp_pure]
    have hr : (0 : Int) ≠ (min len (lim - pos) : Nat) := by
      have := h.len_lt
      omega
    exact ⟨fun _ => wp_trivial.mono (fun _ _ _ => hr) fun _ _ _ => trivial, fun _ => hr⟩

/-- What every round of a request within its limit takes one part further holds of the whole at the
end. -/
theorem wp_rwFile_within {J : Nat → Fs → Prop} (h : RangeRequest s pid d p pos len lim)
    (hlim : pos + len ≤ lim) (hint : pos + len < 2 ^ 31) (hstart : J 0 s)
    (hround : ∀ c r k b u, RangeRound (s.inodeTable p) pos len c r k b → J k u →
      wp (rwChunk ⟨s.fsMsg.type, s.fsMsg.source, s.fsMsg.buf, d, rootDev, (c : Nat)⟩
          (((s.inodeTable p).iStartSect.toNat : Int) + (pos / 512 : Nat) + (c * r : Nat))
          (roundOff (pos % 512) r) k b) (fun _ => J (k + b)) E u)
    (hend : ∀ u, J len u → AfterLoop d p Q E len u) : wp (rwFile d p (len : Int)) Q E s := by
  obtain ⟨n, hn⟩ : ∃ n, n + pos / 512 = (pos + len) / 512 + 1 :=
    ⟨_, Nat.sub_add_cancel (by omega)⟩
  rw [h.wp_rwFile (n := n) (by omega) (by omega)]
  generalize hc : min n 2048 = c
  refine (wp_rwLoop_start (c := c)
    (I := fun r u => ∃ k : Nat, movedBytes c (pos % 512) len r = k ∧ J k u) rfl (by omega) ?_
    (Q := fun r u => r = len ∧ J len u) ?_ ⟨0, rfl, hstart⟩).mono ?_ fun _ _ h => h
  · rintro r u hr ⟨k, hk, hu⟩
    obtain ⟨b, hb, hb'⟩ := exists_rangeRound (i := s.inodeTable p) hc hr hk
    rw [hb, hk, show ((k + b : Nat) : Int) - k = (b : Nat) by omega]
    exact (hround c r k b u hb' hu).mono (fun _ v hv => ⟨k + b, rfl, hv⟩) fun _ _ h => h
  · rintro r u hr ⟨k, hk, hu⟩
    have hall := movedBytes_range hn hr
    obtain rfl : k = len := by omega
    exact ⟨hall, hu⟩
  · rintro r u ⟨rfl, hu⟩
    exact hend u hu

end RangeRequest

end Dlos
