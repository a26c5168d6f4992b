import Dlos.Fs.Inode

/-!
# Rules for the basic operations

Each operation on the buffer, the tables and the disk by its effect on the state. `Fs.view` is
the disk with one sector replaced by the buffer: reading that sector makes the view the disk,
writing it makes the disk the view.
-/

namespace Dlos

open Program Bytes

variable {s : Fs} {E : Halt → Fs → Prop} {Q : Unit → Fs → Prop} {i n : Nat} {D D' M M' : Store}

/-! ## States that differ in disk and memory -/

namespace Fs

/-- The state with another disk and memory. -/
def io (s : Fs) (D M : Store) : Fs := { s with disk := D, mem := M }

@[simp] theorem io_disk : (s.io D M).disk = D := rfl
@[simp] theorem io_mem : (s.io D M).mem = M := rfl
@[simp] theorem io_procTable : (s.io D M).procTable = s.procTable := rfl
@[simp] theorem io_filp : (s.io D M).filp = s.filp := rfl
@[simp] theorem io_fDescTable : (s.io D M).fDescTable = s.fDescTable := rfl
@[simp] theorem io_inodeTable : (s.io D M).inodeTable = s.inodeTable := rfl
@[simp] theorem io_superBlock : (s.io D M).superBlock = s.superBlock := rfl
@[simp] theorem io_rootInode : (s.io D M).rootInode = s.rootInode := rfl
@[simp] theorem io_pcaller : (s.io D M).pcaller = s.pcaller := rfl
@[simp] theorem io_fsMsg : (s.io D M).fsMsg = s.fsMsg := rfl
@[simp] theorem io_logPos : (s.io D M).logPos = s.logPos := rfl
@[simp] theorem io_geoSize : (s.io D M).geoSize = s.geoSize := rfl
@[simp] theorem io_io : (s.io D M).io D' M' = s.io D' M' := rfl
@[simp] theorem io_self : s.io s.disk s.mem = s := rfl

@[simp] theorem io_setInode {p : Fin nrInode} {f : Inode → Inode} :
    (s.io D M).setInode p f = (s.setInode p f).io D M := rfl

@[simp] theorem io_setDesc {d : Fin nrFileDesc} {f : FileDesc → FileDesc} :
    (s.io D M).setDesc d f = (s.setDesc d f).io D M := rfl

@[simp] theorem io_setFilp {p : Pid} {j : Fin nrFiles} {d : Option (Fin nrFileDesc)} :
    (s.io D M).setFilp p j d = (s.setFilp p j d).io D M := rfl

end Fs

/-! ## The buffer and the tables -/

@[simp] theorem wp_bufAt {Q : Byte → Fs → Prop} :
    wp (bufAt i) Q E s ↔ Q (s.mem (fsbuf + i)) s := Iff.rfl

@[simp] theorem wp_setBuf {b : Byte} :
    wp (setBuf i b) Q E s ↔ Q () (s.io s.disk (Function.update s.mem (fsbuf + i) b)) := Iff.rfl

@[simp] theorem wp_memsetBuf {b : Byte} :
    wp (memsetBuf i b n) Q E s ↔ Q () (s.io s.disk (fill s.mem (fsbuf + i) n b)) := Iff.rfl

@[simp] theorem wp_putBuf {bs : List Byte} :
    wp (putBuf i bs) Q E s ↔ Q () (s.io s.disk (putBytes s.mem (fsbuf + i) bs)) := Iff.rfl

@[simp] theorem wp_bufWord {Q : BitVec 32 → Fs → Prop} :
    wp (bufWord i) Q E s ↔ Q (word s.mem (fsbuf + i)) s := Iff.rfl

@[simp] theorem wp_putBufWords {ws : List (BitVec 32)} :
    wp (putBufWords i ws) Q E s ↔ Q () (s.io s.disk (putWords s.mem (fsbuf + i) ws)) := Iff.rfl

@[simp] theorem wp_setInode {p : Fin nrInode} {f : Inode → Inode} :
    wp (setInode p f) Q E s ↔ Q () (s.setInode p f) := Iff.rfl

@[simp] theorem wp_setDesc {d : Fin nrFileDesc} {f : FileDesc → FileDesc} :
    wp (setDesc d f) Q E s ↔ Q () (s.setDesc d f) := Iff.rfl

@[simp] theorem wp_setFilp {p : Pid} {j : Fin nrFiles} {d : Option (Fin nrFileDesc)} :
    wp (setFilp p j d) Q E s ↔ Q () (s.setFilp p j d) := Iff.rfl

@[simp] theorem wp_natOf {x : Int} {Q : Nat → Fs → Prop} :
    wp (natOf x) Q E s ↔ (0 ≤ x → Q x.toNat s) ∧ (¬0 ≤ x → E .wildIndex s) := by
  rw [natOf, wp_ite, wp_pure, wp_throw]

theorem wp_natOf_natCast {Q : Nat → Fs → Prop} : wp (natOf (n : Nat)) Q E s ↔ Q n s := by
  simp

@[simp] theorem wp_deref_some {α : Type} {a : α} {Q : α → Fs → Prop} :
    wp (deref (some a)) Q E s ↔ Q a s := Iff.rfl

@[simp] theorem wp_deref_none {α : Type} {Q : α → Fs → Prop} :
    wp (deref (none : Option α)) Q E s ↔ E .wildIndex s := Iff.rfl

section

variable {p q : Fin nrInode} {f g : Inode → Inode}

@[simp] theorem Fs.setInode_self : (s.setInode p f).inodeTable p = f (s.inodeTable p) := by
  simp [Fs.setInode]

theorem Fs.setInode_of_ne (h : q ≠ p) : (s.setInode p f).inodeTable q = s.inodeTable q := by
  simp [Fs.setInode, h]

theorem Fs.setInode_congr (h : f (s.inodeTable p) = g (s.inodeTable p)) :
    s.setInode p f = s.setInode p g := by
  rw [Fs.setInode, Fs.setInode, h]

theorem Fs.setInode_eq_self (h : f (s.inodeTable p) = s.inodeTable p) : s.setInode p f = s := by
  rw [Fs.setInode, h, Function.update_eq_self]

@[simp] theorem Fs.setInode_setInode : (s.setInode p f).setInode p g = s.setInode p (g ∘ f) := by
  simp [Fs.setInode]

end

/-- The super block of a device. -/
def Fs.super (s : Fs) (dev : Int) : Option SuperBlock :=
  ((List.finRange nrSuperBlock).find? fun i => (s.superBlock i).sbDev = dev).map s.superBlock

@[simp] theorem Fs.io_super {dev : Int} : (s.io D M).super dev = s.super dev := rfl

@[simp] theorem Fs.setInode_super {dev : Int} {p : Fin nrInode} {f : Inode → Inode} :
    (s.setInode p f).super dev = s.super dev := rfl

theorem wp_getSuperBlock {dev : Int} {sb : SuperBlock} {Q : SuperBlock → Fs → Prop}
    (h : s.super dev = some sb) : wp (getSuperBlock dev) Q E s ↔ Q sb s := by
  obtain ⟨i, hi, rfl⟩ := Option.map_eq_some_iff.mp h
  rw [getSuperBlock, wp_bind, wp_get, hi]
  rfl

/-! ## Sectors -/

theorem driverOf_rootDev : driverOf rootDev s = .ok taskHd s := by
  have : ddMap[major rootDev]? = some (some taskHd) := by decide
  rw [driverOf, this]
  rfl

/-- The only disk is the root partition. -/
theorem wp_rwSector {ioType : Int} {pos : BitVec 32} :
    wp (rwSector ioType rootDev pos n) Q E s ↔
      if ioType = MsgType.devRead then Q () (s.io s.disk (blit s.mem fsbuf s.disk pos.toNat n))
      else Q () (s.io (blit s.disk pos.toNat s.mem fsbuf n) s.mem) := by
  have : taskHd = taskHd ∧ minor rootDev = minorBoot := by decide
  rw [rwSector, wp_bind, wp_of_ok driverOf_rootDev, if_pos this]
  split <;> rfl

/-- Whatever the device, a sector is transferred or the machine stops. -/
theorem wp_rwSector_of {ioType dev : Int} {pos : BitVec 32}
    (hread : Q () (s.io s.disk (blit s.mem fsbuf s.disk pos.toNat n)))
    (hwrite : ioType ≠ MsgType.devRead →
      Q () (s.io (blit s.disk pos.toNat s.mem fsbuf n) s.mem))
    (herr : ∀ e, E e s) : wp (rwSector ioType dev pos n) Q E s := by
  rw [rwSector, wp_bind, driverOf]
  split
  · rw [wp_pure, wp_ite, wp_ite]
    exact ⟨fun _ => ⟨fun _ => hread, hwrite⟩, fun _ => herr _⟩
  · exact herr _
  · exact herr _

theorem toNat_sectPos_mod : (sectPos n).toNat = 512 * n % 2 ^ 32 := by
  rw [sectPos, BitVec.toNat_ofInt, sectorSize]
  omega

theorem toNat_sectPos (h : n < 2 ^ 23) : (sectPos n).toNat = 512 * n := by
  rw [toNat_sectPos_mod]
  omega

@[simp] theorem wp_rdSect {x : Int} :
    wp (rdSect rootDev x) Q E s ↔
      Q () (s.io s.disk (blit s.mem fsbuf s.disk (sectPos x).toNat 512)) := by
  rw [rdSect, wp_rwSector, if_pos rfl]

@[simp] theorem wp_wrSect {x : Int} :
    wp (wrSect rootDev x) Q E s ↔
      Q () (s.io (blit s.disk (sectPos x).toNat s.mem fsbuf 512) s.mem) := by
  rw [wrSect, wp_rwSector, if_neg (by decide)]

/-! ## The buffer as a part of the disk -/

/-- The disk `D` with sector `n` replaced by the buffer in the memory `M`. -/
def view (D M : Store) (n : Nat) : Store := blit D (512 * n) M fsbuf 512

/-- After a sector was read, it and the buffer are the same. -/
theorem wp_rdSect_view (hn : n < 2 ^ 23)
    (h : ∀ M, view s.disk M n = s.disk → Q () (s.io s.disk M)) : wp (rdSect rootDev n) Q E s := by
  rw [wp_rdSect, toNat_sectPos hn]
  exact h _ blit_blit_self

theorem wp_wrSect_view (hn : n < 2 ^ 23) :
    wp (wrSect rootDev n) Q E s ↔ Q () (s.io (view s.disk s.mem n) s.mem) := by
  rw [wp_wrSect, toNat_sectPos hn]
  rfl

/-- A byte of the buffer in the view. -/
theorem view_apply (h : i < 512) : view D M n (512 * n + i) = M (fsbuf + i) := by
  rw [view, blit_of_mem (by omega) (by omega)]
  congr 1
  omega

theorem view_of_notMem {a : Nat} (h : a < 512 * n ∨ 512 * n + 512 ≤ a) : view D M n a = D a :=
  blit_of_notMem h

/-- A word of the buffer in the view. -/
theorem word_view (h : i + 4 ≤ 512) : word (view D M n) (512 * n + i) = word M (fsbuf + i) := by
  rw [view, word_blit (by omega) (by omega), Nat.add_sub_cancel_left]

theorem bytes_view {k : Nat} (h : i + k ≤ 512) :
    bytes (view D M n) (512 * n + i) k = bytes M (fsbuf + i) k := by
  refine List.map_congr_left fun x hx => ?_
  have := List.mem_range.mp hx
  rw [Nat.add_assoc, view_apply (by omega), Nat.add_assoc]

/-! Changing the buffer changes the view. -/

theorem view_putWords {ws : List (BitVec 32)} (h : i + 4 * ws.length ≤ 512) :
    view D (putWords M (fsbuf + i) ws) n = putWords (view D M n) (512 * n + i) ws :=
  blit_putWords h

theorem view_putBytes {bs : List Byte} (h : i ≤ 512) : view D (putBytes M (fsbuf + i) bs) n =
    putBytes (view D M n) (512 * n + i) (bs.take (512 - i)) :=
  blit_putBytes h

theorem view_fill {k : Nat} {b : Byte} (h : i + k ≤ 512) :
    view D (fill M (fsbuf + i) k b) n = fill (view D M n) (512 * n + i) k b :=
  blit_fill h

/-- Marking bits in the buffer marks them in the view. -/
theorem view_mark {lo p : Nat} {v : Bool} (h : lo + p ≤ 4096) :
    view D (mark M (8 * fsbuf + lo) v p) n = mark (view D M n) (4096 * n + lo) v p := by
  rw [view, view, blit_mark h]
  congr 1
  omega

section

variable {j k : Nat}

theorem bit_view (hj : j < 512) (hk : k < 8) :
    bit (view D M n) (4096 * n + 8 * j + k) = (M (fsbuf + j)).getLsbD k := by
  rw [show 4096 * n + 8 * j + k = 8 * (512 * n + j) + k by omega, bit_mul_add hk, view_apply hj]

/-- Single bits. -/
theorem view_setBit {v : Bool} (hj : j < 512) (hk : k < 8) :
    view D (setBit M (8 * (fsbuf + j) + k) v) n =
      mark (view D M n) (4096 * n + 8 * j + k) v 1 := by
  have := view_mark (D := D) (M := M) (n := n) (v := v) (show 8 * j + k + 1 ≤ 4096 by omega)
  rwa [← Nat.add_assoc, ← Nat.mul_add, ← Nat.add_assoc] at this

/-- Whole bytes. -/
theorem view_full (hj : j < 512) :
    AllBits (view D M n) (4096 * n + 8 * j) true 8 ↔ M (fsbuf + j) = 0xFF := by
  rw [← view_apply (D := D) (M := M) (n := n) hj, ← allBits_full,
    show 8 * (512 * n + j) = 4096 * n + 8 * j by omega]

end

end Dlos
