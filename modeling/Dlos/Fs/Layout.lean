import Dlos.Fs.Main
import Dlos.Fs.Bitmap

/-!
# The disk as tables

Where `mkfs` puts the two maps, the inode array and the root directory on a partition of `size`
sectors, and the disk as these four tables: `diskTables`. Every change the file system makes to
them is an update of one table.
-/

namespace Dlos

open Program Bytes

/-- The super block in memory after `init_fs`. -/
def rootSuper (size : BitVec 32) : SuperBlock := { newSuperBlock size with sbDev := rootDev }

/-- The number of sectors of the sector map. -/
def nrSmap (size : BitVec 32) : Nat := size.toNat / 4096 + 1

/-- The first data sector, where the root directory starts. -/
def firstSect (size : BitVec 32) : Nat := nrSmap size + 259

/-- As many entries as the root directory can come to have, and some more. -/
abbrev dirLimit : Nat := 4160

section

variable {size : BitVec 32}

theorem nrSmap_le : nrSmap size ≤ 2 ^ 20 := by
  have := size.isLt
  rw [nrSmap]
  omega

theorem toNat_nrSmapSects : (rootSuper size).nrSmapSects.toNat = nrSmap size := by
  have := size.isLt
  have hsb : (rootSuper size).nrSmapSects = size / BitVec.ofNat 32 sectorBits + 1 := rfl
  have hbits : (BitVec.ofNat 32 sectorBits).toNat = 4096 := by decide
  have hone : (1 : BitVec 32).toNat = 1 := by decide
  rw [hsb, BitVec.toNat_add, BitVec.toNat_udiv, hbits, hone, nrSmap]
  omega

theorem toNat_n1stSect : (rootSuper size).n1stSect.toNat = firstSect size := by
  have hsmap : (rootSuper size).nrSmapSects.toNat = nrSmap size := toNat_nrSmapSects
  have hle : nrSmap size ≤ 2 ^ 20 := nrSmap_le
  have hsects : (BitVec.ofNat 32 sectorBits * BitVec.ofNat 32 inodeSize /
      BitVec.ofNat 32 sectorSize).toNat = 256 := by decide
  have : (rootSuper size).n1stSect = 1 + 1 + 1 + (rootSuper size).nrSmapSects +
      BitVec.ofNat 32 sectorBits * BitVec.ofNat 32 inodeSize / BitVec.ofNat 32 sectorSize := rfl
  rw [this, BitVec.toNat_add, BitVec.toNat_add, hsmap, hsects, firstSect]
  simp
  omega

theorem smapBase_rootSuper : (rootSuper size).smapBase = 3 := rfl

theorem smapBits_rootSuper : (rootSuper size).smapBits = 4096 * nrSmap size := by
  rw [SuperBlock.smapBits, toNat_nrSmapSects]

theorem lt_smapBits : size.toNat < 4096 * nrSmap size := by
  rw [nrSmap]
  omega

end

/-! ## Inodes on the disk -/

/-- The four words of an inode on the disk. -/
structure Record where
  mode : BitVec 32
  size : BitVec 32
  start : BitVec 32
  sects : BitVec 32
  deriving DecidableEq

def Inode.record (i : Inode) : Record := ⟨i.iMode, i.iSize, i.iStartSect, i.iNrSects⟩

/-- The record in the words from `a` on. -/
def recordAt (d : Store) (a : Nat) : Record :=
  ⟨word d a, word d (a + 4), word d (a + 8), word d (a + 12)⟩

/-- The address of inode `n`. -/
def inodeAddr (size : BitVec 32) (n : Nat) : Nat := 512 * (nrSmap size + 3) + 32 * (n - 1)

theorem recordAt_congr {d d' : Store} {a : Nat} (h : ∀ x, a ≤ x → x < a + 16 → d' x = d x) :
    recordAt d' a = recordAt d a := by
  have hword (k : Nat) (hk : k ≤ 12) : word d' (a + k) = word d (a + k) :=
    word_congr fun i _ => h _ (by omega) (by omega)
  have h0 := hword 0 (by omega)
  rw [Nat.add_zero] at h0
  rw [recordAt, recordAt, h0, hword 4 (by omega), hword 8 (by omega), hword 12 (by omega)]

theorem recordAt_putWords {d : Store} {a : Nat} {i : Inode} :
    recordAt (putWords d a i.words) a = i.record := by
  have hword (k : Nat) (hk : k < 4) : word (putWords d a i.words) (a + 4 * k) =
      i.words.getD k 0 := word_putWords (by simpa [Inode.words] using hk)
  have h0 := hword 0 (by omega)
  rw [Nat.mul_zero, Nat.add_zero] at h0
  rw [recordAt, h0, hword 1 (by omega), hword 2 (by omega), hword 3 (by omega)]
  rfl

/-! ## The tables -/

structure DiskTables where
  imap : Nat → Bool
  smap : Nat → Bool
  record : Nat → Record
  /-- The field `inode_nr` of the root directory's entries. -/
  dir : Nat → BitVec 32

def noRecord : Record := ⟨0, 0, 0, 0⟩

/-- The tables on the disk of a partition of `size` sectors. -/
def diskTables (size : BitVec 32) (d : Store) : DiskTables where
  imap n := decide (n < 4096) && bit d (4096 * 2 + n)
  smap b := decide (b < 4096 * nrSmap size) && bit d (4096 * 3 + b)
  record n := if 1 ≤ n ∧ n < 4096 then recordAt d (inodeAddr size n) else noRecord
  dir e := if e < dirLimit then word d (512 * firstSect size + 16 * e) else 0

section

variable {size : BitVec 32} {d d' : Store} {n b x cnt : Nat} {v : Bool}

/-- The maps and the inode array lie before the data. -/
theorem diskTables_of_agree (h : ∀ a < 512 * firstSect size, d' a = d a) :
    diskTables size d' = { diskTables size d with dir := (diskTables size d').dir } := by
  have hbit (k : Nat) (hk : k < 4096 * firstSect size) : bit d' k = bit d k := by
    rw [bit, bit, h _ (by omega)]
  have hrec (n : Nat) (hn : 1 ≤ n ∧ n < 4096) :
      recordAt d' (inodeAddr size n) = recordAt d (inodeAddr size n) :=
    recordAt_congr fun x hx hx' => h x (by rw [inodeAddr, firstSect] at *; omega)
  simp only [diskTables, firstSect] at *
  congr 1
  · funext n
    by_cases hn : n < 4096
    · rw [hbit _ (by omega)]
    · simp [hn]
  · funext b
    by_cases hb : b < 4096 * nrSmap size
    · rw [hbit _ (by omega)]
    · simp [hb]
  · funext n
    split
    · exact hrec n ‹_›
    · rfl

/-- Nothing that the tables hold lies behind the directory's entries. -/
theorem diskTables_of_agree_dir
    (h : ∀ a < 512 * firstSect size + 16 * dirLimit, d' a = d a) :
    diskTables size d' = diskTables size d := by
  rw [diskTables_of_agree fun a ha => h a (by omega)]
  have : (diskTables size d').dir = (diskTables size d).dir := by
    funext e
    simp only [diskTables]
    split
    · exact word_congr fun i hi => h _ (by omega)
    · rfl
  rw [this]

theorem diskTables_markImap (hx : x < 4096) :
    diskTables size (mark d (4096 * 2 + x) v 1) =
      { diskTables size d with imap := Function.update (diskTables size d).imap x v } := by
  have hbyte (a : Nat) (ha : a ≠ (4096 * 2 + x) / 8) : mark d (4096 * 2 + x) v 1 a = d a :=
    Function.update_of_ne ha _ _
  simp only [diskTables]
  congr 1
  · funext n
    rw [bit_mark]
    by_cases hn : n = x
    · subst hn
      simp [hx]
    · rw [Function.update_of_ne hn, if_neg (by omega)]
  · funext b
    rw [bit_mark, if_neg (by omega)]
  · funext n
    split
    · exact recordAt_congr fun y hy _ => hbyte y (by rw [inodeAddr] at hy; omega)
    · rfl
  · funext e
    split
    · exact word_congr fun i _ => hbyte _ (by rw [firstSect]; omega)
    · rfl

theorem mark_apply_of_notMem {a : Nat} (h : 8 * a + 8 ≤ b ∨ b + cnt ≤ 8 * a) :
    mark d b v cnt a = d a := by
  refine BitVec.eq_of_getLsbD_eq fun i hi => ?_
  rw [← bit_mul_add hi, ← bit_mul_add hi, bit_mark, if_neg (by omega)]

theorem diskTables_markSmap (hb : b + cnt ≤ 4096 * nrSmap size) :
    diskTables size (mark d (4096 * 3 + b) v cnt) =
      { diskTables size d with
        smap := fun k => if b ≤ k ∧ k < b + cnt then v else (diskTables size d).smap k } := by
  simp only [diskTables]
  congr 1
  · funext n
    by_cases hn : n < 4096
    · rw [bit_mark, if_neg (by omega)]
    · simp [hn]
  · funext k
    rw [bit_mark]
    by_cases hk : b ≤ k ∧ k < b + cnt
    · rw [if_pos hk, if_pos (by omega), decide_eq_true (by omega), Bool.true_and]
    · rw [if_neg hk, if_neg (by omega)]
  · funext n
    split
    · exact recordAt_congr fun y hy _ => mark_apply_of_notMem (by rw [inodeAddr] at hy; omega)
    · rfl
  · funext e
    split
    · exact word_congr fun i _ => mark_apply_of_notMem (by rw [firstSect]; omega)
    · rfl

theorem diskTables_putRecord {i : Inode} (hn : 1 ≤ n) (hn' : n < 4096) :
    diskTables size (putWords d (inodeAddr size n) i.words) =
      { diskTables size d with
        record := Function.update (diskTables size d).record n i.record } := by
  have hlen : i.words.length = 4 := rfl
  have hbyte (a : Nat) (ha : a < inodeAddr size n ∨ inodeAddr size n + 16 ≤ a) :
      putWords d (inodeAddr size n) i.words a = d a := putWords_of_notMem (by omega)
  have hbit (k : Nat) (hk : k < 4096 * (nrSmap size + 3)) :
      bit (putWords d (inodeAddr size n) i.words) k = bit d k := by
    rw [bit, bit, hbyte _ (by rw [inodeAddr]; omega)]
  simp only [diskTables]
  congr 1
  · funext n
    by_cases hn : n < 4096
    · rw [hbit _ (by omega)]
    · simp [hn]
  · funext b
    by_cases hb : b < 4096 * nrSmap size
    · rw [hbit _ (by omega)]
    · simp [hb]
  · funext m
    by_cases hm : m = n
    · subst hm
      rw [Function.update_self, if_pos ⟨hn, hn'⟩, recordAt_putWords]
    · rw [Function.update_of_ne hm]
      split
      · exact recordAt_congr fun y hy hy' => hbyte y (by rw [inodeAddr] at *; omega)
      · rfl
  · funext e
    split
    · exact word_congr fun k hk => hbyte _ (by rw [inodeAddr, firstSect]; omega)
    · rfl

end

/-! ## Writing an inode -/

section

variable {size : BitVec 32} {s : Fs} {E : Halt → Fs → Prop} {num : Nat}

theorem inodeBlk_rootSuper (hn : 1 ≤ num) (hn' : num < 4096) :
    inodeBlk (rootSuper size) num = (nrSmap size + 3 + (num - 1) / 16 : Nat) := by
  have hsmap : nrSmap size ≤ 2 ^ 20 := nrSmap_le
  have himap : (rootSuper size).nrImapSects = 1 := rfl
  have hnum : (num : Int) - 1 = (num - 1 : Nat) := by omega
  have hbase : (1 + 1 + (rootSuper size).nrImapSects + (rootSuper size).nrSmapSects +
      BitVec.ofNat 32 ((num - 1) / 16)).toNat = nrSmap size + 3 + (num - 1) / 16 := by
    rw [himap, BitVec.toNat_add, BitVec.toNat_add, toNat_nrSmapSects, BitVec.toNat_ofNat]
    simp
    omega
  rw [inodeBlk, hnum, tdiv_natCast, BitVec.ofInt_natCast,
    BitVec.toInt_eq_toNat_of_lt (by rw [show sectorSize / inodeSize = 16 from rfl, hbase]; omega)]
  exact congrArg Nat.cast hbase

theorem inodeOff_natCast (hn : 1 ≤ num) : inodeOff num = (32 * ((num - 1) % 16) : Nat) := by
  have hnum : (num : Int) - 1 = (num - 1 : Nat) := by omega
  rw [inodeOff, hnum, tmod_natCast, show sectorSize / inodeSize = 16 from rfl,
    show inodeSize = 32 from rfl]
  omega

/-- The inode's four words are written, and nothing else. -/
theorem wp_syncInode {q : Fin nrInode} {Q : Unit → Fs → Prop}
    (hsb : s.super rootDev = some (rootSuper size)) (hdev : (s.inodeTable q).iDev = rootDev)
    (hnum : (s.inodeTable q).iNum = (num : Int)) (hn : 1 ≤ num) (hn' : num < 4096)
    (hQ : ∀ M, Q () (s.io (putWords s.disk (inodeAddr size num) (s.inodeTable q).words) M)) :
    wp (syncInode q) Q E s := by
  have hsmap : nrSmap size ≤ 2 ^ 20 := nrSmap_le
  rw [syncInode, wp_bind, wp_get]
  dsimp only
  rw [hdev, hnum, wp_bind, wp_getSuperBlock hsb, inodeBlk_rootSuper hn hn', inodeOff_natCast hn, wp_bind]
  refine wp_rdSect_view (by omega) fun M hM => ?_
  rw [wp_bind, wp_natOf_natCast, wp_bind, wp_putBufWords, wp_wrSect_view (by omega)]
  have haddr : 512 * (nrSmap size + 3 + (num - 1) / 16) + 32 * ((num - 1) % 16) =
      inodeAddr size num := by
    rw [inodeAddr]
    omega
  have hlen : (s.inodeTable q).words.length = 4 := rfl
  simp only [Fs.io_io, Fs.io_mem, Fs.io_disk]
  rw [view_putWords (by omega), hM, haddr]
  exact hQ _

end

end Dlos
