import Dlos.Fs.NewEntry

/-!
# Taking numbers from the bitmaps and giving them back

`alloc_imap_bit` returns in the first round of its loop, so it sees the first sector of the inode map
only. What `alloc_smap_bit` takes from the sector map, the clearing code of `do_unlink` gives back.
-/

namespace Dlos

open Program Bytes

variable {s : Fs} {sb : SuperBlock}

/-! ## Inode numbers -/

/-- The number of bits in the inode map. -/
def SuperBlock.imapBits (sb : SuperBlock) : Nat := 4096 * sb.nrImapSects.toNat

/-- The lowest clear bit of the whole map is set and its number, not 0, returned; or every bit is set
and the kernel panics. -/
def TakesLowest (s : Fs) (sb : SuperBlock) : Prop :=
  wp (allocImapBit rootDev)
    (fun r u => r ≠ 0 ∧ ∃ x : Nat, r = x ∧ FirstClear s.disk (4096 * 2) sb.imapBits x ∧
      u.disk = mark s.disk (4096 * 2 + x) true 1)
    (fun e u => AllBits s.disk (4096 * 2) true sb.imapBits ∧ u.disk = s.disk ∧
      ∃ text, e = .panic text) s

/-- The first sector of the map decides. -/
theorem wp_allocImapBit_first (hsb : s.super rootDev = some sb)
    (himap : 0 < sb.nrImapSects.toNat) :
    wp (allocImapBit rootDev)
      (fun r u => AllBits s.disk (4096 * 2) true 4096 ∧ r = 0 ∨
        ∃ x : Nat, r = x ∧ FirstClear s.disk (4096 * 2) 4096 x ∧
          u.disk = mark s.disk (4096 * 2 + x) true 1) (fun _ _ => False) s :=
  wp_allocImapBit hsb himap (fun _ hset => .inl ⟨hset, rfl⟩)
    fun _ x hfirst => .inr ⟨x, rfl, hfirst, rfl⟩

theorem not_takesLowest_of_full (hsb : s.super rootDev = some sb)
    (himap : 0 < sb.nrImapSects.toNat) (hfull : AllBits s.disk (4096 * 2) true 4096) :
    ¬TakesLowest s sb := by
  intro h
  refine ((wp_allocImapBit_first hsb himap).and h).elim (fun r u hu => ?_) fun _ _ hu => hu.1
  obtain ⟨⟨_, hr⟩ | ⟨x, _, hfirst, _⟩, hne, _⟩ := hu
  · exact hne hr
  · have := hfull (4096 * 2 + x) (by omega) (by have := hfirst.lt; omega)
    rw [hfirst.clear] at this
    exact Bool.false_ne_true this

/-- An inode number is the lowest free one of the map exactly if there is one in its first sector. -/
theorem takesLowest_iff (hsb : s.super rootDev = some sb) (himap : 0 < sb.nrImapSects.toNat)
    (h0 : bit s.disk (4096 * 2) = true) :
    TakesLowest s sb ↔ ∃ x < 4096, bit s.disk (4096 * 2 + x) = false := by
  constructor
  · intro h
    by_contra hno
    refine not_takesLowest_of_full hsb himap (fun k hk hk' => ?_) h
    by_contra hclear
    refine hno ⟨k - 4096 * 2, by omega, ?_⟩
    rw [show 4096 * 2 + (k - 4096 * 2) = k by omega]
    simpa using hclear
  · rintro ⟨y, hy, hclear⟩
    refine (wp_allocImapBit_first hsb himap).mono (fun r u hu => ?_) fun _ _ hu => hu.elim
    obtain ⟨hfull, _⟩ | ⟨x, rfl, hfirst, hdisk⟩ := hu
    · have := hfull (4096 * 2 + y) (by omega) (by omega)
      rw [hclear] at this
      exact absurd this Bool.false_ne_true
    · have hx0 : x ≠ 0 := fun he => by
        have := hfirst.clear
        rw [he, Nat.add_zero, h0] at this
        exact Bool.false_ne_true this.symm
      have hbits : 4096 ≤ sb.imapBits := by
        rw [SuperBlock.imapBits]
        omega
      exact ⟨by omega, x, rfl, ⟨hfirst.lt.trans_le hbits, hfirst.below, hfirst.clear⟩, hdisk⟩

/-- A partition whose inode map is one sector of these bytes. -/
def imapState (b : Byte) : Fs := { rootState [] with disk := fill (fun _ => 0) (512 * 2) 512 b }

theorem takesLowest_imapState : TakesLowest (imapState 0x1F) (rootSuper 40960) :=
  (takesLowest_iff (s := imapState 0x1F) (by decide +kernel) (by decide) (by decide)).mpr
    ⟨5, by decide, by decide⟩

/-- When the map is full the answer is 0. -/
theorem not_takesLowest_imapState :
    (imapState 0xFF).super rootDev = some (rootSuper 40960) ∧
    0 < (rootSuper 40960).nrImapSects.toNat ∧ bit (imapState 0xFF).disk (4096 * 2) = true ∧
    ¬TakesLowest (imapState 0xFF) (rootSuper 40960) := by
  refine ⟨by decide +kernel, by decide, by decide,
    not_takesLowest_of_full (s := imapState 0xFF) (by decide +kernel) (by decide) fun k hk hk' => ?_⟩
  have hdisk : (imapState 0xFF).disk = fill (fun _ => 0) (512 * 2) 512 0xFF := rfl
  rw [bit, hdisk, fill_of_mem (by omega) (by omega)]
  exact eq_full_iff.mp rfl _ (by omega)

/-! ## Sectors of a file -/

/-- The sector map lies in front of the data, and inode and sector numbers are `int`s. -/
structure SuperBlock.Fits (sb : SuperBlock) : Prop where
  imap : 4096 * sb.nrImapSects.toNat ≤ 2 ^ 31
  smap : sb.smapBase + sb.nrSmapSects.toNat ≤ sb.n1stSect.toNat
  sects : sb.n1stSect.toNat + sb.smapBits ≤ 2 ^ 31

namespace SuperBlock.Fits

variable {x : Nat} (h : sb.Fits)

include h

theorem smapBase_eq : sb.smapBase = 2 + sb.nrImapSects.toNat := by
  have himap := h.imap
  rw [smapBase, BitVec.toNat_add, show ((1 : BitVec 32) + 1).toNat = 2 from rfl]
  omega

theorem smapBase_le : sb.smapBase + sb.nrSmapSects.toNat ≤ 2 ^ 21 := by
  have hbase := h.smapBase_eq
  have himap := h.imap
  have hsects := h.sects
  rw [smapBits] at hsects
  omega

theorem count_lt {n : Nat} (hn : x + n ≤ sb.smapBits) : n < 2 ^ 31 := by
  have hbase := h.smapBase_eq
  have hsmap := h.smap
  have hsects := h.sects
  omega

/-- The sector a bit stands for. -/
theorem toNat_bitSect (hx : x < sb.smapBits) :
    (bitSect sb.n1stSect x).toNat = sb.n1stSect.toNat + x - 1 := by
  have hbase := h.smapBase_eq
  have hsmap := h.smap
  have hsects := h.sects
  rw [bitSect, BitVec.toNat_add, BitVec.toNat_sub, BitVec.toNat_ofNat,
    show (1 : BitVec 32).toNat = 1 from rfl]
  omega

theorem bitSect_ne_zero (hx : x < sb.smapBits) : bitSect sb.n1stSect x ≠ 0 := by
  have hbase := h.smapBase_eq
  have hsmap := h.smap
  intro he
  have := h.toNat_bitSect hx
  rw [he, show (0 : BitVec 32).toNat = 0 from rfl] at this
  omega

/-- The bit of a file's first sector, as `do_unlink` computes it. -/
theorem bitSect_sub (hx : x < sb.smapBits) :
    (bitSect sb.n1stSect x - sb.n1stSect + 1).toInt = (x : Nat) := by
  have hsects := h.sects
  have : bitSect sb.n1stSect x - sb.n1stSect + 1 = BitVec.ofNat 32 x := by
    rw [bitSect, BitVec.add_sub_cancel, BitVec.sub_add_cancel]
  rw [this, BitVec.toInt_eq_toNat_of_lt (by rw [BitVec.toNat_ofNat]; omega), BitVec.toNat_ofNat,
    Nat.mod_eq_of_lt (by omega)]

end SuperBlock.Fits

/-- The `n` bits from the first clear one on, bit `x`, are taken, and cleared again when a file with
these sectors is removed. -/
structure TakesAndFrees (s : Fs) (sb : SuperBlock) (n x : Nat) : Prop where
  run : wp (allocSmapBit rootDev n)
      (fun r u => r.toNat = sb.n1stSect.toNat + x - 1 ∧
        (∃ M, u = s.io (mark s.disk (4096 * sb.smapBase + x) true n) M) ∧
        wp (freeSmapBits rootDev sb (r - sb.n1stSect + 1).toInt (BitVec.ofNat 32 n).toInt)
          (fun _ v => ∃ M, v = s.io s.disk M) (fun _ _ => False) u)
      (fun _ _ => False) s

/-- Clearing the bits of a file gives back what was taken for it. -/
theorem freeSmapBits_allocSmapBit {n x : Nat} (hsb : s.super rootDev = some sb) (hfits : sb.Fits)
    (hn : 0 < n) (hfirst : FirstClear s.disk (4096 * sb.smapBase) sb.smapBits x)
    (hroom : x + n ≤ sb.smapBits) (hclear : AllBits s.disk (4096 * sb.smapBase + x) false n) :
    TakesAndFrees s sb n x := by
  have hbase := hfits.smapBase_le
  have hcount := hfits.count_lt hroom
  refine ⟨wp_allocSmapBit hsb (by omega) hn (fun y hy => hfits.bitSect_ne_zero hy.lt)
    (fun M y hy _ _ => ?_) fun hno => absurd hclear (hno x hfirst hroom)⟩
  obtain rfl := hy.unique hfirst
  refine ⟨hfits.toNat_bitSect hy.lt, ⟨M, rfl⟩, ?_⟩
  have hcnt : (BitVec.ofNat 32 n).toInt = (n : Nat) := by
    rw [BitVec.toInt_eq_toNat_of_lt (by rw [BitVec.toNat_ofNat]; omega), BitVec.toNat_ofNat,
      Nat.mod_eq_of_lt (by omega)]
  rw [hfits.bitSect_sub hy.lt, hcnt]
  have hmap : 4096 * sb.smapBase + y + n ≤ 4096 * (sb.smapBase + sb.nrSmapSects.toNat) := by
    rw [SuperBlock.smapBits] at hroom
    omega
  refine wp_freeSmapBits (by omega) (fun M' _ => ⟨M', ?_⟩) fun hno =>
    absurd allBits_mark_self hno
  rw [Fs.io_disk, Fs.io_io, mark_mark_cancel hclear]

/-- A partition whose first sectors, `n` of them, are taken. -/
def smapState (n : Nat) : Fs := { rootState [] with disk := mark (fun _ => 0) (4096 * 3) true n }

theorem bit_smapState {n k : Nat} :
    bit (smapState n).disk k = decide (4096 * 3 ≤ k ∧ k < 4096 * 3 + n) := by
  rw [smapState, bit_mark, bit]
  split <;> simp_all

theorem takesAndFrees_smapState : TakesAndFrees (smapState 2049) (rootSuper 40960) 2048 2049 := by
  have hset (k : Nat) (hk : 4096 * 3 ≤ k) (hk' : k < 4096 * 3 + 2049) :
      bit (smapState 2049).disk k = true := by
    rw [bit_smapState, decide_eq_true ⟨hk, hk'⟩]
  have hclear (k : Nat) (hk : 4096 * 3 + 2049 ≤ k) : bit (smapState 2049).disk k = false := by
    rw [bit_smapState, decide_eq_false fun h => by omega]
  have hbits : (rootSuper 40960).smapBits = 4096 * 11 := by decide
  have hfits : (rootSuper 40960).Fits := ⟨by decide, by decide, by decide⟩
  have hsuper : (smapState 2049).super rootDev = some (rootSuper 40960) := by decide +kernel
  refine freeSmapBits_allocSmapBit hsuper hfits (by decide) ?_ ?_ ?_
  · rw [hbits, smapBase_rootSuper]
    exact ⟨by decide, hset, hclear _ (by decide)⟩
  · rw [hbits]
    decide
  · rw [smapBase_rootSuper]
    intro k hk _
    exact hclear k hk

end Dlos
