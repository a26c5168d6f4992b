import Dlos.Library.Slots
import Dlos.Fs.Layout

/-!
# The root directory as a table of slots

`search_file`, `new_dir_entry` and the end of `do_unlink` go through the sectors of the directory,
each with a loop of its own. Here each is stated by what it finds and changes in the table of slots.
-/

namespace Dlos

open Program Bytes Slot

/-- The slots of a directory that starts at address `a` of the disk. -/
def dirSlots (D : Store) (a k : Nat) : Slot (List Byte) (BitVec 32) where
  val := word D (a + 16 * k)
  key := bytes D (a + 16 * k + 4) 12

/-- Where the root directory starts. -/
def dirAddr (size : BitVec 32) : Nat := 512 * firstSect size

/-- Inode table entry `p` is the root directory, with `n` slots, of a partition of `size` sectors. -/
structure RootDir (size : BitVec 32) (n : Nat) (p : Fin nrInode) (s : Fs) : Prop where
  rootInode : s.rootInode = some p
  super : s.super rootDev = some (rootSuper size)
  iMode : (s.inodeTable p).iMode = iDirectory
  iDev : (s.inodeTable p).iDev = rootDev
  iNum : (s.inodeTable p).iNum = rootInodeNr
  iStartSect : (s.inodeTable p).iStartSect = BitVec.ofNat 32 (firstSect size)
  iSize : (s.inodeTable p).iSize = BitVec.ofNat 32 (16 * n)
  le : n ≤ 2 ^ 20
  cached : (s.inodeTable p).cached

section

variable {size : BitVec 32} {n i j m fuel : Nat} {p : Fin nrInode} {s : Fs} {D M : Store}
  {E : Halt → Fs → Prop}

theorem firstSect_le : firstSect size ≤ 2 ^ 20 + 259 := by
  have : nrSmap size ≤ 2 ^ 20 := nrSmap_le
  rw [firstSect]
  omega

theorem toInt_ofNat_of_lt (h : m < 2 ^ 31) : (BitVec.ofNat 32 m).toInt = m := by
  rw [BitVec.toInt_eq_toNat_of_lt (by rw [BitVec.toNat_ofNat]; omega), BitVec.toNat_ofNat,
    Nat.mod_eq_of_lt (by omega)]

theorem udiv_ofNat {k : Nat} (hm : m < 2 ^ 32) (hk : k < 2 ^ 32) :
    BitVec.ofNat 32 m / BitVec.ofNat 32 k = BitVec.ofNat 32 (m / k) := by
  refine BitVec.eq_of_toNat_eq ?_
  rw [BitVec.toNat_udiv, BitVec.toNat_ofNat, BitVec.toNat_ofNat, BitVec.toNat_ofNat,
    Nat.mod_eq_of_lt hm, Nat.mod_eq_of_lt hk,
    Nat.mod_eq_of_lt ((Nat.div_le_self m k).trans_lt hm)]

namespace RootDir

theorem toInt_start (h : RootDir size n p s) :
    (s.inodeTable p).iStartSect.toInt = firstSect size := by
  have : firstSect size ≤ 2 ^ 20 + 259 := firstSect_le
  rw [h.iStartSect, toInt_ofNat_of_lt (by omega)]

theorem nrDirEntries (h : RootDir size n p s) :
    ((s.inodeTable p).iSize / BitVec.ofNat 32 dirEntrySize).toInt = n := by
  have := h.le
  rw [h.iSize, show dirEntrySize = 16 from rfl, udiv_ofNat (by omega) (by decide),
    toInt_ofNat_of_lt (by omega), Nat.mul_div_cancel_left n (by decide)]

theorem nrDirBlks (h : RootDir size n p s) :
    ((s.inodeTable p).iSize + BitVec.ofNat 32 sectorSize) / BitVec.ofNat 32 sectorSize =
      BitVec.ofNat 32 ((16 * n + 512) / 512) := by
  have := h.le
  rw [h.iSize, show sectorSize = 512 from rfl, ← BitVec.ofNat_add,
    udiv_ofNat (by omega) (by decide)]

/-- `search_file` counts its sectors in another way. -/
theorem nrDirBlks_search (h : RootDir size n p s) :
    ((s.inodeTable p).iSize + BitVec.ofNat 32 sectorSize + 1) / BitVec.ofNat 32 sectorSize =
      BitVec.ofNat 32 ((16 * n + 513) / 512) := by
  have := h.le
  have hone : (1 : BitVec 32) = BitVec.ofNat 32 1 := rfl
  rw [h.iSize, hone, show sectorSize = 512 from rfl, ← BitVec.ofNat_add, ← BitVec.ofNat_add,
    udiv_ofNat (by omega) (by decide)]

theorem congr {u : Fs} (h : RootDir size n p s) (hroot : u.rootInode = s.rootInode)
    (hsuper : u.superBlock = s.superBlock) (hp : u.inodeTable p = s.inodeTable p) :
    RootDir size n p u where
  rootInode := hroot.trans h.rootInode
  super := by rw [Fs.super, hsuper, ← h.super, Fs.super]
  iMode := by rw [hp, h.iMode]
  iDev := by rw [hp, h.iDev]
  iNum := by rw [hp, h.iNum]
  iStartSect := by rw [hp, h.iStartSect]
  iSize := by rw [hp, h.iSize]
  le := h.le
  cached := by
    rw [hp]
    exact h.cached

theorem io (h : RootDir size n p s) : RootDir size n p (s.io D M) := h.congr rfl rfl rfl

/-- Another number of slots. -/
theorem resize (h : RootDir size n p s) (hm : m ≤ 2 ^ 20) :
    RootDir size m p (s.setInode p ({ · with iSize := BitVec.ofNat 32 (16 * m) })) where
  rootInode := h.rootInode
  super := h.super
  iMode := by rw [Fs.setInode_self, h.iMode]
  iDev := by rw [Fs.setInode_self, h.iDev]
  iNum := by rw [Fs.setInode_self, h.iNum]
  iStartSect := by rw [Fs.setInode_self, h.iStartSect]
  iSize := by rw [Fs.setInode_self]
  le := hm
  cached := by
    rw [Fs.setInode_self]
    exact h.cached

theorem wp_syncInode {Q : Unit → Fs → Prop} (h : RootDir size n p s)
    (hQ : ∀ M, Q () (s.io (putWords s.disk (inodeAddr size 1) (s.inodeTable p).words) M)) :
    wp (syncInode p) Q E s :=
  Dlos.wp_syncInode h.super h.iDev (show _ = ((1 : Nat) : Int) from h.iNum) (by omega) (by omega) hQ

/-- Entry `j` of sector `i` of the directory, read from the buffer. -/
theorem slot_of_view (hV : view D M (firstSect size + i) = D) (hj : j < 32) :
    dirSlots D (dirAddr size) (32 * i + j) =
      ⟨word M (fsbuf + 16 * j), bytes M (fsbuf + 16 * j + 4) 12⟩ := by
  have haddr : dirAddr size + 16 * (32 * i + j) = 512 * (firstSect size + i) + 16 * j := by
    rw [dirAddr]
    omega
  rw [dirSlots, haddr, ← word_view (D := D) (M := M) (n := firstSect size + i) (by omega), hV,
    Nat.add_assoc, Nat.add_assoc, ← bytes_view (D := D) (M := M) (n := firstSect size + i) (by omega),
    hV]

end RootDir

/-! ## Slots of a changed disk -/

section

variable {D' : Store} {a k : Nat} {w : BitVec 32} {name : List Byte}

theorem dirSlots_congr (h : ∀ x < 16, D' (a + 16 * j + x) = D (a + 16 * j + x)) :
    dirSlots D' a j = dirSlots D a j := by
  have hkey : bytes D' (a + 16 * j + 4) 12 = bytes D (a + 16 * j + 4) 12 := bytes_congr fun i hi => by
    rw [Nat.add_assoc _ 4]
    exact h (4 + i) (by omega)
  rw [dirSlots, dirSlots, word_congr fun i hi => h i (by omega), hkey]

/-- The inode array lies before the directory. -/
theorem dirSlots_putWords {num : Nat} {ws : List (BitVec 32)} (hn : 1 ≤ num) (hn' : num < 4096)
    (hws : ws.length ≤ 8) : dirSlots (putWords D (inodeAddr size num) ws) (dirAddr size) =
      dirSlots D (dirAddr size) := by
  funext j
  refine dirSlots_congr fun x _ => putWords_of_notMem (.inr ?_)
  rw [inodeAddr, dirAddr, firstSect]
  omega

end

/-! ## Searching a name -/

theorem wp_deInode {Q : Int → Fs → Prop} :
    wp (deInode j) Q E s ↔ Q (word s.mem (fsbuf + 16 * j)).toInt s := Iff.rfl

theorem wp_deName {Q : List Byte → Fs → Prop} :
    wp (deName j) Q E s ↔ Q (bytes s.mem (fsbuf + 16 * j + 4) 12) s := Iff.rfl

/-- The entries of sector `i` from entry `j` on: the search ends with what the table's look-up
gives, or no slot up to the end of the sector has the name. -/
theorem wp_searchEntries {name : List Byte} {Q : Int ⊕ Int → Fs → Prop} {T : Nat → Slot _ _}
    (hT : T = dirSlots s.disk (dirAddr size))
    (hV : view s.disk s.mem (firstSect size + i) = s.disk) (hj : j + fuel = 32)
    (hn : 32 * i + j ≤ n) (hbefore : ∀ k < 32 * i + j, (T k).key ≠ padName name)
    (hstop : Q (.inl (lookup T (n + 1) (padName name)).toInt) s)
    (hmore : 32 * (i + 1) ≤ n → (∀ k < 32 * (i + 1), (T k).key ≠ padName name) →
      Q (.inr (32 * (i + 1) : Nat)) s) :
    wp (searchEntries name n fuel j (32 * i + j : Nat)) Q E s := by
  induction fuel generalizing j with
  | zero =>
    obtain rfl : j = 32 := hj
    rw [searchEntries, wp_pure]
    exact hmore hn hbefore
  | succ fuel ih =>
    have hslot : T (32 * i + j) = ⟨word s.mem (fsbuf + 16 * j), bytes s.mem (fsbuf + 16 * j + 4) 12⟩ := by
      rw [hT, RootDir.slot_of_view hV (by omega)]
    rw [searchEntries, wp_bind, wp_deName, wp_ite]
    refine ⟨fun heq => ?_, fun hne => ?_⟩
    · have hfound : FoundAt T (n + 1) (padName name) (32 * i + j) :=
        ⟨by omega, by rw [hslot, heq], hbefore⟩
      rw [wp_bind, wp_deInode, wp_pure]
      rwa [hfound.lookup, hslot] at hstop
    · have hbefore' : ∀ k < 32 * i + (j + 1), (T k).key ≠ padName name := by
        intro k hk
        by_cases hlt : k < 32 * i + j
        · exact hbefore k hlt
        · rw [show k = 32 * i + j by omega, hslot]
          exact fun he => hne he.symm
      rw [wp_ite]
      refine ⟨fun hlast => ?_, fun hnext => ?_⟩
      · rw [lookup_of_absent fun k hk => hbefore' k (by omega)] at hstop
        exact hstop
      · have := ih (j := j + 1) (by omega) (by omega) hbefore'
        rwa [← Nat.add_assoc, Nat.cast_succ] at this

/-- The sectors from sector `i` on, which are enough. -/
theorem wp_searchBlks {name : List Byte} {Q : Int → Fs → Prop} {dir : Inode} {T : Nat → Slot _ _}
    (hT : T = dirSlots s.disk (dirAddr size)) (hdev : dir.iDev = rootDev)
    (hstart : dir.iStartSect.toInt = firstSect size) (hn : 32 * i ≤ n) (hn' : n ≤ 2 ^ 20)
    (hfuel : n < 32 * (i + fuel)) (hbefore : ∀ k < 32 * i, (T k).key ≠ padName name)
    (hQ : ∀ M, Q (lookup T (n + 1) (padName name)).toInt (s.io s.disk M)) :
    wp (searchBlks name dir n fuel i (32 * i : Nat)) Q E s := by
  have hfirst : firstSect size ≤ 2 ^ 20 + 259 := firstSect_le
  induction fuel generalizing i s with
  | zero => omega
  | succ fuel ih =>
    rw [searchBlks, wp_bind, hdev, hstart]
    refine wp_rdSect_view (n := firstSect size + i) (by omega) fun M hM => ?_
    rw [wp_bind]
    refine wp_searchEntries (j := 0) hT hM rfl hn hbefore (hQ M) fun hle habsent => ?_
    have := ih (s := s.io s.disk M) (i := i + 1) hT hle (by omega) habsent fun M' => hQ M'
    rwa [Nat.cast_succ] at this

theorem RootDir.wp_searchFile {path name : List Byte} {Q : Int → Fs → Prop}
    (h : RootDir size n p s) (hname : stripName path = some name) (hne : name ≠ [])
    (hQ : ∀ M, Q (lookup (dirSlots s.disk (dirAddr size)) (n + 1) (padName name)).toInt
      (s.io s.disk M)) : wp (searchFile path) Q E s := by
  have hle := h.le
  rw [searchFile, wp_bind, stripPath, wp_bind, wp_get, wp_pure, hname]
  rw [Option.map_some, wp_bind, h.rootInode, wp_deref_some, wp_bind, wp_get, if_neg hne,
    h.nrDirEntries, h.nrDirBlks_search, toInt_ofNat_of_lt (by omega)]
  exact wp_searchBlks (i := 0) rfl h.iDev h.toInt_start (Nat.zero_le _) hle (by omega)
    (fun k hk => absurd hk (Nat.not_lt_zero k)) hQ

/-! ## Adding an entry -/

theorem toInt_eq_zero {w : BitVec 32} : w.toInt = 0 ↔ w = 0 := by
  rw [← BitVec.toInt_zero, BitVec.toInt_inj]
  rfl

/-- The entries of sector `i` from entry `j` on: the scan ends at the place of a new entry, or all
slots up to the end of the sector are in use. -/
theorem wp_slotEntries {Q : DirSlot ⊕ Int → Fs → Prop} {T : Nat → Slot _ _}
    (hT : T = dirSlots s.disk (dirAddr size))
    (hV : view s.disk s.mem (firstSect size + i) = s.disk) (hj : j + fuel = 32)
    (hn : 32 * i + j ≤ n) (hbefore : ∀ k < 32 * i + j, (T k).val ≠ 0)
    (hstop : ∀ l < 32, 32 * i + l = place T n → Q (.inl ⟨l, decide (place T n = n)⟩) s)
    (hmore : 32 * (i + 1) ≤ n → (∀ k < 32 * (i + 1), (T k).val ≠ 0) →
      Q (.inr (32 * (i + 1) : Nat)) s) :
    wp (slotEntries n fuel j (32 * i + j : Nat)) Q E s := by
  induction fuel generalizing j with
  | zero =>
    obtain rfl : j = 32 := hj
    rw [slotEntries, wp_pure]
    exact hmore hn hbefore
  | succ fuel ih =>
    have hslot : T (32 * i + j) = ⟨word s.mem (fsbuf + 16 * j), bytes s.mem (fsbuf + 16 * j + 4) 12⟩ := by
      rw [hT, RootDir.slot_of_view hV (by omega)]
    rw [slotEntries, wp_ite]
    refine ⟨fun hlast => ?_, fun hnext => ?_⟩
    · have hplace : place T n = 32 * i + j := place_eq hn (by omega) hbefore
      have := hstop j (by omega) hplace.symm
      rwa [hplace, decide_eq_true (by omega)] at this
    · rw [wp_bind, wp_deInode, wp_ite]
      refine ⟨fun hfree => ?_, fun hused => ?_⟩
      · have hplace : place T n = 32 * i + j :=
          place_eq hn (fun _ => by rw [hslot, toInt_eq_zero.mp hfree]) hbefore
        have := hstop j (by omega) hplace.symm
        rwa [hplace, decide_eq_false (by omega)] at this
      · have := ih (j := j + 1) (by omega) (by omega) fun k hk => by
          by_cases hlt : k < 32 * i + j
          · exact hbefore k hlt
          · rw [show k = 32 * i + j by omega, hslot]
            exact fun he => hused (toInt_eq_zero.mpr he)
        rwa [← Nat.add_assoc, Nat.cast_succ] at this

theorem wp_slotBlks {Q : Int × DirSlot → Fs → Prop} {dir : Inode} {T : Nat → Slot _ _}
    (hT : T = dirSlots s.disk (dirAddr size)) (hdev : dir.iDev = rootDev)
    (hstart : dir.iStartSect.toInt = firstSect size) (hn : 32 * i ≤ n) (hn' : n ≤ 2 ^ 20)
    (hfuel : n < 32 * (i + fuel)) (hbefore : ∀ k < 32 * i, (T k).val ≠ 0)
    (hQ : ∀ M i l, l < 32 → 32 * i + l = place T n →
      view s.disk M (firstSect size + i) = s.disk →
      Q ((i : Nat), ⟨l, decide (place T n = n)⟩) (s.io s.disk M)) :
    wp (slotBlks dir n fuel i (32 * i : Nat)) Q E s := by
  have hfirst : firstSect size ≤ 2 ^ 20 + 259 := firstSect_le
  induction fuel generalizing i s with
  | zero => omega
  | succ fuel ih =>
    rw [slotBlks, wp_bind, hdev, hstart]
    refine wp_rdSect_view (n := firstSect size + i) (by omega) fun M hM => ?_
    rw [wp_bind]
    refine wp_slotEntries (j := 0) hT hM rfl hn hbefore (fun l hl hplace => ?_) fun hle hused => ?_
    · exact hQ M i l hl hplace hM
    · have := ih (s := s.io s.disk M) (i := i + 1) hT hle (by omega) hused fun M' => hQ M'
      rwa [Nat.cast_succ] at this

/-- The disk after an entry was written to slot `k`: `strcpy` ends the name with a 0, in the next
slot when the name fills its field, unless the sector ends there. -/
def addEntry (D : Store) (a k : Nat) (inodeNr : BitVec 32) (name : List Byte) : Store :=
  putBytes (putWords D (a + 16 * k) [inodeNr]) (a + 16 * k + 4)
    ((name ++ [0]).take (508 - 16 * (k % 32)))

section

variable {D : Store} {a k j x : Nat} {w : BitVec 32} {name : List Byte}

theorem length_padName (h : name.length ≤ 12) : (padName name).length = 12 := by
  rw [padName, List.length_append, List.length_replicate, show maxFilenameLen = 12 from rfl]
  omega

/-- Entry `l` of a sector, written in the buffer. -/
theorem view_addEntry {M : Store} {n i l : Nat} (hl : l < 32) (hk : 32 * i + l = k)
    (ha : a + 512 * i = 512 * n) : view D (putBytes (putWords M (fsbuf + 16 * l) [w])
      (fsbuf + (16 * l + 4)) (name ++ [0])) n = addEntry (view D M n) a k w name := by
  rw [view_putBytes (by omega), view_putWords (by rw [List.length_singleton]; omega), addEntry]
  congr 1
  · congr 1
    omega
  · omega
  · congr 1
    omega

theorem addEntry_of_notMem (hname : name.length ≤ 12) (h : x < a + 16 * k ∨ a + 16 * k + 17 ≤ x) :
    addEntry D a k w name x = D x := by
  have hlen : ((name ++ [0]).take (508 - 16 * (k % 32))).length ≤ 13 := by
    rw [List.length_take, List.length_append, List.length_singleton]
    omega
  rw [addEntry, putBytes_of_notMem (by omega),
    putWords_of_notMem (by rw [List.length_singleton]; omega)]

/-- The first byte of the next slot. -/
theorem addEntry_next (hname : name.length ≤ 12) : addEntry D a k w name (a + 16 * (k + 1)) =
    if name.length = 12 ∧ (k + 1) % 32 ≠ 0 then 0 else D (a + 16 * (k + 1)) := by
  have hlen : ((name ++ [0]).take (508 - 16 * (k % 32))).length =
      min (508 - 16 * (k % 32)) (name.length + 1) := by
    rw [List.length_take, List.length_append, List.length_singleton]
  split_ifs with h
  · rw [addEntry, putBytes, if_pos (by omega),
      show a + 16 * (k + 1) - (a + 16 * k + 4) = 12 by omega, List.getD,
      List.getElem?_take_of_lt (by omega), List.getElem?_append_right (by omega), h.1]
    rfl
  · rw [addEntry, putBytes_of_notMem (by omega),
      putWords_of_notMem (by rw [List.length_singleton]; omega)]

theorem addEntry_name {i : Nat} (hi : i < 12) : addEntry D a k w name (a + 16 * k + 4 + i) =
    if i < name.length then name.getD i 0
    else if i = name.length then 0 else D (a + 16 * k + 4 + i) := by
  have hlen : ((name ++ [0]).take (508 - 16 * (k % 32))).length =
      min (508 - 16 * (k % 32)) (name.length + 1) := by
    rw [List.length_take, List.length_append, List.length_singleton]
  rw [addEntry]
  split_ifs with hlt heq
  · rw [putBytes, if_pos (by omega), Nat.add_sub_cancel_left, List.getD, List.getD,
      List.getElem?_take_of_lt (by omega), List.getElem?_append_left hlt]
  · rw [putBytes, if_pos (by omega), Nat.add_sub_cancel_left, List.getD,
      List.getElem?_take_of_lt (by omega), heq, List.getElem?_append_right (Nat.le_refl _),
      Nat.sub_self]
    rfl
  · rw [putBytes_of_notMem (by omega), putWords_of_notMem (by rw [List.length_singleton]; omega)]

theorem val_addEntry : (dirSlots (addEntry D a k w name) a k).val = w := by
  have hword : word (putWords D (a + 16 * k) [w]) (a + 16 * k + 4 * 0) = [w].getD 0 0 :=
    word_putWords Nat.one_pos
  rw [dirSlots, addEntry]
  dsimp only
  rw [word_congr fun i hi => putBytes_of_notMem (by omega)]
  exact hword

theorem key_eq_padName (hname : name.length ≤ 12) : (dirSlots D a k).key = padName name ↔
    ∀ i < 12, D (a + 16 * k + 4 + i) = if i < name.length then name.getD i 0 else 0 := by
  have hpad (i : Nat) (hi : i < 12) :
      (padName name).getD i 0 = if i < name.length then name.getD i 0 else 0 := by
    rw [padName, List.getD, List.getD, show maxFilenameLen = 12 from rfl]
    split_ifs with hlt
    · rw [List.getElem?_append_left hlt]
    · rw [List.getElem?_append_right (by omega), List.getElem?_replicate, if_pos (by omega)]
      rfl
  rw [eq_comm, dirSlots, eq_bytes_iff (length_padName hname)]
  refine forall₂_congr fun i hi => ?_
  rw [hpad i hi, eq_comm]

/-- The name is the one that is looked up exactly if the bytes behind it were 0. -/
theorem key_addEntry (hname : name.length ≤ 12) :
    (dirSlots (addEntry D a k w name) a k).key = padName name ↔
      ∀ i, name.length < i → i < 12 → D (a + 16 * k + 4 + i) = 0 := by
  rw [key_eq_padName hname]
  constructor
  · intro h i hi hi'
    have := h i hi'
    rwa [addEntry_name hi', if_neg (by omega), if_neg (by omega), if_neg (by omega)] at this
  · intro h i hi
    rw [addEntry_name hi]
    split_ifs with hlt heq
    · rfl
    · rfl
    · exact h i (by omega) hi

/-- The other slots keep their bytes, but for the first byte of the next one. -/
theorem addEntry_of_ne (hname : name.length ≤ 12) (hj : j ≠ k)
    (hnext : j = k + 1 → name.length = 12 → (k + 1) % 32 = 0 ∨ D (a + 16 * (k + 1)) = 0)
    (hx : x < 16) : addEntry D a k w name (a + 16 * j + x) = D (a + 16 * j + x) := by
  by_cases hnew : a + 16 * j + x = a + 16 * (k + 1)
  · obtain rfl : j = k + 1 := by omega
    rw [hnew, addEntry_next hname]
    split_ifs with h
    · rcases hnext rfl h.1 with h0 | h0
      · exact absurd h0 h.2
      · exact h0.symm
    · rfl
  · exact addEntry_of_notMem hname (by omega)

end

theorem RootDir.wp_newDirEntry {inodeNr : Int} {name : List Byte} {Q : Unit → Fs → Prop} {k n' : Nat}
    {s' : Fs} (h : RootDir size n p s) (hk : place (dirSlots s.disk (dirAddr size)) n = k)
    (hn' : n' = if k = n then n + 1 else n)
    (hs' : s' = s.setInode p ({ · with iSize := BitVec.ofNat 32 (16 * n') })) (hle' : n' ≤ 2 ^ 20)
    (hQ : ∀ M, Q () (s'.io (putWords
      (addEntry s.disk (dirAddr size) k (BitVec.ofInt 32 inodeNr) name) (inodeAddr size 1)
      (s'.inodeTable p).words) M)) :
    wp (newDirEntry p inodeNr name) Q E s := by
  have hle := h.le
  have hfirst : firstSect size ≤ 2 ^ 20 + 259 := firstSect_le
  have hkn : k ≤ n := hk ▸ place_le
  rw [newDirEntry, wp_bind, wp_get]
  dsimp only
  rw [h.nrDirEntries, h.nrDirBlks, toInt_ofNat_of_lt (by omega), wp_bind]
  refine wp_slotBlks (i := 0) rfl h.iDev h.toInt_start (Nat.zero_le _) hle (by omega)
    (fun k hk => absurd hk (Nat.not_lt_zero k)) fun M i l hl hplace hM => ?_
  rw [hk] at hplace
  have hsize : wp (onlyIf (decide (place (dirSlots s.disk (dirAddr size)) n = n) = true)
      (setInode p fun d => { d with iSize := d.iSize + BitVec.ofNat 32 dirEntrySize }))
      (fun _ u => u = s'.io s.disk M) E (s.io s.disk M) := by
    rw [hk, hs', hn', wp_onlyIf]
    refine ⟨fun heq => ?_, fun hne => ?_⟩
    · rw [if_pos (of_decide_eq_true heq), wp_setInode, Fs.io_setInode]
      refine congrArg (Fs.io · s.disk M) (Fs.setInode_congr ?_)
      rw [h.iSize, show dirEntrySize = 16 from rfl, ← BitVec.ofNat_add, Nat.mul_succ]
    · rw [if_neg (fun he => hne (decide_eq_true he))]
      refine congrArg (Fs.io · s.disk M) (Fs.setInode_eq_self ?_).symm
      rw [← h.iSize]
  rw [wp_bind]
  refine hsize.mono (fun _ u hu => ?_) fun _ _ he => he
  subst hu
  have hsect : (firstSect size : Int) + (i : Nat) = (firstSect size + i : Nat) := rfl
  have hview : view s.disk (putBytes (putWords M (fsbuf + 16 * l) [BitVec.ofInt 32 inodeNr])
      (fsbuf + (16 * l + 4)) (name ++ [0])) (firstSect size + i) =
        addEntry s.disk (dirAddr size) k (BitVec.ofInt 32 inodeNr) name := by
    rw [view_addEntry (a := dirAddr size) hl hplace (by rw [dirAddr]; omega), hM]
  rw [wp_bind, wp_putBufWords, wp_bind, wp_putBuf, wp_bind, h.iDev, h.toInt_start, hsect,
    wp_wrSect_view (by omega)]
  simp only [Fs.io_io, Fs.io_mem, Fs.io_disk, show dirEntrySize = 16 from rfl, hview]
  have hdir : RootDir size n' p s' := by
    rw [hs']
    exact h.resize hle'
  exact hdir.io.wp_syncInode hQ

/-! ## Removing an entry -/

/-- The disk after slot `k` was cleared. -/
def clearSlot (D : Store) (a k : Nat) : Store := fill D (a + 16 * k) 16 0

/-- The entries of sector `i` from entry `j` on, with the size of the entries passed. -/
theorem wp_clearEntry {Q : (Bool × Int × Int) × Bool → Fs → Prop} {T : Nat → Slot _ _}
    {w : BitVec 32} (hT : T = dirSlots s.disk (dirAddr size)) (hi : firstSect size + i < 2 ^ 23)
    (hV : view s.disk s.mem (firstSect size + i) = s.disk) (hj : j + fuel = 32)
    (hn : 32 * i + j ≤ n) (hbefore : ∀ k < 32 * i + j, (T k).val ≠ w)
    (hfound : ∀ k, first (fun k => (T k).val = w) n = some k →
      ∀ M, Q ((true, (k : Int) + 1, (16 * used T k : Nat)), true)
        (s.io (clearSlot s.disk (dirAddr size) k) M))
    (habsent : first (fun k => (T k).val = w) n = none →
      Q ((false, (n : Int) + 1, (16 * used T n : Nat)), true) s)
    (hmore : 32 * (i + 1) ≤ n → (∀ k < 32 * (i + 1), (T k).val ≠ w) →
      Q ((false, (32 * (i + 1) : Nat), (16 * used T (32 * (i + 1)) : Nat)), false) s) :
    wp (clearEntry rootDev (firstSect size + i : Nat) w.toInt n fuel j (32 * i + j : Nat)
      (16 * used T (32 * i + j) : Nat)) Q E s := by
  induction fuel generalizing j with
  | zero =>
    obtain rfl : j = 32 := hj
    rw [clearEntry, wp_pure]
    exact hmore hn hbefore
  | succ fuel ih =>
    have hslot : T (32 * i + j) = ⟨word s.mem (fsbuf + 16 * j), bytes s.mem (fsbuf + 16 * j + 4) 12⟩ := by
      rw [hT, RootDir.slot_of_view hV (by omega)]
    rw [clearEntry, wp_ite]
    refine ⟨fun hlast => ?_, fun hnext => ?_⟩
    · obtain rfl : n = 32 * i + j := by omega
      exact habsent (first_eq_none.mpr hbefore)
    · rw [wp_bind, wp_deInode, wp_ite, BitVec.toInt_inj]
      refine ⟨fun heq => ?_, fun hne => ?_⟩
      · have hfirst : first (fun k => (T k).val = w) n = some (32 * i + j) :=
          first_eq_some.mpr ⟨by omega, by rw [hslot, heq], hbefore⟩
        have hview : view s.disk (fill s.mem (fsbuf + 16 * j) 16 0) (firstSect size + i) =
            clearSlot s.disk (dirAddr size) (32 * i + j) := by
          rw [view_fill (by omega), hV, clearSlot, dirAddr]
          congr 1
          omega
        rw [wp_bind, wp_memsetBuf, wp_bind, wp_wrSect_view hi]
        simp only [Fs.io_io, Fs.io_mem, Fs.io_disk, show dirEntrySize = 16 from rfl, hview]
        exact hfound _ hfirst _
      · have hbefore' : ∀ k < 32 * i + (j + 1), (T k).val ≠ w := by
          intro k hk
          by_cases hlt : k < 32 * i + j
          · exact hbefore k hlt
          · rw [show k = 32 * i + j by omega, hslot]
            exact hne
        have := ih (j := j + 1) (by omega) (by omega) hbefore'
        have hsize : (16 * used T (32 * i + (j + 1)) : Nat) =
            if (word s.mem (fsbuf + 16 * j)).toInt ≠ invalidInode then
              ((16 * used T (32 * i + j) : Nat) : Int) + (dirEntrySize : Nat)
            else ((16 * used T (32 * i + j) : Nat) : Int) := by
          rw [← Nat.add_assoc, used_succ, hslot]
          simp only [ne_eq, invalidInode, toInt_eq_zero, show dirEntrySize = 16 from rfl]
          split_ifs <;> omega
        rwa [hsize, ← Nat.add_assoc, Nat.cast_succ] at this

theorem wp_clearEntryBlks {Q : Bool × Int × Int → Fs → Prop} {dir : Inode} {T : Nat → Slot _ _}
    {w : BitVec 32} (hT : T = dirSlots s.disk (dirAddr size)) (hdev : dir.iDev = rootDev)
    (hstart : dir.iStartSect.toInt = firstSect size) (hn : 32 * i ≤ n) (hn' : n ≤ 2 ^ 20)
    (hfuel : n < 32 * (i + fuel)) (hbefore : ∀ k < 32 * i, (T k).val ≠ w)
    (hfound : ∀ k, first (fun k => (T k).val = w) n = some k →
      ∀ M, Q (true, (k : Int) + 1, (16 * used T k : Nat))
        (s.io (clearSlot s.disk (dirAddr size) k) M))
    (habsent : first (fun k => (T k).val = w) n = none →
      ∀ M, Q (false, (n : Int) + 1, (16 * used T n : Nat)) (s.io s.disk M)) :
    wp (clearEntryBlks dir w.toInt n fuel i (32 * i : Nat) (16 * used T (32 * i) : Nat)) Q E s := by
  have hfirst : firstSect size ≤ 2 ^ 20 + 259 := firstSect_le
  induction fuel generalizing i s with
  | zero => omega
  | succ fuel ih =>
    have hsect : (firstSect size : Int) + (i : Nat) = (firstSect size + i : Nat) := rfl
    rw [clearEntryBlks]
    dsimp only
    rw [wp_bind, hdev, hstart, hsect]
    refine wp_rdSect_view (by omega) fun M hM => ?_
    rw [wp_bind]
    refine wp_clearEntry (j := 0) hT (by omega) hM rfl hn hbefore (fun k hk M' => ?_)
      (fun hno => ?_) fun hle hne => ?_
    · exact hfound k hk M'
    · exact habsent hno M
    · have := ih (s := s.io s.disk M) (i := i + 1) hT hle (by omega) hne
        (fun k hk M' => hfound k hk M') fun hno M' => habsent hno M'
      rwa [Nat.cast_succ] at this

/-- The entry with inode number `w` is cleared; if it was in the last slot, the directory gets the
size of the other entries. -/
theorem RootDir.wp_removeDirEntry {w : BitVec 32} {Q : Unit → Fs → Prop} {T : Nat → Slot _ _}
    (h : RootDir size n p s) (hT : T = dirSlots s.disk (dirAddr size))
    (hinner : ∀ k, first (fun k => (T k).val = w) n = some k → k + 1 ≠ n →
      ∀ M, Q () (s.io (clearSlot s.disk (dirAddr size) k) M))
    (hlast : ∀ k s', first (fun k => (T k).val = w) n = some k → k + 1 = n →
      s' = s.setInode p ({ · with iSize := BitVec.ofNat 32 (16 * used T k) }) →
      ∀ M, Q () (s'.io (putWords (clearSlot s.disk (dirAddr size) k) (inodeAddr size 1)
        (s'.inodeTable p).words) M))
    (habsent : first (fun k => (T k).val = w) n = none →
      ∀ M, E (.assertion "flg") (s.io s.disk M)) :
    wp (removeDirEntry p w.toInt) Q E s := by
  have hle := h.le
  rw [removeDirEntry, wp_bind, wp_get]
  dsimp only
  rw [h.nrDirEntries, h.nrDirBlks, toInt_ofNat_of_lt (by omega), wp_bind]
  refine wp_clearEntryBlks (i := 0) hT h.iDev h.toInt_start (Nat.zero_le _) hle (by omega)
    (fun k hk => absurd hk (Nat.not_lt_zero k)) (fun k hk M => ?_) fun hno M => ?_
  · dsimp only
    rw [wp_bind, wp_assert_of rfl, wp_onlyIf]
    refine ⟨fun heq => ?_, fun hne => hinner k hk (by omega) M⟩
    rw [wp_bind, wp_setInode, BitVec.ofInt_natCast, Fs.io_setInode]
    have hused : used T k ≤ k := used_le
    exact (h.resize (by omega)).io.wp_syncInode fun M' => hlast k _ hk (by omega) rfl M'
  · dsimp only
    rw [wp_bind]
    exact habsent hno M

end

end Dlos
