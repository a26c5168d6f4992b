import Dlos.Fs.NewEntry
import Dlos.Fs.Removal

/-!
# A new file system

What `mkfs` leaves on the disk, and the state in which `init_fs` ends.
-/

namespace Dlos

open Program Bytes Slot

/-! ## The disk -/

/-- The names in a new root directory, with their inode numbers. -/
def newNames : List (BitVec 32 × String) :=
  (1, ".") :: (List.range nrConsoles).map fun i => (BitVec.ofNat 32 (i + 2), "dev_tty" ++ toString i)

/-- The inodes of a new file system, from number 1 on. -/
def newInodes (size : BitVec 32) : List Inode :=
  rootDirInode (newSuperBlock size) :: (List.range nrConsoles).map ttyInode

section

variable (size : BitVec 32) (D : Store)

def formatSuper : Store := putWords (fill D 512 512 0x90) 512 (newSuperBlock size).words

def formatImap : Store := mark (fill D (512 * 2) 512 0) (4096 * 2) true (nrConsoles + 2)

def formatSmap : Store :=
  mark (fill D (512 * 3) (512 * nrSmap size) 0) (4096 * 3) true (nrDefaultFileSects + 1)

def formatInodes : Store :=
  (newInodes size).zipIdx.foldl (fun D e => putWords D (inodeAddr size (e.2 + 1)) e.1.words)
    (fill D (inodeAddr size 1) 512 0)

def formatDir : Store :=
  newNames.zipIdx.foldl (fun D e => addEntry D (dirAddr size) e.2 e.1.1 (fileName e.1.2))
    (fill D (dirAddr size) 512 0)

/-- The disk after `mkfs`. -/
def formatDisk : Store :=
  formatDir size (formatInodes size (formatSmap size (formatImap (formatSuper size D))))

end

section

variable {size : BitVec 32} {s : Fs} {D M : Store} {n k : Nat} {E : Halt → Fs → Prop}
  {Q : Unit → Fs → Prop}

/-! ## Writing it -/

/-- A buffer that was filled takes the place of the sector. -/
theorem view_fill_all {b : Byte} : view D (fill M (fsbuf + 0) 512 b) n = fill D (512 * n) 512 b := by
  funext a
  by_cases ha : 512 * n ≤ a ∧ a < 512 * n + 512
  · rw [fill_of_mem ha.1 ha.2, view, blit_of_mem ha.1 ha.2, fill_of_mem (by omega) (by omega)]
  · rw [fill_of_notMem (by omega), view, blit_of_notMem (by omega)]

theorem fill_full {m : Store} {d : Nat} : fill m d n 0xFF = mark m (8 * d) true (8 * n) := by
  refine ext_bit fun k => ?_
  rw [bit_fill, bit_mark, show 8 * (d + n) = 8 * d + 8 * n by omega]
  split_ifs
  · exact eq_full_iff.mp rfl _ (Nat.mod_lt _ (by omega))
  · rfl

theorem fill_fill {m : Store} {d i : Nat} {b : Byte} :
    fill (fill m d n b) (d + n) i b = fill m d (n + i) b := by
  funext a
  simp only [fill]
  grind

theorem wp_setLowBits {j : Nat} (hn : n ≤ 8)
    (hQ : Q () (s.io s.disk (mark s.mem (8 * (fsbuf + j)) true n))) : wp (setLowBits j n) Q E s := by
  induction n generalizing Q with
  | zero => exact hQ
  | succ n ih =>
    rw [setLowBits, wp_bind]
    refine ih (by omega) ?_
    rw [← mark_mark] at hQ
    rw [wp_bind, wp_bufAt, wp_setBuf, Fs.io_mem, Fs.io_disk, update_or (by omega)]
    exact hQ

theorem wp_mkInodeMap (hQ : ∀ M, Q () (s.io (formatImap s.disk) M)) : wp mkInodeMap Q E s := by
  obtain ⟨M, hM⟩ : ∃ M, M = mark (fill s.mem (fsbuf + 0) 512 0) (8 * (fsbuf + 0)) true 5 := ⟨_, rfl⟩
  have hbyte : M (fsbuf + 0) = 0x1F := by
    refine BitVec.eq_of_getLsbD_eq fun i hi => ?_
    have hlow : (0x1F#8).getLsbD i = decide (i < 5) := by
      revert i
      decide
    change _ = (0x1F#8).getLsbD i
    rw [← bit_mul_add hi, hM, bit_mark, bit_fill, hlow]
    split_ifs with h h'
    · exact (decide_eq_true (by omega)).symm
    · exact BitVec.getLsbD_zero.trans (decide_eq_false (by omega)).symm
    · omega
  have hview : view s.disk M 2 = formatImap s.disk := by
    rw [hM, ← Nat.add_zero (8 * _), view_mark (by decide), view_fill_all, Nat.add_zero]
    rfl
  rw [mkInodeMap, wp_bind, wp_memsetBuf, wp_bind]
  refine wp_setLowBits (by decide) ?_
  change wp _ Q E (s.io s.disk (mark (fill s.mem (fsbuf + 0) 512 0) (8 * (fsbuf + 0)) true 5))
  rw [← hM, wp_bind, wp_bufAt, wp_bind]
  refine (wp_assert_of hbyte).mpr ((wp_wrSect_view (n := 2) (by omega)).mpr ?_)
  rw [Fs.io_disk, Fs.io_mem, Fs.io_io, hview]
  exact hQ M

theorem wp_wrSects (hn : n + k ≤ 2 ^ 23) (hzero : ∀ i < 512, s.mem (fsbuf + i) = 0)
    (hQ : Q () (s.io (fill s.disk (512 * n) (512 * k) 0) s.mem)) :
    wp (wrSects rootDev (n : Nat) k) Q E s := by
  induction k generalizing Q with
  | zero =>
    have hnone : fill s.disk (512 * n) (512 * 0) 0 = s.disk := by
      funext a
      exact fill_of_notMem (by omega)
    rw [hnone] at hQ
    exact hQ
  | succ k ih =>
    rw [wrSects, wp_bind]
    refine ih (by omega) ?_
    have hview : view (fill s.disk (512 * n) (512 * k) 0) s.mem (n + k) =
        fill s.disk (512 * n) (512 * (k + 1)) 0 := by
      rw [Nat.mul_succ, ← fill_fill]
      funext a
      by_cases ha : 512 * (n + k) ≤ a ∧ a < 512 * (n + k) + 512
      · obtain ⟨i, rfl⟩ := Nat.exists_eq_add_of_le ha.1
        rw [view_apply (by omega), hzero i (by omega), fill_of_mem (by omega) (by omega)]
      · rw [view_of_notMem (by omega), fill_of_notMem (d := 512 * n + 512 * k) (by omega)]
    rw [← Nat.cast_add, wp_wrSect_view (by omega)]
    simp only [Fs.io_mem, Fs.io_disk, Fs.io_io]
    rwa [hview]

theorem toInt_smapStart : (2 + (newSuperBlock size).nrImapSects).toInt = ((3 : Nat) : Int) := by
  change (2 + 1 : BitVec 32).toInt = _
  decide

theorem wp_mkSectorMap (hQ : ∀ M, Q () (s.io (formatSmap size s.disk) M)) :
    wp (mkSectorMap (newSuperBlock size)) Q E s := by
  have hsmap : nrSmap size ≤ 2 ^ 20 := nrSmap_le
  have hpos : 1 ≤ nrSmap size := Nat.le_add_left 1 _
  have hcount : (newSuperBlock size).nrSmapSects.toNat = nrSmap size := toNat_nrSmapSects
  obtain ⟨M, hM⟩ : ∃ M, M = mark (fill s.mem (fsbuf + 0) 512 0) (8 * fsbuf + 0) true 2049 := ⟨_, rfl⟩
  have hmem : mark (fill (fill s.mem (fsbuf + 0) 512 0) (fsbuf + 0) 256 0xFF) (8 * (fsbuf + 256)) true 1 =
      M := by
    have hbits : 8 * (fsbuf + 256) = 8 * (fsbuf + 0) + 8 * 256 := by decide
    have hcount : 8 * 256 + 1 = 2049 := by decide
    rw [hM, fill_full, hbits, mark_mark, hcount]
    rfl
  have hview : view s.disk M 3 = mark (fill s.disk (512 * 3) 512 0) (4096 * 3) true 2049 := by
    rw [hM, view_mark (by decide), view_fill_all, Nat.add_zero]
  have hdisk : fill (mark (fill s.disk (512 * 3) 512 0) (4096 * 3) true 2049) (512 * (3 + 1))
      (512 * (nrSmap size - 1)) 0 = formatSmap size s.disk := by
    refine ext_bit fun k => ?_
    rw [formatSmap, bit_fill, bit_mark, bit_mark, bit_fill, bit_fill]
    grind
  rw [mkSectorMap]
  simp only [wp_bind, wp_memsetBuf]
  refine wp_setLowBits (by decide) ?_
  rw [toInt_smapStart]
  change wp (wrSect rootDev ((3 : Nat) : Int)) _ E (s.io s.disk (mark (fill (fill s.mem (fsbuf + 0) 512 0)
    (fsbuf + 0) 256 0xFF) (8 * (fsbuf + 256)) true 1))
  rw [hmem, wp_wrSect_view (by omega), hcount, ← Nat.cast_succ]
  have hzero : ∀ i < 512, fill M (fsbuf + 0) 512 0 (fsbuf + i) = 0 := fun i hi =>
    fill_of_mem (by omega) (by omega)
  refine wp_wrSects (by omega) hzero ?_
  simp only [Fs.io_mem, Fs.io_disk, Fs.io_io]
  rw [hview, hdisk]
  exact hQ _

theorem toInt_inodeStart : (2 + (newSuperBlock size).nrImapSects + (newSuperBlock size).nrSmapSects).toInt =
    ((nrSmap size + 3 : Nat) : Int) := by
  have hsmap : nrSmap size ≤ 2 ^ 20 := nrSmap_le
  have hcount : (newSuperBlock size).nrSmapSects.toNat = nrSmap size := toNat_nrSmapSects
  have hthree : (2 + (newSuperBlock size).nrImapSects).toNat = 3 := rfl
  have hsum : (2 + (newSuperBlock size).nrImapSects + (newSuperBlock size).nrSmapSects).toNat =
      nrSmap size + 3 := by
    rw [BitVec.toNat_add, hthree, hcount]
    omega
  rw [BitVec.toInt_eq_toNat_of_lt (by omega), hsum]

theorem wp_mkInodes (hQ : ∀ M, Q () (s.io (formatInodes size s.disk) M)) :
    wp (mkInodes (newSuperBlock size)) Q E s := by
  have hsmap : nrSmap size ≤ 2 ^ 20 := nrSmap_le
  have hconsoles : List.range nrConsoles = [0, 1, 2] := rfl
  have haddr (i : Nat) : 512 * (nrSmap size + 3) + 32 * i = inodeAddr size (i + 1) := rfl
  have hwords (i : Inode) : i.words.length = 4 := rfl
  have hput {M : Store} {i : Nat} {x : Inode} (hi : i < 16) :
      view s.disk (putWords M (fsbuf + 32 * i) x.words) (nrSmap size + 3) =
        putWords (view s.disk M (nrSmap size + 3)) (inodeAddr size (i + 1)) x.words := by
    rw [view_putWords (by rw [hwords]; omega), haddr]
  rw [mkInodes, hconsoles]
  simp only [wp_bind, wp_memsetBuf, wp_putBufWords, wp_forM_cons, wp_forM_nil, Fs.io_mem, Fs.io_disk,
    Fs.io_io]
  rw [toInt_inodeStart, wp_wrSect_view (by omega), Fs.io_disk, Fs.io_mem, Fs.io_io]
  simp only [inodeSize]
  rw [hput (by omega), hput (by omega), hput (by omega), ← Nat.mul_zero 32, hput (by omega), Nat.mul_zero,
    view_fill_all]
  exact hQ _

theorem toInt_dirStart : (newSuperBlock size).n1stSect.toInt = (firstSect size : Nat) := by
  have hfirst : firstSect size ≤ 2 ^ 20 + 259 := firstSect_le
  have hnat : (newSuperBlock size).n1stSect.toNat = firstSect size := toNat_n1stSect
  rw [BitVec.toInt_eq_toNat_of_lt (by omega), hnat]

theorem cName_eq {t : String} : cName t = fileName t ++ [0] := by
  rw [fileName, cName, List.dropLast_concat]

theorem wp_mkRootDir (hQ : ∀ M, Q () (s.io (formatDir size s.disk) M)) :
    wp (mkRootDir (newSuperBlock size)) Q E s := by
  have hfirst : firstSect size ≤ 2 ^ 20 + 259 := firstSect_le
  have hconsoles : List.range nrConsoles = [0, 1, 2] := rfl
  have hput {M : Store} {k : Nat} {w : BitVec 32} {t : String} (hk : k < 32) :
      view s.disk (putBytes (putWords M (fsbuf + 16 * k) [w]) (fsbuf + (16 * k + 4)) (cName t))
        (firstSect size) = addEntry (view s.disk M (firstSect size)) (dirAddr size) k w (fileName t) := by
    rw [cName_eq, view_addEntry (a := dirAddr size) (k := k) (i := 0) hk (by omega) rfl]
  rw [mkRootDir, hconsoles]
  simp only [wp_bind, wp_memsetBuf, wp_putBufWords, wp_putBuf, wp_forM_cons, wp_forM_nil, Fs.io_mem,
    Fs.io_disk, Fs.io_io]
  rw [toInt_dirStart, wp_wrSect_view (by omega), Fs.io_disk, Fs.io_mem, Fs.io_io]
  have hdot {M : Store} : putBytes (putWords M (fsbuf + 0) [1]) (fsbuf + 4) (cName ".") =
      putBytes (putWords M (fsbuf + 16 * 0) [1]) (fsbuf + (16 * 0 + 4)) (cName ".") := rfl
  simp only [dirEntrySize]
  rw [hput (by omega), hput (by omega), hput (by omega), hdot, hput (by omega), view_fill_all]
  exact hQ _

/-- The hard disk has a driver. -/
theorem wp_discard_driverOf : wp (discard (driverOf rootDev)) Q E s ↔ Q () s := by
  change wp (driverOf rootDev >>= fun _ => pure ()) Q E s ↔ Q () s
  rw [wp_bind, wp_of_ok driverOf_rootDev, wp_pure]

/-- What `mkfs` does to the disk. -/
theorem wp_mkfs (hsize : s.geoSize = size) (hQ : ∀ M, Q () (s.io (formatDisk size s.disk) M)) :
    wp mkfs Q E s := by
  have hsuper {M : Store} : view s.disk (putWords (fill M (fsbuf + 0) 512 0x90) (fsbuf + 0)
      (newSuperBlock size).words) 1 = formatSuper size s.disk := by
    have hlen : (newSuperBlock size).words.length = 14 := rfl
    rw [view_putWords (by omega), view_fill_all]
    rfl
  rw [mkfs, wp_bind, wp_discard_driverOf]
  simp only [wp_bind, wp_get, wp_memsetBuf, wp_putBufWords, hsize, Fs.io_mem, Fs.io_disk, Fs.io_io]
  refine (wp_wrSect_view (n := 1) (by omega)).mpr ?_
  rw [Fs.io_disk, Fs.io_mem, Fs.io_io, hsuper]
  refine wp_mkInodeMap fun M => wp_mkSectorMap fun M => wp_mkInodes fun M => wp_mkRootDir fun M => ?_
  rw [formatDisk] at hQ
  rw [Fs.io_disk, Fs.io_io, Fs.io_disk, Fs.io_io, Fs.io_disk, Fs.io_io, Fs.io_disk, Fs.io_io]
  exact hQ M

/-! ## What it leaves -/

/-- The slots of a new root directory. -/
def newSlot (k : Nat) : Slot (List Byte) (BitVec 32) :=
  match newNames[k]? with
  | some e => ⟨e.1, padName (fileName e.2)⟩
  | none => ⟨0, padName []⟩

/-- A disk after `mkfs`: inodes 0 to 4 and the bits of the root directory are taken. -/
structure Formatted (size : BitVec 32) (D : Store) : Prop where
  super : { SuperBlock.ofWords D 512 with sbDev := rootDev } = rootSuper size
  imap : ∀ m < 4096, bit D (4096 * 2 + m) = decide (m < nrConsoles + 2)
  smap : ∀ b < 4096 * nrSmap size, bit D (4096 * 3 + b) = decide (b < nrDefaultFileSects + 1)
  record : ∀ m i, (newInodes size)[m]? = some i → recordAt D (inodeAddr size (m + 1)) = i.record
  slots : ∀ k < 32, dirSlots D (dirAddr size) k = newSlot k

theorem formatImap_of_notMem {a : Nat} (h : a < 512 * 2 ∨ 512 * 3 ≤ a) : formatImap D a = D a := by
  have hconsoles : nrConsoles = 3 := rfl
  rw [formatImap, mark_of_notMem (by omega), fill_of_notMem (by omega)]

theorem formatSmap_of_notMem {a : Nat} (h : a < 512 * 3 ∨ 512 * (nrSmap size + 3) ≤ a) :
    formatSmap size D a = D a := by
  have hpos : 1 ≤ nrSmap size := Nat.le_add_left 1 _
  have hsects : nrDefaultFileSects = 2048 := rfl
  rw [formatSmap, mark_of_notMem (by omega), fill_of_notMem (by omega)]

theorem formatInodes_eq : formatInodes size D =
    putWords (putWords (putWords (putWords (fill D (inodeAddr size 1) 512 0) (inodeAddr size 1)
      (rootDirInode (newSuperBlock size)).words) (inodeAddr size 2) (ttyInode 0).words) (inodeAddr size 3)
      (ttyInode 1).words) (inodeAddr size 4) (ttyInode 2).words := rfl

theorem formatInodes_of_notMem {a : Nat}
    (h : a < 512 * (nrSmap size + 3) ∨ 512 * (nrSmap size + 4) ≤ a) : formatInodes size D a = D a := by
  have hwords (i : Inode) : i.words.length = 4 := rfl
  simp only [formatInodes_eq, inodeAddr]
  rw [putWords_of_notMem (by rw [hwords]; omega), putWords_of_notMem (by rw [hwords]; omega),
    putWords_of_notMem (by rw [hwords]; omega), putWords_of_notMem (by rw [hwords]; omega),
    fill_of_notMem (by omega)]

theorem formatDir_eq : formatDir size D =
    addEntry (addEntry (addEntry (addEntry (fill D (dirAddr size) 512 0) (dirAddr size) 0 1 (fileName "."))
      (dirAddr size) 1 2 (fileName ("dev_tty" ++ toString 0))) (dirAddr size) 2 3
      (fileName ("dev_tty" ++ toString 1))) (dirAddr size) 3 4 (fileName ("dev_tty" ++ toString 2)) := rfl

theorem formatDir_of_notMem {a : Nat} (h : a < dirAddr size ∨ dirAddr size + 512 ≤ a) :
    formatDir size D a = D a := by
  rw [formatDir_eq, addEntry_of_notMem (by decide) (by omega), addEntry_of_notMem (by decide) (by omega),
    addEntry_of_notMem (by decide) (by omega), addEntry_of_notMem (by decide) (by omega),
    fill_of_notMem (by omega)]

/-- Where there were only zeros behind the name, an entry is as it is looked up. -/
theorem dirSlots_addEntry {a : Nat} {w : BitVec 32} {name : List Byte} (hlen : name.length ≤ 11)
    (hzero : ∀ i, name.length < i → i < 12 → D (a + 16 * k + 4 + i) = 0) :
    dirSlots (addEntry D a k w name) a = Function.update (dirSlots D a) k ⟨w, padName name⟩ := by
  funext j
  by_cases hj : j = k
  · subst hj
    have hval : (dirSlots (addEntry D a j w name) a j).val = w := val_addEntry
    have hkey := (key_addEntry (D := D) (a := a) (k := j) (w := w) (by omega)).mpr hzero
    rw [Function.update_self, ← hkey]
    exact congrArg (Slot.mk · _) hval
  · rw [Function.update_of_ne hj]
    exact dirSlots_congr fun x hx => addEntry_of_ne (by omega) hj (fun _ h12 => by omega) hx

theorem dirSlots_formatDir (hk : k < 32) : dirSlots (formatDir size D) (dirAddr size) k = newSlot k := by
  obtain ⟨a, ha⟩ : ∃ a, a = dirAddr size := ⟨_, rfl⟩
  have hfree (j : Nat) (hj : j < 32) : dirSlots (fill D a 512 0) a j = ⟨0, padName []⟩ := by
    have hclear : dirSlots (fill D a 512 0) a = dirSlots (clearSlot (fill D a 512 0) a j) a := by
      congr 1
      funext x
      by_cases hx : a + 16 * j ≤ x ∧ x < a + 16 * j + 16
      · rw [clearSlot, fill_of_mem hx.1 hx.2, fill_of_mem (by omega) (by omega)]
      · rw [clearSlot, fill_of_notMem (d := a + 16 * j) (by omega)]
    rw [hclear, dirSlots_clearSlot, Function.update_self]
  -- an entry in a free slot
  have hnil : ([] : List Byte).length ≤ 12 := Nat.zero_le 12
  have hadd (D' : Store) (j : Nat) (w : BitVec 32) (t : String) (hlen : (fileName t).length ≤ 11)
      (h : dirSlots D' a j = ⟨0, padName []⟩) :
      dirSlots (addEntry D' a j w (fileName t)) a =
        Function.update (dirSlots D' a) j ⟨w, padName (fileName t)⟩ :=
    dirSlots_addEntry hlen fun i _ hi' => (key_eq_padName hnil).mp (congrArg Slot.key h) i hi'
  rw [formatDir_eq, ← ha]
  have h0 := hadd _ 0 1 "." (by decide) (hfree 0 (by omega))
  generalize addEntry (fill D a 512 0) a 0 1 (fileName ".") = D₀ at h0 ⊢
  have h1 := hadd D₀ 1 2 ("dev_tty" ++ toString 0) (by decide)
    (by rw [h0, Function.update_of_ne (by decide), hfree 1 (by omega)])
  generalize addEntry D₀ a 1 2 (fileName ("dev_tty" ++ toString 0)) = D₁ at h1 ⊢
  have h2 := hadd D₁ 2 3 ("dev_tty" ++ toString 1) (by decide)
    (by rw [h1, h0, Function.update_of_ne (by decide), Function.update_of_ne (by decide), hfree 2 (by omega)])
  generalize addEntry D₁ a 2 3 (fileName ("dev_tty" ++ toString 1)) = D₂ at h2 ⊢
  have h3 := hadd D₂ 3 4 ("dev_tty" ++ toString 2) (by decide)
    (by rw [h2, h1, h0, Function.update_of_ne (by decide), Function.update_of_ne (by decide),
      Function.update_of_ne (by decide), hfree 3 (by omega)])
  rw [h3, h2, h1, h0]
  by_cases hnew : k < 4
  · obtain rfl | rfl | rfl | rfl : k = 0 ∨ k = 1 ∨ k = 2 ∨ k = 3 := by omega
    · rfl
    · rfl
    · rfl
    · rfl
  · have hnone : newNames[k]? = none := List.getElem?_eq_none (by change 4 ≤ k; omega)
    rw [newSlot, hnone, Function.update_of_ne (by omega), Function.update_of_ne (by omega),
      Function.update_of_ne (by omega), Function.update_of_ne (by omega), hfree k hk]

theorem bit_congr {D' : Store} {j : Nat} (h : D' (j / 8) = D (j / 8)) : bit D' j = bit D j := by
  rw [bit, bit, h]

theorem formatted_formatDisk : Formatted size (formatDisk size D) := by
  have hpos : 1 ≤ nrSmap size := Nat.le_add_left 1 _
  obtain ⟨D₁, hD₁⟩ : ∃ D₁, D₁ = formatSuper size D := ⟨_, rfl⟩
  obtain ⟨D₂, hD₂⟩ : ∃ D₂, D₂ = formatImap D₁ := ⟨_, rfl⟩
  obtain ⟨D₃, hD₃⟩ : ∃ D₃, D₃ = formatSmap size D₂ := ⟨_, rfl⟩
  obtain ⟨D₄, hD₄⟩ : ∃ D₄, D₄ = formatInodes size D₃ := ⟨_, rfl⟩
  have hdisk : formatDisk size D = formatDir size D₄ := by rw [hD₄, hD₃, hD₂, hD₁, formatDisk]
  have hdir {a : Nat} (h : a < 512 * (nrSmap size + 4)) : formatDir size D₄ a = D₄ a :=
    formatDir_of_notMem (.inl (by rw [dirAddr, firstSect]; omega))
  have hinodes {a : Nat} (h : a < 512 * (nrSmap size + 3)) : formatDir size D₄ a = D₃ a := by
    rw [hdir (by omega), hD₄, formatInodes_of_notMem (.inl h)]
  have hsmap {a : Nat} (h : a < 512 * 3) : formatDir size D₄ a = D₂ a := by
    rw [hinodes (by omega), hD₃, formatSmap_of_notMem (.inl h)]
  rw [hdisk]
  refine ⟨?_, fun m hm => ?_, fun b hb => ?_, fun m i hi => ?_, fun k hk => dirSlots_formatDir hk⟩
  · have hword (i : Nat) (hi : i < 14) : word (formatDir size D₄) (512 + 4 * i) =
        (newSuperBlock size).words.getD i 0 := by
      have hput : word (formatSuper size D) (512 + 4 * i) = (newSuperBlock size).words.getD i 0 :=
        word_putWords hi
      rw [← hput, ← hD₁]
      refine word_congr fun x hx => ?_
      rw [hsmap (by omega), hD₂, formatImap_of_notMem (.inl (by omega))]
    simp only [SuperBlock.ofWords, rootSuper, SuperBlock.mk.injEq]
    exact ⟨hword 0 (by omega), hword 1 (by omega), hword 2 (by omega), hword 3 (by omega),
      hword 4 (by omega), hword 5 (by omega), hword 6 (by omega), hword 7 (by omega),
      hword 8 (by omega), hword 9 (by omega), hword 10 (by omega), hword 11 (by omega),
      hword 12 (by omega), hword 13 (by omega), trivial⟩
  · have hconsoles : nrConsoles = 3 := rfl
    rw [bit_congr (hsmap (by omega)), hD₂, formatImap, bit_mark, bit_fill]
    split_ifs with h h'
    · exact (decide_eq_true (by omega)).symm
    · exact BitVec.getLsbD_zero.trans (decide_eq_false (by omega)).symm
    · omega
  · have hsects : nrDefaultFileSects = 2048 := rfl
    rw [bit_congr (hinodes (by omega)), hD₃, formatSmap, bit_mark, bit_fill]
    split_ifs with h h'
    · exact (decide_eq_true (by omega)).symm
    · exact BitVec.getLsbD_zero.trans (decide_eq_false (by omega)).symm
    · omega
  · have hwords (i : Inode) : i.words.length = 4 := rfl
    have hm : m < 4 := (List.getElem?_eq_some_iff.mp hi).1
    have hcongr : recordAt (formatDir size D₄) (inodeAddr size (m + 1)) =
        recordAt D₄ (inodeAddr size (m + 1)) :=
      recordAt_congr fun x _ hx => hdir (by rw [inodeAddr] at hx; omega)
    have hput {D' : Store} {j : Nat} {x : Inode} (hj : m + 1 < j) (hj' : j ≤ 4) :
        recordAt (putWords D' (inodeAddr size j) x.words) (inodeAddr size (m + 1)) =
          recordAt D' (inodeAddr size (m + 1)) :=
      recordAt_congr fun x hx hx' => putWords_of_notMem
        (.inl (by simp only [inodeAddr] at hx hx' ⊢; omega))
    rw [hcongr, hD₄, formatInodes_eq]
    obtain rfl | rfl | rfl | rfl : m = 0 ∨ m = 1 ∨ m = 2 ∨ m = 3 := by omega
    · rw [hput (by omega) (by omega), hput (by omega) (by omega), hput (by omega) (by omega),
        recordAt_putWords]
      exact congrArg Inode.record (Option.some.inj hi)
    · rw [hput (by omega) (by omega), hput (by omega) (by omega), recordAt_putWords]
      exact congrArg Inode.record (Option.some.inj hi)
    · rw [hput (by omega) (by omega), recordAt_putWords]
      exact congrArg Inode.record (Option.some.inj hi)
    · rw [recordAt_putWords]
      exact congrArg Inode.record (Option.some.inj hi)

/-- Only the first sector of the root directory is written of the data. -/
theorem formatDisk_of_le {a : Nat} (h : dirAddr size + 512 ≤ a) : formatDisk size D a = D a := by
  have hpos : 1 ≤ nrSmap size := Nat.le_add_left 1 _
  have haddr : dirAddr size = 512 * (nrSmap size + 259) := rfl
  have hwords : (newSuperBlock size).words.length = 14 := rfl
  rw [formatDisk, formatDir_of_notMem (.inr h), formatInodes_of_notMem (by omega),
    formatSmap_of_notMem (by omega), formatImap_of_notMem (by omega), formatSuper,
    putWords_of_notMem (by omega), fill_of_notMem (by omega)]

/-! ## The first state -/

/-- The state in which `init_fs` ends: only the root directory's inode, in slot `p`, is in use. -/
structure Started (size : BitVec 32) (p : Fin nrInode) (s : Fs) : Prop where
  disk : Formatted size s.disk
  rootInode : s.rootInode = some p
  super : s.super rootDev = some (rootSuper size)
  root : s.inodeTable p = (rootDirInode (newSuperBlock size)).record.inode rootInodeNr
  others : ∀ q ≠ p, s.inodeTable q = {}
  fDescTable : ∀ d, s.fDescTable d = {}
  filp : ∀ pid j, s.filp pid j = none
  logPos : s.logPos = 0
  geoSize : s.geoSize = size

theorem Started.rootDir {p : Fin nrInode} (h : Started size p s) : RootDir size 4 p s where
  rootInode := h.rootInode
  super := h.super
  iMode := by rw [h.root]; rfl
  iDev := by rw [h.root]; rfl
  iNum := by rw [h.root]; rfl
  iStartSect := by
    rw [h.root, ← BitVec.toNat_inj, BitVec.toNat_ofNat, Nat.mod_eq_of_lt]
    · exact toNat_n1stSect
    · have : firstSect size ≤ 2 ^ 20 + 259 := firstSect_le
      omega
  iSize := by rw [h.root]; rfl
  le := by decide
  cached := by
    rw [h.root, Inode.cached]
    exact one_ne_zero

/-- The super block is read into the first place. -/
theorem wp_readSuperBlock (hfree : ∀ i, (s.superBlock i).sbDev = noDev)
    (hsuper : { SuperBlock.ofWords s.disk 512 with sbDev := rootDev } = rootSuper size)
    (hQ : ∀ M, Q () { s.io s.disk M with
      superBlock := Function.update s.superBlock 0 (rootSuper size) }) :
    wp (readSuperBlock rootDev) Q E s := by
  have hfirst : (List.finRange nrSuperBlock).find? (fun i => (s.superBlock i).sbDev = noDev) =
      some 0 := by
    rw [List.finRange_succ]
    exact List.find?_cons_of_pos (decide_eq_true (hfree 0))
  have hpos : (BitVec.ofNat 32 sectorSize).toNat = 512 := by decide
  obtain ⟨M, hM⟩ : ∃ M, M = blit s.mem fsbuf s.disk 512 512 := ⟨_, rfl⟩
  have hword (k : Nat) (hk : k ≤ 508) : word M (fsbuf + k) = word s.disk (512 + k) := by
    rw [hM, word_blit (by omega) (by omega), Nat.add_sub_cancel_left]
  have hwords : { SuperBlock.ofWords M fsbuf with sbDev := rootDev } = rootSuper size := by
    rw [← hsuper]
    simp only [SuperBlock.ofWords, SuperBlock.mk.injEq]
    exact ⟨hword 0 (by omega), hword 4 (by omega), hword 8 (by omega), hword 12 (by omega),
      hword 16 (by omega), hword 20 (by omega), hword 24 (by omega), hword 28 (by omega),
      hword 32 (by omega), hword 36 (by omega), hword 40 (by omega), hword 44 (by omega),
      hword 48 (by omega), hword 52 (by omega), trivial⟩
  rw [readSuperBlock, wp_bind, wp_rwSector, if_pos rfl, hpos, ← hM, wp_bind, wp_get]
  split
  case h_1 hnone => exact absurd (hnone.symm.trans hfirst) (Option.some_ne_none 0).symm
  case h_2 i hi =>
    obtain rfl := Option.some.inj (hi.symm.trans hfirst)
    rw [wp_bind, wp_assert_of rfl, wp_modify]
    simp only [Fs.io_mem, Fs.io_superBlock, hwords]
    exact hQ M

/-- The inode of the root directory is taken. -/
theorem wp_getRoot (hdisk : Formatted size s.disk) (hsuper : s.super rootDev = some (rootSuper size))
    (hinode : ∀ q, s.inodeTable q = {}) (hdesc : ∀ d, s.fDescTable d = {})
    (hfilp : ∀ pid j, s.filp pid j = none) (hpos : s.logPos = 0) (hgeo : s.geoSize = size)
    (hQ : ∀ p u, Started size p u → u.disk = s.disk → Q () u) :
    wp (do
        let root ← getInode rootDev rootInodeNr
        modify fun u => { u with rootInode := root }) Q (fun _ _ => False) s := by
  have hoff : 0 ≤ inodeOff rootInodeNr := Int.le_refl 0
  rw [wp_bind]
  refine wp_getInode hsuper (by decide) (fun q hq => ?_) (fun _ q M r hfree _ hr => ?_)
    (fun hall => ?_) fun hno => absurd hoff hno
  · rw [hinode] at hq
    exact absurd rfl hq
  · have hrecord : r = (rootDirInode (newSuperBlock size)).record := by
      rw [hr 1 rfl (by omega)]
      exact hdisk.record 0 _ rfl
    rw [wp_modify]
    refine hQ q _ ⟨hdisk, rfl, hsuper, ?_, fun q' hq' => ?_, hdesc, hfilp, hpos, hgeo⟩ rfl
    · rw [← hrecord]
      change (s.setInode q fun _ => r.inode rootInodeNr).inodeTable q = _
      exact Fs.setInode_self
    · change (s.setInode q fun _ => r.inode rootInodeNr).inodeTable q' = _
      exact (Fs.setInode_of_ne hq').trans (hinode q')
  · have := hall 0
    rw [hinode] at this
    exact absurd rfl this

/-- `init_fs` ends, with a new file system; behind the first sector of the root directory the disk is as
it was. -/
theorem wp_initFs_started {s₀ : Fs} (h : Booted s₀) :
    wp initFs (fun _ u => (∃ p, Started s₀.geoSize p u) ∧
      ∀ a, dirAddr s₀.geoSize + 512 ≤ a → u.disk a = s₀.disk a) (fun _ _ => False) s₀ := by
  have hmagic : (rootSuper s₀.geoSize).magic = magicV1 := rfl
  rw [initFs, wp_bind, wp_modify, wp_bind, wp_discard_driverOf, wp_bind]
  refine wp_mkfs (rfl : _ = s₀.geoSize) fun M => ?_
  -- only these parts of the state matter, not how they came about
  generalize ht : Fs.io _ _ M = t
  have hdisk : Formatted s₀.geoSize t.disk := by
    rw [← ht, Fs.io_disk]
    exact formatted_formatDisk
  have hbehind (a : Nat) (ha : dirAddr s₀.geoSize + 512 ≤ a) : t.disk a = s₀.disk a := by
    rw [← ht, Fs.io_disk]
    exact formatDisk_of_le ha
  have hblock (i : Fin nrSuperBlock) : (t.superBlock i).sbDev = noDev := by rw [← ht, Fs.io_superBlock]
  have hinode (q : Fin nrInode) : t.inodeTable q = {} := by rw [← ht, Fs.io_inodeTable]
  have hdesc (d : Fin nrFileDesc) : t.fDescTable d = {} := by rw [← ht, Fs.io_fDescTable]
  have hfilp : t.filp = s₀.filp := by rw [← ht, Fs.io_filp]
  have hpos : t.logPos = s₀.logPos := by rw [← ht, Fs.io_logPos]
  have hgeo : t.geoSize = s₀.geoSize := by rw [← ht, Fs.io_geoSize]
  clear ht
  rw [wp_bind]
  refine wp_readSuperBlock hblock hdisk.super fun M => ?_
  generalize hu : ({ t.io t.disk M with superBlock := _ } : Fs) = u
  have hsuper : u.super rootDev = some (rootSuper s₀.geoSize) := by
    have hfirst : (List.finRange nrSuperBlock).find? (fun i => (u.superBlock i).sbDev = rootDev) =
        some 0 := by
      rw [List.finRange_succ]
      refine List.find?_cons_of_pos (decide_eq_true ?_)
      rw [← hu]
      rfl
    rw [Fs.super, hfirst, ← hu]
    rfl
  rw [wp_bind, wp_getSuperBlock hsuper, wp_bind, wp_assert_of hmagic]
  subst hu
  exact wp_getRoot hdisk hsuper hinode hdesc (hfilp ▸ h.filp) (hpos.trans h.logPos) hgeo
    fun p v hv hdisk' => ⟨⟨p, hv⟩, fun a ha => (congrFun hdisk' a).trans (hbehind a ha)⟩

/-- Every partition has a first state. -/
theorem exists_started (size : BitVec 32) : ∃ s p, fsMachine.initial s ∧ Started size p s := by
  obtain ⟨s₀, hs₀, rfl⟩ : ∃ s₀ : Fs, Booted s₀ ∧ s₀.geoSize = size :=
    ⟨{ rootState [] with geoSize := size }, ⟨fun _ _ => rfl, rfl, rfl⟩, rfl⟩
  obtain ⟨_, s, hrun, ⟨p, hp⟩, -⟩ := (wp_initFs_started hs₀).exists_ok
  exact ⟨s, p, ⟨s₀, hs₀, hrun⟩, hp⟩

theorem started_of_initial (h : fsMachine.initial s) : ∃ p, Started s.geoSize p s := by
  obtain ⟨s₀, hs₀, hrun⟩ := h
  obtain ⟨⟨p, hp⟩, -⟩ := (wp_of_ok hrun).mp (wp_initFs_started hs₀)
  have hsize := hp.geoSize
  exact ⟨p, hsize ▸ hp⟩

end

end Dlos
