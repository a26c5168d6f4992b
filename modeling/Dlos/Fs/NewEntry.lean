import Dlos.Fs.Directory

/-!
# Adding a name to the root directory

`new_dir_entry` writes the name with `strcpy` and `search_file` compares all 12 bytes: a name of 12
characters ends in the next slot, and a shorter one is found only if the bytes behind it were 0.
-/

namespace Dlos

open Program Bytes Slot

section

variable {size : BitVec 32} {n k : Nat} {p : Fin nrInode} {s u : Fs} {D : Store} {inodeNr : Int}
  {name : List Byte} {E : Halt → Fs → Prop}

theorem copyName_plain {m : Nat} (hlen : name.length ≤ m) (hslash : slash ∉ name) :
    copyName m name = some name := by
  induction name generalizing m with
  | nil => cases m <;> rfl
  | cons c t ih =>
    rw [List.mem_cons, not_or] at hslash
    cases m with
    | zero => simp at hlen
    | succ m =>
      have hc : c ≠ slash := fun he => hslash.1 he.symm
      rw [copyName, if_neg hc, ih (Nat.le_of_succ_le_succ hlen) hslash.2]
      rfl

theorem stripName_plain (hlen : name.length ≤ 12) (hslash : slash ∉ name) :
    stripName name = some name := by
  have hhead : name.head? ≠ some slash := fun he => hslash (List.mem_of_mem_head? he)
  rw [stripName, if_neg hhead, copyName_plain hlen hslash]

/-- One slot was changed, a hole or the one behind the last, and the name leads to the inode. -/
structure EntryAdded (s : Fs) (size : BitVec 32) (n : Nat) (p : Fin nrInode) (inodeNr : Int)
    (name : List Byte) (u : Fs) : Prop where
  slot : ∃ k, (∀ j ≠ k, bytes u.disk (dirAddr size + 16 * j) 16 =
      bytes s.disk (dirAddr size + 16 * j) 16) ∧
    (k < n ∧ (dirSlots s.disk (dirAddr size) k).val = 0 ∧
        (u.inodeTable p).iSize = BitVec.ofNat 32 (16 * n) ∨
      k = n ∧ (u.inodeTable p).iSize = BitVec.ofNat 32 (16 * (n + 1)))
  found : wp (searchFile name) (fun r _ => r = inodeNr) (fun _ _ => False) u

/-- The name fits the place of a new entry: a name of 12 characters meets the end of the sector or a
0 behind the slot, and behind a shorter one there are only 0s (or the slot that becomes the one
behind the last has the same name and number). -/
structure FitsPlace (D : Store) (a n : Nat) (inodeNr : Int) (name : List Byte) : Prop where
  next : name.length = 12 →
    (place (dirSlots D a) n + 1) % 32 = 0 ∨ D (a + 16 * (place (dirSlots D a) n + 1)) = 0
  rest : (∀ i, name.length < i → i < 12 → D (a + 16 * place (dirSlots D a) n + 4 + i) = 0) ∨
    place (dirSlots D a) n = n ∧
      dirSlots D a (n + 1) = ⟨BitVec.ofInt 32 inodeNr, padName name⟩

/-! ## Looking the name up afterwards -/

theorem lookup_addEntry {a n' : Nat} {w : BitVec 32} (hlen : name.length ≤ 12) (hw : w ≠ 0)
    (hk : place (dirSlots D a) n = k) (hn' : n' = if k = n then n + 1 else n)
    (hnot : lookup (dirSlots D a) (n + 1) (padName name) = 0) :
    lookup (dirSlots (addEntry D a k w name) a) (n' + 1) (padName name) = w ↔
      (∀ i, name.length < i → i < 12 → D (a + 16 * k + 4 + i) = 0) ∨
        k = n ∧ dirSlots D a (n + 1) = ⟨w, padName name⟩ := by
  have hkn : k ≤ n := hk ▸ place_le
  have habsent : ∀ j < k, (dirSlots D a j).key ≠ padName name := fun j hj =>
    key_ne_of_lt_place hnot j (hk.symm ▸ hj)
  have hbefore (j : Nat) (hj : j < k) :
      dirSlots (addEntry D a k w name) a j = dirSlots D a j :=
    dirSlots_congr fun x hx => addEntry_of_ne hlen hj.ne (fun he => by omega) hx
  by_cases hrest : ∀ i, name.length < i → i < 12 → D (a + 16 * k + 4 + i) = 0
  · have hfound : FoundAt (dirSlots (addEntry D a k w name) a) (n' + 1) (padName name) k :=
      ⟨by rw [hn']; split_ifs <;> omega, (key_addEntry hlen).mpr hrest, fun j hj => by
        rw [hbefore j hj]
        exact habsent j hj⟩
    rw [hfound.lookup, val_addEntry]
    exact iff_of_true rfl (.inl hrest)
  · have hshort : name.length ≠ 12 := fun he => hrest fun i hi hi' => by omega
    have hother (j : Nat) (hj : j ≠ k) :
        dirSlots (addEntry D a k w name) a j = dirSlots D a j :=
      dirSlots_congr fun x hx => addEntry_of_ne hlen hj (fun _ he => absurd he hshort) hx
    have hnew : (dirSlots (addEntry D a k w name) a k).key ≠ padName name := fun he =>
      hrest ((key_addEntry hlen).mp he)
    have hold : (dirSlots D a k).key ≠ padName name := fun he => hrest fun i hi hi' => by
      rw [(key_eq_padName hlen).mp he i hi', if_neg (by omega)]
    by_cases hkn : k = n
    · have habsent' : ∀ j < n + 1, (dirSlots (addEntry D a k w name) a j).key ≠ padName name := by
        intro j hj
        rcases Nat.lt_succ_iff_lt_or_eq.mp hj with hlt | rfl
        · rw [hother j (by omega)]
          exact habsent j (by omega)
        · rwa [← hkn]
      rw [hn', if_pos hkn, lookup_succ_of_absent habsent', hother (n + 1) (by omega)]
      split_ifs with hkey
      · constructor
        · intro hval
          exact .inr ⟨hkn, by rw [← hkey, ← hval]⟩
        · rintro (h | ⟨_, h⟩)
          · exact absurd h hrest
          · rw [h]
      · refine iff_of_false hw.symm ?_
        rintro (h | ⟨_, h⟩)
        · exact hrest h
        · exact hkey (by rw [h])
    · have hsame : lookup (dirSlots (addEntry D a k w name) a) (n + 1) (padName name) =
          lookup (dirSlots D a) (n + 1) (padName name) :=
        lookup_congr fun j _ => by
          by_cases hj : j = k
          · subst hj
            exact .inr ⟨hnew, hold⟩
          · exact .inl (hother j hj)
      rw [hn', if_neg hkn, hsame, hnot]
      exact iff_of_false hw.symm (by tauto)

/-- `search_file` finds the number that the look-up gives. -/
theorem RootDir.searchFile_iff {r : Int} (h : RootDir size n p s) (hlen : 1 ≤ name.length)
    (hlen' : name.length ≤ 12) (hslash : slash ∉ name) :
    wp (searchFile name) (fun x _ => x = r) (fun _ _ => False) s ↔
      (lookup (dirSlots s.disk (dirAddr size)) (n + 1) (padName name)).toInt = r :=
  wp_iff_of (h.wp_searchFile (stripName_plain hlen' hslash) (List.length_pos_iff.mp hlen)
    fun _ => Iff.rfl)

/-- What `new_dir_entry` leaves is one entry more exactly if the name fits its place. -/
theorem wp_newDirEntry_fits (h : RootDir size n p s) (hn : n ≤ 65536) (hlen : 1 ≤ name.length)
    (hlen' : name.length ≤ 12) (hslash : slash ∉ name) (hnr : 0 < inodeNr)
    (hnr' : inodeNr < 2 ^ 31) (hnot : wp (searchFile name) (fun r _ => r = 0) (fun _ _ => False) s) :
    wp (newDirEntry p inodeNr name) (fun _ u => EntryAdded s size n p inodeNr name u ↔
      FitsPlace s.disk (dirAddr size) n inodeNr name) (fun _ _ => False) s := by
  rw [h.searchFile_iff hlen hlen' hslash, toInt_eq_zero] at hnot
  have htoInt : (BitVec.ofInt 32 inodeNr).toInt = inodeNr := by
    rw [BitVec.toInt_ofInt]
    exact Int.bmod_eq_of_le (by omega) (by omega)
  have hw : BitVec.ofInt 32 inodeNr ≠ 0 := fun he => by
    rw [← toInt_eq_zero, htoInt] at he
    omega
  obtain ⟨k, hk⟩ : ∃ k, place (dirSlots s.disk (dirAddr size)) n = k := ⟨_, rfl⟩
  obtain ⟨n', hn'⟩ : ∃ n', n' = if k = n then n + 1 else n := ⟨_, rfl⟩
  have hkn : k ≤ n := hk ▸ place_le
  have hle : n' ≤ 2 ^ 20 := by
    rw [hn']
    split_ifs <;> omega
  refine h.wp_newDirEntry hk hn' rfl hle fun M => ?_
  have hdir := (h.resize hle).io (D := putWords
    (addEntry s.disk (dirAddr size) k (BitVec.ofInt 32 inodeNr) name) (inodeAddr size 1)
    ((s.setInode p ({ · with iSize := BitVec.ofNat 32 (16 * n') })).inodeTable p).words) (M := M)
  generalize hu : Fs.io _ _ _ = u at hdir ⊢
  have hdisk (j x : Nat) : u.disk (dirAddr size + 16 * j + x) =
      addEntry s.disk (dirAddr size) k (BitVec.ofInt 32 inodeNr) name (dirAddr size + 16 * j + x) := by
    rw [← hu]
    refine putWords_of_notMem (.inr ?_)
    simp only [inodeAddr, dirAddr, firstSect, Inode.words, List.length_cons, List.length_nil]
    omega
  have hslots : dirSlots u.disk (dirAddr size) =
      dirSlots (addEntry s.disk (dirAddr size) k (BitVec.ofInt 32 inodeNr) name) (dirAddr size) := by
    funext j
    exact dirSlots_congr fun x _ => hdisk j x
  have hfound : wp (searchFile name) (fun r _ => r = inodeNr) (fun _ _ => False) u ↔
      (∀ i, name.length < i → i < 12 → s.disk (dirAddr size + 16 * k + 4 + i) = 0) ∨
        k = n ∧ dirSlots s.disk (dirAddr size) (n + 1) = ⟨BitVec.ofInt 32 inodeNr, padName name⟩ := by
    rw [hdir.searchFile_iff hlen hlen' hslash, hslots, ← lookup_addEntry hlen' hw hk hn' hnot,
      ← BitVec.toInt_inj, htoInt]
  constructor
  · rintro ⟨⟨k', hsame, hcase⟩, hfind⟩
    refine ⟨fun h12 => ?_, ?_⟩
    · by_contra hne
      rw [hk, not_or] at hne
      -- the slot behind the new one was changed too
      have hk' : k' = k + 1 := by
        by_contra hk'
        have hnext := bytes_eq_iff.mp (hsame (k + 1) (Ne.symm hk')) 0 (by omega)
        rw [hdisk, Nat.add_zero, addEntry_next hlen', if_pos ⟨h12, hne.1⟩] at hnext
        exact hne.2 hnext.symm
      rcases hcase with ⟨hlt, hval, _⟩ | ⟨heq, hsize⟩
      · exact hne.2 (eq_zero_of_word (hk' ▸ hval))
      · have hsize' := hdir.iSize
        rw [hsize, hn', if_neg (by omega), ← BitVec.toNat_inj, BitVec.toNat_ofNat,
          BitVec.toNat_ofNat] at hsize'
        omega
    · rw [hk]
      exact hfound.mp hfind
  · rintro ⟨hnext, hrest⟩
    rw [hk] at hnext hrest
    refine ⟨⟨k, fun j hj => bytes_eq_iff.mpr fun x hx => ?_, ?_⟩, hfound.mpr hrest⟩
    · rw [hdisk, addEntry_of_ne hlen' hj (fun _ => hnext) hx]
    · have hsize := hdir.iSize
      rw [hn'] at hsize
      rcases Nat.lt_or_ge k n with hlt | hge
      · rw [if_neg (by omega)] at hsize
        exact .inl ⟨hlt, hk ▸ val_place (hk.symm ▸ hlt), hsize⟩
      · obtain rfl : k = n := by omega
        rw [if_pos rfl] at hsize
        exact .inr ⟨rfl, hsize⟩

/-- A new entry changes one slot and can be found exactly if the name fits its place. -/
theorem newDirEntry_iff (h : RootDir size n p s) (hn : n ≤ 65536) (hlen : 1 ≤ name.length)
    (hlen' : name.length ≤ 12) (hslash : slash ∉ name) (hnr : 0 < inodeNr)
    (hnr' : inodeNr < 2 ^ 31) (hnot : wp (searchFile name) (fun r _ => r = 0) (fun _ _ => False) s) :
    wp (newDirEntry p inodeNr name) (fun _ => EntryAdded s size n p inodeNr name)
      (fun _ _ => False) s ↔ FitsPlace s.disk (dirAddr size) n inodeNr name :=
  wp_iff_of (wp_newDirEntry_fits h hn hlen hlen' hslash hnr hnr' hnot)

end

/-! ## A directory with a hole -/

/-- A partition of 20 MiB whose root directory has these entries. -/
def rootState (l : List (BitVec 32 × String)) : Fs where
  disk := l.zipIdx.foldl (fun D e => addEntry D (dirAddr 40960) e.2 e.1.1 (cName e.1.2).dropLast)
    fun _ => 0
  mem _ := 0
  procTable _ := {}
  filp _ _ := none
  fDescTable _ := {}
  inodeTable p := if p = 0 then
      { rootDirInode (rootSuper 40960) with
        iSize := BitVec.ofNat 32 (16 * l.length), iDev := rootDev, iNum := rootInodeNr, iCnt := 1 }
    else {}
  superBlock _ := rootSuper 40960
  rootInode := some 0
  pcaller := 6
  fsMsg := {}
  logPos := 0
  geoSize := 40960
  ttyReply m := m
  copies := []

theorem rootState_rootDir (l : List (BitVec 32 × String)) (h : l.length ≤ 2 ^ 20) :
    RootDir 40960 l.length 0 (rootState l) where
  rootInode := rfl
  super := rfl
  iMode := rfl
  iDev := rfl
  iNum := rfl
  iStartSect := by
    change (rootSuper 40960).n1stSect = BitVec.ofNat 32 (firstSect 40960)
    decide
  iSize := rfl
  le := h
  cached := by
    change (1 : Int) ≠ 0
    decide

/-- The name of a new file. -/
def fileName (t : String) : List Byte := (cName t).dropLast

/-- The files a and b were created, and a was removed. -/
def holeEntries : List (BitVec 32 × String) :=
  [(1, "."), (2, "dev_tty0"), (3, "dev_tty1"), (4, "dev_tty2"), (0, ""), (6, "b")]

def holeState : Fs := rootState holeEntries

theorem holeState_rootDir : RootDir 40960 6 0 holeState :=
  rootState_rootDir holeEntries (by decide)

theorem newDirEntry_holeState :
    wp (newDirEntry 0 5 (fileName "c")) (fun _ => EntryAdded holeState 40960 6 0 5 (fileName "c"))
      (fun _ _ => False) holeState :=
  have hrest : ∀ i < 12, 1 < i → holeState.disk (dirAddr 40960 + 16 * 4 + 4 + i) = 0 := by
    decide +kernel
  have hplace : place (dirSlots holeState.disk (dirAddr 40960)) 6 = 4 := by decide +kernel
  (newDirEntry_iff holeState_rootDir (by decide) (by decide) (by decide) (by decide) (by decide)
    (by decide)
    ((holeState_rootDir.searchFile_iff (by decide) (by decide) (by decide)).mpr
      (by decide +kernel))).mpr
    ⟨fun he => absurd he (by decide), .inl fun i hi hi' => by
      rw [hplace]
      exact hrest i hi' hi⟩

/-- A name of 12 characters takes the inode number 6 of b with it. -/
theorem not_newDirEntry_holeState :
    RootDir 40960 6 0 holeState ∧
    wp (searchFile (fileName "abcdefghijkl")) (fun r _ => r = 0) (fun _ _ => False) holeState ∧
    ¬wp (newDirEntry 0 5 (fileName "abcdefghijkl"))
      (fun _ => EntryAdded holeState 40960 6 0 5 (fileName "abcdefghijkl"))
      (fun _ _ => False) holeState := by
  have hnot : wp (searchFile (fileName "abcdefghijkl")) (fun r _ => r = 0) (fun _ _ => False)
      holeState :=
    (holeState_rootDir.searchFile_iff (by decide) (by decide) (by decide)).mpr (by decide +kernel)
  refine ⟨holeState_rootDir, hnot, fun hw => ?_⟩
  have hfits : wp (newDirEntry 0 5 (fileName "abcdefghijkl"))
      (fun _ u => EntryAdded holeState 40960 6 0 5 (fileName "abcdefghijkl") u ↔
        FitsPlace holeState.disk (dirAddr 40960) 6 5 (fileName "abcdefghijkl"))
      (fun _ _ => False) holeState :=
    wp_newDirEntry_fits holeState_rootDir (by decide) (by decide) (by decide) (by decide)
      (by decide) (by decide) hnot
  refine (hfits.and hw).elim (fun _ _ ht => ?_) fun _ _ ht => ht.1
  have hnext : ¬((place (dirSlots holeState.disk (dirAddr 40960)) 6 + 1) % 32 = 0 ∨
      holeState.disk (dirAddr 40960 +
        16 * (place (dirSlots holeState.disk (dirAddr 40960)) 6 + 1)) = 0) := by
    decide +kernel
  exact hnext ((ht.1.mp ht.2).next (by decide))

end Dlos
