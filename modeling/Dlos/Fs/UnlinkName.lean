import Dlos.Fs.NewEntry
import Dlos.Fs.Removal

/-!
# Removing a name from the root directory

When the entry in the last slot is removed, `do_unlink` takes the number of the entries it has passed for
the new number of slots. `search_file` looks at one slot more than that, so an entry is lost exactly if two
holes lie before it.
-/

namespace Dlos

open Program Bytes Slot

/-- A name as `search_file` looks it up. -/
structure FileName (name : List Byte) : Prop where
  pos : 1 ≤ name.length
  le : name.length ≤ 12
  noSlash : slash ∉ name
  noZero : 0 ∉ name

/-- `search_file` answers `r`. -/
abbrev Finds (s : Fs) (name : List Byte) (r : Int) : Prop :=
  wp (searchFile name) (fun r' _ => r' = r) (fun _ _ => False) s

/-- The first `n` slots hold entries with different names and numbers, and holes; there are only zeros in
the holes and in the slot behind. -/
structure Listing (T : Nat → Slot (List Byte) (BitVec 32)) (n : Nat) : Prop where
  named : ∀ k < n, (T k).val ≠ 0 → ∃ name, FileName name ∧ (T k).key = padName name
  hole : ∀ k ≤ n, (T k).val = 0 → (T k).key = padName []
  behind : (T n).val = 0
  names : ∀ j < n, ∀ k < n, (T j).val ≠ 0 → (T k).val ≠ 0 → (T j).key = (T k).key → j = k
  numbers : ∀ j < n, ∀ k < n, (T j).val ≠ 0 → (T j).val = (T k).val → j = k

/-- The name `x` leads to nothing any more, and every other name to what it led to. -/
structure OnlyNameRemoved (s u : Fs) (x : List Byte) : Prop where
  gone : Finds u x 0
  others : ∀ y, FileName y → y ≠ x → ∀ r, Finds u y r ↔ Finds s y r

section

variable {T T' : Nat → Slot (List Byte) (BitVec 32)} {n n' j k : Nat} {x y : List Byte}

/-- The zeros behind a name are not part of it. -/
theorem padName_inj (hx : 0 ∉ x) (hy : 0 ∉ y) (h : padName x = padName y) : x = y := by
  have hstrip {z : List Byte} (hz : 0 ∉ z) : (padName z).takeWhile (· ≠ 0) = z := by
    have hpos : ∀ b ∈ z, decide (b ≠ 0) = true := fun b hb =>
      decide_eq_true fun he => hz (he ▸ hb)
    rw [padName, List.takeWhile_append_of_pos hpos]
    cases maxFilenameLen - z.length <;> simp [List.replicate_succ]
  rw [← hstrip hx, h, hstrip hy]

theorem FileName.ne_nil (hx : FileName x) : padName x ≠ padName [] := fun h => by
  have := hx.pos
  rw [padName_inj hx.noZero (List.not_mem_nil) h] at this
  exact absurd this (by decide)

namespace Listing

variable (h : Listing T n)

include h

/-- A name is in one slot at most, and that holds an entry. -/
theorem found (hx : FileName x) (hk : k ≤ n) (hkey : (T k).key = padName x) :
    (T k).val ≠ 0 ∧ k < n := by
  have hval : (T k).val ≠ 0 := fun he => hx.ne_nil (hkey ▸ h.hole k hk he)
  exact ⟨hval, Nat.lt_of_le_of_ne hk fun he => hval (he ▸ h.behind)⟩

theorem unique (hx : FileName x) (hj : j ≤ n) (hk : k ≤ n) (hkey : (T j).key = padName x)
    (hkey' : (T k).key = padName x) : j = k := by
  obtain ⟨hval, hlt⟩ := h.found hx hj hkey
  obtain ⟨hval', hlt'⟩ := h.found hx hk hkey'
  exact h.names j hlt k hlt' hval hval' (hkey.trans hkey'.symm)

theorem lookup_of_key (hx : FileName x) (hk : k < n) (hkey : (T k).key = padName x) :
    lookup T (n + 1) (padName x) = (T k).val :=
  FoundAt.lookup ⟨by omega, hkey, fun j hj he =>
    absurd (h.unique hx (by omega) (by omega) he hkey) (by omega)⟩

/-- Where an entry that was cleared is looked up. -/
theorem lookup_cleared (hT' : T' = Function.update T k ⟨0, padName []⟩) (hk : k < n)
    (hx : FileName x) (hkey : (T k).key = padName x) (hn' : n' ≤ n) :
    lookup T' (n' + 1) (padName x) = 0 := by
  refine lookup_of_absent fun j hj => ?_
  rw [hT']
  by_cases hjk : j = k
  · rw [hjk, Function.update_self]
    exact hx.ne_nil.symm
  · rw [Function.update_of_ne hjk]
    exact fun he => hjk (h.unique hx (by omega) (by omega) he hkey)

/-- The other names, when `n'` slots count. -/
theorem lookup_others_iff (hT' : T' = Function.update T k ⟨0, padName []⟩) (hk : k < n)
    (hx : FileName x) (hkey : (T k).key = padName x) (hn' : n' ≤ n) :
    (∀ y, FileName y → y ≠ x → lookup T' (n' + 1) (padName y) = lookup T (n + 1) (padName y)) ↔
      ∀ j < n, j ≠ k → (T j).val ≠ 0 → j ≤ n' := by
  constructor
  · intro hsame j hj hjk hval
    by_contra hlt
    obtain ⟨y, hy, hkeyj⟩ := h.named j hj hval
    have hyx : y ≠ x := fun he => hjk (h.unique hx hj.le hk.le (he ▸ hkeyj) hkey)
    have habsent : lookup T' (n' + 1) (padName y) = 0 := lookup_of_absent fun i hi => by
      rw [hT']
      by_cases hik : i = k
      · rw [hik, Function.update_self]
        exact hy.ne_nil.symm
      · rw [Function.update_of_ne hik]
        exact fun he => absurd (h.unique hy (by omega) hj.le he hkeyj) (by omega)
    rw [hsame y hy hyx, h.lookup_of_key hy hj hkeyj] at habsent
    exact hval habsent
  · intro hle y hy hyx
    have hcleared : (T' k).key ≠ padName y := by
      rw [hT', Function.update_self]
      exact hy.ne_nil.symm
    rcases found_or_absent T (n + 1) (padName y) with ⟨j, hj⟩ | ha
    · obtain ⟨hval, hjn⟩ := h.found hy (Nat.lt_succ_iff.mp hj.lt) hj.key
      have hjk : j ≠ k := by
        rintro rfl
        exact hyx (padName_inj hy.noZero hx.noZero (hj.key.symm.trans hkey))
      have hT'j : T' j = T j := by rw [hT', Function.update_of_ne hjk]
      have hfound : FoundAt T' (n' + 1) (padName y) j :=
        ⟨Nat.lt_succ_of_le (hle j hjn hjk hval), by rw [hT'j, hj.key], fun i hi he => by
          by_cases hik : i = k
          · exact hcleared (hik ▸ he)
          · rw [hT', Function.update_of_ne hik] at he
            exact hj.before i hi he⟩
      rw [hfound.lookup, hj.lookup, hT'j]
    · rw [lookup_of_absent ha, lookup_of_absent fun i hi he => ?_]
      by_cases hik : i = k
      · exact hcleared (hik ▸ he)
      · rw [hT', Function.update_of_ne hik] at he
        exact ha i (by omega) he

end Listing

end

/-! ## The request -/

/-- The bits of every regular file are in the sector map. -/
def FilesInMap (size : BitVec 32) (D : Store) : Prop :=
  ∀ m, 2 ≤ m → m < 4096 → bit D (4096 * 2 + m) = true → (recordAt D (inodeAddr size m)).mode = iRegular →
    ∃ b cnt, (recordAt D (inodeAddr size m)).InMap size b cnt

/-- If the last slot holds the name, no other entry lies behind two holes or more. -/
def NoneLost (T : Nat → Slot (List Byte) (BitVec 32)) (n : Nat) (x : List Byte) : Prop :=
  ∀ k, k + 1 = n → (T k).key = padName x → ∀ j < k, (T j).val ≠ 0 → j ≤ used T j + 1

section

variable {size : BitVec 32} {n : Nat} {p : Fin nrInode} {s u : Fs} {path x : List Byte}

theorem RootDir.wp_doUnlink_names (h : RootDir size n p s)
    (hlist : Listing (dirSlots s.disk (dirAddr size)) n) (hin : FilesInMap size s.disk)
    (hpath : fetchPathname s = .ok path s) (hname : stripName path = some x) (hx : FileName x) :
    wp doUnlink (fun r u => r = 0 → (OnlyNameRemoved s u x ↔
      NoneLost (dirSlots s.disk (dirAddr size)) n x)) (fun _ _ => True) s := by
  refine h.wp_doUnlink hin (fun _ he => absurd he (by decide)) (fun _ _ _ he => absurd he (by decide))
    (fun path' name num b cnt k u hfile hk hu _ => ?_) (fun _ _ _ _ _ _ _ _ => trivial)
    fun _ _ _ => trivial
  obtain ⟨rfl, -⟩ := EStateM.Result.ok.inj (hpath.symm.trans hfile.fetched)
  obtain rfl : x = name := Option.some.inj (hname.symm.trans hfile.stripped)
  obtain ⟨T, hT⟩ : ∃ T, T = dirSlots s.disk (dirAddr size) := ⟨_, rfl⟩
  have hslots := hu.slots
  have hdir := hu.dir
  have hlook := hfile.lookup
  rw [← hT] at hlist hk hslots hdir hlook ⊢
  -- the slot that was cleared is the one of the name
  have hw : BitVec.ofNat 32 num ≠ 0 := fun he => by
    have h2 := hfile.two_le
    have hlt := hfile.lt
    have := congrArg BitVec.toNat he
    rw [BitVec.toNat_ofNat, Nat.mod_eq_of_lt (by omega)] at this
    exact absurd this (by change num ≠ 0; omega)
  obtain ⟨hkn, hval, -⟩ := first_eq_some.mp hk
  have hkey : (T k).key = padName x := by
    rcases found_or_absent T (n + 1) (padName x) with ⟨j, hj⟩ | ha
    · rw [hj.lookup] at hlook
      obtain ⟨hvalj, hjn⟩ := hlist.found hx (Nat.lt_succ_iff.mp hj.lt) hj.key
      rw [← hlist.numbers j hjn k hkn hvalj (hlook.trans hval.symm), hj.key]
    · rw [lookup_of_absent ha] at hlook
      exact absurd hlook.symm hw
  have hfinds {y : List Byte} (hy : FileName y) {r : Int} : Finds s y r ↔
      (lookup T (n + 1) (padName y)).toInt = r := by
    rw [hT]
    exact h.searchFile_iff hy.pos hy.le hy.noSlash
  obtain ⟨n', hn'⟩ : ∃ n', n' = if k + 1 = n then used T k else n := ⟨_, rfl⟩
  rw [← hn'] at hdir
  have hle : n' ≤ n := by
    have : used T k ≤ k := used_le
    rw [hn']
    split_ifs <;> omega
  have hfinds' {y : List Byte} (hy : FileName y) {r : Int} : Finds u y r ↔
      (lookup (dirSlots u.disk (dirAddr size)) (n' + 1) (padName y)).toInt = r :=
    hdir.searchFile_iff hy.pos hy.le hy.noSlash
  have hothers : (∀ y, FileName y → y ≠ x → ∀ r, Finds u y r ↔ Finds s y r) ↔
      ∀ y, FileName y → y ≠ x → lookup (dirSlots u.disk (dirAddr size)) (n' + 1) (padName y) =
        lookup T (n + 1) (padName y) := by
    refine forall_congr' fun y => forall₂_congr fun hy _ => ?_
    rw [← BitVec.toInt_inj]
    constructor
    · intro hsame
      exact (hfinds' hy).mp ((hsame _).mpr ((hfinds hy).mpr rfl))
    · intro he r
      rw [hfinds hy, hfinds' hy, he]
  have hnone : (∀ j < n, j ≠ k → (T j).val ≠ 0 → j ≤ n') ↔ NoneLost T n x := by
    constructor
    · intro hall k' hk' hkey'
      obtain rfl : k' = k := hlist.unique hx (by omega) hkn.le hkey' hkey
      rw [if_pos hk'] at hn'
      exact le_used_iff.mp fun j hj hval => hn' ▸ hall j (by omega) (by omega) hval
    · intro hlost j hj hjk hval
      by_cases hlast : k + 1 = n
      · rw [if_pos hlast] at hn'
        rw [hn']
        exact le_used_iff.mpr (hlost k hlast hkey) j (by omega) hval
      · rw [if_neg hlast] at hn'
        omega
  rw [← hnone, ← hlist.lookup_others_iff hslots hkn hx hkey hle, ← hothers]
  refine ⟨fun hu => hu.others, fun ho => ⟨(hfinds' hx).mpr ?_, ho⟩⟩
  rw [hlist.lookup_cleared hslots hkn hx hkey hle]
  rfl

theorem RootDir.not_onlyNameRemoved (h : RootDir size n p s)
    (hlist : Listing (dirSlots s.disk (dirAddr size)) n) (hin : FilesInMap size s.disk)
    (hpath : fetchPathname s = .ok path s) (hname : stripName path = some x) (hx : FileName x)
    (hrun : doUnlink s = .ok 0 u) {j k : Nat} (hk : k + 1 = n)
    (hkey : (dirSlots s.disk (dirAddr size) k).key = padName x) (hj : j < k)
    (hval : (dirSlots s.disk (dirAddr size) j).val ≠ 0) (hholes : used (dirSlots s.disk (dirAddr size)) j + 1 < j) :
    ¬OnlyNameRemoved s u x := fun ho => by
  have hiff := (wp_of_ok hrun).mp (h.wp_doUnlink_names hlist hin hpath hname hx) rfl
  have := hiff.mp ho k hk hkey j hj hval
  omega

/-- Removing a file removes its name and no other one exactly if its slot is not the last one or no other
entry lies behind two holes. -/
theorem unlink_onlyName_iff (h : RootDir size n p s)
    (hlist : Listing (dirSlots s.disk (dirAddr size)) n) (hin : FilesInMap size s.disk)
    (hpath : fetchPathname s = .ok path s) (hname : stripName path = some x) (hx : FileName x)
    (hrun : doUnlink s = .ok 0 u) :
    OnlyNameRemoved s u x ↔ NoneLost (dirSlots s.disk (dirAddr size)) n x :=
  (wp_of_ok hrun).mp (h.wp_doUnlink_names hlist hin hpath hname hx) rfl

end

/-! ## A file b -/

/-- A regular file of one sector. -/
def oneSector : Inode :=
  { iMode := iRegular, iSize := 10, iStartSect := bitSect (rootSuper 40960).n1stSect 2049, iNrSects := 1 }

/-- The disk `D` with this file as inode 6, the only one whose bit is set. -/
def oneFileDisk (D : Store) : Store :=
  putWords (mark (mark (fill D (512 * 2) 512 0) (4096 * 2 + 6) true 1) (4096 * 3 + 2049) true 1)
    (inodeAddr 40960 6) oneSector.words

/-- A directory in which b is that inode, and a request to remove b. -/
def unlinkState (l : List (BitVec 32 × String)) : Fs :=
  { rootState l with
    disk := oneFileDisk (rootState l).disk
    mem := fun _ => 0x62
    fsMsg := { source := 6, u := { m3i2 := 1 } } }

theorem unlinkState_rootDir (l : List (BitVec 32 × String)) (h : l.length ≤ 2 ^ 20) :
    RootDir 40960 l.length 0 (unlinkState l) := (rootState_rootDir l h).congr rfl rfl rfl

theorem oneFileDisk_filesInMap {D : Store} : FilesInMap 40960 (oneFileDisk D) := by
  intro m _ hm hset _
  rw [oneFileDisk] at hset ⊢
  generalize hD : mark _ (4096 * 3 + 2049) true 1 = D' at hset ⊢
  have haddr : inodeAddr 40960 6 = 7328 := by decide
  have hput : bit (putWords D' (inodeAddr 40960 6) oneSector.words) (4096 * 2 + m) =
      bit D' (4096 * 2 + m) := by
    rw [bit, bit, putWords_of_notMem (by omega)]
  have hm6 : m = 6 := by
    by_contra hne
    have hzero : bit (fill D (512 * 2) 512 0) (4096 * 2 + m) = false := by
      rw [bit, fill_of_mem (by omega) (by omega)]
      exact BitVec.getLsbD_zero
    rw [hput, ← hD, bit_mark, if_neg (by omega), bit_mark, if_neg (by omega), hzero] at hset
    exact Bool.false_ne_true hset
  subst hm6
  rw [recordAt_putWords]
  exact ⟨2049, 1, rfl, rfl, by decide, by decide, by decide⟩

theorem unlinkState_filesInMap (l : List (BitVec 32 × String)) : FilesInMap 40960 (unlinkState l).disk := by
  dsimp only [unlinkState]
  exact oneFileDisk_filesInMap

/-- The files a and b were created. -/
def twoFiles : List (BitVec 32 × String) :=
  [(1, "."), (2, "dev_tty0"), (3, "dev_tty1"), (4, "dev_tty2"), (5, "a"), (6, "b")]

/-- Four files were created, and the first two were removed. -/
def twoHoles : List (BitVec 32 × String) :=
  [(1, "."), (2, "dev_tty0"), (3, "dev_tty1"), (4, "dev_tty2"), (0, ""), (0, ""), (5, "a"), (6, "b")]

/-- What has to be tested of a directory. -/
theorem Listing.of_check {T : Nat → Slot (List Byte) (BitVec 32)} {n : Nat}
    (named : ∀ k < n, (T k).val ≠ 0 → 1 ≤ ((T k).key.takeWhile (· ≠ 0)).length ∧
      slash ∉ (T k).key.takeWhile (· ≠ 0) ∧ ((T k).key.takeWhile (· ≠ 0)).length ≤ 12 ∧
      (T k).key = padName ((T k).key.takeWhile (· ≠ 0)))
    (hole : ∀ k < n + 1, (T k).val = 0 → (T k).key = padName []) (behind : (T n).val = 0)
    (names : ∀ j < n, ∀ k < n, (T j).val ≠ 0 ∧ (T k).val ≠ 0 ∧ (T j).key = (T k).key → j = k)
    (numbers : ∀ j < n, ∀ k < n, (T j).val ≠ 0 → (T j).val = (T k).val → j = k) : Listing T n where
  named k hk hval := by
    obtain ⟨hpos, hslash, hle, hkey⟩ := named k hk hval
    exact ⟨_, ⟨hpos, hle, hslash, fun hz => by simpa using List.all_eq_true.mp List.all_takeWhile _ hz⟩, hkey⟩
  hole k hk := hole k (Nat.lt_succ_of_le hk)
  behind := behind
  names j hj k hk hval hval' hkey := names j hj k hk ⟨hval, hval', hkey⟩
  numbers := numbers

theorem twoFiles_listing : Listing (dirSlots (unlinkState twoFiles).disk (dirAddr 40960)) 6 :=
  .of_check (by decide +kernel) (by decide +kernel) (by decide +kernel) (by decide +kernel)
    (by decide +kernel)

theorem twoHoles_listing : Listing (dirSlots (unlinkState twoHoles).disk (dirAddr 40960)) 8 :=
  .of_check (by decide +kernel) (by decide +kernel) (by decide +kernel) (by decide +kernel)
    (by decide +kernel)

/-- What a request names, found by running `fetchPathname`. -/
theorem fetchPathname_of_wp {s : Fs} {path : List Byte}
    (h : wp fetchPathname (fun path' _ => path' = path) (fun _ _ => False) s) :
    fetchPathname s = .ok path s := by
  obtain ⟨path', t, hrun, rfl⟩ := h.exists_ok
  exact (wp_of_ok hrun).mp (wp_fetchPathname (Q := fun path _ => fetchPathname s = .ok path s)
    (E := fun _ _ => True) (fun _ hpath => hpath) fun _ _ => trivial)

theorem twoFiles_rootDir : RootDir 40960 6 0 (unlinkState twoFiles) :=
  unlinkState_rootDir twoFiles (by decide)

theorem twoHoles_rootDir : RootDir 40960 8 0 (unlinkState twoHoles) :=
  unlinkState_rootDir twoHoles (by decide)

theorem twoFiles_fetchPathname : fetchPathname (unlinkState twoFiles) = .ok [0x62] (unlinkState twoFiles) :=
  fetchPathname_of_wp (by decide +kernel)

theorem twoHoles_fetchPathname : fetchPathname (unlinkState twoHoles) = .ok [0x62] (unlinkState twoHoles) :=
  fetchPathname_of_wp (by decide +kernel)

theorem stripName_b : stripName [0x62] = some [0x62] := by decide

theorem fileName_b : FileName [0x62] := ⟨by decide, by decide, by decide, by decide⟩

theorem unlink_onlyName_twoFiles : ∃ u, doUnlink (unlinkState twoFiles) = .ok 0 u ∧
    OnlyNameRemoved (unlinkState twoFiles) u [0x62] := by
  obtain ⟨r, u, hrun, rfl⟩ := (by decide +kernel :
    wp doUnlink (fun r _ => r = 0) (fun _ _ => False) (unlinkState twoFiles)).exists_ok
  refine ⟨u, hrun, (unlink_onlyName_iff twoFiles_rootDir twoFiles_listing
    (unlinkState_filesInMap twoFiles) twoFiles_fetchPathname stripName_b fileName_b hrun).mpr ?_⟩
  rintro k hk -
  obtain rfl : k = 5 := Nat.succ.inj hk
  decide +kernel

/-- b is removed from the last slot; a stood behind two holes and is lost. -/
theorem not_onlyName_twoHoles : RootDir 40960 8 0 (unlinkState twoHoles) ∧
    Listing (dirSlots (unlinkState twoHoles).disk (dirAddr 40960)) 8 ∧ FileName [0x62] ∧
    ∃ u, doUnlink (unlinkState twoHoles) = .ok 0 u ∧
      ¬OnlyNameRemoved (unlinkState twoHoles) u [0x62] := by
  obtain ⟨r, u, hrun, rfl⟩ := (by decide +kernel :
    wp doUnlink (fun r _ => r = 0) (fun _ _ => False) (unlinkState twoHoles)).exists_ok
  refine ⟨twoHoles_rootDir, twoHoles_listing, fileName_b, u, hrun, ?_⟩
  exact twoHoles_rootDir.not_onlyNameRemoved twoHoles_listing (unlinkState_filesInMap twoHoles)
    twoHoles_fetchPathname stripName_b fileName_b hrun (k := 7) (j := 6) rfl (by decide +kernel) (by decide)
    (by decide +kernel) (by decide +kernel)

end Dlos
