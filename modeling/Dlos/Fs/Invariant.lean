import Dlos.Fs.Consistent

/-!
# The file system stays consistent

Every request leaves a consistent file system consistent: so it is in every state of a run from a new one.
-/

namespace Dlos

open Program Bytes Slot

section

variable {size : BitVec 32} {n m : Nat} {p q : Fin nrInode} {extra : Fin nrInode → Int} {s t u : Fs}
  {E : Halt → Fs → Prop}

/-! ## The log -/

namespace Coherent

/-- The bits of the log come behind those of the root directory. -/
theorem le_logSect (h : Coherent size n p s) (hpos : s.logPos ≠ 0) : 2049 ≤ logSect size := by
  by_contra hlow
  have hfile : nrDefaultFileSects = 2048 := rfl
  have hlog : SectOwner.log ∈ {o | (diskTables size s.disk).owns (s.logPos ≠ 0) o} := hpos
  have hL : logSect size ∈ (diskTables size s.disk).extent size .log :=
    mem_bitRange.mpr ⟨Nat.le_refl _, Nat.lt_add_of_pos_right (show 0 < nrSectsForLog by decide)⟩
  by_cases hzero : logSect size = 0
  · have hreserved : SectOwner.reserved ∈ {o | (diskTables size s.disk).owns (s.logPos ≠ 0) o} := trivial
    have hL' : logSect size ∈ (diskTables size s.disk).extent size .reserved := by
      rw [hzero]
      exact mem_bitRange.mpr ⟨Nat.le_refl 0, Nat.one_pos⟩
    exact SectOwner.noConfusion (h.volume.tiles.owner_unique hlog hreserved hL hL')
  · have hroot : SectOwner.inode 1 ∈ {o | (diskTables size s.disk).owns (s.logPos ≠ 0) o} := h.volume.live_root
    have hL' : logSect size ∈ (diskTables size s.disk).extent size (.inode 1) := by
      rw [extent_inode h.volume.rootMap]
      exact mem_bitRange.mpr (by omega)
    exact SectOwner.noConfusion (h.volume.tiles.owner_unique hlog hroot hL hL')

/-- What a call of `disklog` changes of the disk before its area: the first one takes the area's bits. -/
theorem logged_disk (h : Coherent size n p s) (hsize : HasLog size) (hu : LogWritten size s u) :
    diskTables size u.disk = { diskTables size s.disk with
      smap := fun j => if s.logPos = 0 ∧ logSect size ≤ j ∧ j < logSect size + nrSectsForLog then true
        else (diskTables size s.disk).smap j } ∧
    (∀ k < dirLimit, dirSlots u.disk (dirAddr size) k = dirSlots s.disk (dirAddr size) k) ∧
    ∀ a, dirAddr size ≤ a → a < 512 * logSect size → u.disk a = s.disk a := by
  have hsects : nrSectsForLog = 2048 := rfl
  have hlimit : dirLimit = 4160 := rfl
  have haddr : dirAddr size = 512 * (nrSmap size + 259) := rfl
  have hend : logSect size + 2048 = size.toNat := hsize.sect_add
  have hlt : size.toNat < 4096 * nrSmap size := lt_smapBits
  have hlow : 2049 ≤ logSect size := by
    by_cases hzero : s.logPos = 0
    · by_contra hlow
      have hset := h.volume.low_set (x := logSect size) (by omega)
      have hbit := hu.clear hzero (4096 * 3 + logSect size) (by omega) (by omega)
      simp only [diskTables, hbit, Bool.and_false, Bool.false_eq_true] at hset
    · exact h.le_logSect hzero
  have hbefore : 512 * firstSect size + 16 * dirLimit ≤ 512 * logSect size := by
    rw [firstSect, nrSmap]
    omega
  by_cases hzero : s.logPos = 0
  · have hdisk (a : Nat) (ha : a < 512 * logSect size) :
        u.disk a = mark s.disk (4096 * 3 + logSect size) true nrSectsForLog a := by
      rw [hu.disk a ha, if_pos hzero]
    obtain ⟨htables, hslots⟩ := slots_of_agree fun a ha => hdisk a (ha.trans_le hbefore)
    refine ⟨?_, fun k hk => ?_, fun a ha ha' => ?_⟩
    · rw [htables, diskTables_markSmap (by omega)]
      simp only [hzero, true_and]
    · rw [hslots k hk, dirSlots_mark (by rw [firstSect]; omega)]
    · rw [hdisk a ha', mark_of_notMem (by omega)]
  · have hdisk (a : Nat) (ha : a < 512 * logSect size) : u.disk a = s.disk a := by
      rw [hu.disk a ha, if_neg hzero]
    obtain ⟨htables, hslots⟩ := slots_of_agree fun a ha => hdisk a (ha.trans_le hbefore)
    refine ⟨?_, hslots, fun a _ => hdisk a⟩
    rw [htables]
    simp only [hzero, false_and, if_false]

/-- The log was written. -/
theorem logged (h : Coherent size n p s) (hsize : HasLog size) (hu : LogWritten size s u) :
    Coherent size n p u := by
  obtain ⟨M, pos, hstate⟩ := hu.state
  obtain ⟨htables, hslots, -⟩ := h.logged_disk hsize hu
  have himap : (diskTables size u.disk).imap = (diskTables size s.disk).imap := by rw [htables]
  have hrecord : (diskTables size u.disk).record = (diskTables size s.disk).record := by rw [htables]
  have hpos : u.logPos ≠ 0 := hu.logPos.ne'
  refine ⟨?_, ?_, ?_, h.le, hu.logPos.le, ?_, ?_, ?_, ?_⟩
  · rw [hstate]
    exact h.geoSize
  · rw [hstate]
    exact h.dir.congr rfl rfl rfl
  · rw [hstate]
    exact h.iNrSects
  · rw [eq_true hpos]
    have hvolume := h.volume
    by_cases hzero : s.logPos = 0
    · refine hvolume.startLog (fun j hj => ?_) himap hrecord fun j => ?_
      · have hbit := hu.clear hzero (4096 * 3 + j) (by have := hj.1; omega) (by have := hj.2; omega)
        simp only [diskTables, hbit, Bool.and_false]
      · rw [htables]
        simp only [hzero, true_and]
    · rw [show (s.logPos ≠ 0) = True from eq_true hzero] at hvolume
      refine hvolume.congr himap ?_ fun m => by rw [hrecord]; exact ⟨rfl, rfl, rfl⟩
      rw [htables]
      simp only [hzero, false_and, if_false]
  · rw [himap, hrecord]
    exact h.kind
  · exact h.entries.congr himap fun k hk => congrArg Slot.val (hslots k (lt_dirLimit hk))
  · have htable : u.inodeTable = s.inodeTable := by
      rw [hstate]
      rfl
    rw [htable]
    exact h.cache.keep (fun _ => id) (fun _ => rfl) fun q m _ _ hm =>
      hm.congr (by rw [himap]) (by rw [hrecord]) rfl rfl rfl

end Coherent

/-! ## A new file system -/

theorem val_newSlot {k : Nat} : (newSlot k).val = if k < 4 then BitVec.ofNat 32 (k + 1) else 0 := by
  have hnames : newNames = [(1, "."), (2, "dev_tty0"), (3, "dev_tty1"), (4, "dev_tty2")] := by decide
  rw [newSlot, hnames]
  by_cases hk : k < 4
  · obtain rfl | rfl | rfl | rfl : k = 0 ∨ k = 1 ∨ k = 2 ∨ k = 3 := by omega
    all_goals rfl
  · rw [if_neg hk, List.getElem?_eq_none (by simp; omega)]

/-- The first slots of the directory are as `mkfs` has made them, and the others are empty. -/
theorem slots_started (h : Formatted size s.disk)
    (hblank : ∀ a, dirAddr size + 512 ≤ a → a < dirAddr size + 512 * nrDefaultFileSects → s.disk a = 0) {k : Nat}
    (hk : k < dirLimit) : dirSlots s.disk (dirAddr size) k = newSlot k := by
  have hsects : nrDefaultFileSects = 2048 := rfl
  have hlimit : dirLimit = 4160 := rfl
  by_cases hlow : k < 32
  · exact h.slots k hlow
  · have hzero (i : Nat) (hi : i < 16) : s.disk (dirAddr size + 16 * k + i) = 0 := hblank _ (by omega) (by omega)
    have hkey : (dirSlots s.disk (dirAddr size) k).key = padName [] := (key_eq_padName (by decide)).mpr fun i hi => by
      rw [Nat.add_assoc _ 4, hzero _ (by omega), if_neg (by simp)]
    have hval : (dirSlots s.disk (dirAddr size) k).val = 0 := by
      have h0 := hzero 0 (by omega)
      rw [Nat.add_zero] at h0
      rw [dirSlots, word, h0, hzero 1 (by omega), hzero 2 (by omega), hzero 3 (by omega)]
      rfl
    have hnames : newNames[k]? = none := List.getElem?_eq_none (by
      have hlen : newNames.length = 4 := by decide
      omega)
    rw [newSlot, hnames, ← hkey, ← hval]

theorem entries_started (h : Formatted size s.disk)
    (hblank : ∀ a, dirAddr size + 512 ≤ a → a < dirAddr size + 512 * nrDefaultFileSects → s.disk a = 0) :
    Entries (diskTables size s.disk) (dirSlots s.disk (dirAddr size)) := by
  have hval (k : Nat) (hk : k ≤ 4096) : (dirSlots s.disk (dirAddr size) k).val =
      if k < 4 then BitVec.ofNat 32 (k + 1) else 0 := by
    rw [slots_started h hblank (lt_dirLimit hk), val_newSlot]
  have hnat (k : Nat) (hk : k ≤ 4096) (hne : (dirSlots s.disk (dirAddr size) k).val ≠ 0) :
      k < 4 ∧ (dirSlots s.disk (dirAddr size) k).val.toNat = k + 1 := by
    rw [hval k hk] at hne ⊢
    split_ifs at hne ⊢ with hlow
    · exact ⟨hlow, Nat.mod_eq_of_lt (by omega)⟩
    · exact absurd rfl hne
  refine ⟨fun k hk hne => ?_, fun j k hj hk hne he => ?_⟩
  · obtain ⟨hlow, hk'⟩ := hnat k hk hne
    have hconsoles : nrConsoles = 3 := rfl
    simp only [diskTables, hk', h.imap (k + 1) (by omega), Bool.and_eq_true, decide_eq_true_eq]
    omega
  · have hj' := hnat j hj hne
    have hk' := hnat k hk (he ▸ hne)
    rw [he] at hj'
    omega

/-- The inodes of a new file system are those of the root directory and of the terminals. -/
theorem imap_started (h : Formatted size s.disk) : (diskTables size s.disk).imap m = true ↔ m < 5 := by
  have hconsoles : nrConsoles = 3 := rfl
  by_cases hm : m < 4096
  · simp only [diskTables, h.imap m hm, Bool.and_eq_true, decide_eq_true_eq]
    omega
  · simp only [diskTables, hm, decide_false, Bool.false_and, Bool.false_eq_true, false_iff]
    omega

theorem record_started (h : Formatted size s.disk) :
    (diskTables size s.disk).record 1 = (rootDirInode (newSuperBlock size)).record ∧
      ∀ m, 2 ≤ m → m < 5 → ((diskTables size s.disk).record m).mode = iCharSpecial ∧
        ((diskTables size s.disk).record m).start = BitVec.ofNat 32 (devCharTty * 256 + (m - 2)) := by
  have hrecord (m : Nat) (i : Inode) (hm : m < 4) (hi : (newInodes size)[m]? = some i) :
      (diskTables size s.disk).record (m + 1) = i.record := by
    rw [← h.record m i hi]
    exact if_pos ⟨by omega, by omega⟩
  refine ⟨hrecord 0 _ (by omega) rfl, fun m hm hm' => ?_⟩
  obtain ⟨j, rfl⟩ := Nat.exists_eq_add_of_le' hm
  have hj : (newInodes size)[j + 1]? = some (ttyInode j) := by
    obtain rfl | rfl | rfl : j = 0 ∨ j = 1 ∨ j = 2 := by omega
    all_goals rfl
  rw [hrecord (j + 1) _ (by omega) hj, Nat.add_sub_cancel]
  exact ⟨rfl, rfl⟩

theorem kind_started (h : Formatted size s.disk) (hm : 2 ≤ m) (hset : (diskTables size s.disk).imap m = true) :
    ((diskTables size s.disk).record m).Kind := by
  have hlt := (imap_started h).mp hset
  obtain ⟨hmode, hstart⟩ := (record_started h).2 m hm hlt
  refine .terminal hmode ?_
  rw [hstart]
  obtain rfl | rfl | rfl : m = 2 ∨ m = 3 ∨ m = 4 := by omega
  all_goals decide

/-- The sectors are those of the root directory. -/
theorem volume_started (h : Started size p s) : Volume size (diskTables size s.disk) (s.logPos ≠ 0) := by
  have hsects : nrDefaultFileSects = 2048 := rfl
  have hpos : 1 ≤ nrSmap size := Nat.le_add_left 1 _
  have hrecord := (record_started h.disk).1
  have hroot : ((diskTables size s.disk).record 1).InMap size 1 nrDefaultFileSects := by
    have hinode : (s.inodeTable p).record = (rootDirInode (newSuperBlock size)).record := by
      rw [h.root]
      rfl
    rw [hrecord, ← hinode]
    exact Coherent.inMap_root h.rootDir (by rw [h.root]; rfl)
  have himap (m : Nat) := imap_started (m := m) h.disk
  have hlive (m : Nat) : (diskTables size s.disk).Live m ↔ m = 1 := by
    constructor
    · intro hm
      rcases hm.file with hone | ⟨h2, hmode⟩
      · exact hone
      · rw [((record_started h.disk).2 m h2 ((himap m).mp hm.imap)).1] at hmode
        exact absurd hmode (by decide)
    · rintro rfl
      exact ⟨(himap 1).mpr (by omega), .inl rfl⟩
  have hempty : Tiles (∅ : Set Nat) (∅ : Set SectOwner) ((diskTables size s.disk).extent size) :=
    ⟨by simp, Set.pairwiseDisjoint_empty⟩
  have htiles := (hempty.insert (i := .inode 1) (Set.disjoint_empty _)).insert (i := .reserved) ?_
  · refine ⟨(himap 0).mpr (by omega), (himap 1).mpr (by omega), hroot, fun m hm hset hmode => ?_, fun m hm => ?_, ?_⟩
    · have := (hlive m).mp ⟨hset, .inr ⟨hm, hmode⟩⟩
      omega
    · have := (himap m).mp hm
      omega
    · convert htiles using 1
      · ext b
        have hreserved : (diskTables size s.disk).extent size .reserved = bitRange 0 1 := rfl
        rw [extent_inode hroot, hreserved, Set.empty_union, Set.mem_union, mem_bitRange, mem_bitRange,
          Set.mem_ofPred_eq]
        by_cases hb : b < 4096 * nrSmap size
        · simp only [diskTables, h.disk.smap b hb, Bool.and_eq_true, decide_eq_true_eq]
          omega
        · simp only [diskTables, hb, decide_false, Bool.false_and, Bool.false_eq_true, false_iff]
          omega
      · ext o
        cases o with
        | reserved => simp [DiskTables.owns]
        | log => simp [DiskTables.owns, h.logPos]
        | inode m => simp [DiskTables.owns, hlive m]
  · rw [extent_inode hroot, Set.empty_union, Set.disjoint_left]
    intro b hb hb'
    have hzero : b < 1 := hb.2
    have hone : 1 ≤ b := hb'.1
    omega

/-- A new file system is consistent. -/
theorem Started.consistent (h : Started size p s)
    (hblank : ∀ a, dirAddr size + 512 ≤ a → a < dirAddr size + 512 * nrDefaultFileSects → s.disk a = 0) :
    Consistent size 4 p (fun q => if q = p then 1 else 0) s where
  geoSize := h.geoSize
  dir := h.rootDir
  iNrSects := by
    rw [h.root]
    rfl
  le := by decide
  logPos := h.logPos.ge
  volume := volume_started h
  kind _ hm hset := kind_started h.disk hm hset
  entries := entries_started h.disk hblank
  cache := by
    have honly (q : Fin nrInode) (hc : (s.inodeTable q).cached) : q = p := by
      by_contra hq
      rw [h.others q hq] at hc
      exact hc rfl
    exact ⟨fun q hq hc => absurd (honly q hc) hq, fun i j hi hj _ => (honly i hi).trans (honly j hj).symm⟩
  counts := by
    have hheld (x : FilePlace) : s.held x = none := h.filp x.1 x.2
    have hrefs (d : Fin nrFileDesc) : Sharing.refs s.held d = 0 :=
      Sharing.refs_eq_zero.mpr fun x hx => Option.some_ne_none d (hx.symm.trans (hheld x))
    refine ⟨fun d => ?_, fun d => ?_, fun q => ?_⟩
    · rw [hrefs, h.fDescTable]
      rfl
    · rw [hrefs, h.fDescTable]
      exact ⟨fun _ => rfl, fun _ => rfl⟩
    · have hthrough : Sharing.refs (Sharing.through s.held fun d => (s.fDescTable d).fdInode) q = 0 :=
        Sharing.refs_eq_zero.mpr fun x hx => by
          rw [Sharing.through, hheld, Option.bind_none] at hx
          exact Option.some_ne_none q hx.symm
      rw [hthrough]
      split_ifs with hq
      · rw [hq, h.root]
        rfl
      · rw [h.others q hq]
        rfl
  root := by rw [if_pos rfl]
  extra q := by split_ifs <;> decide

/-! ## References -/

/-- Inode `q` has one more reference, and the open files are as they were. -/
structure OneMore (s : Fs) (q : Fin nrInode) (t : Fs) : Prop where
  iCnt : ∀ q', (t.inodeTable q').iCnt = if q' = q then (s.inodeTable q).iCnt + 1 else (s.inodeTable q').iCnt
  filp : t.filp = s.filp
  fDescTable : t.fDescTable = s.fDescTable

namespace Consistent

variable {d : Fin nrFileDesc} {pid : Pid} {fd : Fin nrFiles} {flags : Int} {path : List Byte}

theorem cnt_nonneg (h : Consistent size n p extra s) : 0 ≤ (s.inodeTable q).iCnt := by
  have hobject := h.counts.object q
  have hextra := h.extra q
  omega

/-- What a descriptor leads to has a reference besides the others. -/
theorem lt_cnt (h : Consistent size n p extra s) (hd : (s.fDescTable d).fdInode = some q) :
    extra q < (s.inodeTable q).iCnt := Sharing.Counted.extra_lt h.counts hd

/-- The descriptor of an open file leads to an inode. -/
theorem fdInode_of_filp {i : Fin nrFiles} (h : Consistent size n p extra s) (hd : s.filp pid i = some d) :
    ∃ q, (s.fDescTable d).fdInode = some q := by
  have hheld : s.held (pid, i) = some d := hd
  obtain ⟨q, hq⟩ := Sharing.Counted.holds h.counts hheld
  exact ⟨q, hq⟩

theorem cached_of_desc (h : Consistent size n p extra s) (hd : (s.fDescTable d).fdInode = some q) :
    (s.inodeTable q).cached := by
  have hlt := h.lt_cnt hd
  have hextra := h.extra q
  rw [Inode.cached]
  omega

/-- Of the state only the disk and these tables matter. -/
theorem congr (h : Consistent size n p extra s) (hu : Coherent size m p u)
    (hinode : ∀ q, (u.inodeTable q).iCnt = (s.inodeTable q).iCnt)
    (hdesc : ∀ d, (u.fDescTable d).fdInode = (s.fDescTable d).fdInode ∧
      (u.fDescTable d).fdCnt = (s.fDescTable d).fdCnt) (hfilp : u.filp = s.filp) :
    Consistent size m p extra u where
  toCoherent := hu
  counts := by
    have hheld : u.held = s.held := by
      funext x
      rw [Fs.held, hfilp, Fs.held]
    rw [hheld]
    exact h.counts.congr (fun d => (hdesc d).1) (fun d => (hdesc d).2) hinode
  root := h.root
  extra := h.extra

/-- `get_inode` takes an inode that is in use. -/
theorem got (h : Consistent size n p extra s) (hm : 1 ≤ m) (himap : (diskTables size s.disk).imap m = true)
    (ht : Got size s (m : Nat) q t) : Coherent size n p t ∧ OneMore s q t := by
  have hnonneg := h.cnt_nonneg (q := q)
  cases ht with
  | counted hc hdev hnum =>
    refine ⟨(h.recount (c := (· + 1)) (fun _ => hc) fun hq => ?_).congr rfl rfl rfl rfl rfl rfl,
      ⟨fun q' => ?_, rfl, rfl⟩⟩
    · rw [← hq]
      omega
    · rw [Fs.io_inodeTable]
      split_ifs with hq
      · rw [hq, Fs.setInode_self]
      · rw [Fs.setInode_of_ne hq]
  | @read M r hfree hunread hr =>
    have hlt := h.imap_lt himap
    have hzero : (s.inodeTable q).iCnt = 0 := not_not.mp hfree
    refine ⟨(h.read hm himap hfree hunread (hr m rfl hlt)).congr rfl rfl rfl rfl rfl rfl, ⟨fun q' => ?_, rfl, rfl⟩⟩
    rw [Fs.io_inodeTable]
    split_ifs with hq
    · rw [hq, Fs.setInode_self, hzero]
      rfl
    · rw [Fs.setInode_of_ne hq]

/-- The new reference is that of a descriptor. -/
theorem opened (h : Consistent size n p extra s) (ht : Coherent size m p t) (hmore : OneMore s q t)
    (hplace : OpenPlace s fd d) : Consistent size m p extra (t.opened s.pcaller fd d q flags) where
  toCoherent := ht.congr rfl rfl rfl rfl rfl rfl
  counts := by
    have hfile : s.filp s.pcaller fd = none := of_decide_eq_true (List.find?_some hplace.file :)
    have hdesc : (s.fDescTable d).fdInode = none := of_decide_eq_true (List.find?_some hplace.desc :)
    exact h.counts.opened hfile hdesc hmore.filp hmore.fDescTable hmore.iCnt
  root := h.root
  extra := h.extra

/-- Nobody has the new reference. -/
theorem referenced (h : Consistent size n p extra s) (ht : Coherent size n p t) (hmore : OneMore s q t) :
    Consistent size n p (Function.update extra q (extra q + 1)) t where
  toCoherent := ht
  counts := by
    have hheld : t.held = s.held := by
      funext x
      rw [Fs.held, hmore.filp, Fs.held]
    rw [hheld, Fs.Counts, hmore.fDescTable]
    refine Sharing.Counted.recount h.counts fun q' => ?_
    rw [hmore.iCnt, Function.update_apply]
    split_ifs with hq
    · rw [hq]
      omega
    · rfl
  root := by
    have hroot := h.root
    rw [Function.update_apply]
    split_ifs with hp
    · rw [← hp]
      omega
    · exact hroot
  extra q' := by
    have hextra := h.extra q
    rw [Function.update_apply]
    split_ifs with hq
    · omega
    · exact h.extra q'

/-- A descriptor is given up. -/
theorem dropped (h : Consistent size n p extra s) (hfd : s.filp pid fd = some d)
    (hd : (s.fDescTable d).fdInode = some q) : Consistent size n p extra (s.dropped pid fd d q) where
  toCoherent := by
    have hlt := h.lt_cnt hd
    refine (h.recount (c := (· - 1)) (fun _ => h.cached_of_desc hd) fun hq => ?_).congr rfl rfl rfl rfl rfl rfl
    have hroot := h.root
    rw [← hq] at hroot ⊢
    omega
  counts := h.counts.dropped hfd hd
  root := h.root
  extra := h.extra

end Consistent

/-- What a name leads to is in use. -/
theorem Coherent.searched_eq {path : List Byte} (h : Coherent size n p s) : s.searched size n path = 0 ∨
    ∃ m : Nat, s.searched size n path = m ∧ 1 ≤ m ∧ (diskTables size s.disk).imap m = true := by
  have hle := h.le
  cases hname : stripName path with
  | none => exact .inl (by rw [Fs.searched, hname])
  | some name =>
    by_cases hne : name = []
    · exact .inr ⟨1, by rw [Fs.searched, hname, hne]; rfl, Nat.le_refl 1, h.volume.root⟩
    · rw [searched_of_ne hname hne]
      rcases found_or_absent (dirSlots s.disk (dirAddr size)) (n + 1) (padName name) with ⟨k, hk⟩ | hno
      · have hlt := hk.lt
        rw [hk.lookup]
        by_cases hval : (dirSlots s.disk (dirAddr size) k).val = 0
        · exact .inl (by rw [hval]; rfl)
        · have himap := h.entries.imap k (by omega) hval
          have hlt := h.imap_lt himap
          refine .inr ⟨_, BitVec.toInt_eq_toNat_of_lt (by omega), ?_, himap⟩
          have hzero : (dirSlots s.disk (dirAddr size) k).val.toNat ≠ 0 := fun hz => hval (BitVec.eq_of_toNat_eq hz)
          omega
      · exact .inl (by rw [lookup_of_absent hno]; rfl)

end

end Dlos
