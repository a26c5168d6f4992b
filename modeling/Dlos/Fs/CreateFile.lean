import Dlos.Fs.Removal

/-!
# Creating a file

When `create_file` ends, it has taken the first free inode and the first clear bits of the sector map, has
written the new inode, and has put its number and name into the place of a new entry.
-/

namespace Dlos

open Program Bytes Slot

/-- The inode of a new file whose first sector has bit `b`. -/
def newFile (size : BitVec 32) (x b : Nat) : Inode where
  iMode := iRegular
  iStartSect := bitSect (rootSuper size).n1stSect b
  iNrSects := BitVec.ofNat 32 nrDefaultFileSects
  iDev := rootDev
  iCnt := 1
  iNum := x

/-- `get_inode` takes slot `q` for inode `num`: the one that caches it, or a free one. -/
inductive Chosen (s : Fs) (q : Fin nrInode) (num : Int) : Prop
  | cached : (s.inodeTable q).cached → (s.inodeTable q).iDev = rootDev → (s.inodeTable q).iNum = num →
    Chosen s q num
  | free : ¬(s.inodeTable q).cached → (∀ q', (s.inodeTable q').cached → (s.inodeTable q').iDev = rootDev →
    (s.inodeTable q').iNum ≠ num) → Chosen s q num

/-- File `x` was created: its sectors are those from bit `b` on, its name is in slot `k`, and slot `q` of
the inode table holds it. -/
structure FileCreated (size : BitVec 32) (n : Nat) (p : Fin nrInode) (s : Fs) (name : List Byte)
    (x b k : Nat) (q : Fin nrInode) (u : Fs) : Prop where
  free : FirstClear s.disk (4096 * 2) 4096 x
  first : FirstClear s.disk (4096 * 3) (4096 * nrSmap size) b
  room : b + nrDefaultFileSects ≤ 4096 * nrSmap size
  clear : AllBits s.disk (4096 * 3 + b) false nrDefaultFileSects
  slot : place (dirSlots s.disk (dirAddr size)) n = k
  imap : (diskTables size u.disk).imap = Function.update (diskTables size s.disk).imap x true
  smap : ∀ j, (diskTables size u.disk).smap j =
    if b ≤ j ∧ j < b + nrDefaultFileSects then true else (diskTables size s.disk).smap j
  record : ∀ m, m ≠ 1 → (diskTables size u.disk).record m =
    if m = x then (newFile size x b).record else (diskTables size s.disk).record m
  root : (diskTables size u.disk).record 1 = (u.inodeTable p).record
  slots : dirSlots u.disk (dirAddr size) =
    dirSlots (addEntry s.disk (dirAddr size) k (BitVec.ofNat 32 x) name) (dirAddr size)
  dir : RootDir size (if k = n then n + 1 else n) p u
  ne : q ≠ p
  chosen : Chosen s q x
  inode : u.inodeTable q = newFile size x b
  dirInode : ∃ w, u.inodeTable p = { s.inodeTable p with iSize := w }
  others : ∀ q', q' ≠ q → q' ≠ p → u.inodeTable q' = s.inodeTable q'
  rest : ∃ D M T, u = { s with disk := D, mem := M, inodeTable := T }
  /-- Behind the directory's sector with the entry nothing is written. -/
  data : ∀ a, dirAddr size + 512 * (k / 32 + 1) ≤ a → u.disk a = s.disk a

/-- A new file cannot be made: every inode is in use, there are not enough free sectors from the first
one on, or the inode table is full. -/
inductive NoRoom (size : BitVec 32) (s : Fs) : Prop
  | inodes : AllBits s.disk (4096 * 2) true 4096 → NoRoom size s
  | sectors : (∀ b, FirstClear s.disk (4096 * 3) (4096 * nrSmap size) b →
      b + nrDefaultFileSects ≤ 4096 * nrSmap size →
      ¬AllBits s.disk (4096 * 3 + b) false nrDefaultFileSects) → NoRoom size s
  | table : (∀ q, (s.inodeTable q).cached) → NoRoom size s

/-- What `create_file` relies on: inodes 0 and 1 are in use, and the directory and the sector numbers do
not outgrow their types. -/
structure Creatable (size : BitVec 32) (n : Nat) (s : Fs) : Prop where
  le : n + 1 ≤ 2 ^ 20
  zero : bit s.disk (4096 * 2) = true
  one : bit s.disk (4096 * 2 + 1) = true
  first : ∀ b, FirstClear s.disk (4096 * 3) (4096 * nrSmap size) b →
    bitSect (rootSuper size).n1stSect b ≠ 0

section

variable {size : BitVec 32} {n x b k : Nat} {p q : Fin nrInode} {s : Fs} {D : Store}
  {E : Halt → Fs → Prop}

theorem Chosen.of_io {M : Store} {num : Int} (h : Chosen (s.io D M) q num) : Chosen s q num := by
  cases h with
  | cached hc hdev hnum => exact .cached hc hdev hnum
  | free hfree hunread => exact .free hfree hunread

theorem FileCreated.of_io {M : Store} {name : List Byte} {u : Fs}
    (h : FileCreated size n p (s.io s.disk M) name x b k q u) : FileCreated size n p s name x b k q u := by
  obtain ⟨hfree, hfirst, hroom, hclear, hslot, himap, hsmap, hrecord, hroot, hslots, hdir, hne, hchosen,
    hinode, hdirInode, hothers, hrest, hdata⟩ := h
  exact ⟨hfree, hfirst, hroom, hclear, hslot, himap, hsmap, hrecord, hroot, hslots, hdir, hne, hchosen.of_io,
    hinode, hdirInode, hothers, hrest, hdata⟩

theorem firstClear_congr {m m' : Store} {lo cnt : Nat}
    (h : ∀ i, lo ≤ i → i < lo + cnt → bit m i = bit m' i) :
    FirstClear m lo cnt x ↔ FirstClear m' lo cnt x := by
  constructor
  · exact fun hx => ⟨hx.lt, fun i hi hi' => (h i hi (by have := hx.lt; omega)) ▸ hx.below i hi hi',
      (h (lo + x) (by omega) (by have := hx.lt; omega)) ▸ hx.clear⟩
  · exact fun hx => ⟨hx.lt, fun i hi hi' => (h i hi (by have := hx.lt; omega)).trans (hx.below i hi hi'),
      (h (lo + x) (by omega) (by have := hx.lt; omega)).trans hx.clear⟩

/-- `get_inode` finds a slot, and `new_inode` overwrites what is in it. -/
theorem wp_newInode {Q : Fin nrInode → Fs → Prop} (h : RootDir size n p s) (hx : 2 ≤ x) (hx' : x < 4096)
    (hQ : ∀ q M, q ≠ p → Chosen s q x → Q q ((s.setInode q fun _ => newFile size x b).io
      (putWords s.disk (inodeAddr size x) (newFile size x b).words) M))
    (hE : (∀ q, (s.inodeTable q).cached) → ∀ e t, E e t) :
    wp (newInode rootDev (x : Nat) (bitSect (rootSuper size).n1stSect b)) Q E s := by
  have hsync (q : Fin nrInode) (M : Store) (hq : q ≠ p) (hchosen : Chosen s q x) :
      wp (syncInode q) (fun _ u => Q q u) E ((s.setInode q fun _ => newFile size x b).io s.disk M) := by
    have hdir : RootDir size n p ((s.setInode q fun _ => newFile size x b).io s.disk M) :=
      (h.setInode_of_ne hq).io
    have hself : ((s.setInode q fun _ => newFile size x b).io s.disk M).inodeTable q = newFile size x b := by
      rw [Fs.io_inodeTable, Fs.setInode_self]
    refine wp_syncInode hdir.super (by rw [hself]; rfl) (by rw [hself]; rfl) (by omega) hx' fun M' => ?_
    rw [hself]
    exact hQ q M' hq hchosen
  rw [newInode, wp_bind]
  refine wp_getInode h.super (by omega) (fun q hc hdev hnum => ?_) (fun hunread q M r hfree _ _ => ?_)
    (fun hall => hE hall _ _) fun hoff => absurd (show 0 ≤ inodeOff (x : Nat) from ?_) hoff
  · have hq : q ≠ p := by
      rintro rfl
      have hone : ((1 : Nat) : Int) = x := h.iNum.symm.trans hnum
      omega
    rw [wp_bind, wp_deref_some, wp_bind, wp_setInode, wp_bind, Fs.setInode_setInode]
    exact hsync q s.mem hq (.cached hc hdev hnum)
  · have hq : q ≠ p := fun he => hfree (he ▸ h.cached)
    rw [wp_bind, wp_deref_some, wp_bind, wp_setInode, wp_bind, Fs.io_setInode, Fs.setInode_setInode]
    exact hsync q M hq (.free hfree hunread)
  · rw [inodeOff_natCast (by omega)]
    exact Int.natCast_nonneg _

/-- The disk with the maps and the inode of a new file. -/
def allocInode (size : BitVec 32) (D : Store) (x b : Nat) : Store :=
  putWords (mark (mark D (4096 * 2 + x) true 1) (4096 * 3 + b) true nrDefaultFileSects) (inodeAddr size x)
    (newFile size x b).words

theorem allocInode_of_le {a : Nat} (hx : 1 ≤ x) (hx' : x < 4096)
    (hb : b + nrDefaultFileSects ≤ 4096 * nrSmap size) (ha : dirAddr size ≤ a) :
    allocInode size D x b a = D a := by
  have hwords : (newFile size x b).words.length = 4 := rfl
  have haddr : dirAddr size = 512 * (nrSmap size + 259) := rfl
  rw [allocInode, putWords_of_notMem (by rw [inodeAddr]; omega), mark_of_notMem (by omega),
    mark_of_notMem (by omega)]

theorem diskTables_allocInode (hx : 1 ≤ x) (hx' : x < 4096)
    (hb : b + nrDefaultFileSects ≤ 4096 * nrSmap size) :
    diskTables size (allocInode size D x b) = { diskTables size D with
      imap := Function.update (diskTables size D).imap x true
      smap := fun j => if b ≤ j ∧ j < b + nrDefaultFileSects then true else (diskTables size D).smap j
      record := Function.update (diskTables size D).record x (newFile size x b).record } := by
  rw [allocInode, diskTables_putRecord hx hx', diskTables_markSmap hb, diskTables_markImap hx']

/-- A new entry leaves the maps and the inodes. -/
theorem diskTables_addEntry {w : BitVec 32} {name : List Byte} :
    diskTables size (addEntry D (dirAddr size) k w name) =
      { diskTables size D with dir := (diskTables size (addEntry D (dirAddr size) k w name)).dir } := by
  refine diskTables_of_agree fun a ha => ?_
  have haddr : dirAddr size = 512 * firstSect size := rfl
  rw [addEntry, putBytes_of_notMem (by omega), putWords_of_notMem (by omega)]

theorem addEntry_congr {D' : Store} {a y : Nat} {w : BitVec 32} {name : List Byte} (h : D' y = D y) :
    addEntry D' a k w name y = addEntry D a k w name y := by
  simp only [addEntry, putBytes, putWords, h]

/-- An entry ends with its sector at the latest. -/
theorem addEntry_of_le {D : Store} {a y : Nat} {w : BitVec 32} {name : List Byte}
    (h : a + 512 * (k / 32 + 1) ≤ y) : addEntry D a k w name y = D y := by
  have hlen : ((name ++ [0]).take (508 - 16 * (k % 32))).length ≤ 508 - 16 * (k % 32) := List.length_take_le _ _
  rw [addEntry, putBytes_of_notMem (by omega), putWords_of_notMem (by rw [List.length_singleton]; omega)]

/-- The disk after the new entry, and after the directory's inode was written. -/
theorem FileCreated.of_disk {name : List Byte} {u : Fs} (hx : 2 ≤ x)
    (hfree : FirstClear s.disk (4096 * 2) 4096 x)
    (hfirst : FirstClear s.disk (4096 * 3) (4096 * nrSmap size) b)
    (hroom : b + nrDefaultFileSects ≤ 4096 * nrSmap size)
    (hclear : AllBits s.disk (4096 * 3 + b) false nrDefaultFileSects)
    (hplace : place (dirSlots s.disk (dirAddr size)) n = k)
    (hdisk : u.disk = putWords (addEntry (allocInode size s.disk x b) (dirAddr size) k
      (BitVec.ofNat 32 x) name) (inodeAddr size 1) (u.inodeTable p).words)
    (hdir : RootDir size (if k = n then n + 1 else n) p u) (hne : q ≠ p)
    (hchosen : Chosen s q x) (hinode : u.inodeTable q = newFile size x b)
    (hdirInode : ∃ w, u.inodeTable p = { s.inodeTable p with iSize := w })
    (hothers : ∀ q', q' ≠ q → q' ≠ p → u.inodeTable q' = s.inodeTable q')
    (hrest : ∃ D M T, u = { s with disk := D, mem := M, inodeTable := T }) :
    FileCreated size n p s name x b k q u := by
  have hlt := hfree.lt
  have halloc := diskTables_allocInode (D := s.disk) (show 1 ≤ x by omega) hlt hroom
  have htables : diskTables size u.disk = { diskTables size (allocInode size s.disk x b) with
      record := Function.update (diskTables size (allocInode size s.disk x b)).record 1
        (u.inodeTable p).record
      dir := (diskTables size u.disk).dir } := by
    rw [hdisk, diskTables_putRecord (by omega) (by omega), diskTables_addEntry]
  have hwords : (u.inodeTable p).words.length ≤ 8 := Nat.le_add_left 4 4
  refine ⟨hfree, hfirst, hroom, hclear, hplace, ?_, fun j => ?_, fun m hm => ?_, ?_, ?_, hdir, hne, hchosen,
    hinode, hdirInode, hothers, hrest, fun a ha => ?_⟩
  · rw [htables, halloc]
  · rw [htables, halloc]
  · rw [htables, halloc]
    simp only [Function.update_of_ne hm, Function.update_apply]
  · rw [htables]
    simp only [Function.update_self]
  · rw [hdisk, dirSlots_putWords (by omega) (by omega) hwords]
    funext j
    refine dirSlots_congr fun y _ => addEntry_congr ?_
    exact allocInode_of_le (by omega) hlt hroom (by omega)
  · have hlen : (u.inodeTable p).words.length = 4 := rfl
    have haddr : dirAddr size = 512 * (nrSmap size + 259) := rfl
    rw [hdisk, putWords_of_notMem (.inr (by rw [inodeAddr]; omega)), addEntry_of_le ha,
      allocInode_of_le (by omega) hlt hroom (by omega)]

/-- A request to create a file ends with the file. -/
theorem RootDir.wp_createFile {path : List Byte} {Q : Option (Fin nrInode) → Fs → Prop}
    (h : RootDir size n p s) (hc : Creatable size n s) (hnone : stripName path = none → Q none s)
    (hQ : ∀ name x b k q u, stripName path = some name → 2 ≤ x → FileCreated size n p s name x b k q u →
      Q (some q) u) (hE : stripName path ≠ none → NoRoom size s → ∀ e t, E e t) : wp (createFile path) Q E s := by
  have hsmap : nrSmap size ≤ 2 ^ 20 := nrSmap_le
  have hsects : nrDefaultFileSects = 2048 := rfl
  have himap : (rootSuper size).nrImapSects.toNat = 1 := rfl
  have hmap : (rootSuper size).nrSmapSects.toNat = nrSmap size := toNat_nrSmapSects
  rw [createFile, wp_bind, stripPath, wp_bind, wp_get, wp_pure]
  cases hname : stripName path with
  | none => exact hnone hname
  | some name =>
    replace hE := hE (hname ▸ Option.some_ne_none name)
    rw [Option.map_some, h.rootInode, wp_bind, wp_deref_some, wp_bind, wp_get, h.iDev, wp_bind]
    refine wp_allocImapBit h.super (by omega) (fun M hfull => ?_) fun M x hx => ?_
    · -- number 0 stands for no inode
      rw [wp_bind]
      refine (IgnoresIo.allocSmapBit (I := fun _ => True) (fun _ _ _ _ h => h) _ trivial).mono
        (fun free t _ => ?_) fun e t _ => hE (.inodes hfull) e t
      rw [newInode, getInode, if_pos rfl]
      exact hE (.inodes hfull) _ _
    · have hlt := hx.lt
      have h2 : 2 ≤ x := by
        by_contra hlow
        have hclear := hx.clear
        obtain rfl | rfl : x = 0 ∨ x = 1 := by omega
        · exact Bool.false_ne_true (hclear.symm.trans hc.zero)
        · exact Bool.false_ne_true (hclear.symm.trans hc.one)
      have hbits : 4096 * (rootSuper size).smapBase = 4096 * 3 := rfl
      have hsame (b : Nat) : FirstClear (mark s.disk (4096 * 2 + x) true 1) (4096 * 3) (4096 * nrSmap size) b ↔
          FirstClear s.disk (4096 * 3) (4096 * nrSmap size) b :=
        firstClear_congr fun i hi _ => by rw [bit_mark, if_neg (by omega)]
      rw [wp_bind]
      refine wp_allocSmapBit (by rw [Fs.io_super, h.super])
        (by rw [smapBase_rootSuper]; omega) (by omega) (fun b hb => ?_) (fun M' b hb hroom hclear => ?_)
        fun hno e t => hE (.sectors fun b hb hroom hclear => ?_) e t
      · rw [Fs.io_disk, hbits, smapBits_rootSuper, hsame] at hb
        exact hc.first b hb
      · rw [Fs.io_disk, hbits, smapBits_rootSuper, hsame] at hb
        rw [smapBits_rootSuper] at hroom
        rw [Fs.io_disk, hbits] at hclear ⊢
        have hclear' : AllBits s.disk (4096 * 3 + b) false nrDefaultFileSects := fun i hi hi' => by
          rw [← hclear i hi hi', bit_mark, if_neg (by omega)]
        rw [Fs.io_io, wp_bind]
        refine wp_newInode h.io h2 hlt (fun q M'' hq hchosen => ?_) fun hall => hE (.table hall)
        have hdir : RootDir size n p ((s.setInode q fun _ => newFile size x b).io (allocInode size s.disk x b) M'') :=
          (h.setInode_of_ne hq).io
        rw [Fs.io_disk, Fs.io_setInode, Fs.io_io]
        change wp _ Q E ((s.setInode q fun _ => newFile size x b).io (allocInode size s.disk x b) M'')
        generalize ht : Fs.io _ _ _ = t at hdir ⊢
        have hdisk : t.disk = allocInode size s.disk x b := by rw [← ht, Fs.io_disk]
        have hself : t.inodeTable q = newFile size x b := by rw [← ht, Fs.io_inodeTable, Fs.setInode_self]
        have hothers : ∀ q' ≠ q, t.inodeTable q' = s.inodeTable q' := fun q' hq' => by
          rw [← ht, Fs.io_inodeTable, Fs.setInode_of_ne hq']
        have hrest : ∃ D M T, t = { s with disk := D, mem := M, inodeTable := T } := ⟨_, _, _, ht.symm⟩
        have hslots : dirSlots t.disk (dirAddr size) = dirSlots s.disk (dirAddr size) := by
          funext j
          rw [hdisk]
          exact dirSlots_congr fun y _ => allocInode_of_le (by omega) hlt hroom (by omega)
        clear ht
        rw [wp_bind, wp_get, hself, wp_bind]
        refine hdir.wp_newDirEntry (k := place (dirSlots s.disk (dirAddr size)) n) (by rw [hslots]) rfl rfl ?_
          fun M₃ => ?_
        · split_ifs
          · exact hc.le
          · exact h.le
        · obtain ⟨D', M', T, hrest⟩ := hrest
          refine hQ name x b _ q _ hname h2 (.of_disk h2 hx hb hroom hclear' rfl ?_ (hdir.resize ?_).io hq hchosen.of_io ?_
            ?_ (fun q' hq' hp' => ?_) ?_)
          · rw [Fs.io_disk, Fs.io_inodeTable, hdisk, newFile, BitVec.ofInt_natCast]
          · split_ifs
            · exact hc.le
            · exact h.le
          · rw [Fs.io_inodeTable, Fs.setInode_of_ne hq, hself]
          · rw [Fs.io_inodeTable, Fs.setInode_self, hothers p (Ne.symm hq)]
            exact ⟨_, rfl⟩
          · rw [Fs.io_inodeTable, Fs.setInode_of_ne hp', hothers q' hq']
          · rw [hrest]
            exact ⟨_, _, _, rfl⟩
      · rw [Fs.io_disk, hbits, smapBits_rootSuper] at hno
        refine hno b ((hsame b).mpr hb) hroom fun i hi hi' => ?_
        rw [bit_mark, if_neg (by omega), hclear i hi hi']

end

end Dlos
