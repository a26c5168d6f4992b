import Mathlib.Data.Finset.Card
import Mathlib.Order.Interval.Finset.Nat
import Dlos.Fs.Counting
import Dlos.Fs.Format
import Dlos.Fs.Volume
import Dlos.Fs.Within

/-!
# A consistent file system

Between two requests the tables on the disk say who owns the sectors, the entries of the root directory
lead to inodes that are in use, the inode table agrees with the disk, and all references are counted.
-/

namespace Dlos

open Program Bytes Slot

/-! ## The tables -/

/-- A regular file that is not larger than its sectors, or a terminal. -/
inductive Record.Kind (r : Record) : Prop
  | regular : r.mode = iRegular → r.size.toNat ≤ 512 * nrDefaultFileSects → Record.Kind r
  | terminal : r.mode = iCharSpecial → major r.start.toInt = devCharTty → Record.Kind r

/-- The entries of the root directory lead to different inodes that are in use. There are fewer inodes than
these slots. -/
structure Entries (T : DiskTables) (S : Nat → Slot (List Byte) (BitVec 32)) : Prop where
  imap : ∀ k ≤ 4096, (S k).val ≠ 0 → T.imap (S k).val.toNat = true
  inj : ∀ j k, j ≤ 4096 → k ≤ 4096 → (S j).val ≠ 0 → (S j).val = (S k).val → j = k

/-- A slot of the inode table holds inode `m`, which is in use, as it is on the disk. -/
structure Inode.Current (T : DiskTables) (i : Inode) (m : Nat) : Prop where
  dev : i.iDev = rootDev
  num : i.iNum = (m : Nat)
  two_le : 2 ≤ m
  imap : T.imap m = true
  record : T.record m = i.record

/-- The inode table agrees with the disk, and no inode is in it twice. The root directory's inode, in slot
`p`, is written back when its size changes only. -/
structure Cache (T : DiskTables) (p : Fin nrInode) (tab : Fin nrInode → Inode) : Prop where
  current : ∀ q, q ≠ p → (tab q).cached → ∃ m, (tab q).Current T m
  inj : ∀ q q', (tab q).cached → (tab q').cached → (tab q).iNum = (tab q').iNum → q = q'

/-- The tables of a partition of `size` sectors are consistent. The root directory has `n` slots, and its
inode is in slot `p`. -/
structure Coherent (size : BitVec 32) (n : Nat) (p : Fin nrInode) (s : Fs) : Prop where
  geoSize : s.geoSize = size
  dir : RootDir size n p s
  iNrSects : (s.inodeTable p).iNrSects = BitVec.ofNat 32 nrDefaultFileSects
  le : n ≤ 4096
  logPos : 0 ≤ s.logPos
  volume : Volume size (diskTables size s.disk) (s.logPos ≠ 0)
  kind : ∀ m, 2 ≤ m → (diskTables size s.disk).imap m = true → ((diskTables size s.disk).record m).Kind
  entries : Entries (diskTables size s.disk) (dirSlots s.disk (dirAddr size))
  cache : Cache (diskTables size s.disk) p s.inodeTable

/-- So are the counts. Besides those of the open files inode `q` has `extra q` references, and the root
directory has one. -/
structure Consistent (size : BitVec 32) (n : Nat) (p : Fin nrInode) (extra : Fin nrInode → Int) (s : Fs) :
    Prop extends Coherent size n p s where
  counts : s.Counts s.held extra
  root : 1 ≤ extra p
  extra : ∀ q, 0 ≤ extra q

section

variable {size : BitVec 32} {n m k : Nat} {p q : Fin nrInode} {extra : Fin nrInode → Int} {s u : Fs}
  {T T' : DiskTables} {S S' : Nat → Slot (List Byte) (BitVec 32)} {tab tab' : Fin nrInode → Inode}
  {E : Halt → Fs → Prop}

/-! ### Entries -/

namespace Entries

/-- An entry's number is that of an inode. -/
theorem lt (h : Entries T S) (himap : ∀ m, T.imap m = true → m < 4096) (hk : k ≤ 4096) (hval : (S k).val ≠ 0) :
    (S k).val.toNat < 4096 := himap _ (h.imap k hk hval)

theorem congr (h : Entries T S) (himap : T'.imap = T.imap) (hS : ∀ k ≤ 4096, (S' k).val = (S k).val) :
    Entries T' S' where
  imap k hk hval := by
    rw [hS k hk] at hval ⊢
    rw [himap]
    exact h.imap k hk hval
  inj j k hj hk hval he := by
    rw [hS j hj] at hval he
    rw [hS k hk] at he
    exact h.inj j k hj hk hval he

/-- A new entry leads to an inode that was free. -/
theorem insert {x : Nat} (h : Entries T S) (hlt : x < 4096) (hfree : T.imap x = false)
    (himap : T'.imap = Function.update T.imap x true) (hval : (S' k).val = BitVec.ofNat 32 x)
    (hS : ∀ j ≤ 4096, j ≠ k → (S' j).val = (S j).val) : Entries T' S' := by
  have hx : (BitVec.ofNat 32 x).toNat = x := Nat.mod_eq_of_lt (by omega)
  have hold (j : Nat) (hj : j ≤ 4096) (hne : (S j).val ≠ 0) : (S j).val.toNat ≠ x := fun he =>
    Bool.false_ne_true (hfree.symm.trans (he ▸ h.imap j hj hne))
  refine ⟨fun j hj hne => ?_, fun i j hi hj hne he => ?_⟩
  · rw [himap]
    by_cases hjk : j = k
    · rw [hjk, hval, hx, Function.update_self]
    · rw [hS j hj hjk] at hne ⊢
      rw [Function.update_of_ne (hold j hj hne)]
      exact h.imap j hj hne
  · by_cases hik : i = k
    · by_cases hjk : j = k
      · rw [hik, hjk]
      · rw [hS j hj hjk] at he
        refine absurd ?_ (hold j hj (he ▸ hne))
        rw [← he, hik, hval, hx]
    · rw [hS i hi hik] at hne he
      by_cases hjk : j = k
      · refine absurd ?_ (hold i hi hne)
        rw [he, hjk, hval, hx]
      · rw [hS j hj hjk] at he
        exact h.inj i j hi hj hne he

/-- The entry of an inode is cleared when the inode is freed. -/
theorem remove (h : Entries T S) (hk : k ≤ 4096) (hm : (S k).val.toNat = m)
    (himap : T'.imap = Function.update T.imap m false) (hval : (S' k).val = 0)
    (hS : ∀ j ≤ 4096, j ≠ k → (S' j).val = (S j).val) : Entries T' S' := by
  have hkeep (j : Nat) (hj : (S' j).val ≠ 0) : j ≠ k := fun he => hj (he ▸ hval)
  refine ⟨fun j hj hj' => ?_, fun i j hi hj hi' he => ?_⟩
  · have hjk := hkeep j hj'
    rw [hS j hj hjk] at hj' ⊢
    rw [himap, Function.update_of_ne]
    · exact h.imap j hj hj'
    · rw [← hm]
      exact fun he => hjk (h.inj j k hj hk hj' (BitVec.eq_of_toNat_eq he))
  · have hjk := hkeep j (he ▸ hi')
    have hik := hkeep i hi'
    rw [hS i hi hik] at hi' he
    rw [hS j hj hjk] at he
    exact h.inj i j hi hj hi' he

/-- A directory without a free slot has fewer slots than there are inodes. -/
theorem lt_of_used (h : Entries T S) (himap : ∀ m, T.imap m = true → m < 4096) (hn : n ≤ 4096)
    (hused : ∀ k < n, (S k).val ≠ 0) : n < 4096 := by
  have hcard : (Finset.range n).card ≤ (Finset.Ico 1 4096).card := by
    refine Finset.card_le_card_of_injOn (fun k => (S k).val.toNat) (fun k hk => ?_) fun j hj k hk he => ?_
    · rw [Finset.mem_coe, Finset.mem_range] at hk
      rw [Finset.mem_coe, Finset.mem_Ico]
      change 1 ≤ (S k).val.toNat ∧ (S k).val.toNat < 4096
      have hlt := h.lt himap (by omega) (hused k hk)
      have hne : (S k).val.toNat ≠ 0 := fun hzero => hused k hk (BitVec.eq_of_toNat_eq hzero)
      omega
    · rw [Finset.mem_coe, Finset.mem_range] at hj hk
      exact h.inj j k (by omega) (by omega) (hused j hj) (BitVec.eq_of_toNat_eq he)
  rw [Finset.card_range, Nat.card_Ico] at hcard
  omega

end Entries

/-! ### The inode table -/

namespace Inode.Current

variable {i j : Inode}

theorem congr (h : i.Current T m) (himap : T'.imap m = T.imap m) (hrecord : T'.record m = T.record m)
    (hdev : j.iDev = i.iDev) (hnum : j.iNum = i.iNum) (hi : j.record = i.record) : j.Current T' m where
  dev := hdev.trans h.dev
  num := hnum.trans h.num
  two_le := h.two_le
  imap := himap.trans h.imap
  record := by rw [hrecord, h.record, hi]

end Inode.Current

namespace Cache

/-- No inode comes into the table, and those that stay agree with the disk again. -/
theorem keep (h : Cache T p tab) (hcached : ∀ q, (tab' q).cached → (tab q).cached)
    (hnum : ∀ q, (tab' q).iNum = (tab q).iNum)
    (hcurrent : ∀ q m, q ≠ p → (tab' q).cached → (tab q).Current T m → (tab' q).Current T' m) : Cache T' p tab' where
  current q hq hc := by
    obtain ⟨m, hm⟩ := h.current q hq (hcached q hc)
    exact ⟨m, hcurrent q m hq hc hm⟩
  inj q q' hc hc' he := by
    rw [hnum, hnum] at he
    exact h.inj q q' (hcached q hc) (hcached q' hc') he

/-- Inode `m` comes into slot `q`. -/
theorem insert (h : Cache T p tab) (hunread : ∀ q', q' ≠ q → (tab' q').cached → (tab' q').iNum ≠ (m : Nat))
    (hcached : ∀ q', q' ≠ q → (tab' q').cached → (tab q').cached)
    (hnum : ∀ q', q' ≠ q → (tab' q').iNum = (tab q').iNum)
    (hcurrent : ∀ q' m', q' ≠ p → q' ≠ q → (tab' q').cached → (tab q').Current T m' → (tab' q').Current T' m')
    (hnew : (tab' q).Current T' m) : Cache T' p tab' where
  current q' hq' hc := by
    by_cases he : q' = q
    · exact ⟨m, he ▸ hnew⟩
    · obtain ⟨m', hm'⟩ := h.current q' hq' (hcached q' he hc)
      exact ⟨m', hcurrent q' m' hq' he hc hm'⟩
  inj i j hi hj he := by
    by_cases hiq : i = q
    · by_cases hjq : j = q
      · rw [hiq, hjq]
      · rw [hiq, hnew.num] at he
        exact absurd he.symm (hunread j hjq hj)
    · by_cases hjq : j = q
      · rw [hjq, hnew.num] at he
        exact absurd he (hunread i hiq hi)
      · rw [hnum i hiq, hnum j hjq] at he
        exact h.inj i j (hcached i hiq hi) (hcached j hjq hj) he

end Cache

/-! ## The directory -/

/-- The tables and the reachable slots of the directory lie before this address. -/
theorem slots_of_agree {D D' : Store} (h : ∀ a < 512 * firstSect size + 16 * dirLimit, D' a = D a) :
    diskTables size D' = diskTables size D ∧
      ∀ k < dirLimit, dirSlots D' (dirAddr size) k = dirSlots D (dirAddr size) k := by
  refine ⟨diskTables_of_agree_dir h, fun k hk => dirSlots_congr fun x hx => h _ ?_⟩
  have haddr : dirAddr size = 512 * firstSect size := rfl
  omega

theorem lt_dirLimit (hk : k ≤ 4096) : k < dirLimit := Nat.lt_of_le_of_lt hk (by decide)

/-! ## Changes of the inode table -/

theorem RootDir.setInode_of {f : Inode → Inode} (h : RootDir size n p s)
    (hf : ∀ i, (f i).iMode = i.iMode ∧ (f i).iDev = i.iDev ∧ (f i).iNum = i.iNum ∧
      (f i).iStartSect = i.iStartSect ∧ (f i).iSize = i.iSize)
    (hcached : (f (s.inodeTable p)).cached) : RootDir size n p (s.setInode q f) := by
  by_cases hq : q = p
  · subst hq
    obtain ⟨hmode, hdev, hnum, hstart, hsize⟩ := hf (s.inodeTable q)
    exact ⟨h.rootInode, h.super, by rw [Fs.setInode_self, hmode, h.iMode], by rw [Fs.setInode_self, hdev, h.iDev],
      by rw [Fs.setInode_self, hnum, h.iNum], by rw [Fs.setInode_self, hstart, h.iStartSect],
      by rw [Fs.setInode_self, hsize, h.iSize], h.le, by rw [Fs.setInode_self]; exact hcached⟩
  · exact h.setInode_of_ne hq

namespace Coherent

/-- Of the state only the disk and these tables matter. -/
theorem congr (h : Coherent size n p s) (hdisk : u.disk = s.disk) (htable : u.inodeTable = s.inodeTable)
    (hroot : u.rootInode = s.rootInode) (hsuper : u.superBlock = s.superBlock) (hpos : u.logPos = s.logPos)
    (hgeo : u.geoSize = s.geoSize) : Coherent size n p u where
  geoSize := hgeo.trans h.geoSize
  dir := h.dir.congr hroot hsuper (congrFun htable p)
  iNrSects := (congrArg Inode.iNrSects (congrFun htable p)).trans h.iNrSects
  le := h.le
  logPos := hpos ▸ h.logPos
  volume := by
    rw [hdisk, hpos]
    exact h.volume
  kind := by
    rw [hdisk]
    exact h.kind
  entries := by
    rw [hdisk]
    exact h.entries
  cache := by
    rw [hdisk, htable]
    exact h.cache

theorem imap_lt (h : Coherent size n p s) (hm : (diskTables size s.disk).imap m = true) : m < 4096 :=
  h.volume.imap_lt m hm

theorem iDev_of_cached (h : Coherent size n p s) (hc : (s.inodeTable q).cached) : (s.inodeTable q).iDev = rootDev := by
  by_cases hq : q = p
  · rw [hq, h.dir.iDev]
  · obtain ⟨m, hm⟩ := h.cache.current q hq hc
    exact hm.dev

/-- An inode is counted anew. -/
theorem recount {c : Int → Int} (h : Coherent size n p s)
    (hcached : c (s.inodeTable q).iCnt ≠ 0 → (s.inodeTable q).cached)
    (hp : q = p → c (s.inodeTable p).iCnt ≠ 0) :
    Coherent size n p (s.setInode q fun i => { i with iCnt := c i.iCnt }) := by
  have hself : (s.setInode q fun i => { i with iCnt := c i.iCnt }).inodeTable q =
      { s.inodeTable q with iCnt := c (s.inodeTable q).iCnt } := Fs.setInode_self
  have hother (q' : Fin nrInode) (hq' : q' ≠ q) :
      (s.setInode q fun i => { i with iCnt := c i.iCnt }).inodeTable q' = s.inodeTable q' :=
    Fs.setInode_of_ne hq'
  refine ⟨h.geoSize, ?_, ?_, h.le, h.logPos, h.volume, h.kind, h.entries, h.cache.keep (fun q' hc => ?_)
    (fun q' => ?_) fun q' m hq' _ hm => ?_⟩
  · by_cases hq : q = p
    · exact h.dir.setInode_of (fun i => ⟨rfl, rfl, rfl, rfl, rfl⟩) (hp hq)
    · exact h.dir.setInode_of_ne hq
  · by_cases hq : p = q
    · rw [hq, hself, ← hq]
      exact h.iNrSects
    · rw [hother p hq, h.iNrSects]
  · by_cases hq' : q' = q
    · subst hq'
      rw [hself] at hc
      exact hcached hc
    · rwa [hother q' hq'] at hc
  · by_cases hq' : q' = q
    · rw [hq', hself]
    · rw [hother q' hq']
  · refine hm.congr rfl rfl ?_ ?_ ?_ <;> by_cases he : q' = q
    · rw [he, hself]
    · rw [hother q' he]
    · rw [he, hself]
    · rw [hother q' he]
    · rw [he, hself]
      rfl
    · rw [hother q' he]

/-- An inode that is in use is read into a free slot. -/
theorem read {r : Record} (h : Coherent size n p s) (hm : 1 ≤ m) (himap : (diskTables size s.disk).imap m = true)
    (hfree : ¬(s.inodeTable q).cached)
    (hunread : ∀ q', (s.inodeTable q').cached → (s.inodeTable q').iDev = rootDev → (s.inodeTable q').iNum ≠ (m : Nat))
    (hr : r = recordAt s.disk (inodeAddr size m)) : Coherent size n p (s.setInode q fun _ => r.inode (m : Nat)) := by
  have hlt := h.imap_lt himap
  have hq : q ≠ p := fun he => hfree (he ▸ h.dir.cached)
  have hm1 : m ≠ 1 := by
    rintro rfl
    exact hunread p h.dir.cached h.dir.iDev h.dir.iNum
  have hself : (s.setInode q fun _ => r.inode (m : Nat)).inodeTable q = r.inode (m : Nat) := Fs.setInode_self
  have hother (q' : Fin nrInode) (hq' : q' ≠ q) :
      (s.setInode q fun _ => r.inode (m : Nat)).inodeTable q' = s.inodeTable q' := Fs.setInode_of_ne hq'
  refine ⟨h.geoSize, h.dir.setInode_of_ne hq, by rw [hother p (Ne.symm hq), h.iNrSects], h.le, h.logPos, h.volume, h.kind, h.entries,
    h.cache.insert (q := q) (m := m) (fun q' hq' hc => ?_) (fun q' hq' hc => ?_) (fun q' hq' => ?_)
      (fun q' m' hp hq' _ hm' => ?_) ?_⟩
  · rw [hother q' hq'] at hc ⊢
    exact hunread q' hc (h.iDev_of_cached hc)
  · rwa [hother q' hq'] at hc
  · rw [hother q' hq']
  · rw [hother q' hq']
    exact hm'
  · rw [hself]
    refine ⟨rfl, rfl, by omega, himap, ?_⟩
    rw [hr]
    exact if_pos ⟨hm, hlt⟩

/-- The directory's record, as it is in the inode table. -/
theorem inMap_root (hdir : RootDir size n p s) (hsects : (s.inodeTable p).iNrSects = BitVec.ofNat 32 nrDefaultFileSects) :
    (s.inodeTable p).record.InMap size 1 nrDefaultFileSects where
  start := by
    have hle : firstSect size ≤ 2 ^ 20 + 259 := firstSect_le
    refine BitVec.eq_of_toNat_eq ?_
    change (s.inodeTable p).iStartSect.toNat = (BitVec.ofNat 32 1 - 1 + (rootSuper size).n1stSect).toNat
    rw [hdir.iStartSect, show BitVec.ofNat 32 1 - 1 = 0#32 from rfl, BitVec.zero_add, toNat_n1stSect,
      BitVec.toNat_ofNat, Nat.mod_eq_of_lt (by omega)]
  sects := hsects
  le := by
    have hpos : 1 ≤ nrSmap size := Nat.le_add_left 1 _
    have hfile : nrDefaultFileSects = 2048 := rfl
    omega
  lt := by decide
  cnt := by decide

theorem imap_eq_false (hclear : bit s.disk (4096 * 2 + m) = false) :
    (diskTables size s.disk).imap m = false := by
  simp only [diskTables, hclear, Bool.and_false]

/-- A file was created, with a name that fits into its slot. -/
theorem create {name : List Byte} {x b : Nat} (h : Coherent size n p s) (hx : 2 ≤ x) (hlen : name.length ≤ 11)
    (hu : FileCreated size n p s name x b k q u) : Coherent size (if k = n then n + 1 else n) p u := by
  obtain ⟨D, M, tab, hrest⟩ := hu.rest
  obtain ⟨w, hw⟩ := hu.dirInode
  have hlt := hu.free.lt
  have hlogPos : u.logPos = s.logPos := by rw [hrest]
  have hle : k ≤ n := hu.slot ▸ place_le
  have hxfree : (diskTables size s.disk).imap x = false := imap_eq_false hu.free.clear
  have hsects : (u.inodeTable p).iNrSects = BitVec.ofNat 32 nrDefaultFileSects := by
    rw [hw]
    exact h.iNrSects
  have hrecord : (diskTables size u.disk).record x = (newFile size x b).record := by
    rw [hu.record x (by omega), if_pos rfl]
  have hold (m : Nat) (hm : 2 ≤ m) (hset : (diskTables size s.disk).imap m = true) : m ≠ x ∧
      (diskTables size u.disk).imap m = (diskTables size s.disk).imap m ∧
      (diskTables size u.disk).record m = (diskTables size s.disk).record m := by
    have hne : m ≠ x := fun he => Bool.false_ne_true (hxfree.symm.trans (he ▸ hset))
    exact ⟨hne, by rw [hu.imap, Function.update_of_ne hne], by rw [hu.record m (by omega), if_neg hne]⟩
  have hroom := hu.room
  have hfile : nrDefaultFileSects = 2048 := rfl
  have hfull : b ≤ 4098 * 2048 := h.volume.full_le fun j hj => by
    have hbit := hu.first.below (4096 * 3 + j) (by omega) (by omega)
    simp only [diskTables, hbit, Bool.and_true, decide_eq_true_eq]
    omega
  refine ⟨?_, hu.dir, hsects, ?_, hlogPos ▸ h.logPos, ?_, fun m hm hset => ?_, ?_, ?_⟩
  · rw [hrest]
    exact h.geoSize
  · split_ifs with hk
    · refine h.entries.lt_of_used (fun m hm => h.imap_lt hm) h.le fun j hj => ?_
      rw [← hk, ← hu.slot] at hj
      exact val_of_lt_place hj
    · exact h.le
  · rw [hlogPos]
    refine h.volume.create hxfree hlt (fun j hj => ?_) (hrecord ▸ ⟨rfl, rfl, hroom, by omega, by omega⟩)
      (by rw [hrecord]; rfl) hu.imap hu.smap (fun m hm hmx => by rw [hu.record m hm, if_neg hmx])
      (hu.root ▸ inMap_root hu.dir hsects)
    have hbit := hu.clear (4096 * 3 + j) (by have := hj.1; omega) (by have := hj.2; omega)
    simp only [diskTables, hbit, Bool.and_false]
  · by_cases hmx : m = x
    · rw [hmx, hrecord]
      exact .regular rfl (Nat.zero_le _)
    · rw [hu.record m (by omega), if_neg hmx]
      rw [hu.imap, Function.update_of_ne hmx] at hset
      exact h.kind m hm hset
  · refine h.entries.insert (k := k) hlt hxfree hu.imap ?_ fun j hj hjk => ?_
    · rw [hu.slots]
      exact val_addEntry
    · rw [hu.slots]
      exact congrArg Slot.val (dirSlots_congr fun y hy => addEntry_of_ne (by omega) hjk (fun _ h12 => by omega) hy)
  · have hnum (q' : Fin nrInode) (hq' : q' ≠ q) : (u.inodeTable q').iNum = (s.inodeTable q').iNum ∧
        ((u.inodeTable q').cached → (s.inodeTable q').cached) := by
      by_cases hp : q' = p
      · rw [hp, hw]
        exact ⟨rfl, id⟩
      · rw [hu.others q' hq' hp]
        exact ⟨rfl, id⟩
    refine h.cache.insert (q := q) (m := x) (fun q' hq' hc he => ?_) (fun q' hq' => (hnum q' hq').2)
      (fun q' hq' => (hnum q' hq').1) (fun q' m' hp hq' _ hm' => ?_) ?_
    · rw [(hnum q' hq').1] at he
      by_cases hp : q' = p
      · rw [hp, h.dir.iNum] at he
        have hone : ((1 : Nat) : Int) = x := he
        omega
      · obtain ⟨m', hm'⟩ := h.cache.current q' hp ((hnum q' hq').2 hc)
        have hmx : m' = x := by
          have := hm'.num.symm.trans he
          omega
        exact (hold m' hm'.two_le hm'.imap).1 hmx
    · obtain ⟨-, himap, hrec⟩ := hold m' hm'.two_le hm'.imap
      rw [hu.others q' hq' hp]
      exact hm'.congr himap hrec rfl rfl rfl
    · rw [hu.inode]
      exact ⟨rfl, rfl, hx, by rw [hu.imap, Function.update_self], hrecord⟩

/-- A file was removed. -/
theorem remove {path name : List Byte} {num b cnt : Nat} (h : Coherent size n p s)
    (hfile : FileOf size n s path name num b cnt)
    (hk : first (fun k => (dirSlots s.disk (dirAddr size) k).val = BitVec.ofNat 32 num) n = some k)
    (hu : FileRemoved size n p s num b cnt k u) (hq : SlotFreed s p q num u) :
    Coherent size (if k + 1 = n then used (dirSlots s.disk (dirAddr size)) k else n) p u := by
  obtain ⟨w, hw⟩ := hu.inode
  have h2 := hfile.two_le
  have hlt := hfile.lt
  obtain ⟨hkn, hval, -⟩ := first_eq_some.mp hk
  have hle := h.le
  have hset : (diskTables size s.disk).imap num = true := by
    simp only [diskTables, hfile.imap, Bool.and_true, decide_eq_true_eq]
    exact hlt
  have hrecord : (diskTables size s.disk).record num = recordAt s.disk (inodeAddr size num) :=
    if_pos ⟨by omega, hlt⟩
  have hsects : (u.inodeTable p).iNrSects = BitVec.ofNat 32 nrDefaultFileSects := by
    rw [hw]
    exact h.iNrSects
  have hset' (m : Nat) (hm : (diskTables size u.disk).imap m = true) :
      m ≠ num ∧ (diskTables size s.disk).imap m = true := by
    rw [hu.imap, Function.update_apply] at hm
    split_ifs at hm with hne
    exact ⟨hne, hm⟩
  have hroot : ((diskTables size u.disk).record 1).InMap size 1 nrDefaultFileSects := by
    rcases hu.root with hroot | hroot
    · exact hroot ▸ h.volume.rootMap
    · exact hroot ▸ inMap_root hu.dir hsects
  have htable (q' : Fin nrInode) (hc : (u.inodeTable q').cached) : q' ≠ q ∧ (s.inodeTable q').cached := by
    have hne : q' ≠ q := fun he => hq.freed (he ▸ hc)
    refine ⟨hne, ?_⟩
    by_cases hp : q' = p
    · rw [hp]
      exact h.dir.cached
    · rwa [hq.others q' hne hp] at hc
  refine ⟨hu.geoSize.trans h.geoSize, hu.dir, hsects, ?_, hu.logPos ▸ h.logPos, ?_, fun m hm hm' => ?_, ?_,
    ⟨fun q' hp hc => ?_, fun i j hi hj he => ?_⟩⟩
  · split_ifs with hlast
    · exact (used_le.trans (by omega))
    · exact hle
  · rw [hu.logPos]
    exact h.volume.remove h2 hset (hrecord ▸ hfile.regular) (hrecord ▸ hfile.inMap) hu.imap hu.smap
      (fun m hm hmx => by rw [hu.record m hm, if_neg hmx]) hroot
  · obtain ⟨hne, hm'⟩ := hset' m hm'
    rw [hu.record m (by omega), if_neg hne]
    exact h.kind m hm hm'
  · refine h.entries.remove (k := k) (m := num) (by omega) ?_ hu.imap ?_ fun j _ hjk => ?_
    · rw [hval, BitVec.toNat_ofNat]
      omega
    · rw [hu.slots, Function.update_self]
    · rw [hu.slots, Function.update_of_ne hjk]
  · obtain ⟨hne, hc'⟩ := htable q' hc
    obtain ⟨m, hm⟩ := h.cache.current q' hp hc'
    have hmnum : m ≠ num := by
      rintro rfl
      exact hq.unread q' hc' hm.dev hm.num
    rw [hq.others q' hne hp]
    refine ⟨m, hm.congr (by rw [hu.imap, Function.update_of_ne hmnum]) ?_ rfl rfl rfl⟩
    rw [hu.record m (by have := hm.two_le; omega), if_neg hmnum]
  · have hnum (q' : Fin nrInode) (hc : (u.inodeTable q').cached) : (u.inodeTable q').iNum = (s.inodeTable q').iNum := by
      by_cases hp : q' = p
      · rw [hp, hw]
      · rw [hq.others q' (htable q' hc).1 hp]
    rw [hnum i hi, hnum j hj] at he
    exact h.cache.inj i j (htable i hi).2 (htable j hj).2 he

/-! ### Files -/

theorem toNat_start {r : Record} {b cnt : Nat} (h : r.InMap size b cnt) (hb : 1 ≤ b) :
    r.start.toNat + 1 = firstSect size + b := by
  have hle : firstSect size ≤ 2 ^ 20 + 259 := firstSect_le
  have hlt := h.lt
  have hone : (1 : BitVec 32).toNat = 1 := rfl
  have hofNat : (BitVec.ofNat 32 b).toNat = b := Nat.mod_eq_of_lt (by omega)
  have hsub : (BitVec.ofNat 32 b - 1).toNat = b - 1 := by
    rw [BitVec.toNat_sub_of_le (BitVec.le_def.mpr (by rw [hone, hofNat]; exact hb)), hofNat, hone]
  rw [h.start, bitSect, BitVec.toNat_add, hsub, toNat_n1stSect]
  omega

/-- The sectors of a file come behind those of the root directory. -/
theorem exists_bits (h : Coherent size n p s) (hm : 2 ≤ m) (hset : (diskTables size s.disk).imap m = true)
    (hmode : ((diskTables size s.disk).record m).mode = iRegular) :
    ∃ b, 2049 ≤ b ∧ ((diskTables size s.disk).record m).InMap size b nrDefaultFileSects := by
  obtain ⟨b, hin⟩ := h.volume.inMap m hm hset hmode
  have hfile : nrDefaultFileSects = 2048 := rfl
  refine ⟨b, ?_, hin⟩
  by_contra hlow
  have hlive : (diskTables size s.disk).Live m := ⟨hset, .inr ⟨hm, hmode⟩⟩
  have howns : SectOwner.inode m ∈ {o | (diskTables size s.disk).owns (s.logPos ≠ 0) o} := hlive
  have hb : b ∈ (diskTables size s.disk).extent size (.inode m) := by
    rw [extent_inode hin]
    exact mem_bitRange.mpr (by omega)
  by_cases hzero : b = 0
  · have hreserved : SectOwner.reserved ∈ {o | (diskTables size s.disk).owns (s.logPos ≠ 0) o} := trivial
    have hb' : b ∈ (diskTables size s.disk).extent size .reserved := by
      rw [hzero]
      exact mem_bitRange.mpr ⟨Nat.le_refl 0, Nat.one_pos⟩
    exact SectOwner.noConfusion (h.volume.tiles.owner_unique howns hreserved hb hb')
  · have hroot : SectOwner.inode 1 ∈ {o | (diskTables size s.disk).owns (s.logPos ≠ 0) o} := h.volume.live_root
    have hb' : b ∈ (diskTables size s.disk).extent size (.inode 1) := by
      rw [extent_inode h.volume.rootMap]
      exact mem_bitRange.mpr (by omega)
    have := SectOwner.inode.inj (h.volume.tiles.owner_unique howns hroot hb hb')
    omega

/-- The bytes of a file lie behind the tables. -/
theorem fileAddr_le (h : Coherent size n p s) (pos : Nat) (hc : (s.inodeTable q).cached)
    (hmode : (s.inodeTable q).iMode = iRegular) : ∃ m, (s.inodeTable q).Current (diskTables size s.disk) m ∧
      512 * firstSect size + 16 * dirLimit ≤ fileAddr (s.inodeTable q) pos ∧
      (s.inodeTable q).iNrSects.toNat = nrDefaultFileSects := by
  have hqp : q ≠ p := by
    rintro rfl
    rw [h.dir.iMode] at hmode
    exact absurd hmode (by decide)
  obtain ⟨m, hm⟩ := h.cache.current q hqp hc
  have hmode' : ((diskTables size s.disk).record m).mode = iRegular := by
    rw [hm.record]
    exact hmode
  obtain ⟨b, hb, hin⟩ := h.exists_bits hm.two_le hm.imap hmode'
  have hstart := toNat_start hin (by omega)
  have hsects := hin.toNat_sects
  rw [hm.record] at hstart hsects
  refine ⟨m, hm, ?_, hsects⟩
  have hlimit : dirLimit = 4160 := rfl
  have hrecord : (s.inodeTable q).record.start = (s.inodeTable q).iStartSect := rfl
  rw [hrecord] at hstart
  rw [fileAddr]
  omega

/-- What a READ or a WRITE changes of the disk: the record of the file's inode and bytes of the file. -/
theorem moved_disk {pid : Pid} {d : Fin nrFileDesc} {num buf pos len : Nat} {l : List Byte} (h : Coherent size n p s)
    (hc : (s.inodeTable q).cached) (hw : WithinFile size s pid d q num buf pos len)
    (hu : RangeMoved size s d q num pos len l u) :
    diskTables size u.disk = { diskTables size s.disk with
      record := Function.update (diskTables size s.disk).record num (u.inodeTable q).record } ∧
    (∀ k < dirLimit, dirSlots u.disk (dirAddr size) k = dirSlots s.disk (dirAddr size) k) ∧
    ∀ a, dirAddr size ≤ a → u.disk a = putBytes s.disk (fileAddr (s.inodeTable q) pos) l a := by
  obtain ⟨m, hm, hbehind, -⟩ := h.fileAddr_le pos hc hw.regular
  obtain rfl : m = num := by
    have := hm.num.symm.trans hw.iNum
    omega
  have hdata : ∀ a < 512 * firstSect size + 16 * dirLimit, putBytes s.disk (fileAddr (s.inodeTable q) pos) l a =
      s.disk a := fun a ha => putBytes_of_notMem (.inl (by omega))
  obtain ⟨htables, hslots⟩ := slots_of_agree hdata
  rcases hu.disk with ⟨hdisk, hsame⟩ | hdisk
  · rw [hdisk, hsame, htables, ← hm.record, Function.update_eq_self]
    exact ⟨rfl, hslots, fun _ _ => rfl⟩
  · have hwords : (u.inodeTable q).words.length = 4 := rfl
    have haddr : dirAddr size = 512 * (nrSmap size + 259) := rfl
    have hlt := hw.lt
    refine ⟨?_, fun k hk => ?_, fun a ha => ?_⟩
    · rw [hdisk, diskTables_putRecord hw.num_pos hw.lt, htables]
    · rw [hdisk, dirSlots_putWords hw.num_pos hw.lt (by rw [hwords]; decide)]
      exact hslots k hk
    · rw [hdisk, putWords_of_notMem (.inr (by rw [inodeAddr]; omega))]

/-- A file was read or written. -/
theorem moved {pid : Pid} {d : Fin nrFileDesc} {num buf pos len : Nat} {l : List Byte} (h : Coherent size n p s)
    (hc : (s.inodeTable q).cached) (hw : WithinFile size s pid d q num buf pos len)
    (hu : RangeMoved size s d q num pos len l u) : Coherent size n p u := by
  obtain ⟨w, M, C, hstate⟩ := hu.state
  obtain ⟨htables, hslots, -⟩ := h.moved_disk hc hw hu
  obtain ⟨m, hm, hbehind, hsects⟩ := h.fileAddr_le pos hc hw.regular
  obtain rfl : m = num := by
    have := hm.num.symm.trans hw.iNum
    omega
  have hqp : q ≠ p := by
    rintro rfl
    have hone : ((1 : Nat) : Int) = m := h.dir.iNum.symm.trans hm.num
    have := hm.two_le
    omega
  have hself : u.inodeTable q = { s.inodeTable q with iSize := w } := by
    rw [hstate, Fs.advanced_inodeTable, Fs.setInode_self]
  have hother (q' : Fin nrInode) (hq' : q' ≠ q) : u.inodeTable q' = s.inodeTable q' := by
    rw [hstate, Fs.advanced_inodeTable, Fs.setInode_of_ne hq']
  have hrecord (m' : Nat) : (diskTables size u.disk).record m' =
      if m' = m then (u.inodeTable q).record else (diskTables size s.disk).record m' := by
    rw [htables]
    exact Function.update_apply _ _ _ _
  have himap : (diskTables size u.disk).imap = (diskTables size s.disk).imap := by rw [htables]
  have hlogPos : u.logPos = s.logPos := by
    rw [hstate]
    rfl
  have hnum (q' : Fin nrInode) : (u.inodeTable q').iNum = (s.inodeTable q').iNum ∧
      ((u.inodeTable q').cached → (s.inodeTable q').cached) := by
    by_cases hq' : q' = q
    · rw [hq', hself]
      exact ⟨rfl, id⟩
    · rw [hother q' hq']
      exact ⟨rfl, id⟩
  refine ⟨?_, ?_, ?_, h.le, hlogPos ▸ h.logPos, ?_, fun m' hm' hset => ?_, ?_,
    h.cache.keep (fun q' => (hnum q').2) (fun q' => (hnum q').1) fun q' m' hp hc' hm' => ?_⟩
  · rw [hstate]
    exact h.geoSize
  · rw [hstate]
    exact (h.dir.setInode_of_ne hqp).congr rfl rfl (congrFun Fs.advanced_inodeTable p)
  · rw [hother p (Ne.symm hqp), h.iNrSects]
  · rw [hlogPos]
    refine h.volume.congr himap (by rw [htables]) fun m' => ?_
    rw [hrecord]
    split_ifs with he
    · rw [he, hm.record, hself]
      exact ⟨rfl, rfl, rfl⟩
    · exact ⟨rfl, rfl, rfl⟩
  · rw [himap] at hset
    rw [hrecord]
    split_ifs with he
    · refine .regular (by rw [hself]; exact hw.regular) ?_
      have hsize := hu.iSize
      have hfile := hw.file.size
      have hlen := hw.len_lt
      rw [hsects] at hfile hlen
      change (u.inodeTable q).iSize.toNat ≤ _
      omega
    · exact h.kind m' hm' hset
  · exact h.entries.congr himap fun k hk => congrArg Slot.val (hslots k (lt_dirLimit hk))
  · by_cases hq' : q' = q
    · obtain rfl : m' = m := by
        rw [hq'] at hm'
        have := hm'.num.symm.trans hm.num
        omega
      rw [hq'] at hm' ⊢
      refine ⟨?_, ?_, hm.two_le, himap ▸ hm.imap, by rw [hrecord, if_pos rfl]⟩
      · rw [hself]
        exact hm.dev
      · rw [hself]
        exact hm.num
    · rw [hother q' hq']
      refine hm'.congr (by rw [himap]) ?_ rfl rfl rfl
      rw [hrecord, if_neg]
      rintro rfl
      refine hq' (h.cache.inj q' q ?_ hc (hm'.num.trans hm.num.symm))
      rwa [hother q' hq'] at hc'

end Coherent

end

end Dlos
