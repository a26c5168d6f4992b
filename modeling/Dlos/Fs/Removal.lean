import Dlos.Fs.Directory
import Dlos.Fs.Effects

/-!
# Removing a file

When `do_unlink` answers 0, it has read the file's inode into a free slot of the inode table, cleared
the file's bits in the two maps and its inode on the disk, and cleared the slot of its name.
-/

namespace Dlos

open Program Bytes Slot

variable {size : BitVec 32} {s : Fs} {p q : Fin nrInode} {num : Int} {E : Halt → Fs → Prop}

/-! ## Taking an inode -/

/-- The inode that `get_inode` makes of a record. -/
def Record.inode (r : Record) (num : Int) : Inode where
  iMode := r.mode
  iSize := r.size
  iStartSect := r.start
  iNrSects := r.sects
  iDev := rootDev
  iCnt := 1
  iNum := num

theorem recordAt_blit {dst src : Store} {d k a n : Nat} (h : a + 16 ≤ n) :
    recordAt (blit dst d src k n) (d + a) = recordAt src (k + a) := by
  have hword (i : Nat) (hi : i ≤ 12) :
      word (blit dst d src k n) (d + a + i) = word src (k + a + i) := by
    rw [word_blit (by omega) (by omega)]
    exact congrArg (word src) (by omega)
  have h0 := hword 0 (by omega)
  rw [Nat.add_zero, Nat.add_zero] at h0
  rw [recordAt, recordAt, h0, hword 4 (by omega), hword 8 (by omega), hword 12 (by omega)]

/-- `get_inode` counts a cached inode once more, or it reads a record into a free slot. -/
theorem wp_getInode {Q : Option (Fin nrInode) → Fs → Prop}
    (hsb : s.super rootDev = some (rootSuper size)) (hnum : num ≠ 0)
    (hcached : ∀ q, (s.inodeTable q).cached → (s.inodeTable q).iDev = rootDev →
      (s.inodeTable q).iNum = num → Q (some q) (s.setInode q fun i => { i with iCnt := i.iCnt + 1 }))
    (hread : (∀ q, (s.inodeTable q).cached → (s.inodeTable q).iDev = rootDev →
      (s.inodeTable q).iNum ≠ num) → ∀ q M r, ¬(s.inodeTable q).cached → 0 ≤ inodeOff num →
      (∀ m : Nat, num = m → m < 4096 → r = recordAt s.disk (inodeAddr size m)) →
      Q (some q) ((s.setInode q fun _ => r.inode num).io s.disk M))
    (hfull : (∀ q, (s.inodeTable q).cached) → E (.panic "the inode table is full") s)
    (hwild : ¬0 ≤ inodeOff num → ∀ t, E .wildIndex t) : wp (getInode rootDev num) Q E s := by
  have hsmap : nrSmap size ≤ 2 ^ 20 := nrSmap_le
  rw [getInode, if_neg hnum, wp_bind, wp_get]
  split
  case h_1 q hq =>
    obtain ⟨hc, hdev, hn⟩ := of_decide_eq_true (List.find?_some hq :)
    exact hcached q hc hdev hn
  case h_2 hno =>
    have hunread (q : Fin nrInode) (hc : (s.inodeTable q).cached)
        (hdev : (s.inodeTable q).iDev = rootDev) : (s.inodeTable q).iNum ≠ num := by
      have := List.find?_eq_none.mp hno q (List.mem_finRange q)
      simp only [decide_eq_true_eq, not_and] at this
      exact this hc hdev
    split
    case h_1 hall =>
      refine hfull fun q => ?_
      have := List.find?_eq_none.mp hall q (List.mem_finRange q)
      simpa using this
    case h_2 q hq =>
      have hfree : ¬(s.inodeTable q).cached := of_decide_eq_true (List.find?_some hq :)
      rw [wp_bind, wp_setInode, wp_bind, wp_getSuperBlock (by rw [Fs.setInode_super, hsb]), wp_bind,
        wp_rdSect, wp_bind, wp_natOf]
      refine ⟨fun hoff => ?_, fun hoff => hwild hoff _⟩
      simp only [wp_bind, wp_bufWord, wp_setInode, wp_pure]
      generalize hM : blit _ _ _ _ _ = M
      obtain ⟨r, hr⟩ : ∃ r, r = recordAt M (fsbuf + (inodeOff num).toNat) := ⟨_, rfl⟩
      have hread' := hread hunread q M r hfree hoff fun m hm hm' => ?_
      · rw [hr] at hread'
        rwa [Fs.io_setInode, Fs.setInode_setInode]
      subst hm
      have hpos : 1 ≤ m := by omega
      have haddr : inodeAddr size m =
          512 * (nrSmap size + 3 + (m - 1) / 16) + 32 * ((m - 1) % 16) := by
        rw [inodeAddr]
        omega
      rw [inodeBlk_rootSuper hpos hm', toNat_sectPos (by omega)] at hM
      rw [hr, inodeOff_natCast hpos, Int.toNat_natCast, haddr, ← hM]
      exact recordAt_blit (by omega)

/-! ## The disk without the file -/

/-- The bits of a file in the sector map: `cnt` of them from bit `b` on. -/
structure Record.InMap (size : BitVec 32) (r : Record) (b cnt : Nat) : Prop where
  start : r.start = bitSect (rootSuper size).n1stSect b
  sects : r.sects = BitVec.ofNat 32 cnt
  le : b + cnt ≤ 4096 * nrSmap size
  lt : b < 2 ^ 31
  cnt : cnt < 2 ^ 31

/-- What is left when a file is removed: inode `num` is free, and so are its bits of the sector map and
the slot of its name. -/
structure FileRemoved (size : BitVec 32) (n : Nat) (p : Fin nrInode) (s : Fs) (num b cnt k : Nat)
    (u : Fs) : Prop where
  slots : dirSlots u.disk (dirAddr size) =
    Function.update (dirSlots s.disk (dirAddr size)) k ⟨0, padName []⟩
  imap : (diskTables size u.disk).imap = Function.update (diskTables size s.disk).imap num false
  smap : ∀ j, (diskTables size u.disk).smap j =
    if b ≤ j ∧ j < b + cnt then false else (diskTables size s.disk).smap j
  record : ∀ m, m ≠ 1 → (diskTables size u.disk).record m =
    if m = num then noRecord else (diskTables size s.disk).record m
  root : (diskTables size u.disk).record 1 = (diskTables size s.disk).record 1 ∨
    (diskTables size u.disk).record 1 = (u.inodeTable p).record
  dir : RootDir size (if k + 1 = n then used (dirSlots s.disk (dirAddr size)) k else n) p u
  inode : ∃ w, u.inodeTable p = { s.inodeTable p with iSize := w }
  fDescTable : u.fDescTable = s.fDescTable
  logPos : u.logPos = s.logPos
  geoSize : u.geoSize = s.geoSize
  /-- Behind the slot nothing is written. -/
  data : ∀ a, dirAddr size + 16 * (k + 1) ≤ a → u.disk a = s.disk a

/-- The disk without an inode and its bits in the maps. -/
def freeInode (size : BitVec 32) (D : Store) (num b cnt : Nat) : Store :=
  putWords (mark (mark D (4096 * 2 + num) false 1) (4096 * 3 + b) false cnt) (inodeAddr size num)
    ({} : Inode).words

section

variable {D : Store} {num b cnt k m : Nat} {i : Inode}

theorem dirSlots_mark {lo : Nat} {v : Bool} (h : lo + cnt ≤ 4096 * firstSect size) :
    dirSlots (mark D lo v cnt) (dirAddr size) = dirSlots D (dirAddr size) := by
  funext j
  refine dirSlots_congr fun x _ => mark_of_notMem (.inr ?_)
  rw [dirAddr]
  omega

theorem dirSlots_clearSlot {a : Nat} : dirSlots (clearSlot D a k) a =
    Function.update (dirSlots D a) k ⟨0, padName []⟩ := by
  funext j
  by_cases hj : j = k
  · subst hj
    rw [Function.update_self, dirSlots]
    have hzero (x : Nat) (hx : x < 16) : clearSlot D a j (a + 16 * j + x) = 0 :=
      fill_of_mem (by omega) (by omega)
    have hkey : bytes (clearSlot D a j) (a + 16 * j + 4) 12 = padName [] := by
      symm
      rw [eq_bytes_iff (length_padName (by simp))]
      intro x hx
      rw [Nat.add_assoc (a + 16 * j), hzero _ (by omega), padName, List.nil_append, List.getD,
        List.getElem?_replicate, if_pos (show x < maxFilenameLen - [].length by simpa using hx)]
      rfl
    have hval : word (clearSlot D a j) (a + 16 * j) = 0 := by
      have h0 := hzero 0 (by omega)
      rw [Nat.add_zero] at h0
      rw [word, hzero 3 (by omega), hzero 2 (by omega), hzero 1 (by omega), h0]
      rfl
    rw [hkey, hval]
  · rw [Function.update_of_ne hj]
    exact dirSlots_congr fun x hx => fill_of_notMem (by omega)

theorem dirSlots_freeInode (hn : 1 ≤ num) (hn' : num < 4096) (hb : b + cnt ≤ 4096 * nrSmap size) :
    dirSlots (freeInode size D num b cnt) (dirAddr size) = dirSlots D (dirAddr size) := by
  rw [freeInode, dirSlots_putWords hn hn' (by decide), dirSlots_mark (by rw [firstSect]; omega),
    dirSlots_mark (by rw [firstSect]; omega)]

theorem freeInode_of_le {a : Nat} (hn : 1 ≤ num) (hn' : num < 4096) (hb : b + cnt ≤ 4096 * nrSmap size)
    (ha : dirAddr size ≤ a) : freeInode size D num b cnt a = D a := by
  have hwords : ({} : Inode).words.length = 4 := rfl
  have haddr : dirAddr size = 512 * (nrSmap size + 259) := rfl
  rw [freeInode, putWords_of_notMem (by rw [inodeAddr]; omega), mark_of_notMem (by omega),
    mark_of_notMem (by omega)]

/-- Clearing a slot leaves the maps and the inodes. -/
theorem diskTables_clearSlot : diskTables size (clearSlot D (dirAddr size) k) =
    { diskTables size D with dir := (diskTables size (clearSlot D (dirAddr size) k)).dir } :=
  diskTables_of_agree fun a ha => fill_of_notMem (.inl (by rw [dirAddr]; omega))

theorem diskTables_freeInode (hn : 1 ≤ num) (hn' : num < 4096) (hb : b + cnt ≤ 4096 * nrSmap size) :
    diskTables size (freeInode size D num b cnt) = { diskTables size D with
      imap := Function.update (diskTables size D).imap num false
      smap := fun j => if b ≤ j ∧ j < b + cnt then false else (diskTables size D).smap j
      record := Function.update (diskTables size D).record num noRecord } := by
  rw [freeInode, diskTables_putRecord hn hn', diskTables_markSmap hb, diskTables_markImap hn']
  rfl

/-- The directory's inode is written only when its size changes. -/
theorem FileRemoved.of_disk {n : Nat} {u : Fs} (hn : 2 ≤ num) (hn' : num < 4096)
    (hb : b + cnt ≤ 4096 * nrSmap size)
    (hD : D = clearSlot (freeInode size s.disk num b cnt) (dirAddr size) k)
    (hdisk : u.disk = D ∨ u.disk = putWords D (inodeAddr size 1) (u.inodeTable p).words)
    (hdir : RootDir size (if k + 1 = n then used (dirSlots s.disk (dirAddr size)) k else n) p u)
    (hinode : ∃ w, u.inodeTable p = { s.inodeTable p with iSize := w })
    (hdesc : u.fDescTable = s.fDescTable) (hpos : u.logPos = s.logPos) (hgeo : u.geoSize = s.geoSize) :
    FileRemoved size n p s num b cnt k u := by
  have hslots : dirSlots D (dirAddr size) =
      Function.update (dirSlots s.disk (dirAddr size)) k ⟨0, padName []⟩ := by
    rw [hD, dirSlots_clearSlot, dirSlots_freeInode (by omega) hn' hb]
  have htables : diskTables size D = { diskTables size s.disk with
      imap := Function.update (diskTables size s.disk).imap num false
      smap := fun j => if b ≤ j ∧ j < b + cnt then false else (diskTables size s.disk).smap j
      record := Function.update (diskTables size s.disk).record num noRecord
      dir := (diskTables size D).dir } := by
    rw [hD, diskTables_clearSlot, diskTables_freeInode (by omega) hn' hb]
  have hrecord (m : Nat) : (diskTables size D).record m =
      if m = num then noRecord else (diskTables size s.disk).record m := by
    rw [htables]
    exact Function.update_apply _ _ _ _
  have hroot : (diskTables size D).record 1 = (diskTables size s.disk).record 1 :=
    (hrecord 1).trans (if_neg (by omega))
  have hdata (a : Nat) (ha : dirAddr size + 16 * (k + 1) ≤ a) : D a = s.disk a := by
    rw [hD, clearSlot, fill_of_notMem (by omega), freeInode_of_le (by omega) hn' hb (by omega)]
  rcases hdisk with hdisk | hdisk
  · exact ⟨by rw [hdisk, hslots], by rw [hdisk, htables], fun j => by rw [hdisk, htables],
      fun m _ => by rw [hdisk, hrecord], .inl (by rw [hdisk, hroot]), hdir, hinode, hdesc, hpos, hgeo,
      fun a ha => by rw [hdisk, hdata a ha]⟩
  · have hput : diskTables size (putWords D (inodeAddr size 1) (u.inodeTable p).words) =
        { diskTables size D with
          record := Function.update (diskTables size D).record 1 (u.inodeTable p).record } :=
      diskTables_putRecord (by omega) (by omega)
    have hwords : (u.inodeTable p).words.length ≤ 8 := Nat.le_add_left 4 4
    refine ⟨?_, ?_, fun j => ?_, fun m hm => ?_, .inr ?_, hdir, hinode, hdesc, hpos, hgeo, fun a ha => ?_⟩
    · rw [hdisk, dirSlots_putWords (by omega) (by omega) hwords, hslots]
    · rw [hdisk, hput, htables]
    · rw [hdisk, hput, htables]
    · rw [hdisk, hput]
      exact (Function.update_of_ne hm _ _).trans (hrecord m)
    · rw [hdisk, hput]
      simp only [Function.update_self]
    · have hlen : (u.inodeTable p).words.length = 4 := rfl
      have haddr : dirAddr size = 512 * (nrSmap size + 259) := rfl
      rw [hdisk, putWords_of_notMem (.inr (by rw [inodeAddr]; omega)), hdata a ha]

end

/-! ## Assertions that fail earlier -/

/-- The program does not fail at `assert(flg)`. -/
abbrev NotFlg {α : Type} (x : FM α) : Prop := Tame (fun _ => True) (· ≠ .assertion "flg") x

section

variable {sb : SuperBlock} {x left : Int} {i j k fuel : Nat}

theorem notFlg_natOf : NotFlg (natOf x) := .ite (.pure _) (.throw (by simp))

theorem notFlg_bufAt : NotFlg (bufAt i) := fun _ _ => trivial

theorem notFlg_setBuf {b : Byte} : NotFlg (setBuf i b) := fun _ _ => trivial

theorem notFlg_rdSect : NotFlg (rdSect rootDev x) := fun _ _ => wp_rdSect.mpr trivial

theorem notFlg_wrSect : NotFlg (wrSect rootDev x) := fun _ _ => wp_wrSect.mpr trivial

theorem notFlg_freeImapBit : NotFlg (freeImapBit rootDev x) :=
  .bind (.ensure (by simp)) fun _ => .bind notFlg_rdSect fun _ => .bind notFlg_natOf fun _ =>
    .bind notFlg_natOf fun _ => .bind notFlg_bufAt fun _ => .bind (.ensure (by simp)) fun _ =>
      .bind notFlg_setBuf fun _ => notFlg_wrSect

theorem notFlg_clearBits : NotFlg (clearBits j fuel k left) := by
  induction fuel generalizing k left with
  | zero => exact .pure _
  | succ fuel ih =>
    exact .ite (.pure _) (.bind notFlg_bufAt fun _ => .bind (.ensure (by simp)) fun _ =>
      .bind notFlg_setBuf fun _ => ih)

theorem notFlg_nextSect : NotFlg (nextSect rootDev i x) :=
  .ite (.bind notFlg_wrSect fun _ => .bind notFlg_rdSect fun _ => .pure _) (.pure _)

theorem notFlg_clearBytes : NotFlg (clearBytes rootDev fuel i x left) := by
  induction fuel generalizing i x left with
  | zero => exact .pure _
  | succ fuel ih =>
    exact .bind notFlg_nextSect fun _ => .bind notFlg_bufAt fun _ => .bind (.ensure (by simp)) fun _ =>
      .bind notFlg_setBuf fun _ => ih

theorem notFlg_freeSmapBits : NotFlg (freeSmapBits rootDev sb x left) :=
  .bind notFlg_rdSect fun _ => .bind notFlg_natOf fun _ => .bind notFlg_natOf fun _ =>
    .bind notFlg_clearBits fun _ => .bind notFlg_clearBytes fun _ => .bind notFlg_nextSect fun _ =>
      .bind notFlg_natOf fun _ => .bind notFlg_bufAt fun _ => .bind (.ensure (by simp)) fun _ =>
        .bind notFlg_setBuf fun _ => notFlg_wrSect

theorem notFlg_fetchPathname : NotFlg fetchPathname := by
  have hproc {y : Int} : NotFlg (procAt y) := by
    unfold procAt
    split
    · exact .pure _
    · exact .throw (by simp)
  have hla {pid : Pid} {va : Addr} : NotFlg (fsVa2la pid va) :=
    .bind .get fun _ => .bind (.onlyIf (.ensure (by simp))) fun _ => .pure _
  exact .bind .get fun _ => .bind hproc fun _ => .bind (.ensure (by simp)) fun _ =>
    .bind hla fun _ => .bind notFlg_natOf fun _ => .pure _

end

/-! ## `do_unlink` -/

theorem RootDir.setInode_of_ne {n : Nat} {f : Inode → Inode} (h : RootDir size n p s) (hq : q ≠ p) :
    RootDir size n p (s.setInode q f) :=
  h.congr rfl rfl (Fs.setInode_of_ne (Ne.symm hq))

section

variable {n b cnt : Nat} {num : Nat}

set_option maxRecDepth 4000 in
/-- From the inode in slot `q` on: the file is removed, unless a bit of it was not set, or no slot of
the directory has its number. -/
theorem RootDir.wp_removeFile {Q : Unit → Fs → Prop} (h : RootDir size n p s) (hq : q ≠ p)
    (hdev : (s.inodeTable q).iDev = rootDev) (hnum : (s.inodeTable q).iNum = (num : Int))
    (hcnt : (s.inodeTable q).iCnt = 1) (hn : 2 ≤ num) (hn' : num < 4096)
    (hin : bit s.disk (4096 * 2 + num) = true → (s.inodeTable q).record.InMap size b cnt)
    (hQ : bit s.disk (4096 * 2 + num) = true → AllBits s.disk (4096 * 3 + b) true cnt → ∀ k u,
      first (fun k => (dirSlots s.disk (dirAddr size) k).val = BitVec.ofNat 32 num) n = some k →
      FileRemoved size n p s num b cnt k u → Q () u)
    (hflg : bit s.disk (4096 * 2 + num) = true → AllBits s.disk (4096 * 3 + b) true cnt →
      first (fun k => (dirSlots s.disk (dirAddr size) k).val = BitVec.ofNat 32 num) n = none →
      ∀ t, E (.assertion "flg") t)
    (hE : bit s.disk (4096 * 2 + num) = false ∨ ¬AllBits s.disk (4096 * 3 + b) true cnt →
      ∀ e t, e ≠ .assertion "flg" → E e t) : wp (removeFile p q num) Q E s := by
  have hsmap : nrSmap size ≤ 2 ^ 20 := nrSmap_le
  have hbase : (rootSuper size).smapBase = 3 := rfl
  have hw : (num : Int) = (BitVec.ofNat 32 num).toInt := (toInt_ofNat_of_lt (by omega)).symm
  -- the map of inodes
  have himap : wp (freeImapBit rootDev (num : Nat)) (fun _ u => bit s.disk (4096 * 2 + num) = true ∧
      ∃ M, u = s.io (mark s.disk (4096 * 2 + num) false 1) M)
      (fun e _ => bit s.disk (4096 * 2 + num) = false ∧ e ≠ .assertion "flg") s := by
    have hbits : wp (freeImapBit rootDev (num : Nat)) (fun _ u => bit s.disk (4096 * 2 + num) = true ∧
        ∃ M, u = s.io (mark s.disk (4096 * 2 + num) false 1) M)
        (fun _ _ => bit s.disk (4096 * 2 + num) = false) s :=
      wp_freeImapBit hn' (fun M hset => ⟨hset, M, rfl⟩) fun hc _ _ => hc
    exact (hbits.and (notFlg_freeImapBit s trivial)).mono (fun _ _ hu => hu.1) fun _ _ hu => hu
  rw [removeFile, wp_bind, wp_get]
  dsimp only
  rw [hdev, wp_bind, wp_getSuperBlock h.super, wp_bind]
  refine himap.mono (fun _ u hu => ?_) fun e t ht => hE (.inl ht.1) e t ht.2
  obtain ⟨hset, M₁, rfl⟩ := hu
  have hin' := hin hset
  have hle := hin'.le
  have hlt := hin'.lt
  have hlt' := hin'.cnt
  have hbit : ((s.inodeTable q).iStartSect - (rootSuper size).n1stSect + 1).toInt = (b : Int) := by
    have hstart : (s.inodeTable q).iStartSect = bitSect (rootSuper size).n1stSect b := hin'.start
    rw [hstart, bitSect, BitVec.add_sub_cancel, BitVec.sub_add_cancel, toInt_ofNat_of_lt hlt]
  have hsects : (s.inodeTable q).iNrSects.toInt = (cnt : Int) := by
    have hsects : (s.inodeTable q).iNrSects = BitVec.ofNat 32 cnt := hin'.sects
    rw [hsects, toInt_ofNat_of_lt hlt']
  -- the map of sectors
  have hall : AllBits (mark s.disk (4096 * 2 + num) false 1) (4096 * 3 + b) true cnt ↔
      AllBits s.disk (4096 * 3 + b) true cnt := allBits_mark (by omega)
  have hmap : wp (freeSmapBits rootDev (rootSuper size) (b : Nat) (cnt : Nat))
      (fun _ u => AllBits s.disk (4096 * 3 + b) true cnt ∧ ∃ M, u = s.io
        (mark (mark s.disk (4096 * 2 + num) false 1) (4096 * 3 + b) false cnt) M)
      (fun e _ => ¬AllBits s.disk (4096 * 3 + b) true cnt ∧ e ≠ .assertion "flg")
      (s.io (mark s.disk (4096 * 2 + num) false 1) M₁) := by
    have hbits : wp (freeSmapBits rootDev (rootSuper size) (b : Nat) (cnt : Nat))
        (fun _ u => AllBits s.disk (4096 * 3 + b) true cnt ∧ ∃ M, u = s.io
          (mark (mark s.disk (4096 * 2 + num) false 1) (4096 * 3 + b) false cnt) M)
        (fun _ _ => ¬AllBits s.disk (4096 * 3 + b) true cnt)
        (s.io (mark s.disk (4096 * 2 + num) false 1) M₁) :=
      wp_freeSmapBits (by rw [hbase]; omega) (fun M hc => ⟨hall.mp hc, M, rfl⟩)
        fun hc _ _ => mt hall.mpr hc
    exact (hbits.and (notFlg_freeSmapBits _ trivial)).mono (fun _ _ hu => hu.1) fun _ _ hu => hu
  rw [wp_bind, hbit, hsects]
  refine hmap.mono (fun _ u hu => ?_) fun e t ht => hE (.inr ht.1) e t ht.2
  obtain ⟨hbits, M₂, rfl⟩ := hu
  -- the inode
  rw [wp_bind, wp_setInode, wp_bind, Fs.io_setInode]
  generalize ht : s.setInode q _ = t
  have htq : t.inodeTable q = { ({} : Inode) with iDev := rootDev, iCnt := 1, iNum := num } := by
    rw [← ht, Fs.setInode_self, hdev, hcnt, hnum]
  have htp : t.inodeTable p = s.inodeTable p := by
    rw [← ht]
    exact Fs.setInode_of_ne (Ne.symm hq)
  have hdir : RootDir size n p t := ht ▸ h.setInode_of_ne hq
  have hwords : (t.inodeTable q).words = ({} : Inode).words := by rw [htq]; rfl
  have hone : (t.inodeTable q).iCnt > 0 := by rw [htq]; exact Int.one_pos
  refine Dlos.wp_syncInode (s := t.io _ _) hdir.super (by rw [Fs.io_inodeTable, htq])
    (by rw [Fs.io_inodeTable, htq]) (by omega) hn' fun M₃ => ?_
  rw [Fs.io_disk, Fs.io_inodeTable, Fs.io_io, hwords]
  change wp _ Q E (t.io (freeInode size s.disk num b cnt) M₃)
  rw [wp_bind, putInode, wp_bind, wp_get, wp_bind, Fs.io_inodeTable,
    wp_assert_of hone, wp_setInode, Fs.io_setInode]
  generalize hv : t.setInode q _ = v
  have hvp : v.inodeTable p = s.inodeTable p := by
    rw [← hv, ← htp]
    exact Fs.setInode_of_ne (Ne.symm hq)
  have hdir' : RootDir size n p v := hv ▸ hdir.setInode_of_ne hq
  have hdesc : v.fDescTable = s.fDescTable := by rw [← hv, ← ht]; rfl
  have hpos : v.logPos = s.logPos := by rw [← hv, ← ht]; rfl
  have hgeo : v.geoSize = s.geoSize := by rw [← hv, ← ht]; rfl
  -- the name
  have hslots : dirSlots (freeInode size s.disk num b cnt) (dirAddr size) =
      dirSlots s.disk (dirAddr size) := dirSlots_freeInode (by omega) hn' hle
  have htables := diskTables_freeInode (D := s.disk) (show 1 ≤ num by omega) hn' hle
  rw [hw]
  refine hdir'.io.wp_removeDirEntry (T := dirSlots s.disk (dirAddr size)) hslots.symm ?_ ?_
    fun hno M => hflg hset hbits hno _
  · intro k hk hlast M
    refine hQ hset hbits k _ hk (.of_disk hn hn' hle rfl (.inl rfl) ?_ ⟨_, hvp⟩ hdesc hpos hgeo)
    rw [if_neg hlast]
    exact hdir'.io
  · intro k s' hk hlast hs' M
    have hs'p : s'.inodeTable p = { s.inodeTable p with
        iSize := BitVec.ofNat 32 (16 * used (dirSlots s.disk (dirAddr size)) k) } := by
      rw [hs', Fs.setInode_self, Fs.io_inodeTable, hvp]
    refine hQ hset hbits k _ hk (.of_disk hn hn' hle rfl (.inr rfl) ?_ ⟨_, hs'p⟩
      (by rw [hs']; exact hdesc) (by rw [hs']; exact hpos) (by rw [hs']; exact hgeo))
    have hused : used (dirSlots s.disk (dirAddr size)) k ≤ k := used_le
    have := h.le
    rw [if_pos hlast, hs']
    exact (hdir'.io.resize (by omega)).io

/-! ## Inodes that are not removed -/

theorem tame_of {α : Type} {I : Fs → Prop} {x : FM α} (hI : Preserves I x) (hx : NotFlg x) :
    Tame I (· ≠ .assertion "flg") x := fun s hs =>
  ((hI s hs).and (hx s trivial)).mono (fun _ _ h => h.1) fun _ _ h => h.2

/-- The inode's count is checked before the directory is changed. -/
theorem wp_removeFile_uncounted {Q : Unit → Fs → Prop} {num : Int} (hdev : (s.inodeTable q).iDev = rootDev)
    (hcnt : (s.inodeTable q).iCnt ≤ 0) (hE : ∀ e t, e ≠ .assertion "flg" → E e t) :
    wp (removeFile p q num) Q E s := by
  obtain ⟨I, hI⟩ : ∃ I : Fs → Prop,
      I = fun t => (t.inodeTable q).iDev = rootDev ∧ (t.inodeTable q).iCnt ≤ 0 := ⟨_, rfl⟩
  have hio : IgnoresIo I := by
    rw [hI]
    exact fun _ _ _ _ h => h
  have hs : I s := by
    rw [hI]
    exact ⟨hdev, hcnt⟩
  have hsuper : NotFlg (getSuperBlock rootDev) := by
    refine .bind .get fun _ => ?_
    split
    · exact .pure _
    · exact .throw (by simp)
  have hput {j : Nat} {ws : List (BitVec 32)} : NotFlg (putBufWords j ws) := fun _ _ => trivial
  have hsync : Tame I (· ≠ .assertion "flg") (syncInode q) := by
    intro t ht
    have hdev' : (t.inodeTable q).iDev = rootDev := (hI ▸ ht).1
    rw [syncInode, wp_bind, wp_get]
    dsimp only
    rw [hdev']
    refine tame_of ?_ ?_ t ht
    · exact .bind IgnoresIo.getSuperBlock fun _ => .bind hio.rdSect fun _ => .bind IgnoresIo.natOf fun _ =>
        .bind hio.putBufWords fun _ => hio.wrSect
    · exact .bind hsuper fun _ => .bind notFlg_rdSect fun _ => .bind notFlg_natOf fun _ =>
        .bind hput fun _ => notFlg_wrSect
  rw [removeFile, wp_bind, wp_get]
  dsimp only
  rw [hdev, wp_bind]
  refine (tame_of IgnoresIo.getSuperBlock hsuper s hs).mono (fun sb t ht => ?_)
    fun e t he => hE e t he
  rw [wp_bind]
  refine (tame_of hio.freeImapBit notFlg_freeImapBit t ht).mono (fun _ t ht => ?_)
    fun e t he => hE e t he
  rw [wp_bind]
  refine (tame_of hio.freeSmapBits notFlg_freeSmapBits t ht).mono (fun _ t ht => ?_)
    fun e t he => hE e t he
  rw [wp_bind, wp_setInode, wp_bind]
  refine (hsync _ ?_).mono (fun _ t ht => ?_) fun e t he => hE e t he
  · subst hI
    rw [Fs.setInode_self]
    exact ht
  · have hle : (t.inodeTable q).iCnt ≤ 0 := (hI ▸ ht).2
    rw [wp_bind, putInode, wp_bind, wp_get, wp_bind, wp_assert]
    exact ⟨fun hpos => absurd hpos (not_lt.mpr hle), fun _ => hE _ _ (by simp)⟩

/-- A number that no bit of the map stands for. -/
theorem wp_freeImapBit_outside {Q : Unit → Fs → Prop} {num : Int} (hoff : 0 ≤ inodeOff num)
    (hnum : num < 0 ∨ 4096 ≤ num) (hE : ∀ e t, e ≠ .assertion "flg" → E e t) :
    wp (freeImapBit rootDev num) Q E s := by
  rcases hnum with hneg | hlarge
  · -- the place in its sector and the place in its byte are not both counted from the front
    obtain ⟨m, rfl⟩ : ∃ m : Nat, num = -((m + 1 : Nat) : Int) := ⟨(-num).toNat - 1, by omega⟩
    have hodd : (m + 2) % 16 = 0 := by
      rw [inodeOff, show -((m + 1 : Nat) : Int) - 1 = -((m + 2 : Nat) : Int) by omega, Int.neg_tmod,
        tmod_natCast, show sectorSize / inodeSize = 16 from rfl, show inodeSize = 32 from rfl] at hoff
      omega
    have hbit : ¬0 ≤ (-((m + 1 : Nat) : Int)).tmod 8 := by
      rw [Int.neg_tmod, show ((m + 1 : Nat) : Int).tmod 8 = ((m + 1) % 8 : Nat) from rfl]
      omega
    rw [freeImapBit, wp_bind, wp_assert]
    refine ⟨fun _ => ?_, fun _ => hE _ _ (by simp)⟩
    rw [wp_bind, wp_rdSect, wp_bind, wp_natOf]
    refine ⟨fun _ => ?_, fun _ => hE _ _ (by simp)⟩
    rw [wp_bind, wp_natOf]
    exact ⟨fun h => absurd h hbit, fun _ => hE _ _ (by simp)⟩
  · obtain ⟨m, rfl⟩ := Int.eq_ofNat_of_zero_le (show 0 ≤ num by omega)
    rw [freeImapBit, wp_bind, wp_assert, show (m : Int).tdiv 8 = (m / 8 : Nat) from rfl]
    refine ⟨fun h => ?_, fun _ => hE _ _ (by simp)⟩
    rw [sectorSize] at h
    omega

/-! ## The whole request -/

/-- `get_inode` returned slot `q`: its inode is counted once more, or it was read into the free slot. -/
inductive Referenced (s : Fs) (q : Fin nrInode) : Fs → Prop
  | counted {M : Store} : (s.inodeTable q).cached →
    Referenced s q ((s.setInode q fun i => { i with iCnt := i.iCnt + 1 }).io s.disk M)
  | read {M : Store} {i : Inode} : ¬(s.inodeTable q).cached → i.iDev = rootDev → i.iCnt = 1 →
    Referenced s q ((s.setInode q fun _ => i).io s.disk M)

theorem Referenced.of_io {u : Fs} {M : Store} (h : Referenced (s.io s.disk M) q u) :
    Referenced s q u := by
  cases h with
  | counted hc => exact .counted hc
  | read hc hdev hcnt => exact .read hc hdev hcnt

theorem FileRemoved.congr {t u : Fs} {k : Nat} (h : FileRemoved size n p t num b cnt k u)
    (hdisk : t.disk = s.disk) (hp : t.inodeTable p = s.inodeTable p)
    (hdesc : t.fDescTable = s.fDescTable) (hpos : t.logPos = s.logPos)
    (hgeo : t.geoSize = s.geoSize) : FileRemoved size n p s num b cnt k u := by
  obtain ⟨hslots, himap, hsmap, hrecord, hroot, hdir, hinode, hdesc', hpos', hgeo', hdata⟩ := h
  rw [hdisk] at hslots himap hsmap hrecord hroot hdir hdata
  rw [hp] at hinode
  exact ⟨hslots, himap, hsmap, hrecord, hroot, hdir, hinode, hdesc'.trans hdesc, hpos'.trans hpos,
    hgeo'.trans hgeo, hdata⟩

/-- The file of a name that leads to inode `num`, with the bits of its record. -/
structure FileOf (size : BitVec 32) (n : Nat) (s : Fs) (path name : List Byte) (num b cnt : Nat) :
    Prop where
  fetched : fetchPathname s = .ok path s
  stripped : stripName path = some name
  ne_nil : name ≠ []
  lookup : lookup (dirSlots s.disk (dirAddr size)) (n + 1) (padName name) = BitVec.ofNat 32 num
  two_le : 2 ≤ num
  lt : num < 4096
  regular : (recordAt s.disk (inodeAddr size num)).mode = iRegular
  inMap : (recordAt s.disk (inodeAddr size num)).InMap size b cnt
  imap : bit s.disk (4096 * 2 + num) = true
  smap : AllBits s.disk (4096 * 3 + b) true cnt

/-- What `do_unlink` does with the number that `search_file` has answered. -/
def unlinkInode (pathname : List Byte) (inodeNr : Int) : FM Int := do
  if inodeNr = invalidInode then pure (-1)
  else match ← stripPath pathname with
    | none => pure (-1)
    | some (_, dirInode) => do
      let dirInode ← deref dirInode
      let pin ← deref (← getInode ((← get).inodeTable dirInode).iDev inodeNr)
      let i := (← get).inodeTable pin
      if i.iMode ≠ iRegular then pure (-1)
      else if i.iCnt > 1 then pure (-1)
      else do
        removeFile dirInode pin inodeNr
        pure 0

theorem doUnlink_eq : doUnlink = (do
    let pathname ← fetchPathname
    if strcmp pathname [slash] = 0 then pure (-1)
    else do
      let inodeNr ← searchFile pathname
      unlinkInode pathname inodeNr) := rfl

theorem wp_fetchPathname {Q : List Byte → Fs → Prop}
    (hQ : ∀ path, fetchPathname s = .ok path s → Q path s)
    (hE : ∀ e, e ≠ .assertion "flg" → E e s) : wp fetchPathname Q E s := by
  have hsame : wp fetchPathname (fun _ t => t = s) (fun e t => t = s ∧ e ≠ .assertion "flg") s :=
    ((IgnoresIo.fetchPathname (I := (· = s)) s rfl).and (notFlg_fetchPathname s trivial)).mono
      (fun _ _ h => h.1) fun _ _ h => h
  rw [wp_iff] at hsame ⊢
  refine ⟨fun path t ht => ?_, fun e t ht => ?_⟩
  · obtain rfl := hsame.1 path t ht
    exact hQ path ht
  · obtain ⟨rfl, hne⟩ := hsame.2 e t ht
    exact hE e hne

theorem wp_unlinkInode {path : List Byte} {x : Int} {Q : Int → Fs → Prop} (h : RootDir size n p s)
    (hsame : Q (-1) s) (hrefused : ∀ q u, Referenced s q u → Q (-1) u)
    (hQ : ∀ m : Nat, x = m → 2 ≤ m → m < 4096 →
      (recordAt s.disk (inodeAddr size m)).mode = iRegular → ∀ q M,
      ¬(s.inodeTable q).cached → q ≠ p → wp (removeFile p q m) (fun _ => Q 0) E
        ((s.setInode q fun _ => (recordAt s.disk (inodeAddr size m)).inode m).io s.disk M))
    (hE : ∀ e t, e ≠ .assertion "flg" → E e t) : wp (unlinkInode path x) Q E s := by
  rw [unlinkInode, wp_ite]
  refine ⟨fun _ => hsame, fun hx => ?_⟩
  rw [wp_bind, stripPath, wp_bind, wp_get, wp_pure]
  cases stripName path with
  | none => exact hsame
  | some name =>
    rw [Option.map_some, h.rootInode, wp_bind, wp_deref_some, wp_bind, wp_get, wp_bind, h.iDev]
    refine wp_getInode h.super hx (fun q hc hdev hnum => ?_) (fun hunread q M r hfree hoff hr => ?_)
      (fun _ => hE _ _ (by simp)) fun _ _ => hE _ _ (by simp)
    · have href : Referenced s q (s.setInode q fun i => { i with iCnt := i.iCnt + 1 }) := .counted hc
      rw [wp_bind, wp_deref_some, wp_bind, wp_get, wp_ite, wp_ite, Fs.setInode_self]
      refine ⟨fun _ => hrefused q _ href, fun _ => ⟨fun _ => hrefused q _ href, fun hle => ?_⟩⟩
      rw [wp_bind]
      refine wp_removeFile_uncounted ?_ ?_ hE
      · rw [Fs.setInode_self]
        exact hdev
      · rw [Fs.setInode_self]
        rw [Inode.cached] at hc
        simp only [gt_iff_lt, not_lt] at hle ⊢
        omega
    · have hqp : q ≠ p := fun he => hfree (he ▸ h.cached)
      have href : Referenced s q ((s.setInode q fun _ => r.inode x).io s.disk M) := .read hfree rfl rfl
      rw [wp_bind, wp_deref_some, wp_bind, wp_get, wp_ite, wp_ite, Fs.io_inodeTable, Fs.setInode_self]
      refine ⟨fun _ => hrefused q _ href, fun hmode => ⟨fun _ => hrefused q _ href, fun _ => ?_⟩⟩
      rw [wp_bind]
      by_cases hrange : x < 0 ∨ 4096 ≤ x
      · have hsuper : ((s.setInode q fun _ => r.inode x).io s.disk M).super rootDev =
            some (rootSuper size) := h.super
        rw [removeFile, wp_bind, wp_get]
        dsimp only
        rw [Fs.io_inodeTable, Fs.setInode_self, show (r.inode x).iDev = rootDev from rfl, wp_bind,
          wp_getSuperBlock hsuper, wp_bind]
        exact wp_freeImapBit_outside hoff hrange hE
      · obtain ⟨m, rfl⟩ := Int.eq_ofNat_of_zero_le (show 0 ≤ x by omega)
        have hm0 : m ≠ 0 := fun he => hx (by rw [he]; rfl)
        have hm1 : m ≠ 1 := by
          rintro rfl
          exact hunread p h.cached h.iDev h.iNum
        obtain rfl := hr m rfl (by omega)
        exact hQ m rfl (by omega) (by omega) (not_not.mp hmode) q M hfree hqp

/-- A request is refused, or a file that a name leads to is removed. -/
theorem RootDir.wp_doUnlink {Q : Int → Fs → Prop} (h : RootDir size n p s)
    (hin : ∀ m, 2 ≤ m → m < 4096 → bit s.disk (4096 * 2 + m) = true →
      (recordAt s.disk (inodeAddr size m)).mode = iRegular →
      ∃ b cnt, (recordAt s.disk (inodeAddr size m)).InMap size b cnt)
    (hsame : ∀ M, Q (-1) (s.io s.disk M)) (hrefused : ∀ q u, Referenced s q u → Q (-1) u)
    (hQ : ∀ path name num b cnt k u, FileOf size n s path name num b cnt →
      first (fun k => (dirSlots s.disk (dirAddr size) k).val = BitVec.ofNat 32 num) n = some k →
      FileRemoved size n p s num b cnt k u → Q 0 u)
    (hflg : ∀ path name num b cnt, FileOf size n s path name num b cnt →
      first (fun k => (dirSlots s.disk (dirAddr size) k).val = BitVec.ofNat 32 num) n = none →
      ∀ t, E (.assertion "flg") t)
    (hE : ∀ e t, e ≠ .assertion "flg" → E e t) : wp doUnlink Q E s := by
  rw [doUnlink_eq, wp_bind]
  refine wp_fetchPathname (fun path hpath => ?_) fun e he => hE e s he
  rw [wp_ite]
  refine ⟨fun _ => hsame s.mem, fun _ => ?_⟩
  -- what follows the search, for any number it answers
  have hrest (x : Int) (M : Store) (name : List Byte) (hname : stripName path = some name)
      (hlook : ∀ m : Nat, x = m → 2 ≤ m → m < 4096 → name ≠ [] ∧
        lookup (dirSlots s.disk (dirAddr size)) (n + 1) (padName name) = BitVec.ofNat 32 m) :
      wp (unlinkInode path x) Q E (s.io s.disk M) := by
    refine wp_unlinkInode h.io (hsame M) (fun q u hu => hrefused q u hu.of_io)
      (fun m hx h2 hlt hmode q M' hfree hqp => ?_) hE
    obtain ⟨hne, hlookup⟩ := hlook m hx h2 hlt
    rw [Fs.io_disk] at hmode
    rw [Fs.io_setInode, Fs.io_disk, Fs.io_io]
    have hdir : RootDir size n p ((s.setInode q fun _ =>
        (recordAt s.disk (inodeAddr size m)).inode m).io s.disk M') := (h.setInode_of_ne hqp).io
    generalize ht : Fs.io _ _ _ = t at hdir ⊢
    have htq : t.inodeTable q = (recordAt s.disk (inodeAddr size m)).inode m := by
      rw [← ht, Fs.io_inodeTable, Fs.setInode_self]
    have hdisk : t.disk = s.disk := by rw [← ht]; rfl
    have hp : t.inodeTable p = s.inodeTable p := by
      rw [← ht, Fs.io_inodeTable]
      exact Fs.setInode_of_ne (Ne.symm hqp)
    obtain ⟨b, cnt, hbits⟩ : ∃ b cnt, bit s.disk (4096 * 2 + m) = true →
        (recordAt s.disk (inodeAddr size m)).InMap size b cnt := by
      by_cases hset : bit s.disk (4096 * 2 + m) = true
      · obtain ⟨b, cnt, hbits⟩ := hin m h2 hlt hset hmode
        exact ⟨b, cnt, fun _ => hbits⟩
      · exact ⟨0, 0, fun h => absurd h hset⟩
    have hmap : bit t.disk (4096 * 2 + m) = true → (t.inodeTable q).record.InMap size b cnt := by
      rw [hdisk, htq]
      exact hbits
    refine hdir.wp_removeFile hqp (by rw [htq]; rfl) (by rw [htq]; rfl) (by rw [htq]; rfl) h2 hlt hmap
      (fun hset hall k u hk hu => ?_) (fun hset hall hno => ?_) fun _ => hE
    · rw [hdisk] at hset hall hk
      refine hQ path name m b cnt k u ⟨hpath, hname, hne, hlookup, h2, hlt, hmode, hbits hset, hset, hall⟩ hk
        (hu.congr hdisk hp ?_ ?_ ?_) <;> rw [← ht] <;> rfl
    · rw [hdisk] at hset hall hno
      exact hflg path name m b cnt
        ⟨hpath, hname, hne, hlookup, h2, hlt, hmode, hbits hset, hset, hall⟩ hno
  rw [wp_bind]
  cases hname : stripName path with
  | none =>
    rw [searchFile, wp_bind, stripPath, wp_bind, wp_get, wp_pure, hname]
    change wp (unlinkInode path 0) Q E s
    rw [unlinkInode, if_pos rfl]
    exact hsame s.mem
  | some name =>
    by_cases hne : name = []
    · rw [searchFile, wp_bind, stripPath, wp_bind, wp_get, wp_pure, hname, Option.map_some, wp_bind,
        h.rootInode, wp_deref_some, wp_bind, wp_get, if_pos hne, wp_pure, h.iNum]
      exact hrest _ s.mem name hname fun m hm h2 => by
        have : ((1 : Nat) : Int) = (m : Int) := hm
        omega
    · refine h.wp_searchFile hname hne fun M => hrest _ M name hname fun m hx h2 hlt => ⟨hne, ?_⟩
      rw [← toInt_ofNat_of_lt (show m < 2 ^ 31 by omega), BitVec.toInt_inj] at hx
      exact hx

end

end Dlos
