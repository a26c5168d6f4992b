import Dlos.Fs.Layout

/-!
# Inodes that leave the cache

`sync_inode` writes the four words of one inode to the disk, and `get_inode` reads those of the number
it is asked for, whatever slot it finds. However often inodes are written, each number has the words
that were written for it last.
-/

namespace Dlos

open Program Bytes

/-- The inode has no slot, and there is a slot for it. -/
structure Fs.Evicted (s : Fs) (num : Nat) : Prop where
  uncached : ∀ p, (s.inodeTable p).cached → (s.inodeTable p).iDev = rootDev →
    (s.inodeTable p).iNum ≠ num
  slot : ∃ p, ¬(s.inodeTable p).cached

/-- The number of an inode that may be in use. -/
def InodeNr (size : BitVec 32) (num : Nat) : Prop := 1 ≤ num ∧ num < (rootSuper size).nrInodes.toNat

/-- What `get_inode` finds. -/
def Fs.Gets (s : Fs) (num : Nat) (r : Record) : Prop :=
  ∃ q t, getInode rootDev num s = .ok (some q) t ∧ (t.inodeTable q).iNum = num ∧
    (t.inodeTable q).record = r

/-- The sectors of the inode array. -/
def InInodeArray (size : BitVec 32) (a : Nat) : Prop :=
  512 * (nrSmap size + 3) ≤ a ∧ a < 512 * (nrSmap size + 3 + (rootSuper size).nrInodeSects.toNat)

/-- FS wrote inodes, the latest first, and did other things that leave the disk and the super block as
they are: slots were filled, changed and released. -/
inductive Syncs (size : BitVec 32) (s : Fs) : List (Nat × Record) → Fs → Prop
  | start : Syncs size s [] s
  | other {l : List (Nat × Record)} {t u : Fs} : Syncs size s l t → u.disk = t.disk →
    u.super rootDev = t.super rootDev → Syncs size s l u
  | sync {l : List (Nat × Record)} {t : Fs} {p : Fin nrInode} {num : Nat} : Syncs size s l t →
    InodeNr size num → (t.inodeTable p).iDev = rootDev → (t.inodeTable p).iNum = num →
    Syncs size s ((num, (t.inodeTable p).record) :: l) (exec (syncInode p) t).1

/-- Every call returns, every number has what was written last, and nothing else has changed. -/
structure InodesSurvive (size : BitVec 32) (s : Fs) (l : List (Nat × Record)) (u : Fs) : Prop where
  ended : ∀ p num, InodeNr size num → (u.inodeTable p).iDev = rootDev → (u.inodeTable p).iNum = num →
    (exec (syncInode p) u).2 = none
  synced : ∀ num r (v : Fs), InodeNr size num → l.lookup num = some r → v.disk = u.disk →
    v.super rootDev = u.super rootDev → v.Evicted num → v.Gets num r
  others : ∀ num r (v v₀ : Fs), InodeNr size num → l.lookup num = none → v₀.disk = s.disk →
    v₀.super rootDev = s.super rootDev → v₀.Evicted num → v.disk = u.disk →
    v.super rootDev = u.super rootDev → v.Evicted num → (v.Gets num r ↔ v₀.Gets num r)
  outside : ∀ a, ¬InInodeArray size a → u.disk a = s.disk a

section

variable {size : BitVec 32} {s t u v : Fs} {num : Nat} {p q : Fin nrInode} {r : Record}
  {l : List (Nat × Record)} {E : Halt → Fs → Prop}

theorem inodeNr_iff : InodeNr size num ↔ 1 ≤ num ∧ num < 4096 := Iff.rfl

/-- The record on the disk. -/
theorem record_diskTables (hn : InodeNr size num) :
    (diskTables size s.disk).record num = recordAt s.disk (inodeAddr size num) := if_pos hn

/-! ## Reading -/

/-- `get_inode` reads the record into a free slot. -/
theorem wp_getInode_evicted (hsb : s.super rootDev = some (rootSuper size)) (hn : InodeNr size num)
    (h : s.Evicted num) : wp (getInode rootDev num) (fun r t => ∃ q, r = some q ∧
        (t.inodeTable q).iNum = num ∧
        (t.inodeTable q).record = (diskTables size s.disk).record num)
      (fun _ _ => False) s := by
  have hsmap : nrSmap size ≤ 2 ^ 20 := nrSmap_le
  obtain ⟨hpos, hlt⟩ := inodeNr_iff.mp hn
  have hnone : (List.finRange nrInode).find? (fun p => (s.inodeTable p).cached ∧
      (s.inodeTable p).iDev = rootDev ∧ (s.inodeTable p).iNum = (num : Int)) = none := by
    rw [List.find?_eq_none]
    intro p _
    simpa using h.uncached p
  obtain ⟨q, hq⟩ : ∃ q, (List.finRange nrInode).find? (fun p => ¬(s.inodeTable p).cached) = some q := by
    obtain ⟨p, hp⟩ := h.slot
    exact Option.isSome_iff_exists.mp (List.find?_isSome.mpr ⟨p, List.mem_finRange p, by simpa using hp⟩)
  have haddr : inodeAddr size num =
      512 * (nrSmap size + 3 + (num - 1) / 16) + 32 * ((num - 1) % 16) := by
    rw [inodeAddr]
    omega
  rw [getInode, if_neg (by omega), wp_bind, wp_get, hnone]
  simp only [hq]
  rw [wp_bind, wp_setInode, wp_bind, wp_getSuperBlock (by rw [Fs.setInode_super, hsb]),
    inodeBlk_rootSuper hpos hlt, inodeOff_natCast hpos, wp_bind]
  refine wp_rdSect_view (by omega) fun M hM => ?_
  change view s.disk M _ = s.disk at hM
  have hword (k : Nat) (hk : k ≤ 12) : word M (fsbuf + (32 * ((num - 1) % 16) + k)) =
      word s.disk (inodeAddr size num + k) := by
    rw [haddr, Nat.add_assoc (512 * _), ← word_view (D := s.disk)
      (n := nrSmap size + 3 + (num - 1) / 16) (by omega), hM]
  rw [wp_bind, wp_natOf_natCast]
  simp only [wp_bind, wp_bufWord, wp_setInode, wp_pure]
  refine ⟨q, rfl, ?_, ?_⟩
  · simp [Fs.setInode]
  · rw [record_diskTables hn, recordAt, Fs.setInode_self]
    exact congr (congr (congr (congrArg _ (hword 0 (by omega))) (hword 4 (by omega)))
      (hword 8 (by omega))) (hword 12 (by omega))

/-- What is found is the record on the disk. -/
theorem gets_iff (hsb : s.super rootDev = some (rootSuper size)) (hn : InodeNr size num)
    (h : s.Evicted num) : s.Gets num r ↔ r = (diskTables size s.disk).record num := by
  obtain ⟨a, t, hrun, q, rfl, hnum, hrecord⟩ := (wp_getInode_evicted hsb hn h).exists_ok
  constructor
  · rintro ⟨q', t', hrun', -, rfl⟩
    obtain ⟨heq, rfl⟩ := EStateM.Result.ok.inj (hrun.symm.trans hrun')
    rw [← Option.some.inj heq, hrecord]
  · rintro rfl
    exact ⟨q, t, hrun, hnum, hrecord⟩

/-! ## What does not write -/

/-- The disk and the super block are as in `s`. -/
def Fs.SameDisk (s u : Fs) : Prop := u.disk = s.disk ∧ u.super rootDev = s.super rootDev

theorem sameDisk_natOf {x : Int} : Preserves s.SameDisk (natOf x) := .ite (.pure _) (.throw _)

theorem sameDisk_bufWord {j : Nat} : Preserves s.SameDisk (bufWord j) := .bind .get fun _ => .pure _

theorem sameDisk_setInode {f : Inode → Inode} : Preserves s.SameDisk (setInode p f) := fun _ h => h

theorem sameDisk_getSuperBlock {dev : Int} : Preserves s.SameDisk (getSuperBlock dev) := by
  refine .bind .get fun t => ?_
  split
  · exact .pure _
  · exact .throw _

theorem sameDisk_rdSect {dev x : Int} : Preserves s.SameDisk (rdSect dev x) := fun _ h =>
  wp_rwSector_of h (fun hne => absurd rfl hne) fun _ => h

theorem sameDisk_getInode {dev num : Int} : Preserves s.SameDisk (getInode dev num) := by
  refine .ite (.pure _) (.bind .get fun t => ?_)
  split
  · exact .bind sameDisk_setInode fun _ => .pure _
  split
  · exact .throw _
  · exact .bind sameDisk_setInode fun _ => .bind sameDisk_getSuperBlock fun _ =>
      .bind sameDisk_rdSect fun _ => .bind sameDisk_natOf fun _ => .bind sameDisk_bufWord fun _ =>
        .bind sameDisk_bufWord fun _ => .bind sameDisk_bufWord fun _ => .bind sameDisk_bufWord fun _ =>
          .bind sameDisk_setInode fun _ => .pure _

theorem sameDisk_putInode : Preserves s.SameDisk (putInode p) :=
  .bind .get fun _ => .bind .ensure fun _ => sameDisk_setInode

/-- Filling and releasing slots is among the other things. -/
theorem Syncs.preserved {α : Type} {x : FM α} (h : Syncs size s l t)
    (hx : Preserves t.SameDisk x) : Syncs size s l (exec x t).1 := by
  obtain ⟨hdisk, hsuper⟩ := exec_of_wp (P := fun u _ => t.SameDisk u) (hx t ⟨rfl, rfl⟩)
  exact .other h hdisk hsuper

theorem Syncs.getInode {dev num : Int} (h : Syncs size s l t) :
    Syncs size s l (exec (getInode dev num) t).1 :=
  h.preserved sameDisk_getInode

theorem Syncs.putInode (h : Syncs size s l t) : Syncs size s l (exec (putInode p) t).1 :=
  h.preserved sameDisk_putInode

/-! ## Writing -/

/-- `sync_inode` changes one record. -/
theorem wp_syncInode_record (hsb : s.super rootDev = some (rootSuper size)) (hn : InodeNr size num)
    (hdev : (s.inodeTable p).iDev = rootDev) (hnum : (s.inodeTable p).iNum = num) :
    wp (syncInode p) (fun _ t => t.super rootDev = some (rootSuper size) ∧
        (diskTables size t.disk).record =
          Function.update (diskTables size s.disk).record num (s.inodeTable p).record ∧
        ∀ a, ¬InInodeArray size a → t.disk a = s.disk a) (fun _ _ => False) s := by
  obtain ⟨hpos, hlt⟩ := inodeNr_iff.mp hn
  refine wp_syncInode hsb hdev hnum hpos hlt fun M => ⟨hsb, ?_, fun a ha => ?_⟩
  · rw [Fs.io_disk, diskTables_putRecord hpos hlt]
  · refine putWords_of_notMem ?_
    have hsects : (rootSuper size).nrInodeSects.toNat = 256 := rfl
    rw [InInodeArray, hsects] at ha
    rw [inodeAddr, show (s.inodeTable p).words.length = 4 from rfl]
    omega

/-- The records after some writes. -/
structure SyncedTo (size : BitVec 32) (s : Fs) (l : List (Nat × Record)) (u : Fs) : Prop where
  super : u.super rootDev = some (rootSuper size)
  record : ∀ num, (diskTables size u.disk).record num =
    (l.lookup num).getD ((diskTables size s.disk).record num)
  outside : ∀ a, ¬InInodeArray size a → u.disk a = s.disk a

theorem Syncs.syncedTo (hsb : s.super rootDev = some (rootSuper size)) (h : Syncs size s l u) :
    SyncedTo size s l u := by
  induction h with
  | start => exact ⟨hsb, fun _ => rfl, fun _ _ => rfl⟩
  | other _ hdisk hsuper ih =>
    exact ⟨hsuper.trans ih.super, by rw [hdisk]; exact ih.record, by rw [hdisk]; exact ih.outside⟩
  | @sync l t p num _ hn hdev hnum ih =>
    have hwp := wp_syncInode_record ih.super hn hdev hnum
    obtain ⟨hsuper, hrecord, hout⟩ := exec_of_wp
      (P := fun (u : Fs) _ => u.super rootDev = some (rootSuper size) ∧
        (diskTables size u.disk).record =
          Function.update (diskTables size t.disk).record num (t.inodeTable p).record ∧
        ∀ a, ¬InInodeArray size a → u.disk a = t.disk a)
      (hwp.mono (fun _ _ h => h) fun _ _ h => h.elim)
    refine ⟨hsuper, fun n => ?_, fun a ha => (hout a ha).trans (ih.outside a ha)⟩
    rw [hrecord]
    by_cases hne : n = num
    · subst hne
      simp
    · rw [Function.update_of_ne hne, ih.record n, List.lookup_cons, beq_false_of_ne hne]

/-- Inodes survive their eviction, and do not disturb each other. -/
theorem inodes_survive (hsb : s.super rootDev = some (rootSuper size)) (hl : Syncs size s l u) :
    InodesSurvive size s l u := by
  have hto := hl.syncedTo hsb
  refine ⟨fun p num hn hdev hnum => ?_, ?_, ?_, hto.outside⟩
  · exact exec_of_wp (P := fun _ o => o = none)
      ((wp_syncInode_record hto.super hn hdev hnum).mono (fun _ _ _ => rfl) fun _ _ h => h.elim)
  · intro num r v hn hr hdisk hsuper hv
    rw [gets_iff (hsuper.trans hto.super) hn hv, hdisk, hto.record, hr, Option.getD_some]
  · intro num r v v₀ hn hr hdisk₀ hsuper₀ hv₀ hdisk hsuper hv
    rw [gets_iff (hsuper.trans hto.super) hn hv, gets_iff (hsuper₀.trans hsb) hn hv₀, hdisk, hdisk₀,
      hto.record, hr, Option.getD_none]

end

/-- Inode 5 in a slot, over an empty disk. -/
def fifthInode : Fs where
  disk _ := 0
  mem _ := 0
  procTable _ := {}
  filp _ _ := none
  fDescTable _ := {}
  inodeTable _ := { iMode := iRegular, iSize := 10, iStartSect := 300, iNrSects := 2048,
                    iDev := rootDev, iCnt := 1, iNum := 5 }
  superBlock _ := rootSuper 40960
  rootInode := some 0
  pcaller := 0
  fsMsg := {}
  logPos := 0
  geoSize := 40960
  ttyReply m := m
  copies := []

theorem inodes_survive_fifth :
    InodesSurvive 40960 fifthInode [(5, (fifthInode.inodeTable 0).record)]
      (exec (syncInode 0) fifthInode).1 :=
  inodes_survive (by decide +kernel) (.sync .start ⟨by decide, by decide⟩ rfl rfl)

end Dlos
