import Dlos.Fs.Effects
import Dlos.Fs.Main

/-!
# The inodes in use

In every run an inode that is cached, open or the root directory's is one of the root device, and has
a place in its sector.
-/

namespace Dlos

open Program Bytes

/-- An inode of the root device whose place does not lie in front of its sector. -/
structure Inode.OnRoot (i : Inode) : Prop where
  dev : i.iDev = rootDev
  off : 0 ≤ inodeOff i.iNum

/-- The root device has a super block, and the inodes that are cached or in `K` are its own. -/
structure Fs.CachedOnRoot (K : Set (Fin nrInode)) (s : Fs) : Prop where
  super : ∃ sb, s.super rootDev = some sb
  onRoot : ∀ p, (s.inodeTable p).cached ∨ p ∈ K → (s.inodeTable p).OnRoot

/-- The slots that the root directory and the descriptors point to. -/
def Fs.pointed (s : Fs) : Set (Fin nrInode) :=
  {p | s.rootInode = some p ∨ ∃ d, (s.fDescTable d).fdInode = some p}

/-- The inodes in use, and those in `P`, are inodes of the root device. -/
def Fs.TablesOk (P : Set (Fin nrInode)) (s : Fs) : Prop := s.CachedOnRoot (s.pointed ∪ P)

section

variable {s u : Fs} {K P R : Set (Fin nrInode)} {p : Fin nrInode} {d : Fin nrFileDesc} {f : Inode → Inode}
  {num : Int} {path : List Byte}

theorem ignoresIo_cachedOnRoot : IgnoresIo (Fs.CachedOnRoot K) := fun _ _ _ _ hs =>
  ⟨hs.super, hs.onRoot⟩

theorem ignoresIo_tablesOk : IgnoresIo (Fs.TablesOk P) := fun _ _ _ _ hs => ⟨hs.super, hs.onRoot⟩

namespace Fs.CachedOnRoot

/-- An inode gets new contents. -/
theorem setInode (h : s.CachedOnRoot K) (hon : (f (s.inodeTable p)).cached ∨ p ∈ K →
    (f (s.inodeTable p)).OnRoot) : (s.setInode p f).CachedOnRoot K where
  super := h.super
  onRoot q hq := by
    by_cases hqp : q = p
    · subst hqp
      rw [Fs.setInode_self] at hq ⊢
      exact hon hq
    · rw [Fs.setInode_of_ne hqp] at hq ⊢
      exact h.onRoot q hq

/-- An inode in use stays the same inode. -/
theorem setInode_same (h : s.CachedOnRoot K) (hon : (s.inodeTable p).OnRoot)
    (hdev : (f (s.inodeTable p)).iDev = (s.inodeTable p).iDev)
    (hnum : (f (s.inodeTable p)).iNum = (s.inodeTable p).iNum) : (s.setInode p f).CachedOnRoot K :=
  h.setInode fun _ => ⟨hdev.trans hon.dev, hnum ▸ hon.off⟩

end Fs.CachedOnRoot

/-! ## Taking an inode -/

theorem wp_getInode_onRoot (h : s.CachedOnRoot K) :
    wp (getInode rootDev num) (fun r u => u.CachedOnRoot K ∧ ∀ p, r = some p →
      (u.inodeTable p).OnRoot ∧ (u.inodeTable p).iNum = num) (fun _ _ => True) s := by
  rw [getInode, wp_ite]
  refine ⟨fun _ => ⟨h, nofun⟩, fun _ => ?_⟩
  rw [wp_bind, wp_get]
  split
  case h_1 p hp =>
    obtain ⟨hcached, -, hnum⟩ := of_decide_eq_true (List.find?_some hp :)
    have hon := h.onRoot p (.inl hcached)
    refine ⟨h.setInode_same hon rfl rfl, ?_⟩
    rintro q ⟨⟩
    rw [Fs.setInode_self]
    exact ⟨⟨hon.dev, hon.off⟩, hnum⟩
  case h_2 =>
    split
    case h_1 => trivial
    case h_2 q hq =>
      obtain ⟨sb, hsb⟩ := h.super
      rw [wp_bind, wp_setInode, wp_bind, wp_getSuperBlock (Fs.setInode_super.trans hsb), wp_bind, wp_rdSect, wp_bind, wp_natOf]
      refine ⟨fun hoff => ?_, fun _ => trivial⟩
      simp only [wp_bind, wp_bufWord, wp_setInode, wp_pure]
      refine ⟨?_, ?_⟩
      · rw [Fs.io_setInode, Fs.setInode_setInode]
        exact ignoresIo_cachedOnRoot.io (h.setInode fun _ => ⟨rfl, hoff⟩)
      · rintro p ⟨⟩
        rw [Fs.io_setInode, Fs.setInode_setInode, Fs.io_inodeTable, Fs.setInode_self]
        exact ⟨⟨rfl, hoff⟩, rfl⟩

/-- `get_inode` leaves alone what depends neither on the inode table nor on the disk. -/
theorem preserves_getInode {I : Fs → Prop} (h : IgnoresIo I)
    (hset : ∀ s p f, I s → I (s.setInode p f)) {dev : Int} : Preserves I (getInode dev num) := by
  refine .ite (.pure _) (.bind .get fun s => ?_)
  split
  · exact .bind (.modify fun t => hset t _ _) fun _ => .pure _
  · split
    · exact .throw _
    · exact .bind (.modify fun t => hset t _ _) fun _ => .bind IgnoresIo.getSuperBlock fun _ =>
        .bind h.rdSect fun _ => .bind IgnoresIo.natOf fun _ => .bind IgnoresIo.bufWord fun _ =>
          .bind IgnoresIo.bufWord fun _ => .bind IgnoresIo.bufWord fun _ =>
            .bind IgnoresIo.bufWord fun _ => .bind (.modify fun t => hset t _ _) fun _ => .pure _

/-! ## Tables in order -/

namespace Fs.TablesOk

theorem mono (h : s.TablesOk P) (hsub : R ⊆ P) : s.TablesOk R where
  super := h.super
  onRoot p hp := h.onRoot p (hp.imp_right (Set.union_subset_union_right _ hsub ·))

theorem insert (h : s.TablesOk P) (hp : (s.inodeTable p).OnRoot) : s.TablesOk (insert p P) where
  super := h.super
  onRoot q hq := by
    rcases hq with hq | hq | rfl | hq
    · exact h.onRoot q (.inl hq)
    · exact h.onRoot q (.inr (.inl hq))
    · exact hp
    · exact h.onRoot q (.inr (.inr hq))

theorem cached (h : s.TablesOk P) (hp : (s.inodeTable p).cached) : (s.inodeTable p).OnRoot :=
  h.onRoot p (.inl hp)

theorem root (h : s.TablesOk P) (hp : s.rootInode = some p) : (s.inodeTable p).OnRoot :=
  h.onRoot p (.inr (.inl (.inl hp)))

theorem desc (h : s.TablesOk P) (hp : (s.fDescTable d).fdInode = some p) :
    (s.inodeTable p).OnRoot :=
  h.onRoot p (.inr (.inl (.inr ⟨d, hp⟩)))

theorem mem (h : s.TablesOk P) (hp : p ∈ P) : (s.inodeTable p).OnRoot := h.onRoot p (.inr (.inr hp))

/-- Pointers may go, and new ones may lead to inodes of the root device. -/
theorem of_pointed (h : s.TablesOk P) (hsuper : u.super rootDev = s.super rootDev)
    (hinode : u.inodeTable = s.inodeTable)
    (hpointed : ∀ p ∈ u.pointed, p ∈ s.pointed ∨ (s.inodeTable p).OnRoot) : u.TablesOk P where
  super := hsuper ▸ h.super
  onRoot p hp := by
    rw [hinode] at hp ⊢
    rcases hp with hp | hp | hp
    · exact h.cached hp
    · exact (hpointed p hp).elim (fun hp => h.onRoot p (.inr (.inl hp))) id
    · exact h.mem hp

theorem setDesc (h : s.TablesOk P) {g : FileDesc → FileDesc}
    (hg : ∀ p, (g (s.fDescTable d)).fdInode = some p →
      (s.fDescTable d).fdInode = some p ∨ (s.inodeTable p).OnRoot) : (s.setDesc d g).TablesOk P := by
  refine h.of_pointed rfl rfl ?_
  rintro p (hp | ⟨e, hp⟩)
  · exact .inl (.inl hp)
  · change ((Function.update s.fDescTable d (g (s.fDescTable d))) e).fdInode = some p at hp
    by_cases he : e = d
    · subst he
      rw [Function.update_self] at hp
      exact (hg p hp).imp_left fun hp => .inr ⟨e, hp⟩
    · rw [Function.update_of_ne he] at hp
      exact .inl (.inr ⟨e, hp⟩)

/-- An inode in use stays the same inode. -/
theorem setInode (h : s.TablesOk P) (hon : (s.inodeTable p).OnRoot)
    (hdev : (f (s.inodeTable p)).iDev = (s.inodeTable p).iDev)
    (hnum : (f (s.inodeTable p)).iNum = (s.inodeTable p).iNum) : (s.setInode p f).TablesOk P :=
  CachedOnRoot.setInode h fun _ => ⟨hdev.trans hon.dev, hnum ▸ hon.off⟩

end Fs.TablesOk

theorem preserves_setDesc {g : FileDesc → FileDesc} (hg : ∀ i, (g i).fdInode = i.fdInode) :
    Preserves (Fs.TablesOk P) (setDesc d g) := fun _ hs =>
  hs.setDesc fun _ hp => .inl ((hg _).symm.trans hp)

theorem preserves_clearDesc {g : FileDesc → FileDesc} (hg : ∀ i, (g i).fdInode = none) :
    Preserves (Fs.TablesOk P) (setDesc d g) := fun _ hs =>
  hs.setDesc fun _ hp => absurd ((hg _).symm.trans hp) (Option.some_ne_none _).symm

theorem preserves_setFilp {pid : Pid} {j : Fin nrFiles} {e : Option (Fin nrFileDesc)} :
    Preserves (Fs.TablesOk P) (setFilp pid j e) := fun _ hs => ⟨hs.super, hs.onRoot⟩

theorem preserves_setInode (hp : p ∈ P) (hdev : ∀ i, (f i).iDev = i.iDev)
    (hnum : ∀ i, (f i).iNum = i.iNum) : Preserves (Fs.TablesOk P) (setInode p f) := fun _ hs =>
  hs.setInode (hs.mem hp) (hdev _) (hnum _)

theorem preserves_putInode : Preserves (Fs.TablesOk P) (putInode p) := by
  intro s hs
  rw [putInode, wp_bind, wp_get, wp_bind, assert, wp_ensure]
  exact ⟨fun hpos => hs.setInode (hs.cached hpos.ne') rfl rfl, fun _ => hs⟩

/-! ## Files -/

/-- `get_inode` adds the inode that it takes. -/
theorem wp_getInode_tablesOk (h : s.TablesOk P) :
    wp (getInode rootDev num) (fun r u => u.TablesOk (P ∪ {p | r = some p}) ∧
      ∀ p, r = some p → (u.inodeTable p).iNum = num) (fun _ _ => True) s := by
  have hsame : Preserves (fun t : Fs => t.pointed = s.pointed) (getInode rootDev num) :=
    preserves_getInode (fun _ _ _ _ ht => ht) fun _ _ _ ht => ht
  have hpointed := hsame s rfl
  refine ((wp_getInode_onRoot h).and hpointed).mono (fun r u hu => ?_) fun _ _ _ => trivial
  obtain ⟨⟨hcached, hr⟩, hp⟩ := hu
  refine ⟨⟨hcached.super, ?_⟩, fun p hrp => (hr p hrp).2⟩
  rintro p (hc | hc | hc | hc)
  · exact hcached.onRoot p (.inl hc)
  · exact hcached.onRoot p (.inr (.inl (hp ▸ hc)))
  · exact hcached.onRoot p (.inr (.inr hc))
  · exact (hr p hc).1

theorem wp_newInode_tablesOk {start : BitVec 32} (h : s.TablesOk P) :
    wp (newInode rootDev num start) (fun p => Fs.TablesOk (insert p P)) (fun _ _ => True) s := by
  rw [newInode, wp_bind]
  refine (wp_getInode_tablesOk h).imp fun r u hu => ?_
  obtain ⟨hu, hnum⟩ := hu
  cases r with
  | none => trivial
  | some p =>
    have hon := hu.mem (.inr rfl : p ∈ P ∪ {q | some p = some q})
    rw [wp_bind, wp_deref_some, wp_bind, wp_setInode, wp_bind]
    have hsub : insert p P ⊆ P ∪ {q | some p = some q} := by
      rintro q (rfl | hq)
      · exact .inr rfl
      · exact .inl hq
    refine (ignoresIo_tablesOk.syncInode _ ((hu.mono hsub).setInode hon ?_ ?_)).mono
      (fun _ _ hv => hv) fun _ _ _ => trivial
    · exact hon.dev.symm
    · exact (hnum p rfl).symm

theorem preserves_newDirEntry {filename : List Byte} (hp : p ∈ P) :
    Preserves (Fs.TablesOk P) (newDirEntry p num filename) :=
  have hio := ignoresIo_tablesOk (P := P)
  .bind .get fun _ => .bind hio.slotBlks fun _ =>
    .bind (.onlyIf (preserves_setInode hp (fun _ => rfl) fun _ => rfl)) fun _ =>
      .bind hio.putBufWords fun _ => .bind hio.putBuf fun _ => .bind hio.wrSect fun _ => hio.syncInode

theorem preserves_removeDirEntry (hp : p ∈ P) :
    Preserves (Fs.TablesOk P) (removeDirEntry p num) :=
  have hio := ignoresIo_tablesOk (P := P)
  .bind .get fun _ => .bind hio.clearEntryBlks fun _ => .bind .ensure fun _ =>
    .onlyIf (.bind (preserves_setInode hp (fun _ => rfl) fun _ => rfl) fun _ => hio.syncInode)

theorem preserves_removeFile {q : Fin nrInode} (hp : p ∈ P) (hq : q ∈ P) :
    Preserves (Fs.TablesOk P) (removeFile p q num) :=
  have hio := ignoresIo_tablesOk (P := P)
  .bind .get fun _ => .bind IgnoresIo.getSuperBlock fun _ => .bind hio.freeImapBit fun _ =>
    .bind hio.freeSmapBits fun _ => .bind (preserves_setInode hq (fun _ => rfl) fun _ => rfl) fun _ =>
      .bind hio.syncInode fun _ => .bind preserves_putInode fun _ => preserves_removeDirEntry hp

/-- The directory that a name is looked up in is the root directory. -/
theorem wp_stripPath {Q : Option (List Byte × Option (Fin nrInode)) → Fs → Prop}
    {E : Halt → Fs → Prop} (hnone : Q none s)
    (hsome : ∀ filename, Q (some (filename, s.rootInode)) s) : wp (stripPath path) Q E s := by
  rw [stripPath, wp_bind, wp_get, wp_pure]
  cases stripName path with
  | none => exact hnone
  | some filename => exact hsome filename

theorem wp_createFile_tablesOk (h : s.TablesOk P) :
    wp (createFile path) (fun r u => u.TablesOk (P ∪ {p | r = some p})) (fun _ _ => True) s := by
  have hE : ∀ (e : Halt) (t : Fs), True := fun _ _ => trivial
  have hnone : P ∪ {p | none = some p} ⊆ P := by
    rintro p (hp | hp)
    · exact hp
    · exact absurd hp (Option.some_ne_none p).symm
  rw [createFile, wp_bind]
  refine wp_stripPath (h.mono hnone) fun filename => ?_
  cases hroot : s.rootInode with
  | none => trivial
  | some dir =>
    have hdir := h.root hroot
    rw [wp_bind, wp_deref_some, wp_bind, wp_get]
    dsimp only
    rw [hdir.dev]
    have hio := ignoresIo_tablesOk (P := insert dir P)
    refine hio.allocImapBit.wp_bind hE (h.insert hdir) fun nr t ht => ?_
    refine hio.allocSmapBit.wp_bind hE ht fun start t ht => ?_
    rw [wp_bind]
    refine (wp_newInode_tablesOk ht).imp fun p u hu => ?_
    rw [wp_bind, wp_get]
    refine (preserves_newDirEntry (.inr (.inl rfl))).wp_bind hE hu fun _ u hu => ?_
    refine hu.mono ?_
    rintro q (hq | hq)
    · exact .inr (.inr hq)
    · exact .inl (Option.some.inj hq).symm

theorem wp_openedInode_tablesOk {flags : Int} (h : s.TablesOk P) :
    wp (openedInode path flags) (fun r u => u.TablesOk (P ∪ {p | r = some p})) (fun _ _ => True) s := by
  have hE : ∀ (e : Halt) (t : Fs), True := fun _ _ => trivial
  have hnone : P ∪ {p | none = some p} ⊆ P := by
    rintro p (hp | hp)
    · exact hp
    · exact absurd hp (Option.some_ne_none p).symm
  rw [openedInode]
  refine ignoresIo_tablesOk.searchFile.wp_bind hE h fun nr t ht => ?_
  rw [wp_ite, wp_ite]
  refine ⟨fun _ => ⟨fun _ => ht.mono hnone, fun _ => wp_createFile_tablesOk ht⟩, fun _ => ?_⟩
  refine Preserves.ensure.wp_bind hE ht fun _ t ht => ?_
  rw [wp_bind]
  refine wp_stripPath (ht.mono hnone) fun filename => ?_
  cases hroot : t.rootInode with
  | none => trivial
  | some dir =>
    rw [wp_bind, wp_deref_some, wp_bind, wp_get]
    rw [(ht.root hroot).dev]
    exact (wp_getInode_tablesOk ht).imp fun _ _ hu => hu.1

theorem preserves_checkOpened {I : Fs → Prop} : Preserves I (checkOpened p) :=
  .bind .get fun _ => .ite (.bind .ensure fun _ => .discard IgnoresIo.driverOf)
    (.ite .ensure .ensure)

/-! ## Requests -/

/-- From tables in order a program comes to tables in order, or stops. -/
abbrev KeepsTables {α : Type} (x : FM α) : Prop := Tame (Fs.TablesOk ∅) (fun _ => True) x

theorem keepsTables_of {α : Type} {x : FM α} (h : Preserves (Fs.TablesOk ∅) x) : KeepsTables x :=
  fun s hs => (h s hs).mono (fun _ _ ht => ht) fun _ _ _ => trivial

theorem keepsTables_doOpen : KeepsTables doOpen := by
  intro s hs
  have hE : ∀ (e : Halt) (t : Fs), True := fun _ _ => trivial
  rw [doOpen, wp_bind, wp_get]
  refine IgnoresIo.fetchPathname.wp_bind hE hs fun path t ht => ?_
  rw [wp_bind, wp_get]
  split
  case h_1 => trivial
  case h_2 fd _ =>
    split
    case h_1 => trivial
    case h_2 d _ =>
      rw [wp_bind]
      refine (wp_openedInode_tablesOk ht).imp fun r u hu => ?_
      cases r with
      | none => exact hu.mono (Set.empty_subset _)
      | some pin =>
        refine preserves_setFilp.wp_bind hE hu fun _ u hu => ?_
        rw [wp_bind, wp_setDesc]
        have hpin := hu.mem (.inr rfl : pin ∈ ∅ ∪ {q | some pin = some q})
        refine preserves_checkOpened.wp_bind hE (hu.setDesc ?_) fun _ v hv => ?_
        · rintro p ⟨⟩
          exact .inr hpin
        · exact hv.mono (Set.empty_subset _)

theorem keepsTables_doClose : KeepsTables doClose :=
  keepsTables_of (.bind .get fun _ => .bind IgnoresIo.filpIndex fun _ => .bind IgnoresIo.deref fun _ =>
    .bind IgnoresIo.deref fun _ => .bind preserves_putInode fun _ =>
      .bind (preserves_setDesc fun _ => rfl) fun _ =>
        .bind (.onlyIf (preserves_clearDesc fun _ => rfl)) fun _ =>
          .bind preserves_setFilp fun _ => .pure _)

theorem keepsTables_doUnlink : KeepsTables doUnlink := by
  intro s hs
  have hE : ∀ (e : Halt) (t : Fs), True := fun _ _ => trivial
  rw [doUnlink]
  refine IgnoresIo.fetchPathname.wp_bind hE hs fun path t ht => ?_
  rw [wp_ite]
  refine ⟨fun _ => ht, fun _ => ?_⟩
  refine ignoresIo_tablesOk.searchFile.wp_bind hE ht fun nr t ht => ?_
  rw [wp_ite]
  refine ⟨fun _ => ht, fun _ => ?_⟩
  rw [wp_bind]
  refine wp_stripPath ht fun filename => ?_
  cases hroot : t.rootInode with
  | none => trivial
  | some dir =>
    rw [wp_bind, wp_deref_some, wp_bind, wp_get, wp_bind, (ht.root hroot).dev]
    refine (wp_getInode_tablesOk (ht.insert (ht.root hroot))).imp fun r u hu => ?_
    cases r with
    | none => trivial
    | some pin =>
      have hu' := hu.1.mono (Set.empty_subset _)
      rw [wp_bind, wp_deref_some, wp_bind, wp_get, wp_ite, wp_ite]
      refine ⟨fun _ => hu', fun _ => ⟨fun _ => hu', fun _ => ?_⟩⟩
      refine (preserves_removeFile (.inl (.inl rfl)) (.inr rfl)).wp_bind hE hu.1 fun _ v hv => ?_
      exact hv.mono (Set.empty_subset _)

theorem preserves_rwChunk {t : Transfer} {x o k b : Int} :
    Preserves (Fs.TablesOk P) (rwChunk t x o k b) :=
  have hio := ignoresIo_tablesOk (P := P)
  have hcopy {a b : Addr} {n : Int} : Preserves (Fs.TablesOk P) (physCopy a b n) :=
    .modify fun _ hs => ⟨hs.super, hs.onRoot⟩
  .bind hio.rwSector fun _ => .bind IgnoresIo.procAt fun _ => .bind IgnoresIo.fsVa2la fun _ =>
    .bind IgnoresIo.fsVa2la fun _ =>
      .ite (.bind hcopy fun _ => preserves_setDesc fun _ => rfl)
        (.bind hcopy fun _ => .bind hio.rwSector fun _ => preserves_setDesc fun _ => rfl)

theorem preserves_rwLoop {t : Transfer} {max x o k left : Int} {fuel : Nat} :
    Preserves (Fs.TablesOk P) (rwLoop t max fuel x o k left) := by
  induction fuel generalizing x o k left with
  | zero => exact .ite (.throw _) (.pure _)
  | succ fuel ih => exact .ite (.bind preserves_rwChunk fun _ => ih) (.pure _)

theorem preserves_rwTerminal {i : Inode} {len : Int} :
    Preserves (Fs.TablesOk P) (rwTerminal i len) :=
  have hmsg {g : Fs → Message} : Preserves (Fs.TablesOk P) (modify fun s => { s with fsMsg := g s }) :=
    .modify fun _ hs => ⟨hs.super, hs.onRoot⟩
  .bind hmsg fun _ => .bind .ensure fun _ => .bind hmsg fun _ =>
    .bind (.discard IgnoresIo.driverOf) fun _ => .bind hmsg fun _ => .bind .get fun _ =>
      .bind .ensure fun _ => .pure _

theorem preserves_rwFile {len : Int} (hp : p ∈ P) : Preserves (Fs.TablesOk P) (rwFile d p len) :=
  have hio := ignoresIo_tablesOk (P := P)
  .bind .get fun _ => .bind .ensure fun _ => .bind .ensure fun _ => .bind preserves_rwLoop fun _ =>
    .bind .get fun _ => .bind (.onlyIf (.bind (preserves_setInode hp (fun _ => rfl) fun _ => rfl)
      fun _ => hio.syncInode)) fun _ => .pure _

theorem keepsTables_doRdwt : KeepsTables doRdwt := by
  intro s hs
  have hE : ∀ (e : Halt) (t : Fs), True := fun _ _ => trivial
  rw [doRdwt, wp_bind, wp_get]
  refine (IgnoresIo.filpIndex (I := (· = s))).wp_bind hE rfl fun fd t ht => ?_
  subst ht
  split
  case h_1 => trivial
  case h_2 d _ =>
    rw [wp_ite]
    refine ⟨fun _ => hs, fun _ => ?_⟩
    split
    case h_1 => trivial
    case h_2 p hp =>
      rw [wp_ite]
      refine ⟨fun _ => keepsTables_of preserves_rwTerminal t hs, fun _ => ?_⟩
      have hp' := hs.insert (hs.desc hp)
      exact (preserves_rwFile (.inl rfl) t hp').mono (fun _ _ hu => hu.mono (Set.empty_subset _))
        fun _ _ _ => trivial

theorem keepsTables_forkFilp {child : Pid} {i : Fin nrFiles} : KeepsTables (forkFilp child i) := by
  intro s hs
  rw [forkFilp, wp_bind, wp_get]
  split
  case h_1 => exact hs
  case h_2 d _ =>
    rw [wp_bind, wp_setDesc]
    have hset := preserves_setDesc (g := fun f => { f with fdCnt := f.fdCnt + 1 }) (d := d)
      (fun _ => rfl) s hs
    cases hp : (s.fDescTable d).fdInode with
    | none => exact trivial
    | some p =>
      rw [wp_bind, wp_deref_some]
      exact hset.setInode (hs.desc hp) rfl rfl

theorem keepsTables_exitFilp {pid : Pid} {i : Fin nrFiles} : KeepsTables (exitFilp pid i) := by
  intro s hs
  rw [exitFilp, wp_bind, wp_get]
  split
  case h_1 => exact hs
  case h_2 d _ =>
    cases hp : (s.fDescTable d).fdInode with
    | none => exact trivial
    | some p =>
      rw [wp_bind, wp_deref_some, wp_bind, wp_setInode]
      have hset := hs.setInode (hs.desc hp) (f := fun n => { n with iCnt := n.iCnt - 1 }) rfl rfl
      refine keepsTables_of ?_ _ hset
      exact .bind (preserves_setDesc fun _ => rfl) fun _ =>
        .bind (.onlyIf (preserves_clearDesc fun _ => rfl)) fun _ => preserves_setFilp

/-! ## Runs -/

theorem keepsTables_answer {put : Message → Int → Message} {x : FM Int} (hx : KeepsTables x) :
    KeepsTables (answer put x) := .bind hx fun _ => .modify fun _ hs => ⟨hs.super, hs.onRoot⟩

theorem keepsTables_serve {m : Message} : KeepsTables (serve m) := by
  have hfork : KeepsTables fsFork := .bind .get fun _ => .bind (keepsTables_of IgnoresIo.procAt) fun _ =>
    .bind (.forM fun _ => keepsTables_forkFilp) fun _ => .pure _
  have hexit : KeepsTables fsExit := .bind .get fun _ => .bind (keepsTables_of IgnoresIo.procAt) fun _ =>
    .bind (.forM fun _ => keepsTables_exitFilp) fun _ => .pure _
  refine .bind (keepsTables_of IgnoresIo.procAt) fun _ =>
    .bind (.modify fun _ hs => ⟨hs.super, hs.onRoot⟩) fun _ => ?_
  exact .ite (keepsTables_answer keepsTables_doOpen) <| .ite (keepsTables_answer keepsTables_doClose) <|
    .ite (keepsTables_answer keepsTables_doRdwt) <| .ite (keepsTables_answer keepsTables_doUnlink) <|
      .ite (.pure _) <| .ite (keepsTables_answer hfork) <| .ite (keepsTables_answer hexit) (.throw trivial)

theorem keepsTables_run : ∀ r : Request, KeepsTables r.run
  | .message _ => keepsTables_serve
  | .log _ => .bind (keepsTables_of ignoresIo_tablesOk.disklog) fun _ => .pure _
  | .fork _ _ _ => .bind (.modify fun _ hs => ⟨hs.super, hs.onRoot⟩) fun _ => keepsTables_serve

/-! ## The start -/

/-- Nothing is cached or open. -/
structure Fs.Blank (s : Fs) : Prop where
  fDescTable : ∀ d, (s.fDescTable d).fdInode = none
  inodeTable : ∀ p, (s.inodeTable p).iCnt = 0
  superBlock : ∀ i, (s.superBlock i).sbDev = noDev

theorem ignoresIo_blank : IgnoresIo Fs.Blank := fun _ _ _ _ hs => ⟨hs.1, hs.2, hs.3⟩

theorem blank_wrSects {dev x : Int} {n : Nat} : Preserves Fs.Blank (wrSects dev x n) := by
  induction n with
  | zero => exact .pure _
  | succ n ih => exact .bind ih fun _ => ignoresIo_blank.wrSect

theorem blank_setLowBits {j n : Nat} : Preserves Fs.Blank (setLowBits j n) := by
  induction n with
  | zero => exact .pure _
  | succ n ih => exact .bind ih fun _ => .bind IgnoresIo.bufAt fun _ => ignoresIo_blank.setBuf

theorem blank_mkfs : Preserves Fs.Blank mkfs := by
  have hio := ignoresIo_blank
  have himap : Preserves Fs.Blank mkInodeMap := .bind hio.memsetBuf fun _ => .bind blank_setLowBits fun _ =>
    .bind IgnoresIo.bufAt fun _ => .bind .ensure fun _ => hio.wrSect
  have hsmap {sb : SuperBlock} : Preserves Fs.Blank (mkSectorMap sb) := .bind hio.memsetBuf fun _ =>
    .bind hio.memsetBuf fun _ => .bind blank_setLowBits fun _ => .bind hio.wrSect fun _ =>
      .bind hio.memsetBuf fun _ => blank_wrSects
  have hinodes {sb : SuperBlock} : Preserves Fs.Blank (mkInodes sb) := .bind hio.memsetBuf fun _ =>
    .bind hio.putBufWords fun _ => .bind (.forM fun _ => hio.putBufWords) fun _ => hio.wrSect
  have hdir {sb : SuperBlock} : Preserves Fs.Blank (mkRootDir sb) := .bind hio.memsetBuf fun _ =>
    .bind hio.putBufWords fun _ => .bind hio.putBuf fun _ =>
      .bind (.forM fun _ => .bind hio.putBufWords fun _ => hio.putBuf) fun _ => hio.wrSect
  exact .bind (.discard IgnoresIo.driverOf) fun _ => .bind .get fun _ =>
    .bind hio.memsetBuf fun _ => .bind hio.putBufWords fun _ => .bind hio.wrSect fun _ =>
      .bind himap fun _ => .bind hsmap fun _ => .bind hinodes fun _ => hdir

/-- Once the super block is read the root device has one. -/
theorem wp_readSuperBlock_blank (h : s.Blank) :
    wp (readSuperBlock rootDev) (fun _ u => (∃ sb, u.super rootDev = some sb) ∧
      (∀ d, (u.fDescTable d).fdInode = none) ∧ ∀ p, (u.inodeTable p).iCnt = 0) (fun _ _ => True) s := by
  have hE : ∀ (e : Halt) (t : Fs), True := fun _ _ => trivial
  rw [readSuperBlock]
  refine ignoresIo_blank.rwSector.wp_bind hE h fun _ t ht => ?_
  rw [wp_bind, wp_get]
  split
  case h_1 => trivial
  case h_2 i hi =>
    refine (Preserves.ensure (I := (· = t))).wp_bind hE rfl fun _ u hu => ?_
    subst hu
    rw [wp_modify]
    refine ⟨?_, ht.fDescTable, ht.inodeTable⟩
    have hsome : ((List.finRange nrSuperBlock).find? fun j => (Function.update u.superBlock i
        { SuperBlock.ofWords u.mem fsbuf with sbDev := rootDev } j).sbDev = rootDev).isSome :=
      List.find?_isSome.mpr ⟨i, List.mem_finRange i, by simp⟩
    obtain ⟨j, hj⟩ := Option.isSome_iff_exists.mp hsome
    exact ⟨_, Option.map_eq_some_iff.mpr ⟨j, hj, rfl⟩⟩

theorem wp_initFs : wp initFs (fun _ => Fs.TablesOk ∅) (fun _ _ => True) s := by
  have hE : ∀ (e : Halt) (t : Fs), True := fun _ _ => trivial
  rw [initFs, wp_bind, wp_modify]
  refine (Preserves.discard IgnoresIo.driverOf).wp_bind (I := Fs.Blank) hE ⟨fun _ => rfl, fun _ => rfl, fun _ => rfl⟩ fun _ t ht => ?_
  refine blank_mkfs.wp_bind hE ht fun _ t ht => ?_
  rw [wp_bind]
  refine (wp_readSuperBlock_blank ht).imp fun _ u hu => ?_
  obtain ⟨⟨sb, hsb⟩, hdesc, hcnt⟩ := hu
  rw [wp_bind, wp_getSuperBlock hsb]
  refine (Preserves.ensure (I := (· = u))).wp_bind hE rfl fun _ v hv => ?_
  subst hv
  have hcached : v.CachedOnRoot ∅ := ⟨⟨sb, hsb⟩, fun p hp => by
    rcases hp with hp | hp
    · exact absurd (hcnt p) hp
    · exact absurd hp (Set.notMem_empty p)⟩
  have hsame : Preserves (fun t : Fs => ∀ d, (t.fDescTable d).fdInode = none)
      (getInode rootDev rootInodeNr) :=
    preserves_getInode (fun _ _ _ _ ht => ht) fun _ _ _ ht => ht
  have hopen := hsame v hdesc
  rw [wp_bind]
  refine ((wp_getInode_onRoot hcached).and hopen).mono (fun r u hu => ?_) fun _ _ _ => trivial
  obtain ⟨⟨hcached, hr⟩, hopen⟩ := hu
  refine ⟨hcached.super, ?_⟩
  rintro p (hp | (hp | ⟨d, hp⟩) | hp)
  · exact hcached.onRoot p (.inl hp)
  · exact (hr p hp).1
  · exact absurd ((hopen d).symm.trans hp) (Option.some_ne_none p).symm
  · exact absurd hp (Set.notMem_empty p)

/-- In every run the inodes in use are inodes of the root device. -/
theorem reached_tablesOk {G : Fs → FsEvent → Prop} (h : fsMachine.Reached G s none) :
    s.TablesOk ∅ := by
  refine h.invariant (I := fun s o => o = none → s.TablesOk ∅) ?_ ?_ rfl
  · rintro s ⟨s₀, -, hs⟩ -
    exact (wp_of_ok hs).mp wp_initFs
  · intro s e _ hs _
    refine exec_of_wp (P := fun u o => o = none → Fs.TablesOk ∅ u) ?_
    have hs' : Fs.TablesOk ∅ { s with mem := e.mem, ttyReply := e.tty } :=
      ⟨(hs rfl).super, (hs rfl).onRoot⟩
    exact (keepsTables_run e.request _ hs').mono (fun _ _ hu _ => hu) fun _ _ _ h => nomatch h

end

end Dlos
