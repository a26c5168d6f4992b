import Dlos.Fs.Reachable

/-!
# What holds in every run

No sector has two owners and none is lost, open files are in use and lie apart, names lead to different
inodes that are in use, and the references are counted exactly as long as no UNLINK is refused.
-/

namespace Dlos

open Program Bytes Slot

section

variable {size : BitVec 32} {n m : Nat} {p q q' : Fin nrInode} {extra : Fin nrInode → Int} {s : Fs}

/-! ## Sectors -/

/-- A bit of the sector map is set when it is one owner's bit, and no bit has two owners. -/
theorem Volume.smap_iff {T : DiskTables} {logged : Prop} {b : Nat} (h : Volume size T logged) :
    T.smap b = true ↔ ∃! o, T.owns logged o ∧ b ∈ T.extent size o := by
  constructor
  · intro hset
    obtain ⟨o, ho, hb⟩ := h.tiles.exists_owner hset
    exact ⟨o, ⟨ho, hb⟩, fun o' ho' => h.tiles.owner_unique ho'.1 ho ho'.2 hb⟩
  · rintro ⟨o, ⟨ho, hb⟩, -⟩
    exact h.tiles.subset ho hb

/-- A bit of the sector map is set when it is exactly one owner's, and the bits of a live inode are in the
map. -/
structure Fs.SectorsOwned (s : Fs) : Prop where
  smap : ∀ b, (diskTables s.geoSize s.disk).smap b = true ↔
    ∃! o, (diskTables s.geoSize s.disk).owns (s.logPos ≠ 0) o ∧ b ∈ (diskTables s.geoSize s.disk).extent s.geoSize o
  inMap : ∀ m, (diskTables s.geoSize s.disk).Live m →
    ∃ b, ((diskTables s.geoSize s.disk).record m).InMap s.geoSize b nrDefaultFileSects

/-- No sector of the partition has two owners, and none is lost. -/
theorem sectors_have_one_owner (h : newMachine.Reached Fs.Allows s none) : s.SectorsOwned := by
  obtain ⟨n, p, extra, hs⟩ := consistent_of_reached h
  refine ⟨fun b => hs.volume.smap_iff, fun m hm => ?_⟩
  rcases hm.file with rfl | ⟨h2, hmode⟩
  · exact ⟨1, hs.volume.rootMap⟩
  · exact hs.volume.inMap m h2 hm.imap hmode

theorem sectors_have_one_owner_createdFs : createdFs.SectorsOwned :=
  sectors_have_one_owner reached_createdFs_allows

/-! ## Entries -/

/-- The root directory is open in slot `p` and has `n` entries. The used ones lead to different inodes, which
are in use and are regular files that are not larger than their sectors, or terminals; one leads to the
directory itself. -/
structure Fs.EntriesLead (s : Fs) (p : Fin nrInode) (n : Nat) : Prop where
  root : s.rootInode = some p
  iNum : (s.inodeTable p).iNum = rootInodeNr
  iSize : (s.inodeTable p).iSize = BitVec.ofNat 32 (dirEntrySize * n)
  le : n ≤ 4096
  imap : ∀ k < n, (dirSlots s.disk (dirAddr s.geoSize) k).val ≠ 0 →
    (diskTables s.geoSize s.disk).imap (dirSlots s.disk (dirAddr s.geoSize) k).val.toNat = true
  kind : ∀ k < n, 2 ≤ (dirSlots s.disk (dirAddr s.geoSize) k).val.toNat →
    ((diskTables s.geoSize s.disk).record (dirSlots s.disk (dirAddr s.geoSize) k).val.toNat).Kind
  inj : ∀ j < n, ∀ k < n, (dirSlots s.disk (dirAddr s.geoSize) j).val ≠ 0 →
    (dirSlots s.disk (dirAddr s.geoSize) j).val = (dirSlots s.disk (dirAddr s.geoSize) k).val → j = k

/-- No entry of the root directory leads to a free inode, and no two to the same. -/
theorem entries_lead_to_inodes (h : newMachine.Reached Fs.Allows s none) : ∃ p n, s.EntriesLead p n := by
  obtain ⟨n, p, extra, hs⟩ := consistent_of_reached h
  have hle := hs.le
  have himap (k : Nat) (hk : k < n) (hval : (dirSlots s.disk (dirAddr s.geoSize) k).val ≠ 0) :
      (diskTables s.geoSize s.disk).imap (dirSlots s.disk (dirAddr s.geoSize) k).val.toNat = true :=
    hs.entries.imap k (by omega) hval
  refine ⟨p, n, hs.dir.rootInode, hs.dir.iNum, hs.dir.iSize, hle, himap, fun k hk h2 => ?_, fun j hj k hk => ?_⟩
  · refine hs.kind _ h2 (himap k hk fun hzero => ?_)
    rw [hzero] at h2
    exact absurd h2 (by decide)
  · exact hs.entries.inj j k (by omega) (by omega)

theorem entries_lead_to_inodes_createdFs : ∃ p n, createdFs.EntriesLead p n :=
  entries_lead_to_inodes reached_createdFs_allows

/-! ## Open files -/

/-- An open file's inode is in the table. The inodes of the table are in use and are as on the disk, but for
the size of the root directory's, and none is in the table twice. -/
structure Fs.InodesLive (s : Fs) : Prop where
  filp : ∀ pid i d, s.filp pid i = some d → ∃ q, (s.fDescTable d).fdInode = some q ∧ (s.inodeTable q).cached
  current : ∀ q, (s.inodeTable q).cached → s.rootInode ≠ some q →
    ∃ m, (s.inodeTable q).Current (diskTables s.geoSize s.disk) m
  inj : ∀ q q', (s.inodeTable q).cached → (s.inodeTable q').cached →
    (s.inodeTable q).iNum = (s.inodeTable q').iNum → q = q'

/-- No open file leads to an inode that was freed. -/
theorem open_inodes_live (h : newMachine.Reached Fs.Allows s none) : s.InodesLive := by
  obtain ⟨n, p, extra, hs⟩ := consistent_of_reached h
  refine ⟨fun pid i d hd => ?_, fun q hc hroot => ?_, hs.cache.inj⟩
  · obtain ⟨q, hq⟩ := hs.fdInode_of_filp hd
    exact ⟨q, hq, hs.cached_of_desc hq⟩
  · exact hs.cache.current q (fun hqp => hroot (hqp ▸ hs.dir.rootInode)) hc

theorem open_inodes_live_createdFs : createdFs.InodesLive := open_inodes_live reached_createdFs_allows

namespace Consistent

/-- The sectors of an open regular file. -/
theorem bits_of_openFile {d : Fin nrFileDesc} (h : Consistent size n p extra s) (hq : s.OpenFile d q) :
    ∃ m b, (s.inodeTable q).Current (diskTables size s.disk) m ∧ (diskTables size s.disk).Live m ∧ 2049 ≤ b ∧
      ((diskTables size s.disk).record m).InMap size b nrDefaultFileSects ∧
      (s.inodeTable q).iStartSect.toNat + 1 = firstSect size + b ∧
      (s.inodeTable q).iNrSects.toNat = nrDefaultFileSects := by
  obtain ⟨m, hm, -, hsects⟩ := h.fileAddr_le 0 (h.cached_of_desc hq.inode) hq.regular
  have hmode : ((diskTables size s.disk).record m).mode = iRegular := by
    rw [hm.record]
    exact hq.regular
  obtain ⟨b, hb, hin⟩ := h.exists_bits hm.two_le hm.imap hmode
  have hstart := Coherent.toNat_start hin (by omega)
  rw [hm.record] at hstart
  exact ⟨m, b, hm, ⟨hm.imap, .inr ⟨hm.two_le, hmode⟩⟩, hb, hin, hstart, hsects⟩

/-- On a partition that the driver can address the open files lie apart. -/
theorem filesApart (h : Consistent size n p extra s) (hsize : size.toNat < 2 ^ 23 - 4096) :
    s.FilesApart (rootSuper size) where
  super := h.dir.super
  file d q hq := by
    obtain ⟨m, b, hm, hlive, hb, hin, hstart, hsects⟩ := h.bits_of_openFile hq
    have hkind := h.kind m hm.two_le hm.imap
    have hfile : nrDefaultFileSects = 2048 := rfl
    have hle := hin.le
    have hfirst : firstSect size = nrSmap size + 259 := rfl
    have hmap : nrSmap size = size.toNat / 4096 + 1 := rfl
    refine ⟨hm.dev, ?_, ?_, by omega, by omega⟩
    · rw [hm.num]
      have := hm.two_le
      omega
    · rw [hm.record] at hkind
      cases hkind with
      | regular _ hle => rwa [hsects]
      | terminal hmode => exact absurd (hq.regular.symm.trans hmode) (by decide)
  apart d q e q' hq hq' hne a ha ha' := by
    obtain ⟨m, b, hm, hlive, hb, hin, hstart, hsects⟩ := h.bits_of_openFile hq
    obtain ⟨m', b', hm', hlive', hb', hin', hstart', hsects'⟩ := h.bits_of_openFile hq'
    have hmm : m ≠ m' := by
      rintro rfl
      exact hne (h.cache.inj q q' (h.cached_of_desc hq.inode) (h.cached_of_desc hq'.inode)
        (hm.num.trans hm'.num.symm))
    rw [InFile] at ha ha'
    -- the bit of the sector that the address is in
    obtain ⟨x, hx⟩ : ∃ x, x = a / 512 + 1 - firstSect size := ⟨_, rfl⟩
    have hbit : x ∈ (diskTables size s.disk).extent size (.inode m) := by
      rw [extent_inode hin, mem_bitRange]
      omega
    have hbit' : x ∈ (diskTables size s.disk).extent size (.inode m') := by
      rw [extent_inode hin', mem_bitRange]
      omega
    exact hmm (SectOwner.inode.inj (h.volume.tiles.owner_unique hlive hlive' hbit hbit'))
  data d q e q' hq hq' a ha hsect := by
    obtain ⟨m, b, hm, hlive, hb, hin, hstart, hsects⟩ := h.bits_of_openFile hq
    obtain ⟨m', b', hm', -⟩ := h.bits_of_openFile hq'
    have hlt := h.imap_lt hm'.imap
    have htwo := hm'.two_le
    have hfirst : firstSect size = nrSmap size + 259 := rfl
    have hmap : nrSmap size = size.toNat / 4096 + 1 := rfl
    rw [InFile] at ha
    rw [InInodeSector, hm'.num, inodeBlk_rootSuper (by omega) hlt, toNat_sectPos (by omega)] at hsect
    omega

end Consistent

/-- The open files are apart from each other and from the inodes, as the refinement to arrays of bytes has
it. -/
theorem open_files_apart (h : newMachine.Reached Fs.Allows s none) (hsize : s.geoSize.toNat < 2 ^ 23 - 4096) :
    s.FilesApart (rootSuper s.geoSize) := by
  obtain ⟨n, p, extra, hs⟩ := consistent_of_reached h
  exact hs.filesApart hsize

theorem geoSize_createdFs : createdFs.geoSize = startedFs.geoSize := by
  rw [createdFs]
  exact geoSize_served (.start initial_startedFs) allows_createA.1 goesOn_createA

theorem open_files_apart_createdFs : createdFs.FilesApart (rootSuper createdFs.geoSize) := by
  have hsize : startedFs.geoSize = 40960 := by decide +kernel
  exact open_files_apart reached_createdFs_allows
    ((congrArg BitVec.toNat (geoSize_createdFs.trans hsize)).trans_lt (by decide))

/-! ## References -/

/-- `fd_cnt` and `i_cnt` count the open files, and the root directory once more. When no file is open,
nothing else is left in the tables. -/
structure Fs.ReferencesExact (s : Fs) (p : Fin nrInode) : Prop where
  root : s.rootInode = some p
  counts : s.Counts s.held fun q => if q = p then 1 else 0
  noDesc : (∀ pid i, s.filp pid i = none) → ∀ d, (s.fDescTable d).fdInode = none
  noInode : (∀ pid i, s.filp pid i = none) → ∀ q, (s.inodeTable q).cached → q = p

/-- As long as no UNLINK is refused, no descriptor and no slot of the inode table is lost. -/
theorem references_exact (h : newMachine.Reached Fs.AllowsUnrefused s none) : ∃ p, s.ReferencesExact p := by
  obtain ⟨n, p, hs⟩ := consistent_of_unrefused h
  have hdesc (hnone : ∀ pid i, s.filp pid i = none) (d : Fin nrFileDesc) : (s.fDescTable d).fdInode = none :=
    (hs.counts.free d).mpr (Sharing.refs_eq_zero.mpr fun x hx =>
      Option.some_ne_none d (hx.symm.trans (hnone x.1 x.2)))
  refine ⟨p, hs.dir.rootInode, hs.counts, hdesc, fun hnone q hc => ?_⟩
  have hthrough : Sharing.refs (Sharing.through s.held fun d => (s.fDescTable d).fdInode) q = 0 :=
    Sharing.refs_eq_zero.mpr fun x hx => by
      rw [Sharing.through, Fs.held, hnone, Option.bind_none] at hx
      exact Option.some_ne_none q hx.symm
  have hcnt := hs.counts.object q
  rw [hthrough] at hcnt
  by_contra hq
  rw [if_neg hq] at hcnt
  exact hc hcnt

theorem references_exact_createdFs : ∃ p, createdFs.ReferencesExact p := references_exact reached_createdFs

end

end Dlos
