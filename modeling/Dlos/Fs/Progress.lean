import Dlos.Fs.Names

/-!
# What stops the file system

A request that FS cannot serve stops the task: an assertion fails, it panics, or it follows a null pointer.
`Panics` lists these requests. In a run from a new file system that keeps within its bounds nothing else stops
the task, so that none of its assertions about its own tables fails.
-/

namespace Dlos

open Program Bytes Slot

/-! ## The requests that stop FS -/

/-- The inode that a name leads to is not in the table, and the table is full. -/
def Fs.TableFull (s : Fs) (path : List Byte) : Prop := s.searched s.geoSize s.rootSlots path ≠ 0 ∧
  ∀ q, (s.inodeTable q).cached ∧ (s.inodeTable q).iNum ≠ s.searched s.geoSize s.rootSlots path

/-- OPEN: the name cannot be read, the process has `NR_FILES` open files, all descriptors are in use, or the
file is neither created nor opened for reading and writing. A new file needs an inode and sectors, and a file
that is there a slot of the inode table. -/
inductive OpenPanics (s : Fs) : Prop
  | path : (∀ path, fetchPathname s ≠ .ok path s) → OpenPanics s
  | file : (∀ i, s.filp s.pcaller i ≠ none) → OpenPanics s
  | desc : (∀ d, (s.fDescTable d).fdInode ≠ none) → OpenPanics s
  | flags : ¬hasFlag s.fsMsg.flags oCreat → ¬hasFlag s.fsMsg.flags oRdwr → OpenPanics s
  | room {path : List Byte} : fetchPathname s = .ok path s → hasFlag s.fsMsg.flags oCreat →
    s.searched s.geoSize s.rootSlots path = 0 → stripName path ≠ none → NoRoom s.geoSize s → OpenPanics s
  | table {path : List Byte} : fetchPathname s = .ok path s → ¬hasFlag s.fsMsg.flags oCreat → s.TableFull path →
    OpenPanics s

/-- READ and WRITE: no file is open, or the TTY task answers with another length. -/
inductive RwPanics (s : Fs) : Prop
  | fd : s.openDesc s.pcaller s.fsMsg.fd = none → RwPanics s
  | terminal {d : Fin nrFileDesc} {q : Fin nrInode} : s.openDesc s.pcaller s.fsMsg.fd = some d →
    hasFlag (s.fDescTable d).fdMode oRdwr → (s.fDescTable d).fdInode = some q →
    (s.inodeTable q).iMode = iCharSpecial → (s.ttyReply (s.toDriver (s.inodeTable q))).cnt ≠ s.fsMsg.cnt → RwPanics s

/-- UNLINK: the name cannot be read, or its inode needs a slot of the inode table. -/
inductive UnlinkPanics (s : Fs) : Prop
  | path : (∀ path, fetchPathname s ≠ .ok path s) → UnlinkPanics s
  | table {path : List Byte} : fetchPathname s = .ok path s → strcmp path [slash] ≠ 0 → s.TableFull path →
    UnlinkPanics s

/-- A message that FS has received stops it. FORK has a request of its own. -/
def Fs.ServePanics (s : Fs) : Prop :=
  if s.fsMsg.type = MsgType.openFile then OpenPanics s
  else if s.fsMsg.type = MsgType.close then s.openDesc s.pcaller s.fsMsg.fd = none
  else if s.fsMsg.type = MsgType.read ∨ s.fsMsg.type = MsgType.write then RwPanics s
  else if s.fsMsg.type = MsgType.unlink then UnlinkPanics s
  else if s.fsMsg.type = MsgType.resumeProc then False
  else if s.fsMsg.type = MsgType.exit then pidOf s.fsMsg.pid = none
  else True

/-- A request stops FS. The first one for the log does when sectors of the log are in use. -/
def Fs.Panics (s : Fs) (e : FsEvent) : Prop :=
  match e.request with
  | .message m => ∀ pid, pidOf m.source = some pid → (s.withMessage e pid m).ServePanics
  | .log _ => s.logPos = 0 ∧ ¬AllBits s.disk (4096 * 3 + logSect s.geoSize) false nrSectsForLog
  | .fork _ _ _ => False

section

variable {size : BitVec 32} {n m : Nat} {p q : Fin nrInode} {extra : Fin nrInode → Int} {s t u : Fs}
  {d : Fin nrFileDesc} {pid : Pid} {path path' : List Byte} {e : FsEvent} {E : Halt → Fs → Prop} {r : Int}

/-! ## Inodes -/

theorem Record.Kind.openable {i : Inode} (h : i.record.Kind) : i.Openable := by
  have hmode : i.iMode = i.record.mode := rfl
  have hstart : i.iStartSect = i.record.start := rfl
  rw [Inode.Openable, hmode, hstart]
  cases h with
  | regular hmode =>
    rw [hmode, if_neg (by decide), if_neg (by decide)]
  | terminal hmode hmajor =>
    rw [hmode, if_pos (by decide)]
    exact hmajor

namespace Coherent

/-- Everything in the inode table can be opened. -/
theorem openable (h : Coherent size n p s) (hc : (s.inodeTable q).cached) : (s.inodeTable q).Openable := by
  by_cases hqp : q = p
  · rw [hqp, Inode.Openable, h.dir.iMode, if_neg (by decide), if_pos (by decide)]
    exact h.dir.iNum
  · obtain ⟨m, hm⟩ := h.cache.current q hqp hc
    have hkind := h.kind m hm.two_le hm.imap
    rw [hm.record] at hkind
    exact hkind.openable

/-- An inode that is in use has a place on the disk, so that it can be taken unless the table is full. -/
theorem tableFull_of_noInode (h : Coherent size n p s) (hne : s.searched size n path ≠ 0)
    (hno : NoInode s (s.searched size n path)) : s.TableFull path := by
  obtain ⟨x, hx, hpos, -⟩ := h.searched_eq.resolve_left hne
  rw [Fs.TableFull, h.geoSize, h.dir.rootSlots]
  refine ⟨hne, fun q => ?_⟩
  rcases hno.full with hall | hoff
  · exact ⟨hall q, hno.unread q (hall q) (h.iDev_of_cached (hall q))⟩
  · rw [hx, inodeOff_natCast hpos] at hoff
    omega

/-- The inode that a name leads to was taken. -/
theorem not_tableFull (h : Coherent size n p s) (hgot : Got size s (s.searched size n path) q t) :
    ¬s.TableFull path := by
  rw [Fs.TableFull, h.geoSize, h.dir.rootSlots]
  rintro ⟨-, hfull⟩
  cases hgot with
  | counted _ _ hnum => exact (hfull q).2 hnum
  | read hfree => exact hfree (hfull q).1

end Coherent

/-- A name can be read in one way. -/
theorem path_unique (h : fetchPathname s = .ok path s) (h' : fetchPathname s = .ok path' s) : path = path' :=
  (EStateM.Result.ok.inj (h.symm.trans h')).1

namespace Consistent

theorem fdInode_of_openDesc {fd : Int} (h : Consistent size n p extra s) (hd : s.openDesc pid fd = some d) :
    ∃ q, (s.fDescTable d).fdInode = some q := by
  obtain ⟨i, -, hd⟩ := exists_of_openDesc hd
  exact h.fdInode_of_filp hd

theorem got_cached (h : Consistent size n p extra s) (hmore : OneMore s q t) : (t.inodeTable q).cached := by
  have hcnt := hmore.iCnt q
  have hnonneg := h.cnt_nonneg (q := q)
  simp only [if_true] at hcnt
  rw [Inode.cached]
  omega

/-! ## OPEN -/

theorem openPanics_of_openStops (h : Consistent size n p extra s) (hstop : OpenStops size n s) : OpenPanics s := by
  cases hstop with
  | path hno => exact .path hno
  | file hfull => exact .file hfull
  | desc hfull => exact .desc hfull
  | inode hpath hfails =>
    cases hfails with
    | create hcreat hzero hname hroom =>
      rw [← h.geoSize, ← h.dir.rootSlots] at hzero
      rw [← h.geoSize] at hroom
      exact .room hpath hcreat hzero hname hroom
    | readOnly hcreat hrdwr => exact .flags hcreat hrdwr
    | noInode hcreat _ hne hno => exact .table hpath hcreat (h.tableFull_of_noInode hne hno)
  | kind hpath _ hne hgot hno =>
    obtain ⟨x, hx, hpos, himap⟩ := h.searched_eq.resolve_left hne
    rw [hx] at hgot
    obtain ⟨ht, hmore⟩ := h.got hpos himap hgot
    exact absurd (ht.openable (h.got_cached hmore)) hno

/-- A file that was created had room. -/
theorem not_noRoom {name : List Byte} {x b k : Nat} (h : Coherent size n p s)
    (hu : FileCreated size n p s name x b k q u) : ¬NoRoom size s := by
  rintro (hfull | hno | hall)
  · have hlt := hu.free.lt
    exact Bool.false_ne_true (hu.free.clear.symm.trans (hfull _ (by omega) (by omega)))
  · exact hno b hu.first hu.room hu.clear
  · cases hu.chosen with
    | free hfree => exact hfree (hall q)
    | cached hc _ hnum =>
      -- an inode in the table is in use, and `x` was not
      obtain ⟨m, hm⟩ := h.cache.current q hu.ne hc
      obtain rfl : m = x := Int.ofNat.inj (hm.num.symm.trans hnum)
      exact Bool.false_ne_true ((Coherent.imap_eq_false hu.free.clear).symm.trans hm.imap)

/-- The place of an open file was free. -/
theorem not_openPanics (h : Consistent size n p extra s) (hu : Opened size n p s r u) : ¬OpenPanics s := by
  have hplace {i : Fin nrFiles} {d : Fin nrFileDesc} (hp : OpenPlace s i d) :
      s.filp s.pcaller i = none ∧ (s.fDescTable d).fdInode = none :=
    ⟨of_decide_eq_true (List.find?_some hp.file :), of_decide_eq_true (List.find?_some hp.desc :)⟩
  intro hpanics
  cases hu with
  | refused hpath hp hno =>
    cases hpanics with
    | path hnone => exact hnone _ hpath
    | file hfull => exact hfull _ (hplace hp).1
    | desc hfull => exact hfull _ (hplace hp).2
    | flags hcreat hrdwr => exact hno.allowed.elim hcreat hrdwr
    | room hpath' hcreat hzero hname =>
      obtain rfl := path_unique hpath hpath'
      rw [h.geoSize, h.dir.rootSlots] at hzero
      exact (hno.create hcreat).elim (fun hne => hne hzero) hname
    | table hpath' hcreat hfull =>
      obtain rfl := path_unique hpath hpath'
      rw [Fs.TableFull, h.geoSize, h.dir.rootSlots] at hfull
      exact hfull.1 (hno.found hcreat)
  | found hpath hp hcreat hrdwr _ hgot =>
    cases hpanics with
    | path hnone => exact hnone _ hpath
    | file hfull => exact hfull _ (hplace hp).1
    | desc hfull => exact hfull _ (hplace hp).2
    | flags _ hno => exact hno hrdwr
    | room _ hyes => exact hcreat hyes
    | table hpath' _ hfull =>
      obtain rfl := path_unique hpath hpath'
      exact h.not_tableFull hgot hfull
  | created hpath hp hcreat _ _ _ hu =>
    cases hpanics with
    | path hnone => exact hnone _ hpath
    | file hfull => exact hfull _ (hplace hp).1
    | desc hfull => exact hfull _ (hplace hp).2
    | flags hno => exact hno hcreat
    | room _ _ _ _ hroom => exact not_noRoom h.toCoherent hu (h.geoSize ▸ hroom)
    | table _ hno => exact hno hcreat

/-- `do_open` ends unless it panics, and it does not end when it panics. -/
theorem wp_doOpen_panics (h : Consistent size n p extra s) :
    wp doOpen (fun _ _ => ¬OpenPanics s) (fun _ _ => OpenPanics s) s :=
  wp_doOpen h.dir h.creatable (fun _ _ => h.not_openPanics) fun hstop _ _ => h.openPanics_of_openStops hstop

/-! ## CLOSE, READ and WRITE -/

theorem wp_doClose_panics (h : Consistent size n p extra s) :
    wp doClose (fun _ _ => s.openDesc s.pcaller s.fsMsg.fd ≠ none)
      (fun _ _ => s.openDesc s.pcaller s.fsMsg.fd = none) s := by
  cases hd : s.openDesc s.pcaller s.fsMsg.fd with
  | none =>
    rw [doClose, wp_bind, wp_get, wp_bind, filpIndex]
    split
    case isFalse => rfl
    case isTrue hfd =>
      have hnone : s.filp s.pcaller ⟨s.fsMsg.fd.toNat, toNat_lt hfd⟩ = none := by
        rw [← hd, Fs.openDesc, dif_pos hfd]
      rw [wp_pure, wp_bind, hnone]
      rfl
  | some d =>
    obtain ⟨q, hq⟩ := h.fdInode_of_openDesc hd
    have hc := h.cached_of_desc hq
    have hnonneg := h.cnt_nonneg (q := q)
    rw [Inode.cached] at hc
    exact ((wp_doClose_iff rfl).mpr ⟨d, hd, q, hq, by omega⟩).mono (fun _ _ _ => Option.some_ne_none d)
      fun _ _ => False.elim

/-- What `do_rdwt` relies on holds of what is open. -/
theorem rwStops_iff (h : Consistent size n p extra s) : RwStops s ↔ RwPanics s := by
  constructor
  · rintro (hno | ⟨hd, -, hno⟩ | @⟨d, q, hd, hflag, hq, hchar, hno⟩)
    · exact .fd hno
    · obtain ⟨q, hq⟩ := h.fdInode_of_openDesc hd
      exact absurd (hq.symm.trans hno) (Option.some_ne_none q)
    · have hqp : q ≠ p := by
        rintro rfl
        rw [h.dir.iMode] at hchar
        exact absurd hchar (by decide)
      obtain ⟨x, hx⟩ := h.cache.current q hqp (h.cached_of_desc hq)
      have hkind := h.kind x hx.two_le hx.imap
      rw [hx.record] at hkind
      cases hkind with
      | regular hmode =>
        rw [show (s.inodeTable q).iMode = iRegular from hmode] at hchar
        exact absurd hchar (by decide)
      | terminal hmode hmajor => exact .terminal hd hflag hq hmode fun hcnt => hno ⟨hmajor, hcnt⟩
  · rintro (hno | ⟨hd, hflag, hq, hmode, hcnt⟩)
    · exact .notOpen hno
    · refine .terminal hd hflag hq ?_ fun hanswer => hcnt hanswer.2
      rw [hmode]
      decide

theorem wp_doRdwt_panics (h : Consistent size n p extra s) (hpid : pidOf s.fsMsg.source = some s.pcaller)
    (htype : s.fsMsg.type = MsgType.read ∨ s.fsMsg.type = MsgType.write) (hin : s.StaysWithin) :
    wp doRdwt (fun _ _ => ¬RwPanics s) (fun _ _ => RwPanics s) s := by
  rw [← h.rwStops_iff]
  refine wp_doRdwt_of (fun hno _ _ => hno) (fun hno d q hopen hd hflag hchar => ?_) fun hstop _ _ => hstop
  obtain ⟨buf, pos, len, hrange⟩ := hin d q hopen hd hflag hchar
  obtain ⟨num, hw⟩ := h.withinFile hpid htype hopen hd hrange
  rw [hrange.cnt]
  exact hw.wp_rwFile_moved fun _ _ => hno

/-! ## UNLINK -/

/-- What is removed has its bits and an entry. -/
theorem wp_removeFile_goesOn (h : Coherent size n p s)
    (hnamed : Named (diskTables size s.disk) (dirSlots s.disk (dirAddr size)) n) (hqp : q ≠ p)
    (hm : (s.inodeTable q).Current (diskTables size s.disk) m) (hcnt : (s.inodeTable q).iCnt = 1)
    (hmode : (s.inodeTable q).iMode = iRegular) :
    wp (removeFile p q m) (fun _ _ => True) (fun _ _ => False) s := by
  have htwo := hm.two_le
  have hlt := h.imap_lt hm.imap
  have hmode' : ((diskTables size s.disk).record m).mode = iRegular := by
    rw [hm.record]
    exact hmode
  obtain ⟨b, hb, hin⟩ := h.exists_bits hm.two_le hm.imap hmode'
  have hbit : bit s.disk (4096 * 2 + m) = true := by
    have himap := hm.imap
    simp only [diskTables, Bool.and_eq_true] at himap
    exact himap.2
  have hall : AllBits s.disk (4096 * 3 + b) true nrDefaultFileSects := by
    intro j hj hj'
    have hset := h.volume.set_of_live ⟨hm.imap, .inr ⟨htwo, hmode'⟩⟩ hin
      (mem_bitRange.mpr (show b ≤ j - 4096 * 3 ∧ j - 4096 * 3 < b + nrDefaultFileSects by omega))
    simp only [diskTables, Bool.and_eq_true, Nat.add_sub_cancel' (show 4096 * 3 ≤ j by omega)] at hset
    exact hset.2
  refine h.dir.wp_removeFile hqp hm.dev hm.num hcnt htwo hlt (fun _ => hm.record ▸ hin)
    (fun _ _ _ _ _ _ => trivial) (fun _ _ hnone => ?_) fun hno => ?_
  · obtain ⟨k, hk, hval⟩ := hnamed.onto m (by omega) hm.imap
    exact absurd hval (first_eq_none.mp hnone k hk)
  · rcases hno with hclear | hno
    · exact absurd (hclear.symm.trans hbit) Bool.false_ne_true
    · exact absurd hall hno

theorem wp_unlinkInode_goesOn (h : Consistent size n p extra s)
    (hnamed : Named (diskTables size s.disk) (dirSlots s.disk (dirAddr size)) n)
    (hE : s.TableFull path → ∀ e t, E e t) :
    wp (unlinkInode path (s.searched size n path)) (fun _ _ => True) E s := by
  rw [unlinkInode, wp_ite]
  refine ⟨fun _ => trivial, fun hne => ?_⟩
  rw [wp_bind, stripPath, wp_bind, wp_get, wp_pure]
  cases stripName path with
  | none => trivial
  | some name =>
    rw [Option.map_some, h.dir.rootInode, wp_bind, wp_deref_some, wp_bind, wp_get, wp_bind, h.dir.iDev]
    refine wp_got h.dir.super (fun hzero => absurd hzero hne) (fun _ q u hu => ?_)
      fun _ hno => hE (h.tableFull_of_noInode hne hno)
    obtain ⟨x, hx, hpos, himap⟩ := h.searched_eq.resolve_left hne
    rw [hx] at hu ⊢
    obtain ⟨hcoherent, hmore⟩ := h.got hpos himap hu
    have hdisk : u.disk = s.disk := hu.disk
    rw [wp_bind, wp_deref_some, wp_bind, wp_get, wp_ite, wp_ite]
    refine ⟨fun _ => trivial, fun hmode => ⟨fun _ => trivial, fun hcnt => ?_⟩⟩
    have hmode : (u.inodeTable q).iMode = iRegular := not_not.mp hmode
    have hqp : q ≠ p := by
      rintro rfl
      exact absurd (hmode.symm.trans hcoherent.dir.iMode) (by decide)
    obtain ⟨m, hm⟩ := hcoherent.cache.current q hqp (h.got_cached hmore)
    obtain rfl : m = x := Int.ofNat.inj (hm.num.symm.trans hu.iNum)
    have hone : (u.inodeTable q).iCnt = 1 := by
      have hq := hmore.iCnt q
      have hnonneg := h.cnt_nonneg (q := q)
      simp only [if_true] at hq
      simp only [gt_iff_lt, not_lt] at hcnt
      omega
    rw [wp_bind]
    rw [← hdisk] at hnamed
    exact (wp_removeFile_goesOn hcoherent hnamed hqp hm hone hmode).mono (fun _ _ _ => trivial) fun _ _ => False.elim

theorem wp_doUnlink_goesOn (h : Consistent size n p extra s)
    (hnamed : Named (diskTables size s.disk) (dirSlots s.disk (dirAddr size)) n) :
    wp doUnlink (fun _ _ => True) (fun _ _ => UnlinkPanics s) s := by
  rw [doUnlink_eq, wp_bind]
  by_cases hfetch : ∃ path, fetchPathname s = .ok path s
  · obtain ⟨path, hfetch⟩ := hfetch
    rw [wp_of_ok hfetch, wp_ite]
    refine ⟨fun _ => trivial, fun hroot => ?_⟩
    rw [wp_bind]
    refine h.dir.wp_search fun M => ?_
    have hio : Consistent size n p extra (s.io s.disk M) := h.sound_of rfl rfl rfl rfl rfl rfl rfl rfl
    exact hio.wp_unlinkInode_goesOn hnamed fun hfull _ _ => .table hfetch hroot hfull
  · exact wp_fetchPathname (fun path hok => absurd ⟨path, hok⟩ hfetch)
      fun _ _ => .path fun path hok => hfetch ⟨path, hok⟩

theorem not_unlinkPanics (h : Consistent size n p extra s) (hu : Unlinked size n p s r u) : ¬UnlinkPanics s := by
  intro hpanics
  cases hu with
  | same hpath hno =>
    cases hpanics with
    | path hnone => exact hnone _ hpath
    | table hpath' hroot hfull =>
      obtain rfl := path_unique hpath hpath'
      rw [Fs.TableFull, h.geoSize, h.dir.rootSlots] at hfull
      exact hno.elim hroot hfull.1
  | refused hpath _ hgot =>
    cases hpanics with
    | path hnone => exact hnone _ hpath
    | table hpath' _ hfull =>
      obtain rfl := path_unique hpath hpath'
      exact h.not_tableFull hgot hfull
  | removed hfile _ _ hq =>
    cases hpanics with
    | path hnone => exact hnone _ hfile.fetched
    | table _ _ hfull => exact hq.free (hfull.2 _).1

theorem wp_doUnlink_panics (h : Consistent size n p extra s)
    (hnamed : Named (diskTables size s.disk) (dirSlots s.disk (dirAddr size)) n) :
    wp doUnlink (fun _ _ => ¬UnlinkPanics s) (fun _ _ => UnlinkPanics s) s :=
  ((wp_doUnlink h.dir h.filesInMap).and (h.wp_doUnlink_goesOn hnamed)).mono
    (fun _ _ hu => h.not_unlinkPanics hu.1) fun _ _ hE => hE.2

/-! ## EXIT and FORK -/

theorem wp_fsExit_panics (h : Consistent size n p extra s) :
    wp fsExit (fun _ _ => pidOf s.fsMsg.pid ≠ none) (fun _ _ => pidOf s.fsMsg.pid = none) s := by
  refine (wp_fsExit (I := Consistent size n p extra) (fun t pid fd d q ht hd hq => ht.dropped hd hq) h
    (fun t pid fd d ht hd hnone => ?_) fun hno _ _ => hno).imp fun _ _ hu => ?_
  · obtain ⟨q, hq⟩ := ht.fdInode_of_filp hd
    exact absurd (hq.symm.trans hnone) (Option.some_ne_none q)
  · obtain ⟨-, -, pid, hpid, -⟩ := hu
    simp [hpid]

/-- What the child of a process has open is open in the process. -/
theorem wp_fsFork_goesOn {parent child : Pid} {T : Pid → Proc} (h : Consistent size n p extra s) :
    wp fsFork (fun _ _ => True) (fun _ _ => False) (s.forking e parent child T) := by
  have hchild : pidOf (s.forking e parent child T).fsMsg.pid = some child := pidOf_val
  refine (wp_fsFork (I := fun t => ∀ d, (t.fDescTable d).fdInode = (s.fDescTable d).fdInode) hchild
    (fun t d q ht hq d' => ?_) (fun _ => rfl) fun t i d ht hd hnone => ?_).imp fun _ _ _ => trivial
  · rw [← ht d', Fs.shared]
    by_cases hd : d' = d
    · simp [hd, Fs.setDesc, Fs.setInode]
    · simp [hd, Fs.setDesc, Fs.setInode]
  · have hparent : s.filp parent i = some d := by
      rw [← hd]
      exact (congrFun (Function.update_self child (s.filp parent) s.filp) i).symm
    obtain ⟨q, hq⟩ := h.fdInode_of_filp hparent
    rw [ht d] at hnone
    exact absurd (hq.symm.trans hnone) (Option.some_ne_none q)

/-! ## A request -/

/-- A message of a process. -/
theorem wp_serve_panics {m : Message} (h : Consistent size n p extra s)
    (hnamed : Named (diskTables size s.disk) (dirSlots s.disk (dirAddr size)) n) (hpid : pidOf m.source = some pid)
    (hfork : m.type ≠ MsgType.fork)
    (hin : m.type = MsgType.read ∨ m.type = MsgType.write → (s.withMessage e pid m).StaysWithin) :
    wp (serve m) (fun _ _ => ¬(s.withMessage e pid m).ServePanics) (fun _ _ => (s.withMessage e pid m).ServePanics)
      (s.meeting e) := by
  have hs : Consistent size n p extra (s.withMessage e pid m) := h.withMessage
  have htype : (s.withMessage e pid m).fsMsg.type = m.type := rfl
  rw [Dlos.wp_serve hpid]
  change wp _ _ _ (s.withMessage e pid m)
  simp only [wp_ite, wp_answer_iff, Fs.ServePanics, htype]
  refine ⟨fun hopen => ?_, fun hopen => ⟨fun hclose => ?_, fun hclose => ⟨fun hrw => ?_, fun hrw =>
    ⟨fun hunlink => ?_, fun hunlink => ⟨fun hresume => ?_, fun hresume => ⟨fun h => absurd h hfork, fun _ =>
      ⟨fun hexit => ?_, fun hexit => ?_⟩⟩⟩⟩⟩⟩⟩
  · simp only [if_pos hopen]
    exact hs.wp_doOpen_panics
  · simp only [if_neg hopen, if_pos hclose]
    exact hs.wp_doClose_panics
  · simp only [if_neg hopen, if_neg hclose, if_pos hrw]
    exact hs.wp_doRdwt_panics hpid hrw (hin hrw)
  · simp only [if_neg hopen, if_neg hclose, if_neg hrw, if_pos hunlink]
    exact hs.wp_doUnlink_panics hnamed
  · simp only [if_neg hopen, if_neg hclose, if_neg hrw, if_neg hunlink, if_pos hresume]
    exact not_false
  · simp only [if_neg hopen, if_neg hclose, if_neg hrw, if_neg hunlink, if_neg hresume, if_pos hexit]
    exact hs.wp_fsExit_panics
  · simp [hopen, hclose, hrw, hunlink, hresume, hexit]

theorem wp_panics (h : Consistent size n p extra s)
    (hnamed : Named (diskTables size s.disk) (dirSlots s.disk (dirAddr size)) n) (he : s.Allows e) :
    wp e.request.run (fun _ _ => ¬s.Panics e) (fun _ _ => s.Panics e) (s.meeting e) := by
  rw [Fs.Allows] at he
  rw [Fs.Panics]
  cases hrequest : e.request with
  | message m =>
    rw [hrequest] at he
    change wp (serve m) _ _ _
    cases hpid : pidOf m.source with
    | none =>
      rw [serve, wp_bind, procAt, hpid]
      exact fun pid hno => absurd (hno.symm.trans hpid) (Option.some_ne_none pid)
    | some pid =>
      refine (h.wp_serve_panics (e := e) hnamed hpid he.1 (he.2 pid hpid).2).mono (fun _ _ hno hall => ?_)
        fun _ _ hpanics pid' hpid' => ?_
      · exact hno (hall pid hpid)
      · obtain rfl := Option.some.inj (hpid.symm.trans hpid')
        exact hpanics
  | log str =>
    rw [hrequest] at he
    have hsize : HasLog size := h.geoSize ▸ he.hasLog
    have hfits := he.fits
    rw [h.geoSize] at hfits
    rw [h.geoSize]
    refine wp_bind.mpr (wp_disklog_written ⟨h.meeting.dir.super, p, h.meeting.dir.rootInode, h.meeting.dir.iDev⟩
      hsize h.meeting.logPos hfits (fun r u hu hpanics => ?_) fun hzero hset _ _ => ⟨hzero, hset⟩)
    exact hpanics.2 (hu.clear hpanics.1)
  | fork parent child base =>
    have hsrc : pidOf (forkMessage child).source = some taskMm := pidOf_val
    have htype : (forkMessage child).type = MsgType.fork := rfl
    rw [Request.run, wp_bind, copyProc, wp_modify, Dlos.wp_serve hsrc, htype, if_neg (by decide),
      if_neg (by decide), if_neg (by decide), if_neg (by decide), if_neg (by decide), if_pos rfl, wp_answer_iff]
    exact h.wp_fsFork_goesOn.mono (fun _ _ _ hno => hno) fun _ _ => False.elim

end Consistent

/-- In every run these requests stop FS, and no others. -/
theorem panics_iff (h : newMachine.Reached Fs.AllowsCompact s none) (he : s.Allows e) :
    (newMachine.step e s).2 ≠ none ↔ s.Panics e := by
  obtain ⟨hwell, n, p, extra, hs⟩ := wellNamed_of_reached h
  refine exec_of_wp (x := e.request.run) (P := fun _ o => o ≠ none ↔ s.Panics e) ?_
  refine (hs.wp_panics (hs.wellNamed_iff.mp hwell) he).mono (fun _ _ hno => ?_) fun e _ hpanics => ?_
  · simp [hno]
  · simp [hpanics]

theorem panics_iff_createA : (newMachine.step createA startedFs).2 ≠ none ↔ startedFs.Panics createA :=
  panics_iff (.start initial_startedFs) allowsCompact_createA.1

end

end Dlos
