import Mathlib.Logic.Relation
import Dlos.Fs.Invariant

/-!
# What a request leads to

`Allows` bounds the requests of a run: names that fit into a directory entry, transfers that stay within
their files, a log that ends on the partition, forks into free slots. In a consistent file system such a
request leads to one of the states of `Served`.
-/

namespace Dlos

open Program Bytes Slot

/-! ## Requests within their bounds -/

/-- The name of a new file fits into its slot, with the 0 behind it. -/
def Fs.NameFits (s : Fs) : Prop := ∀ path name, fetchPathname s = .ok path s → stripName path = some name →
  hasFlag s.fsMsg.flags oCreat → name.length < maxFilenameLen

/-- A READ or a WRITE that is not for a terminal stays within a regular file. -/
def Fs.StaysWithin (s : Fs) : Prop := ∀ d q, s.openDesc s.pcaller s.fsMsg.fd = some d →
  (s.fDescTable d).fdInode = some q → hasFlag (s.fDescTable d).fdMode oRdwr →
  (s.inodeTable q).iMode &&& iTypeMask ≠ iCharSpecial → ∃ buf pos len, FileRange s s.pcaller d q buf pos len

/-- The partition has room for a log, and the text ends where sectors can be addressed. -/
structure Fs.LogFits (s : Fs) (p : List Byte) : Prop where
  hasLog : HasLog s.geoSize
  fits : 512 * (logSect s.geoSize : Int) + max s.logPos 0x40 + p.length ≤ 512 * 2 ^ 23

/-- The state in which a request is served. -/
def Fs.meeting (s : Fs) (e : FsEvent) : Fs := { s with mem := e.mem, ttyReply := e.tty }

/-- The state in which a message is served. -/
def Fs.withMessage (s : Fs) (e : FsEvent) (pid : Pid) (m : Message) : Fs := (s.meeting e).received pid m

/-- The requests that keep within their bounds. FORK is sent by `do_fork` alone, for a slot of the process
table that was free. -/
def Fs.Allows (s : Fs) (e : FsEvent) : Prop :=
  match e.request with
  | .message m => m.type ≠ MsgType.fork ∧ ∀ pid, pidOf m.source = some pid →
      (m.type = MsgType.openFile → (s.withMessage e pid m).NameFits) ∧
      (m.type = MsgType.read ∨ m.type = MsgType.write → (s.withMessage e pid m).StaysWithin)
  | .log p => s.LogFits p
  | .fork _ child _ => ∀ i, s.filp child i = none

/-! ## What they lead to -/

/-- A process gives a descriptor up. -/
inductive Fs.Drops (s : Fs) : Fs → Prop
  | of {pid : Pid} {fd : Fin nrFiles} {d : Fin nrFileDesc} {q : Fin nrInode} : s.filp pid fd = some d →
    (s.fDescTable d).fdInode = some q → Drops s (s.dropped pid fd d q)

/-- A descriptor is counted once more. -/
inductive Fs.Shares (s : Fs) : Fs → Prop
  | of {d : Fin nrFileDesc} {q : Fin nrInode} : (s.fDescTable d).fdInode = some q → Shares s (s.shared d q)

/-- The answer is put into the message. -/
def Fs.answered (s : Fs) (put : Message → Int → Message) (r : Int) : Fs := { s with fsMsg := put s.fsMsg r }

/-- A child has the open files of its parent, and its message is served. -/
def Fs.forking (s : Fs) (e : FsEvent) (parent child : Pid) (T : Pid → Proc) : Fs :=
  Fs.received { s.meeting e with procTable := T, filp := Function.update s.filp child (s.filp parent) }
    taskMm (forkMessage child)

/-- The request is a message of process `pid`. -/
structure FsEvent.Asks (e : FsEvent) (pid : Pid) (m : Message) : Prop where
  request : e.request = .message m
  source : pidOf m.source = some pid

/-- The states to which a request leads. -/
inductive Fs.Served (size : BitVec 32) (n : Nat) (p : Fin nrInode) (s : Fs) (e : FsEvent) : Fs → Prop
  | opened {pid : Pid} {m : Message} {r : Int} {u : Fs} : e.Asks pid m → m.type = MsgType.openFile →
    Opened size n p (s.withMessage e pid m) r u → Served size n p s e (u.answered setFd r)
  | closed {pid : Pid} {m : Message} {u : Fs} : e.Asks pid m → m.type = MsgType.close →
    (s.withMessage e pid m).Drops u → Served size n p s e (u.answered setRetval 0)
  | moved {pid : Pid} {m : Message} {d : Fin nrFileDesc} {q : Fin nrInode} {num buf pos len : Nat} {u : Fs} :
    e.Asks pid m → (s.withMessage e pid m).openDesc pid m.fd = some d →
    WithinFile size (s.withMessage e pid m) pid d q num buf pos len →
    RangeMoved size (s.withMessage e pid m) d q num pos len ((s.withMessage e pid m).written pid buf len) u →
    Served size n p s e (u.answered setCnt len)
  /-- A READ or a WRITE for a terminal, or one through a descriptor that does not allow it. -/
  | passed {pid : Pid} {m m' : Message} : e.Asks pid m → m.type = MsgType.read ∨ m.type = MsgType.write →
    Served size n p s e { s.withMessage e pid m with fsMsg := m' }
  | unlinked {pid : Pid} {m : Message} {r : Int} {u : Fs} : e.Asks pid m → m.type = MsgType.unlink →
    Unlinked size n p (s.withMessage e pid m) r u → Served size n p s e (u.answered setRetval r)
  | resumed {pid : Pid} {m : Message} : e.Asks pid m → m.type = MsgType.resumeProc →
    Served size n p s e (s.withMessage e pid m)
  | exited {pid pid' : Pid} {m : Message} {u : Fs} : e.Asks pid m → m.type = MsgType.exit →
    Relation.ReflTransGen Fs.Drops (s.withMessage e pid m) u → pidOf m.pid = some pid' →
    (∀ i, u.filp pid' i = none) → Served size n p s e (u.answered setRetval 0)
  | logged {str : List Byte} {u : Fs} : e.request = .log str → LogWritten size (s.meeting e) u →
    Served size n p s e u
  | forked {parent child : Pid} {base : Addr} {T : Pid → Proc} {u : Fs} :
    e.request = .fork parent child base →
    Relation.ReflTransGen Fs.Shares (s.forking e parent child T) u → u.filp = (s.forking e parent child T).filp →
    (∀ extra, (s.forking e parent child T).Counts (pending (s.forking e parent child T).held child []) extra →
      u.Counts u.held extra) → Served size n p s e (u.answered setRetval 0)

section

variable {size : BitVec 32} {n : Nat} {p q : Fin nrInode} {extra : Fin nrInode → Int} {s u : Fs} {e : FsEvent}
  {d : Fin nrFileDesc} {pid : Pid} {m : Message}

/-! ## Serving a request -/

namespace Coherent

/-- The tables have what `create_file` relies on. -/
theorem creatable (h : Coherent size n p s) : Creatable size n s where
  le := by
    have := h.le
    omega
  zero := by
    have := h.volume.reserved
    simp only [diskTables, Bool.and_eq_true] at this
    exact this.2
  one := by
    have := h.volume.root
    simp only [diskTables, Bool.and_eq_true] at this
    exact this.2
  first b hb := by
    have hle : firstSect size ≤ 2 ^ 20 + 259 := firstSect_le
    have hfull : b ≤ 4098 * 2048 := h.volume.full_le fun j hj => by
      have hlt := hb.lt
      have hbit := hb.below (4096 * 3 + j) (by omega) (by omega)
      simp only [diskTables, hbit, Bool.and_true, decide_eq_true_eq]
      omega
    have hpos : 1 ≤ b := by
      by_contra hzero
      have hclear := hb.clear
      obtain rfl : b = 0 := by omega
      have hset := h.volume.smap_zero
      simp only [diskTables, Bool.and_eq_true] at hset
      exact Bool.false_ne_true (hclear.symm.trans hset.2)
    intro hno
    have hone : (1 : BitVec 32).toNat = 1 := rfl
    have hofNat : (BitVec.ofNat 32 b).toNat = b := Nat.mod_eq_of_lt (by omega)
    have hsub : (BitVec.ofNat 32 b - 1).toNat = b - 1 := by
      rw [BitVec.toNat_sub_of_le (BitVec.le_def.mpr (by rw [hone, hofNat]; exact hpos)), hofNat, hone]
    have hnat := congrArg BitVec.toNat hno
    rw [bitSect, BitVec.toNat_add, hsub, toNat_n1stSect] at hnat
    have hfirst : firstSect size = nrSmap size + 259 := rfl
    change (b - 1 + firstSect size) % 2 ^ 32 = 0 at hnat
    omega

/-- The bits of the regular files are in the sector map. -/
theorem filesInMap (h : Coherent size n p s) (x : Nat) (h2 : 2 ≤ x) (hlt : x < 4096)
    (hset : bit s.disk (4096 * 2 + x) = true) (hmode : (recordAt s.disk (inodeAddr size x)).mode = iRegular) :
    ∃ b cnt, (recordAt s.disk (inodeAddr size x)).InMap size b cnt := by
  have hrecord : (diskTables size s.disk).record x = recordAt s.disk (inodeAddr size x) := if_pos ⟨by omega, hlt⟩
  rw [← hrecord] at hmode ⊢
  obtain ⟨b, hb⟩ := h.volume.inMap x h2 (by simp only [diskTables, hset, Bool.and_true, hlt, decide_true]) hmode
  exact ⟨b, _, hb⟩

end Coherent

namespace Consistent

/-- Other parts of the state have changed. -/
theorem sound_of (h : Consistent size n p extra s) (hdisk : u.disk = s.disk) (htable : u.inodeTable = s.inodeTable)
    (hroot : u.rootInode = s.rootInode) (hsuper : u.superBlock = s.superBlock) (hpos : u.logPos = s.logPos)
    (hgeo : u.geoSize = s.geoSize) (hdesc : u.fDescTable = s.fDescTable) (hfilp : u.filp = s.filp) :
    Consistent size n p extra u :=
  h.congr (h.toCoherent.congr hdisk htable hroot hsuper hpos hgeo) (fun q => by rw [htable])
    (fun d => by rw [hdesc]; exact ⟨rfl, rfl⟩) hfilp

theorem meeting (h : Consistent size n p extra s) : Consistent size n p extra (s.meeting e) :=
  h.sound_of rfl rfl rfl rfl rfl rfl rfl rfl

theorem withMessage (h : Consistent size n p extra s) : Consistent size n p extra (s.withMessage e pid m) :=
  h.sound_of rfl rfl rfl rfl rfl rfl rfl rfl

theorem answered {put : Message → Int → Message} {r : Int} (h : Consistent size n p extra s) :
    Consistent size n p extra (s.answered put r) := h.sound_of rfl rfl rfl rfl rfl rfl rfl rfl

/-- A request that stays within a file is one for a file that the tables describe. -/
theorem withinFile {buf pos len : Nat} (h : Consistent size n p extra s) (hpid : pidOf s.fsMsg.source = some s.pcaller)
    (htype : s.fsMsg.type = MsgType.read ∨ s.fsMsg.type = MsgType.write)
    (hopen : s.openDesc s.pcaller s.fsMsg.fd = some d) (hd : (s.fDescTable d).fdInode = some q)
    (hrange : FileRange s s.pcaller d q buf pos len) : ∃ m, WithinFile size s s.pcaller d q m buf pos len := by
  obtain ⟨m, hm, -, hsects⟩ := h.fileAddr_le pos (h.cached_of_desc hd) hrange.regular
  have hfile : nrDefaultFileSects = 2048 := rfl
  have hkind := h.kind m hm.two_le hm.imap
  have hsize : (s.inodeTable q).iSize.toNat ≤ 512 * nrDefaultFileSects := by
    rw [hm.record] at hkind
    cases hkind with
    | regular _ hsize => exact hsize
    | terminal hmode => exact absurd (hrange.regular.symm.trans hmode) (by decide)
  refine ⟨m, ⟨⟨hpid, rfl, exists_of_openDesc hopen, hd, .inl hrange.regular, hm.dev⟩, hrange, htype,
    ⟨hm.dev, ?_, by omega, by omega, hrange.sects⟩, h.dir.super, hm.num, h.imap_lt hm.imap⟩⟩
  rw [hm.num]
  have := hm.two_le
  omega

/-- A message that is not FORK. -/
theorem wp_serve (h : Consistent size n p extra s) (hrequest : e.request = .message m)
    (hfork : m.type ≠ MsgType.fork) (hin : ∀ pid, pidOf m.source = some pid →
      m.type = MsgType.read ∨ m.type = MsgType.write → (s.withMessage e pid m).StaysWithin) :
    wp (serve m) (fun _ => s.Served size n p e) (fun _ _ => True) (s.meeting e) := by
  cases hpid : pidOf m.source with
  | none =>
    rw [serve, wp_bind, procAt, hpid]
    trivial
  | some pid =>
    have hask : e.Asks pid m := ⟨hrequest, hpid⟩
    have hs : Consistent size n p extra (s.withMessage e pid m) := h.withMessage
    rw [Dlos.wp_serve hpid]
    change wp _ _ _ (s.withMessage e pid m)
    simp only [wp_ite, wp_answer_iff]
    refine ⟨fun hopen => ?_, fun _ => ⟨fun hclose => ?_, fun _ => ⟨fun hrw => ?_, fun _ => ⟨fun hunlink => ?_,
      fun _ => ⟨fun hresume => ?_, fun _ => ⟨fun hno => absurd hno hfork, fun _ => ⟨fun hexit => ?_,
        fun _ => trivial⟩⟩⟩⟩⟩⟩⟩
    · exact wp_doOpen hs.dir hs.creatable (fun r u hu => .opened hask hopen hu) fun _ _ _ => trivial
    · exact wp_doClose fun fd d q hd hq => .closed hask hclose (.of hd hq)
    · have hpassed (m' : Message) : s.Served size n p e { s.withMessage e pid m with fsMsg := m' } :=
        .passed hask hrw
      refine wp_doRdwt_of (fun _ r m' => hpassed (setCnt m' r)) (fun _ d q hopen hd hflag hchar => ?_)
        fun _ _ _ => trivial
      obtain ⟨buf, pos, len, hrange⟩ := hin pid hpid hrw d q hopen hd hflag hchar
      obtain ⟨num, hw⟩ := hs.withinFile hpid hrw hopen hd hrange
      rw [hrange.cnt]
      exact hw.wp_rwFile_moved fun u hu => .moved hask hopen hw hu
    · exact (wp_doUnlink hs.dir hs.filesInMap).imp fun r u hu => .unlinked hask hunlink hu
    · exact .resumed hask hresume
    · refine (wp_fsExit (I := Relation.ReflTransGen Fs.Drops (s.withMessage e pid m))
        (fun t pid fd d q ht hd hq => ht.tail (.of hd hq)) .refl (fun _ _ _ _ _ _ _ _ _ => trivial)
          fun _ _ _ => trivial).imp fun r u hu => ?_
      obtain ⟨rfl, hu, pid', hpid', hnone⟩ := hu
      exact .exited hask hexit hu hpid' hnone

theorem wp_served (h : Consistent size n p extra s) (he : s.Allows e) :
    wp e.request.run (fun _ => s.Served size n p e) (fun _ _ => True) (s.meeting e) := by
  rw [Fs.Allows] at he
  cases hrequest : e.request with
  | message m =>
    rw [hrequest] at he
    exact h.wp_serve hrequest he.1 fun pid hpid => (he.2 pid hpid).2
  | log str =>
    rw [hrequest] at he
    have hsize : HasLog size := h.geoSize ▸ he.hasLog
    have hfits := he.fits
    rw [h.geoSize] at hfits
    exact wp_bind.mpr (wp_disklog_written ⟨h.meeting.dir.super, p, h.meeting.dir.rootInode, h.meeting.dir.iDev⟩
      hsize h.meeting.logPos hfits (fun r u hu => .logged hrequest hu) fun _ _ _ _ => trivial)
  | fork parent child base =>
    have hsrc : pidOf (forkMessage child).source = some taskMm := pidOf_val
    have htype : (forkMessage child).type = MsgType.fork := rfl
    rw [Request.run, wp_bind, copyProc, wp_modify, Dlos.wp_serve hsrc, htype, if_neg (by decide),
      if_neg (by decide), if_neg (by decide), if_neg (by decide), if_neg (by decide), if_pos rfl, wp_answer_iff]
    refine (wp_fsFork (I := Relation.ReflTransGen Fs.Shares _) pidOf_val
      (fun t d q ht hq => ht.tail (.of hq)) .refl fun _ _ _ _ _ _ _ _ => trivial).imp fun r u hu => ?_
    obtain ⟨rfl, hu, hfilp, hcounts⟩ := hu
    exact .forked hrequest hu hfilp hcounts

end Consistent

end

end Dlos
