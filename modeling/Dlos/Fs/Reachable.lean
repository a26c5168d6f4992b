import Dlos.Fs.Served

/-!
# Runs of the file system

A run from a new file system whose requests keep within their bounds. What a request leads to is consistent
again, and so is every state of the run.
-/

namespace Dlos

open Program Bytes Slot

section

variable {size : BitVec 32} {n m : Nat} {p q : Fin nrInode} {extra : Fin nrInode → Int} {s t u : Fs}
  {d : Fin nrFileDesc} {pid : Pid} {r : Int}

/-! ## What the requests keep -/

namespace Consistent

/-- A new inode has the reference of the file that is opened. -/
theorem oneMore_created {name : List Byte} {x b k : Nat} (h : Consistent size n p extra s) (hx : 2 ≤ x)
    (hu : FileCreated size n p s name x b k q u) : OneMore s q u := by
  obtain ⟨D, M, tab, hrest⟩ := hu.rest
  obtain ⟨w, hw⟩ := hu.dirInode
  have hfree : (s.inodeTable q).iCnt = 0 := by
    cases hu.chosen with
    | free hfree => exact not_not.mp hfree
    | cached hc _ hnum =>
      obtain ⟨m, hm⟩ := h.cache.current q hu.ne hc
      obtain rfl : m = x := by
        have := hm.num.symm.trans hnum
        omega
      exact absurd ((Coherent.imap_eq_false hu.free.clear).symm.trans hm.imap) Bool.false_ne_true
  refine ⟨fun q' => ?_, by rw [hrest], by rw [hrest]⟩
  split_ifs with hq
  · rw [hq, hu.inode, hfree]
    rfl
  · by_cases hp : q' = p
    · rw [hp, hw]
    · rw [hu.others q' hq hp]

theorem of_opened (h : Consistent size n p extra s) (hname : s.NameFits) (hu : Opened size n p s r u) :
    ∃ n', Consistent size n' p extra u := by
  cases hu with
  | refused => exact ⟨n, h.sound_of rfl rfl rfl rfl rfl rfl rfl rfl⟩
  | found hpath hplace hcreat _ hne hgot hopen =>
    obtain ⟨m, hm, hpos, himap⟩ := h.searched_eq.resolve_left hne
    rw [hm] at hgot
    obtain ⟨ht, hmore⟩ := h.got hpos himap hgot
    exact ⟨n, h.opened ht hmore hplace⟩
  | created hpath hplace hcreat hzero hstrip hx hcreated =>
    have hlen := hname _ _ hpath hstrip hcreat
    exact ⟨_, h.opened (h.create hx (Nat.le_of_lt_succ hlen) hcreated) (h.oneMore_created hx hcreated) hplace⟩

/-- An inode that was taken by a request that is refused keeps its reference. -/
theorem of_unlinked (h : Consistent size n p extra s) (hu : Unlinked size n p s r u) :
    ∃ n' extra', Consistent size n' p extra' u ∧ (r = 0 → extra' = extra) := by
  cases hu with
  | same => exact ⟨n, extra, h.sound_of rfl rfl rfl rfl rfl rfl rfl rfl, fun _ => rfl⟩
  | refused _ hne hgot =>
    obtain ⟨m, hm, hpos, himap⟩ := h.searched_eq.resolve_left hne
    rw [hm] at hgot
    obtain ⟨ht, hmore⟩ := h.got hpos himap hgot
    exact ⟨n, _, h.referenced ht hmore, fun hzero => absurd hzero (by decide)⟩
  | @removed path name num b cnt k q u hfile hk hu hq =>
    refine ⟨_, extra, h.congr (h.remove hfile hk hu hq) (fun q' => ?_)
      (fun d => by rw [hu.fDescTable]; exact ⟨rfl, rfl⟩) hq.filp, fun _ => rfl⟩
    obtain ⟨w, hw⟩ := hu.inode
    by_cases he : q' = q
    · rw [he, not_not.mp hq.freed, not_not.mp hq.free]
    · by_cases hp : q' = p
      · rw [hp, hw]
      · rw [hq.others q' he hp]

theorem of_moved {num buf pos len : Nat} {l : List Byte} (h : Consistent size n p extra s)
    (hw : WithinFile size s pid d q num buf pos len) (hu : RangeMoved size s d q num pos len l u) :
    Consistent size n p extra u := by
  obtain ⟨w, M, C, hstate⟩ := hu.state
  refine h.congr (h.toCoherent.moved (h.cached_of_desc hw.inode) hw hu) (fun q' => ?_) (fun d' => ?_) ?_
  · rw [hstate, Fs.advanced_inodeTable]
    by_cases hq : q' = q
    · rw [hq, Fs.setInode_self]
    · rw [Fs.setInode_of_ne hq]
  · rw [hstate]
    by_cases hd : d' = d
    · subst hd
      simp [Fs.advanced, Fs.setDesc, Fs.setInode]
    · simp [Fs.advanced, Fs.setDesc, Fs.setInode, hd]
  · rw [hstate]
    rfl

theorem of_drops (h : Consistent size n p extra s) (hu : s.Drops u) : Consistent size n p extra u := by
  cases hu with
  | of hd hq => exact h.dropped hd hq

theorem of_dropsAll (h : Consistent size n p extra s) (hu : Relation.ReflTransGen Fs.Drops s u) :
    Consistent size n p extra u := by
  induction hu with
  | refl => exact h
  | tail _ hu ih => exact ih.of_drops hu

theorem of_logged (h : Consistent size n p extra s) (hsize : HasLog size) (hu : LogWritten size s u) :
    Consistent size n p extra u := by
  obtain ⟨M, pos, hstate⟩ := hu.state
  refine h.congr (h.toCoherent.logged hsize hu) (fun q => ?_) (fun d => ?_) ?_
  · rw [hstate]
    rfl
  · rw [hstate]
    exact ⟨rfl, rfl⟩
  · rw [hstate]
    rfl

/-- What a descriptor leads to has a reference all the time. -/
theorem of_sharesAll (h : Coherent size n p s) (href : ∀ d q, (s.fDescTable d).fdInode = some q →
    1 ≤ (s.inodeTable q).iCnt) (hu : Relation.ReflTransGen Fs.Shares s u) : Coherent size n p u ∧
      ∀ d q, (u.fDescTable d).fdInode = some q → 1 ≤ (u.inodeTable q).iCnt := by
  induction hu with
  | refl => exact ⟨h, href⟩
  | @tail t v _ hv ih =>
    obtain ⟨ht, href⟩ := ih
    cases hv with
    | @of d q hd =>
      have hpos := href d q hd
      have hcnt (q' : Fin nrInode) : ((t.shared d q).inodeTable q').iCnt = (t.inodeTable q').iCnt +
          if q' = q then 1 else 0 := by
        change (((t.setDesc d _).setInode q _).inodeTable q').iCnt = _
        split_ifs with hq
        · rw [hq, Fs.setInode_self]
          rfl
        · rw [Fs.setInode_of_ne hq, Int.add_zero]
          rfl
      refine ⟨(ht.recount (q := q) (c := (· + 1)) (fun _ => ?_) fun hq => ?_).congr rfl rfl rfl rfl rfl rfl,
        fun d' q' hd' => ?_⟩
      · rw [Inode.cached]
        omega
      · rw [← hq]
        omega
      · have hsame : ((t.shared d q).fDescTable d').fdInode = (t.fDescTable d').fdInode := by
          by_cases he : d' = d
          · subst he
            simp [Fs.shared, Fs.setInode, Fs.setDesc]
          · simp [Fs.shared, Fs.setInode, Fs.setDesc, he]
        rw [hsame] at hd'
        have := href d' q' hd'
        rw [hcnt]
        split_ifs <;> omega

theorem of_forked {e : FsEvent} {parent child : Pid} {T : Pid → Proc} (h : Consistent size n p extra s)
    (hfree : ∀ i, s.filp child i = none)
    (hshares : Relation.ReflTransGen Fs.Shares (s.forking e parent child T) u)
    (hcounts : ∀ extra, (s.forking e parent child T).Counts
      (pending (s.forking e parent child T).held child []) extra → u.Counts u.held extra) :
    Consistent size n p extra u := by
  have ht : Coherent size n p (s.forking e parent child T) := h.toCoherent.congr rfl rfl rfl rfl rfl rfl
  refine ⟨(of_sharesAll ht (fun d q hd => ?_) hshares).1, hcounts extra ?_, h.root, h.extra⟩
  · have hlt := h.lt_cnt (d := d) (q := q) hd
    have hextra := h.extra q
    change 1 ≤ (s.inodeTable q).iCnt
    omega
  · -- the child's places were empty before the fork
    have hpending : pending (s.forking e parent child T).held child [] = s.held := by
      funext x
      obtain ⟨pid, i⟩ := x
      rw [pending, Fs.held]
      split_ifs with hx
      · obtain rfl : pid = child := hx.1
        exact (hfree i).symm
      · have hne : pid ≠ child := fun he => hx ⟨he, List.not_mem_nil⟩
        exact congrFun (Function.update_of_ne hne _ s.filp) i
    rw [hpending]
    exact h.counts.congr (fun _ => rfl) (fun _ => rfl) fun _ => rfl

end Consistent

/-! ## A run -/

/-- The references besides those of the open files grow only when an UNLINK is refused. -/
theorem Fs.Served.consistent {e : FsEvent} (h : Consistent size n p extra s) (he : s.Allows e)
    (hu : s.Served size n p e u) : ∃ n' extra', Consistent size n' p extra' u ∧
      ((∀ m, e.request = .message m → m.type = MsgType.unlink → u.fsMsg.retval = 0) → extra' = extra) := by
  rw [Fs.Allows] at he
  cases hu with
  | opened hask htype hu =>
    rw [hask.request] at he
    obtain ⟨n', hu⟩ := h.withMessage.of_opened ((he.2 _ hask.source).1 htype) hu
    exact ⟨n', extra, hu.answered, fun _ => rfl⟩
  | closed hask htype hu => exact ⟨n, extra, (h.withMessage.of_drops hu).answered, fun _ => rfl⟩
  | moved hask hopen hw hu => exact ⟨n, extra, (h.withMessage.of_moved hw hu).answered, fun _ => rfl⟩
  | passed => exact ⟨n, extra, h.sound_of rfl rfl rfl rfl rfl rfl rfl rfl, fun _ => rfl⟩
  | unlinked hask htype hu =>
    obtain ⟨n', extra', hu, hsame⟩ := h.withMessage.of_unlinked hu
    exact ⟨n', extra', hu.answered, fun hzero => hsame (hzero _ hask.request htype)⟩
  | resumed => exact ⟨n, extra, h.withMessage, fun _ => rfl⟩
  | exited hask htype hu => exact ⟨n, extra, (h.withMessage.of_dropsAll hu).answered, fun _ => rfl⟩
  | logged hrequest hu =>
    rw [hrequest] at he
    exact ⟨n, extra, h.meeting.of_logged (h.geoSize ▸ he.hasLog) hu, fun _ => rfl⟩
  | forked hrequest hu hfilp hcounts =>
    rw [hrequest] at he
    exact ⟨n, extra, (h.of_forked he hu hcounts).answered, fun _ => rfl⟩

/-- A machine before `init_fs` whose partition has only zeros where the root directory will be. -/
structure NewDisk (s : Fs) : Prop extends Booted s where
  zero : ∀ a, dirAddr s.geoSize ≤ a → a < dirAddr s.geoSize + 512 * nrDefaultFileSects → s.disk a = 0

/-- The FS task from the end of `init_fs` on, started with such a partition. -/
def newMachine : Machine Fs FsEvent Halt :=
  { fsMachine with initial := fun s => ∃ s₀, NewDisk s₀ ∧ initFs s₀ = .ok () s }

theorem started_initial (h : newMachine.initial s) : ∃ p, Started s.geoSize p s ∧
    ∀ a, dirAddr s.geoSize + 512 ≤ a → a < dirAddr s.geoSize + 512 * nrDefaultFileSects → s.disk a = 0 := by
  obtain ⟨s₀, hs₀, hrun⟩ := h
  obtain ⟨⟨p, hp⟩, hbehind⟩ := (wp_of_ok hrun).mp (wp_initFs_started hs₀.toBooted)
  have hsize := hp.geoSize
  rw [hsize]
  refine ⟨p, hp, fun a ha ha' => ?_⟩
  rw [hbehind a ha]
  exact hs₀.zero a (by omega) ha'

theorem consistent_initial (h : newMachine.initial s) :
    ∃ p, Consistent s.geoSize 4 p (fun q => if q = p then 1 else 0) s := by
  obtain ⟨p, hp, hblank⟩ := started_initial h
  exact ⟨p, hp.consistent hblank⟩

/-- What a request that goes on leads to. -/
theorem Consistent.served {e : FsEvent} (h : Consistent size n p extra s) (he : s.Allows e)
    (hgo : (newMachine.step e s).2 = none) : s.Served size n p e (newMachine.step e s).1 := by
  refine exec_of_wp (x := e.request.run) (P := fun u o => o = none → s.Served size n p e u) ?_ hgo
  exact (h.wp_served he).mono (fun _ _ hu _ => hu) fun _ _ _ he => (Option.some_ne_none _ he).elim

/-- In every state of a run the file system is consistent. -/
theorem consistent_of_reached (h : newMachine.Reached Fs.Allows s none) :
    ∃ n p extra, Consistent s.geoSize n p extra s := by
  have hinv : (none : Option Halt) = none → ∃ n p extra, Consistent s.geoSize n p extra s := by
    refine Machine.Reached.invariant (I := fun s o => o = none → ∃ n p extra, Consistent s.geoSize n p extra s)
      (fun s hs _ => ?_) (fun s e _ ih he hnone => ?_) h
    · obtain ⟨p, hp⟩ := consistent_initial hs
      exact ⟨4, p, _, hp⟩
    · obtain ⟨n, p, extra, hs⟩ := ih rfl
      obtain ⟨n', extra', hu, -⟩ := (hs.served he hnone).consistent hs he
      exact ⟨n', p, extra', by rw [hu.geoSize]; exact hu⟩
  exact hinv rfl

/-- The partition's size stays. -/
theorem geoSize_served {e : FsEvent} (h : newMachine.Reached Fs.Allows s none) (he : s.Allows e)
    (hgo : (newMachine.step e s).2 = none) : (newMachine.step e s).1.geoSize = s.geoSize := by
  obtain ⟨n, p, extra, hs⟩ := consistent_of_reached h
  obtain ⟨n', extra', hu, -⟩ := (hs.served he hgo).consistent hs he
  exact hu.geoSize

/-- The requests of `Allows`, of which no UNLINK is refused. -/
def Fs.AllowsUnrefused (s : Fs) (e : FsEvent) : Prop := s.Allows e ∧
  ∀ m, e.request = .message m → m.type = MsgType.unlink → (newMachine.step e s).1.fsMsg.retval = 0

theorem consistent_of_unrefused (h : newMachine.Reached Fs.AllowsUnrefused s none) :
    ∃ n p, Consistent s.geoSize n p (fun q => if q = p then 1 else 0) s := by
  have hinv : (none : Option Halt) = none →
      ∃ n p, Consistent s.geoSize n p (fun q => if q = p then 1 else 0) s := by
    refine Machine.Reached.invariant (I := fun s o => o = none →
      ∃ n p, Consistent s.geoSize n p (fun q => if q = p then 1 else 0) s)
      (fun s hs _ => ⟨4, consistent_initial hs⟩) (fun s e _ ih he hnone => ?_) h
    obtain ⟨n, p, hs⟩ := ih rfl
    obtain ⟨n', extra', hu, hsame⟩ := (hs.served he.1 hnone).consistent hs he.1
    obtain rfl := hsame he.2
    exact ⟨n', p, by rw [hu.geoSize]; exact hu⟩
  exact hinv rfl

end

/-! ## A first file -/

/-- Process 6 creates the file a and opens it. -/
def createA : FsEvent where
  request := .message
    { source := 6, type := MsgType.openFile, u := { m3i1 := 3, m3i2 := 1, m3p1 := 0x1000000 } }
  mem x := if x = 0x1000000 then 0x61 else 0
  tty m := m

def createdFs : Fs := (newMachine.step createA startedFs).1

theorem initial_startedFs : newMachine.initial startedFs :=
  ⟨bootFs, ⟨⟨fun _ _ => rfl, rfl, rfl⟩, fun _ _ _ => rfl⟩, ok_of_exec (by decide +kernel)⟩

theorem allows_createA : startedFs.AllowsUnrefused createA := by
  refine ⟨⟨by decide, fun pid hpid => ⟨fun _ path name hpath hname _ => ?_, fun hrw => absurd hrw (by decide)⟩⟩,
    fun m hm htype => ?_⟩
  · have hfetch : wp fetchPathname (fun path _ => path = [0x61]) (fun _ _ => False)
        (startedFs.withMessage createA 6 { source := 6, type := MsgType.openFile, u :=
          { m3i1 := 3, m3i2 := 1, m3p1 := 0x1000000 } }) := by decide +kernel
    obtain rfl : (6 : Pid) = pid := Option.some.inj ((by decide : pidOf 6 = some 6).symm.trans hpid)
    obtain rfl : path = [0x61] := (wp_of_ok hpath).mp hfetch
    obtain rfl : [0x61] = name := Option.some.inj hname
    decide
  · obtain rfl := Request.message.inj hm
    exact absurd htype (by decide)

theorem goesOn_createA : (newMachine.step createA startedFs).2 = none := by decide +kernel

theorem reached_createdFs : newMachine.Reached Fs.AllowsUnrefused createdFs none := by
  rw [createdFs]
  exact .goOn (.start initial_startedFs) allows_createA goesOn_createA

theorem reached_createdFs_allows : newMachine.Reached Fs.Allows createdFs none :=
  reached_createdFs.mono fun _ _ h => h.1

end Dlos
