import Dlos.Fs.Cache
import Dlos.Fs.Copies

/-!
# What a process may pass to the file system

`task_fs` hands the numbers in a message on as they are. `FileCall.Survivable` says what `do_rdwt` and
`do_close` rely on.
-/

namespace Dlos

open Program Bytes

/-- A call of `lib/read.c`, `lib/write.c` or `lib/close.c`. -/
inductive FileCall
  | read (fd : BitVec 32) (buf : Addr) (count : BitVec 32)
  | write (fd : BitVec 32) (buf : Addr) (count : BitVec 32)
  | close (fd : BitVec 32)

namespace FileCall

def fd : FileCall → Int
  | read fd _ _ | write fd _ _ | close fd => fd.toInt

/-- The message of a call of `pid`; `u` is what the variable held before. -/
def message (pid : Pid) (u : Mess3) : FileCall → Message
  | read fd buf count =>
    { source := pid.val, type := MsgType.read,
      u := { u with m3i1 := fd.toInt, m3p2 := buf, m3i2 := count.toInt } }
  | write fd buf count =>
    { source := pid.val, type := MsgType.write,
      u := { u with m3i1 := fd.toInt, m3p2 := buf, m3i2 := count.toInt } }
  | close fd => { source := pid.val, type := MsgType.close, u := { u with m3i1 := fd.toInt } }

/-- What a call returns when it gets the answer `m`. -/
def result (m : Message) : FileCall → Int
  | read _ _ _ | write _ _ _ => m.cnt
  | close _ => m.retval

end FileCall

/-- `pcaller->filp[fd]`, if `fd` is an index of an open file. -/
def Fs.openDesc (s : Fs) (pid : Pid) (fd : Int) : Option (Fin nrFileDesc) :=
  if h : 0 ≤ fd ∧ fd < (nrFiles : Nat) then s.filp pid ⟨fd.toNat, toNat_lt h⟩ else none

/-- No copy with a negative length was started. -/
def GoodCopies (s u : Fs) : Prop := ∃ l, u.copies = l ++ s.copies ∧ ∀ x ∈ l, 0 ≤ x.size.toInt

/-- FS has served a call and gone on, no copy had a negative length, and a call with an invalid `fd` was
refused. An index outside `filp`, a null pointer and a failed assertion stop the machine. -/
structure Survives (s : Fs) (pid : Pid) (c : FileCall) (u : Fs) (o : Option Halt) : Prop where
  goesOn : o = none
  copies : GoodCopies s u
  refused : s.openDesc pid c.fd = none → c.result u.fsMsg = -1 ∧ u.filp = s.filp ∧
    u.fDescTable = s.fDescTable ∧ u.inodeTable = s.inodeTable

/-- FS with a message that it has received. -/
def Fs.received (s : Fs) (pid : Pid) (m : Message) : Fs := { s with fsMsg := m, pcaller := pid }

/-- The message that `do_rdwt` sends to the driver of a terminal. -/
def Fs.toDriver (s : Fs) (i : Inode) : Message :=
  { s.fsMsg with
    type := if s.fsMsg.type = MsgType.read then MsgType.devRead else MsgType.devWrite
    u := { s.fsMsg.u with m3i4 := minor i.iStartSect.toInt, m3i3 := s.fsMsg.source } }

/-- What `do_rdwt` relies on for an open file. -/
def Fs.Servable (s : Fs) (pid : Pid) (d : Fin nrFileDesc) (p : Fin nrInode) : Prop :=
  if (s.inodeTable p).iMode &&& iTypeMask = iCharSpecial then
    major (s.inodeTable p).iStartSect.toInt = devCharTty ∧
      (s.ttyReply (s.toDriver (s.inodeTable p))).cnt = s.fsMsg.cnt
  else
    ((s.inodeTable p).iMode = iRegular ∨ (s.inodeTable p).iMode = iDirectory) ∧
      (s.rwSectMax d p < s.rwSectMin d p ∨
        0 ≤ s.fsMsg.cnt ∧ (s.base pid = 0 ∨ nrTasks + nrNativeProcs ≤ pid.val))

/-- What FS relies on in a state in which it has received the message of a call. -/
def FileCall.Survivable (s : Fs) (pid : Pid) (c : FileCall) : Prop :=
  ∃ d, s.openDesc pid c.fd = some d ∧ match c with
    | close _ => ∃ p, (s.fDescTable d).fdInode = some p ∧ 0 < (s.inodeTable p).iCnt
    | _ => hasFlag (s.fDescTable d).fdMode oRdwr →
        ∃ p, (s.fDescTable d).fdInode = some p ∧ s.Servable pid d p

section

variable {s u : Fs} {pid : Pid} {c : FileCall} {d : Fin nrFileDesc} {p : Fin nrInode} {t : Transfer}

/-! ## Indices -/

theorem GoodCopies.refl : GoodCopies s s := ⟨[], rfl, fun _ hx => absurd hx List.not_mem_nil⟩

theorem openDesc_natCast {i : Fin nrFiles} : s.openDesc pid i.val = s.filp pid i := by
  rw [Fs.openDesc, dif_pos (by omega)]
  rfl

theorem wp_filpIndex_bind {α : Type} {fd : Int} {x : Fin nrFiles → FM α} {Q : α → Fs → Prop} :
    wp (filpIndex fd >>= x) Q (fun _ _ => False) s ↔
      ∃ i : Fin nrFiles, fd = i.val ∧ wp (x i) Q (fun _ _ => False) s := by
  rw [wp_bind, filpIndex]
  split
  case isTrue h =>
    refine ⟨fun hx => ⟨_, (Int.toNat_of_nonneg h.1).symm, hx⟩, ?_⟩
    rintro ⟨i, rfl, hx⟩
    exact hx
  case isFalse h =>
    refine ⟨False.elim, ?_⟩
    rintro ⟨i, rfl, -⟩
    exact h (by omega)

theorem exists_of_openDesc {fd : Int} (h : s.openDesc pid fd = some d) :
    ∃ i : Fin nrFiles, fd = i.val ∧ s.filp pid i = some d := by
  rw [Fs.openDesc] at h
  split at h
  case isTrue hfd => exact ⟨_, (Int.toNat_of_nonneg hfd.1).symm, h⟩
  case isFalse => exact absurd h (Option.some_ne_none d).symm

/-- A descriptor that is looked up must be there. -/
theorem wp_deref_false {α : Type} {a : Option α} {Q : α → Fs → Prop} :
    wp (deref a) Q (fun _ _ => False) s ↔ ∃ b, a = some b ∧ Q b s := by
  cases a with
  | none => simp
  | some b => simp

/-! ## CLOSE -/

theorem wp_doClose_iff (hcaller : s.pcaller = pid) :
    wp doClose (fun _ => GoodCopies s) (fun _ _ => False) s ↔
      ∃ d, s.openDesc pid s.fsMsg.fd = some d ∧
        ∃ p, (s.fDescTable d).fdInode = some p ∧ 0 < (s.inodeTable p).iCnt := by
  rw [doClose, wp_bind, wp_get, wp_filpIndex_bind, hcaller]
  simp only [wp_bind, wp_deref_false, putInode, wp_get, wp_assert, wp_setInode, wp_setDesc, wp_onlyIf,
    wp_setFilp, wp_pure]
  constructor
  · rintro ⟨i, hfd, d, hd, p, hp, -, hpos⟩
    exact ⟨d, by rw [hfd, openDesc_natCast, hd], p, hp, by_contra hpos⟩
  · rintro ⟨d, hd, p, hp, hpos⟩
    obtain ⟨i, hfd, hd⟩ := exists_of_openDesc hd
    exact ⟨i, hfd, d, hd, p, hp, fun _ => ⟨fun _ => .refl, fun _ => .refl⟩, fun h => h hpos⟩

/-! ## READ and WRITE -/

theorem toInt_ofInt_eq {x : Int} (h : -2 ^ 31 ≤ x) (h' : x < 2 ^ 31) : (BitVec.ofInt 32 x).toInt = x := by
  rw [BitVec.toInt_ofInt]
  exact Int.bmod_eq_of_le h (by omega)

/-- The copies of a request so far have lengths that are not negative. -/
structure PartlyServed (s : Fs) (d : Fin nrFileDesc) (l : List PhysCopy) (k : Int) (u : Fs) : Prop where
  state : u = s.advanced d u.disk u.mem (l ++ s.copies) k
  size : ∀ x ∈ l, 0 ≤ x.size.toInt

theorem PartlyServed.start : PartlyServed s d [] 0 s where
  state := (PartlyWritten.start : PartlyWritten s d 0 {} 0 0 0 s).state
  size _ hx := absurd hx List.not_mem_nil

/-- The rounds of a request of a process for `left` bytes more. -/
theorem wp_rwLoop_copied {max y o b k left : Int} {fuel : Nat} {l : List PhysCopy}
    (hseg : s.base pid = 0 ∨ nrTasks + nrNativeProcs ≤ pid.val) (hsrc : pidOf t.src = some pid)
    (hdev : t.dev = rootDev) (hdesc : t.desc = d) (hchunk : 1 ≤ t.chunk) (ho : o ≤ 512)
    (hleft : 0 ≤ left) (hlt : left < 2 ^ 31) (hfuel : max - y < fuel) (h : PartlyServed s d l k u) :
    wp (rwLoop t max fuel y o b left) (fun _ v => ∃ l k, PartlyServed s d l k v) (fun _ _ => False) u := by
  induction fuel generalizing u y o b k left l with
  | zero =>
    rw [rwLoop, if_neg (by omega), wp_pure]
    exact ⟨l, k, h⟩
  | succ fuel ih =>
    rw [rwLoop, wp_ite]
    refine ⟨fun _ => ?_, fun _ => ⟨l, k, h⟩⟩
    dsimp only
    generalize hbytes : min left (t.chunk * (sectorSize : Nat) - o) = bytes
    rw [show ((sectorSize : Nat) : Int) = 512 from rfl] at hbytes
    have hbase : u.base pid = s.base pid := by
      rw [h.state]
      rfl
    have hnext : PartlyServed s d (roundCopy t (s.base pid) o b bytes :: l) (k + bytes)
        (u.afterCopy (s.base pid) t y o b bytes) := by
      refine ⟨afterCopy_advanced hdesc h.state, ?_⟩
      intro x hx
      rcases List.mem_cons.mp hx with rfl | hx
      · rw [roundCopy_size, toInt_ofInt_eq (by omega) (by omega)]
        omega
      · exact h.size x hx
    have hseg' : u.base pid = 0 ∨ nrTasks + nrNativeProcs ≤ pid.val := by
      rwa [hbase]
    rw [wp_bind, wp_rwChunk hdev hsrc hseg', hbase]
    exact ih (by omega) (by omega) (by omega) (by omega) hnext

/-- An inode of the root device can be written back. -/
theorem wp_syncInode_onRoot {Q : Unit → Fs → Prop} {E : Halt → Fs → Prop}
    (hsb : ∃ sb, s.super rootDev = some sb) (hon : (s.inodeTable p).OnRoot)
    (hQ : ∀ D M, Q () (s.io D M)) : wp (syncInode p) Q E s := by
  obtain ⟨sb, hsb⟩ := hsb
  rw [syncInode, wp_bind, wp_get]
  dsimp only
  rw [hon.dev, wp_bind, wp_getSuperBlock hsb, wp_bind, wp_rdSect, wp_bind, wp_natOf]
  refine ⟨fun _ => ?_, fun h => absurd hon.off h⟩
  rw [wp_bind, wp_putBufWords, wp_wrSect]
  exact hQ _ _

/-- A request for a file that can be served. -/
theorem FileRequest.wp_rwFile_copied {len : Int} (h : FileRequest s pid d p) (hok : s.TablesOk ∅)
    (htype : s.fsMsg.type = MsgType.read ∨ s.fsMsg.type = MsgType.write) (hlen : s.fsMsg.cnt = len)
    (hlt : len < 2 ^ 31)
    (hcond : s.rwSectMax d p < s.rwSectMin d p ∨
      0 ≤ len ∧ (s.base pid = 0 ∨ nrTasks + nrNativeProcs ≤ pid.val)) :
    wp (rwFile d p len) (fun _ => GoodCopies s) (fun _ _ => False) s := by
  subst hlen
  have hoff : s.off d < 512 := Int.tmod_lt_of_pos _ (by decide)
  have hloop : wp (rwLoop ⟨s.fsMsg.type, s.fsMsg.source, s.fsMsg.buf, d, rootDev,
      min (s.rwSectMax d p - s.rwSectMin d p + 1) 2048⟩ (s.rwSectMax d p)
      (s.rwSectMax d p - s.rwSectMin d p + 1).toNat (s.rwSectMin d p) (s.off d) 0 s.fsMsg.cnt)
      (fun _ u => ∃ l k, PartlyServed s d l k u) (fun _ _ => False) s := by
    rcases lt_or_ge (s.rwSectMax d p) (s.rwSectMin d p) with hno | hle
    · rw [Int.toNat_of_nonpos (by omega), rwLoop, if_neg (by omega)]
      exact ⟨[], 0, .start⟩
    · obtain ⟨hcnt, hseg⟩ := hcond.resolve_left (not_lt.mpr hle)
      exact wp_rwLoop_copied hseg h.source rfl rfl (by dsimp only; omega) hoff.le hcnt hlt (by omega)
        .start
  rw [h.wp_rwFile htype rfl rfl]
  refine hloop.imp fun r u hu => ?_
  obtain ⟨l, k, hu⟩ := hu
  have hcopies : u.copies = l ++ s.copies := by
    rw [hu.state]
    rfl
  have htables : (∃ sb, u.super rootDev = some sb) ∧ u.inodeTable = s.inodeTable := by
    rw [hu.state]
    exact ⟨hok.super, rfl⟩
  refine ⟨fun _ => ?_, fun _ => ⟨l, hcopies, hu.size⟩⟩
  refine wp_syncInode_onRoot htables.1 ?_ fun _ _ => ⟨l, hcopies, hu.size⟩
  have hon := hok.desc h.inode
  rw [Fs.setInode_self, htables.2]
  exact ⟨hon.dev, hon.off⟩

/-! ## What is needed -/

/-- A native process is only served when its segment starts at 0. -/
theorem segment_of_fsVa2la {va : Addr} {Q : Addr → Fs → Prop}
    (h : wp (fsVa2la pid va) Q (fun _ _ => False) s) :
    s.base pid = 0 ∨ nrTasks + nrNativeProcs ≤ pid.val := by
  rw [fsVa2la, wp_bind, wp_get, linear, wp_bind, wp_onlyIf, wp_assert] at h
  by_contra hnot
  obtain ⟨hbase, hpid⟩ := not_or.mp hnot
  exact (h.1 (not_le.mp hpid)).2 fun he => hbase (BitVec.add_left_eq_self.mp he)

theorem segment_of_rwChunk {y o b n : Int} {Q : Unit → Fs → Prop} (hdev : t.dev = rootDev)
    (hsrc : pidOf t.src = some pid) (h : wp (rwChunk t y o b n) Q (fun _ _ => False) s) :
    s.base pid = 0 ∨ nrTasks + nrNativeProcs ≤ pid.val := by
  rw [rwChunk, wp_bind, hdev, wp_rwSector, if_pos rfl, wp_bind, procAt, hsrc] at h
  dsimp only at h
  rw [wp_pure, wp_bind] at h
  have hseg := segment_of_fsVa2la h
  exact hseg

theorem mem_of_append_eq {l l' C : List PhysCopy} {x : PhysCopy} (h : l ++ C = l' ++ x :: C) : x ∈ l := by
  have hsplit : l = l' ++ [x] := List.append_cancel_right (h.trans (List.append_cons l' x C))
  rw [hsplit]
  exact List.mem_append_right l' (List.mem_singleton_self x)

/-- The first round shows what a request for a file relies on. -/
theorem FileRequest.servable (h : FileRequest s pid d p)
    (htype : s.fsMsg.type = MsgType.read ∨ s.fsMsg.type = MsgType.write)
    (hge : -2 ^ 31 ≤ s.fsMsg.cnt) (hlt : s.fsMsg.cnt < 2 ^ 31)
    (hflag : hasFlag (s.fDescTable d).fdMode oRdwr)
    (hw : wp doRdwt (fun _ => GoodCopies s) (fun _ _ => False) s) :
    s.rwSectMax d p < s.rwSectMin d p ∨
      0 ≤ s.fsMsg.cnt ∧ (s.base pid = 0 ∨ nrTasks + nrNativeProcs ≤ pid.val) := by
  rcases lt_or_ge (s.rwSectMax d p) (s.rwSectMin d p) with hno | hle
  · exact .inl hno
  have hseg : s.base pid = 0 ∨ nrTasks + nrNativeProcs ≤ pid.val := by
    rw [h.wp_doRdwt, if_pos hflag, h.wp_rwFile htype rfl rfl] at hw
    change wp (rwLoop ⟨_, _, _, _, _, min (s.rwSectMax d p - s.rwSectMin d p + 1) 2048⟩ (s.rwSectMax d p)
      (s.rwSectMax d p - s.rwSectMin d p + 1).toNat (s.rwSectMin d p) (s.off d) 0 s.fsMsg.cnt) _ _ s at hw
    obtain ⟨n, hn⟩ : ∃ n, (s.rwSectMax d p - s.rwSectMin d p + 1).toNat = n + 1 :=
      Nat.exists_eq_succ_of_ne_zero (by omega)
    rw [hn, rwLoop, if_pos hle, wp_bind] at hw
    exact segment_of_rwChunk rfl h.source hw
  refine .inr ⟨?_, hseg⟩
  have hreq : CopyRequest s pid d p := ⟨h, htype, hseg, hge, hlt⟩
  have hoff : s.off d < 512 := Int.tmod_lt_of_pos _ (by decide)
  obtain ⟨chunk, hchunk⟩ : ∃ chunk, min (s.rwSectMax d p - s.rwSectMin d p + 1) 2048 = chunk := ⟨_, rfl⟩
  obtain ⟨bytes, hbytes⟩ : ∃ bytes, min s.fsMsg.cnt (chunk * (sectorSize : Nat) - s.off d) = bytes :=
    ⟨_, rfl⟩
  have hsize : 0 ≤ (BitVec.ofInt 32 bytes).toInt := by
    refine (hw.and (hreq.first_copyMade hflag hle hchunk hbytes)).elim (fun _ u hu => ?_)
      fun _ _ hu => hu.1.elim
    obtain ⟨⟨l, hl, hgood⟩, l', hl'⟩ := hu
    have := hgood _ (mem_of_append_eq (hl.symm.trans hl'))
    rwa [roundCopy_size] at this
  rw [show ((sectorSize : Nat) : Int) = 512 from rfl] at hbytes
  by_contra hneg
  rw [toInt_ofInt_eq (by omega) (by omega)] at hsize
  omega

theorem wp_rwTerminal_iff :
    wp (rwTerminal (s.inodeTable p) s.fsMsg.cnt) (fun _ => GoodCopies s) (fun _ _ => False) s ↔
      major (s.inodeTable p).iStartSect.toInt = devCharTty ∧
        (s.ttyReply (s.toDriver (s.inodeTable p))).cnt = s.fsMsg.cnt := by
  have hdriver {dev : Int} (hdev : major dev = devCharTty) : (discard (driverOf dev) : FM Unit) = pure () := by
    rw [driverOf, hdev]
    rfl
  rw [rwTerminal, wp_bind, wp_modify, wp_bind, wp_assert]
  constructor
  · rintro ⟨hmajor, hnot⟩
    have hdev := by_contra hnot
    refine ⟨hdev, ?_⟩
    have h := hmajor hdev
    rw [wp_bind, wp_modify, hdriver hdev, wp_bind, wp_pure, wp_bind, wp_modify, wp_bind, wp_get, wp_bind,
      wp_assert] at h
    exact by_contra h.2
  · rintro ⟨hdev, hcnt⟩
    refine ⟨fun _ => ?_, fun h => h hdev⟩
    rw [wp_bind, wp_modify, hdriver hdev, wp_bind, wp_pure, wp_bind, wp_modify, wp_bind, wp_get, wp_bind,
      wp_assert]
    exact ⟨fun _ => .refl, fun h => h hcnt⟩

theorem wp_doRdwt_iff (hok : s.TablesOk ∅) (hcaller : s.pcaller = pid)
    (hsrc : pidOf s.fsMsg.source = some pid)
    (htype : s.fsMsg.type = MsgType.read ∨ s.fsMsg.type = MsgType.write)
    (hge : -2 ^ 31 ≤ s.fsMsg.cnt) (hlt : s.fsMsg.cnt < 2 ^ 31) :
    wp doRdwt (fun _ => GoodCopies s) (fun _ _ => False) s ↔
      ∃ d, s.openDesc pid s.fsMsg.fd = some d ∧ (hasFlag (s.fDescTable d).fdMode oRdwr →
        ∃ p, (s.fDescTable d).fdInode = some p ∧ s.Servable pid d p) := by
  have hrequest {d : Fin nrFileDesc} {p : Fin nrInode} (hd : s.openDesc pid s.fsMsg.fd = some d)
      (hp : (s.fDescTable d).fdInode = some p)
      (hmode : (s.inodeTable p).iMode = iRegular ∨ (s.inodeTable p).iMode = iDirectory) :
      FileRequest s pid d p :=
    ⟨hsrc, hcaller, exists_of_openDesc hd, hp, hmode, (hok.desc hp).dev⟩
  constructor
  · intro hw
    have hrun := hw
    rw [doRdwt, wp_bind, wp_get, wp_filpIndex_bind, hcaller] at hrun
    obtain ⟨i, hfd, hrun⟩ := hrun
    cases hd : s.filp pid i with
    | none =>
      rw [hd] at hrun
      exact (wp_throw.mp hrun).elim
    | some d =>
      have hopen : s.openDesc pid s.fsMsg.fd = some d := by rw [hfd, openDesc_natCast, hd]
      refine ⟨d, hopen, fun hflag => ?_⟩
      rw [hd] at hrun
      dsimp only at hrun
      rw [if_neg (not_not.mpr hflag)] at hrun
      cases hp : (s.fDescTable d).fdInode with
      | none =>
        rw [hp] at hrun
        exact (wp_throw.mp hrun).elim
      | some p =>
        rw [hp] at hrun
        dsimp only at hrun
        refine ⟨p, rfl, ?_⟩
        rw [Fs.Servable]
        split at hrun
        next hchar => rwa [if_pos hchar, ← wp_rwTerminal_iff]
        next hchar =>
          rw [if_neg hchar]
          have hmode : (s.inodeTable p).iMode = iRegular ∨ (s.inodeTable p).iMode = iDirectory := by
            rw [rwFile, wp_bind, wp_get, wp_bind, wp_assert] at hrun
            exact by_contra hrun.2
          exact ⟨hmode, (hrequest hopen hp hmode).servable htype hge hlt hflag hw⟩
  · rintro ⟨d, hopen, hserve⟩
    obtain ⟨i, hfd, hd⟩ := exists_of_openDesc hopen
    rw [doRdwt, wp_bind, wp_get, wp_filpIndex_bind, hcaller]
    refine ⟨i, hfd, ?_⟩
    rw [hd]
    dsimp only
    by_cases hflag : hasFlag (s.fDescTable d).fdMode oRdwr
    · obtain ⟨p, hp, hserve⟩ := hserve hflag
      rw [if_neg (not_not.mpr hflag), hp]
      dsimp only
      rw [Fs.Servable] at hserve
      split
      next hchar => rwa [if_pos hchar, ← wp_rwTerminal_iff] at hserve
      next hchar =>
        rw [if_neg hchar] at hserve
        exact (hrequest hopen hp hserve.1).wp_rwFile_copied hok htype rfl hlt hserve.2
    · rw [if_pos hflag, wp_pure]
      exact .refl

/-! ## A call -/

theorem survives_of_exec {x : FM Unit} : Survives s pid c (exec x u).1 (exec x u).2 ↔
    wp x (fun _ v => Survives s pid c v none) (fun _ _ => False) u := by
  constructor
  · intro h
    exact (wp_of_exec (P := Survives s pid c) h).mono (fun _ _ hv => hv) fun _ _ hv => nomatch hv.goesOn
  · intro h
    exact exec_of_wp (P := Survives s pid c) (h.mono (fun _ _ hv => hv) fun _ _ hv => hv.elim)

theorem wp_serve {m : Message} {Q : Unit → Fs → Prop} {E : Halt → Fs → Prop}
    (hsrc : pidOf m.source = some pid) :
    wp (serve m) Q E s ↔ wp (if m.type = MsgType.openFile then answer setFd doOpen
      else if m.type = MsgType.close then answer setRetval doClose
      else if m.type = MsgType.read ∨ m.type = MsgType.write then answer setCnt doRdwt
      else if m.type = MsgType.unlink then answer setRetval doUnlink
      else if m.type = MsgType.resumeProc then pure ()
      else if m.type = MsgType.fork then answer setRetval fsFork
      else if m.type = MsgType.exit then answer setRetval fsExit
      else throw (.assertion "0")) Q E (s.received pid m) := by
  rw [serve, wp_bind, procAt, hsrc]
  dsimp only
  rw [wp_pure, wp_bind, wp_modify]
  rfl

/-- The answer to a call that FS has served. -/
theorem wp_answer_iff {put : Message → Int → Message} {x : FM Int} {Q : Unit → Fs → Prop}
    {E : Halt → Fs → Prop} : wp (answer put x) Q E s ↔
      wp x (fun r v => Q () { v with fsMsg := put v.fsMsg r }) E s := by
  rw [answer, wp_bind]
  rfl

theorem wp_answer_survives {put : Message → Int → Message} {x : FM Int} {t : Fs}
    (hfilp : t.filp = s.filp) (hcopies : t.copies = s.copies)
    (hx : wp x (fun _ => GoodCopies t) (fun _ _ => False) t ↔ c.Survivable t pid) :
    wp (answer put x) (fun _ v => Survives s pid c v none) (fun _ _ => False) t ↔
      c.Survivable t pid := by
  rw [wp_answer_iff, ← hx]
  constructor
  · intro hw
    refine hw.imp fun r v hv => ?_
    obtain ⟨l, hl, hgood⟩ := hv.copies
    exact ⟨l, hcopies ▸ hl, hgood⟩
  · intro hw
    obtain ⟨d, hd, -⟩ := hx.mp hw
    refine hw.imp fun r v ⟨l, hl, hgood⟩ => ⟨rfl, ⟨l, hcopies ▸ hl, hgood⟩, fun hnone => ?_⟩
    rw [Fs.openDesc, ← hfilp] at hnone
    exact absurd (hd.symm.trans hnone) (Option.some_ne_none d)

theorem survives_iff_of_tablesOk (htables : s.TablesOk ∅) (u : Mess3) (mem : Store)
    (tty : Message → Message) :
    Survives s pid c (fsMachine.step ⟨.message (c.message pid u), mem, tty⟩ s).1
      (fsMachine.step ⟨.message (c.message pid u), mem, tty⟩ s).2 ↔
        c.Survivable (Fs.received { s with mem := mem, ttyReply := tty } pid (c.message pid u)) pid := by
  refine survives_of_exec.trans ?_
  have hok : Fs.TablesOk ∅ (Fs.received { s with mem := mem, ttyReply := tty } pid (c.message pid u)) :=
    ⟨htables.super, htables.onRoot⟩
  have hrange (x : BitVec 32) : -2 ^ 31 ≤ x.toInt ∧ x.toInt < 2 ^ 31 := ⟨x.le_toInt, x.toInt_lt⟩
  cases c with
  | close fd =>
    refine (wp_serve pidOf_val).trans ?_
    exact wp_answer_survives rfl rfl (wp_doClose_iff rfl)
  | read fd buf count =>
    refine (wp_serve pidOf_val).trans ?_
    exact wp_answer_survives rfl rfl
      (wp_doRdwt_iff hok rfl pidOf_val (.inl rfl) (hrange count).1 (hrange count).2)
  | write fd buf count =>
    refine (wp_serve pidOf_val).trans ?_
    exact wp_answer_survives rfl rfl
      (wp_doRdwt_iff hok rfl pidOf_val (.inr rfl) (hrange count).1 (hrange count).2)

/-- In every run FS survives a call exactly when its arguments are what `do_rdwt` and `do_close` rely
on. -/
theorem survives_iff {G : Fs → FsEvent → Prop} (h : fsMachine.Reached G s none) (pid : Pid)
    (c : FileCall) (u : Mess3) (mem : Store) (tty : Message → Message) :
    Survives s pid c (fsMachine.step ⟨.message (c.message pid u), mem, tty⟩ s).1
      (fsMachine.step ⟨.message (c.message pid u), mem, tty⟩ s).2 ↔
        c.Survivable (Fs.received { s with mem := mem, ttyReply := tty } pid (c.message pid u)) pid :=
  survives_iff_of_tablesOk (reached_tablesOk h) u mem tty

end

/-! ## A process that has opened the root directory -/

/-- An empty disk of 40960 sectors. -/
def bootFs : Fs where
  disk _ := 0
  mem _ := 0
  procTable _ := {}
  filp _ _ := none
  fDescTable _ := {}
  inodeTable _ := {}
  superBlock _ := {}
  rootInode := none
  pcaller := 0
  fsMsg := {}
  logPos := 0
  geoSize := 40960
  ttyReply m := m
  copies := []

def startedFs : Fs := (exec initFs bootFs).1

/-- Process 6 opens the directory `.` for reading and writing. -/
def openDot : FsEvent where
  request := .message
    { source := 6, type := MsgType.openFile, u := { m3i1 := 2, m3i2 := 1, m3p1 := 0x1000000 } }
  mem x := if x = 0x1000000 then 0x2E else 0
  tty m := m

def dotOpened : Fs := (fsMachine.step openDot startedFs).1

/-- A call of process 6 with that file. -/
def dotEvent (c : FileCall) : FsEvent := ⟨.message (c.message 6 {}), fun _ => 0, fun m => m⟩

theorem reached_dotOpened : fsMachine.Reached (fun _ _ => True) dotOpened none := by
  have hstart : fsMachine.initial startedFs :=
    ⟨bootFs, ⟨fun _ _ => rfl, rfl, rfl⟩, ok_of_exec (by decide +kernel)⟩
  have hrun : (fsMachine.step openDot startedFs).2 = none := by decide +kernel
  have hopen : fsMachine.Reached (fun _ _ => True) dotOpened (fsMachine.step openDot startedFs).2 :=
    .step (.start hstart) trivial
  rwa [hrun] at hopen

theorem survives_iff_dotOpened : Survives dotOpened 6 (.read 0 0x1000000 16)
    (fsMachine.step (dotEvent (.read 0 0x1000000 16)) dotOpened).1
    (fsMachine.step (dotEvent (.read 0 0x1000000 16)) dotOpened).2 := by
  refine (survives_iff reached_dotOpened 6 (.read 0 0x1000000 16) {} (fun _ => 0) fun m => m).mpr ?_
  refine ⟨0, by decide +kernel, fun _ => ⟨0, by decide +kernel, ?_⟩⟩
  rw [Fs.Servable, if_neg (by decide +kernel)]
  exact ⟨.inr (by decide +kernel), .inr ⟨by decide, .inl (by decide +kernel)⟩⟩

/-- An `fd` that is no index stops the machine, and a negative length is copied. -/
theorem not_survives_dotOpened : fsMachine.Reached (fun _ _ => True) dotOpened none ∧
    ¬Survives dotOpened 6 (.close 100) (fsMachine.step (dotEvent (.close 100)) dotOpened).1
      (fsMachine.step (dotEvent (.close 100)) dotOpened).2 ∧
    ¬Survives dotOpened 6 (.read 0 0x1000000 (-1))
      (fsMachine.step (dotEvent (.read 0 0x1000000 (-1))) dotOpened).1
      (fsMachine.step (dotEvent (.read 0 0x1000000 (-1))) dotOpened).2 := by
  have hiff (c : FileCall) : Survives dotOpened 6 c (fsMachine.step (dotEvent c) dotOpened).1
      (fsMachine.step (dotEvent c) dotOpened).2 ↔ _ :=
    survives_iff_of_tablesOk (reached_tablesOk reached_dotOpened) {} (fun _ => 0) fun m => m
  refine ⟨reached_dotOpened, fun h => ?_, fun h => ?_⟩
  · obtain ⟨d, hd, -⟩ := (hiff (.close 100)).mp h
    exact absurd hd (Option.some_ne_none d).symm
  · obtain ⟨d, hd, hserve⟩ := (hiff (.read 0 0x1000000 (-1))).mp h
    have hopen : dotOpened.openDesc 6 0 = some 0 := by decide +kernel
    obtain rfl : 0 = d := Option.some.inj (hopen.symm.trans hd)
    obtain ⟨p, hp, hserve⟩ := hserve (by decide +kernel)
    have hroot : (dotOpened.fDescTable 0).fdInode = some 0 := by decide +kernel
    obtain rfl : 0 = p := Option.some.inj (hroot.symm.trans hp)
    rw [Fs.Servable, if_neg (by decide +kernel)] at hserve
    rcases hserve.2 with hlt | ⟨hcnt, -⟩
    · exact absurd hlt (by decide +kernel)
    · exact absurd hcnt (by decide)

end Dlos
