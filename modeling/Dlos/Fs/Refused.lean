import Dlos.Fs.Device
import Dlos.Fs.Main

/-!
# Requests that are refused

`do_open` and `do_unlink` answer -1 when they refuse a request. Looking a name up changes only the
buffer; a reference that `get_inode` has taken is never given back on the way out.
-/

namespace Dlos

open Program Bytes

/-- Only the buffer has changed. -/
def OnlyBuffer (s u : Fs) : Prop := ∃ M, u = s.io s.disk M

/-- Nothing but the buffer and free slots of the inode table has changed, and every later request has the
outcome that it has without the first one. -/
structure NothingChanged (s u : Fs) : Prop where
  disk : u.disk = s.disk
  fDescTable : u.fDescTable = s.fDescTable
  filp : u.filp = s.filp
  inodeTable : ∀ p, u.inodeTable p = s.inodeTable p ∨
    (s.inodeTable p).iCnt = 0 ∧ (u.inodeTable p).iCnt = 0
  later : ∀ e, fsMachine.step e u = fsMachine.step e s

theorem OnlyBuffer.nothingChanged {s u : Fs} (h : OnlyBuffer s u) : NothingChanged s u := by
  obtain ⟨M, rfl⟩ := h
  exact ⟨rfl, rfl, rfl, fun _ => .inl rfl, fun _ => rfl⟩

/-- A reference to an inode was taken. -/
structure Taken (s u : Fs) (p : Fin nrInode) : Prop where
  iCnt : (u.inodeTable p).iCnt ≠ (s.inodeTable p).iCnt
  of_free : (s.inodeTable p).iCnt = 0 → (u.inodeTable p).iCnt ≠ 0

theorem Taken.not_nothingChanged {s u : Fs} {p : Fin nrInode} (h : Taken s u p) :
    ¬NothingChanged s u := by
  intro hsame
  rcases hsame.inodeTable p with he | ⟨hs, hu⟩
  · exact h.iCnt (by rw [he])
  · exact h.of_free hs hu

section

variable {s t u : Fs} {path : List Byte}

/-! ## Looking a name up -/

theorem onlyBuffer_rdSect {dev x : Int} : Preserves (OnlyBuffer s) (rdSect dev x) := by
  rintro t ⟨M, rfl⟩
  exact wp_rwSector_of ⟨_, rfl⟩ (fun h => absurd rfl h) fun _ => ⟨M, rfl⟩

theorem onlyBuffer_deInode {j : Nat} : Preserves (OnlyBuffer s) (deInode j) :=
  .bind (.bind .get fun _ => .pure _) fun _ => .pure _

theorem onlyBuffer_deName {j : Nat} : Preserves (OnlyBuffer s) (deName j) :=
  .bind .get fun _ => .pure _

theorem onlyBuffer_deref {α : Type} {a : Option α} : Preserves (OnlyBuffer s) (deref a) := by
  cases a with
  | none => exact .throw _
  | some a => exact .pure a

theorem onlyBuffer_searchEntries {filename : List Byte} {n : Int} {fuel j : Nat} {m : Int} :
    Preserves (OnlyBuffer s) (searchEntries filename n fuel j m) := by
  induction fuel generalizing j m with
  | zero => exact .pure _
  | succ fuel ih =>
    exact .bind onlyBuffer_deName fun _ =>
      .ite (.bind onlyBuffer_deInode fun _ => .pure _) (.ite (.pure _) ih)

theorem onlyBuffer_searchBlks {filename : List Byte} {dir : Inode} {n : Int} {fuel : Nat} {i m : Int} :
    Preserves (OnlyBuffer s) (searchBlks filename dir n fuel i m) := by
  induction fuel generalizing i m with
  | zero => exact .pure _
  | succ fuel ih =>
    refine .bind onlyBuffer_rdSect fun _ => .bind onlyBuffer_searchEntries fun r => ?_
    cases r with
    | inl r => exact .pure r
    | inr m => exact ih

theorem onlyBuffer_stripPath : Preserves (OnlyBuffer s) (stripPath path) := .bind .get fun _ => .pure _

theorem onlyBuffer_searchFile : Preserves (OnlyBuffer s) (searchFile path) := by
  refine .bind onlyBuffer_stripPath fun r => ?_
  cases r with
  | none => exact .pure 0
  | some r => exact .bind onlyBuffer_deref fun _ => .bind .get fun _ => .ite (.pure _) onlyBuffer_searchBlks

theorem onlyBuffer_natOf {x : Int} : Preserves (OnlyBuffer s) (natOf x) := .ite (.pure _) (.throw _)

theorem onlyBuffer_procAt {x : Int} : Preserves (OnlyBuffer s) (procAt x) := by
  unfold procAt
  split
  · exact .pure _
  · exact .throw _

theorem onlyBuffer_fetchPathname : Preserves (OnlyBuffer s) fetchPathname :=
  .bind .get fun _ => .bind onlyBuffer_procAt fun _ => .bind .ensure fun _ =>
    .bind (.bind .get fun _ => .bind (.onlyIf .ensure) fun _ => .pure _) fun _ =>
      .bind onlyBuffer_natOf fun _ => .pure _

theorem OnlyBuffer.trans (h : OnlyBuffer s t) (h' : OnlyBuffer t u) : OnlyBuffer s u := by
  obtain ⟨M, rfl⟩ := h
  obtain ⟨N, rfl⟩ := h'
  exact ⟨N, rfl⟩

theorem OnlyBuffer.rfl : OnlyBuffer s s := ⟨s.mem, Eq.refl _⟩

/-! ## Taking an inode -/

section

variable {q : Fin nrInode} {n : Int}

theorem cnt_rdSect {dev x : Int} :
    Preserves (fun t : Fs => (t.inodeTable q).iCnt = n) (rdSect dev x) := fun _ ht =>
  wp_rwSector_of ht (fun _ => ht) fun _ => ht

theorem cnt_getSuperBlock {dev : Int} :
    Preserves (fun t : Fs => (t.inodeTable q).iCnt = n) (getSuperBlock dev) := by
  refine .bind .get fun t => ?_
  split
  · exact .pure _
  · exact .throw _

theorem cnt_natOf {x : Int} : Preserves (fun t : Fs => (t.inodeTable q).iCnt = n) (natOf x) :=
  .ite (.pure _) (.throw _)

theorem cnt_bufWord {j : Nat} : Preserves (fun t : Fs => (t.inodeTable q).iCnt = n) (bufWord j) :=
  .bind .get fun _ => .pure _

end

/-- `get_inode` takes a reference, except of number 0. -/
theorem wp_getInode_taken {dev num : Int} :
    wp (getInode dev num) (fun r u => match r with
      | none => num = 0 ∧ u = s
      | some p => Taken s u p) (fun _ _ => True) s := by
  have hE : ∀ (e : Halt) (t : Fs), True := fun _ _ => trivial
  rw [getInode, wp_ite]
  refine ⟨fun hnum => ⟨hnum, rfl⟩, fun _ => ?_⟩
  rw [wp_bind, wp_get]
  split
  case h_1 p hp =>
    have hcached : (s.inodeTable p).cached := (of_decide_eq_true (List.find?_some hp :)).1
    rw [wp_bind, wp_setInode]
    refine ⟨?_, fun hzero => absurd hzero hcached⟩
    rw [Fs.setInode_self]
    exact (Int.lt_succ _).ne'
  case h_2 =>
    split
    case h_1 => trivial
    case h_2 q hq =>
      have hfree : ¬(s.inodeTable q).cached := of_decide_eq_true (List.find?_some hq :)
      rw [wp_bind, wp_setInode]
      refine (cnt_getSuperBlock (q := q) (n := 1)).wp_bind hE (by rw [Fs.setInode_self])
        fun sb t ht => ?_
      refine cnt_rdSect.wp_bind hE ht fun _ t ht => ?_
      refine cnt_natOf.wp_bind hE ht fun off t ht => ?_
      refine cnt_bufWord.wp_bind hE ht fun mode t ht => ?_
      refine cnt_bufWord.wp_bind hE ht fun size t ht => ?_
      refine cnt_bufWord.wp_bind hE ht fun start t ht => ?_
      refine cnt_bufWord.wp_bind hE ht fun sects t ht => ?_
      rw [wp_bind, wp_setInode, wp_pure]
      have hcnt : ((t.setInode q ({ · with
          iMode := mode, iSize := size, iStartSect := start, iNrSects := sects })).inodeTable q).iCnt =
          1 := by
        rw [Fs.setInode_self, ht]
      refine ⟨?_, fun _ => ?_⟩
      · rw [hcnt, not_not.mp hfree]
        decide
      · rw [hcnt]
        decide

/-! ## Refused requests -/

theorem wp_createFile_none : wp (createFile path) (fun r u => r = none → OnlyBuffer s u)
    (fun _ _ => True) s := by
  have hE : ∀ (e : Halt) (t : Fs), True := fun _ _ => trivial
  rw [createFile, stripPath, wp_bind, wp_bind, wp_get, wp_pure]
  cases stripName path with
  | none => exact fun _ => .rfl
  | some filename =>
    refine wp_bind_any hE fun dirInode t => wp_bind_any hE fun _ t => wp_bind_any hE fun _ t => ?_
    refine wp_bind_any hE fun _ t => wp_bind_any hE fun _ t => wp_bind_any hE fun _ t => ?_
    exact wp_bind_any hE fun _ t => fun h => by simp at h

theorem wp_openedInode_none {flags : Int} : wp (openedInode path flags)
    (fun r u => r = none → OnlyBuffer s u) (fun _ _ => True) s := by
  have hE : ∀ (e : Halt) (t : Fs), True := fun _ _ => trivial
  refine onlyBuffer_searchFile.wp_bind hE .rfl fun nr t ht => ?_
  rw [wp_ite, wp_ite]
  refine ⟨fun _ => ⟨fun _ _ => ht, fun _ => ?_⟩, fun _ => ?_⟩
  · exact wp_createFile_none.mono (fun _ _ h hnone => ht.trans (h hnone)) fun _ _ h => h
  · refine Preserves.ensure.wp_bind hE ht fun _ t ht => ?_
    rw [stripPath, wp_bind, wp_bind, wp_get, wp_pure]
    cases stripName path with
    | none => exact fun _ => ht
    | some filename =>
      refine onlyBuffer_deref.wp_bind hE ht fun dirInode t ht => ?_
      rw [wp_bind, wp_get]
      refine wp_getInode_taken.mono (fun r u hr hnone => ?_) fun _ _ h => h
      subst hnone
      exact hr.2 ▸ ht

theorem wp_doOpen_refused : wp doOpen (fun r u => r = -1 → OnlyBuffer s u) (fun _ _ => True) s := by
  have hE : ∀ (e : Halt) (t : Fs), True := fun _ _ => trivial
  rw [doOpen, wp_bind, wp_get]
  refine onlyBuffer_fetchPathname.wp_bind hE .rfl fun path t ht => ?_
  rw [wp_bind, wp_get]
  split
  case h_1 => trivial
  case h_2 fd _ =>
    split
    case h_1 => trivial
    case h_2 d _ =>
      rw [wp_bind]
      refine wp_openedInode_none.mono (fun r u hr => ?_) fun _ _ h => h
      cases r with
      | none => exact fun _ => ht.trans (hr rfl)
      | some pin =>
        refine wp_bind_any hE fun _ _ => wp_bind_any hE fun _ _ => wp_bind_any hE fun _ _ hfd => ?_
        have : (fd.val : Int) ≠ -1 := by omega
        exact absurd hfd this

/-- The name is the root directory's or has no entry. -/
def NotFound (s : Fs) (path : List Byte) : Prop :=
  strcmp path [slash] = 0 ∨ ∃ t, searchFile path s = .ok 0 t

/-- `do_unlink` refuses a request before it takes a reference, or it keeps it. -/
theorem wp_doUnlink_refused (hpath : fetchPathname s = .ok path s) :
    wp doUnlink (fun r u => r = -1 → NotFound s path ∧ OnlyBuffer s u ∨
      ¬NotFound s path ∧ ∃ p, Taken s u p) (fun _ _ => True) s := by
  have hE : ∀ (e : Halt) (t : Fs), True := fun _ _ => trivial
  rw [doUnlink, wp_congr (bind_of_ok hpath), wp_ite]
  refine ⟨fun hroot _ => .inl ⟨.inl hroot, .rfl⟩, fun hroot => ?_⟩
  rw [wp_bind]
  cases hsearch : searchFile path s with
  | error e t => exact (wp_of_error hsearch).mpr trivial
  | ok nr t =>
    refine (wp_of_ok hsearch).mpr ?_
    obtain ⟨M, rfl⟩ : OnlyBuffer s t := (wp_of_ok hsearch).mp (onlyBuffer_searchFile s .rfl)
    rw [wp_ite]
    refine ⟨fun hnr _ => .inl ⟨.inr ⟨_, hnr ▸ hsearch⟩, ⟨M, rfl⟩⟩, fun hnr => ?_⟩
    have hfound : ¬NotFound s path := by
      rintro (h | ⟨t, h⟩)
      · exact hroot h
      · rw [hsearch] at h
        injection h with h
        exact hnr h
    rw [wp_bind, stripPath, wp_bind, wp_get, wp_pure]
    cases hname : stripName path with
    | none =>
      have hstrip : stripPath path s = .ok none s := by
        change EStateM.Result.ok ((stripName path).map fun filename => (filename, s.rootInode)) s = _
        rw [hname]
        rfl
      exact absurd (.inr ⟨s, bind_of_ok hstrip⟩) hfound
    | some filename =>
      refine onlyBuffer_deref.wp_bind hE ⟨M, rfl⟩ fun dirInode t ht => ?_
      obtain ⟨N, rfl⟩ := ht
      rw [wp_bind, wp_get, wp_bind]
      refine wp_getInode_taken.mono (fun r u hr => ?_) fun _ _ h => h
      cases r with
      | none => trivial
      | some pin =>
        have htaken : ∃ p, Taken s u p := ⟨pin, hr.iCnt, hr.of_free⟩
        rw [wp_bind, wp_deref_some, wp_bind, wp_get, wp_ite, wp_ite]
        refine ⟨fun _ _ => .inr ⟨hfound, htaken⟩, fun _ => ⟨fun _ _ => .inr ⟨hfound, htaken⟩, fun _ => ?_⟩⟩
        exact wp_bind_any hE fun _ _ h => absurd h (by decide)

/-- Requests that are refused change nothing: those of `do_open` always, those of `do_unlink` exactly when
no reference was taken. -/
theorem refused_nothingChanged (s u : Fs) :
    (doOpen s = .ok (-1) u → NothingChanged s u) ∧
    ∀ path, fetchPathname s = .ok path s → doUnlink s = .ok (-1) u →
      (NothingChanged s u ↔ NotFound s path) := by
  refine ⟨fun hu => ?_, fun path hpath hu => ?_⟩
  · exact ((wp_of_ok hu).mp wp_doOpen_refused rfl).nothingChanged
  · rcases (wp_of_ok hu).mp (wp_doUnlink_refused hpath) rfl with ⟨hnot, hbuf⟩ | ⟨hfound, p, htaken⟩
    · exact iff_of_true hbuf.nothingChanged hnot
    · exact iff_of_false htaken.not_nothingChanged hfound

end

/-- Process 6 has the only file open, a, and sends a name of one character. -/
def namedFile (c : Byte) : Fs where
  disk x := if x = 512 * 300 then 2 else if x = 512 * 300 + 4 then 0x61 else 0
  mem x := if x = 0x1000000 then c else 0
  procTable _ := {}
  filp p i := if p = 6 ∧ i = 0 then some 0 else none
  fDescTable d := if d = 0 then { fdMode := 2, fdCnt := 1, fdInode := some 1 } else {}
  inodeTable p :=
    if p = 0 then
      { iMode := iDirectory, iSize := 16, iStartSect := 300, iNrSects := 2048, iDev := rootDev,
        iCnt := 1, iNum := 1 }
    else if p = 1 then
      { iMode := iRegular, iSize := 10, iStartSect := 2348, iNrSects := 2048, iDev := rootDev,
        iCnt := 1, iNum := 2 }
    else {}
  superBlock _ := { newSuperBlock 40960 with sbDev := rootDev }
  rootInode := some 0
  pcaller := 6
  fsMsg := { source := 6, u := { m3i1 := 2, m3i2 := 1, m3p1 := 0x1000000 } }
  logPos := 0
  geoSize := 40960
  ttyReply m := m
  copies := []

theorem refused_namedFile : ∃ u v, doOpen (namedFile 0x62) = .ok (-1) u ∧
    NothingChanged (namedFile 0x62) u ∧ doUnlink (namedFile 0x62) = .ok (-1) v ∧
    NothingChanged (namedFile 0x62) v := by
  have hpath : fetchPathname (namedFile 0x62) = .ok [0x62] (namedFile 0x62) := by rfl
  have hopen : wp doOpen (fun r _ => r = -1) (fun _ _ => False) (namedFile 0x62) := by decide +kernel
  have hunlink : wp doUnlink (fun r _ => r = -1) (fun _ _ => False) (namedFile 0x62) := by
    decide +kernel
  have hsearch : wp (searchFile [0x62]) (fun r _ => r = 0) (fun _ _ => False) (namedFile 0x62) := by
    decide +kernel
  obtain ⟨_, u, hu, rfl⟩ := hopen.exists_ok
  obtain ⟨_, v, hv, rfl⟩ := hunlink.exists_ok
  obtain ⟨_, t, ht, rfl⟩ := hsearch.exists_ok
  exact ⟨u, v, hu, (refused_nothingChanged _ u).1 hu, hv,
    ((refused_nothingChanged _ v).2 [0x62] hpath hv).mpr (.inr ⟨t, ht⟩)⟩

/-- Removing the open file is refused, but a reference to it stays. -/
theorem not_refused_namedFile : ∃ u, doUnlink (namedFile 0x61) = .ok (-1) u ∧
    ¬NothingChanged (namedFile 0x61) u := by
  have hunlink : wp doUnlink (fun r u => r = -1 ∧ (u.inodeTable 1).iCnt = 2) (fun _ _ => False)
      (namedFile 0x61) := by
    decide +kernel
  obtain ⟨_, u, hu, rfl, hcnt⟩ := hunlink.exists_ok
  have hone : ((namedFile 0x61).inodeTable 1).iCnt = 1 := rfl
  have htaken : Taken (namedFile 0x61) u 1 :=
    ⟨by rw [hcnt, hone]; decide, fun h => by rw [hone] at h; exact absurd h (by decide)⟩
  exact ⟨u, hu, htaken.not_nothingChanged⟩

end Dlos
