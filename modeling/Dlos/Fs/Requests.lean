import Dlos.Fs.Cache
import Dlos.Fs.CreateFile
import Dlos.Fs.Refused

/-!
# What a request does

Each request by the states it can lead to. What an invariant of the file system is to say of a request, it
says of these.
-/

namespace Dlos

open Program Bytes Slot

variable {size : BitVec 32} {n : Nat} {p q : Fin nrInode} {s t u : Fs} {path : List Byte} {num : Int}
  {E : Halt → Fs → Prop}

/-! ## Looking a name up -/

/-- What `search_file` answers. -/
def Fs.searched (s : Fs) (size : BitVec 32) (n : Nat) (path : List Byte) : Int :=
  match stripName path with
  | none => 0
  | some [] => 1
  | some name => (lookup (dirSlots s.disk (dirAddr size)) (n + 1) (padName name)).toInt

theorem searched_of_ne {name : List Byte} (hname : stripName path = some name) (hne : name ≠ []) :
    s.searched size n path = (lookup (dirSlots s.disk (dirAddr size)) (n + 1) (padName name)).toInt := by
  rw [Fs.searched, hname]
  cases name with
  | nil => exact absurd rfl hne
  | cons a l => rfl

theorem RootDir.wp_search {Q : Int → Fs → Prop} (h : RootDir size n p s)
    (hQ : ∀ M, Q (s.searched size n path) (s.io s.disk M)) : wp (searchFile path) Q E s := by
  cases hname : stripName path with
  | none =>
    have hzero : s.searched size n path = 0 := by rw [Fs.searched, hname]
    rw [searchFile, wp_bind, stripPath, wp_bind, wp_get, wp_pure, hname]
    exact hzero ▸ hQ s.mem
  | some name =>
    by_cases hne : name = []
    · have hone : s.searched size n path = 1 := by rw [Fs.searched, hname, hne]
      rw [searchFile, wp_bind, stripPath, wp_bind, wp_get, wp_pure, hname, Option.map_some, wp_bind,
        h.rootInode, wp_deref_some, wp_bind, wp_get, if_pos hne, wp_pure, h.iNum]
      have := hQ s.mem
      rwa [hone] at this
    · refine h.wp_searchFile hname hne fun M => ?_
      rw [← searched_of_ne hname hne]
      exact hQ M

/-! ## Taking an inode -/

/-- `get_inode` returned slot `q`: its inode is counted once more, or inode `num` was read into it. -/
inductive Got (size : BitVec 32) (s : Fs) (num : Int) (q : Fin nrInode) : Fs → Prop
  | counted {M : Store} : (s.inodeTable q).cached → (s.inodeTable q).iDev = rootDev →
    (s.inodeTable q).iNum = num →
    Got size s num q ((s.setInode q fun i => { i with iCnt := i.iCnt + 1 }).io s.disk M)
  | read {M : Store} {r : Record} : ¬(s.inodeTable q).cached →
    (∀ q', (s.inodeTable q').cached → (s.inodeTable q').iDev = rootDev → (s.inodeTable q').iNum ≠ num) →
    (∀ m : Nat, num = m → m < 4096 → r = recordAt s.disk (inodeAddr size m)) →
    Got size s num q ((s.setInode q fun _ => r.inode num).io s.disk M)

theorem Got.of_io {M : Store} (h : Got size (s.io s.disk M) num q u) : Got size s num q u := by
  cases h with
  | counted hc hdev hnum => exact .counted hc hdev hnum
  | read hfree hunread hr => exact .read hfree hunread hr

/-- An inode cannot be taken: it is not cached, and there is no free slot or no place for it on the
disk. -/
structure NoInode (s : Fs) (num : Int) : Prop where
  unread : ∀ q, (s.inodeTable q).cached → (s.inodeTable q).iDev = rootDev → (s.inodeTable q).iNum ≠ num
  full : (∀ q, (s.inodeTable q).cached) ∨ inodeOff num < 0

theorem wp_got {Q : Option (Fin nrInode) → Fs → Prop} (hsb : s.super rootDev = some (rootSuper size))
    (hnone : num = 0 → Q none s) (hQ : num ≠ 0 → ∀ q u, Got size s num q u → Q (some q) u)
    (hE : num ≠ 0 → NoInode s num → ∀ e t, E e t) : wp (getInode rootDev num) Q E s := by
  by_cases hnum : num = 0
  · rw [getInode, if_pos hnum, wp_pure]
    exact hnone hnum
  · by_cases hunread : ∀ q, (s.inodeTable q).cached → (s.inodeTable q).iDev = rootDev →
        (s.inodeTable q).iNum ≠ num
    · refine wp_getInode hsb hnum (fun q hc hdev hn => absurd hn (hunread q hc hdev))
        (fun hunread q M r hfree _ hr => hQ hnum q _ (.read hfree hunread hr))
        (fun hall => hE hnum ⟨hunread, .inl hall⟩ _ _) fun hoff => hE hnum ⟨hunread, .inr (not_le.mp hoff)⟩ _
    · -- it is cached, so that neither of the failures can happen
      rw [getInode, if_neg hnum, wp_bind, wp_get]
      split
      case h_1 q hq =>
        obtain ⟨hc, hdev, hn⟩ := of_decide_eq_true (List.find?_some hq :)
        exact hQ hnum q _ (.counted (M := s.mem) hc hdev hn)
      case h_2 hno =>
        refine absurd (fun q hc hdev hn => ?_) hunread
        have := List.find?_eq_none.mp hno q (List.mem_finRange q)
        simp only [decide_eq_true_eq, not_and] at this
        exact this hc hdev hn

/-! ## Opening -/

/-- What `do_open` demands of the file that was opened. -/
def Inode.Openable (i : Inode) : Prop :=
  if i.iMode &&& iTypeMask = iCharSpecial then major i.iStartSect.toInt = devCharTty
  else if i.iMode &&& iTypeMask = iDirectory then i.iNum = rootInodeNr
  else i.iMode = iRegular

theorem wp_checkOpened {Q : Unit → Fs → Prop} (hQ : (s.inodeTable q).Openable → Q () s)
    (hE : ¬(s.inodeTable q).Openable → ∀ e, E e s) : wp (checkOpened q) Q E s := by
  unfold Inode.Openable at hQ hE
  rw [checkOpened, wp_bind, wp_get, wp_ite, wp_ite]
  refine ⟨fun hchar => ?_, fun hchar => ⟨fun hdir => ?_, fun hdir => ?_⟩⟩
  · rw [if_pos hchar] at hQ hE
    rw [wp_bind, wp_assert]
    refine ⟨fun hmajor => ?_, fun hmajor => hE hmajor _⟩
    have hdriver : driverOf (s.inodeTable q).iStartSect.toInt s = .ok taskTty s := by
      have htty : ddMap[devCharTty]? = some (some taskTty) := by decide
      rw [driverOf, hmajor, htty]
      rfl
    change wp (driverOf _ >>= fun _ => pure ()) Q E s
    rw [wp_bind, wp_of_ok hdriver, wp_pure]
    exact hQ hmajor
  · rw [if_neg hchar, if_pos hdir] at hQ hE
    rw [wp_assert]
    exact ⟨hQ, fun hnum => hE hnum _⟩
  · rw [if_neg hchar, if_neg hdir] at hQ hE
    rw [wp_assert]
    exact ⟨hQ, fun hmode => hE hmode _⟩

/-- No inode is opened: the name is to be created and exists, or cannot be; or it is to be opened and does
not exist. -/
structure NotOpened (size : BitVec 32) (n : Nat) (s : Fs) (path : List Byte) (flags : Int) : Prop where
  allowed : hasFlag flags oCreat ∨ hasFlag flags oRdwr
  create : hasFlag flags oCreat → s.searched size n path ≠ 0 ∨ stripName path = none
  found : ¬hasFlag flags oCreat → s.searched size n path = 0

/-- Opening an inode stops the FS task. -/
inductive OpenFails (size : BitVec 32) (n : Nat) (s : Fs) (path : List Byte) (flags : Int) : Prop
  | create : hasFlag flags oCreat → s.searched size n path = 0 → stripName path ≠ none → NoRoom size s →
    OpenFails size n s path flags
  | readOnly : ¬hasFlag flags oCreat → ¬hasFlag flags oRdwr → OpenFails size n s path flags
  | noInode : ¬hasFlag flags oCreat → hasFlag flags oRdwr → s.searched size n path ≠ 0 → NoInode s (s.searched size n path) →
    OpenFails size n s path flags

theorem wp_openedInode {flags : Int} {Q : Option (Fin nrInode) → Fs → Prop} (h : RootDir size n p s)
    (hc : Creatable size n s) (hnone : NotOpened size n s path flags → ∀ M, Q none (s.io s.disk M))
    (hgot : ¬hasFlag flags oCreat → hasFlag flags oRdwr → s.searched size n path ≠ 0 → ∀ q u,
      Got size s (s.searched size n path) q u → Q (some q) u)
    (hcreated : hasFlag flags oCreat → s.searched size n path = 0 → ∀ name x b k q u,
      stripName path = some name → 2 ≤ x → FileCreated size n p s name x b k q u → Q (some q) u)
    (hE : OpenFails size n s path flags → ∀ e t, E e t) : wp (openedInode path flags) Q E s := by
  rw [openedInode, wp_bind]
  refine h.wp_search fun M => ?_
  rw [wp_ite, wp_ite]
  refine ⟨fun hcreat => ⟨fun hexists => ?_, fun hnew => ?_⟩, fun hcreat => ?_⟩
  · exact hnone ⟨.inl hcreat, fun _ => .inl hexists, fun hno => absurd hcreat hno⟩ M
  · have hzero : s.searched size n path = 0 := not_not.mp hnew
    refine h.io.wp_createFile ⟨hc.le, hc.zero, hc.one, hc.first⟩ (fun hname => ?_)
      (fun name x b k q u hname hx hu => hcreated hcreat hzero name x b k q u hname hx hu.of_io)
      fun hname hroom => hE (.create hcreat hzero hname ?_)
    · exact hnone ⟨.inl hcreat, fun _ => .inr hname, fun hno => absurd hcreat hno⟩ M
    · cases hroom with
      | inodes hfull => exact .inodes hfull
      | sectors hno => exact .sectors hno
      | table hall => exact .table hall
  · rw [wp_bind, wp_assert]
    refine ⟨fun hrdwr => ?_, fun hrdwr => hE (.readOnly hcreat hrdwr) _ _⟩
    rw [wp_bind, stripPath, wp_bind, wp_get, wp_pure]
    cases hname : stripName path with
    | none =>
      have hzero : s.searched size n path = 0 := by rw [Fs.searched, hname]
      exact hnone ⟨.inr hrdwr, fun hyes => absurd hyes hcreat, fun _ => hzero⟩ M
    | some name =>
      rw [Option.map_some, Fs.io_rootInode, h.rootInode, wp_bind, wp_deref_some, wp_bind, wp_get,
        Fs.io_inodeTable, h.iDev]
      refine wp_got h.io.super (fun hzero => ?_) (fun hne q u hu => ?_) fun hne hno => ?_
      · exact hnone ⟨.inr hrdwr, fun hyes => absurd hyes hcreat, fun _ => hzero⟩ M
      · exact hgot hcreat hrdwr hne q u hu.of_io
      · exact hE (.noInode hcreat hrdwr hne ⟨hno.unread, hno.full⟩)

/-- The places for an open file: the first free one of the process, and the first free descriptor. -/
structure OpenPlace (s : Fs) (fd : Fin nrFiles) (d : Fin nrFileDesc) : Prop where
  file : (List.finRange nrFiles).find? (fun i => s.filp s.pcaller i = none) = some fd
  desc : (List.finRange nrFileDesc).find? (fun d => (s.fDescTable d).fdInode = none) = some d

/-- A descriptor for inode `q` in the place of file `fd` of a process. -/
def Fs.opened (s : Fs) (pid : Pid) (fd : Fin nrFiles) (d : Fin nrFileDesc) (q : Fin nrInode)
    (flags : Int) : Fs :=
  (s.setFilp pid fd (some d)).setDesc d fun _ => { fdInode := some q, fdMode := flags, fdCnt := 1, fdPos := 0 }

/-- What `do_open` does: it refuses the request, or opens a file that was there, or one that it creates. -/
inductive Opened (size : BitVec 32) (n : Nat) (p : Fin nrInode) (s : Fs) : Int → Fs → Prop
  | refused {path : List Byte} {fd : Fin nrFiles} {d : Fin nrFileDesc} {M : Store} : fetchPathname s = .ok path s →
    OpenPlace s fd d → NotOpened size n s path s.fsMsg.flags → Opened size n p s (-1) (s.io s.disk M)
  | found {path : List Byte} {fd : Fin nrFiles} {d : Fin nrFileDesc} {q : Fin nrInode} {t : Fs} :
    fetchPathname s = .ok path s → OpenPlace s fd d → ¬hasFlag s.fsMsg.flags oCreat →
    hasFlag s.fsMsg.flags oRdwr → s.searched size n path ≠ 0 → Got size s (s.searched size n path) q t → (t.inodeTable q).Openable →
    Opened size n p s (fd.val : Int) (t.opened s.pcaller fd d q s.fsMsg.flags)
  | created {path name : List Byte} {fd : Fin nrFiles} {d : Fin nrFileDesc} {q : Fin nrInode}
    {x b k : Nat} {t : Fs} : fetchPathname s = .ok path s → OpenPlace s fd d →
    hasFlag s.fsMsg.flags oCreat → s.searched size n path = 0 → stripName path = some name → 2 ≤ x →
    FileCreated size n p s name x b k q t →
    Opened size n p s (fd.val : Int) (t.opened s.pcaller fd d q s.fsMsg.flags)

/-- What stops `do_open`. -/
inductive OpenStops (size : BitVec 32) (n : Nat) (s : Fs) : Prop
  | path : (∀ path, fetchPathname s ≠ .ok path s) → OpenStops size n s
  | file : (∀ i, s.filp s.pcaller i ≠ none) → OpenStops size n s
  | desc : (∀ d, (s.fDescTable d).fdInode ≠ none) → OpenStops size n s
  | inode {path : List Byte} : fetchPathname s = .ok path s → OpenFails size n s path s.fsMsg.flags →
    OpenStops size n s
  | kind {path : List Byte} {q : Fin nrInode} {t : Fs} : fetchPathname s = .ok path s →
    ¬hasFlag s.fsMsg.flags oCreat → s.searched size n path ≠ 0 → Got size s (s.searched size n path) q t →
    ¬(t.inodeTable q).Openable → OpenStops size n s

theorem openable_newFile {x b : Nat} : (newFile size x b).Openable := by
  have hregular : (newFile size x b).iMode = iRegular := rfl
  rw [Inode.Openable, hregular, if_neg (by decide), if_neg (by decide)]

theorem wp_doOpen {Q : Int → Fs → Prop} (h : RootDir size n p s) (hc : Creatable size n s)
    (hQ : ∀ r u, Opened size n p s r u → Q r u) (hE : OpenStops size n s → ∀ e t, E e t) :
    wp doOpen Q E s := by
  rw [doOpen, wp_bind, wp_get, wp_bind]
  by_cases hfetch : ∃ path, fetchPathname s = .ok path s
  · obtain ⟨path, hpath⟩ := hfetch
    rw [wp_of_ok hpath, wp_bind, wp_get]
    split
    case h_1 hno =>
      refine hE (.file fun i hi => ?_) _ _
      have := List.find?_eq_none.mp hno i (List.mem_finRange i)
      exact this (decide_eq_true hi)
    case h_2 fd hfd =>
      split
      case h_1 hno =>
        refine hE (.desc fun d hd => ?_) _ _
        have := List.find?_eq_none.mp hno d (List.mem_finRange d)
        exact this (decide_eq_true hd)
      case h_2 d hd =>
        have hplace : OpenPlace s fd d := ⟨hfd, hd⟩
        have hinode {t : Fs} {q : Fin nrInode} :
            (t.opened s.pcaller fd d q s.fsMsg.flags).inodeTable = t.inodeTable := rfl
        rw [wp_bind]
        refine wp_openedInode h hc (fun hno M => ?_) (fun hcreat hrdwr hne q t ht => ?_)
          (fun hcreat hzero name x b k q t hname hx ht => ?_) fun hfails => hE (.inode hpath hfails)
        · exact hQ _ _ (.refused hpath hplace hno)
        · rw [wp_bind, wp_setFilp, wp_bind, wp_setDesc, wp_bind]
          change wp (checkOpened q) _ E (t.opened s.pcaller fd d q s.fsMsg.flags)
          refine wp_checkOpened (fun hopen => ?_) fun hopen e => hE (.kind hpath hcreat hne ht ?_) e _
          · rw [hinode] at hopen
            exact hQ _ _ (.found hpath hplace hcreat hrdwr hne ht hopen)
          · rwa [hinode] at hopen
        · rw [wp_bind, wp_setFilp, wp_bind, wp_setDesc, wp_bind]
          change wp (checkOpened q) _ E (t.opened s.pcaller fd d q s.fsMsg.flags)
          refine wp_checkOpened (fun _ => ?_) fun hopen => absurd ?_ hopen
          · exact hQ _ _ (.created hpath hplace hcreat hzero hname hx ht)
          · rw [hinode, ht.inode]
            exact openable_newFile
  · refine wp_fetchPathname (fun path hpath => absurd ⟨path, hpath⟩ hfetch) fun e _ => ?_
    exact hE (.path fun path hpath => hfetch ⟨path, hpath⟩) e s

/-! ## Unlinking -/

/-- Slot `q` of the inode table, which took inode `num`, was free and is free again; the descriptors and the
other slots are as they were, but for the root directory's size. -/
structure SlotFreed (s : Fs) (p q : Fin nrInode) (num : Int) (u : Fs) : Prop where
  ne : q ≠ p
  unread : ∀ q', (s.inodeTable q').cached → (s.inodeTable q').iDev = rootDev → (s.inodeTable q').iNum ≠ num
  free : ¬(s.inodeTable q).cached
  freed : ¬(u.inodeTable q).cached
  others : ∀ q', q' ≠ q → q' ≠ p → u.inodeTable q' = s.inodeTable q'
  filp : u.filp = s.filp

/-- What `do_unlink` does: it finds nothing to remove, or refuses to remove the inode that it has taken, or
removes a file. -/
inductive Unlinked (size : BitVec 32) (n : Nat) (p : Fin nrInode) (s : Fs) : Int → Fs → Prop
  | same {path : List Byte} {M : Store} : fetchPathname s = .ok path s →
    strcmp path [slash] = 0 ∨ s.searched size n path = 0 → Unlinked size n p s (-1) (s.io s.disk M)
  | refused {path : List Byte} {q : Fin nrInode} {u : Fs} : fetchPathname s = .ok path s →
    s.searched size n path ≠ 0 → Got size s (s.searched size n path) q u →
    (u.inodeTable q).iMode ≠ iRegular ∨ 1 < (u.inodeTable q).iCnt → Unlinked size n p s (-1) u
  | removed {path name : List Byte} {num b cnt k : Nat} {q : Fin nrInode} {u : Fs} :
    FileOf size n s path name num b cnt →
    first (fun k => (dirSlots s.disk (dirAddr size) k).val = BitVec.ofNat 32 num) n = some k →
    FileRemoved size n p s num b cnt k u → SlotFreed s p q num u → Unlinked size n p s 0 u

/-- The inode in slot `q`, counted `c` times, is the only one that was changed besides the directory's. -/
structure OnlySlot (s : Fs) (p q : Fin nrInode) (c : Int) (u : Fs) : Prop where
  iCnt : (u.inodeTable q).iCnt = c
  others : ∀ q', q' ≠ q → q' ≠ p → u.inodeTable q' = s.inodeTable q'
  filp : u.filp = s.filp

theorem ignoresIo_onlySlot {c : Int} : IgnoresIo (OnlySlot s p q c) := fun _ _ _ _ h =>
  ⟨h.iCnt, h.others, h.filp⟩

theorem onlySlot_setInode {c c' : Int} {f : Inode → Inode} (hf : ∀ i, i.iCnt = c → (f i).iCnt = c')
    (hu : OnlySlot s p q c u) : OnlySlot s p q c' (u.setInode q f) where
  iCnt := by
    rw [Fs.setInode_self]
    exact hf _ hu.iCnt
  others q' hq hp := by rw [Fs.setInode_of_ne hq, hu.others q' hq hp]
  filp := hu.filp

theorem preserves_onlySlot_removeDirEntry {c : Int} (hq : q ≠ p) :
    Preserves (OnlySlot s p q c) (removeDirEntry p num) := by
  have hio : IgnoresIo (OnlySlot s p q c) := ignoresIo_onlySlot
  have hset {f : Inode → Inode} : Preserves (OnlySlot s p q c) (setInode p f) := fun u hu =>
    ⟨(congrArg Inode.iCnt (Fs.setInode_of_ne hq)).trans hu.iCnt,
      fun q' hq' hp => (Fs.setInode_of_ne hp).trans (hu.others q' hq' hp), hu.filp⟩
  exact .bind .get fun _ => .bind hio.clearEntryBlks fun _ => .bind .ensure fun _ =>
    .onlyIf (.bind hset fun _ => hio.syncInode)

/-- `do_unlink` gives the slot that it has used back. -/
theorem wp_removeFile_onlySlot (hq : q ≠ p) (hcnt : (s.inodeTable q).iCnt = 1) :
    wp (removeFile p q num) (fun _ => OnlySlot s p q 0) (fun _ _ => True) s := by
  have hE : ∀ (e : Halt) (t : Fs), True := fun _ _ => trivial
  have hio {c : Int} : IgnoresIo (OnlySlot s p q c) := ignoresIo_onlySlot
  have hs : OnlySlot s p q 1 s := ⟨hcnt, fun _ _ _ => rfl, rfl⟩
  rw [removeFile, wp_bind, wp_get]
  refine IgnoresIo.getSuperBlock.wp_bind hE hs fun sb t ht => ?_
  refine hio.freeImapBit.wp_bind hE ht fun _ t ht => ?_
  refine hio.freeSmapBits.wp_bind hE ht fun _ t ht => ?_
  rw [wp_bind, wp_setInode]
  refine hio.syncInode.wp_bind hE (onlySlot_setInode (fun _ h => h) ht) fun _ t ht => ?_
  rw [wp_bind, putInode, wp_bind, wp_get, wp_bind, wp_assert]
  refine ⟨fun _ => ?_, fun _ => trivial⟩
  rw [wp_setInode]
  have hclosed (i : Inode) (hi : i.iCnt = 1) : i.iCnt - 1 = 0 := by omega
  exact (preserves_onlySlot_removeDirEntry hq _ (onlySlot_setInode hclosed ht)).mono
    (fun _ _ hu => hu) fun _ _ _ => trivial

theorem wp_unlinkInode_tables {Q : Int → Fs → Prop} (h : RootDir size n p s) (hsame : s.searched size n path = 0 → Q (-1) s)
    (hrefused : s.searched size n path ≠ 0 → ∀ q u, Got size s (s.searched size n path) q u →
      (u.inodeTable q).iMode ≠ iRegular ∨ 1 < (u.inodeTable q).iCnt → Q (-1) u)
    (hfreed : ∀ q u, SlotFreed s p q (s.searched size n path) u → Q 0 u) :
    wp (unlinkInode path (s.searched size n path)) Q (fun _ _ => True) s := by
  have hE : ∀ (e : Halt) (t : Fs), True := fun _ _ => trivial
  rw [unlinkInode, wp_ite]
  refine ⟨hsame, fun hne => ?_⟩
  rw [wp_bind, stripPath, wp_bind, wp_get, wp_pure]
  cases hname : stripName path with
  | none =>
    have hzero : s.searched size n path = 0 := by rw [Fs.searched, hname]
    exact hsame hzero
  | some name =>
    rw [Option.map_some, h.rootInode, wp_bind, wp_deref_some, wp_bind, wp_get, wp_bind, h.iDev]
    refine wp_got h.super (fun _ => trivial) (fun hne q u hu => ?_) fun _ _ => hE
    rw [wp_bind, wp_deref_some, wp_bind, wp_get, wp_ite, wp_ite]
    refine ⟨fun hmode => hrefused hne q u hu (.inl hmode),
      fun hmode => ⟨fun hcnt => hrefused hne q u hu (.inr hcnt), fun hcnt => ?_⟩⟩
    rw [wp_bind]
    cases hu with
    | counted hc hdev hnum =>
      refine wp_removeFile_uncounted ?_ ?_ fun _ _ _ => trivial
      · rw [Fs.io_inodeTable, Fs.setInode_self]
        exact hdev
      · rw [Inode.cached] at hc
        rw [Fs.io_inodeTable, Fs.setInode_self] at hcnt ⊢
        simp only [gt_iff_lt, not_lt] at hcnt ⊢
        omega
    | @read M r hfree hunread hr =>
      have hqp : q ≠ p := fun he => hfree (he ▸ h.cached)
      refine (wp_removeFile_onlySlot hqp ?_).imp fun _ v hv => ?_
      · rw [Fs.io_inodeTable, Fs.setInode_self]
        rfl
      · refine hfreed q v ⟨hqp, hunread, hfree, fun hc => hc hv.iCnt, fun q' hq hp => ?_, hv.filp⟩
        rw [hv.others q' hq hp, Fs.io_inodeTable, Fs.setInode_of_ne hq]

/-- `do_unlink` leaves the tables as they were, but for the slot that it uses. -/
theorem wp_doUnlink_tables (h : RootDir size n p s) :
    wp doUnlink (fun r u => r = -1 ∧ Unlinked size n p s (-1) u ∨ r = 0 ∧ ∃ path q,
      fetchPathname s = .ok path s ∧ SlotFreed s p q (s.searched size n path) u) (fun _ _ => True) s := by
  rw [doUnlink_eq, wp_bind]
  refine wp_fetchPathname (fun path hpath => ?_) fun _ _ => trivial
  rw [wp_ite]
  refine ⟨fun hroot => .inl ⟨rfl, .same (M := s.mem) hpath (.inl hroot)⟩, fun _ => ?_⟩
  rw [wp_bind]
  refine h.wp_search fun M => ?_
  refine wp_unlinkInode_tables (s := s.io s.disk M) h.io (fun hzero => .inl ⟨rfl, .same hpath (.inr hzero)⟩)
    (fun hne q u hu hno => ?_)
    fun q u hu => .inr ⟨rfl, path, q, hpath, hu.ne, hu.unread, hu.free, hu.freed, hu.others, hu.filp⟩
  exact .inl ⟨rfl, .refused hpath hne hu.of_io hno⟩

theorem wp_doUnlink (h : RootDir size n p s)
    (hin : ∀ m, 2 ≤ m → m < 4096 → bit s.disk (4096 * 2 + m) = true →
      (recordAt s.disk (inodeAddr size m)).mode = iRegular →
      ∃ b cnt, (recordAt s.disk (inodeAddr size m)).InMap size b cnt) :
    wp doUnlink (fun r u => Unlinked size n p s r u) (fun _ _ => True) s := by
  have hremoved : wp doUnlink (fun r u => r = 0 → ∃ path name num b cnt k,
      FileOf size n s path name num b cnt ∧
        first (fun k => (dirSlots s.disk (dirAddr size) k).val = BitVec.ofNat 32 num) n = some k ∧
          FileRemoved size n p s num b cnt k u) (fun _ _ => True) s := by
    refine h.wp_doUnlink hin (fun _ hzero => absurd hzero (by decide)) (fun _ _ _ hzero => absurd hzero (by decide))
      (fun path name num b cnt k u hfile hk hu _ => ⟨path, name, num, b, cnt, k, hfile, hk, hu⟩)
      (fun _ _ _ _ _ _ _ _ => trivial) fun _ _ _ => trivial
  refine ((wp_doUnlink_tables h).and hremoved).mono (fun r u hu => ?_) fun _ _ _ => trivial
  obtain ⟨⟨rfl, hu⟩ | ⟨rfl, path', q, hpath', hfreed⟩, hremoved⟩ := hu
  · exact hu
  · obtain ⟨path, name, num, b, cnt, k, hfile, hk, hu⟩ := hremoved rfl
    obtain rfl : path' = path := (EStateM.Result.ok.inj (hpath'.symm.trans hfile.fetched)).1
    have hlt := hfile.lt
    have hnum : s.searched size n path' = (num : Int) := by
      rw [searched_of_ne hfile.stripped hfile.ne_nil, hfile.lookup, toInt_ofNat_of_lt (by omega)]
    rw [hnum] at hfreed
    exact .removed hfile hk hu hfreed

end Dlos
