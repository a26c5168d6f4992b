import Dlos.Fs.Arguments
import Dlos.Fs.WriteFile

/-!
# Files as arrays of bytes

A model in which a file is an array of bytes with a size, and an open file a position in it. As long as
the requests stay within the sizes and the sectors of the files, the FS task answers what the model says.
-/

namespace Dlos

open Program Bytes

/-! ## The model -/

/-- The bytes and the sizes of the files, by their slots of the inode table, and the positions of the
descriptors. -/
structure Files where
  content : Fin nrInode → Store
  size : Fin nrInode → Nat
  pos : Fin nrFileDesc → Nat

namespace Files

/-- The `len` bytes at the position of descriptor `d`. -/
def read (f : Files) (d : Fin nrFileDesc) (p : Fin nrInode) (len : Nat) : List Byte :=
  bytes (f.content p) (f.pos d) len

def seek (f : Files) (d : Fin nrFileDesc) (len : Nat) : Files :=
  { f with pos := Function.update f.pos d (f.pos d + len) }

/-- The bytes `l` take the place of those at the position of `d`. -/
def write (f : Files) (d : Fin nrFileDesc) (p : Fin nrInode) (l : List Byte) : Files :=
  { f.seek d l.length with
    content := Function.update f.content p (putBytes (f.content p) (f.pos d) l)
    size := Function.update f.size p (max (f.size p) (f.pos d + l.length)) }

end Files

/-- A READ or a WRITE, with what the message and the memory hold besides. -/
structure FileIo where
  pid : Pid
  write : Bool
  fd : BitVec 32
  buf : Addr
  count : BitVec 32
  rest : Mess3
  mem : Store
  tty : Message → Message

namespace FileIo

def call (r : FileIo) : FileCall := if r.write then .write r.fd r.buf r.count else .read r.fd r.buf r.count

def message (r : FileIo) : Message := r.call.message r.pid r.rest

def event (r : FileIo) : FsEvent := ⟨.message r.message, r.mem, r.tty⟩

end FileIo

/-- What the model does for a request. -/
def Files.serve (f : Files) (r : FileIo) (d : Fin nrFileDesc) (p : Fin nrInode) : Files :=
  if r.write then f.write d p (bytes r.mem r.buf.toNat r.count.toNat) else f.seek d r.count.toNat

/-! ## The files of the FS task -/

/-- The descriptor and the inode that a request is for. -/
def Fs.target (s : Fs) (r : FileIo) : Option (Fin nrFileDesc × Fin nrInode) :=
  (s.openDesc r.pid r.fd.toInt).bind fun d => (s.fDescTable d).fdInode.map (d, ·)

/-- Inode `p` is a regular file that is open. -/
structure Fs.OpenFile (s : Fs) (d : Fin nrFileDesc) (p : Fin nrInode) : Prop where
  inode : (s.fDescTable d).fdInode = some p
  regular : (s.inodeTable p).iMode = iRegular

/-- A file on the root device whose positions are `int`s and whose bytes the driver can address. -/
structure Inode.Addressable (i : Inode) : Prop where
  dev : i.iDev = rootDev
  num : 1 ≤ i.iNum
  size : i.iSize.toNat ≤ 512 * i.iNrSects.toNat
  int : 512 * i.iNrSects.toNat < 2 ^ 31
  sects : i.iStartSect.toNat + i.iNrSects.toNat ≤ 2 ^ 23

/-- The open regular files lie apart from each other and from the inode array. -/
structure Fs.FilesApart (s : Fs) (sb : SuperBlock) : Prop where
  super : s.super rootDev = some sb
  file : ∀ d p, s.OpenFile d p → (s.inodeTable p).Addressable
  apart : ∀ d p e q, s.OpenFile d p → s.OpenFile e q → p ≠ q →
    ∀ a, InFile (s.inodeTable p) a → ¬InFile (s.inodeTable q) a
  data : ∀ d p e q, s.OpenFile d p → s.OpenFile e q →
    ∀ a, InFile (s.inodeTable p) a → ¬InInodeSector sb (s.inodeTable q).iNum a

/-- The model says what the open regular files hold. -/
structure Fs.Holds (s : Fs) (f : Files) : Prop where
  content : ∀ d p, s.OpenFile d p → ∀ x < 512 * (s.inodeTable p).iNrSects.toNat,
    s.disk (fileAddr (s.inodeTable p) x) = f.content p x
  size : ∀ d p, s.OpenFile d p → (s.inodeTable p).iSize.toNat = f.size p
  pos : ∀ d p, s.OpenFile d p → (s.fDescTable d).fdPos = (f.pos d : Nat)

/-- A request of a process whose segment starts at 0, for a regular file and within its size or its
sectors. -/
structure FileIo.Within (r : FileIo) (s : Fs) (d : Fin nrFileDesc) (p : Fin nrInode) : Prop where
  target : s.target r = some (d, p)
  regular : (s.inodeTable p).iMode = iRegular
  base : ldtSegLinear (s.procTable r.pid) indexLdtRw = 0
  count : 0 ≤ r.count.toInt
  buf_le : r.buf.toNat + r.count.toNat ≤ 2 ^ 32
  apart : r.buf.toNat + r.count.toNat ≤ fsbuf ∨ fsbuf + fsbufSize ≤ r.buf.toNat
  range : (s.fDescTable d).fdPos + r.count.toInt ≤
    if r.write then (512 * (s.inodeTable p).iNrSects.toNat : Nat) else ((s.inodeTable p).iSize.toNat : Nat)

/-- The task and the model. -/
structure Session where
  fs : Fs
  files : Files

/-- The requests from a state on in which the model says what the files hold. -/
def sessionMachine : Machine Session FileIo Halt where
  initial t := (∃ sb, t.fs.FilesApart sb) ∧ t.fs.Holds t.files
  step r t := (⟨(fsMachine.step r.event t.fs).1, match t.fs.target r with
    | some (d, p) => t.files.serve r d p
    | none => t.files⟩, (fsMachine.step r.event t.fs).2)

/-- The task goes on with the answer that the model gives: all bytes were moved, from or to the range at
the position of the descriptor. -/
structure ServedAs (s : Fs) (f : Files) (r : FileIo) (d : Fin nrFileDesc) (p : Fin nrInode) (u : Fs)
    (o : Option Halt) : Prop where
  goesOn : o = none
  answer : u.fsMsg.cnt = r.count.toInt
  holds : u.Holds (f.serve r d p)
  read : r.write = false → bytes u.mem r.buf.toNat r.count.toNat = f.read d p r.count.toNat ∧
    u.disk = s.disk
  /-- Outside the file nothing but an inode is written. -/
  other : ∀ sb, s.super rootDev = some sb → ∀ a, ¬InFile (s.inodeTable p) a →
    ¬InInodeSector sb (s.inodeTable p).iNum a → u.disk a = s.disk a

section

variable {s u v : Fs} {f : Files} {r : FileIo} {d e : Fin nrFileDesc} {p q : Fin nrInode}
  {sb : SuperBlock} {i : Inode} {pos j k len : Nat}

/-! ## Addresses -/

theorem readAddr_eq_fileAddr (h : 512 * i.iStartSect.toNat + (pos + j) < 2 ^ 32) :
    readAddr i pos j = fileAddr i (pos + j) := by
  rw [readAddr, fileAddr]
  omega

namespace Inode.Addressable

variable (h : i.Addressable)

include h

theorem reserved_eq : reserved i = 512 * i.iNrSects.toNat := by
  have hint := h.int
  rw [reserved, BitVec.toNat_mul, BitVec.toNat_ofNat, show sectorSize % 2 ^ 32 = 512 from rfl]
  omega

theorem readAddr_eq (hlt : pos + j < 512 * i.iNrSects.toNat) : readAddr i pos j = fileAddr i (pos + j) := by
  have hsects := h.sects
  exact readAddr_eq_fileAddr (by omega)

end Inode.Addressable

theorem inFile_fileAddr {x : Nat} (h : x < 512 * i.iNrSects.toNat) : InFile i (fileAddr i x) := by
  rw [InFile, fileAddr]
  omega

/-! ## A request -/

/-- The state in which the task serves a request. -/
def FileIo.received (r : FileIo) (s : Fs) : Fs :=
  Fs.received { s with mem := r.mem, ttyReply := r.tty } r.pid r.message

/-- Of the tables only the position of `d` and the size of `p` have changed. -/
structure BytesMoved (s : Fs) (d : Fin nrFileDesc) (p : Fin nrInode) (len : Nat) (u : Fs) : Prop where
  super : u.super rootDev = s.super rootDev
  fdInode : ∀ e, (u.fDescTable e).fdInode = (s.fDescTable e).fdInode
  fdPos : ∀ e, (u.fDescTable e).fdPos = (s.fDescTable e).fdPos + if e = d then (len : Int) else 0
  inode : ∀ q, ∃ w, u.inodeTable q = { s.inodeTable q with iSize := w } ∧
    (q ≠ p → w = (s.inodeTable q).iSize)

theorem Fs.Transferred.moved {m : Message} (h : (r.received s).Transferred d p len v) :
    BytesMoved s d p len { v with fsMsg := m } := by
  obtain ⟨D, M, C, w, rfl⟩ := h
  refine ⟨rfl, fun e => ?_, fun e => ?_, fun q => ?_⟩
  · by_cases he : e = d
    · subst he
      simp [Fs.advanced, Fs.setDesc, Fs.setInode, FileIo.received, Fs.received]
    · simp [Fs.advanced, Fs.setDesc, Fs.setInode, FileIo.received, Fs.received, he]
  · by_cases he : e = d
    · subst he
      simp [Fs.advanced, Fs.setDesc, Fs.setInode, FileIo.received, Fs.received]
    · simp [Fs.advanced, Fs.setDesc, Fs.setInode, FileIo.received, Fs.received, he]
  · by_cases hq : q = p
    · subst hq
      exact ⟨w, Function.update_self _ _ _, fun hne => absurd rfl hne⟩
    · exact ⟨_, Function.update_of_ne hq _ _, fun _ => rfl⟩

namespace BytesMoved

variable (h : BytesMoved s d p len u)

include h

theorem openFile_iff : u.OpenFile e q ↔ s.OpenFile e q := by
  obtain ⟨w, hw, -⟩ := h.inode q
  constructor
  · rintro ⟨hinode, hmode⟩
    exact ⟨h.fdInode e ▸ hinode, by rw [hw] at hmode; exact hmode⟩
  · rintro ⟨hinode, hmode⟩
    exact ⟨(h.fdInode e).trans hinode, by rw [hw]; exact hmode⟩

theorem inFile_iff {a : Nat} : InFile (u.inodeTable q) a ↔ InFile (s.inodeTable q) a := by
  obtain ⟨w, hw, -⟩ := h.inode q
  rw [hw]
  rfl

theorem iNum : (u.inodeTable q).iNum = (s.inodeTable q).iNum := by
  obtain ⟨w, hw, -⟩ := h.inode q
  rw [hw]

theorem iNrSects : (u.inodeTable q).iNrSects = (s.inodeTable q).iNrSects := by
  obtain ⟨w, hw, -⟩ := h.inode q
  rw [hw]

theorem fileAddr {x : Nat} : fileAddr (u.inodeTable q) x = Dlos.fileAddr (s.inodeTable q) x := by
  obtain ⟨w, hw, -⟩ := h.inode q
  rw [hw]
  rfl

theorem iSize (hq : q ≠ p) : (u.inodeTable q).iSize = (s.inodeTable q).iSize := by
  obtain ⟨w, hw, hsame⟩ := h.inode q
  rw [hw, hsame hq]

/-- The files lie where they lay. -/
theorem filesApart (hok : s.FilesApart sb)
    (hsize : (u.inodeTable p).iSize.toNat ≤ 512 * (s.inodeTable p).iNrSects.toNat) :
    u.FilesApart sb where
  super := h.super.trans hok.super
  file e q hq := by
    have hopen := h.openFile_iff.mp hq
    have hfile := hok.file e q hopen
    obtain ⟨w, hw, -⟩ := h.inode q
    refine ⟨by rw [hw]; exact hfile.dev, by rw [hw]; exact hfile.num, ?_, by rw [hw]; exact hfile.int,
      by rw [hw]; exact hfile.sects⟩
    rw [h.iNrSects]
    by_cases hqp : q = p
    · exact hqp ▸ hsize
    · rw [h.iSize hqp]
      exact hfile.size
  apart e q e' q' hq hq' hne a ha := by
    rw [h.inFile_iff] at ha ⊢
    exact hok.apart e q e' q' (h.openFile_iff.mp hq) (h.openFile_iff.mp hq') hne a ha
  data e q e' q' hq hq' a ha := by
    rw [h.inFile_iff] at ha
    rw [h.iNum]
    exact hok.data e q e' q' (h.openFile_iff.mp hq) (h.openFile_iff.mp hq') a ha

end BytesMoved

/-- What the answer changes. -/
theorem wp_fileIo {Q : Fs → Option Halt → Prop} (h : wp doRdwt
    (fun x v => Q { v with fsMsg := setCnt v.fsMsg x } none) (fun _ _ => False) (r.received s)) :
    Q (fsMachine.step r.event s).1 (fsMachine.step r.event s).2 := by
  have htype : r.message.type = MsgType.read ∨ r.message.type = MsgType.write := by
    rw [FileIo.message, FileIo.call]
    cases r.write
    · exact .inl rfl
    · exact .inr rfl
  have hsrc : pidOf r.message.source = some r.pid := by
    rw [FileIo.message, FileIo.call]
    cases r.write <;> exact pidOf_val
  refine exec_of_wp (x := serve r.message) ((wp_serve hsrc).mpr ?_)
  rw [if_neg (by rcases htype with ht | ht <;> rw [ht] <;> decide),
    if_neg (by rcases htype with ht | ht <;> rw [ht] <;> decide), if_pos htype]
  exact wp_answer_iff.mpr (h.mono (fun _ _ hv => hv) fun _ _ hv => hv.elim)

namespace FileIo.Within

variable (h : r.Within s d p)

include h

theorem openFile : s.OpenFile d p := by
  obtain ⟨d', -, hd⟩ := Option.bind_eq_some_iff.mp h.target
  obtain ⟨p', hp, he⟩ := Option.map_eq_some_iff.mp hd
  obtain ⟨rfl, rfl⟩ := Prod.mk.inj he
  exact ⟨hp, h.regular⟩

theorem filp : ∃ fd : Fin nrFiles, r.fd.toInt = fd.val ∧ s.filp r.pid fd = some d := by
  obtain ⟨d', hopen, hd⟩ := Option.bind_eq_some_iff.mp h.target
  obtain ⟨p', -, he⟩ := Option.map_eq_some_iff.mp hd
  obtain ⟨rfl, rfl⟩ := Prod.mk.inj he
  exact exists_of_openDesc hopen

theorem fileRequest (hfile : (s.inodeTable p).Addressable) : FileRequest (r.received s) r.pid d p where
  source := by
    change pidOf r.message.source = _
    rw [FileIo.message, FileIo.call]
    cases r.write <;> exact pidOf_val
  caller := rfl
  filp := by
    obtain ⟨fd, hfd, hd⟩ := h.filp
    refine ⟨fd, ?_, hd⟩
    rw [← hfd]
    change r.message.fd = _
    rw [FileIo.message, FileIo.call]
    cases r.write <;> rfl
  inode := h.openFile.inode
  mode := .inl h.regular
  dev := hfile.dev

theorem count_eq : r.count.toInt = (r.count.toNat : Int) ∧ r.count.toNat < 2 ^ 31 := by
  have hcount := h.count
  rw [BitVec.toInt_eq_toNat_cond] at hcount ⊢
  split_ifs at hcount ⊢ with hlt
  · exact ⟨rfl, by omega⟩
  · have := r.count.isLt
    omega

theorem wp_step {Q : Fs → Option Halt → Prop} (hfile : (s.inodeTable p).Addressable)
    (hflag : hasFlag (s.fDescTable d).fdMode oRdwr)
    (hrw : wp (rwFile d p (r.count.toNat : Int)) (fun x v => Q { v with fsMsg := setCnt v.fsMsg x } none)
      (fun _ _ => False) (r.received s)) :
    Q (fsMachine.step r.event s).1 (fsMachine.step r.event s).2 := by
  refine wp_fileIo ?_
  have hcnt : (r.received s).fsMsg.cnt = r.count.toNat := by
    rw [← h.count_eq.1]
    change r.message.cnt = _
    rw [FileIo.message, FileIo.call]
    cases r.write <;> rfl
  rwa [(h.fileRequest hfile).wp_doRdwt,
    if_pos (show hasFlag ((r.received s).fDescTable d).fdMode oRdwr from hflag), hcnt]

theorem range_read (hw : r.write = false) (hpos : (s.fDescTable d).fdPos = (pos : Nat)) :
    pos + r.count.toNat ≤ (s.inodeTable p).iSize.toNat := by
  have hrange := h.range
  rw [hw, if_neg Bool.false_ne_true, hpos, h.count_eq.1] at hrange
  omega

theorem range_write (hw : r.write = true) (hpos : (s.fDescTable d).fdPos = (pos : Nat)) :
    pos + r.count.toNat ≤ 512 * (s.inodeTable p).iNrSects.toNat := by
  have hrange := h.range
  rw [hw, if_pos rfl, hpos, h.count_eq.1] at hrange
  omega

theorem readRequest (hfile : (s.inodeTable p).Addressable) (hw : r.write = false)
    (hpos : (s.fDescTable d).fdPos = (pos : Nat)) :
    ReadRequest (r.received s) r.pid d p r.buf.toNat pos r.count.toNat := by
  have hmessage : r.message = (FileCall.read r.fd r.buf r.count).message r.pid r.rest := by
    rw [FileIo.message, FileIo.call, hw]
    rfl
  have hrange := h.range_read hw hpos
  have hsize := hfile.size
  have hint := hfile.int
  have hsects := hfile.sects
  exact {
    toFileRequest := h.fileRequest hfile
    type := congrArg Message.type hmessage
    regular := h.regular
    base := h.base
    fdPos := hpos
    pos_le := by
      change pos ≤ (s.inodeTable p).iSize.toNat
      omega
    pos_lt := by omega
    cnt := (congrArg Message.cnt hmessage).trans h.count_eq.1
    len_lt := h.count_eq.2
    onDisk := by
      change 512 * (s.inodeTable p).iStartSect.toNat + (s.inodeTable p).iSize.toNat ≤ _
      omega
    buffer := (congrArg Message.buf hmessage).trans (show r.buf = _ by simp)
    buf_le := h.buf_le
    apart := h.apart }

theorem writeRequest (hfile : (s.inodeTable p).Addressable) (hsb : s.super rootDev = some sb)
    (hw : r.write = true) (hpos : (s.fDescTable d).fdPos = (pos : Nat)) :
    WriteRequest (r.received s) r.pid d p sb r.buf.toNat pos r.count.toNat := by
  have hmessage : r.message = (FileCall.write r.fd r.buf r.count).message r.pid r.rest := by
    rw [FileIo.message, FileIo.call, hw]
    rfl
  have hrange := h.range_write hw hpos
  have hint := hfile.int
  have hsects := hfile.sects
  exact {
    toFileRequest := h.fileRequest hfile
    type := congrArg Message.type hmessage
    regular := h.regular
    super := hsb
    iNum := hfile.num
    fdPos := hpos
    pos_le := by
      change pos ≤ reserved (s.inodeTable p)
      rw [hfile.reserved_eq]
      omega
    pos_lt := by omega
    cnt := (congrArg Message.cnt hmessage).trans h.count_eq.1
    len_lt := h.count_eq.2
    onDisk := by
      change (s.inodeTable p).iStartSect.toNat + (s.inodeTable p).iNrSects.toNat ≤ _
      omega
    buffer := (congrArg Message.buf hmessage).trans (show r.buf = _ by simp)
    segment := .native h.base h.buf_le h.apart }

end FileIo.Within

theorem Files.serve_pos : (f.serve r d p).pos e = f.pos e + if e = d then r.count.toNat else 0 := by
  rw [Files.serve]
  by_cases he : e = d
  · subst he
    split <;> simp [Files.write, Files.seek]
  · split <;> simp [Files.write, Files.seek, he]

theorem BytesMoved.fdPos_eq (h : BytesMoved s d p r.count.toNat u) (hf : s.Holds f) (hopen : u.OpenFile e q) :
    (u.fDescTable e).fdPos = ((f.serve r d p).pos e : Nat) := by
  rw [h.fdPos e, hf.pos e q (h.openFile_iff.mp hopen), Files.serve_pos]
  split_ifs <;> push_cast <;> rfl

/-- A READ. -/
theorem FileIo.Within.servedAs_read (h : r.Within s d p) (hok : s.FilesApart sb) (hf : s.Holds f)
    (hflag : hasFlag (s.fDescTable d).fdMode oRdwr) (hw : r.write = false) :
    ServedAs s f r d p (fsMachine.step r.event s).1 (fsMachine.step r.event s).2 ∧
      (fsMachine.step r.event s).1.FilesApart sb := by
  have hopen := h.openFile
  have hfile := hok.file d p hopen
  have hreq := h.readRequest hfile hw (hf.pos d p hopen)
  have hrange := h.range_read hw (hf.pos d p hopen)
  have hsize := hfile.size
  have hint := hfile.int
  refine h.wp_step (Q := fun u o => ServedAs s f r d p u o ∧ u.FilesApart sb) hfile hflag
    ((hreq.wp_rwFile_within hrange (by omega)).mono (fun x v hv => ?_) fun _ _ he => he)
  obtain ⟨rfl, hv⟩ := hv
  have hdisk : v.disk = s.disk := by
    rw [hv.state]
    rfl
  have htrans : (r.received s).Transferred d p r.count.toNat v :=
    ⟨_, _, _, (s.inodeTable p).iSize, by rw [Fs.setInode_eq_self rfl]; exact hv.state⟩
  have hmoved := htrans.moved (m := setCnt v.fsMsg r.count.toNat)
  have hinode : v.inodeTable = s.inodeTable := by
    rw [hv.state]
    rfl
  have hserve : f.serve r d p = f.seek d r.count.toNat := by
    rw [Files.serve, hw, if_neg Bool.false_ne_true]
  refine ⟨⟨rfl, h.count_eq.1.symm, ⟨fun e q hq x hx => ?_, fun e q hq => ?_,
    fun e q hq => hmoved.fdPos_eq hf hq⟩,
    fun _ => ⟨List.map_congr_left fun j hj => ?_, hdisk⟩, fun _ _ a _ _ => congrFun hdisk a⟩,
    hmoved.filesApart hok ?_⟩
  · rw [hmoved.iNrSects] at hx
    rw [hmoved.fileAddr, hserve]
    exact (congrFun hdisk _).trans (hf.content e q (hmoved.openFile_iff.mp hq) x hx)
  · rw [hserve]
    exact (congrArg (fun T => (T q).iSize.toNat) hinode).trans (hf.size e q (hmoved.openFile_iff.mp hq))
  · rw [List.mem_range] at hj
    refine (hv.bytes j hj).trans ?_
    rw [← hf.content d p hopen _ (by omega), ← hfile.readAddr_eq (by omega)]
    rfl
  · exact (congrArg (fun T => (T p).iSize.toNat) hinode).trans_le hsize

/-- A WRITE. -/
theorem FileIo.Within.servedAs_write (h : r.Within s d p) (hok : s.FilesApart sb) (hf : s.Holds f)
    (hflag : hasFlag (s.fDescTable d).fdMode oRdwr) (hw : r.write = true) :
    ServedAs s f r d p (fsMachine.step r.event s).1 (fsMachine.step r.event s).2 ∧
      (fsMachine.step r.event s).1.FilesApart sb := by
  have hopen := h.openFile
  have hfile := hok.file d p hopen
  have hreq := h.writeRequest hfile hok.super hw (hf.pos d p hopen)
  have hrange := h.range_write hw (hf.pos d p hopen)
  have hint := hfile.int
  refine h.wp_step (Q := fun u o => ServedAs s f r d p u o ∧ u.FilesApart sb) hfile hflag
    ((hreq.wp_rwFile_within (by rwa [← hfile.reserved_eq] at hrange) (by omega)).mono
      (fun x v hv => ?_) fun _ _ he => he)
  obtain ⟨rfl, hv, htrans⟩ := hv
  have hmoved := htrans.moved (m := setCnt v.fsMsg r.count.toNat)
  have haddr (j : Nat) (hj : j < r.count.toNat) :
      readAddr (s.inodeTable p) (f.pos d) j = fileAddr (s.inodeTable p) (f.pos d + j) :=
    hfile.readAddr_eq (by omega)
  have hother (a : Nat) (ha : ¬InFile (s.inodeTable p) a)
      (hsect : ¬InInodeSector sb (s.inodeTable p).iNum a) : v.disk a = s.disk a :=
    hv.disk a hsect fun _ j hj he => ha (by
      rw [← he]
      exact (haddr j hj).symm ▸ inFile_fileAddr (by omega))
  obtain ⟨l, hl⟩ : ∃ l, l = bytes r.mem r.buf.toNat r.count.toNat := ⟨_, rfl⟩
  have hlen : l.length = r.count.toNat := by rw [hl, length_bytes]
  have hserve : f.serve r d p = f.write d p l := by
    rw [Files.serve, hw, if_pos rfl, hl]
  have hsize : (v.inodeTable p).iSize.toNat = max (s.inodeTable p).iSize.toNat (f.pos d + r.count.toNat) :=
    hv.iSize
  refine ⟨⟨rfl, h.count_eq.1.symm, ⟨fun e q hq x hx => ?_, fun e q hq => ?_,
    fun e q hq => hmoved.fdPos_eq hf hq⟩,
    fun hr => absurd (hw.symm.trans hr) (by decide), fun sb' hsb' a ha hsect => hother a ha ?_⟩,
    hmoved.filesApart hok ?_⟩
  · rw [hmoved.iNrSects] at hx
    rw [hmoved.fileAddr, hserve]
    have hq' := hmoved.openFile_iff.mp hq
    have hsect := hok.data e q d p hq' hopen _ (inFile_fileAddr hx)
    have hold := hf.content e q hq' x hx
    by_cases hqp : q = p
    · subst hqp
      have hcontent : (f.write d q l).content q = putBytes (f.content q) (f.pos d) l :=
        Function.update_self _ _ _
      rw [hcontent]
      by_cases hin : f.pos d ≤ x ∧ x < f.pos d + r.count.toNat
      · obtain ⟨j, rfl⟩ := Nat.exists_eq_add_of_le hin.1
        have hj : j < r.count.toNat := by omega
        rw [putBytes, if_pos (by omega), Nat.add_sub_cancel_left, hl, List.getD, getElem?_bytes hj,
          ← haddr j hj]
        exact hv.bytes h.base j hj ((haddr j hj).symm ▸ hsect)
      · rw [putBytes_of_notMem (by omega), ← hold]
        refine hv.disk _ hsect fun _ j hj he => hin ?_
        have hsame := (haddr j hj).symm.trans he
        rw [fileAddr, fileAddr] at hsame
        omega
    · have hcontent : (f.write d p l).content q = f.content q := Function.update_of_ne hqp _ _
      rw [hcontent, ← hold]
      exact hother _ (fun ha => hok.apart e q d p hq' hopen hqp _ (inFile_fileAddr hx) ha) hsect
  · have hq' := hmoved.openFile_iff.mp hq
    rw [hserve]
    by_cases hqp : q = p
    · subst hqp
      have hnew : (f.write d q l).size q = max (f.size q) (f.pos d + l.length) :=
        Function.update_self _ _ _
      rw [hnew, hlen, ← hf.size e q hq']
      exact hsize
    · have hnew : (f.write d p l).size q = f.size q := Function.update_of_ne hqp _ _
      rw [hnew, ← hf.size e q hq', hmoved.iSize hqp]
  · rwa [Option.some.inj (hsb'.symm.trans hok.super)] at hsect
  · exact hsize.trans_le (max_le hfile.size hrange)

/-- A request through a descriptor for reading and writing. -/
def Permitted (t : Session) (r : FileIo) : Prop :=
  ∃ d p, r.Within t.fs d p ∧ hasFlag (t.fs.fDescTable d).fdMode oRdwr

theorem FileIo.Within.servedAs (h : r.Within s d p) (hok : s.FilesApart sb) (hf : s.Holds f)
    (hflag : hasFlag (s.fDescTable d).fdMode oRdwr) :
    ServedAs s f r d p (fsMachine.step r.event s).1 (fsMachine.step r.event s).2 ∧
      (fsMachine.step r.event s).1.FilesApart sb := by
  cases hw : r.write with
  | true => exact h.servedAs_write hok hf hflag hw
  | false => exact h.servedAs_read hok hf hflag hw

theorem reached_holds {t : Session} (h : sessionMachine.Reached Permitted t none) :
    (∃ sb, t.fs.FilesApart sb) ∧ t.fs.Holds t.files := by
  refine h.invariant (I := fun t o => o = none → (∃ sb, t.fs.FilesApart sb) ∧ t.fs.Holds t.files)
    (fun _ hs _ => hs) (fun t r _ ht hr _ => ?_) rfl
  obtain ⟨⟨sb, hok⟩, hf⟩ := ht rfl
  obtain ⟨d, p, hin, hflag⟩ := hr
  obtain ⟨hserved, hok'⟩ := hin.servedAs hok hf hflag
  have hstep : (sessionMachine.step r t).1 = ⟨(fsMachine.step r.event t.fs).1, t.files.serve r d p⟩ := by
    rw [sessionMachine]
    dsimp only
    rw [hin.target]
  rw [hstep]
  exact ⟨⟨sb, hok'⟩, hserved.holds⟩

/-- In every run of requests within the files, through descriptors for reading and writing, the files are
the arrays of bytes of the model. -/
theorem files_refine {t : Session} (h : sessionMachine.Reached Permitted t none) (hr : r.Within t.fs d p)
    (hflag : hasFlag (t.fs.fDescTable d).fdMode oRdwr) :
    ServedAs t.fs t.files r d p (fsMachine.step r.event t.fs).1 (fsMachine.step r.event t.fs).2 := by
  obtain ⟨⟨sb, hok⟩, hf⟩ := reached_holds h
  exact (hr.servedAs hok hf hflag).1

end

/-! ## One open file -/

/-- What the files of a state hold. -/
def Files.of (s : Fs) : Files where
  content p x := s.disk (fileAddr (s.inodeTable p) x)
  size p := (s.inodeTable p).iSize.toNat
  pos d := (s.fDescTable d).fdPos.toNat

/-- A file of 10 bytes that process 6 has opened with these flags. -/
def openedFile (flags : BitVec 32) : Fs :=
  { shortFile 10 with fDescTable := fun _ => { fdMode := flags.toInt, fdCnt := 1, fdInode := some 0 } }

/-- Process 6 reads the 10 bytes, or writes them anew. -/
def tenBytes (write : Bool) : FileIo where
  pid := 6
  write
  fd := 0
  buf := 0x1000000
  count := 10
  rest := {}
  mem _ := 0
  tty m := m

theorem openedFile_initial (flags : BitVec 32) :
    sessionMachine.initial ⟨openedFile flags, .of (openedFile flags)⟩ := by
  have hzero (d : Fin nrFileDesc) (p : Fin nrInode) (h : (openedFile flags).OpenFile d p) : p = 0 :=
    (Option.some.inj h.inode).symm
  refine ⟨⟨rootSuper 40960, rfl, fun _ p _ => ⟨rfl, ?_, ?_, ?_, ?_⟩,
    fun d p e q hp hq hne => ?_, ?_⟩,
    fun _ _ _ _ _ => rfl, fun _ _ _ => rfl, fun _ _ _ => rfl⟩
  · change (1 : Int) ≤ 6
    decide
  · change 10 ≤ 512 * 2048
    decide
  · change 512 * 2048 < 2 ^ 31
    decide
  · change 300 + 2048 ≤ 2 ^ 23
    decide
  · exact absurd ((hzero d p hp).trans (hzero e q hq).symm) hne
  · intro d p e q _ _ a ha hsect
    have hlow : 512 * 300 ≤ a := ha.1
    have hhigh : a < (sectPos (inodeBlk (rootSuper 40960) 6)).toNat + 512 := hsect.2
    rw [show (sectPos (inodeBlk (rootSuper 40960) 6)).toNat = 7168 by decide] at hhigh
    omega

theorem tenBytes_within (flags : BitVec 32) (write : Bool) :
    (tenBytes write).Within (openedFile flags) 0 0 where
  target := rfl
  regular := rfl
  base := by
    change ldtSegLinear {} indexLdtRw = 0
    decide
  count := by
    change 0 ≤ (10 : BitVec 32).toInt
    decide
  buf_le := by
    change (0x1000000 : BitVec 32).toNat + (10 : BitVec 32).toNat ≤ 2 ^ 32
    decide
  apart := by
    refine .inr ?_
    change fsbuf + fsbufSize ≤ (0x1000000 : BitVec 32).toNat
    decide
  range := by
    change (0 : Int) + (10 : BitVec 32).toInt ≤
      if write then (512 * (2048 : BitVec 32).toNat : Nat) else ((10 : BitVec 32).toNat : Nat)
    cases write <;> decide

theorem files_refine_tenBytes : ServedAs (openedFile oRdwr) (.of (openedFile oRdwr)) (tenBytes false) 0 0
    (fsMachine.step (tenBytes false).event (openedFile oRdwr)).1
    (fsMachine.step (tenBytes false).event (openedFile oRdwr)).2 :=
  files_refine (t := ⟨openedFile oRdwr, .of (openedFile oRdwr)⟩) (.start (openedFile_initial oRdwr))
    (tenBytes_within oRdwr false) (by decide)

/-- Through a descriptor that was opened to create the file and not to write it, -1 is returned. -/
theorem not_servedAs_tenBytes :
    sessionMachine.Reached (fun t r => ∃ d p, r.Within t.fs d p)
        ⟨openedFile oCreat, .of (openedFile oCreat)⟩ none ∧
      (tenBytes true).Within (openedFile oCreat) 0 0 ∧
      ¬ServedAs (openedFile oCreat) (.of (openedFile oCreat)) (tenBytes true) 0 0
        (fsMachine.step (tenBytes true).event (openedFile oCreat)).1
        (fsMachine.step (tenBytes true).event (openedFile oCreat)).2 := by
  refine ⟨.start (openedFile_initial oCreat), tenBytes_within oCreat true, fun h => ?_⟩
  have hanswer : (fsMachine.step (tenBytes true).event (openedFile oCreat)).1.fsMsg.cnt = -1 := by
    decide +kernel
  exact absurd (hanswer.symm.trans h.answer) (by decide)

end Dlos
