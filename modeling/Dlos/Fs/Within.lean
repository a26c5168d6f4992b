import Dlos.Fs.FileBytes
import Dlos.Fs.Log

/-!
# Requests that stay within a file

A READ or a WRITE that stays within the sectors of its file, and a call of `disklog`, by everything that
they change of the disk.
-/

namespace Dlos

open Program Bytes

/-! ## READ and WRITE -/

/-- A READ or a WRITE of `len` bytes at position `pos` of a regular file that reaches neither behind the
bytes that there are to read nor behind the sectors of the file. -/
structure FileRange (s : Fs) (pid : Pid) (d : Fin nrFileDesc) (q : Fin nrInode) (buf pos len : Nat) :
    Prop where
  regular : (s.inodeTable q).iMode = iRegular
  /-- A position on the disk is a 32-bit number of bytes. -/
  sects : (s.inodeTable q).iStartSect.toNat + (s.inodeTable q).iNrSects.toNat ≤ 2 ^ 23
  fdPos : (s.fDescTable d).fdPos = (pos : Nat)
  cnt : s.fsMsg.cnt = (len : Nat)
  buffer : s.fsMsg.buf = BitVec.ofNat 32 buf
  segment : Segment s pid buf len
  read : s.fsMsg.type = MsgType.read → pos + len ≤ (s.inodeTable q).iSize.toNat
  write : s.fsMsg.type = MsgType.write → pos + len ≤ 512 * (s.inodeTable q).iNrSects.toNat

/-- Such a request for inode `num`. -/
structure WithinFile (size : BitVec 32) (s : Fs) (pid : Pid) (d : Fin nrFileDesc) (q : Fin nrInode)
    (num buf pos len : Nat) : Prop extends FileRequest s pid d q, FileRange s pid d q buf pos len where
  type : s.fsMsg.type = MsgType.read ∨ s.fsMsg.type = MsgType.write
  file : (s.inodeTable q).Addressable
  super : s.super rootDev = some (rootSuper size)
  iNum : (s.inodeTable q).iNum = (num : Nat)
  lt : num < 4096

/-- The bytes that a request writes to the file: those of the caller's buffer, unless the caller's segment
is not that of FS. -/
def Fs.written (s : Fs) (pid : Pid) (buf len : Nat) : List Byte :=
  if s.fsMsg.type = MsgType.write ∧ s.base pid = 0 then bytes s.mem buf len else []

/-- The bytes `l` were written to the file at position `pos`, the position of the descriptor was advanced
by `len`, and the inode was written back if the file has grown. -/
structure RangeMoved (size : BitVec 32) (s : Fs) (d : Fin nrFileDesc) (q : Fin nrInode) (num pos len : Nat)
    (l : List Byte) (u : Fs) : Prop where
  state : ∃ w M C, u = (s.setInode q ({ · with iSize := w })).advanced d u.disk M C len
  disk : u.disk = putBytes s.disk (fileAddr (s.inodeTable q) pos) l ∧ u.inodeTable q = s.inodeTable q ∨
    u.disk = putWords (putBytes s.disk (fileAddr (s.inodeTable q) pos) l) (inodeAddr size num)
      (u.inodeTable q).words
  iSize : (u.inodeTable q).iSize.toNat = max (s.inodeTable q).iSize.toNat (pos + len)

section

variable {size : BitVec 32} {s u : Fs} {pid : Pid} {d : Fin nrFileDesc} {q : Fin nrInode}
  {num buf pos len : Nat} {E : Halt → Fs → Prop}

theorem Fs.advanced_inodeTable {D M : Store} {C : List PhysCopy} {k : Int} :
    (s.advanced d D M C k).inodeTable = s.inodeTable := rfl

theorem afterCopy_disk_read {t : Transfer} {base : Addr} {y o bytesRw bytes : Int} (htype : t.type = MsgType.read) :
    (u.afterCopy base t y o bytesRw bytes).disk = u.disk := by
  rw [Fs.afterCopy, if_pos htype]
  rfl

/-- A READ's round leaves the disk. -/
theorem afterCopy_advanced_read {t : Transfer} {base : Addr} {y o k bytes : Int} (htype : t.type = MsgType.read)
    (hdesc : t.desc = d) (hu : ∃ M C, u = s.advanced d s.disk M C k) :
    ∃ M C, u.afterCopy base t y o k bytes = s.advanced d s.disk M C (k + bytes) := by
  obtain ⟨M, C, hu⟩ := hu
  have hdisk : (u.afterCopy base t y o k bytes).disk = s.disk := by
    rw [afterCopy_disk_read htype, hu]
    rfl
  have hadvanced : u.afterCopy base t y o k bytes = s.advanced d (u.afterCopy base t y o k bytes).disk
      (u.afterCopy base t y o k bytes).mem (roundCopy t base o k bytes :: C) (k + bytes) :=
    afterCopy_advanced hdesc hu
  rw [hdisk] at hadvanced
  exact ⟨_, _, hadvanced⟩

namespace WithinFile

theorem num_pos (h : WithinFile size s pid d q num buf pos len) : 1 ≤ num := by
  have := h.file.num
  rw [h.iNum] at this
  omega

theorem len_lt (h : WithinFile size s pid d q num buf pos len) :
    pos + len ≤ 512 * (s.inodeTable q).iNrSects.toNat := by
  rcases h.type with htype | htype
  · exact (h.read htype).trans h.file.size
  · exact h.write htype

/-- The limit of a request. -/
theorem rangeRequest (h : WithinFile size s pid d q num buf pos len) : RangeRequest s pid d q pos len
    (if s.fsMsg.type = MsgType.read then (s.inodeTable q).iSize.toNat else reserved (s.inodeTable q)) where
  toFileRequest := h.toFileRequest
  type := h.type
  fdPos := h.fdPos
  pos_le := by
    have hlen := h.len_lt
    rw [h.file.reserved_eq]
    split_ifs with htype
    · have := h.read htype
      omega
    · omega
  pos_lt := by
    have := h.len_lt
    have := h.file.int
    omega
  len_lt := by
    have := h.len_lt
    have := h.file.int
    omega
  posEnd := by
    have hlen := h.len_lt
    have hint := h.file.int
    rcases h.type with htype | htype
    · rw [htype, if_pos rfl]
      exact posEnd_read (by omega) (by omega)
    · rw [htype, if_neg (by decide)]
      exact posEnd_write (by omega) (by omega)
  onDisk := by
    have hsects := h.file.sects
    have hsize := h.file.size
    rw [h.file.reserved_eq]
    split_ifs <;> omega

/-- The loop has moved the bytes, and the size of the file is brought up to date. -/
theorem afterLoop {Q : Int → Fs → Prop} {M : Store} {C : List PhysCopy}
    (h : WithinFile size s pid d q num buf pos len)
    (hu : u = s.advanced d (putBytes s.disk (fileAddr (s.inodeTable q) pos) (s.written pid buf len)) M C len)
    (hQ : ∀ u, RangeMoved size s d q num pos len (s.written pid buf len) u → Q len u) :
    RangeRequest.AfterLoop d q Q E len u := by
  have hlen := h.len_lt
  have hint := h.file.int
  have hpos : BitVec.ofInt 32 (u.fDescTable d).fdPos = BitVec.ofNat 32 (pos + len) := by
    rw [hu, ← BitVec.ofInt_natCast, Nat.cast_add, ← h.fdPos]
    simp [Fs.advanced, Fs.setDesc]
  have hinode : u.inodeTable q = s.inodeTable q := by
    rw [hu]
    rfl
  have hend : (BitVec.ofNat 32 (pos + len)).toNat = pos + len := Nat.mod_eq_of_lt (by omega)
  rw [RangeRequest.AfterLoop, hpos, hinode, gt_iff_lt, BitVec.lt_def, hend]
  refine ⟨fun hgt => ?_, fun hle => hQ u ⟨⟨(s.inodeTable q).iSize, M, C, ?_⟩, .inl ⟨?_, hinode⟩, ?_⟩⟩
  · have hself : ((u.setInode q ({ · with iSize := BitVec.ofNat 32 (pos + len) })).inodeTable q) =
        { s.inodeTable q with iSize := BitVec.ofNat 32 (pos + len) } := by rw [Fs.setInode_self, hinode]
    have hsuper : (u.setInode q ({ · with iSize := BitVec.ofNat 32 (pos + len) })).super rootDev =
        some (rootSuper size) := by
      rw [hu]
      exact h.super
    refine wp_syncInode hsuper (by rw [hself]; exact h.dev) (by rw [hself]; exact h.iNum) h.num_pos h.lt
      fun M' => hQ _ ⟨⟨BitVec.ofNat 32 (pos + len), M', C, ?_⟩, .inr ?_, ?_⟩
    · rw [Fs.io_disk, hu]
      rfl
    · rw [Fs.io_disk, Fs.io_inodeTable, hu]
      rfl
    · rw [Fs.io_inodeTable, hself, hend]
      omega
  · rw [Fs.setInode_eq_self rfl, hu]
    rfl
  · rw [hu]
    rfl
  · rw [hinode]
    omega

/-- A READ leaves the disk. -/
theorem wp_rwFile_read {Q : Int → Fs → Prop} (h : WithinFile size s pid d q num buf pos len)
    (htype : s.fsMsg.type = MsgType.read)
    (hQ : ∀ u, RangeMoved size s d q num pos len (s.written pid buf len) u → Q len u) :
    wp (rwFile d q (len : Int)) Q E s := by
  have hread := h.read htype
  have hint := h.file.int
  have hlen := h.len_lt
  have hnone : s.written pid buf len = [] := if_neg fun hw => absurd (htype.symm.trans hw.1) (by decide)
  have hstart : PartlyRead s d 0 0 s.disk 0 s := .start
  refine h.rangeRequest.wp_rwFile_within (J := fun k u => ∃ M C, u = s.advanced d s.disk M C k)
    (by rwa [if_pos htype]) (by omega) ⟨s.mem, s.copies, hstart.state⟩ (fun c r k b u _ hu => ?_) fun u hu => ?_
  · have hproc : u.procTable = s.procTable := by
      obtain ⟨M, C, hu⟩ := hu
      rw [hu]
      rfl
    have hbase : u.base pid = 0 ∨ nrTasks + nrNativeProcs ≤ pid.val := by
      rw [Fs.base, hproc]
      exact h.segment.base_or
    rw [wp_rwChunk rfl h.source hbase]
    exact afterCopy_advanced_read htype rfl hu
  · obtain ⟨M, C, hu⟩ := hu
    refine h.afterLoop (M := M) (C := C) ?_ hQ
    rw [hnone, putBytes_nil]
    exact hu

/-- A WRITE changes the bytes that it was given. -/
theorem wp_rwFile_write {Q : Int → Fs → Prop} (h : WithinFile size s pid d q num buf pos len)
    (htype : s.fsMsg.type = MsgType.write)
    (hQ : ∀ u, RangeMoved size s d q num pos len (s.written pid buf len) u → Q len u) :
    wp (rwFile d q (len : Int)) Q E s := by
  have hnot : s.fsMsg.type ≠ MsgType.read := by
    rw [htype]
    decide
  have hint := h.file.int
  have hlen := h.len_lt
  refine h.rangeRequest.wp_rwFile_within (J := PartlyWritten s d pid (s.inodeTable q) pos buf)
    (by rw [if_neg hnot, h.file.reserved_eq]; exact hlen) (by omega) .start (fun c r k b u hb hu => ?_)
    fun u hu => ?_
  · have hproc : u.procTable = s.procTable := by
      rw [hu.state]
      rfl
    rw [wp_rwChunk_write hnot rfl h.source (hproc ▸ h.segment.base_or), hproc]
    exact hu.round hb (by omega) h.segment rfl h.buffer rfl
  · have haddr (j : Nat) (hj : j < len) : readAddr (s.inodeTable q) pos j =
        fileAddr (s.inodeTable q) pos + j := by
      rw [h.file.readAddr_eq (by omega), fileAddr, fileAddr]
      omega
    have hdisk : u.disk = putBytes s.disk (fileAddr (s.inodeTable q) pos) (s.written pid buf len) := ?_
    · have hstate := hu.state
      rw [hdisk] at hstate
      exact h.afterLoop hstate hQ
    funext a
    by_cases hbase : s.base pid = 0
    · have hwritten : s.written pid buf len = bytes s.mem buf len := if_pos ⟨htype, hbase⟩
      rw [hwritten, putBytes, length_bytes]
      split_ifs with ha
      · have hj : a - fileAddr (s.inodeTable q) pos < len := by omega
        have hbyte := hu.bytes hbase _ hj
        rw [haddr _ hj, Nat.add_sub_cancel' ha.1] at hbyte
        rw [hbyte, List.getD, getElem?_bytes hj]
        rfl
      · refine hu.disk a fun _ j hj he => ha ?_
        rw [← he, haddr j hj]
        omega
    · have hwritten : s.written pid buf len = [] := if_neg fun hw => hbase hw.2
      rw [hwritten, putBytes_nil]
      exact hu.disk a fun hb => absurd hb hbase

theorem wp_rwFile_moved {Q : Int → Fs → Prop} (h : WithinFile size s pid d q num buf pos len)
    (hQ : ∀ u, RangeMoved size s d q num pos len (s.written pid buf len) u → Q len u) :
    wp (rwFile d q (len : Int)) Q E s := by
  rcases h.type with htype | htype
  · exact h.wp_rwFile_read htype hQ
  · exact h.wp_rwFile_write htype hQ

end WithinFile

/-- The driver of a terminal answers a request with its length. -/
def Fs.Answered (s : Fs) (i : Inode) : Prop :=
  major i.iStartSect.toInt = devCharTty ∧ (s.ttyReply (s.toDriver i)).cnt = s.fsMsg.cnt

/-- A request for a terminal changes the message. -/
theorem wp_rwTerminal {i : Inode} {Q : Int → Fs → Prop} (hQ : s.Answered i → ∀ r m, Q r { s with fsMsg := m })
    (hE : ¬s.Answered i → ∀ e t, E e t) : wp (rwTerminal i s.fsMsg.cnt) Q E s := by
  rw [rwTerminal, wp_bind, wp_modify, wp_bind, wp_assert]
  refine ⟨fun hmajor => ?_, fun hmajor => hE (fun h => hmajor h.1) _ _⟩
  have hdriver : (discard (driverOf i.iStartSect.toInt) : FM Unit) = pure () := by
    rw [driverOf, hmajor]
    rfl
  rw [wp_bind, wp_modify, wp_bind, hdriver, wp_pure, wp_bind, wp_modify, wp_bind, wp_get, wp_bind, wp_assert]
  exact ⟨fun hcnt => hQ ⟨hmajor, hcnt⟩ _ _, fun hcnt => hE (fun h => hcnt h.2) _ _⟩

/-- What stops a READ or a WRITE before it comes to a file: no file is open, or its descriptor leads nowhere,
or the driver of the terminal does not answer. -/
inductive RwStops (s : Fs) : Prop
  | notOpen : s.openDesc s.pcaller s.fsMsg.fd = none → RwStops s
  | noInode {d : Fin nrFileDesc} : s.openDesc s.pcaller s.fsMsg.fd = some d →
    hasFlag (s.fDescTable d).fdMode oRdwr → (s.fDescTable d).fdInode = none → RwStops s
  | terminal {d : Fin nrFileDesc} {q : Fin nrInode} : s.openDesc s.pcaller s.fsMsg.fd = some d →
    hasFlag (s.fDescTable d).fdMode oRdwr → (s.fDescTable d).fdInode = some q → (s.inodeTable q).iMode &&& iTypeMask = iCharSpecial →
    ¬s.Answered (s.inodeTable q) → RwStops s

/-- A READ or a WRITE is for a file or a directory that is open for it, or it changes no more than the
message. -/
theorem wp_doRdwt_of {Q : Int → Fs → Prop} (hQ : ¬RwStops s → ∀ r m, Q r { s with fsMsg := m })
    (hfile : ¬RwStops s → ∀ d q, s.openDesc s.pcaller s.fsMsg.fd = some d → (s.fDescTable d).fdInode = some q →
      hasFlag (s.fDescTable d).fdMode oRdwr → (s.inodeTable q).iMode &&& iTypeMask ≠ iCharSpecial →
      wp (rwFile d q s.fsMsg.cnt) Q E s) (hE : RwStops s → ∀ e t, E e t) : wp doRdwt Q E s := by
  rw [doRdwt, wp_bind, wp_get, wp_bind, filpIndex]
  split
  case isFalse hfd => exact hE (.notOpen (dif_neg hfd)) _ _
  case isTrue hfd =>
    rw [wp_pure]
    cases hd : s.filp s.pcaller ⟨s.fsMsg.fd.toNat, toNat_lt hfd⟩ with
    | none => exact hE (.notOpen ((dif_pos hfd).trans hd)) _ _
    | some d =>
      have hopen : s.openDesc s.pcaller s.fsMsg.fd = some d := by rw [Fs.openDesc, dif_pos hfd, hd]
      dsimp only
      rw [wp_ite]
      -- a request that comes this far is one for descriptor `d`
      have hgo (hd : hasFlag (s.fDescTable d).fdMode oRdwr → ∃ q, (s.fDescTable d).fdInode = some q ∧
          ((s.inodeTable q).iMode &&& iTypeMask = iCharSpecial → s.Answered (s.inodeTable q))) : ¬RwStops s := by
        rintro (hno | ⟨hopen', hflag, hno⟩ | ⟨hopen', hflag, hq', hchar, hno⟩)
        · exact Option.some_ne_none d (hopen.symm.trans hno)
        · obtain rfl := Option.some.inj (hopen.symm.trans hopen')
          obtain ⟨q, hq, -⟩ := hd hflag
          exact Option.some_ne_none q (hq.symm.trans hno)
        · obtain rfl := Option.some.inj (hopen.symm.trans hopen')
          obtain ⟨q, hq, hanswer⟩ := hd hflag
          obtain rfl := Option.some.inj (hq.symm.trans hq')
          exact hno (hanswer hchar)
      refine ⟨fun hflag => hQ (hgo fun hyes => absurd hyes hflag) (-1) s.fsMsg, fun hflag => ?_⟩
      have hflag := not_not.mp hflag
      cases hq : (s.fDescTable d).fdInode with
      | none => exact hE (.noInode hopen hflag hq) _ _
      | some q =>
        dsimp only
        rw [wp_ite]
        refine ⟨fun hchar => wp_rwTerminal (fun hanswer => hQ (hgo fun _ => ⟨q, hq, fun _ => hanswer⟩)) fun hno =>
          hE (.terminal hopen hflag hq hchar hno), fun hchar => ?_⟩
        exact hfile (hgo fun _ => ⟨q, hq, fun hyes => absurd hyes hchar⟩) d q hopen hq hflag hchar

/-! ## The log -/

/-- The log was written: below its area the disk is as it was, but for the bits that the first call has
taken for the area. -/
structure LogWritten (size : BitVec 32) (s u : Fs) : Prop where
  state : ∃ M pos, u = s.log u.disk M pos
  logPos : 0 < u.logPos
  disk : ∀ a < 512 * logSect size, u.disk a =
    if s.logPos = 0 then mark s.disk (4096 * 3 + logSect size) true nrSectsForLog a else s.disk a
  clear : s.logPos = 0 → AllBits s.disk (4096 * 3 + logSect size) false nrSectsForLog

theorem wp_disklog_written {p : List Byte} {Q : Int → Fs → Prop} (h : LogPartition size s) (hsize : HasLog size)
    (hpos : 0 ≤ s.logPos)
    (hfit : 512 * (logSect size : Int) + max s.logPos 0x40 + p.length ≤ 512 * 2 ^ 23)
    (hQ : ∀ r u, LogWritten size s u → Q r u)
    (hE : s.logPos = 0 → ¬AllBits s.disk (4096 * 3 + logSect size) false nrSectsForLog → ∀ e t, E e t) :
    wp (disklog p) Q E s := by
  have hsect : logSect size + 2048 = size.toNat := hsize.sect_add
  have hsects := hsize.sects
  have hlog : nrSectsForLog = 2048 := rfl
  -- the text goes behind the start of the area
  have hwrite (t : Fs) (pos : Nat) (ht : t.logPos = (pos : Nat)) (hlow : 0 < pos)
      (hfit : 512 * logSect size + pos + p.length ≤ 512 * 2 ^ 23) (hstate : ∃ M, t = s.log t.disk M pos)
      (hdisk : ∀ a < 512 * logSect size, t.disk a =
        if s.logPos = 0 then mark s.disk (4096 * 3 + logSect size) true nrSectsForLog a else s.disk a)
      (hclear : s.logPos = 0 → AllBits s.disk (4096 * 3 + logSect size) false nrSectsForLog) :
      wp (appendLog rootDev (logSect size : Nat) p) Q E t := by
    refine wp_appendLog ht hfit (by omega) fun D M₁ M₃ hD _ _ => hQ _ _ ⟨⟨M₃, (pos + p.length : Nat), ?_⟩, ?_,
      fun a ha => ?_, hclear⟩
    · obtain ⟨M, hM⟩ := hstate
      rw [hM]
      rfl
    · rw [Fs.log_logPos]
      omega
    · rw [Fs.log_disk, view_of_notMem (by omega), view_of_notMem (by omega), hD, putBytes_of_notMem (by omega)]
      exact hdisk a ha
  rw [wp_disklog h hsize, wp_onlyIf]
  refine ⟨fun hzero => ?_, fun hne => ?_⟩
  · refine wp_startLog (by omega) (fun D M hclear hD => ?_) fun e t hset _ => hE hzero hset e t
    refine hwrite _ 64 rfl (by omega) (by omega) ⟨M, rfl⟩ (fun a ha => ?_) fun _ => hclear
    rw [if_pos hzero, Fs.log_disk]
    exact hD a fun hin => absurd hin.1 (by omega)
  · obtain ⟨pos, hpos⟩ := Int.eq_ofNat_of_zero_le hpos
    refine hwrite s pos hpos (by omega) (by omega) ⟨s.mem, ?_⟩ (fun a _ => ?_) fun hzero => absurd hzero hne
    · rw [← hpos]
      rfl
    · rw [if_neg hne]

end

end Dlos
