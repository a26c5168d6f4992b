import Dlos.Fs.FileStore

/-!
# What was written is read

A READ of a process whose segment starts at 0 puts the bytes of the file into its buffer, and a WRITE takes them
from there. Other requests may come in between in any order: a file stays as it is until it is written, as long
as it is open or no UNLINK comes.
-/

namespace Dlos

open Program Bytes Slot

/-! ## Parts of a file -/

/-- The `len` bytes of a file from position `pos` on. -/
def FileData.read (f : FileData) (pos len : Nat) : List Byte :=
  (List.range len).map fun j =>
    if h : pos + j < 512 * nrDefaultFileSects then f.bytes ⟨pos + j, h⟩ else 0

section

variable {f : FileData} {pos len : Nat} {l : List Byte}

theorem FileData.read_write (hlen : l.length = len) (h : pos + len ≤ 512 * nrDefaultFileSects) :
    (f.write pos len l).read pos len = l := by
  refine List.ext_getElem (by simp [FileData.read, hlen]) fun j hj hj' => ?_
  simp only [FileData.read, List.getElem_map, List.getElem_range, FileData.write]
  rw [dif_pos (by omega), if_pos (by omega)]
  simp only [Nat.add_sub_cancel_left, List.getD, List.getElem?_eq_getElem hj', Option.getD_some]

/-- The bytes of a record's file are those of its sectors. -/
theorem Record.read_file {r : Record} {D : Store} (h : pos + len ≤ 512 * nrDefaultFileSects) :
    (r.file D).read pos len = bytes D (512 * r.start.toNat + pos) len := by
  refine List.map_congr_left fun j hj => ?_
  have hlt := List.mem_range.mp hj
  rw [dif_pos (by omega), Record.file, Nat.add_assoc]

end

/-! ## A READ and a WRITE -/

/-- A process whose segment starts at 0 asks for file `x`, which descriptor `d` allows. -/
structure Fs.MovesFile (s : Fs) (e : FsEvent) (pid : Pid) (m : Message) (d : Fin nrFileDesc) (x : Nat) :
    Prop extends e.Asks pid m where
  desc : s.openDesc pid m.fd = some d
  mode : hasFlag (s.fDescTable d).fdMode oRdwr
  inode : ∃ q, (s.fDescTable d).fdInode = some q ∧ (s.inodeTable q).iNum = (x : Nat)
  base : s.base pid = 0

/-- The bytes of the file have come into the buffer, and elsewhere the memory is as it was but for the buffer
of FS. -/
structure BytesRead (e : FsEvent) (m : Message) (f : FileData) (pos len : Nat) (u : Fs) : Prop where
  cnt : u.fsMsg.cnt = (len : Nat)
  bytes : bytes u.mem m.buf.toNat len = f.read pos len
  frame : ∀ a, (a < m.buf.toNat ∨ m.buf.toNat + len ≤ a) → (a < fsbuf ∨ fsbuf + fsbufSize ≤ a) → u.mem a = e.mem a

section

variable {size : BitVec 32} {n x : Nat} {p q : Fin nrInode} {extra : Fin nrInode → Int} {s t u : Fs}
  {d : Fin nrFileDesc} {pid : Pid} {m : Message} {e : FsEvent} {f : FileData}

namespace Consistent

/-- A request for a file is one within it. -/
theorem withinFile_of_moves (h : Consistent size n p extra s) (he : s.Allows e) (hmove : s.MovesFile e pid m d x)
    (htype : m.type = MsgType.read ∨ m.type = MsgType.write) (hf : s.files x = some f) :
    ∃ q buf pos len, WithinFile size (s.withMessage e pid m) pid d q x buf pos len ∧
      f = (s.inodeTable q).record.file s.disk ∧ (s.inodeTable q).iNrSects.toNat = nrDefaultFileSects := by
  obtain ⟨q, hq, hx⟩ := hmove.inode
  have hs : Consistent size n p extra (s.withMessage e pid m) := h.withMessage
  rw [Fs.files, h.geoSize, filesOn_eq_some] at hf
  obtain ⟨hfile, rfl⟩ := hf
  have hqp : q ≠ p := by
    rintro rfl
    have htwo := hfile.two_le
    have hone := hx.symm.trans h.dir.iNum
    change (x : Int) = (1 : Nat) at hone
    omega
  obtain ⟨m', hm⟩ := h.cache.current q hqp (h.cached_of_desc hq)
  obtain rfl : m' = x := Int.ofNat.inj (hm.num.symm.trans hx)
  have hregular : (s.inodeTable q).iMode = iRegular := by
    have hmode := hfile.regular
    rw [hm.record] at hmode
    exact hmode
  have hchar : (s.inodeTable q).iMode &&& iTypeMask ≠ iCharSpecial := by
    rw [hregular]
    decide
  rw [Fs.Allows, hmove.request] at he
  obtain ⟨buf, pos, len, hrange⟩ := (he.2 pid hmove.source).2 htype d q hmove.desc hq hmove.mode hchar
  obtain ⟨num, hw⟩ := hs.withinFile hmove.source htype hmove.desc hq hrange
  obtain rfl : num = m' := Int.ofNat.inj (hw.iNum.symm.trans hx)
  obtain ⟨-, -, -, hsects⟩ := h.fileAddr_le pos (h.cached_of_desc hq) hregular
  exact ⟨q, buf, pos, len, hw, by rw [hm.record], hsects⟩

end Consistent

namespace WithinFile

variable {num buf pos len : Nat}

/-- The buffer of a process whose segment starts at 0. -/
theorem native (h : WithinFile size s pid d q num buf pos len) (hbase : s.base pid = 0) :
    buf + len ≤ 2 ^ 32 ∧ (buf + len ≤ fsbuf ∨ fsbuf + fsbufSize ≤ buf) := by
  cases h.segment with
  | native _ hle hapart => exact ⟨hle, hapart⟩
  | forked _ hge =>
    rw [show ldtSegLinear (s.procTable pid) indexLdtRw = 0 from hbase] at hge
    exact absurd hge (by decide)

/-- It is a request for a READ as its end is chosen by the loop. -/
theorem readRequest (h : WithinFile size s pid d q num buf pos len) (htype : s.fsMsg.type = MsgType.read)
    (hbase : s.base pid = 0) : ReadRequest s pid d q buf pos len := by
  obtain ⟨hle, hapart⟩ := h.native hbase
  have hread := h.read htype
  have hsize := h.file.size
  have hint := h.file.int
  have hsects := h.file.sects
  exact { h.toFileRequest with
    type := htype
    regular := h.regular
    base := hbase
    fdPos := h.fdPos
    pos_le := by omega
    pos_lt := by omega
    cnt := h.cnt
    len_lt := by omega
    onDisk := by omega
    buffer := h.buffer
    buf_le := hle
    apart := hapart }

/-- A READ delivers the bytes of the file. -/
theorem wp_rwFile_delivers (h : WithinFile size s pid d q num buf pos len) (htype : s.fsMsg.type = MsgType.read)
    (hbase : s.base pid = 0) {E : Halt → Fs → Prop} :
    wp (rwFile d q (len : Int)) (fun r u => r = len ∧ bytes u.mem buf len = bytes s.disk (fileAddr (s.inodeTable q) pos) len ∧
      ∀ a, (a < buf ∨ buf + len ≤ a) → (a < fsbuf ∨ fsbuf + fsbufSize ≤ a) → u.mem a = s.mem a) E s := by
  have hread := h.read htype
  have hint := h.file.int
  have hsize := h.file.size
  refine ((h.readRequest htype hbase).wp_rwFile_within hread (by omega)).imp fun r u hu => ?_
  obtain ⟨rfl, hu⟩ := hu
  refine ⟨rfl, List.map_congr_left fun j hj => ?_, hu.frame⟩
  have hlt := List.mem_range.mp hj
  rw [hu.bytes j hlt, h.file.readAddr_eq (by omega), fileAddr, fileAddr, Nat.add_assoc]

end WithinFile

/-- A buffer is a 32-bit address. -/
theorem bytes_toNat {M : Store} {buf len : Nat} (h : buf + len ≤ 2 ^ 32) :
    bytes M (BitVec.ofNat 32 buf).toNat len = bytes M buf len := by
  by_cases hlen : len = 0
  · rw [hlen]
    rfl
  · rw [BitVec.toNat_ofNat, Nat.mod_eq_of_lt (by omega)]

/-- `task_fs` serves a request for a file by `do_rdwt`. -/
theorem FileRequest.wp_run {Q : Fs → Prop} {E : Halt → Fs → Prop} (hask : e.Asks pid m)
    (htype : m.type = MsgType.read ∨ m.type = MsgType.write) (h : FileRequest (s.withMessage e pid m) pid d q)
    (hflag : hasFlag (s.fDescTable d).fdMode oRdwr)
    (hrw : wp (rwFile d q m.cnt) (fun r u => Q (u.answered setCnt r)) E (s.withMessage e pid m)) :
    wp e.request.run (fun _ => Q) E (s.meeting e) := by
  have hopen : m.type ≠ MsgType.openFile := by rcases htype with htype | htype <;> rw [htype] <;> decide
  have hclose : m.type ≠ MsgType.close := by rcases htype with htype | htype <;> rw [htype] <;> decide
  rw [hask.request]
  change wp (serve m) _ _ _
  rw [Dlos.wp_serve hask.source, if_neg hopen, if_neg hclose, if_pos htype, wp_answer_iff]
  refine h.wp_doRdwt.mpr ?_
  rw [if_pos (show hasFlag ((s.withMessage e pid m).fDescTable d).fdMode oRdwr from hflag)]
  exact hrw

namespace Consistent

/-- A READ goes on with the bytes of the file. -/
theorem delivers (h : Consistent size n p extra s) (he : s.Allows e) (hmove : s.MovesFile e pid m d x)
    (htype : m.type = MsgType.read) (hf : s.files x = some f) : (newMachine.step e s).2 = none ∧
      ∃ pos len : Nat, (s.fDescTable d).fdPos = pos ∧ m.cnt = len ∧ pos + len ≤ f.size ∧
        BytesRead e m f pos len (newMachine.step e s).1 := by
  obtain ⟨q, buf, pos, len, hw, rfl, hsects⟩ := h.withinFile_of_moves he hmove (.inl htype) hf
  obtain ⟨hle, hapart⟩ := hw.native hmove.base
  have hread := hw.read htype
  have hsize := hw.file.size
  have hbuf : m.buf = BitVec.ofNat 32 buf := hw.buffer
  have hcnt : m.cnt = (len : Int) := hw.cnt
  change pos + len ≤ (s.inodeTable q).iSize.toNat at hread
  change (s.inodeTable q).iSize.toNat ≤ 512 * (s.inodeTable q).iNrSects.toNat at hsize
  have hwp : wp e.request.run (fun _ => BytesRead e m ((s.inodeTable q).record.file s.disk) pos len)
      (fun _ _ => False) (s.meeting e) := by
    refine hw.toFileRequest.wp_run hmove.toAsks (.inl htype) hmove.mode ?_
    rw [hcnt]
    refine (hw.wp_rwFile_delivers htype hmove.base).imp fun r u hu => ?_
    obtain ⟨rfl, hbytes, hframe⟩ := hu
    refine ⟨rfl, ?_, fun a ha ha' => hframe a ?_ ha'⟩
    · change bytes u.mem m.buf.toNat len = _
      rw [hbuf, bytes_toNat hle, hbytes, Record.read_file (by omega)]
      rfl
    · by_cases hlen : len = 0
      · omega
      · rwa [hbuf, BitVec.toNat_ofNat, Nat.mod_eq_of_lt (by omega)] at ha
  have hgo := exec_of_wp (P := fun u o => o = none ∧ BytesRead e m ((s.inodeTable q).record.file s.disk) pos len u)
    (hwp.mono (fun _ _ hu => ⟨rfl, hu⟩) fun _ _ => False.elim)
  exact ⟨hgo.1, pos, len, hw.fdPos, hcnt, hread, hgo.2⟩

/-- A WRITE goes on with the bytes of the buffer in the file. -/
theorem stores (h : Consistent size n p extra s) (he : s.Allows e) (hmove : s.MovesFile e pid m d x)
    (htype : m.type = MsgType.write) (hf : s.files x = some f) : (newMachine.step e s).2 = none ∧
      ∃ pos len : Nat, (s.fDescTable d).fdPos = pos ∧ m.cnt = len ∧ pos + len ≤ 512 * nrDefaultFileSects ∧
        (newMachine.step e s).1.files = Function.update s.files x
          (some (f.write pos len (bytes e.mem m.buf.toNat len))) := by
  obtain ⟨q, buf, pos, len, hw, -, hsects⟩ := h.withinFile_of_moves he hmove (.inr htype) hf
  obtain ⟨hle, -⟩ := hw.native hmove.base
  have hs : Consistent size n p extra (s.withMessage e pid m) := h.withMessage
  have hwrite := hw.write htype
  have hbuf : m.buf = BitVec.ofNat 32 buf := hw.buffer
  have hcnt : m.cnt = (len : Int) := hw.cnt
  have hwritten : (s.withMessage e pid m).written pid buf len = bytes e.mem m.buf.toNat len := by
    rw [Fs.written, if_pos ⟨htype, hmove.base⟩, hbuf, bytes_toNat hle]
    rfl
  have hwp : wp e.request.run (fun _ u => u.files = Function.update s.files x
      (some (f.write pos len (bytes e.mem m.buf.toNat len)))) (fun _ _ => False) (s.meeting e) := by
    refine hw.toFileRequest.wp_run hmove.toAsks (.inr htype) hmove.mode ?_
    rw [hcnt]
    refine hw.wp_rwFile_moved fun u hu => ?_
    have hc : (s.inodeTable q).cached := h.cached_of_desc (d := d) hw.inode
    obtain ⟨f', hf', -, hfiles⟩ := hs.files_moved hc hw length_written hu
    obtain rfl : f = f' := by
      rw [Fs.files, h.geoSize] at hf
      exact Option.some.inj (hf.symm.trans hf')
    have hgeo : (u.answered setCnt len).geoSize = size := (hs.of_moved hw hu).geoSize
    rw [Fs.files, hgeo]
    change filesOn size u.disk = _
    rw [hfiles, hwritten, Fs.files, h.geoSize]
    rfl
  have hgo := exec_of_wp (P := fun u o => o = none ∧ u.files = Function.update s.files x
    (some (f.write pos len (bytes e.mem m.buf.toNat len)))) (hwp.mono (fun _ _ hu => ⟨rfl, hu⟩) fun _ _ => False.elim)
  refine ⟨hgo.1, pos, len, hw.fdPos, hcnt, ?_, hgo.2⟩
  change pos + len ≤ 512 * (s.inodeTable q).iNrSects.toNat at hwrite
  rwa [hsects] at hwrite

end Consistent

/-! ## Other requests -/

/-- A request that is not a WRITE for file `x`. An UNLINK comes only when the file is open. -/
structure Fs.LeavesFile (x : Nat) (s : Fs) (e : FsEvent) : Prop where
  allows : s.Allows e
  log : ∀ str, e.request = .log str → s.FilesBeforeLog
  unwritten : ∀ pid m d q, e.Asks pid m → m.type = MsgType.write → s.openDesc pid m.fd = some d →
    (s.fDescTable d).fdInode = some q → (s.inodeTable q).iNum ≠ (x : Nat)
  unlinked : ∀ pid m, e.Asks pid m → m.type = MsgType.unlink →
    ∃ q, (s.inodeTable q).cached ∧ (s.inodeTable q).iNum = (x : Nat)

/-- One step of other requests. -/
theorem Fs.FilesStep.leaves {F : Nat → Option FileData} (h : s.FilesStep e F) (he : Fs.LeavesFile x s e)
    (hf : s.files x = some f) : F x = some f := by
  cases h with
  | same => exact hf
  | create _ _ _ hnone =>
    rw [Function.update_of_ne, hf]
    rintro rfl
    exact Option.some_ne_none f (hf.symm.trans hnone)
  | remove hask htype _ hunread =>
    rw [Function.update_of_ne, hf]
    rintro rfl
    obtain ⟨q, hc, hx⟩ := he.unlinked _ _ hask htype
    exact hunread q hc hx
  | write hask htype hd hq hx =>
    rw [Function.update_of_ne, hf]
    rintro rfl
    exact he.unwritten _ _ _ _ hask htype hd hq hx

/-- A file that is there stays as it is. -/
theorem files_stay {o : Option Halt} (h : newMachine.Reached Fs.Allows s none)
    (ht : (newMachine.startingAt s).Reached (Fs.LeavesFile x) t o) (hf : s.files x = some f) :
    o = none → t.files x = some f := by
  refine Machine.Reached.invariant (I := fun t o => o = none → t.files x = some f) (fun t hs _ => ?_)
    (fun t e hr ih he hgo => ?_) ht
  · obtain rfl := hs
    exact hf
  · have hreached := h.trans (hr.mono fun _ _ he => he.allows)
    obtain ⟨n, p, extra, hs⟩ := consistent_of_reached hreached
    have hstep : t.FilesStep e (newMachine.step e t).1.files := by
      rw [Fs.files, geoSize_served hreached he.allows hgo]
      refine (hs.served he.allows hgo).filesStep hs he.log fun str hstr => ?_
      have hallows := he.allows
      rw [Fs.Allows, hstr] at hallows
      exact hallows.hasLog
    exact hstep.leaves he (ih rfl)

end

/-! ## The first file -/

/-- Process 6 opens the file a, for reading and writing. -/
def openA : FsEvent :=
  { createA with
    request := .message
      { source := 6, type := MsgType.openFile, u := { m3i1 := 2, m3i2 := 1, m3p1 := 0x1000000 } } }

/-- It has the file open twice. -/
def openedTwice : Fs := (newMachine.step openA createdFs).1

/-- A request for two bytes of the file that process 6 has open as file `fd`. -/
def messageA (type fd : Int) : Message := { source := 6, type, u := { m3i1 := fd, m3i2 := 2, m3p2 := 0x1000000 } }

def requestA (type fd : Int) (mem : Store) : FsEvent := ⟨.message (messageA type fd), mem, fun m => m⟩

def writeA : FsEvent :=
  requestA MsgType.write 0 fun x => if x = 0x1000000 then 0x68 else if x = 0x1000001 then 0x69 else 0

def readA : FsEvent := requestA MsgType.read 1 fun _ => 0

def writtenFs : Fs := (newMachine.step writeA openedTwice).1

/-- Process 6 has a file of `size` bytes open as file `fd`, at its first byte. -/
abbrev Fs.HasA (s : Fs) (fd : Int) (d : Fin nrFileDesc) (size : Nat) : Prop :=
  s.openDesc 6 fd = some d ∧ hasFlag (s.fDescTable d).fdMode oRdwr ∧ (s.fDescTable d).fdInode = some 1 ∧
    (s.fDescTable d).fdPos = 0 ∧ (s.inodeTable 1).iNum = 5 ∧ (s.inodeTable 1).iMode = iRegular ∧
    (s.inodeTable 1).iSize.toNat = size ∧ (s.inodeTable 1).iStartSect.toNat ≤ 10000 ∧
    (s.inodeTable 1).iNrSects.toNat = nrDefaultFileSects ∧ s.base 6 = 0 ∧ (diskTables s.geoSize s.disk).IsFile 5

theorem hasA_writtenFs : (newMachine.step openA createdFs).2 = none ∧ openedTwice.HasA 0 0 0 ∧
    (newMachine.step writeA openedTwice).2 = none ∧ writtenFs.HasA 1 1 2 := by
  decide +kernel

section

variable {s : Fs} {type fd : Int} {d : Fin nrFileDesc} {size : Nat} {mem : Store}

theorem movesFile_requestA (h : s.HasA fd d size) :
    s.MovesFile (requestA type fd mem) 6 (messageA type fd) d 5 := by
  obtain ⟨hd, hflag, hq, -, hnum, -, -, -, -, hbase, -⟩ := h
  exact ⟨⟨rfl, (by decide : pidOf 6 = some 6)⟩, hd, hflag, ⟨1, hq, hnum⟩, hbase⟩

theorem files_of_hasA (h : s.HasA fd d size) : ∃ f, s.files 5 = some f :=
  ⟨_, filesOn_of_isFile h.2.2.2.2.2.2.2.2.2.2⟩

theorem allows_requestA (h : s.HasA fd d size) (htype : type = MsgType.read ∧ 2 ≤ size ∨ type = MsgType.write) :
    s.Allows (requestA type fd mem) := by
  obtain ⟨hd, hflag, hq, hpos, hnum, hmode, hsize, hstart, hsects, hbase, -⟩ := h
  have hnr : nrDefaultFileSects = 2048 := rfl
  refine ⟨?_, fun pid hpid => ⟨fun hopen => ?_, fun _ d' q hd' hq' _ _ => ⟨0x1000000, 0, 2, ?_⟩⟩⟩
  · change type ≠ MsgType.fork
    rcases htype with ⟨rfl, -⟩ | rfl <;> decide
  · change type = MsgType.openFile at hopen
    rcases htype with ⟨rfl, -⟩ | rfl <;> exact absurd hopen (by decide)
  · obtain rfl : (6 : Pid) = pid := Option.some.inj ((by decide : pidOf 6 = some 6).symm.trans hpid)
    obtain rfl : d = d' := Option.some.inj (hd.symm.trans hd')
    obtain rfl : 1 = q := Option.some.inj (hq.symm.trans hq')
    refine ⟨hmode, ?_, hpos, rfl, rfl, .native hbase (by decide) (.inr (by decide)), fun hread => ?_, fun _ => ?_⟩
    · change (s.inodeTable 1).iStartSect.toNat + (s.inodeTable 1).iNrSects.toNat ≤ 2 ^ 23
      omega
    · change 0 + 2 ≤ (s.inodeTable 1).iSize.toNat
      rcases htype with ⟨-, hle⟩ | rfl
      · omega
      · exact absurd (show MsgType.write = MsgType.read from hread) (by decide)
    · change 0 + 2 ≤ 512 * (s.inodeTable 1).iNrSects.toNat
      omega

end

theorem reached_openedTwice : newMachine.Reached Fs.Allows openedTwice none := by
  rw [openedTwice]
  refine .goOn reached_createdFs_allows ⟨by decide, fun pid _ => ⟨fun _ _ _ _ _ hcreat => ?_, fun hrw => ?_⟩⟩
    hasA_writtenFs.1
  · exact absurd (show hasFlag 2 oCreat from hcreat) (by decide)
  · exact absurd (show MsgType.openFile = MsgType.read ∨ MsgType.openFile = MsgType.write from hrw) (by decide)

theorem reached_writtenFs : newMachine.Reached Fs.Allows writtenFs none := by
  obtain ⟨-, hopened, hgo, -⟩ := hasA_writtenFs
  rw [writtenFs]
  exact .goOn reached_openedTwice (allows_requestA hopened (.inr rfl)) hgo

/-! ## Reading what was written -/

section

variable {x : Nat} {s t : Fs} {d : Fin nrFileDesc} {pid : Pid} {m : Message} {e : FsEvent} {f : FileData}

/-- In every run a READ of a file goes on with the file's bytes. -/
theorem read_delivers (h : newMachine.Reached Fs.Allows s none) (he : s.Allows e)
    (hmove : s.MovesFile e pid m d x) (htype : m.type = MsgType.read) (hf : s.files x = some f) :
    (newMachine.step e s).2 = none ∧ ∃ pos len : Nat, (s.fDescTable d).fdPos = pos ∧ m.cnt = len ∧
      pos + len ≤ f.size ∧ BytesRead e m f pos len (newMachine.step e s).1 := by
  obtain ⟨n, p, extra, hs⟩ := consistent_of_reached h
  exact hs.delivers he hmove htype hf

theorem read_delivers_writtenFs : ∃ f, (newMachine.step readA writtenFs).2 = none ∧ ∃ pos len : Nat,
    (writtenFs.fDescTable 1).fdPos = pos ∧ (messageA MsgType.read 1).cnt = len ∧ pos + len ≤ f.size ∧
      BytesRead readA (messageA MsgType.read 1) f pos len (newMachine.step readA writtenFs).1 := by
  obtain ⟨-, -, -, hwritten⟩ := hasA_writtenFs
  obtain ⟨f, hf⟩ := files_of_hasA hwritten
  exact ⟨f, read_delivers reached_writtenFs (allows_requestA hwritten (.inl ⟨rfl, Nat.le_refl 2⟩))
    (movesFile_requestA hwritten) rfl hf⟩

/-- In every run what was written is read, whatever comes in between but a WRITE for the file. -/
theorem written_is_read {e₁ e₂ : FsEvent} {pid₁ pid₂ : Pid} {m₁ m₂ : Message} {d₁ d₂ : Fin nrFileDesc}
    (h : newMachine.Reached Fs.Allows s none) (he₁ : s.Allows e₁) (hmove₁ : s.MovesFile e₁ pid₁ m₁ d₁ x)
    (htype₁ : m₁.type = MsgType.write) (hf : s.files x = some f)
    (hrun : (newMachine.startingAt (newMachine.step e₁ s).1).Reached (Fs.LeavesFile x) t none)
    (he₂ : t.Allows e₂) (hmove₂ : t.MovesFile e₂ pid₂ m₂ d₂ x) (htype₂ : m₂.type = MsgType.read)
    (hpos : (t.fDescTable d₂).fdPos = (s.fDescTable d₁).fdPos) (hcnt : m₂.cnt = m₁.cnt) :
    bytes (newMachine.step e₂ t).1.mem m₂.buf.toNat m₁.cnt.toNat = bytes e₁.mem m₁.buf.toNat m₁.cnt.toNat := by
  obtain ⟨n, p, extra, hs⟩ := consistent_of_reached h
  obtain ⟨hgo, pos, len, hpos₁, hcnt₁, hle, hfiles⟩ := hs.stores he₁ hmove₁ htype₁ hf
  have hreached := h.goOn he₁ hgo
  have hwritten : (newMachine.step e₁ s).1.files x = some (f.write pos len (bytes e₁.mem m₁.buf.toNat len)) := by
    rw [hfiles, Function.update_self]
  have hkept := files_stay hreached hrun hwritten rfl
  obtain ⟨n', p', extra', ht⟩ := consistent_of_reached (hreached.trans (hrun.mono fun _ _ he => he.allows))
  obtain ⟨-, pos', len', hpos₂, hcnt₂, -, hread⟩ := ht.delivers he₂ hmove₂ htype₂ hkept
  obtain rfl : pos' = pos := Int.ofNat.inj (hpos₂.symm.trans (hpos.trans hpos₁))
  obtain rfl : len' = len := Int.ofNat.inj (hcnt₂.symm.trans (hcnt.trans hcnt₁))
  rw [hcnt₁, Int.toNat_natCast, hread.bytes, FileData.read_write length_bytes hle]

theorem written_is_read_writtenFs : bytes (newMachine.step readA writtenFs).1.mem (messageA MsgType.read 1).buf.toNat
    (messageA MsgType.write 0).cnt.toNat =
      bytes writeA.mem (messageA MsgType.write 0).buf.toNat (messageA MsgType.write 0).cnt.toNat := by
  obtain ⟨-, hopened, -, hwritten⟩ := hasA_writtenFs
  obtain ⟨f, hf⟩ := files_of_hasA hopened
  have hstart : (newMachine.startingAt (newMachine.step writeA openedTwice).1).Reached (Fs.LeavesFile 5) writtenFs none := by
    rw [writtenFs]
    exact .start rfl
  have hpos : (writtenFs.fDescTable 1).fdPos = (openedTwice.fDescTable 0).fdPos :=
    hwritten.2.2.2.1.trans hopened.2.2.2.1.symm
  exact written_is_read reached_openedTwice (allows_requestA hopened (.inr rfl)) (movesFile_requestA hopened) rfl hf hstart
    (allows_requestA hwritten (.inl ⟨rfl, Nat.le_refl 2⟩)) (movesFile_requestA hwritten) rfl hpos rfl

end

end Dlos
