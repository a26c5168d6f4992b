import Dlos.Fs.Safety

/-!
# The files of a run

What the file system is for: the number of an inode leads to a size and to the bytes of a file. On these
files every request of a run is one step, which an OPEN, an UNLINK or a WRITE of that file asks for.
-/

namespace Dlos

open Program Bytes Slot

/-! ## Files by their inodes -/

/-- A regular file: its size, and the bytes of its sectors. -/
structure FileData where
  size : Nat
  bytes : Fin (512 * nrDefaultFileSects) → Byte

/-- The bytes `l` come to position `pos`, and the file reaches to the end of `len` bytes there. -/
def FileData.write (f : FileData) (pos len : Nat) (l : List Byte) : FileData where
  size := max f.size (pos + len)
  bytes x := if pos ≤ x ∧ x < pos + l.length then l.getD (x - pos) 0 else f.bytes x

/-- The file of a record whose sectors are on the disk `D`. -/
def Record.file (r : Record) (D : Store) : FileData where
  size := r.size.toNat
  bytes x := D (512 * r.start.toNat + x)

/-- Inode `m` is in use for a regular file. -/
structure DiskTables.IsFile (T : DiskTables) (m : Nat) : Prop where
  two_le : 2 ≤ m
  imap : T.imap m = true
  regular : (T.record m).mode = iRegular

instance (T : DiskTables) (m : Nat) : Decidable (T.IsFile m) :=
  decidable_of_iff (2 ≤ m ∧ T.imap m = true ∧ (T.record m).mode = iRegular)
    ⟨fun h => ⟨h.1, h.2.1, h.2.2⟩, fun h => ⟨h.two_le, h.imap, h.regular⟩⟩

/-- The regular files on the disk of a partition of `size` sectors. -/
def filesOn (size : BitVec 32) (D : Store) (m : Nat) : Option FileData :=
  if (diskTables size D).IsFile m then some (((diskTables size D).record m).file D) else none

def Fs.files (s : Fs) : Nat → Option FileData := filesOn s.geoSize s.disk

/-- One step on the files: nothing, a new file, a file less, or new bytes in a file that is open. -/
inductive Fs.FilesStep (s : Fs) (e : FsEvent) : (Nat → Option FileData) → Prop
  | same : FilesStep s e s.files
  | create {pid : Pid} {m : Message} {x : Nat} {f : FileData} : e.Asks pid m → m.type = MsgType.openFile →
    hasFlag m.flags oCreat → s.files x = none → f.size = 0 → FilesStep s e (Function.update s.files x (some f))
  | remove {pid : Pid} {m : Message} {x : Nat} {f : FileData} : e.Asks pid m → m.type = MsgType.unlink →
    s.files x = some f → (∀ q, (s.inodeTable q).cached → (s.inodeTable q).iNum ≠ (x : Nat)) →
    FilesStep s e (Function.update s.files x none)
  | write {pid : Pid} {m : Message} {d : Fin nrFileDesc} {q : Fin nrInode} {x pos len : Nat} {f : FileData} :
    e.Asks pid m → m.type = MsgType.write → s.openDesc pid m.fd = some d → (s.fDescTable d).fdInode = some q →
    (s.inodeTable q).iNum = (x : Nat) → s.files x = some f → (s.fDescTable d).fdPos = (pos : Nat) →
    m.cnt = (len : Nat) → pos + len ≤ 512 * nrDefaultFileSects →
    FilesStep s e (Function.update s.files x
      (some (f.write pos len ((s.withMessage e pid m).written pid m.buf.toNat len))))

/-- No file lies in the area of the log or behind it. -/
def Fs.FilesBeforeLog (s : Fs) : Prop := ∀ m, (diskTables s.geoSize s.disk).IsFile m →
  ((diskTables s.geoSize s.disk).record m).start.toNat + nrDefaultFileSects ≤ logSect s.geoSize

section

variable {size : BitVec 32} {n m num x b k pos len : Nat} {p q : Fin nrInode} {extra : Fin nrInode → Int}
  {s t u : Fs} {D D' : Store} {T : DiskTables} {f : FileData} {l : List Byte} {e : FsEvent}

theorem FileData.write_nil (h : pos + len ≤ f.size) : f.write pos len [] = f := by
  have hsize : max f.size (pos + len) = f.size := Nat.max_eq_left h
  cases f with
  | mk size bytes =>
    simp only [FileData.write, hsize, FileData.mk.injEq, true_and]
    funext x
    exact if_neg fun hx => by simp at hx; omega

theorem filesOn_of_isFile (h : (diskTables size D).IsFile m) :
    filesOn size D m = some (((diskTables size D).record m).file D) := if_pos h

theorem filesOn_eq_some : filesOn size D m = some f ↔
    (diskTables size D).IsFile m ∧ ((diskTables size D).record m).file D = f := by
  rw [filesOn]
  split_ifs with h
  · simp [h]
  · simp [h]

/-- A file depends on its bit, its record and its bytes. -/
theorem filesOn_congr (himap : (diskTables size D').imap m = (diskTables size D).imap m)
    (hrecord : 2 ≤ m → (diskTables size D').record m = (diskTables size D).record m)
    (hdata : (diskTables size D).IsFile m → ∀ y < 512 * nrDefaultFileSects,
      D' (512 * ((diskTables size D).record m).start.toNat + y) =
        D (512 * ((diskTables size D).record m).start.toNat + y)) : filesOn size D' m = filesOn size D m := by
  have hiff : (diskTables size D').IsFile m ↔ (diskTables size D).IsFile m := by
    constructor
    · exact fun h => ⟨h.two_le, himap ▸ h.imap, hrecord h.two_le ▸ h.regular⟩
    · exact fun h => ⟨h.two_le, himap.trans h.imap, (congrArg Record.mode (hrecord h.two_le)).trans h.regular⟩
  by_cases h : (diskTables size D).IsFile m
  · rw [filesOn_of_isFile h, filesOn_of_isFile (hiff.mpr h), hrecord h.two_le]
    refine congrArg some (congrArg (FileData.mk _) (funext fun y => ?_))
    exact hdata h y y.isLt
  · rw [filesOn, filesOn, if_neg h, if_neg (mt hiff.mp h)]

namespace Coherent

/-- The sectors of a file come behind the directory, and those of two files do not overlap. -/
theorem exists_start (h : Coherent size n p s) (hm : (diskTables size s.disk).IsFile m) :
    ∃ b, ((diskTables size s.disk).record m).InMap size b nrDefaultFileSects ∧
      ((diskTables size s.disk).record m).start.toNat + 1 = firstSect size + b ∧ 2049 ≤ b := by
  obtain ⟨b, hb, hin⟩ := h.exists_bits hm.two_le hm.imap hm.regular
  exact ⟨b, hin, toNat_start hin (by omega), hb⟩

theorem files_disjoint (h : Coherent size n p s) (hm : (diskTables size s.disk).IsFile m)
    (hx : (diskTables size s.disk).IsFile x) (hne : m ≠ x) :
    ((diskTables size s.disk).record m).start.toNat + nrDefaultFileSects ≤
        ((diskTables size s.disk).record x).start.toNat ∨
      ((diskTables size s.disk).record x).start.toNat + nrDefaultFileSects ≤
        ((diskTables size s.disk).record m).start.toNat := by
  obtain ⟨b, hin, hstart, -⟩ := h.exists_start hm
  obtain ⟨c, hin', hstart', -⟩ := h.exists_start hx
  have hfile : nrDefaultFileSects = 2048 := rfl
  by_contra hover
  have howner (y : Nat) (hy : (diskTables size s.disk).IsFile y) :
      SectOwner.inode y ∈ {o | (diskTables size s.disk).owns (s.logPos ≠ 0) o} :=
    show (diskTables size s.disk).Live y from ⟨hy.imap, .inr ⟨hy.two_le, hy.regular⟩⟩
  have hbit : max b c ∈ (diskTables size s.disk).extent size (.inode m) := by
    rw [extent_inode hin, mem_bitRange]
    omega
  have hbit' : max b c ∈ (diskTables size s.disk).extent size (.inode x) := by
    rw [extent_inode hin', mem_bitRange]
    omega
  exact hne (SectOwner.inode.inj (h.volume.tiles.owner_unique (howner m hm) (howner x hx) hbit hbit'))

/-- Bytes before the files do not matter. -/
theorem filesOn_of_data (h : Coherent size n p s) (himap : (diskTables size D).imap m = (diskTables size s.disk).imap m)
    (hrecord : 2 ≤ m → (diskTables size D).record m = (diskTables size s.disk).record m)
    (hdata : ∀ a, dirAddr size + 512 * nrDefaultFileSects ≤ a → D a = s.disk a) :
    filesOn size D m = filesOn size s.disk m := by
  refine filesOn_congr himap hrecord fun hm y _ => hdata _ ?_
  obtain ⟨b, -, hstart, hb⟩ := h.exists_start hm
  have hfile : nrDefaultFileSects = 2048 := rfl
  rw [dirAddr]
  omega

/-! ## The steps -/

theorem files_created {name : List Byte} (h : Coherent size n p s) (hx : 2 ≤ x)
    (hu : FileCreated size n p s name x b k q u) : filesOn size s.disk x = none ∧
      ∃ f, f.size = 0 ∧ filesOn size u.disk = Function.update (filesOn size s.disk) x (some f) := by
  have hfree : (diskTables size s.disk).imap x = false := imap_eq_false hu.free.clear
  have hfile : nrDefaultFileSects = 2048 := rfl
  have hle := h.le
  have hk : k ≤ 4096 := hu.slot ▸ place_le.trans hle
  have hrecord : (diskTables size u.disk).record x = (newFile size x b).record := by
    rw [hu.record x (by omega), if_pos rfl]
  have hnew : (diskTables size u.disk).IsFile x :=
    ⟨hx, by rw [hu.imap, Function.update_self], by rw [hrecord]; rfl⟩
  refine ⟨if_neg fun hno => Bool.false_ne_true (hfree.symm.trans hno.imap), (newFile size x b).record.file u.disk, rfl,
    funext fun m => ?_⟩
  by_cases hm : m = x
  · rw [hm, Function.update_self, filesOn_of_isFile hnew, hrecord]
  · have hbefore : 512 * (k / 32 + 1) ≤ 512 * nrDefaultFileSects := by omega
    rw [Function.update_of_ne hm]
    exact h.filesOn_of_data (by rw [hu.imap, Function.update_of_ne hm])
      (fun h2 => by rw [hu.record m (by omega), if_neg hm])
      fun a ha => hu.data a ((Nat.add_le_add_left hbefore _).trans ha)

theorem files_removed {path name : List Byte} {cnt : Nat} (h : Coherent size n p s)
    (hfile : FileOf size n s path name num b cnt) (hk : k < n) (hu : FileRemoved size n p s num b cnt k u) :
    (∃ f, filesOn size s.disk num = some f) ∧
      filesOn size u.disk = Function.update (filesOn size s.disk) num none := by
  have hlt := hfile.lt
  have h2 := hfile.two_le
  have hle := h.le
  have hrecord : (diskTables size s.disk).record num = recordAt s.disk (inodeAddr size num) :=
    if_pos ⟨by omega, hlt⟩
  have hset : (diskTables size s.disk).imap num = true := by
    simp only [diskTables, hfile.imap, Bool.and_true, decide_eq_true_eq]
    exact hlt
  refine ⟨⟨_, filesOn_of_isFile ⟨h2, hset, hrecord ▸ hfile.regular⟩⟩, funext fun m => ?_⟩
  by_cases hm : m = num
  · have hclear : (diskTables size u.disk).imap num = false := by rw [hu.imap, Function.update_self]
    rw [hm, Function.update_self]
    exact if_neg fun hno => Bool.false_ne_true (hclear.symm.trans hno.imap)
  · have hsects : nrDefaultFileSects = 2048 := rfl
    rw [Function.update_of_ne hm]
    refine h.filesOn_of_data (by rw [hu.imap, Function.update_of_ne hm])
      (fun h2 => by rw [hu.record m (by omega), if_neg hm]) fun a ha => hu.data a (by omega)

theorem files_moved {pid : Pid} {d : Fin nrFileDesc} {buf : Nat} (h : Coherent size n p s)
    (hc : (s.inodeTable q).cached) (hw : WithinFile size s pid d q num buf pos len) (hl : l.length ≤ len)
    (hu : RangeMoved size s d q num pos len l u) : ∃ f, filesOn size s.disk num = some f ∧
      f.size = (s.inodeTable q).iSize.toNat ∧
      filesOn size u.disk = Function.update (filesOn size s.disk) num (some (f.write pos len l)) := by
  obtain ⟨w, M, C, hstate⟩ := hu.state
  obtain ⟨htables, -, hdata⟩ := h.moved_disk hc hw hu
  obtain ⟨m, hm, -, hsects⟩ := h.fileAddr_le pos hc hw.regular
  obtain rfl : m = num := by
    have := hm.num.symm.trans hw.iNum
    omega
  have hfile : nrDefaultFileSects = 2048 := rfl
  have hself : u.inodeTable q = { s.inodeTable q with iSize := w } := by
    rw [hstate, Fs.advanced_inodeTable, Fs.setInode_self]
  have his : (diskTables size s.disk).IsFile m := ⟨hm.two_le, hm.imap, by rw [hm.record]; exact hw.regular⟩
  have hrecord : (diskTables size u.disk).record m = (u.inodeTable q).record := by
    rw [htables]
    exact Function.update_self _ _ _
  have his' : (diskTables size u.disk).IsFile m :=
    ⟨hm.two_le, by rw [htables]; exact hm.imap, by rw [hrecord, hself]; exact hw.regular⟩
  have hstart : ((diskTables size s.disk).record m).start = (s.inodeTable q).iStartSect := by
    rw [hm.record]
    rfl
  obtain ⟨b, -, hb, hlow⟩ := h.exists_start his
  have hrange := hw.len_lt
  rw [hsects] at hrange
  refine ⟨_, filesOn_of_isFile his, by rw [hm.record]; rfl, funext fun m' => ?_⟩
  by_cases hm' : m' = m
  · rw [hm', Function.update_self, filesOn_of_isFile his', hrecord]
    refine congrArg some ?_
    simp only [Record.file, FileData.write, FileData.mk.injEq]
    refine ⟨?_, funext fun y => ?_⟩
    · rw [hm.record]
      exact hu.iSize
    · have hy := y.isLt
      have hstart' : (u.inodeTable q).record.start = (s.inodeTable q).iStartSect := by
        rw [hself]
        rfl
      rw [hstart] at hb ⊢
      rw [hstart', hdata _ (by rw [dirAddr]; omega), putBytes, fileAddr]
      split_ifs with h₁ h₂ h₂
      · exact congrArg (l.getD · 0) (by omega)
      · omega
      · omega
      · rfl
  · rw [Function.update_of_ne hm']
    refine filesOn_congr (by rw [htables]) (fun _ => ?_) fun his'' y hy => ?_
    · rw [htables]
      exact Function.update_of_ne hm' _ _
    · obtain ⟨b', -, hb', hlow'⟩ := h.exists_start his''
      have hdisjoint := h.files_disjoint his'' his hm'
      rw [hdata _ (by rw [dirAddr]; omega)]
      refine putBytes_of_notMem ?_
      rw [fileAddr, ← hstart]
      omega

/-- A log that comes behind all files. -/
theorem files_logged (h : Coherent size n p s) (hsize : HasLog size)
    (hbehind : ∀ m, (diskTables size s.disk).IsFile m →
      ((diskTables size s.disk).record m).start.toNat + nrDefaultFileSects ≤ logSect size)
    (hu : LogWritten size s u) : filesOn size u.disk = filesOn size s.disk := by
  obtain ⟨htables, -, hdata⟩ := h.logged_disk hsize hu
  funext m
  refine filesOn_congr (by rw [htables]) (fun _ => by rw [htables]) fun hm y hy => hdata _ ?_ ?_
  · obtain ⟨b, -, hstart, hb⟩ := h.exists_start hm
    rw [dirAddr]
    omega
  · have := hbehind m hm
    omega

end Coherent

/-! ## Requests -/

theorem Got.disk {num : Int} (h : Got size s num q t) : t.disk = s.disk := by
  cases h with
  | counted => rfl
  | read => rfl

theorem disk_of_dropsAll (h : Relation.ReflTransGen Fs.Drops s u) : u.disk = s.disk := by
  induction h with
  | refl => rfl
  | tail _ hu ih =>
    cases hu with
    | of => exact ih

theorem disk_of_sharesAll (h : Relation.ReflTransGen Fs.Shares s u) : u.disk = s.disk := by
  induction h with
  | refl => rfl
  | tail _ hu ih =>
    cases hu with
    | of => exact ih

theorem length_written {pid : Pid} {buf : Nat} : (s.written pid buf len).length ≤ len := by
  rw [Fs.written]
  split_ifs
  · rw [length_bytes]
  · exact Nat.zero_le len

/-- A buffer is a 32-bit address. -/
theorem FileRange.written_toNat {pid : Pid} {d : Fin nrFileDesc} {buf : Nat} (h : FileRange s pid d q buf pos len) :
    s.written pid s.fsMsg.buf.toNat len = s.written pid buf len := by
  rw [h.buffer, BitVec.toNat_ofNat]
  cases h.segment with
  | native hbase hle =>
    by_cases hlen : len = 0
    · have hnil (b : Nat) : s.written pid b len = [] :=
        List.length_eq_zero_iff.mp (Nat.le_zero.mp (hlen ▸ length_written))
      rw [hnil, hnil]
    · rw [Nat.mod_eq_of_lt (by omega)]
  | forked _ hge =>
    have hbase : ¬(s.fsMsg.type = MsgType.write ∧ s.base pid = 0) := fun hw => by
      have hzero : (ldtSegLinear (s.procTable pid) indexLdtRw).toNat = 0 := congrArg BitVec.toNat hw.2
      have hprocs : procsBase = 0xA00000 := rfl
      omega
    rw [Fs.written, Fs.written, if_neg hbase, if_neg hbase]

/-- Every request is one step on the files. -/
theorem Fs.Served.filesStep (h : Consistent size n p extra s) (hlog : ∀ str, e.request = .log str →
    s.FilesBeforeLog) (hsize : ∀ str, e.request = .log str → HasLog size) (hu : s.Served size n p e u) :
    s.FilesStep e (filesOn size u.disk) := by
  have hgeo : s.files = filesOn size s.disk := by rw [Fs.files, h.geoSize]
  have hsame {v : Fs} (hv : v.disk = s.disk) : s.FilesStep e (filesOn size v.disk) := by
    rw [hv, ← hgeo]
    exact .same
  cases hu with
  | @opened pid m r v hask htype hv =>
    cases hv with
    | refused => exact hsame rfl
    | found _ _ _ _ _ hgot => exact hsame hgot.disk
    | @created _ _ _ _ _ _ _ _ t hpath hplace hcreat hzero hname hx hv =>
      obtain ⟨hnone, f, hf, hfiles⟩ := h.withMessage.files_created hx hv
      change s.FilesStep e (filesOn size t.disk)
      rw [hfiles]
      change s.FilesStep e (Function.update (filesOn size s.disk) _ _)
      rw [← hgeo]
      exact .create hask htype hcreat (hgeo ▸ hnone) hf
  | closed hask htype hv =>
    have hdisk := disk_of_dropsAll (.single hv)
    exact hsame hdisk
  | @moved pid m d q num buf pos len v hask hopen hw hv =>
    obtain ⟨f, hf, hfsize, hfiles⟩ := h.withMessage.files_moved (h.withMessage.cached_of_desc hw.inode) hw length_written hv
    change s.FilesStep e (filesOn size v.disk)
    rw [hfiles]
    change s.FilesStep e (Function.update (filesOn size s.disk) _ _)
    have hf' : s.files num = some f := hgeo ▸ hf
    rw [← hgeo]
    rcases hw.type with hread | hwrite
    · have hnil : (s.withMessage e pid m).written pid buf len = [] := if_neg fun hno => by
        rw [hread] at hno
        exact absurd hno.1 (by decide)
      have hrange := hw.read hread
      rw [hnil, FileData.write_nil (hfsize.symm ▸ hrange), ← hf', Function.update_eq_self]
      exact .same
    · obtain ⟨num', hm, -, hsects⟩ := h.withMessage.fileAddr_le pos (h.withMessage.cached_of_desc hw.inode) hw.regular
      rw [← hw.written_toNat]
      exact .write hask hwrite hopen hw.inode hw.iNum hf' hw.fdPos hw.cnt (hsects ▸ hw.write hwrite)
  | passed => exact hsame rfl
  | @unlinked pid m r v hask htype hv =>
    cases hv with
    | same => exact hsame rfl
    | refused _ _ hgot => exact hsame hgot.disk
    | removed hfile hk hv hq =>
      obtain ⟨⟨f, hf⟩, hfiles⟩ := h.withMessage.files_removed hfile (first_eq_some.mp hk).1 hv
      change s.FilesStep e (filesOn size v.disk)
      rw [hfiles]
      change s.FilesStep e (Function.update (filesOn size s.disk) _ _)
      have hf' : s.files _ = some f := hgeo ▸ hf
      rw [← hgeo]
      exact .remove hask htype hf' fun q' hc => hq.unread q' hc (h.iDev_of_cached hc)
  | resumed => exact hsame rfl
  | exited hask htype hv =>
    have hdisk := disk_of_dropsAll hv
    exact hsame hdisk
  | logged hrequest hv =>
    have hbehind := hlog _ hrequest
    rw [Fs.FilesBeforeLog, h.geoSize] at hbehind
    rw [h.meeting.files_logged (hsize _ hrequest) hbehind hv]
    exact hsame (v := s) rfl
  | forked hrequest hv =>
    have hdisk := disk_of_sharesAll hv
    exact hsame hdisk

/-- In every run each request is one step on the files, as long as no file lies where the log does. -/
theorem request_is_files_step (h : newMachine.Reached Fs.Allows s none) (he : s.Allows e)
    (hlog : ∀ str, e.request = .log str → s.FilesBeforeLog) (hgo : (newMachine.step e s).2 = none) :
    s.FilesStep e (newMachine.step e s).1.files := by
  obtain ⟨n, p, extra, hs⟩ := consistent_of_reached h
  rw [Fs.files, geoSize_served h he hgo]
  refine (hs.served he hgo).filesStep hs hlog fun str hstr => ?_
  rw [Fs.Allows, hstr] at he
  exact he.hasLog

theorem request_is_files_step_createA :
    startedFs.FilesStep createA (newMachine.step createA startedFs).1.files :=
  request_is_files_step (.start initial_startedFs) allows_createA.1 (fun _ hno => Request.noConfusion hno)
    goesOn_createA

end

end Dlos
