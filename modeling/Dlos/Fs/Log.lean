import Dlos.Fs.Bitmap
import Dlos.Fs.Layout
import Dlos.Lib.Format
import Dlos.Library.StateMachine

/-!
# What the log keeps

The log is written from byte 0x40 of its area on, and the last sector of the area gets a copy of the
header at every call. As long as the text stays below that sector, the log is what was logged; no test
keeps it there.
-/

namespace Dlos

open Program Bytes

/-! ## The header -/

/-- The number at the start of a text, after blanks. -/
def readDecimal (bs : List Byte) : Nat :=
  ((bs.dropWhile (· = 0x20)).takeWhile isDigit).foldl (fun n b => 10 * n + (b.toNat - 0x30)) 0

section

variable {n : Nat} {b : Byte} {rest : List Byte}

theorem toNat_digit {c : Char} (h : c ∈ Nat.toDigits 10 n) :
    0x30 ≤ c.toNat ∧ c.toNat ≤ 0x39 ∧ (BitVec.ofNat 8 c.toNat).toNat = c.toNat := by
  have hdigit : '0'.toNat ≤ c.toNat ∧ c.toNat ≤ '9'.toNat :=
    Char.isDigit_iff_toNat.mp (Nat.isDigit_of_mem_toDigits (by decide) (by decide) h)
  have hzero : '0'.toNat = 0x30 := rfl
  have hnine : '9'.toNat = 0x39 := rfl
  rw [BitVec.toNat_ofNat]
  omega

theorem isDigit_i2a (h : b ∈ i2a n) : isDigit b = true := by
  obtain ⟨c, hc, rfl⟩ := List.mem_map.mp h
  obtain ⟨hlow, hhigh, hval⟩ := toNat_digit hc
  rw [isDigit, hval]
  exact decide_eq_true ⟨hlow, hhigh⟩

theorem foldl_i2a : (i2a n).foldl (fun m b => 10 * m + (b.toNat - 0x30)) 0 = n := by
  have hfold : ∀ (l : List Char) (m : Nat), (∀ c ∈ l, c ∈ Nat.toDigits 10 n) →
      (l.map fun c => BitVec.ofNat 8 c.toNat).foldl (fun m b => 10 * m + (b.toNat - 0x30)) m =
        Nat.ofDigitChars 10 l m := by
    intro l
    induction l with
    | nil => exact fun m _ => Nat.ofDigitChars_nil.symm
    | cons c l ih =>
      intro m hl
      rw [List.map_cons, List.foldl_cons, Nat.ofDigitChars_cons,
        (toNat_digit (hl c List.mem_cons_self)).2.2, ih _ fun c hc => hl c (List.mem_cons_of_mem _ hc)]
      rfl
  rw [i2a, hfold _ _ fun c hc => hc, Nat.ofDigitChars_ten_toDigits]

/-- The header says what it was made from, whatever comes behind it. -/
theorem readDecimal_logHeader : readDecimal (logHeader n ++ rest) = n := by
  have hheader : logHeader n ++ rest =
      List.replicate (8 - (i2a n).length) 0x20 ++ (i2a n ++ (0x0A :: rest)) := by
    have hneg : ¬((n : Int) < 0) := by omega
    simp [logHeader, hneg]
  have hblank : (i2a n ++ (0x0A :: rest)).dropWhile (fun b => decide (b = 0x20)) =
      i2a n ++ (0x0A :: rest) := by
    cases hi : i2a n with
    | nil =>
      have hnil : Nat.toDigits 10 n = [] := List.map_eq_nil_iff.mp hi
      exact absurd hnil Nat.toDigits_ne_nil
    | cons b l =>
      have hb : isDigit b = true := isDigit_i2a (hi ▸ List.mem_cons_self)
      refine List.dropWhile_cons_of_neg fun hblank => ?_
      rw [of_decide_eq_true hblank] at hb
      exact absurd hb (by decide)
  rw [readDecimal, hheader, List.dropWhile_append_of_pos fun b hb =>
      decide_eq_true (List.eq_of_mem_replicate hb), hblank,
    List.takeWhile_append_of_pos fun b hb => isDigit_i2a hb,
    List.takeWhile_cons_of_neg (by decide), List.append_nil, foldl_i2a]

theorem length_logHeader (h : n < 10 ^ 8) : (logHeader n).length = 9 := by
  have hlen : (i2a n).length ≤ 8 := by
    rw [i2a, List.length_map]
    exact (Nat.length_toDigits_le_iff (by decide) (by decide)).mpr h
  have hneg : ¬((n : Int) < 0) := by omega
  simp only [logHeader, if_neg hneg, List.nil_append, Int.natAbs_natCast, List.length_append,
    List.length_replicate, List.length_singleton]
  omega

theorem numeral_eq_i2a : numeral 10 n = i2a n := by
  refine List.map_congr_left fun c hc => ?_
  obtain ⟨hlow, hhigh, -⟩ := toNat_digit hc
  unfold Char.toUpper
  rw [dif_neg]
  rintro ⟨hle, -⟩
  have : 97 ≤ c.toNat := hle
  omega

theorem length_numeral {x : Arg} : (numeral 10 x.toInt.natAbs).length ≤ 10 := by
  have habs : x.toInt.natAbs < 10 ^ 10 := by
    rw [BitVec.toInt_eq_toNat_cond]
    omega
  rw [numeral, List.length_map]
  exact (Nat.length_toDigits_le_iff (by decide) (by decide)).mpr habs

/-- `"%8d\n"` -/
def logFormat : List Byte := [chr '%', chr '8', chr 'd', 0x0A]

theorem pieces_logFormat :
    pieces logFormat = [.directive false [chr '8'] (some (chr 'd')), .char 0x0A] := by
  decide +kernel

/-- The header is what `sprintf` writes for it. -/
theorem vsprintf_logFormat {mem : Store} {x : Arg} (h : x.toInt ≠ -2 ^ 31) :
    ∃ k, vsprintf mem logFormat [x] = .ok (logHeader x.toInt ++ [0], k) := by
  have hconv : converted (pieces logFormat) [x] = [(chr 'd', x)] := by
    rw [pieces_logFormat]
    rfl
  have htext : render (argText mem) (pieces logFormat) [x] = logHeader x.toInt := by
    rw [pieces_logFormat]
    change pad false 8 ((if x.toInt < 0 then [chr '-'] else []) ++ numeral 10 x.toInt.natAbs) ++ _ = _
    rw [numeral_eq_i2a]
    rfl
  have hcall : FormatCall mem logFormat [x] := by
    refine ⟨by decide, by rw [pieces_logFormat]; rfl, fun a ha => ?_, ?_⟩
    · rw [hconv, List.mem_singleton] at ha
      exact absurd (Prod.mk.inj ha).1 (by decide)
    · have hlen : (numeral 10 x.toInt.natAbs).length ≤ 10 := length_numeral
      have hsign : (if x.toInt < 0 then [0x2D] else [] : List Byte).length ≤ 1 := by split <;> simp
      rw [numeral_eq_i2a] at hlen
      rw [htext, logHeader]
      simp only [List.length_append, List.length_replicate, List.length_singleton]
      omega
  rw [vsprintf_of_complete hcall ?_ ?_, htext]
  · exact ⟨_, rfl⟩
  · rw [pieces_logFormat]
    simp [Complete]
  · rw [hconv]
    intro y hy
    obtain rfl := List.mem_singleton.mp hy
    exact ⟨fun hx : chr 'd' = chr 'x' => absurd hx (by decide), fun _ => h⟩

end

/-! ## Writing -/

/-- The state with another disk and memory, and another position. -/
def Fs.log (s : Fs) (D M : Store) (pos : Int) : Fs := { s.io D M with logPos := pos }

namespace Fs

variable {s : Fs} {D D' M M' : Store} {x : Int}

@[simp] theorem log_disk : (s.log D M x).disk = D := rfl
@[simp] theorem log_mem : (s.log D M x).mem = M := rfl
@[simp] theorem log_logPos : (s.log D M x).logPos = x := rfl
@[simp] theorem log_io : (s.log D M x).io D' M' = s.log D' M' x := rfl

end Fs

section

variable {s : Fs} {n k L pos fuel : Nat} {p : List Byte} {E : Halt → Fs → Prop}
  {Q : Unit → Fs → Prop}

theorem wp_writeLog_nil {x : Int} (hpos : s.logPos = (pos : Int))
    (hQ : ∀ M, Q () (s.log (putBytes s.disk (512 * L + pos) []) M
      (pos + ([] : List Byte).length : Nat))) : wp (writeLog rootDev fuel x []) Q E s := by
  have hend := hQ s.mem
  rw [putBytes_nil] at hend
  rw [show s.log s.disk s.mem (pos + ([] : List Byte).length : Nat) = s from hpos ▸ rfl] at hend
  cases fuel with
  | zero => rwa [writeLog, if_pos rfl, wp_pure]
  | succ fuel => rwa [writeLog, if_pos rfl, wp_pure]

/-- One round of the loop, and the rest. -/
theorem wp_writeLog_cons {c : Nat} (hp : p ≠ []) (hc : c = min p.length (512 - pos % 512))
    (hpos : s.logPos = (pos : Int)) (hfit : 512 * L + pos + p.length ≤ 512 * 2 ^ 23)
    (hQ : ∀ M, wp (writeLog rootDev fuel ((L + pos / 512 + 1 : Nat) : Int) (p.drop c)) Q E
      (s.log (putBytes s.disk (512 * L + pos) (p.take c)) M (pos + c : Nat))) :
    wp (writeLog rootDev (fuel + 1) ((L + pos / 512 : Nat) : Int) p) Q E s := by
  have hlen : 0 < p.length := List.length_pos_iff.mpr hp
  have hoff : ((pos : Nat) : Int).tmod (sectorSize : Nat) = (pos % 512 : Nat) := rfl
  rw [writeLog, if_neg hp, wp_bind]
  refine wp_rdSect_view (by omega) fun M hM => ?_
  rw [wp_bind, wp_get, wp_bind, Fs.io_logPos, hpos, hoff, wp_natOf_natCast, wp_bind, wp_putBuf,
    wp_bind, wp_wrSect_view (by omega), wp_bind, wp_modify, sectorSize, ← hc]
  simp only [Fs.io_disk, Fs.io_mem, Fs.io_io, Fs.io_logPos, hpos]
  have htake : (p.take c).take (512 - pos % 512) = p.take c := by
    rw [List.take_take, Nat.min_eq_right (by omega)]
  rw [view_putBytes (by omega), hM, htake,
    show 512 * (L + pos / 512) + pos % 512 = 512 * L + pos by omega]
  exact hQ _

/-- The text goes to where the position is. -/
theorem wp_writeLog (hfuel : p.length ≤ fuel) (hpos : s.logPos = (pos : Int))
    (hfit : 512 * L + pos + p.length ≤ 512 * 2 ^ 23)
    (hQ : ∀ M, Q () (s.log (putBytes s.disk (512 * L + pos) p) M (pos + p.length : Nat))) :
    wp (writeLog rootDev fuel ((L + pos / 512 : Nat) : Int) p) Q E s := by
  induction fuel generalizing s p pos with
  | zero =>
    obtain rfl : p = [] := List.eq_nil_of_length_eq_zero (by omega)
    exact wp_writeLog_nil hpos hQ
  | succ fuel ih =>
    by_cases hp : p = []
    · subst hp
      exact wp_writeLog_nil hpos hQ
    · obtain ⟨c, hc⟩ : ∃ c, c = min p.length (512 - pos % 512) := ⟨_, rfl⟩
      refine wp_writeLog_cons hp hc hpos hfit fun M => ?_
      have hlen : (p.take c).length = c := by
        rw [List.length_take]
        omega
      have hrest (M' : Store) : Q () ((s.log (putBytes s.disk (512 * L + pos) (p.take c)) M
          (pos + c : Nat)).log (putBytes (putBytes s.disk (512 * L + pos) (p.take c))
            (512 * L + (pos + c)) (p.drop c)) M' (pos + c + (p.drop c).length : Nat)) := by
        have hall := hQ M'
        have happend : putBytes (putBytes s.disk (512 * L + pos) (p.take c))
            (512 * L + pos + (p.take c).length) (p.drop c) =
            putBytes s.disk (512 * L + pos) (p.take c ++ p.drop c) := putBytes_putBytes
        rw [List.take_append_drop, hlen] at happend
        rw [← Nat.add_assoc, happend, List.length_drop, show pos + c + (p.length - c) =
          pos + p.length by omega]
        exact hall
      by_cases hlast : p.drop c = []
      · rw [hlast] at hrest ⊢
        exact wp_writeLog_nil rfl hrest
      · have hpos' : 0 < (p.drop c).length := List.length_pos_iff.mpr hlast
        rw [List.length_drop] at hpos'
        rw [show L + pos / 512 + 1 = L + (pos + c) / 512 by omega]
        refine ih ?_ rfl ?_ hrest
        · rw [List.length_drop]
          have : 0 < p.length := List.length_pos_iff.mpr hp
          omega
        · rw [List.length_drop]
          omega

/-- The buffer with the first line of the header made, and the second one. -/
def headerBuf (M : Store) (header : List Byte) : Store :=
  Function.update (fill (Function.update (fill (putBytes M (fsbuf + 0) (header ++ [0])) (fsbuf + 9) 22
    0x20) (fsbuf + 31) 0x0A) (fsbuf + 32) 31 0x20) (fsbuf + 63) 0x0A

theorem headerBuf_low {M : Store} {header : List Byte} (hlen : header.length = 9) (hn : n < 9) :
    headerBuf M header (fsbuf + n) = header.getD n 0 := by
  rw [headerBuf, Function.update_of_ne (by omega), fill_of_notMem (by omega),
    Function.update_of_ne (by omega), fill_of_notMem (by omega), putBytes, List.length_append, hlen,
    if_pos ⟨by omega, by simp; omega⟩, show fsbuf + n - (fsbuf + 0) = n by omega, List.getD, List.getD,
    List.getElem?_append_left (by omega)]

theorem headerBuf_high {M : Store} {header : List Byte} (hlen : header.length = 9) (hn : 64 ≤ n) :
    headerBuf M header (fsbuf + n) = M (fsbuf + n) := by
  rw [headerBuf, Function.update_of_ne (by omega), fill_of_notMem (by omega),
    Function.update_of_ne (by omega), fill_of_notMem (by omega),
    putBytes_of_notMem (by rw [List.length_append, hlen]; simp; omega)]

/-- What `disklog` does once the log was started. -/
def appendLog (device nrLogBlk0Nr : Int) (logstr : List Byte) : FM Int := do
  writeLog device logstr.length (nrLogBlk0Nr + (← get).logPos / (sectorSize : Nat)) logstr
  let pos := (← get).logPos
  rdSect device nrLogBlk0Nr
  putBuf 0 (logHeader pos ++ [0])
  memsetBuf 9 0x20 22
  setBuf 31 0x0A
  memsetBuf 32 0x20 31
  setBuf 63 0x0A
  wrSect device nrLogBlk0Nr
  let b ← bufAt (32 + 19)
  memsetBuf 64 b (512 - 64)
  wrSect device (nrLogBlk0Nr + (nrSectsForLog : Nat) - 1)
  pure pos

theorem disklog_eq : disklog p = (do
    let root ← deref (← get).rootInode
    let device := ((← get).inodeTable root).iDev
    let sb ← getSuperBlock device
    let nrLogBlk0Nr := (sb.nrSects - BitVec.ofNat 32 nrSectsForLog).toInt
    onlyIf ((← get).logPos = 0) (startLog device sb nrLogBlk0Nr)
    appendLog device nrLogBlk0Nr p) := rfl

/-- The disk `D` has the text `p` appended to the log that `D₀` has up to position `pos`. -/
structure Appended (L : Nat) (D₀ : Store) (pos : Nat) (p : List Byte) (D : Store) : Prop where
  header : bytes D (512 * L) 9 = logHeader (pos + p.length : Nat)
  text : ∀ a, 512 * L + 64 ≤ a → a < 512 * (L + 2047) → D a = putBytes D₀ (512 * L + pos) p a
  frame : ∀ a, (a < 512 * L ∨ 512 * (L + 2048) ≤ a) → D a = D₀ a

/-- The header and the copy of it leave the text. -/
theorem Appended.of_header {D₀ D M₁ : Store} (M₃ : Store) (hD : D = putBytes D₀ (512 * L + pos) p) (h64 : 64 ≤ pos)
    (hfit : pos + p.length ≤ 2047 * 512) (hM₁ : view D M₁ L = D) :
    Appended L D₀ pos p
      (view (view D (headerBuf M₁ (logHeader (pos + p.length : Nat))) L) M₃ (L + 2047)) := by
  have hheader : (logHeader (pos + p.length : Nat)).length = 9 := length_logHeader (by omega)
  refine ⟨?_, fun a ha ha' => ?_, fun a ha => ?_⟩
  · symm
    rw [eq_bytes_iff hheader]
    intro i hi
    rw [view_of_notMem (by omega), view_apply (by omega), headerBuf_low hheader hi]
  · rw [view_of_notMem (by omega), ← hD]
    by_cases hsect : a < 512 * L + 512
    · obtain ⟨i, rfl⟩ := Nat.exists_eq_add_of_le (by omega : 512 * L ≤ a)
      have hread := view_apply (D := D) (M := M₁) (n := L) (i := i) (by omega)
      rw [hM₁] at hread
      rw [view_apply (by omega), headerBuf_high hheader (by omega), hread]
    · exact view_of_notMem (by omega)
  · rw [view_of_notMem (by omega), view_of_notMem (by omega), hD, putBytes_of_notMem (by omega)]

/-- The text, then the header and the copy of it. -/
theorem wp_appendLog {Q : Int → Fs → Prop} (hpos : s.logPos = (pos : Int))
    (hfit : 512 * L + pos + p.length ≤ 512 * 2 ^ 23) (hL : L + 2048 ≤ 2 ^ 23)
    (hQ : ∀ D M₁ M₃, D = putBytes s.disk (512 * L + pos) p → view D M₁ L = D →
      (∀ i < 64, M₃ (fsbuf + i) = headerBuf M₁ (logHeader (pos + p.length : Nat)) (fsbuf + i)) →
      Q (pos + p.length : Nat) (s.log
        (view (view D (headerBuf M₁ (logHeader (pos + p.length : Nat))) L) M₃ (L + 2047)) M₃
        (pos + p.length : Nat))) :
    wp (appendLog rootDev (L : Nat) p) Q E s := by
  have hsect : ((L : Nat) : Int) + (pos : Int) / (sectorSize : Nat) = (L + pos / 512 : Nat) := by
    rw [sectorSize]
    omega
  have hlast : ((L : Nat) : Int) + (nrSectsForLog : Nat) - 1 = (L + 2047 : Nat) := by
    rw [nrSectsForLog, nrDefaultFileSects]
    omega
  rw [appendLog, wp_bind, wp_get, hpos, hsect, wp_bind]
  refine wp_writeLog le_rfl hpos hfit fun M => ?_
  rw [wp_bind, wp_get, wp_bind]
  refine wp_rdSect_view (by omega) fun M₁ hM₁ => ?_
  rw [wp_bind, wp_putBuf, wp_bind, wp_memsetBuf, wp_bind, wp_setBuf, wp_bind, wp_memsetBuf, wp_bind,
    wp_setBuf, wp_bind, wp_wrSect_view (by omega), wp_bind, wp_bufAt, wp_bind, wp_memsetBuf, wp_bind,
    hlast]
  simp only [Fs.log_disk, Fs.log_mem, Fs.log_logPos, Fs.log_io]
  rw [wp_wrSect_view (by omega), wp_pure]
  simp only [Fs.log_disk, Fs.log_mem, Fs.log_io]
  rw [Fs.log_disk] at hM₁
  exact hQ _ _ _ rfl hM₁ fun i hi => fill_of_notMem (by omega)

end

section

variable {s : Fs} {n k L pos fuel : Nat} {p : List Byte} {E : Halt → Fs → Prop}
  {Q : Unit → Fs → Prop}

/-! ## The first call -/

theorem wp_blankLog (hn : n + 256 * fuel ≤ 2 ^ 23)
    (hQ : ∀ D M, (∀ a, (a < 512 * n ∨ 512 * (n + 256 * fuel) ≤ a) → D a = s.disk a) →
      Q () (s.io D M)) : wp (blankLog rootDev 256 fuel (n : Nat)) Q E s := by
  induction fuel generalizing n s with
  | zero =>
    rw [blankLog, wp_pure]
    exact hQ s.disk s.mem fun _ _ => rfl
  | succ fuel ih =>
    rw [blankLog, wp_bind, wp_memsetBuf, wp_bind, wp_rwSector, if_neg (by decide),
      toNat_sectPos (by omega)]
    simp only [Fs.io_disk, Fs.io_mem, Fs.io_io, sectorSize]
    rw [← Nat.cast_add]
    refine ih (by omega) fun D M hD => ?_
    rw [Fs.io_disk] at hD
    rw [Fs.io_io]
    refine hQ D M fun a ha => ?_
    rw [hD a (by omega)]
    exact blit_of_notMem (by grind)

theorem disk_takeBits {exp : String} {j left : Nat} {D : Store} :
    Preserves (fun u : Fs => u.disk = D) (takeBits exp j fuel k left) := by
  induction fuel generalizing k left with
  | zero => exact .pure _
  | succ fuel ih =>
    exact .bind (fun _ h => h) fun _ => .bind .ensure fun _ => .bind (.modify fun _ h => h) fun _ =>
      .ite (.pure _) ih

theorem disk_markLogBytes {j left : Nat} {D : Store} :
    Preserves (fun u : Fs => u.disk = D) (markLogBytes fuel j k left) := by
  induction fuel generalizing j k left with
  | zero => exact .pure _
  | succ fuel ih => exact .ite (.pure _) (.bind disk_takeBits fun _ => ih)

/-- However it ends, only the sectors with the bits have changed. -/
theorem wp_markLogSects_outside {j left m : Nat} (hj : j < 512) (hk : k < 8) (hn : n + fuel ≤ 2 ^ 23)
    (hleft : 0 < left) (hm : m = (8 * j + k + left + 4095) / 4096) :
    wp (markLogSects rootDev fuel (n : Nat) j k left)
      (fun _ u => ∀ a, (a < 512 * n ∨ 512 * (n + m) ≤ a) → u.disk a = s.disk a)
      (fun _ u => ∀ a, (a < 512 * n ∨ 512 * (n + m) ≤ a) → u.disk a = s.disk a) s := by
  induction fuel generalizing n j k left m s with
  | zero =>
    rw [markLogSects, wp_pure]
    exact fun _ _ => rfl
  | succ fuel ih =>
    have hbytes : 8 * (512 - j) - k = 4096 - (8 * j + k) := by omega
    rw [markLogSects, wp_bind]
    refine wp_rdSect_view (by omega) fun M hM => ?_
    have hround : wp (markLogBytes (512 - j) j k left)
        (fun r u => r = left - (4096 - (8 * j + k)) ∧ u.disk = s.disk) (fun _ u => u.disk = s.disk)
        (s.io s.disk M) := by
      have hcount : wp (markLogBytes (512 - j) j k left)
          (fun r _ => r = left - (4096 - (8 * j + k))) (fun _ _ => True) (s.io s.disk M) :=
        wp_markLogBytes (by omega) hk (by omega) hM (fun _ _ _ => by rw [hbytes]) fun _ _ _ => trivial
      exact (hcount.and (disk_markLogBytes _ rfl)).mono (fun _ _ h => h) fun _ _ h => h.2
    rw [wp_bind, sectorSize]
    refine hround.mono (fun r t ht => ?_) fun _ t ht a _ => by rw [ht]
    obtain ⟨rfl, hdisk⟩ := ht
    have hfirst (a : Nat) (ha : a < 512 * n ∨ 512 * (n + 1) ≤ a) :
        (t.io (view t.disk t.mem n) t.mem).disk a = s.disk a := by
      rw [Fs.io_disk, view_of_notMem (by omega), hdisk]
    rw [wp_bind, wp_wrSect_view (by omega), wp_ite, wp_pure]
    refine ⟨fun _ a ha => hfirst a (by omega), fun hmore => ?_⟩
    rw [show ((n : Nat) : Int) + 1 = (n + 1 : Nat) from rfl]
    refine (ih (m := m - 1) (by omega) (by omega) (by omega) (by omega) (by omega)).mono
      (fun _ u hu a ha => ?_) fun _ u hu a ha => ?_
    · rw [hu a (by omega), hfirst a (by omega)]
    · rw [hu a (by omega), hfirst a (by omega)]

theorem wp_markLog_outside (sb : SuperBlock) (hL : sb.smapBase + L / 4096 + 2 ≤ 2 ^ 23) :
    wp (markLog rootDev sb (L : Nat))
      (fun _ u => ∀ a, (a < 512 * (sb.smapBase + L / 4096) ∨
        512 * (sb.smapBase + (L + 2047) / 4096 + 1) ≤ a) → u.disk a = s.disk a)
      (fun _ u => ∀ a, (a < 512 * (sb.smapBase + L / 4096) ∨
        512 * (sb.smapBase + (L + 2047) / 4096 + 1) ≤ a) → u.disk a = s.disk a) s := by
  have hsects : nrSectsForLog = 2048 := rfl
  rw [wp_markLog_iff hL, hsects]
  refine (wp_markLogSects_outside (by omega) (by omega) (by omega) (by decide) rfl).mono
    (fun r u hu => ?_) fun _ u hu a ha => hu a (by omega)
  rw [wp_assert]
  exact ⟨fun _ a ha => hu a (by omega), fun _ a ha => hu a (by omega)⟩

/-- Address `a` is in the log's area, which starts at sector `L`. -/
def InLog (L a : Nat) : Prop := 512 * L ≤ a ∧ a < 512 * (L + 2048)

/-- Address `a` is in a sector of the map that has bits of the area's sectors. -/
def InLogMap (L a : Nat) : Prop :=
  512 * (3 + L / 4096) ≤ a ∧ a < 512 * (3 + (L + 2047) / 4096 + 1)

theorem wp_startLog {size : BitVec 32} (hL : L + 2048 ≤ 2 ^ 23)
    (hQ : ∀ D M, AllBits s.disk (4096 * 3 + L) false 2048 →
      (∀ a, ¬InLog L a → D a = mark s.disk (4096 * 3 + L) true 2048 a) → Q () (s.log D M 0x40))
    (hE : ∀ e u, ¬AllBits s.disk (4096 * 3 + L) false 2048 →
      (∀ a, ¬InLogMap L a → u.disk a = s.disk a) → E e u) :
    wp (startLog rootDev (rootSuper size) (L : Nat)) Q E s := by
  have hbase : (rootSuper size).smapBase = 3 := rfl
  have hsects : nrSectsForLog = 2048 := rfl
  have hmark : wp (markLog rootDev (rootSuper size) (L : Nat))
      (fun _ u => AllBits s.disk (4096 * 3 + L) false 2048 ∧
        ∃ M, u = s.io (mark s.disk (4096 * 3 + L) true 2048) M)
      (fun _ _ => ¬AllBits s.disk (4096 * 3 + L) false 2048) s :=
    wp_markLog (by rw [hbase]; omega) (fun M hc => ⟨hc, M, rfl⟩) fun hc _ _ => hc
  have houtside := wp_markLog_outside (s := s) (L := L) (rootSuper size) (by rw [hbase]; omega)
  rw [startLog, wp_bind]
  refine (hmark.and houtside).mono (fun _ t ht => ?_) fun e u hu =>
    hE e u hu.1 fun a ha => hu.2 a ?_
  · obtain ⟨⟨hclear, M, rfl⟩, -⟩ := ht
    have hchunk : min maxIoBytes (fsbufSize / sectorSize) = 256 := by decide
    have hcount : nrSectsForLog / 256 = 8 := by decide
    rw [wp_bind, wp_modify]
    change wp _ Q E (s.log (mark s.disk (4096 * 3 + L) true 2048) M 0x40)
    rw [hchunk, wp_bind, wp_assert_of rfl, hcount]
    refine wp_blankLog (by omega) fun D M' hD => ?_
    rw [Fs.log_disk] at hD
    rw [Fs.log_io]
    refine hQ D M' hclear fun a ha => hD a ?_
    rw [InLog] at ha
    omega
  · rw [hbase]
    rw [InLogMap] at ha
    omega

end

/-! ## A partition with a log -/

/-- The first sector of the log on a partition of `size` sectors. -/
def logSect (size : BitVec 32) : Nat := size.toNat - nrSectsForLog

/-- The root partition is one of `size` sectors. -/
structure LogPartition (size : BitVec 32) (s : Fs) : Prop where
  super : s.super rootDev = some (rootSuper size)
  root : ∃ p, s.rootInode = some p ∧ (s.inodeTable p).iDev = rootDev

section

variable {size : BitVec 32} {s : Fs} {pos : Nat} {p : List Byte} {E : Halt → Fs → Prop}

theorem LogPartition.log {D M : Store} {x : Int} (h : LogPartition size s) :
    LogPartition size (s.log D M x) := ⟨h.super, h.root⟩

/-- The partition has room for the log, and no more sectors than `rw_sector` can address. -/
structure HasLog (size : BitVec 32) : Prop where
  le : nrSectsForLog ≤ size.toNat
  sects : size.toNat ≤ 2 ^ 23

theorem toNat_logSect (h : nrSectsForLog ≤ size.toNat) :
    (size - BitVec.ofNat 32 nrSectsForLog).toNat = logSect size := by
  have hofNat : (BitVec.ofNat 32 nrSectsForLog).toNat = nrSectsForLog := by decide
  have hle : BitVec.ofNat 32 nrSectsForLog ≤ size := BitVec.le_def.mpr (hofNat.le.trans h)
  rw [BitVec.toNat_sub_of_le hle, hofNat]
  rfl

theorem wp_disklog {Q : Int → Fs → Prop} (h : LogPartition size s) (hsize : HasLog size) :
    wp (disklog p) Q E s ↔
      wp (onlyIf (s.logPos = 0) (startLog rootDev (rootSuper size) (logSect size : Nat)))
        (fun _ t => wp (appendLog rootDev (logSect size : Nat) p) Q E t) E s := by
  obtain ⟨q, hroot, hdev⟩ := h.root
  have hlast : ((rootSuper size).nrSects - BitVec.ofNat 32 nrSectsForLog).toInt =
      (logSect size : Nat) := by
    have hnat := toNat_logSect hsize.le
    have hsects := hsize.sects
    have hle : logSect size ≤ size.toNat := Nat.sub_le _ _
    rw [show (rootSuper size).nrSects = size from rfl, BitVec.toInt_eq_toNat_of_lt (by omega), hnat]
  rw [disklog_eq, wp_bind, wp_get, hroot, wp_bind, wp_deref_some, wp_bind, wp_get, hdev, wp_bind,
    wp_getSuperBlock h.super, hlast, wp_bind, wp_get, wp_bind]

end

/-! ## Runs -/

/-- The machine after calls of `disklog`, with what was logged and what the last call returned. -/
structure LogState where
  fs : Fs
  logged : List Byte := []
  answer : Option Int := none

/-- The calls of `disklog` from state `s` on. -/
def logMachine (s : Fs) : Machine LogState (List Byte) Halt where
  initial t := t = { fs := s }
  step p t := match disklog p t.fs with
    | .ok pos u => ({ fs := u, logged := t.logged ++ p, answer := some pos }, none)
    | .error e u => ({ fs := u, logged := t.logged }, some e)

/-- What the log keeps of the calls since state `s`. -/
structure LogKept (size : BitVec 32) (s : Fs) (t : LogState) (o : Option Halt) : Prop where
  /-- Only the area and the sectors of the map with its bits are written, -/
  outside : ∀ a, ¬InLog (logSect size) a → ¬InLogMap (logSect size) a → t.fs.disk a = s.disk a
  /-- and these only to mark the area. -/
  map : t.answer.isSome → ∀ a, ¬InLog (logSect size) a →
    t.fs.disk a = mark s.disk (4096 * 3 + logSect size) true nrSectsForLog a
  header : ∀ pos, t.answer = some pos →
    (readDecimal (bytes t.fs.disk (512 * logSect size) 64) : Int) = pos
  text : ∀ pos, t.answer = some pos →
    bytes t.fs.disk (512 * logSect size + 0x40) (pos - 0x40).toNat = t.logged
  /-- A call that finds the area unmarked returns. -/
  stop : o.isSome → ¬AllBits s.disk (4096 * 3 + logSect size) false nrSectsForLog

/-- The text ends below the last sector of the area. -/
def FitsLog (t : LogState) (p : List Byte) : Prop :=
  (if t.fs.logPos = 0 then 0x40 else t.fs.logPos) + (p.length : Int) ≤ ((nrSectsForLog - 1) * 512 : Nat)

instance {t : LogState} {p : List Byte} : Decidable (FitsLog t p) :=
  inferInstanceAs (Decidable (_ ≤ _))

/-- The log in state `u` is the text `l`, for a partition that was in state `s` before the first call. -/
structure LogText (size : BitVec 32) (s u : Fs) (l : List Byte) : Prop where
  partition : LogPartition size u
  logPos : u.logPos = ((64 + l.length : Nat) : Int)
  text : bytes u.disk (512 * logSect size + 64) l.length = l
  map : ∀ a, ¬InLog (logSect size) a →
    u.disk a = mark s.disk (4096 * 3 + logSect size) true nrSectsForLog a
  clear : AllBits s.disk (4096 * 3 + logSect size) false nrSectsForLog

/-- The state after calls that returned. -/
structure Logged (size : BitVec 32) (s : Fs) (t : LogState) : Prop where
  log : LogText size s t.fs t.logged
  answer : t.answer = some ((64 + t.logged.length : Nat) : Int)
  header : bytes t.fs.disk (512 * logSect size) 9 = logHeader ((64 + t.logged.length : Nat) : Int)

/-- The states of a run whose calls fit. -/
inductive LogInv (size : BitVec 32) (s : Fs) : LogState → Option Halt → Prop
  | fresh : LogInv size s { fs := s } none
  | logged {t : LogState} : Logged size s t → LogInv size s t none
  | stopped {t : LogState} {e : Halt} : t.answer = none →
      ¬AllBits s.disk (4096 * 3 + logSect size) false nrSectsForLog →
      (∀ a, ¬InLogMap (logSect size) a → t.fs.disk a = s.disk a) → LogInv size s t (some e)

section

variable {size : BitVec 32} {s u : Fs} {t : LogState} {pos : Nat} {p : List Byte}
  {E : Halt → Fs → Prop}

/-- Text appended to a log. -/
theorem Appended.text_append {L : Nat} {D₀ D : Store} {l : List Byte}
    (h : Appended L D₀ (64 + l.length) p D) (htext : bytes D₀ (512 * L + 64) l.length = l)
    (hfit : 64 + l.length + p.length ≤ 2047 * 512) :
    bytes D (512 * L + 64) (l ++ p).length = l ++ p := by
  rw [List.length_append, bytes_add]
  have hold : bytes D (512 * L + 64) l.length = l := by
    rw [← htext, length_bytes]
    refine bytes_congr fun i hi => ?_
    rw [h.text _ (by omega) (by omega), putBytes_of_notMem (by omega)]
  have hnew : bytes D (512 * L + 64 + l.length) p.length = p := by
    have hput : bytes (putBytes D₀ (512 * L + 64 + l.length) p) (512 * L + 64 + l.length) p.length = p :=
      bytes_putBytes
    refine (bytes_congr fun i hi => ?_).trans hput
    rw [h.text _ (by omega) (by omega), ← Nat.add_assoc (512 * L) 64]
  rw [hold, hnew]

theorem HasLog.sect_add (hsize : HasLog size) : logSect size + 2048 = size.toNat :=
  Nat.sub_add_cancel hsize.le

/-- A call adds to the log. -/
theorem wp_appendLog_logged {l : List Byte} (h : LogText size s u l) (hsize : HasLog size)
    (hfit : 64 + l.length + p.length ≤ 2047 * 512) :
    wp (appendLog rootDev (logSect size : Nat) p)
      (fun r v => Logged size s { fs := v, logged := l ++ p, answer := some r }) E u := by
  have hsects := hsize.sects
  have hadd := hsize.sect_add
  refine wp_appendLog h.logPos (by omega) (by omega) fun D M₁ M₃ hD hM₁ hM₃ => ?_
  have happended := Appended.of_header M₃ hD (by omega) hfit hM₁
  have hlen : 64 + (l ++ p).length = 64 + l.length + p.length := by
    rw [List.length_append, Nat.add_assoc]
  refine ⟨⟨h.partition.log, ?_, happended.text_append h.text hfit, fun a ha => ?_, h.clear⟩, ?_, ?_⟩
  · rw [hlen]
    rfl
  · rw [← h.map a ha]
    rw [InLog] at ha
    exact happended.frame a (by omega)
  · rw [hlen]
  · rw [hlen]
    exact happended.header

theorem wp_disklog_logged (h : Logged size s t) (hsize : HasLog size)
    (hfit : 64 + t.logged.length + p.length ≤ 2047 * 512) :
    wp (disklog p) (fun r u => Logged size s { fs := u, logged := t.logged ++ p, answer := some r }) E
      t.fs := by
  rw [wp_disklog h.log.partition hsize, onlyIf, if_neg (by rw [h.log.logPos]; omega), wp_pure]
  exact wp_appendLog_logged h.log hsize hfit

/-- The first call makes the log and adds to it, or it finds a bit of the area set. -/
theorem wp_disklog_first (h : LogPartition size s) (hzero : s.logPos = 0) (hsize : HasLog size)
    (hfit : 64 + p.length ≤ 2047 * 512) :
    wp (disklog p) (fun r u => Logged size s { fs := u, logged := p, answer := some r })
      (fun _ u => ¬AllBits s.disk (4096 * 3 + logSect size) false nrSectsForLog ∧
        ∀ a, ¬InLogMap (logSect size) a → u.disk a = s.disk a) s := by
  have hsects := hsize.sects
  have hadd := hsize.sect_add
  rw [wp_disklog h hsize, onlyIf, if_pos hzero]
  refine wp_startLog (by omega) (fun D M hclear hD => ?_) fun _ _ hset hdisk => ⟨hset, hdisk⟩
  exact wp_appendLog_logged (l := []) ⟨h.log, rfl, rfl, hD, hclear⟩ hsize hfit

theorem step_of_wp {I : LogState → Option Halt → Prop}
    (h : wp (disklog p) (fun r u => I { fs := u, logged := t.logged ++ p, answer := some r } none)
      (fun e u => I { fs := u, logged := t.logged } (some e)) t.fs) :
    I ((logMachine s).step p t).1 ((logMachine s).step p t).2 := by
  cases hx : disklog p t.fs with
  | ok r u =>
    have hstep : (logMachine s).step p t =
        ({ fs := u, logged := t.logged ++ p, answer := some r }, none) := by
      simp only [logMachine, hx]
    rw [hstep]
    exact (wp_of_ok hx).mp h
  | error e u =>
    have hstep : (logMachine s).step p t = ({ fs := u, logged := t.logged }, some e) := by
      simp only [logMachine, hx]
    rw [hstep]
    exact (wp_of_error hx).mp h

theorem fitsLog_iff {n : Nat} (hn : (if t.fs.logPos = 0 then 0x40 else t.fs.logPos) = (n : Int)) :
    FitsLog t p ↔ n + p.length ≤ 2047 * 512 := by
  have hlimit : (nrSectsForLog - 1) * 512 = 2047 * 512 := by decide
  rw [FitsLog, hn, hlimit]
  omega

theorem Logged.fitsLog_iff (h : Logged size s t) :
    FitsLog t p ↔ 64 + t.logged.length + p.length ≤ 2047 * 512 :=
  Dlos.fitsLog_iff (by rw [h.log.logPos, if_neg (by omega)])

/-- A call that fits. -/
theorem LogInv.step (h : LogPartition size s) (hzero : s.logPos = 0) (hsize : HasLog size)
    (ht : LogInv size s t none) (hfit : FitsLog t p) :
    LogInv size s ((logMachine s).step p t).1 ((logMachine s).step p t).2 := by
  refine step_of_wp ?_
  cases ht with
  | fresh =>
    refine (wp_disklog_first h hzero hsize ((fitsLog_iff (if_pos hzero)).mp hfit)).mono
      (fun _ _ hu => .logged hu) fun _ _ hu => .stopped rfl hu.1 hu.2
  | logged hlogged =>
    exact (wp_disklog_logged hlogged hsize (hlogged.fitsLog_iff.mp hfit)).mono
      (fun _ _ hu => .logged hu) fun _ _ h => h

theorem LogInv.kept {o : Option Halt} (ht : LogInv size s t o) : LogKept size s t o := by
  cases ht with
  | fresh =>
    exact ⟨fun _ _ _ => rfl, nofun, nofun, nofun, nofun⟩
  | logged hlogged =>
    obtain ⟨⟨-, -, htext, hmap, -⟩, hanswer, hheader⟩ := hlogged
    refine ⟨fun a ha hmapSect => ?_, fun _ => hmap, fun pos hpos => ?_, fun pos hpos => ?_, nofun⟩
    · have hlog : nrSectsForLog = 2048 := rfl
      rw [hmap a ha]
      rw [InLogMap] at hmapSect
      exact mark_of_notMem (by omega)
    · rw [hanswer] at hpos
      obtain rfl := Option.some.inj hpos
      rw [bytes_add (n := 9) (k := 55), hheader, readDecimal_logHeader]
    · rw [hanswer] at hpos
      obtain rfl := Option.some.inj hpos
      have hlen : (((64 + t.logged.length : Nat) : Int) - 0x40).toNat = t.logged.length := by omega
      rw [hlen]
      exact htext
  | stopped hanswer hset hdisk =>
    refine ⟨fun a _ ha => hdisk a ha, ?_, ?_, ?_, fun _ => hset⟩
    · rw [hanswer]
      nofun
    · rw [hanswer]
      nofun
    · rw [hanswer]
      nofun

/-- As long as the text ends below the last sector of the area, the log is what was logged. -/
theorem disklog_kept (h : LogPartition size s) (hzero : s.logPos = 0) (hsize : HasLog size)
    {o : Option Halt} (ht : (logMachine s).Reached FitsLog t o) : LogKept size s t o := by
  refine (ht.invariant (I := LogInv size s) (fun _ hs => ?_) fun _ _ _ hs hfit => ?_).kept
  · rw [show _ = ({ fs := s } : LogState) from hs]
    exact .fresh
  · exact hs.step h hzero hsize hfit

/-! ## A full log -/

/-- A call whose text starts in the last sector loses it. -/
theorem wp_disklog_full {b : Byte} (h : Logged size s t) (hsize : HasLog size)
    (hfull : 64 + t.logged.length = 2047 * 512) (hb : b ≠ 0x20) :
    wp (disklog [b]) (fun r u =>
      ¬LogKept size s { fs := u, logged := t.logged ++ [b], answer := some r } none) E t.fs := by
  have hsects := hsize.sects
  have hadd := hsize.sect_add
  have hone : [b].length = 1 := rfl
  rw [wp_disklog h.log.partition hsize, onlyIf, if_neg (by rw [h.log.logPos]; omega), wp_pure]
  refine wp_appendLog h.log.logPos (by omega) (by omega) fun D M₁ M₃ _ _ hM₃ hkept => ?_
  have hpos : 64 + t.logged.length + [b].length = 1048065 := by omega
  have hcount : (((64 + t.logged.length + [b].length : Nat) : Int) - 0x40).toNat =
      t.logged.length + 1 := by omega
  have htext := congrArg (·[t.logged.length]?) (hkept.text _ rfl)
  have hheader : (logHeader ((1048065 : Nat) : Int)).getD 0 0 = 0x20 := by decide +kernel
  have hcopy : M₃ (fsbuf + 0) = 0x20 := by
    rw [hM₃ 0 (by decide), hpos, headerBuf_low (length_logHeader (by decide)) (by decide), hheader]
  have haddr : 512 * logSect size + 0x40 + t.logged.length = 512 * (logSect size + 2047) + 0 := by
    omega
  dsimp only at htext
  rw [hcount, getElem?_bytes (Nat.lt_succ_self _), haddr, Fs.log_disk, view_apply (by decide), hcopy,
    List.getElem?_append_right le_rfl, Nat.sub_self] at htext
  exact hb (Option.some.inj htext).symm

/-- One more call of a run. -/
theorem exists_reached {G : LogState → List Byte → Prop} {P : LogState → Prop}
    (ht : (logMachine s).Reached G t none) (hp : G t p)
    (h : wp (disklog p) (fun r u => P { fs := u, logged := t.logged ++ p, answer := some r })
      (fun _ _ => False) t.fs) :
    ∃ t', (logMachine s).Reached G t' none ∧ P t' ∧ t'.logged = t.logged ++ p := by
  have hstep : ((logMachine s).step p t).2 = none ∧ P ((logMachine s).step p t).1 ∧
      ((logMachine s).step p t).1.logged = t.logged ++ p :=
    step_of_wp (I := fun t' o => o = none ∧ P t' ∧ t'.logged = t.logged ++ p)
      (h.mono (fun _ _ hu => ⟨rfl, hu, rfl⟩) fun _ _ h => h.elim)
  have hreached := ht.step hp
  rw [hstep.1] at hreached
  exact ⟨_, hreached, hstep.2⟩

/-- Calls with strings of 1000 characters make a log, up to its last sector. -/
theorem exists_logged (h : LogPartition size s) (hzero : s.logPos = 0) (hsize : HasLog size)
    (hclear : AllBits s.disk (4096 * 3 + logSect size) false nrSectsForLog) {n : Nat} (hn : n < 1048) :
    ∃ t, (logMachine s).Reached FitsLog t none ∧ Logged size s t ∧
      t.logged.length = 1000 * (n + 1) := by
  have hlen : (List.replicate 1000 (0x61 : Byte)).length = 1000 := List.length_replicate
  induction n with
  | zero =>
    have hfits : FitsLog { fs := s } (List.replicate 1000 0x61) :=
      (fitsLog_iff (n := 64) (if_pos hzero)).mpr (by omega)
    obtain ⟨t, hreached, hlogged, htext⟩ := exists_reached (.start rfl) hfits
      ((wp_disklog_first h hzero hsize (by omega)).mono (fun _ _ hu => hu)
        fun _ _ hu => absurd hclear hu.1)
    refine ⟨t, hreached, hlogged, ?_⟩
    rw [htext, List.nil_append, hlen]
  | succ n ih =>
    obtain ⟨t, hreached, hlogged, hlength⟩ := ih (by omega)
    have hfit : 64 + t.logged.length + (List.replicate 1000 (0x61 : Byte)).length ≤ 2047 * 512 := by
      omega
    obtain ⟨t', hreached', hlogged', htext⟩ := exists_reached hreached (hlogged.fitsLog_iff.mpr hfit)
      (wp_disklog_logged hlogged hsize hfit)
    refine ⟨t', hreached', hlogged', ?_⟩
    rw [htext, List.length_append, hlen, hlength]
    omega

end

/-- An empty disk with a partition of 40960 sectors. -/
def emptyDisk : Fs where
  disk _ := 0
  mem _ := 0
  procTable _ := {}
  filp _ _ := none
  fDescTable _ := {}
  inodeTable _ := { iDev := rootDev, iNum := 1 }
  superBlock _ := rootSuper 40960
  rootInode := some 0
  pcaller := 0
  fsMsg := {}
  logPos := 0
  geoSize := 40960
  ttyReply m := m
  copies := []

theorem exists_logged_emptyDisk : HasLog 40960 ∧ LogPartition 40960 emptyDisk ∧
    ∃ t, (logMachine emptyDisk).Reached FitsLog t none ∧ Logged 40960 emptyDisk t ∧
      t.logged.length = 1048000 := by
  have hsize : HasLog 40960 := ⟨by decide, by decide⟩
  have hpartition : LogPartition 40960 emptyDisk := ⟨by decide +kernel, 0, rfl, rfl⟩
  have hclear : AllBits emptyDisk.disk (4096 * 3 + logSect 40960) false nrSectsForLog :=
    fun _ _ _ => BitVec.getLsbD_zero
  obtain ⟨t, hreached, hlogged, hlength⟩ :=
    exists_logged hpartition rfl hsize hclear (by decide : 1047 < 1048)
  exact ⟨hsize, hpartition, t, hreached, hlogged, hlength⟩

/-- 1048 calls with 1000 characters each are kept. -/
theorem disklog_kept_emptyDisk : ∃ t, t.logged.length = 1048000 ∧
    LogKept 40960 emptyDisk t none := by
  obtain ⟨hsize, hpartition, t, hreached, -, hlength⟩ := exists_logged_emptyDisk
  exact ⟨t, hlength, disklog_kept hpartition rfl hsize hreached⟩

/-- Of the next call the log keeps nothing. -/
theorem not_disklog_kept_emptyDisk : ∃ t, (logMachine emptyDisk).Reached (fun _ _ => True) t none ∧
    ¬LogKept 40960 emptyDisk t none := by
  obtain ⟨hsize, -, t, hreached, hlogged, hlength⟩ := exists_logged_emptyDisk
  obtain ⟨t', hreached', hnot, -⟩ := exists_reached (p := [0x61])
    (P := fun t' => ¬LogKept 40960 emptyDisk t' none) (hreached.mono fun _ _ _ => trivial) trivial
    (wp_disklog_full hlogged hsize (by omega) (by decide))
  exact ⟨t', hreached', hnot⟩

end Dlos
