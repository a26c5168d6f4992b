import Dlos.Boot.InitKernel

/-!
# Loading the kernel's file (`loader.asm`)

In real mode the loader follows the file's chain in the FAT and reads a sector for every cluster. What
the routines push is bound by name here, and kept apart from the memory. `none` stands for the
processor's divide error, in the loop also for a number of rounds that is too small.
-/

namespace Dlos.Loader

open Bytes

abbrev bpbBytsPerSec : BitVec 16 := 512
abbrev bpbSecPerTrk : BitVec 8 := 18
abbrev bpbNumHeads : Nat := 2
abbrev bsDrvNum : BitVec 8 := 0

abbrev fatSz : Nat := 9
abbrev rootDirSectors : BitVec 16 := 14
abbrev sectorNoOfFAT1 : BitVec 16 := 1
abbrev deltaSectorNo : BitVec 16 := 17

abbrev baseOfKernelFile : BitVec 16 := 0x7000
abbrev offsetOfKernelFile : BitVec 16 := 0

/-- The registers that the routines use, and the memory. -/
structure RealMode where
  ax : BitVec 16
  bx : BitVec 16
  cx : BitVec 16
  dx : BitVec 16
  es : BitVec 16
  mem : Store

def low (r : BitVec 16) : BitVec 8 := r.setWidth 8

def high (r : BitVec 16) : BitVec 8 := r.extractLsb' 8 8

/-- The address of `es:bx`. -/
def physical (es bx : BitVec 16) : Nat := 16 * es.toNat + bx.toNat

/-- `div`: the quotient and the remainder, if the quotient fits. -/
def divide {v w : Nat} (n : BitVec v) (d : BitVec w) : Option (BitVec w × BitVec w) :=
  if d ≠ 0 ∧ n.toNat / d.toNat < 2 ^ w then
    some (BitVec.ofNat w (n.toNat / d.toNat), BitVec.ofNat w (n.toNat % d.toNat))
  else none

/-- `int 13h`, function 2: `al` sectors from cylinder `ch`, head `dh` and sector `cl` on are read to
`es:bx`. -/
def int13h (disk : Store) (s : RealMode) : RealMode :=
  let track := (high s.cx).toNat * bpbNumHeads + (high s.dx).toNat
  let sector := track * bpbSecPerTrk.toNat + ((low s.cx).toNat - 1)
  { s with
    ax := (low s.ax).setWidth 16
    mem := blit s.mem (physical s.es s.bx) disk (512 * sector) (512 * (low s.ax).toNat) }

/-- `ReadSector`: `cl` sectors from sector `ax` on, to `es:bx`. -/
def readSector (disk : Store) (s : RealMode) : Option RealMode := do
  let sectors := low s.cx
  let (al, ah) ← divide s.ax bpbSecPerTrk
  let cl := ah + 1
  let ch := al >>> 1
  let dh := al &&& 1
  return int13h disk { s with ax := (2 : BitVec 8) ++ sectors, cx := ch ++ cl, dx := dh ++ bsDrvNum }

/-- `GetFATEntry`: the entry of the FAT for `ax`, in `ax`. -/
def getFATEntry (disk : Store) (s : RealMode) : Option RealMode := do
  let (ax, dx) ← divide (s.ax.setWidth 32 * 3) (2 : BitVec 16)
  let bOdd : Byte := if dx = 0 then 0 else 1
  let (ax, dx) ← divide (ax.setWidth 32) bpbBytsPerSec
  let t ← readSector disk { s with
    ax := ax + sectorNoOfFAT1, bx := 0, cx := high s.cx ++ (2 : BitVec 8), dx
    es := baseOfKernelFile - 0x100 }
  let bx := t.bx + dx
  let ax := t.mem (physical t.es (bx + 1)) ++ t.mem (physical t.es bx)
  let ax := if bOdd = 1 then ax >>> 4 else ax
  return { t with ax := ax &&& 0xFFF, dx, bx := s.bx, es := s.es }

/-- `LABEL_GOON_LOADING_FILE`, the FAT's number being `node`. -/
def goonLoadingFile (disk : Store) : Nat → BitVec 16 → RealMode → Option RealMode
  | 0, _, _ => none
  | n + 1, node, s => do
    let s ← readSector disk { s with cx := high s.cx ++ (1 : BitVec 8) }
    let s ← getFATEntry disk { s with ax := node }
    if s.ax = 0xFFF then return s
    let es := if 2 ^ 16 ≤ s.bx.toNat + bpbBytsPerSec.toNat then s.es + 0x1000 else s.es
    goonLoadingFile disk n s.ax { s with
      ax := s.ax + rootDirSectors + deltaSectorNo, bx := s.bx + bpbBytsPerSec
      dx := rootDirSectors, es }

/-- From `LABEL_FILENAME_FOUND` on; the directory's entry says `cluster`. -/
def loadFile (disk : Store) (n : Nat) (cluster : BitVec 16) (s : RealMode) : Option RealMode :=
  let cx := cluster + rootDirSectors + deltaSectorNo
  goonLoadingFile disk n cluster { s with
    ax := cx, bx := offsetOfKernelFile, cx, es := baseOfKernelFile }

/-! ## FAT12 -/

/-- The entry of the first FAT for `n`: its bits from `12 * n` on. -/
def fatEntry (disk : Store) (n : Nat) : BitVec 12 :=
  let fat (i : Nat) : Byte := disk (512 * sectorNoOfFAT1.toNat + i)
  (fat (12 * n / 8 + 1) ++ fat (12 * n / 8)).extractLsb' (12 * n % 8) 12

/-- The whole entry is in the FAT's sectors. -/
def InFat (n : Nat) : Prop := 12 * (n + 1) ≤ 8 * (512 * fatSz)

instance : DecidablePred InFat := fun _ => inferInstanceAs (Decidable (_ ≤ _))

/-- The clusters `c :: cs` are a chain. -/
def FatChain (disk : Store) (c : BitVec 16) : List (BitVec 16) → Prop
  | [] => InFat c.toNat ∧ fatEntry disk c.toNat = 0xFFF
  | next :: cs =>
    InFat c.toNat ∧ (fatEntry disk c.toNat).setWidth 16 = next ∧ FatChain disk next cs

/-- The sector of a cluster: behind both FATs and the directory, beginning with cluster 2. -/
def dataSector (c : BitVec 16) : Nat :=
  sectorNoOfFAT1.toNat + 2 * fatSz + rootDirSectors.toNat + c.toNat - 2

/-- The routine returns the entries, and leaves where to load. -/
def ReturnsEntries (disk : Store) : Prop :=
  ∀ s : RealMode, InFat s.ax.toNat → ∃ t, getFATEntry disk s = some t ∧
    t.ax = (fatEntry disk s.ax.toNat).setWidth 16 ∧ t.es = s.es ∧ t.bx = s.bx

/-- The sectors of the clusters lie one behind the other. -/
def Loaded (disk : Store) (cs : List (BitVec 16)) (m : Store) : Prop :=
  ∀ i c, cs[i]? = some c → ∀ j < 512,
    m (baseOfKernelFilePhyAddr.toNat + 512 * i + j) = disk (512 * dataSector c + j)

section

variable {disk m : Store} {s : RealMode} {c : BitVec 16} {cs : List (BitVec 16)} {n k : Nat}

/-! ## The routines -/

theorem low_append {x y : BitVec 8} : low (x ++ y) = y := by
  refine BitVec.eq_of_getLsbD_eq fun i hi => ?_
  rw [low, BitVec.getLsbD_setWidth, BitVec.getLsbD_append, if_pos hi, decide_eq_true hi, Bool.true_and]

theorem high_append {x y : BitVec 8} : high (x ++ y) = x := by
  refine BitVec.eq_of_getLsbD_eq fun i hi => ?_
  rw [high, BitVec.getLsbD_extractLsb', BitVec.getLsbD_append, if_neg (by omega), decide_eq_true hi,
    Bool.true_and, Nat.add_sub_cancel_left]

theorem divide_eq {v w : Nat} {n : BitVec v} {d : BitVec w} (hd : d ≠ 0) (h : n.toNat / d.toNat < 2 ^ w) :
    divide n d = some (BitVec.ofNat w (n.toNat / d.toNat), BitVec.ofNat w (n.toNat % d.toNat)) :=
  if_pos ⟨hd, h⟩

/-- Cylinder, head and sector are those of sector `ax`. -/
theorem readSector_eq (disk : Store) (s : RealMode) (h : s.ax.toNat / 18 < 256) : ∃ t, readSector disk s = some t ∧
    t.es = s.es ∧ t.bx = s.bx ∧
    t.mem = blit s.mem (physical s.es s.bx) disk (512 * s.ax.toNat) (512 * (low s.cx).toNat) := by
  have hdiv : divide s.ax bpbSecPerTrk =
      some (BitVec.ofNat 8 (s.ax.toNat / 18), BitVec.ofNat 8 (s.ax.toNat % 18)) :=
    divide_eq (by decide) h
  have hquot : (BitVec.ofNat 8 (s.ax.toNat / 18)).toNat = s.ax.toNat / 18 := by
    rw [BitVec.toNat_ofNat]
    omega
  have hsector : (BitVec.ofNat 8 (s.ax.toNat % 18) + 1).toNat = s.ax.toNat % 18 + 1 := by
    rw [BitVec.toNat_add, BitVec.toNat_ofNat]
    change (_ + 1) % 2 ^ 8 = _
    omega
  have hcylinder : (BitVec.ofNat 8 (s.ax.toNat / 18) >>> 1).toNat = s.ax.toNat / 18 / 2 := by
    rw [BitVec.toNat_ushiftRight, hquot, Nat.shiftRight_one]
  have hhead : (BitVec.ofNat 8 (s.ax.toNat / 18) &&& 1).toNat = s.ax.toNat / 18 % 2 := by
    rw [BitVec.toNat_and, hquot]
    exact Nat.and_one_is_mod _
  have hcall : readSector disk s = some (int13h disk { s with
      ax := (2 : BitVec 8) ++ low s.cx
      cx := (BitVec.ofNat 8 (s.ax.toNat / 18) >>> 1) ++ (BitVec.ofNat 8 (s.ax.toNat % 18) + 1)
      dx := (BitVec.ofNat 8 (s.ax.toNat / 18) &&& 1) ++ bsDrvNum }) := by
    rw [readSector, hdiv]
    rfl
  have hlba : (s.ax.toNat / 18 / 2 * 2 + s.ax.toNat / 18 % 2) * 18 + (s.ax.toNat % 18 + 1 - 1) =
      s.ax.toNat := by omega
  refine ⟨_, hcall, rfl, rfl, ?_⟩
  simp only [int13h, low_append, high_append, hsector, hcylinder, hhead, bpbNumHeads]
  rw [show bpbSecPerTrk.toNat = 18 from rfl, hlba]

/-- Shifted by four for an odd number, the sixteen bits are cut down to the entry. -/
theorem fatEntry_eq (fat : Store) : (if n % 2 = 1 then (fat (3 * n / 2 + 1) ++ fat (3 * n / 2)) >>> 4
      else fat (3 * n / 2 + 1) ++ fat (3 * n / 2)) &&& 0xFFF =
    ((fat (12 * n / 8 + 1) ++ fat (12 * n / 8)).extractLsb' (12 * n % 8) 12).setWidth 16 := by
  have hbyte : 12 * n / 8 = 3 * n / 2 := by omega
  have hmask (k : Nat) (hk : k < 16) : (0xFFF : BitVec 16).getLsbD k = decide (k < 12) := by
    interval_cases k <;> rfl
  refine BitVec.eq_of_getLsbD_eq fun k hk => ?_
  rw [hbyte, BitVec.getLsbD_and, hmask k hk, BitVec.getLsbD_setWidth, BitVec.getLsbD_extractLsb',
    decide_eq_true hk, Bool.true_and, Bool.and_comm]
  by_cases hk' : k < 12
  · rw [decide_eq_true hk', Bool.true_and, Bool.true_and]
    by_cases hodd : n % 2 = 1
    · have hoff : 12 * n % 8 = 4 := by omega
      rw [if_pos hodd, hoff, BitVec.getLsbD_ushiftRight]
    · have hoff : 12 * n % 8 = 0 := by omega
      rw [if_neg hodd, hoff, Nat.zero_add]
  · rw [decide_eq_false hk', Bool.false_and, Bool.false_and]

/-- `mul bx` and `div bx`: the entry begins in byte `3 * n / 2`, in its middle for an odd `n`. -/
theorem divide_triple (h : c.toNat < 3072) : divide (c.setWidth 32 * 3) (2 : BitVec 16) =
    some (BitVec.ofNat 16 (3 * c.toNat / 2), BitVec.ofNat 16 (3 * c.toNat % 2)) := by
  have htriple : (c.setWidth 32 * 3).toNat = 3 * c.toNat := by
    rw [BitVec.toNat_mul, BitVec.toNat_setWidth]
    change _ % 2 ^ 32 * 3 % 2 ^ 32 = _
    omega
  rw [← htriple]
  refine divide_eq (by decide) ?_
  change _ / 2 < 2 ^ 16
  omega

/-- The sector of the byte, and the place in it. -/
theorem divide_bytsPerSec (h : n < 2 ^ 16) : divide ((BitVec.ofNat 16 n).setWidth 32) bpbBytsPerSec =
    some (BitVec.ofNat 16 (n / 512), BitVec.ofNat 16 (n % 512)) := by
  have hwide : ((BitVec.ofNat 16 n).setWidth 32).toNat = n := by
    rw [BitVec.toNat_setWidth_of_le (by omega), BitVec.toNat_ofNat, Nat.mod_eq_of_lt h]
  rw [divide_eq (by decide), hwide]
  · rfl
  · rw [hwide]
    change n / 512 < 2 ^ 16
    omega

/-- `bOdd` -/
theorem odd_iff : (if BitVec.ofNat 16 (3 * n % 2) = 0 then 0 else 1 : Byte) = 1 ↔ n % 2 = 1 := by
  have hodd : BitVec.ofNat 16 (3 * n % 2) = 0 ↔ n % 2 = 0 := by
    rw [← BitVec.toNat_inj, BitVec.toNat_ofNat]
    change _ % 2 ^ 16 = 0 ↔ _
    omega
  by_cases hn : n % 2 = 0
  · rw [if_pos (hodd.mpr hn)]
    exact iff_of_false (by decide) (by omega)
  · rw [if_neg (mt hodd.mp hn)]
    exact iff_of_true rfl (by omega)

/-- Two sectors are read, which hold the entry. -/
theorem getFATEntry_eq (disk : Store) (s : RealMode) (h : InFat s.ax.toNat) : ∃ t, getFATEntry disk s = some t ∧
    t.ax = (fatEntry disk s.ax.toNat).setWidth 16 ∧ t.es = s.es ∧ t.bx = s.bx ∧
    ∀ a, 0x6F400 ≤ a → t.mem a = s.mem a := by
  obtain ⟨b, hb⟩ : ∃ b, b = 3 * s.ax.toNat / 2 := ⟨_, rfl⟩
  have hn : s.ax.toNat < 3072 := by
    rw [InFat, fatSz] at h
    omega
  have hhalf := divide_triple hn
  have hsplit := divide_bytsPerSec (show b < 2 ^ 16 by omega)
  have hsector : (BitVec.ofNat 16 (b / 512) + sectorNoOfFAT1).toNat = b / 512 + 1 := by
    rw [BitVec.toNat_add, BitVec.toNat_ofNat]
    change (_ + 1) % 2 ^ 16 = _
    omega
  obtain ⟨t, hread, hes, hbx, hmem⟩ := readSector_eq disk { s with
    ax := BitVec.ofNat 16 (b / 512) + sectorNoOfFAT1
    bx := 0
    cx := high s.cx ++ (2 : BitVec 8)
    dx := BitVec.ofNat 16 (b % 512)
    es := baseOfKernelFile - 0x100 } (by rw [hsector]; omega)
  rw [hsector, low_append] at hmem
  change t.es = 0x6F00#16 at hes
  change t.bx = 0#16 at hbx
  change t.mem = blit s.mem 0x6F000 disk (512 * (b / 512 + 1)) 1024 at hmem
  -- what lies in the scratch segment, behind the entry's byte
  have hbyte (k : Nat) (hk : k ≤ 1) :
      t.mem (physical t.es (t.bx + BitVec.ofNat 16 (b % 512) + BitVec.ofNat 16 k)) =
        disk (512 * sectorNoOfFAT1.toNat + (b + k)) := by
    have hoff : (BitVec.ofNat 16 (b % 512) + BitVec.ofNat 16 k).toNat = b % 512 + k := by
      rw [← BitVec.ofNat_add, BitVec.toNat_ofNat]
      omega
    rw [physical, hes, hbx, BitVec.zero_add, hoff, hmem,
      show 16 * (0x6F00#16).toNat + (b % 512 + k) = 0x6F000 + (b % 512 + k) from rfl,
      blit_of_mem (by omega) (by omega)]
    refine congrArg disk ?_
    change _ = 512 * 1 + _
    omega
  have hlow := hbyte 0 (by omega)
  rw [BitVec.add_zero, Nat.add_zero] at hlow
  have hhigh : t.mem (physical t.es (t.bx + BitVec.ofNat 16 (b % 512) + 1)) = _ := hbyte 1 (by omega)
  refine ⟨{ t with
      ax := (if (if BitVec.ofNat 16 (3 * s.ax.toNat % 2) = 0 then 0 else 1 : Byte) = 1 then
          (disk (512 * sectorNoOfFAT1.toNat + (b + 1)) ++
            disk (512 * sectorNoOfFAT1.toNat + b) : BitVec 16) >>> 4
        else disk (512 * sectorNoOfFAT1.toNat + (b + 1)) ++
          disk (512 * sectorNoOfFAT1.toNat + b)) &&& 0xFFF
      dx := BitVec.ofNat 16 (b % 512)
      bx := s.bx
      es := s.es }, ?_, ?_, rfl, rfl, fun a ha => ?_⟩
  · rw [getFATEntry, hhalf, ← hb, ← hlow, ← hhigh]
    simp only [Option.bind_eq_bind, Option.bind_some, hsplit, hread]
    rfl
  · rw [if_congr odd_iff rfl rfl, hb]
    exact fatEntry_eq fun i => disk (512 * sectorNoOfFAT1.toNat + i)
  · change t.mem a = s.mem a
    rw [hmem, blit_of_notMem (.inr (by omega))]

/-! ## The loop -/

/-- What a round reads: the cluster's sector, and then the cluster's entry. -/
theorem round_eq (hin : InFat c.toNat) (hax : s.ax.toNat = dataSector c) : ∃ t₁ t,
    readSector disk { s with cx := high s.cx ++ (1 : BitVec 8) } = some t₁ ∧
    getFATEntry disk { t₁ with ax := c } = some t ∧
    t.ax = (fatEntry disk c.toNat).setWidth 16 ∧ t.es = s.es ∧ t.bx = s.bx ∧
    ∀ a, 0x6F400 ≤ a →
      t.mem a = blit s.mem (physical s.es s.bx) disk (512 * dataSector c) 512 a := by
  have hc : c.toNat < 3072 := by
    rw [InFat, fatSz] at hin
    omega
  have hlba : dataSector c = c.toNat + 31 := by
    change 1 + 2 * 9 + 14 + c.toNat - 2 = _
    omega
  obtain ⟨t₁, hread, hes₁, hbx₁, hmem₁⟩ := readSector_eq disk
    { s with cx := high s.cx ++ (1 : BitVec 8) } (by change s.ax.toNat / 18 < 256; omega)
  obtain ⟨t, hentry, hax', hes, hbx, hmem⟩ := getFATEntry_eq disk { t₁ with ax := c } hin
  refine ⟨t₁, t, hread, hentry, hax', hes.trans hes₁, hbx.trans hbx₁, fun a ha => ?_⟩
  rw [hmem a ha]
  change t₁.mem a = _
  rw [hmem₁, low_append]
  change blit s.mem _ disk (512 * s.ax.toNat) 512 a = _
  rw [hax]

theorem FatChain.inFat (h : FatChain disk c cs) : InFat c.toNat := by
  cases cs with
  | nil => exact h.1
  | cons next cs => exact h.1

theorem physical_eq (hes : s.es.toNat = 0x7000 + 0x1000 * (k / 128)) (hbx : s.bx.toNat = 512 * (k % 128)) :
    physical s.es s.bx = 0x70000 + 512 * k := by
  rw [physical, hes, hbx]
  omega

/-- The sectors of a chain are read to where the loop has come, after `k` rounds. The segment changes
with every 128th of them. -/
theorem goonLoadingFile_eq (hchain : FatChain disk c cs) (hlen : k + cs.length < 256)
    (hfuel : cs.length < n) (hax : s.ax.toNat = dataSector c)
    (hes : s.es.toNat = 0x7000 + 0x1000 * (k / 128)) (hbx : s.bx.toNat = 512 * (k % 128)) :
    ∃ t, goonLoadingFile disk n c s = some t ∧
      (∀ i c', (c :: cs)[i]? = some c' → ∀ j < 512,
        t.mem (0x70000 + 512 * (k + i) + j) = disk (512 * dataSector c' + j)) ∧
      ∀ a, 0x6F400 ≤ a → a < 0x70000 + 512 * k → t.mem a = s.mem a := by
  induction cs generalizing c s n k with
  | nil =>
    obtain ⟨n, rfl⟩ : ∃ p, n = p + 1 := ⟨n - 1, by omega⟩
    obtain ⟨t₁, t, hread, hentry, hnode, -, -, hmem⟩ := round_eq hchain.inFat hax
    rw [physical_eq hes hbx] at hmem
    have hlast : t.ax = 0xFFF := by
      rw [hnode, hchain.2]
      rfl
    refine ⟨t, ?_, fun i c' hi j hj => ?_, fun a ha ha' => ?_⟩
    · rw [goonLoadingFile]
      simp only [Option.bind_eq_bind, Option.bind_some, hread, hentry, if_pos hlast]
      rfl
    · obtain ⟨rfl, rfl⟩ : i = 0 ∧ c' = c := by
        cases i with
        | zero => exact ⟨rfl, (Option.some.inj hi).symm⟩
        | succ i => exact absurd hi (by simp)
      rw [hmem _ (by omega), blit_of_mem (by omega) (by omega)]
      exact congrArg disk (by omega)
    · rw [hmem a ha, blit_of_notMem (.inl ha')]
  | cons next cs ih =>
    obtain ⟨n, rfl⟩ : ∃ p, n = p + 1 := ⟨n - 1, by omega⟩
    obtain ⟨hin, hnext, hrest⟩ := hchain
    rw [List.length_cons] at hlen hfuel
    obtain ⟨t₁, t, hread, hentry, hnode, hes', hbx', hmem⟩ := round_eq hin hax
    rw [physical_eq hes hbx] at hmem
    rw [hnext] at hnode
    have hlt : next.toNat < 3072 := by
      have hin' := hrest.inFat
      rw [InFat, fatSz] at hin'
      omega
    have hmore : t.ax ≠ 0xFFF := by
      intro h
      rw [← hnode, h] at hlt
      exact absurd hlt (by decide)
    have hbytes : bpbBytsPerSec.toNat = 512 := rfl
    have hax₁ : (t.ax + rootDirSectors + deltaSectorNo).toNat = dataSector next := by
      rw [hnode, BitVec.toNat_add, BitVec.toNat_add]
      change ((next.toNat + 14) % 2 ^ 16 + 17) % 2 ^ 16 = 1 + 2 * 9 + 14 + next.toNat - 2
      omega
    have hbx₁ : (t.bx + bpbBytsPerSec).toNat = 512 * ((k + 1) % 128) := by
      rw [BitVec.toNat_add, hbx', hbx, hbytes]
      omega
    obtain ⟨es, hsegment⟩ :
        ∃ es, (if 2 ^ 16 ≤ t.bx.toNat + bpbBytsPerSec.toNat then t.es + 0x1000 else t.es) = es := ⟨_, rfl⟩
    -- the carry comes with the last sector of a segment
    have hes₁ : es.toNat = 0x7000 + 0x1000 * ((k + 1) / 128) := by
      rw [← hsegment, hbx', hbx, hes', hbytes]
      by_cases hcarry : 2 ^ 16 ≤ 512 * (k % 128) + 512
      · rw [if_pos hcarry, BitVec.toNat_add, hes]
        change (_ + 0x1000) % 2 ^ 16 = _
        omega
      · rw [if_neg hcarry, hes]
        omega
    obtain ⟨t', hrun, hloaded, hframe⟩ := ih (s := { t with
      ax := t.ax + rootDirSectors + deltaSectorNo
      bx := t.bx + bpbBytsPerSec
      dx := rootDirSectors
      es := es })
      (k := k + 1) (n := n) hrest (by omega) (by omega) hax₁ hes₁ hbx₁
    refine ⟨t', ?_, fun i c' hi j hj => ?_, fun a ha ha' => ?_⟩
    · rw [goonLoadingFile]
      simp only [Option.bind_eq_bind, Option.bind_some, hread, hentry, if_neg hmore]
      rw [hsegment, hnode]
      rw [hnode] at hrun
      exact hrun
    · cases i with
      | zero =>
        obtain rfl : c = c' := Option.some.inj hi
        rw [hframe _ (by omega) (by omega)]
        rw [hmem (0x70000 + 512 * (k + 0) + j) (by omega), blit_of_mem (by omega) (by omega)]
        exact congrArg disk (by omega)
      | succ i =>
        rw [← hloaded i c' hi j hj]
        exact congrArg t'.mem (by omega)
    · rw [hframe a ha (by omega)]
      change t.mem a = _
      rw [hmem a ha, blit_of_notMem (.inl ha')]

end

/-! ## The loaded file -/

/-- The routine returns the entries of the FAT, and the sectors of a chain are loaded one behind the
other. -/
theorem loadFile_loads (disk : Store) : ReturnsEntries disk ∧
    ∀ (s : RealMode) (c : BitVec 16) (cs : List (BitVec 16)), FatChain disk c cs →
      512 * (c :: cs).length ≤ kernelValidSpace → ∀ n > cs.length,
        ∃ t, loadFile disk n c s = some t ∧ Loaded disk (c :: cs) t.mem := by
  refine ⟨fun s hin => ?_, fun s c cs hchain hlen n hn => ?_⟩
  · obtain ⟨t, hrun, hax, hes, hbx, -⟩ := getFATEntry_eq disk s hin
    exact ⟨t, hrun, hax, hes, hbx⟩
  · have hc : c.toNat < 3072 := by
      have hin := hchain.inFat
      rw [InFat, fatSz] at hin
      omega
    have hax : (c + rootDirSectors + deltaSectorNo).toNat = dataSector c := by
      rw [BitVec.toNat_add, BitVec.toNat_add]
      change ((c.toNat + 14) % 2 ^ 16 + 17) % 2 ^ 16 = 1 + 2 * 9 + 14 + c.toNat - 2
      omega
    rw [List.length_cons, kernelValidSpace] at hlen
    obtain ⟨t, hrun, hloaded, -⟩ := goonLoadingFile_eq (s := { s with
      ax := c + rootDirSectors + deltaSectorNo
      bx := offsetOfKernelFile
      cx := c + rootDirSectors + deltaSectorNo
      es := baseOfKernelFile }) (k := 0) hchain (by omega) hn hax rfl rfl
    refine ⟨t, hrun, fun i c' hi j hj => ?_⟩
    rw [← hloaded i c' hi j hj, Nat.zero_add]
    rfl

/-- Cluster 2, followed by cluster 3. -/
theorem loadFile_loads_twoClusters : ∃ t,
    loadFile (putBytes (fun _ => 0) 515 [0x03, 0xF0, 0xFF]) 2 2 ⟨0, 0, 0, 0, 0, fun _ => 0⟩ = some t ∧
      Loaded (putBytes (fun _ => 0) 515 [0x03, 0xF0, 0xFF]) [2, 3] t.mem :=
  (loadFile_loads _).2 _ 2 [3] ⟨by decide, by decide, by decide, by decide⟩ (by decide) 2 (by decide)

end Dlos.Loader
