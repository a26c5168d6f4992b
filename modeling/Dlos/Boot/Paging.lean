import Mathlib.Tactic.IntervalCases
import Dlos.Library.Bytes
import Dlos.Include.Fs

/-!
# Paging (`SetupPaging` of `loader.asm`)

One loop fills the page directory, another one all page tables at once. The registers are the
parameters of the loops; what the loader pushes is kept apart from the memory.
-/

namespace Dlos

open Bytes

abbrev pageDirBase : BitVec 32 := 0x100000
abbrev pageTblBase : BitVec 32 := 0x101000

abbrev pgP : BitVec 32 := 1
abbrev pgRww : BitVec 32 := 2
abbrev pgUsu : BitVec 32 := 4

/-! ## The loops -/

/-- How often `loop` comes back with this `ecx`. -/
def loopCount (ecx : BitVec 32) : Nat := if ecx = 0 then 2 ^ 32 else ecx.toNat

/-- `stosd`, at an address that is not among the last ones. -/
def stosd (m : Store) (edi eax : BitVec 32) : Store := putWords m edi.toNat [eax]

/-- `stosd; add eax, 4096; loop` -/
def fillEntries (m : Store) (edi eax : BitVec 32) : Nat → Store
  | 0 => m
  | n + 1 => fillEntries (stosd m edi eax) (edi + 4) (eax + 4096) n

/-- The memory after `SetupPaging`. -/
def setupPaging (m : Store) (dwMemSize : BitVec 32) : Store :=
  let eax := dwMemSize / 0x400000
  let edx := dwMemSize % 0x400000
  let ecx := if edx = 0 then eax else eax + 1
  let m := fillEntries m pageDirBase (pageTblBase ||| pgP ||| pgUsu ||| pgRww) (loopCount ecx)
  fillEntries m pageTblBase (pgP ||| pgUsu ||| pgRww) (loopCount (ecx * 1024))

/-! ## The processor's walk -/

/-- The entry of the page directory for a linear address. -/
def pde (m : Store) (la : BitVec 32) : BitVec 32 := word m (pageDirBase.toNat + 4 * (la >>> 22).toNat)

/-- The page, or the page table, that an entry refers to. -/
def frame (e : BitVec 32) : BitVec 32 := e &&& 0xFFFFF000

/-- The entry of the page table. -/
def pte (m : Store) (la : BitVec 32) : BitVec 32 :=
  word m ((frame (pde m la)).toNat + 4 * (la >>> 12 &&& 0x3FF).toNat)

/-- The physical address, if both entries are present. -/
def translate (m : Store) (la : BitVec 32) : Option (BitVec 32) :=
  if pde m la &&& pgP = 0 ∨ pte m la &&& pgP = 0 then none
  else some (frame (pte m la) + (la &&& 0xFFF))

/-- Users may read and write what the entry refers to. -/
def UserWritable (e : BitVec 32) : Prop := e &&& (pgUsu ||| pgRww) = pgUsu ||| pgRww

/-- So many page tables map all of their memory to itself, and nothing but them and the directory has
been written. -/
structure IdentityPaged (m m' : Store) (tables : Nat) : Prop where
  maps : ∀ la : BitVec 32, la.toNat < tables * 0x400000 →
    translate m' la = some la ∧ UserWritable (pde m' la) ∧ UserWritable (pte m' la)
  outside : ∀ a, a < pageDirBase.toNat ∨ pageTblBase.toNat + 4096 * tables ≤ a → m' a = m a
  belowFsbuf : pageTblBase.toNat + 4096 * tables ≤ fsbuf

section

variable {m : Store} {edi eax : BitVec 32} {n i : Nat} {a : Nat}

/-! ## What the loops write -/

/-- The entries of a loop: one page after the other. -/
def entries (eax : BitVec 32) (n : Nat) : List (BitVec 32) :=
  (List.range n).map fun i => eax + BitVec.ofNat 32 (4096 * i)

theorem entries_succ : entries eax (n + 1) = eax :: entries (eax + 4096) n := by
  rw [entries, List.range_succ_eq_map, List.map_cons, List.map_map]
  refine List.cons_eq_cons.mpr ⟨BitVec.add_zero eax, List.map_congr_left fun i _ => ?_⟩
  rw [Function.comp_apply, Nat.mul_succ, Nat.add_comm, BitVec.ofNat_add, BitVec.add_assoc]
  rfl

theorem length_entries : (entries eax n).length = n := by simp [entries]

theorem getD_entries (h : i < n) : (entries eax n).getD i 0 = eax + BitVec.ofNat 32 (4096 * i) := by
  simp [entries, h]

/-- The entries lie one behind the other. -/
theorem fillEntries_eq (h : edi.toNat + 4 * n ≤ 2 ^ 32) :
    fillEntries m edi eax n = putWords m edi.toNat (entries eax n) := by
  induction n generalizing m edi eax with
  | zero =>
    funext x
    exact (putWords_of_notMem (Nat.lt_or_ge x _)).symm
  | succ n ih =>
    rw [fillEntries, entries_succ]
    cases n with
    | zero => rfl
    | succ n =>
      have hnext : (edi + 4).toNat = edi.toNat + 4 := by
        rw [BitVec.toNat_add, Nat.mod_eq_of_lt]
        · rfl
        · change edi.toNat + 4 < 2 ^ 32
          omega
      rw [ih (by omega), hnext]
      exact @putWords_putWords m edi.toNat [eax] (entries (eax + 4096) (n + 1))

/-- What lies at an entry after a loop. -/
theorem word_fillEntries (h : edi.toNat + 4 * n ≤ 2 ^ 32) (hi : i < n) :
    word (fillEntries m edi eax n) (edi.toNat + 4 * i) = eax + BitVec.ofNat 32 (4096 * i) := by
  rw [fillEntries_eq h, word_putWords (by rwa [length_entries]), getD_entries hi]

theorem fillEntries_of_notMem (h : edi.toNat + 4 * n ≤ 2 ^ 32)
    (ha : a < edi.toNat ∨ edi.toNat + 4 * n ≤ a) : fillEntries m edi eax n a = m a := by
  rw [fillEntries_eq h, putWords_of_notMem (by rwa [length_entries])]

/-! ## Entries -/

/-- An entry is a page's address and flags below it. -/
theorem toNat_frame {e : BitVec 32} : (frame e).toNat = e.toNat / 4096 * 4096 := by
  have hbits : frame e = e >>> 12 <<< 12 := by
    ext i hi
    interval_cases i <;> simp [frame]
  have := e.isLt
  rw [hbits, BitVec.toNat_shiftLeft, BitVec.toNat_ushiftRight, Nat.shiftRight_eq_div_pow,
    Nat.shiftLeft_eq, Nat.mod_eq_of_lt (by omega)]

theorem toNat_offset {la : BitVec 32} : (la &&& 0xFFF).toNat = la.toNat % 4096 :=
  Nat.and_two_pow_sub_one_eq_mod la.toNat 12

/-- The flags of a present page that users may write to. -/
theorem flags_of_toNat {e : BitVec 32} (h : e.toNat % 8 = 7) : e &&& pgP ≠ 0 ∧ UserWritable e := by
  have hseven : e &&& 7 = 7 := by
    refine BitVec.eq_of_toNat_eq ?_
    rw [BitVec.toNat_and]
    exact (Nat.and_two_pow_sub_one_eq_mod e.toNat 3).trans h
  have hmask (f : BitVec 32) (hf : 7 &&& f = f) : e &&& f = f := by
    calc e &&& f = e &&& 7 &&& f := by rw [BitVec.and_assoc, hf]
      _ = f := by rw [hseven, hf]
  exact ⟨by rw [hmask pgP (by decide)]; decide, hmask _ (by decide)⟩

/-! ## The tables -/

/-- The page tables for this much memory. -/
def pageTables (dwMemSize : BitVec 32) : Nat := (dwMemSize.toNat + 0x3FFFFF) / 0x400000

variable {dwMemSize la : BitVec 32}

theorem pageTables_le (dwMemSize : BitVec 32) : pageTables dwMemSize ≤ 1024 := by
  have := dwMemSize.isLt
  unfold pageTables
  omega

theorem pageTables_pos (h : dwMemSize ≠ 0) : 0 < pageTables dwMemSize := by
  have hne : dwMemSize.toNat ≠ 0 := fun hz => h (BitVec.eq_of_toNat_eq hz)
  unfold pageTables
  omega

/-- `ecx` after the division. -/
theorem toNat_tables (dwMemSize : BitVec 32) : (if dwMemSize % 0x400000 = 0 then dwMemSize / 0x400000
    else dwMemSize / 0x400000 + 1).toNat = pageTables dwMemSize := by
  have hlt := dwMemSize.isLt
  have hdiv : (dwMemSize / 0x400000).toNat = dwMemSize.toNat / 0x400000 := BitVec.toNat_udiv
  have hmod : (dwMemSize % 0x400000).toNat = dwMemSize.toNat % 0x400000 := BitVec.toNat_umod
  unfold pageTables
  split
  next h =>
    have hzero : dwMemSize.toNat % 0x400000 = 0 := by
      rw [← hmod, h]
      rfl
    omega
  next h =>
    have hne : dwMemSize.toNat % 0x400000 ≠ 0 := fun hz => h (BitVec.eq_of_toNat_eq (hmod.trans hz))
    have hsucc : (dwMemSize / 0x400000 + 1).toNat = dwMemSize.toNat / 0x400000 + 1 := by
      rw [BitVec.toNat_add, hdiv]
      change (_ + 1) % 2 ^ 32 = _
      omega
    omega

/-- Both loops, with the rounds that they make. -/
theorem setupPaging_eq (h : dwMemSize ≠ 0) : setupPaging m dwMemSize =
    fillEntries (fillEntries m pageDirBase 0x101007 (pageTables dwMemSize)) pageTblBase 7
      (1024 * pageTables dwMemSize) := by
  have hecx := toNat_tables dwMemSize
  have hpos := pageTables_pos h
  have hle := pageTables_le dwMemSize
  have hdef (ecx : BitVec 32) (he : (if dwMemSize % 0x400000 = 0 then dwMemSize / 0x400000
      else dwMemSize / 0x400000 + 1) = ecx) : setupPaging m dwMemSize =
      fillEntries (fillEntries m pageDirBase 0x101007 (loopCount ecx)) pageTblBase 7
        (loopCount (ecx * 1024)) := by
    subst he
    rfl
  rw [hdef _ rfl]
  generalize (if dwMemSize % 0x400000 = 0 then dwMemSize / 0x400000
    else dwMemSize / 0x400000 + 1) = ecx at *
  have hmul : (ecx * 1024).toNat = 1024 * pageTables dwMemSize := by
    rw [BitVec.toNat_mul, hecx]
    change pageTables dwMemSize * 1024 % 2 ^ 32 = _
    omega
  have hloop (c : BitVec 32) (hc : 0 < c.toNat) : loopCount c = c.toNat :=
    if_neg fun hz => absurd hc (by rw [hz]; decide)
  rw [hloop ecx (by omega), hloop (ecx * 1024) (by omega), hecx, hmul]

theorem word_directory (h : dwMemSize ≠ 0) (hi : i < pageTables dwMemSize) :
    word (setupPaging m dwMemSize) (0x100000 + 4 * i) = 0x101007 + BitVec.ofNat 32 (4096 * i) := by
  have hle := pageTables_le dwMemSize
  rw [setupPaging_eq h, fillEntries_eq (by change 0x101000 + _ ≤ _; omega),
    word_putWords_of_notMem (.inl (by change _ ≤ 0x101000; omega))]
  exact @word_fillEntries m pageDirBase _ _ _ (by change 0x100000 + _ ≤ _; omega) hi

theorem word_tables (h : dwMemSize ≠ 0) (hi : i < 1024 * pageTables dwMemSize) :
    word (setupPaging m dwMemSize) (0x101000 + 4 * i) = 7 + BitVec.ofNat 32 (4096 * i) := by
  have hle := pageTables_le dwMemSize
  rw [setupPaging_eq h]
  exact @word_fillEntries _ pageTblBase _ _ _ (by change 0x101000 + _ ≤ _; omega) hi

/-- Nothing but the directory and the tables is written. -/
theorem setupPaging_outside (h : dwMemSize ≠ 0)
    (ha : a < 0x100000 ∨ 0x101000 + 4096 * pageTables dwMemSize ≤ a) : setupPaging m dwMemSize a = m a := by
  have hle := pageTables_le dwMemSize
  rw [setupPaging_eq h, fillEntries_of_notMem, fillEntries_of_notMem]
  · change 0x100000 + _ ≤ _
    omega
  · change a < 0x100000 ∨ 0x100000 + _ ≤ a
    omega
  · change 0x101000 + _ ≤ _
    omega
  · change a < 0x101000 ∨ 0x101000 + _ ≤ a
    omega

/-- The directory's entry for an address is that of table `la / 4M`. -/
theorem pde_setupPaging (h : dwMemSize ≠ 0) (hla : la.toNat < pageTables dwMemSize * 0x400000) :
    pde (setupPaging m dwMemSize) la = 0x101007 + BitVec.ofNat 32 (4096 * (la.toNat / 0x400000)) := by
  rw [pde, BitVec.toNat_ushiftRight, Nat.shiftRight_eq_div_pow]
  exact word_directory h (by omega)

/-- The table's entry is that of page `la / 4k`. -/
theorem pte_setupPaging (h : dwMemSize ≠ 0) (hla : la.toNat < pageTables dwMemSize * 0x400000) :
    pte (setupPaging m dwMemSize) la = 7 + BitVec.ofNat 32 (4096 * (la.toNat / 4096)) := by
  have hle := pageTables_le dwMemSize
  have hentry : (0x101007 + BitVec.ofNat 32 (4096 * (la.toNat / 0x400000))).toNat =
      0x101007 + 4096 * (la.toNat / 0x400000) := by
    rw [BitVec.toNat_add, BitVec.toNat_ofNat]
    change (0x101007 + _) % _ = _
    omega
  have hindex : (la >>> 12 &&& 0x3FF).toNat = la.toNat / 4096 % 1024 := by
    rw [BitVec.toNat_and, BitVec.toNat_ushiftRight, Nat.shiftRight_eq_div_pow]
    exact Nat.and_two_pow_sub_one_eq_mod (la.toNat / 2 ^ 12) 10
  have haddr : (0x101007 + 4096 * (la.toNat / 0x400000)) / 4096 * 4096 + 4 * (la.toNat / 4096 % 1024) =
      0x101000 + 4 * (la.toNat / 4096) := by omega
  rw [pte, toNat_frame, pde_setupPaging h hla, hentry, hindex, haddr]
  exact word_tables h (by omega)

/-- Paging is the identity on all memory. -/
theorem setupPaging_identity (m : Store) (dwMemSize : BitVec 32) (h : dwMemSize ≠ 0) :
    IdentityPaged m (setupPaging m dwMemSize) (pageTables dwMemSize) := by
  have hle := pageTables_le dwMemSize
  refine ⟨fun la hla => ?_, fun a ha => setupPaging_outside h ha, ?_⟩
  · have hpde : (pde (setupPaging m dwMemSize) la).toNat = 0x101007 + 4096 * (la.toNat / 0x400000) := by
      rw [pde_setupPaging h hla, BitVec.toNat_add, BitVec.toNat_ofNat]
      change (0x101007 + _) % _ = _
      omega
    have hpte : (pte (setupPaging m dwMemSize) la).toNat = 7 + 4096 * (la.toNat / 4096) := by
      rw [pte_setupPaging h hla, BitVec.toNat_add, BitVec.toNat_ofNat]
      change (7 + _) % _ = _
      omega
    obtain ⟨hpresent, hwritable⟩ := flags_of_toNat (e := pde (setupPaging m dwMemSize) la) (by omega)
    obtain ⟨hpresent', hwritable'⟩ := flags_of_toNat (e := pte (setupPaging m dwMemSize) la) (by omega)
    refine ⟨?_, hwritable, hwritable'⟩
    have hsum : frame (pte (setupPaging m dwMemSize) la) + (la &&& 0xFFF) = la := by
      refine BitVec.eq_of_toNat_eq ?_
      rw [BitVec.toNat_add, toNat_frame, toNat_offset, hpte]
      omega
    rw [translate, if_neg (not_or.mpr ⟨hpresent, hpresent'⟩), hsum]
  · change 0x101000 + _ ≤ 0x600000
    omega

end

/-- The tables for 33 MB, of which the last one is not filled up by memory. -/
theorem setupPaging_identity_33M : (0x2100000 : BitVec 32) ≠ 0 ∧
    IdentityPaged (fun _ => 0) (setupPaging (fun _ => 0) 0x2100000) (pageTables 0x2100000) :=
  ⟨by decide, setupPaging_identity (fun _ => 0) 0x2100000 (by decide)⟩

end Dlos
