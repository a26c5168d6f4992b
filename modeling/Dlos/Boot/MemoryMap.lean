import Dlos.Boot.Paging

/-!
# The size of the memory (`loader.asm`)

The BIOS hands over a list of address ranges, one at a call. The loader stores them in `_MemChkBuf`
in real mode, and `DispMemInfo` looks through them in protected mode.
-/

namespace Dlos

open Bytes

/-- An address range descriptor. -/
structure Ards where
  baseAddrLow : BitVec 32
  baseAddrHigh : BitVec 32
  lengthLow : BitVec 32
  lengthHigh : BitVec 32
  type : BitVec 32
  deriving DecidableEq

def Ards.words (r : Ards) : List (BitVec 32) :=
  [r.baseAddrLow, r.baseAddrHigh, r.lengthLow, r.lengthHigh, r.type]

/-- The end of a range, as a 64-bit number. -/
def Ards.limit (r : Ards) : BitVec 64 := (r.baseAddrHigh ++ r.baseAddrLow) + (r.lengthHigh ++ r.lengthLow)

/-- Where the assembler has put `_MemChkBuf`, in the loader's segment. -/
structure LoaderLayout where
  memChkBuf : BitVec 16
  fits : memChkBuf.toNat + 256 ≤ 2 ^ 16

abbrev baseOfLoaderPhyAddr : Nat := 0x90000

/-- The physical address of an offset in the loader's segment. -/
def inLoader (off : BitVec 16) : Nat := baseOfLoaderPhyAddr + off.toNat

/-! ## Collecting the ranges -/

/-- What the loop changes. No instruction reads `written`, the addresses that the BIOS has written to. -/
structure MemChk where
  mem : Store
  di : BitVec 16
  dwMCRNumber : BitVec 32
  written : List Nat

/-- Words stored at `es:di`; the offset wraps at the end of the segment. -/
def storeAtDi (m : Store) (di : BitVec 16) (ws : List (BitVec 32)) : Store := fun a =>
  let j := (BitVec.ofNat 16 (a - baseOfLoaderPhyAddr) - di).toNat
  if baseOfLoaderPhyAddr ≤ a ∧ a < baseOfLoaderPhyAddr + 2 ^ 16 ∧ j < 4 * ws.length then
    (ws.getD (j / 4) 0).extractLsb' (8 * (j % 4)) 8
  else m a

/-- `int 15h`, `add di,20` and `inc dword [_dwMCRNumber]`. -/
def MemChk.int15h (s : MemChk) (r : Ards) : MemChk where
  mem := storeAtDi s.mem s.di r.words
  di := s.di + 20
  dwMCRNumber := s.dwMCRNumber + 1
  written := s.written ++ (List.range 20).map fun j => inLoader (s.di + BitVec.ofNat 16 j)

/-- `.MemChkLoop`: `ebx` is 0 with the last range. -/
def memChkLoop (s : MemChk) (r : Ards) : List Ards → MemChk
  | [] => s.int15h r
  | next :: rest => memChkLoop (s.int15h r) next rest

/-- The ranges `r :: rest` are collected. -/
def collect (L : LoaderLayout) (m : Store) (r : Ards) (rest : List Ards) : MemChk :=
  memChkLoop ⟨m, L.memChkBuf, 0, []⟩ r rest

/-! ## The largest end of a range -/

/-- The descriptor at `esi`. -/
def ardsAt (m : Store) (esi : BitVec 32) : Ards where
  baseAddrLow := word m esi.toNat
  baseAddrHigh := word m (esi + 4).toNat
  lengthLow := word m (esi + 8).toNat
  lengthHigh := word m (esi + 12).toNat
  type := word m (esi + 16).toNat

/-- What a round does to `dwMemSize`. -/
def dispMemRound (dwMemSize : BitVec 32) (r : Ards) : BitVec 32 :=
  if r.type ≠ 1 then dwMemSize
  else
    let eax := r.baseAddrLow + r.lengthLow
    if eax < dwMemSize then dwMemSize else eax

def dispMemLoop (m : Store) : Nat → BitVec 32 → BitVec 32 → BitVec 32
  | 0, _, dwMemSize => dwMemSize
  | n + 1, esi, dwMemSize => dispMemLoop m n (esi + 20) (dispMemRound dwMemSize (ardsAt m esi))

/-- `dwMemSize` after `DispMemInfo`. -/
def dispMemInfo (L : LoaderLayout) (s : MemChk) : BitVec 32 :=
  dispMemLoop s.mem (loopCount s.dwMCRNumber) (BitVec.ofNat 32 (inLoader L.memChkBuf)) 0

/-! ## What is expected -/

/-- The largest end of a usable range below 4 GB. -/
def usableMemory : List Ards → Nat
  | [] => 0
  | r :: l =>
    if r.type = 1 ∧ r.limit.toNat < 2 ^ 32 then max r.limit.toNat (usableMemory l) else usableMemory l

/-- The ranges stay in the buffer, and the memory's size is found. -/
structure DetectsMemory (L : LoaderLayout) (m : Store) (r : Ards) (rest : List Ards) : Prop where
  inside : ∀ a ∈ (collect L m r rest).written,
    inLoader L.memChkBuf ≤ a ∧ a < inLoader L.memChkBuf + 256
  size : (dispMemInfo L (collect L m r rest)).toNat = usableMemory (r :: rest)

section

variable {L : LoaderLayout} {m : Store} {r : Ards} {l rest : List Ards} {s : MemChk} {a : Nat}
  {di : BitVec 16} {esi dwMemSize : BitVec 32} {ws : List (BitVec 32)}

/-! ## What is collected -/

/-- The bytes written to are those from `di` on, 20 for each range. -/
theorem mem_written : a ∈ (memChkLoop s r rest).written ↔
    a ∈ s.written ∨ ∃ k < 20 * (rest.length + 1), a = inLoader (s.di + BitVec.ofNat 16 k) := by
  have hone {s : MemChk} {r : Ards} : a ∈ (s.int15h r).written ↔
      a ∈ s.written ∨ ∃ k < 20, a = inLoader (s.di + BitVec.ofNat 16 k) := by
    simp [MemChk.int15h, eq_comm]
  induction rest generalizing s r with
  | nil => exact hone
  | cons next rest ih =>
    have hnext (k : Nat) : (s.int15h r).di + BitVec.ofNat 16 k = s.di + BitVec.ofNat 16 (20 + k) := by
      rw [BitVec.ofNat_add, ← BitVec.add_assoc]
      rfl
    rw [memChkLoop]
    refine ih.trans ?_
    rw [hone, or_assoc, List.length_cons]
    refine or_congr Iff.rfl ⟨?_, ?_⟩
    · rintro (⟨k, hk, rfl⟩ | ⟨k, hk, rfl⟩)
      · exact ⟨k, by omega, rfl⟩
      · exact ⟨20 + k, by omega, by rw [hnext]⟩
    · rintro ⟨k, hk, rfl⟩
      rcases Nat.lt_or_ge k 20 with hlt | hge
      · exact .inl ⟨k, hlt, rfl⟩
      · exact .inr ⟨k - 20, by omega, by rw [hnext, Nat.add_sub_cancel' hge]⟩

/-- Twelve ranges fit. -/
theorem collect_inside_iff : (∀ a ∈ (collect L m r rest).written,
    inLoader L.memChkBuf ≤ a ∧ a < inLoader L.memChkBuf + 256) ↔ (r :: rest).length ≤ 12 := by
  have hfits := L.fits
  have hoff (k : Nat) : (L.memChkBuf + BitVec.ofNat 16 k).toNat = (L.memChkBuf.toNat + k) % 2 ^ 16 := by
    rw [BitVec.toNat_add, BitVec.toNat_ofNat, Nat.add_mod_mod]
  constructor
  · intro h
    by_contra hlen
    rw [List.length_cons] at hlen
    have hin := h _ (mem_written.mpr (.inr ⟨256, by omega, rfl⟩))
    rw [inLoader, inLoader, hoff] at hin
    omega
  · intro hlen a ha
    rw [List.length_cons] at hlen
    obtain hnil | ⟨k, hk, rfl⟩ := mem_written.mp ha
    · exact absurd hnil List.not_mem_nil
    · rw [inLoader, inLoader, hoff]
      omega

/-- Where the offset does not wrap. -/
theorem storeAtDi_eq (h : di.toNat + 4 * ws.length ≤ 2 ^ 16) :
    storeAtDi m di ws = putWords m (inLoader di) ws := by
  funext a
  have hdi := di.isLt
  by_cases ha : baseOfLoaderPhyAddr ≤ a ∧ a < baseOfLoaderPhyAddr + 2 ^ 16
  · have hj : (BitVec.ofNat 16 (a - baseOfLoaderPhyAddr) - di).toNat =
        (2 ^ 16 - di.toNat + (a - baseOfLoaderPhyAddr)) % 2 ^ 16 := by
      rw [BitVec.toNat_sub, BitVec.toNat_ofNat, Nat.add_mod_mod]
    rw [storeAtDi, putWords, hj, inLoader]
    by_cases hin : baseOfLoaderPhyAddr + di.toNat ≤ a ∧
        a < baseOfLoaderPhyAddr + di.toNat + 4 * ws.length
    · have hidx : (2 ^ 16 - di.toNat + (a - baseOfLoaderPhyAddr)) % 2 ^ 16 =
          a - (baseOfLoaderPhyAddr + di.toNat) := by omega
      rw [if_pos (by omega), if_pos hin, hidx]
    · rw [if_neg (by omega), if_neg hin]
  · rw [storeAtDi, putWords, inLoader, if_neg (by omega), if_neg (by omega)]

theorem length_words : r.words.length = 5 := rfl

theorem length_flatMap_words : (l.flatMap Ards.words).length = 5 * l.length := by
  induction l with
  | nil => rfl
  | cons r l ih => rw [List.flatMap_cons, List.length_append, ih, length_words, List.length_cons]; omega

/-- The ranges lie one behind the other. -/
theorem memChkLoop_mem (h : s.di.toNat + 20 * (rest.length + 1) ≤ 2 ^ 16) :
    (memChkLoop s r rest).mem = putWords s.mem (inLoader s.di) ((r :: rest).flatMap Ards.words) := by
  induction rest generalizing s r with
  | nil =>
    rw [memChkLoop, List.flatMap_singleton]
    exact storeAtDi_eq h
  | cons next rest ih =>
    rw [List.length_cons] at h
    have hdi : (s.di + 20).toNat = s.di.toNat + 20 := by
      rw [BitVec.toNat_add]
      change (s.di.toNat + 20) % 2 ^ 16 = _
      omega
    have hnext : inLoader (s.di + 20) = inLoader s.di + 4 * r.words.length := by
      rw [inLoader, hdi, inLoader, length_words]
      omega
    rw [memChkLoop, ih (by rw [MemChk.int15h, hdi]; omega), MemChk.int15h, hnext,
      storeAtDi_eq (by rw [length_words]; omega), putWords_putWords]
    rfl

theorem memChkLoop_number :
    (memChkLoop s r rest).dwMCRNumber = s.dwMCRNumber + BitVec.ofNat 32 (rest.length + 1) := by
  induction rest generalizing s r with
  | nil => rfl
  | cons next rest ih =>
    rw [memChkLoop, ih, MemChk.int15h, List.length_cons, Nat.add_comm (rest.length + 1),
      BitVec.ofNat_add 1, ← BitVec.add_assoc]
    rfl

/-! ## What is found -/

/-- The loop goes through the descriptors that the memory lists. -/
theorem dispMemLoop_eq {b : Nat}
    (h : ∀ i < 5 * l.length, word m (b + 4 * i) = (l.flatMap Ards.words).getD i 0)
    (hb : b + 20 * l.length < 2 ^ 32) :
    dispMemLoop m l.length (BitVec.ofNat 32 b) dwMemSize = l.foldl dispMemRound dwMemSize := by
  induction l generalizing b dwMemSize with
  | nil => rfl
  | cons r l ih =>
    rw [List.length_cons] at h hb
    have hat : ardsAt m (BitVec.ofNat 32 b) = r := by
      have haddr (k : Nat) (hk : k < 20) : (BitVec.ofNat 32 b + BitVec.ofNat 32 k).toNat = b + k := by
        rw [← BitVec.ofNat_add, BitVec.toNat_ofNat]
        omega
      have hword (i : Nat) (hi : i < 5) :
          word m (BitVec.ofNat 32 b + BitVec.ofNat 32 (4 * i)).toNat = r.words.getD i 0 := by
        rw [haddr _ (by omega), h i (by omega), List.flatMap_cons, List.getD, List.getD,
          List.getElem?_append_left (by rw [length_words]; omega)]
      have h0 := hword 0 (by omega)
      rw [Nat.mul_zero, BitVec.ofNat_eq_ofNat, BitVec.add_zero] at h0
      have h1 : word m (BitVec.ofNat 32 b + 4).toNat = r.baseAddrHigh := hword 1 (by omega)
      have h2 : word m (BitVec.ofNat 32 b + 8).toNat = r.lengthLow := hword 2 (by omega)
      have h3 : word m (BitVec.ofNat 32 b + 12).toNat = r.lengthHigh := hword 3 (by omega)
      have h4 : word m (BitVec.ofNat 32 b + 16).toNat = r.type := hword 4 (by omega)
      rw [ardsAt, h0, h1, h2, h3, h4]
      rfl
    have hnext : BitVec.ofNat 32 b + 20 = BitVec.ofNat 32 (b + 20) := (BitVec.ofNat_add b 20).symm
    rw [List.length_cons, dispMemLoop, hat, List.foldl_cons, hnext]
    refine ih (fun i hi => ?_) (by omega)
    have hword := h (5 + i) (by omega)
    rw [List.flatMap_cons, List.getD, List.getElem?_append_right (by rw [length_words]; omega),
      length_words, Nat.add_sub_cancel_left, Nat.mul_add, ← Nat.add_assoc] at hword
    exact hword

theorem toNat_limit : r.limit.toNat % 2 ^ 32 = (r.baseAddrLow + r.lengthLow).toNat := by
  have happend (x y : BitVec 32) : (x ++ y).toNat = x.toNat * 2 ^ 32 + y.toNat := by
    rw [BitVec.toNat_append, ← Nat.shiftLeft_add_eq_or_of_lt y.isLt, Nat.shiftLeft_eq]
  rw [Ards.limit, BitVec.toNat_add, BitVec.toNat_add, happend, happend]
  omega

/-- A usable range's end raises the size, as far as it is seen. -/
theorem toNat_dispMemRound : (dispMemRound dwMemSize r).toNat =
    if r.type = 1 then max dwMemSize.toNat (r.limit.toNat % 2 ^ 32) else dwMemSize.toNat := by
  rw [dispMemRound, toNat_limit]
  by_cases htype : r.type = 1
  · rw [if_neg (not_not_intro htype), if_pos htype]
    by_cases hlt : r.baseAddrLow + r.lengthLow < dwMemSize
    · rw [if_pos hlt, Nat.max_eq_left (Nat.le_of_lt hlt)]
    · rw [if_neg hlt, Nat.max_eq_right (Nat.le_of_not_lt hlt)]
  · rw [if_pos htype, if_neg htype]

/-- What bounds the size that the loop finds. -/
theorem foldl_dispMemRound_le {n : Nat} : (l.foldl dispMemRound dwMemSize).toNat ≤ n ↔
    dwMemSize.toNat ≤ n ∧ ∀ x ∈ l, x.type = 1 → x.limit.toNat % 2 ^ 32 ≤ n := by
  induction l generalizing dwMemSize with
  | nil => simp
  | cons r l ih =>
    rw [List.foldl_cons, ih, toNat_dispMemRound, List.forall_mem_cons]
    by_cases htype : r.type = 1
    · rw [if_pos htype, Nat.max_le, and_assoc]
      simp only [htype, forall_const]
    · rw [if_neg htype]
      simp only [htype, false_imp_iff, true_and]

theorem usableMemory_le {n : Nat} : usableMemory l ≤ n ↔
    ∀ x ∈ l, x.type = 1 → x.limit.toNat < 2 ^ 32 → x.limit.toNat ≤ n := by
  induction l with
  | nil => simp [usableMemory]
  | cons r l ih =>
    rw [usableMemory, List.forall_mem_cons, ← ih]
    by_cases h : r.type = 1 ∧ r.limit.toNat < 2 ^ 32
    · rw [if_pos h, Nat.max_le]
      simp only [h, forall_const]
    · rw [if_neg h]
      exact (and_iff_right fun h₁ h₂ => absurd ⟨h₁, h₂⟩ h).symm

/-- The end of a usable range from 4 GB on counts by its low half. -/
theorem foldl_dispMemRound_eq : (l.foldl dispMemRound 0).toNat = usableMemory l ↔
    ∀ x ∈ l, x.type = 1 → 2 ^ 32 ≤ x.limit.toNat → x.limit.toNat % 2 ^ 32 ≤ usableMemory l := by
  have hge : usableMemory l ≤ (l.foldl dispMemRound 0).toNat := by
    refine usableMemory_le.mpr fun x hx htype hlt => ?_
    rw [← Nat.mod_eq_of_lt hlt]
    exact (foldl_dispMemRound_le.mp (Nat.le_refl (l.foldl dispMemRound 0).toNat)).2 x hx htype
  have hlow := usableMemory_le.mp (Nat.le_refl (usableMemory l))
  have hle : (l.foldl dispMemRound 0).toNat = usableMemory l ↔
      (l.foldl dispMemRound 0).toNat ≤ usableMemory l := ⟨Nat.le_of_eq, fun h => Nat.le_antisymm h hge⟩
  rw [hle, foldl_dispMemRound_le]
  constructor
  · intro h x hx htype _
    exact h.2 x hx htype
  · intro h
    refine ⟨Nat.zero_le _, fun x hx htype => ?_⟩
    rcases Nat.lt_or_ge x.limit.toNat (2 ^ 32) with hlt | hge
    · rw [Nat.mod_eq_of_lt hlt]
      exact hlow x hx htype hlt
    · exact h x hx htype hge

/-- As long as the ranges stay in the buffer, all of them are looked at. -/
theorem dispMemInfo_collect (h : (r :: rest).length ≤ 12) :
    dispMemInfo L (collect L m r rest) = (r :: rest).foldl dispMemRound 0 := by
  have hfits := L.fits
  rw [List.length_cons] at h
  have hcount : loopCount (collect L m r rest).dwMCRNumber = (r :: rest).length := by
    have hnumber : (collect L m r rest).dwMCRNumber = BitVec.ofNat 32 (rest.length + 1) :=
      memChkLoop_number.trans (BitVec.zero_add _)
    have htoNat : (BitVec.ofNat 32 (rest.length + 1)).toNat = rest.length + 1 := by
      rw [BitVec.toNat_ofNat]
      omega
    rw [loopCount, hnumber, if_neg, htoNat, List.length_cons]
    intro h0
    rw [h0] at htoNat
    exact Nat.succ_ne_zero _ htoNat.symm
  rw [dispMemInfo, hcount]
  refine dispMemLoop_eq (fun i hi => ?_) ?_
  · rw [collect, memChkLoop_mem (by change L.memChkBuf.toNat + _ ≤ _; omega)]
    exact word_putWords (by rwa [length_flatMap_words])
  · rw [inLoader, baseOfLoaderPhyAddr, List.length_cons]
    omega

end

/-! ## When the memory is detected -/

end Dlos
