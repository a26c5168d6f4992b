import Dlos.Boot.Paging

/-!
# The kernel image (`InitKernel` of `loader.asm`)

The kernel's file lies at `BaseOfKernelFilePhyAddr`. `InitKernel` goes through its program headers and
copies the segments to their addresses. The loader's own code and stack are kept apart from the
memory.
-/

namespace Dlos

open Bytes

abbrev baseOfKernelFilePhyAddr : BitVec 32 := 0x70000

/-- `KERNEL_VALID_SPACE` -/
abbrev kernelValidSpace : Nat := 0x20000

/-! ## The headers -/

abbrev ptNull : BitVec 32 := 0
abbrev ptLoad : BitVec 32 := 1

structure ProgramHeader where
  type : BitVec 32
  offset : BitVec 32
  vaddr : BitVec 32
  filesz : BitVec 32
  memsz : BitVec 32
  deriving DecidableEq

/-- The header at `esi`. -/
def headerAt (m : Store) (esi : BitVec 32) : ProgramHeader where
  type := word m esi.toNat
  offset := word m (esi + 0x04).toNat
  vaddr := word m (esi + 0x08).toNat
  filesz := word m (esi + 0x10).toNat
  memsz := word m (esi + 0x14).toNat

def ePhoff (m : Store) : BitVec 32 := word m (baseOfKernelFilePhyAddr + 0x1C).toNat

def ePhentsize (m : Store) : BitVec 16 :=
  m (baseOfKernelFilePhyAddr + 0x2B).toNat ++ m (baseOfKernelFilePhyAddr + 0x2A).toNat

def ePhnum (m : Store) : BitVec 16 :=
  m (baseOfKernelFilePhyAddr + 0x2D).toNat ++ m (baseOfKernelFilePhyAddr + 0x2C).toNat

/-! ## The loops -/

/-- The loop of `MemCpy`, with `ecx` bytes left. -/
def memCpy (m : Store) (edi esi : BitVec 32) : Nat → Store
  | 0 => m
  | ecx + 1 => memCpy (Function.update m edi.toNat (m esi.toNat)) (edi + 1) (esi + 1) ecx

/-- A round of `.Begin`: every header is a segment to copy but those of type 0. -/
def initKernelRound (m : Store) (esi : BitVec 32) : Store :=
  let h := headerAt m esi
  if h.type = 0 then m
  else memCpy m h.vaddr (h.offset + baseOfKernelFilePhyAddr) h.filesz.toNat

def initKernelLoop (m : Store) (esi : BitVec 32) : Nat → Store
  | 0 => m
  | n + 1 => initKernelLoop (initKernelRound m esi) (esi + 0x20) n

/-- The memory after `InitKernel`. -/
def initKernel (m : Store) : Store :=
  initKernelLoop m (ePhoff m + baseOfKernelFilePhyAddr) (loopCount ((ePhnum m).setWidth 32))

/-! ## What the headers say -/

def headersFrom (m : Store) (esi : BitVec 32) : Nat → List ProgramHeader
  | 0 => []
  | n + 1 => headerAt m esi :: headersFrom m (esi + 0x20) n

def programHeaders (m : Store) : List ProgramHeader :=
  headersFrom m (ePhoff m + baseOfKernelFilePhyAddr) (ePhnum m).toNat

namespace ProgramHeader

/-- The header's part of the file is copied to `a`. -/
def Copies (h : ProgramHeader) (a : Nat) : Prop :=
  h.type ≠ ptNull ∧ h.vaddr.toNat ≤ a ∧ a < h.vaddr.toNat + h.filesz.toNat

instance (h : ProgramHeader) (a : Nat) : Decidable (h.Copies a) :=
  inferInstanceAs (Decidable (_ ∧ _ ∧ _))

/-- The part of the memory that is not in the file. -/
def Tail (h : ProgramHeader) (a : Nat) : Prop :=
  h.vaddr.toNat + h.filesz.toNat ≤ a ∧ a < h.vaddr.toNat + h.memsz.toNat

/-- The byte of the file that belongs to `a`. -/
def byte (h : ProgramHeader) (m : Store) (a : Nat) : Byte :=
  m (baseOfKernelFilePhyAddr.toNat + h.offset.toNat + (a - h.vaddr.toNat))

end ProgramHeader

/-- `a` is in none of the loadable segments. -/
def NotLoaded (m : Store) (a : Nat) : Prop :=
  ∀ l ∈ programHeaders m, l.type = ptLoad →
    a < l.vaddr.toNat ∨ l.vaddr.toNat + l.memsz.toNat ≤ a

/-- The memory `m'` is laid out as the headers of the file in `m` say. -/
structure LaidOut (m m' : Store) : Prop where
  file : ∀ l ∈ programHeaders m, l.type = ptLoad → ∀ a, l.Copies a → m' a = l.byte m a
  zero : ∀ l ∈ programHeaders m, l.type = ptLoad → ∀ a, l.Tail a → m' a = 0
  outside : ∀ a, NotLoaded m a → m' a = m a

/-- An ELF file of `size` bytes lies at `BaseOfKernelFilePhyAddr`, and its loadable segments do not
overlap it. -/
structure KernelFile (m : Store) (size : Nat) : Prop where
  fits : size ≤ kernelValidSpace
  phentsize : ePhentsize m = 0x20
  phnum : ePhnum m ≠ 0
  table : (ePhoff m).toNat + 0x20 * (ePhnum m).toNat ≤ size
  image : ∀ h ∈ programHeaders m, h.type ≠ ptNull →
    h.offset.toNat + h.filesz.toNat ≤ size ∧ h.vaddr.toNat + h.filesz.toNat ≤ 2 ^ 32
  sizes : ∀ l ∈ programHeaders m, l.type = ptLoad →
    l.filesz.toNat ≤ l.memsz.toNat ∧ l.vaddr.toNat + l.memsz.toNat ≤ 2 ^ 32
  apart : ∀ l ∈ programHeaders m, l.type = ptLoad →
    l.vaddr.toNat + l.memsz.toNat ≤ baseOfKernelFilePhyAddr.toNat ∨
      baseOfKernelFilePhyAddr.toNat + size ≤ l.vaddr.toNat

/-- What is copied onto the file is what is there. -/
def KeepsFile (m : Store) (size : Nat) : Prop :=
  ∀ h ∈ programHeaders m, ∀ a, h.Copies a → baseOfKernelFilePhyAddr.toNat ≤ a →
    a < baseOfKernelFilePhyAddr.toNat + size → h.byte m a = m a

/-- The last header whose part of the file is copied to `a`. -/
def lastCopy (a : Nat) : List ProgramHeader → Option ProgramHeader
  | [] => none
  | h :: hs => (lastCopy a hs).or (if h.Copies a then some h else none)

/-- The segments suit the memory they are copied to. -/
structure Suits (m : Store) : Prop where
  /-- A loadable segment is not spoilt by a later header. -/
  own : ∀ l ∈ programHeaders m, l.type = ptLoad → ∀ a, l.Copies a →
    ∀ h, lastCopy a (programHeaders m) = some h → h.byte m a = l.byte m a
  /-- Only zeros are copied behind its part of the file. -/
  tail : ∀ l ∈ programHeaders m, l.type = ptLoad → ∀ a, l.Tail a →
    ∀ h, lastCopy a (programHeaders m) = some h → h.byte m a = 0
  /-- Where nothing is copied there, the memory is zero beforehand. -/
  clear : ∀ l ∈ programHeaders m, l.type = ptLoad → ∀ a, l.Tail a →
    lastCopy a (programHeaders m) = none → m a = 0
  /-- Headers of other types copy to other places what is there. -/
  outside : ∀ a, NotLoaded m a →
    ∀ h, lastCopy a (programHeaders m) = some h → h.byte m a = m a

section

variable {m mem : Store} {h l : ProgramHeader} {hs : List ProgramHeader} {esi : BitVec 32}
  {a d s n size : Nat}

/-! ## One segment -/

/-- The file in `mem` is the one in `m`. -/
def SameFile (m : Store) (size : Nat) (mem : Store) : Prop :=
  ∀ a, baseOfKernelFilePhyAddr.toNat ≤ a → a < baseOfKernelFilePhyAddr.toNat + size → mem a = m a

/-- The loop reads every byte as it was in the beginning, also where a copy reaches into the file. -/
theorem memCpy_eq (hd : d + n ≤ 2 ^ 32) (hs : baseOfKernelFilePhyAddr.toNat ≤ s)
    (hs' : s + n ≤ baseOfKernelFilePhyAddr.toNat + size) (hfits : size ≤ kernelValidSpace)
    (hkeep : ∀ i < n, baseOfKernelFilePhyAddr.toNat ≤ d + i →
      d + i < baseOfKernelFilePhyAddr.toNat + size → m (s + i) = m (d + i))
    (hsame : SameFile m size mem) :
    memCpy mem (BitVec.ofNat 32 d) (BitVec.ofNat 32 s) n = blit mem d m s n ∧
      SameFile m size (blit mem d m s n) := by
  induction n generalizing mem d s with
  | zero =>
    have hnil : blit mem d m s 0 = mem := funext fun a => blit_of_notMem (by omega)
    rw [hnil]
    exact ⟨rfl, hsame⟩
  | succ n ih =>
    have hbase : baseOfKernelFilePhyAddr.toNat = 0x70000 := rfl
    have hedi : (BitVec.ofNat 32 d).toNat = d := by rw [BitVec.toNat_ofNat]; omega
    have hesi : (BitVec.ofNat 32 s).toNat = s := by
      rw [BitVec.toNat_ofNat]
      change size ≤ 0x20000 at hfits
      omega
    have hread : mem s = m s := hsame s hs (by omega)
    have hwrite : SameFile m size (Function.update mem d (m s)) := by
      intro a ha ha'
      rcases eq_or_ne a d with rfl | hne
      · rw [Function.update_self]
        exact hkeep 0 (by omega) ha ha'
      · rw [Function.update_of_ne hne, hsame a ha ha']
    have hedi' : BitVec.ofNat 32 d + 1 = BitVec.ofNat 32 (d + 1) := (BitVec.ofNat_add d 1).symm
    have hesi' : BitVec.ofNat 32 s + 1 = BitVec.ofNat 32 (s + 1) := (BitVec.ofNat_add s 1).symm
    rw [memCpy, hedi, hesi, hread, blit_succ, hedi', hesi']
    refine ih (d := d + 1) (s := s + 1) (by omega) (by omega) (by omega) (fun i hi hge hlt => ?_) hwrite
    have hnext := hkeep (i + 1) (by omega) (by omega) (by omega)
    rwa [show s + 1 + i = s + (i + 1) by omega, show d + 1 + i = d + (i + 1) by omega]

/-- What a header does to the memory, the file being `m`'s. -/
def copyIn (m mem : Store) (h : ProgramHeader) : Store := fun a =>
  if h.Copies a then h.byte m a else mem a

theorem headerAt_congr (hsame : SameFile m size mem) (hge : baseOfKernelFilePhyAddr.toNat ≤ esi.toNat)
    (hlt : esi.toNat + 0x20 ≤ baseOfKernelFilePhyAddr.toNat + size) (hfits : size ≤ kernelValidSpace) :
    headerAt mem esi = headerAt m esi := by
  have hbase : baseOfKernelFilePhyAddr.toNat = 0x70000 := rfl
  change size ≤ 0x20000 at hfits
  have hword (k : Nat) (hk : k ≤ 0x1C) :
      word mem (esi + BitVec.ofNat 32 k).toNat = word m (esi + BitVec.ofNat 32 k).toNat := by
    have haddr : (esi + BitVec.ofNat 32 k).toNat = esi.toNat + k := by
      rw [BitVec.toNat_add, BitVec.toNat_ofNat]
      omega
    rw [haddr]
    exact word_congr fun i hi => hsame _ (by omega) (by omega)
  have h0 := hword 0 (by omega)
  rw [BitVec.add_zero] at h0
  rw [headerAt, headerAt]
  refine ProgramHeader.mk.injEq .. |>.mpr ⟨h0, ?_, ?_, ?_, ?_⟩
  · exact hword 0x04 (by omega)
  · exact hword 0x08 (by omega)
  · exact hword 0x10 (by omega)
  · exact hword 0x14 (by omega)

/-- A header's segment is copied from the file that was there in the beginning, which stays. -/
theorem initKernelRound_eq (hfits : size ≤ kernelValidSpace) (hhead : headerAt mem esi = h)
    (himage : h.type ≠ ptNull →
      h.offset.toNat + h.filesz.toNat ≤ size ∧ h.vaddr.toNat + h.filesz.toNat ≤ 2 ^ 32)
    (hkeep : ∀ a, h.Copies a → baseOfKernelFilePhyAddr.toNat ≤ a →
      a < baseOfKernelFilePhyAddr.toNat + size → h.byte m a = m a)
    (hsame : SameFile m size mem) :
    initKernelRound mem esi = copyIn m mem h ∧ SameFile m size (copyIn m mem h) := by
  rw [initKernelRound, hhead]
  by_cases hnull : h.type = 0
  · have hnone : copyIn m mem h = mem := funext fun a => if_neg fun hc => hc.1 hnull
    rw [hnone]
    exact ⟨if_pos hnull, hsame⟩
  · obtain ⟨hin, hmem⟩ := himage hnull
    have hbase : baseOfKernelFilePhyAddr.toNat = 0x70000 := rfl
    have hblit : copyIn m mem h =
        blit mem h.vaddr.toNat m (baseOfKernelFilePhyAddr.toNat + h.offset.toNat) h.filesz.toNat := by
      funext a
      exact if_congr (and_iff_right hnull) rfl rfl
    have hsrc : h.offset + baseOfKernelFilePhyAddr =
        BitVec.ofNat 32 (baseOfKernelFilePhyAddr.toNat + h.offset.toNat) := by
      rw [BitVec.ofNat_add, BitVec.ofNat_toNat, BitVec.ofNat_toNat, BitVec.add_comm]
      rfl
    have hdst : BitVec.ofNat 32 h.vaddr.toNat = h.vaddr := by
      rw [BitVec.ofNat_toNat, BitVec.setWidth_eq]
    have hcpy := memCpy_eq (d := h.vaddr.toNat) (s := baseOfKernelFilePhyAddr.toNat + h.offset.toNat)
      (n := h.filesz.toNat) hmem (by omega) (by omega) hfits (fun i hi hge hlt => ?_) hsame
    · rw [hdst, ← hsrc, ← hblit] at hcpy
      exact ⟨(if_neg hnull).trans hcpy.1, hcpy.2⟩
    · rw [← hkeep _ ⟨hnull, by omega, by omega⟩ hge hlt, ProgramHeader.byte, Nat.add_sub_cancel_left]

/-! ## All of them -/

/-- The segments are copied in order, from the file that was there in the beginning. -/
theorem initKernelLoop_eq (hfits : size ≤ kernelValidSpace)
    (hge : baseOfKernelFilePhyAddr.toNat ≤ esi.toNat)
    (hlt : esi.toNat + 0x20 * n ≤ baseOfKernelFilePhyAddr.toNat + size)
    (himage : ∀ h ∈ headersFrom m esi n, h.type ≠ ptNull →
      h.offset.toNat + h.filesz.toNat ≤ size ∧ h.vaddr.toNat + h.filesz.toNat ≤ 2 ^ 32)
    (hkeep : ∀ h ∈ headersFrom m esi n, ∀ a, h.Copies a → baseOfKernelFilePhyAddr.toNat ≤ a →
      a < baseOfKernelFilePhyAddr.toNat + size → h.byte m a = m a)
    (hsame : SameFile m size mem) :
    initKernelLoop mem esi n = (headersFrom m esi n).foldl (copyIn m) mem := by
  induction n generalizing mem esi with
  | zero => rfl
  | succ n ih =>
    have hbase : baseOfKernelFilePhyAddr.toNat = 0x70000 := rfl
    have hsize : size ≤ 0x20000 := hfits
    have hnext : (esi + 0x20).toNat = esi.toNat + 0x20 := by
      rw [BitVec.toNat_add]
      change (esi.toNat + 0x20) % 2 ^ 32 = _
      omega
    rw [headersFrom, List.forall_mem_cons] at himage hkeep
    obtain ⟨hstep, hsame'⟩ := initKernelRound_eq hfits
      (headerAt_congr hsame hge (by omega) hfits) himage.1 hkeep.1 hsame
    rw [initKernelLoop, headersFrom, List.foldl_cons, hstep]
    exact ih (by omega) (by omega) himage.2 hkeep.2 hsame'

/-- What lies at an address comes from the last header that copies to it. -/
theorem foldl_copyIn : hs.foldl (copyIn m) mem a = match lastCopy a hs with
    | some h => h.byte m a
    | none => mem a := by
  induction hs generalizing mem with
  | nil => rfl
  | cons h hs ih =>
    rw [List.foldl_cons, ih, lastCopy]
    cases lastCopy a hs with
    | some l => rfl
    | none =>
      by_cases hc : h.Copies a
      · rw [copyIn, if_pos hc, if_pos hc]
        rfl
      · rw [copyIn, if_neg hc, if_neg hc]
        rfl

theorem lastCopy_of_copies (hl : l ∈ hs) (hc : l.Copies a) : ∃ h, lastCopy a hs = some h := by
  induction hs with
  | nil => exact absurd hl List.not_mem_nil
  | cons x hs ih =>
    rw [lastCopy]
    rcases List.mem_cons.mp hl with rfl | hl
    · rw [if_pos hc]
      cases lastCopy a hs with
      | some h => exact ⟨h, rfl⟩
      | none => exact ⟨l, rfl⟩
    · obtain ⟨h, hh⟩ := ih hl
      exact ⟨h, by rw [hh, Option.some_or]⟩

/-- The loop makes as many rounds as the file has headers. -/
theorem loopCount_phnum (h : ePhnum m ≠ 0) : loopCount ((ePhnum m).setWidth 32) = (ePhnum m).toNat := by
  have hwidth : ((ePhnum m).setWidth 32).toNat = (ePhnum m).toNat := BitVec.toNat_setWidth_of_le (by omega)
  rw [loopCount, if_neg, hwidth]
  intro h0
  rw [h0] at hwidth
  exact h (BitVec.eq_of_toNat_eq hwidth.symm)

/-- The memory after `InitKernel`, byte by byte. -/
theorem initKernel_apply (h : KernelFile m size) (hkeep : KeepsFile m size) (a : Nat) :
    initKernel m a = match lastCopy a (programHeaders m) with
      | some h => h.byte m a
      | none => m a := by
  have hbase : baseOfKernelFilePhyAddr.toNat = 0x70000 := rfl
  have hsize : size ≤ 0x20000 := h.fits
  have htable := h.table
  have hesi : (ePhoff m + baseOfKernelFilePhyAddr).toNat =
      (ePhoff m).toNat + baseOfKernelFilePhyAddr.toNat := by
    rw [BitVec.toNat_add]
    omega
  rw [initKernel, loopCount_phnum h.phnum,
    initKernelLoop_eq h.fits (by omega) (by omega) h.image hkeep (fun _ _ _ => rfl)]
  exact foldl_copyIn

end

/-! ## When the image is laid out -/

/-- A file of one segment, four bytes of eight, with ones in the memory around it. -/
def smallKernel : Store :=
  putWords (fun _ => 0xFF) 0x70000
    [0x464C457F, 0x10101, 0, 0, 0x30002, 1, 0x1000, 0x34, 0, 0, 0x200034, 0x280001, 0,
      1, 0x54, 0x1000, 0x1000, 4, 8, 7, 0x1000, 0x12345678]

theorem kernelFile_smallKernel : KernelFile smallKernel 0x58 where
  fits := by decide
  phentsize := by decide
  phnum := by decide
  table := by decide
  image := by decide
  sizes := by decide
  apart := by decide

theorem keepsFile_smallKernel : KeepsFile smallKernel 0x58 := by
  intro h hh a hc hge
  have hall : programHeaders smallKernel = [⟨1, 0x54, 0x1000, 4, 8⟩] := by decide
  rw [hall, List.mem_singleton] at hh
  obtain rfl := hh
  obtain ⟨-, -, hlt⟩ := hc
  change a < 0x1000 + 4 at hlt
  change 0x70000 ≤ a at hge
  omega

end Dlos
