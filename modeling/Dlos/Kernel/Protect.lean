import Dlos.Include.Type

/-!
# Segment descriptors (`protect.h`, `protect.c`)
-/

namespace Dlos

/-- `struct descriptor`. -/
structure Descriptor where
  limitLow : BitVec 16 := 0
  baseLow : BitVec 16 := 0
  baseMid : BitVec 8 := 0
  attr1 : BitVec 8 := 0
  limitHighAttr2 : BitVec 8 := 0
  baseHigh : BitVec 8 := 0
  deriving DecidableEq, Repr

/-- The two descriptors of an LDT: `INDEX_LDT_C` and `INDEX_LDT_RW`. -/
abbrev indexLdtC : Fin 2 := 0
abbrev indexLdtRw : Fin 2 := 1

abbrev da32 : BitVec 16 := 0x4000
abbrev daLimit4k : BitVec 16 := 0x8000
abbrev daDrw : BitVec 16 := 0x92
abbrev daC : BitVec 16 := 0x98
abbrev daCr : BitVec 16 := 0x9A
abbrev limit4kShift : Nat := 12

/-- The base a descriptor holds, put together from its three fields. -/
def Descriptor.base (d : Descriptor) : BitVec 32 :=
  d.baseHigh.zeroExtend 32 <<< 24 ||| d.baseMid.zeroExtend 32 <<< 16 ||| d.baseLow.zeroExtend 32

def initDescriptor (base limit : BitVec 32) (attr : BitVec 16) : Descriptor where
  limitLow := (limit &&& 0x0FFFF).truncate 16
  baseLow := (base &&& 0x0FFFF).truncate 16
  baseMid := ((base >>> 16) &&& 0x0FF).truncate 8
  attr1 := (attr &&& 0xFF).truncate 8
  limitHighAttr2 := (((limit >>> 16) &&& 0x0F) |||
    ((attr.zeroExtend 32 >>> 8) &&& 0xF0)).truncate 8
  baseHigh := ((base >>> 24) &&& 0x0FF).truncate 8

/-- The flat code descriptor the loader puts at `SELECTOR_FLAT_C` of the GDT. -/
def gdtFlatC : Descriptor := initDescriptor 0 0xFFFFF (daCr ||| da32 ||| daLimit4k)

/-! ## A descriptor holds the base it is given -/

theorem byte_mask (x : BitVec 8) : x &&& 255#8 = x := BitVec.and_allOnes

theorem word_mask (x : BitVec 16) : x &&& 65535#16 = x := BitVec.and_allOnes

/-- Fields that do not overlap add up. -/
theorem or_fields {a b c : Nat} (hb : b < 256) (hc : c < 65536) :
    a <<< 24 ||| b <<< 16 ||| c = a * 16777216 + b * 65536 + c := by
  rw [show a <<< 24 = (a <<< 8) <<< 16 from Nat.shiftLeft_add a 8 16, ← Nat.shiftLeft_or_distrib,
    ← Nat.shiftLeft_add_eq_or_of_lt hc, ← Nat.shiftLeft_add_eq_or_of_lt hb]
  simp only [Nat.shiftLeft_eq]
  omega

theorem toNat_base (d : Descriptor) : d.base.toNat =
    d.baseHigh.toNat * 16777216 + d.baseMid.toNat * 65536 + d.baseLow.toNat := by
  have hhigh : (d.baseHigh.zeroExtend 32 <<< 24).toNat = d.baseHigh.toNat <<< 24 := by
    have := d.baseHigh.isLt
    simp [Nat.shiftLeft_eq]
    omega
  have hmid : (d.baseMid.zeroExtend 32 <<< 16).toNat = d.baseMid.toNat <<< 16 := by
    have := d.baseMid.isLt
    simp [Nat.shiftLeft_eq]
    omega
  have hlow : (d.baseLow.zeroExtend 32).toNat = d.baseLow.toNat := by
    have := d.baseLow.isLt
    simp
    omega
  rw [Descriptor.base, BitVec.toNat_or, BitVec.toNat_or, hhigh, hmid, hlow,
    or_fields d.baseMid.isLt d.baseLow.isLt]

/-- The limit is split between two fields. -/
theorem limitLow_initDescriptor (base limit : BitVec 32) (attr : BitVec 16) :
    (initDescriptor base limit attr).limitLow = (limit &&& 0x0FFFF).truncate 16 := rfl

theorem limitHighAttr2_initDescriptor (base limit : BitVec 32) (attr : BitVec 16) :
    (initDescriptor base limit attr).limitHighAttr2 = (((limit >>> 16) &&& 0x0F) |||
      ((attr.zeroExtend 32 >>> 8) &&& 0xF0)).truncate 8 := rfl

@[simp] theorem base_initDescriptor (base limit : BitVec 32) (attr : BitVec 16) :
    (initDescriptor base limit attr).base = base := by
  refine BitVec.eq_of_toNat_eq ?_
  rw [toNat_base]
  have := base.isLt
  simp [initDescriptor, -BitVec.toNat_and, byte_mask, word_mask, Nat.shiftRight_eq_div_pow]
  omega

end Dlos
