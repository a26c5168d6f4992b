import Mathlib.Logic.Function.Basic

/-!
# Byte stores

Memory and a disk are stores: a byte at every address. `blit` copies a range, `fill` sets it,
`mark` sets a range of bits, where bit `k` of a store is bit `k % 8` of byte `k / 8`, so that
bitmaps are read and changed without regard to byte or sector borders. `word` and `putWords`
read and write little-endian 32-bit words.
-/

abbrev Byte := BitVec 8

namespace Bytes

abbrev Store := Nat → Byte

variable {m m' dst src : Store} {a d s n k lo : Nat} {b : Byte} {v : Bool}

/-! ## Ranges of bytes -/

def blit (dst : Store) (d : Nat) (src : Store) (s n : Nat) : Store := fun a =>
  if d ≤ a ∧ a < d + n then src (s + (a - d)) else dst a

def fill (m : Store) (d n : Nat) (b : Byte) : Store := fun a =>
  if d ≤ a ∧ a < d + n then b else m a

/-- The bytes `bs`, one after the other. -/
def putBytes (m : Store) (a : Nat) (bs : List Byte) : Store := fun x =>
  if a ≤ x ∧ x < a + bs.length then bs.getD (x - a) 0 else m x

def bytes (m : Store) (a n : Nat) : List Byte := (List.range n).map fun i => m (a + i)

theorem blit_of_mem (h : d ≤ a) (h' : a < d + n) : blit dst d src s n a = src (s + (a - d)) := by
  simp [blit, h, h']

theorem blit_of_notMem (h : a < d ∨ d + n ≤ a) : blit dst d src s n a = dst a := by
  simp only [blit, ite_eq_right_iff]
  omega

theorem fill_of_mem (h : d ≤ a) (h' : a < d + n) : fill m d n b a = b := by
  simp [fill, h, h']

theorem fill_of_notMem (h : a < d ∨ d + n ≤ a) : fill m d n b a = m a := by
  simp only [fill, ite_eq_right_iff]
  omega

theorem putBytes_of_notMem {x : Nat} {bs : List Byte} (h : x < a ∨ a + bs.length ≤ x) :
    putBytes m a bs x = m x := by
  simp only [putBytes, ite_eq_right_iff]
  omega

theorem blit_succ : blit dst d src s (n + 1) = blit (Function.update dst d (src s)) (d + 1) src (s + 1) n := by
  funext a
  by_cases ha : d + 1 ≤ a ∧ a < d + 1 + n
  · rw [blit_of_mem (by omega) (by omega), blit_of_mem ha.1 ha.2,
      show s + 1 + (a - (d + 1)) = s + (a - d) by omega]
  · rw [blit_of_notMem (d := d + 1) (by omega)]
    rcases eq_or_ne a d with rfl | hne
    · rw [blit_of_mem (Nat.le_refl a) (by omega), Function.update_self, Nat.sub_self, Nat.add_zero]
    · rw [blit_of_notMem (by omega), Function.update_of_ne hne]

/-- Only the bytes that are copied matter. -/
theorem blit_congr {src' : Store} (h : ∀ i < n, src (s + i) = src' (s + i)) :
    blit dst d src s n = blit dst d src' s n := by
  funext a
  by_cases ha : d ≤ a ∧ a < d + n
  · rw [blit_of_mem ha.1 ha.2, blit_of_mem ha.1 ha.2, h _ (by omega)]
  · rw [blit_of_notMem (by omega), blit_of_notMem (by omega)]

/-- A range that was read and is written back unchanged. -/
theorem blit_blit_self : blit m d (blit dst s m d n) s n = m := by
  funext a
  by_cases h : d ≤ a ∧ a < d + n
  · rw [blit_of_mem h.1 h.2, blit_of_mem (by omega) (by omega)]
    congr 1
    omega
  · exact blit_of_notMem (by omega)

/-- A part of a copy is changed, and the copy is written back: only that part has changed. -/
theorem blit_part_blit {src' : Store} {k p q : Nat} (h : k + p ≤ n) :
    blit m d (blit (blit dst s m d n) (s + k) src' q p) s n = blit m (d + k) src' q p := by
  funext a
  by_cases ha : d ≤ a ∧ a < d + n
  · rw [blit_of_mem ha.1 ha.2]
    by_cases hk : d + k ≤ a ∧ a < d + k + p
    · rw [blit_of_mem hk.1 hk.2, blit_of_mem (by omega) (by omega)]
      exact congrArg src' (by omega)
    · rw [blit_of_notMem (by omega : a < d + k ∨ d + k + p ≤ a), blit_of_notMem (by omega),
        blit_of_mem (by omega) (by omega)]
      exact congrArg m (by omega)
  · rw [blit_of_notMem (by omega), blit_of_notMem (by omega)]

theorem bytes_congr (h : ∀ i < n, m (a + i) = m' (a + i)) : bytes m a n = bytes m' a n :=
  List.map_congr_left fun i hi => h i (List.mem_range.mp hi)

@[simp] theorem length_bytes : (bytes m a n).length = n := by simp [bytes]

theorem getElem?_bytes (h : k < n) : (bytes m a n)[k]? = some (m (a + k)) := by
  simp [bytes, h]

theorem bytes_eq_iff :
    bytes m a n = bytes m' a n ↔ ∀ x < n, m (a + x) = m' (a + x) := by
  constructor
  · intro h x hx
    have := getElem?_bytes (m := m) (a := a) hx
    rw [h, getElem?_bytes hx] at this
    exact (Option.some_inj.mp this).symm
  · exact bytes_congr

theorem eq_bytes_iff {bs : List Byte} (h : bs.length = n) :
    bs = bytes m a n ↔ ∀ i < n, bs.getD i 0 = m (a + i) := by
  constructor
  · rintro rfl i hi
    simp [List.getD, getElem?_bytes hi]
  · intro hb
    refine List.ext_getElem? fun i => ?_
    by_cases hi : i < n
    · have := hb i hi
      rw [getElem?_bytes hi, ← this, List.getD, List.getElem?_eq_getElem (by omega)]
      rfl
    · rw [List.getElem?_eq_none (by omega), List.getElem?_eq_none (by rw [length_bytes]; omega)]

/-- Bytes put into a range before or after it is copied; what lies behind the range is lost. -/
theorem blit_putBytes {bs : List Byte} (h : k ≤ n) : blit dst d (putBytes src (s + k) bs) s n =
    putBytes (blit dst d src s n) (d + k) (bs.take (n - k)) := by
  funext x
  by_cases hx : d ≤ x ∧ x < d + n
  · rw [blit_of_mem hx.1 hx.2]
    by_cases hb : d + k ≤ x ∧ x < d + k + bs.length
    · rw [putBytes, if_pos (by omega), putBytes, if_pos (by rw [List.length_take]; omega),
        show s + (x - d) - (s + k) = x - (d + k) by omega, List.getD, List.getD,
        List.getElem?_take_of_lt (by omega)]
    · rw [putBytes_of_notMem (by omega), putBytes_of_notMem (by rw [List.length_take]; omega),
        blit_of_mem hx.1 hx.2]
  · rw [blit_of_notMem (by omega), putBytes_of_notMem (by rw [List.length_take]; omega),
      blit_of_notMem (by omega)]

theorem putBytes_nil : putBytes m a [] = m := by
  funext x
  exact putBytes_of_notMem (Nat.lt_or_ge x a)

theorem putBytes_putBytes {bs cs : List Byte} :
    putBytes (putBytes m a bs) (a + bs.length) cs = putBytes m a (bs ++ cs) := by
  funext x
  rcases Nat.lt_or_ge x (a + bs.length) with hlt | hge
  · rw [putBytes_of_notMem (.inl hlt), putBytes, putBytes, List.length_append]
    by_cases ha : a ≤ x
    · rw [if_pos ⟨ha, hlt⟩, if_pos ⟨ha, by omega⟩, List.getD, List.getD,
        List.getElem?_append_left (by omega)]
    · rw [if_neg (by omega), if_neg (by omega)]
  · rw [putBytes, putBytes_of_notMem (.inr hge), putBytes, List.length_append]
    by_cases hc : x < a + bs.length + cs.length
    · rw [if_pos ⟨hge, hc⟩, if_pos ⟨by omega, by omega⟩, List.getD, List.getD,
        List.getElem?_append_right (by omega), Nat.sub_add_eq]
    · rw [if_neg (by omega), if_neg (by omega)]

theorem bytes_putBytes {bs : List Byte} : bytes (putBytes m a bs) a bs.length = bs := by
  symm
  rw [eq_bytes_iff rfl]
  intro i hi
  rw [putBytes, if_pos ⟨by omega, by omega⟩, Nat.add_sub_cancel_left]

theorem bytes_add : bytes m a (n + k) = bytes m a n ++ bytes m (a + n) k := by
  simp only [bytes, List.range_add, List.map_append, List.map_map, Nat.add_assoc]
  rfl

theorem blit_fill {p : Nat} (h : k + p ≤ n) :
    blit dst d (fill src (s + k) p b) s n = fill (blit dst d src s n) (d + k) p b := by
  funext x
  by_cases hx : d + k ≤ x ∧ x < d + k + p
  · rw [blit_of_mem (by omega) (by omega), fill_of_mem (by omega) (by omega),
      fill_of_mem hx.1 hx.2]
  · rw [fill_of_notMem (by omega)]
    by_cases hb : d ≤ x ∧ x < d + n
    · rw [blit_of_mem hb.1 hb.2, fill_of_notMem (by omega), blit_of_mem hb.1 hb.2]
    · rw [blit_of_notMem (by omega), blit_of_notMem (by omega)]

/-! ## Bits -/

def bit (m : Store) (k : Nat) : Bool := (m (k / 8)).getLsbD (k % 8)

theorem bit_mul_add (h : k < 8) : bit m (8 * a + k) = (m a).getLsbD k := by
  rw [bit, show (8 * a + k) / 8 = a by omega, show (8 * a + k) % 8 = k by omega]

theorem ext_bit (h : ∀ k, bit m k = bit m' k) : m = m' := by
  funext a
  refine BitVec.eq_of_getLsbD_eq fun i hi => ?_
  rw [← bit_mul_add hi, ← bit_mul_add hi, h]

theorem bit_blit : bit (blit dst d src s n) k =
    if 8 * d ≤ k ∧ k < 8 * (d + n) then bit src (8 * s + (k - 8 * d)) else bit dst k := by
  by_cases h : 8 * d ≤ k ∧ k < 8 * (d + n)
  · rw [if_pos h, bit, blit_of_mem (by omega) (by omega), bit,
      show (8 * s + (k - 8 * d)) / 8 = s + (k / 8 - d) by omega,
      show (8 * s + (k - 8 * d)) % 8 = k % 8 by omega]
  · rw [if_neg h, bit, blit_of_notMem (by omega), bit]

theorem bit_fill : bit (fill m d n b) k =
    if 8 * d ≤ k ∧ k < 8 * (d + n) then b.getLsbD (k % 8) else bit m k := by
  by_cases h : 8 * d ≤ k ∧ k < 8 * (d + n)
  · rw [if_pos h, bit, fill_of_mem (by omega) (by omega)]
  · rw [if_neg h, bit, fill_of_notMem (by omega), bit]

theorem bit_update : bit (Function.update m a b) k =
    if k / 8 = a then b.getLsbD (k % 8) else bit m k := by
  unfold bit
  split
  · rename_i h
    rw [h, Function.update_self]
  · rename_i h
    rw [Function.update_of_ne h]

/-- A byte is full when its eight bits are set. -/
theorem eq_full_iff : b = 0xFF ↔ ∀ k < 8, b.getLsbD k = true := by
  constructor
  · rintro rfl
    decide
  · intro h
    refine BitVec.eq_of_getLsbD_eq fun i hi => ?_
    rw [h i hi]
    revert i
    decide

/-- Testing a bit with a mask. -/
theorem and_bit_ne_zero (h : k < 8) : b &&& 1#8 <<< k ≠ 0 ↔ b.getLsbD k = true := by
  have hbit (i : Nat) : (b &&& 1#8 <<< k).getLsbD i = (decide (i = k) && b.getLsbD k) := by
    simp only [BitVec.getLsbD_and, BitVec.getLsbD_shiftLeft, BitVec.getLsbD_one]
    by_cases hi : i = k <;> grind
  constructor
  · intro hne
    by_contra hclear
    refine hne (BitVec.eq_of_getLsbD_eq fun i _ => ?_)
    rw [hbit, Bool.not_eq_true] at *
    simp [hclear]
  · intro hset hzero
    have := hbit k
    simp [hzero, hset] at this

/-- Set one bit to `v`. -/
def setBit (m : Store) (k : Nat) (v : Bool) : Store :=
  Function.update m (k / 8)
    (if v then m (k / 8) ||| 1#8 <<< (k % 8) else m (k / 8) &&& ~~~(1#8 <<< (k % 8)))

@[simp] theorem bit_setBit {j : Nat} :
    bit (setBit m k v) j = if j = k then v else bit m j := by
  rw [setBit, bit_update]
  by_cases h : j / 8 = k / 8
  · have hj : j % 8 < 8 := Nat.mod_lt _ (by omega)
    have hone : (1#8 <<< (k % 8)).getLsbD (j % 8) = decide (j = k) := by
      simp only [BitVec.getLsbD_shiftLeft, BitVec.getLsbD_one]
      grind
    rw [if_pos h, bit, h]
    cases v with
    | true =>
      rw [if_pos rfl, BitVec.getLsbD_or, hone]
      grind
    | false =>
      rw [if_neg Bool.false_ne_true, BitVec.getLsbD_and, BitVec.getLsbD_not, hone]
      grind
  · have hjk : j ≠ k := fun e => h (by rw [e])
    rw [if_neg h, if_neg hjk]

theorem update_or (h : k < 8) :
    Function.update m a (m a ||| 1#8 <<< k) = setBit m (8 * a + k) true := by
  rw [setBit, show (8 * a + k) / 8 = a by omega, show (8 * a + k) % 8 = k by omega, if_pos rfl]

theorem update_andNot (h : k < 8) :
    Function.update m a (m a &&& ~~~(1#8 <<< k)) = setBit m (8 * a + k) false := by
  rw [setBit, show (8 * a + k) / 8 = a by omega, show (8 * a + k) % 8 = k by omega,
    if_neg Bool.false_ne_true]

/-- Set the `n` bits from `lo` on to `v`. -/
def mark (m : Store) (lo : Nat) (v : Bool) : Nat → Store
  | 0 => m
  | n + 1 => mark (setBit m lo v) (lo + 1) v n

@[simp] theorem mark_zero : mark m lo v 0 = m := rfl

@[simp] theorem bit_mark :
    bit (mark m lo v n) k = if lo ≤ k ∧ k < lo + n then v else bit m k := by
  induction n generalizing m lo with
  | zero =>
    rw [mark_zero, if_neg (by omega)]
  | succ n ih =>
    rw [mark, ih, bit_setBit]
    grind

/-- Marking a range and then the range behind it. -/
theorem mark_mark {p : Nat} : mark (mark m lo v n) (lo + n) v p = mark m lo v (n + p) := by
  refine ext_bit fun k => ?_
  simp only [bit_mark]
  grind

/-- Bits marked in a copy of a range and written back are marked in the original. -/
theorem blit_mark_blit {p : Nat} (h : lo + p ≤ 8 * n) :
    blit m d (mark (blit dst s m d n) (8 * s + lo) v p) s n = mark m (8 * d + lo) v p := by
  refine ext_bit fun k => ?_
  simp only [bit_blit, bit_mark]
  grind

/-- Marking bits of a range before or after it is copied. -/
theorem blit_mark {p : Nat} (h : lo + p ≤ 8 * n) :
    blit dst d (mark src (8 * s + lo) v p) s n = mark (blit dst d src s n) (8 * d + lo) v p := by
  refine ext_bit fun k => ?_
  simp only [bit_blit, bit_mark]
  grind

/-- A byte whose bits are set to `v` at once. -/
theorem update_full : Function.update m a 0xFF = mark m (8 * a) true 8 := by
  refine ext_bit fun k => ?_
  rw [bit_update, bit_mark]
  have : ∀ i < 8, (0xFF#8).getLsbD i = true := by decide
  grind

theorem update_zero : Function.update m a 0 = mark m (8 * a) false 8 := by
  refine ext_bit fun k => ?_
  rw [bit_update, bit_mark]
  grind

theorem getLsbD_fullShift : (0xFF#8 <<< n).getLsbD k = decide (n ≤ k ∧ k < 8) := by
  have hfull : ∀ i < 8, (0xFF#8).getLsbD i = true := by decide
  rw [BitVec.getLsbD_shiftLeft]
  grind

/-- Clearing the low bits of a byte with a mask. -/
theorem update_clearLow (h : n ≤ 8) :
    Function.update m a (m a &&& 0xFF#8 <<< n) = mark m (8 * a) false n := by
  refine ext_bit fun k => ?_
  rw [bit_update, bit_mark, BitVec.getLsbD_and, getLsbD_fullShift]
  by_cases hk : k / 8 = a
  · rw [if_pos hk, ← hk, show m (k / 8) = m (k / 8) from rfl, ← bit]
    grind
  · rw [if_neg hk, if_neg (by omega)]

/-- Testing the low bits of a byte with a mask. -/
theorem and_lowMask (h : n ≤ 8) : b &&& ~~~(0xFF#8 <<< n) = ~~~(0xFF#8 <<< n) ↔
    ∀ k < n, b.getLsbD k = true := by
  constructor
  · intro he k hk
    have := congrArg (·.getLsbD k) he
    simp only [BitVec.getLsbD_and, BitVec.getLsbD_not, getLsbD_fullShift] at this
    grind
  · intro hb
    refine BitVec.eq_of_getLsbD_eq fun k hk => ?_
    rw [BitVec.getLsbD_and, BitVec.getLsbD_not, getLsbD_fullShift]
    have := hb k
    grind

/-- All of the `n` bits from `lo` on are `v`. -/
def AllBits (m : Store) (lo : Nat) (v : Bool) (n : Nat) : Prop :=
  ∀ k, lo ≤ k → k < lo + n → bit m k = v

theorem AllBits.zero : AllBits m lo v 0 := fun k h h' => by omega

theorem allBits_add {p : Nat} :
    AllBits m lo v (n + p) ↔ AllBits m lo v n ∧ AllBits m (lo + n) v p := by
  constructor
  · intro h
    exact ⟨fun k h₁ h₂ => h k h₁ (by omega), fun k h₁ h₂ => h k (by omega) (by omega)⟩
  · intro h k h₁ h₂
    by_cases hk : k < lo + n
    · exact h.1 k h₁ hk
    · exact h.2 k (by omega) (by omega)

theorem allBits_one : AllBits m lo v 1 ↔ bit m lo = v :=
  ⟨fun h => h lo (Nat.le_refl _) (by omega), fun h k h₁ h₂ => by rwa [show k = lo by omega]⟩

theorem allBits_congr (h : ∀ k, lo ≤ k → k < lo + n → bit m k = bit m' k) :
    AllBits m lo v n ↔ AllBits m' lo v n :=
  forall_congr' fun k => forall_congr' fun h₁ => forall_congr' fun h₂ => by rw [h k h₁ h₂]

/-- Marking elsewhere. -/
theorem allBits_mark {w : Bool} {q p : Nat} (h : q + p ≤ lo ∨ lo + n ≤ q) :
    AllBits (mark m q w p) lo v n ↔ AllBits m lo v n :=
  allBits_congr fun k h₁ h₂ => by rw [bit_mark, if_neg (by omega)]

theorem allBits_mark_self : AllBits (mark m lo v n) lo v n := fun k h₁ h₂ => by
  rw [bit_mark, if_pos ⟨h₁, h₂⟩]

/-- Marking a range back to what it was. -/
theorem mark_mark_cancel {w : Bool} (h : AllBits m lo v n) : mark (mark m lo w n) lo v n = m := by
  refine ext_bit fun k => ?_
  rw [bit_mark]
  split
  · rename_i hk
    exact (h k hk.1 hk.2).symm
  · rename_i hk
    rw [bit_mark, if_neg hk]

/-! A loop that treats `n` bits takes up to `a` of them in one round and the others, up to `p`, in
the following ones. -/

theorem mark_min {p : Nat} :
    mark (mark m lo v (min n a)) (lo + a) v (min (n - a) p) = mark m lo v (min n (a + p)) := by
  refine ext_bit fun k => ?_
  simp only [bit_mark]
  grind

theorem allBits_min {p : Nat} : AllBits m lo v (min n (a + p)) ↔
    AllBits m lo v (min n a) ∧ AllBits m (lo + a) v (min (n - a) p) := by
  constructor
  · intro h
    exact ⟨fun k h₁ h₂ => h k h₁ (by omega), fun k h₁ h₂ => h k (by omega) (by omega)⟩
  · intro h k h₁ h₂
    by_cases hk : k < lo + a
    · exact h.1 k h₁ (by omega)
    · exact h.2 k (by omega) (by omega)

theorem allBits_blit (h : 8 * d ≤ lo) (h' : lo + k ≤ 8 * (d + n)) :
    AllBits (blit dst d src s n) lo v k ↔ AllBits src (8 * s + (lo - 8 * d)) v k := by
  constructor
  · intro hb x h₁ h₂
    have := hb (x - 8 * s + 8 * d) (by omega) (by omega)
    rw [bit_blit, if_pos (by omega)] at this
    rwa [show 8 * s + (x - 8 * s + 8 * d - 8 * d) = x by omega] at this
  · intro hb x h₁ h₂
    rw [bit_blit, if_pos (by omega)]
    exact hb _ (by omega) (by omega)

/-- A whole byte. -/
theorem allBits_full : AllBits m (8 * a) true 8 ↔ m a = 0xFF := by
  rw [eq_full_iff]
  constructor
  · intro h k hk
    rw [← bit_mul_add hk]
    exact h _ (by omega) (by omega)
  · intro h k h₁ h₂
    have := h (k - 8 * a) (by omega)
    rw [← bit_mul_add (by omega)] at this
    rwa [show 8 * a + (k - 8 * a) = k by omega] at this

/-- The first clear one of the `n` bits from `lo` on is bit `lo + x`. -/
structure FirstClear (m : Store) (lo n x : Nat) : Prop where
  lt : x < n
  below : AllBits m lo true x
  clear : bit m (lo + x) = false

theorem FirstClear.le {x y : Nat} (h : FirstClear m lo n x) (hy : bit m (lo + y) = false) :
    x ≤ y := by
  by_contra hlt
  have := h.below (lo + y) (by omega) (by omega)
  rw [hy] at this
  exact Bool.false_ne_true this

theorem FirstClear.unique {x y : Nat} (h : FirstClear m lo n x) (h' : FirstClear m lo n y) :
    x = y :=
  Nat.le_antisymm (h.le h'.clear) (h'.le h.clear)

/-- A byte none of whose bits are marked. -/
theorem mark_of_notMem (h : 8 * a + 8 ≤ lo ∨ lo + n ≤ 8 * a) : mark m lo v n a = m a := by
  refine BitVec.eq_of_getLsbD_eq fun k hk => ?_
  rw [← bit_mul_add hk, ← bit_mul_add hk, bit_mark, if_neg (by omega)]

/-! ## Words -/

/-- The little-endian word at an address. -/
def word (m : Store) (a : Nat) : BitVec 32 := m (a + 3) ++ m (a + 2) ++ m (a + 1) ++ m a

theorem eq_zero_of_word (h : word m a = 0) : m a = 0 := by
  refine BitVec.eq_of_getLsbD_eq fun k hk => ?_
  have hbit : (word m a).getLsbD k = (m a).getLsbD k := by
    rw [word, BitVec.getLsbD_append, if_pos hk]
  rw [← hbit, h]
  exact BitVec.getLsbD_zero.trans BitVec.getLsbD_zero.symm

/-- The words `ws`, one after the other. -/
def putWords (m : Store) (a : Nat) (ws : List (BitVec 32)) : Store := fun x =>
  if a ≤ x ∧ x < a + 4 * ws.length then
    (ws.getD ((x - a) / 4) 0).extractLsb' (8 * ((x - a) % 4)) 8
  else m x

theorem word_congr (h : ∀ i < 4, m (a + i) = m' (a + i)) : word m a = word m' a := by
  have h0 := h 0 (by omega)
  simp only [Nat.add_zero] at h0
  rw [word, word, h 3 (by omega), h 2 (by omega), h 1 (by omega), h0]

theorem putWords_of_notMem {x : Nat} {ws : List (BitVec 32)} (h : x < a ∨ a + 4 * ws.length ≤ x) :
    putWords m a ws x = m x := by
  simp only [putWords, ite_eq_right_iff]
  omega

theorem word_putWords {ws : List (BitVec 32)} {i : Nat} (h : i < ws.length) :
    word (putWords m a ws) (a + 4 * i) = ws.getD i 0 := by
  have hbyte (j : Nat) (hj : j < 4) : putWords m a ws (a + 4 * i + j) =
      (ws.getD i 0).extractLsb' (8 * j) 8 := by
    rw [putWords, if_pos (by omega), show (a + 4 * i + j - a) / 4 = i by omega,
      show (a + 4 * i + j - a) % 4 = j by omega]
  have h0 := hbyte 0 (by omega)
  simp only [Nat.add_zero] at h0
  rw [word, hbyte 3 (by omega), hbyte 2 (by omega), hbyte 1 (by omega), h0]
  generalize ws.getD i 0 = w
  refine BitVec.eq_of_getLsbD_eq fun k hk => ?_
  simp only [BitVec.getLsbD_append, BitVec.getLsbD_extractLsb']
  grind

theorem word_putWords_of_notMem {x : Nat} {ws : List (BitVec 32)}
    (h : x + 4 ≤ a ∨ a + 4 * ws.length ≤ x) : word (putWords m a ws) x = word m x :=
  word_congr fun i _ => putWords_of_notMem (by omega)

theorem putWords_putWords {ws vs : List (BitVec 32)} :
    putWords (putWords m a ws) (a + 4 * ws.length) vs = putWords m a (ws ++ vs) := by
  funext x
  rcases Nat.lt_or_ge x (a + 4 * ws.length) with hlt | hge
  · rw [putWords_of_notMem (.inl hlt), putWords, putWords, List.length_append]
    by_cases ha : a ≤ x
    · rw [if_pos ⟨ha, hlt⟩, if_pos ⟨ha, by omega⟩, List.getD, List.getD,
        List.getElem?_append_left (by omega)]
    · rw [if_neg (by omega), if_neg (by omega)]
  · rw [putWords, putWords_of_notMem (.inr hge), putWords, List.length_append]
    by_cases hc : x < a + 4 * ws.length + 4 * vs.length
    · rw [if_pos ⟨hge, hc⟩, if_pos ⟨by omega, by omega⟩, List.getD, List.getD,
        List.getElem?_append_right (by omega)]
      have hidx : (x - (a + 4 * ws.length)) / 4 = (x - a) / 4 - ws.length := by omega
      have hbyte : (x - (a + 4 * ws.length)) % 4 = (x - a) % 4 := by omega
      rw [hidx, hbyte]
    · rw [if_neg (by omega), if_neg (by omega)]

theorem blit_putWords {ws : List (BitVec 32)} (h : k + 4 * ws.length ≤ n) :
    blit dst d (putWords src (s + k) ws) s n = putWords (blit dst d src s n) (d + k) ws := by
  funext x
  by_cases hx : d + k ≤ x ∧ x < d + k + 4 * ws.length
  · rw [blit_of_mem (by omega) (by omega), putWords, if_pos (by omega), putWords, if_pos hx,
      show s + (x - d) - (s + k) = x - (d + k) by omega]
  · rw [putWords_of_notMem (by omega)]
    by_cases hb : d ≤ x ∧ x < d + n
    · rw [blit_of_mem hb.1 hb.2, putWords_of_notMem (by omega), blit_of_mem hb.1 hb.2]
    · rw [blit_of_notMem (by omega), blit_of_notMem (by omega)]

/-- A word in a copied range. -/
theorem word_blit (h : d ≤ a) (h' : a + 4 ≤ d + n) :
    word (blit dst d src s n) a = word src (s + (a - d)) := by
  have hbyte (i : Nat) (hi : i < 4) :
      blit dst d src s n (a + i) = src (s + (a - d) + i) := by
    rw [blit_of_mem (by omega) (by omega)]
    congr 1
    omega
  have h0 := hbyte 0 (by omega)
  simp only [Nat.add_zero] at h0
  rw [word, word, hbyte 3 (by omega), hbyte 2 (by omega), hbyte 1 (by omega), h0]

theorem word_blit_of_notMem (h : a + 4 ≤ d ∨ d + n ≤ a) :
    word (blit dst d src s n) a = word dst a :=
  word_congr fun i _ => blit_of_notMem (by omega)

end Bytes
