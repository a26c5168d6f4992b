import Dlos.Fs.Device
import Dlos.Fs.DiskLog
import Dlos.Fs.Link

/-!
# The two bitmaps

What the allocating, releasing and marking loops do to the disk, as ranges of absolute bits: bit
`b` of the map that starts in sector `base` is bit `4096 * base + b` of the disk. Each loop has one
specification for both ends: the bits it needs are as it needs them and come out changed, or they
are not and an assertion fails.
-/

namespace Dlos

open Program Bytes

variable {s : Fs} {D : Store} {Q : Unit → Fs → Prop} {E : Halt → Fs → Prop}
  {n j k fuel left : Nat}

/-! ## Taking the bits of a byte -/

theorem firstClearFrom_spec {b : Byte} (h : ∃ i, k ≤ i ∧ i < k + fuel ∧ b.getLsbD i = false) :
    firstClearFrom b fuel k < k + fuel ∧ b.getLsbD (firstClearFrom b fuel k) = false ∧
      ∀ i, k ≤ i → i < firstClearFrom b fuel k → b.getLsbD i = true := by
  induction fuel generalizing k with
  | zero =>
    obtain ⟨i, hk, hi, -⟩ := h
    omega
  | succ fuel ih =>
    rw [firstClearFrom]
    obtain ⟨i, hk, hi, hclear⟩ := h
    split
    · rename_i hset
      have hne : i ≠ k := fun e => by simp [← e, hclear] at hset
      obtain ⟨hlt, hbit, hall⟩ := ih (k := k + 1) ⟨i, by omega, by omega, hclear⟩
      refine ⟨by omega, hbit, fun x hx hx' => ?_⟩
      by_cases hxk : x = k
      · rwa [hxk]
      · exact hall x (by omega) hx'
    · rename_i hbit
      exact ⟨by omega, by simpa using hbit, fun x hx hx' => by omega⟩

theorem firstClear_spec {b : Byte} (h : b ≠ 0xFF) :
    firstClear b < 8 ∧ b.getLsbD (firstClear b) = false ∧
      ∀ i < firstClear b, b.getLsbD i = true := by
  have hex : ∃ i, 0 ≤ i ∧ i < 0 + 8 ∧ b.getLsbD i = false := by
    by_contra hno
    refine h (eq_full_iff.mpr fun i hi => ?_)
    by_contra hbit
    exact hno ⟨i, by omega, by omega, by simpa using hbit⟩
  obtain ⟨hlt, hbit, hall⟩ := firstClearFrom_spec hex
  exact ⟨by simpa [firstClear] using hlt, hbit, fun i hi => hall i (Nat.zero_le _) hi⟩

theorem wp_takeBits {exp : String} {Q : Nat → Fs → Prop} (hk : k + fuel = 8) (hj : j < 512)
    (hl : 0 < left) (hV : view s.disk s.mem n = D)
    (hQ : ∀ M, view s.disk M n = mark D (4096 * n + 8 * j + k) true (min left fuel) →
      AllBits D (4096 * n + 8 * j + k) false (min left fuel) → Q (left - fuel) (s.io s.disk M))
    (hE : ¬AllBits D (4096 * n + 8 * j + k) false (min left fuel) → ∀ e t, E e t) :
    wp (takeBits exp j fuel k left) Q E s := by
  induction fuel generalizing k left s D with
  | zero =>
    rw [takeBits, wp_pure]
    simp only [Nat.min_zero, mark_zero, Nat.sub_zero] at hQ
    exact hQ s.mem hV AllBits.zero
  | succ fuel ih =>
    have hk8 : k < 8 := by omega
    have hbit := bit_view (D := s.disk) (M := s.mem) (n := n) hj hk8
    have hV₁ := view_setBit (D := s.disk) (M := s.mem) (n := n) (v := true) hj hk8
    rw [hV] at hbit hV₁
    have h1 : min left 1 = 1 := by omega
    rw [Nat.add_comm fuel 1, allBits_min, h1, allBits_one] at hE
    simp only [Nat.add_comm fuel 1, allBits_min, ← mark_min, h1, allBits_one, Nat.sub_add_eq] at hQ
    simp only [takeBits, wp_bind, wp_bufAt, wp_assert, wp_setBuf, update_or hk8, ← hbit, wp_ite,
      wp_pure]
    refine ⟨fun hclear => ⟨fun hlast => ?_, fun hmore => ?_⟩, fun hset => hE (hset ·.1) _ _⟩
    · simp only [hlast, Nat.zero_min, Nat.zero_sub, mark_zero] at hQ
      exact hQ _ hV₁ ⟨hclear, AllBits.zero⟩
    · have hrest : AllBits (mark D (4096 * n + 8 * j + k) true 1) (4096 * n + 8 * j + (k + 1))
          false (min (left - 1) fuel) ↔
          AllBits D (4096 * n + 8 * j + k + 1) false (min (left - 1) fuel) :=
        allBits_mark (by omega)
      exact ih (by omega) (by omega) hV₁ (fun M hM hc => hQ M hM ⟨hclear, hrest.mp hc⟩)
        fun hc => hE fun h => hc (hrest.mpr h.2)

/-! ## Allocating from the sector map -/

section

variable {n1st free : BitVec 32} {i : Nat} {Q : BitVec 32 × Nat → Fs → Prop}

/-- Once the first bit is found, the following ones are taken. -/
theorem wp_allocSmapBytes_take (hf : free ≠ 0) (hj : j + fuel = 512)
    (hV : view s.disk s.mem n = D)
    (hQ : ∀ M, view s.disk M n = mark D (4096 * n + 8 * j) true (min left (8 * fuel)) →
      AllBits D (4096 * n + 8 * j) false (min left (8 * fuel)) →
      Q (free, left - 8 * fuel) (s.io s.disk M))
    (hE : ¬AllBits D (4096 * n + 8 * j) false (min left (8 * fuel)) → ∀ e t, E e t) :
    wp (allocSmapBytes n1st i fuel j free left) Q E s := by
  induction fuel generalizing j left s D with
  | zero =>
    rw [allocSmapBytes, wp_pure]
    simp only [Nat.mul_zero, Nat.min_zero, mark_zero, Nat.sub_zero] at hQ
    exact hQ s.mem hV AllBits.zero
  | succ fuel ih =>
    rw [allocSmapBytes, wp_ite]
    refine ⟨fun h0 => ?_, fun h0 => ?_⟩
    · simp only [h0, Nat.zero_min, Nat.zero_sub] at hQ
      rw [wp_pure, h0]
      exact hQ s.mem hV AllBits.zero
    · rw [show 8 * (fuel + 1) = 8 + 8 * fuel by omega] at hQ hE
      rw [allBits_min] at hE
      simp only [allBits_min, ← mark_min, Nat.sub_add_eq] at hQ
      have hrest : AllBits (mark D (4096 * n + 8 * j) true (min left 8))
          (4096 * n + 8 * (j + 1)) false (min (left - 8) (8 * fuel)) ↔
          AllBits D (4096 * n + 8 * j + 8) false (min (left - 8) (8 * fuel)) :=
        allBits_mark (by omega)
      rw [if_neg hf, wp_bind]
      refine wp_takeBits (by omega) (by omega) (by omega) hV (fun M hM hc => ?_)
        fun hc => hE (hc ·.1)
      exact ih (by omega) hM (fun M' hM' hc' => hQ M' hM' ⟨hc, hrest.mp hc'⟩)
        fun hc' => hE fun h => hc' (hrest.mpr h.2)

/-- While no bit is found, the bytes are searched for a clear one. -/
theorem wp_allocSmapBytes_search (hl : left ≠ 0) (hj : j + fuel = 512)
    (hV : view s.disk s.mem n = D)
    (hset : AllBits D (4096 * n + 8 * j) true (8 * fuel) → Q (0, left) s)
    (hclear : ∀ x, 8 * j ≤ x → x < 4096 →
      AllBits D (4096 * n + 8 * j) true (x - 8 * j) → bit D (4096 * n + x) = false →
      bitSect n1st (4096 * i + x) ≠ 0 ∧
      (∀ M, view s.disk M n = mark D (4096 * n + x) true (min left (4096 - x)) →
        AllBits D (4096 * n + x) false (min left (4096 - x)) →
        Q (bitSect n1st (4096 * i + x), left - (4096 - x)) (s.io s.disk M)) ∧
      (¬AllBits D (4096 * n + x) false (min left (4096 - x)) → ∀ e t, E e t)) :
    wp (allocSmapBytes n1st i fuel j 0 left) Q E s := by
  induction fuel generalizing j with
  | zero =>
    rw [allocSmapBytes, wp_pure]
    exact hset AllBits.zero
  | succ fuel ih =>
    have hfull := view_full (D := s.disk) (M := s.mem) (n := n) (show j < 512 by omega)
    rw [hV] at hfull
    rw [allocSmapBytes, if_neg hl, if_pos rfl, wp_bind, wp_bufAt, wp_ite]
    refine ⟨fun hb => ?_, fun hb => ?_⟩
    · rw [← hfull] at hb
      refine ih (by omega) (fun h => hset ?_) fun x hx hx' h hbit => ?_
      · rw [show 8 * (fuel + 1) = 8 + 8 * fuel by omega, allBits_add]
        exact ⟨hb, h⟩
      · refine hclear x (by omega) hx' ?_ hbit
        rw [show x - 8 * j = 8 + (x - 8 * (j + 1)) by omega, allBits_add]
        exact ⟨hb, h⟩
    · obtain ⟨hk, hbit, hbelow⟩ := firstClear_spec hb
      generalize firstClear (s.mem (fsbuf + j)) = k at hk hbit hbelow ⊢
      have hbits (y : Nat) (hy : y < 8) :
          bit D (4096 * n + 8 * j + y) = (s.mem (fsbuf + j)).getLsbD y := by
        rw [← hV, bit_view (by omega) hy]
      have hset' : AllBits D (4096 * n + 8 * j) true (8 * j + k - 8 * j) := fun y hy hy' => by
        have := hbits (y - (4096 * n + 8 * j)) (by omega)
        rw [hbelow _ (by omega)] at this
        rwa [show 4096 * n + 8 * j + (y - (4096 * n + 8 * j)) = y by omega] at this
      have hclear' : bit D (4096 * n + (8 * j + k)) = false := by
        rw [← Nat.add_assoc, hbits k hk, hbit]
      obtain ⟨hne, hQ, hE⟩ := hclear (8 * j + k) (by omega) (by omega) hset' hclear'
      rw [show min left (4096 - (8 * j + k)) = min left ((8 - k) + 8 * fuel) by congr 1; omega,
        allBits_min, ← Nat.add_assoc] at hE
      simp only [show 4096 - (8 * j + k) = (8 - k) + 8 * fuel by omega, allBits_min, ← mark_min,
        Nat.sub_add_eq, ← Nat.add_assoc] at hQ
      have hnext : 4096 * n + 8 * j + k + (8 - k) = 4096 * n + 8 * (j + 1) := by omega
      have hsect : (i * sectorSize + j) * 8 + k = 4096 * i + 8 * j + k := by
        rw [sectorSize]
        omega
      simp only [hnext] at hQ hE
      simp only [hsect, wp_bind]
      rw [← Nat.add_assoc] at hne
      refine wp_takeBits (by omega) (by omega) (by omega) hV (fun M hM hc => ?_)
        fun hc => hE (hc ·.1)
      have hrest : AllBits (mark D (4096 * n + 8 * j + k) true (min left (8 - k)))
          (4096 * n + 8 * (j + 1)) false (min (left - (8 - k)) (8 * fuel)) ↔
          AllBits D (4096 * n + 8 * (j + 1)) false (min (left - (8 - k)) (8 * fuel)) :=
        allBits_mark (by omega)
      exact wp_allocSmapBytes_take hne (by omega) hM
        (fun M' hM' hc' => hQ M' hM' ⟨hc, hrest.mp hc'⟩)
        fun hc' => hE fun h => hc' (hrest.mpr h.2)

/-- A whole sector of it. -/
theorem wp_allocSmapBytes_all (hf : free ≠ 0) (hV : view s.disk s.mem n = D)
    (hQ : ∀ M, view s.disk M n = mark D (4096 * n) true (min left 4096) →
      AllBits D (4096 * n) false (min left 4096) → Q (free, left - 4096) (s.io s.disk M))
    (hE : ¬AllBits D (4096 * n) false (min left 4096) → ∀ e t, E e t) :
    wp (allocSmapBytes n1st i sectorSize 0 free left) Q E s := by
  have h512 : 0 + sectorSize = 512 := rfl
  have h4096 : 8 * sectorSize = 4096 := rfl
  generalize sectorSize = fuel at h512 h4096
  refine wp_allocSmapBytes_take hf h512 hV ?_ ?_
  · rwa [h4096]
  · rwa [h4096]

theorem wp_allocSmapBytes_searchAll (hl : left ≠ 0) (hV : view s.disk s.mem n = D)
    (hset : AllBits D (4096 * n) true 4096 → Q (0, left) s)
    (hclear : ∀ x < 4096, AllBits D (4096 * n) true x → bit D (4096 * n + x) = false →
      bitSect n1st (4096 * i + x) ≠ 0 ∧
      (∀ M, view s.disk M n = mark D (4096 * n + x) true (min left (4096 - x)) →
        AllBits D (4096 * n + x) false (min left (4096 - x)) →
        Q (bitSect n1st (4096 * i + x), left - (4096 - x)) (s.io s.disk M)) ∧
      (¬AllBits D (4096 * n + x) false (min left (4096 - x)) → ∀ e t, E e t)) :
    wp (allocSmapBytes n1st i sectorSize 0 0 left) Q E s := by
  have h512 : 0 + sectorSize = 512 := rfl
  have h4096 : 8 * sectorSize = 4096 := rfl
  generalize sectorSize = fuel at h512 h4096
  refine wp_allocSmapBytes_search hl h512 hV ?_ fun x _ hx h => hclear x hx ?_
  · rwa [h4096]
  · simpa using h

/-- The first sector of the sector map. -/
def SuperBlock.smapBase (sb : SuperBlock) : Nat := (1 + 1 + sb.nrImapSects).toNat

theorem SuperBlock.toInt_smapBase {sb : SuperBlock} (h : sb.smapBase < 2 ^ 31) :
    (1 + 1 + sb.nrImapSects).toInt = (sb.smapBase : Int) :=
  BitVec.toInt_eq_toNat_of_lt (by rw [smapBase] at h; omega)

variable {sb : SuperBlock}

theorem wp_allocSmapSects_take (hf : free ≠ 0) (hl : 0 < left)
    (hb : sb.smapBase + i + fuel ≤ 2 ^ 23)
    (hQ : ∀ M, AllBits s.disk (4096 * (sb.smapBase + i)) false (min left (4096 * fuel)) →
      Q (free, left - 4096 * fuel)
        (s.io (mark s.disk (4096 * (sb.smapBase + i)) true (min left (4096 * fuel))) M))
    (hE : ¬AllBits s.disk (4096 * (sb.smapBase + i)) false (min left (4096 * fuel)) →
      ∀ e t, E e t) :
    wp (allocSmapSects rootDev sb fuel i free left) Q E s := by
  induction fuel generalizing i left s with
  | zero =>
    rw [allocSmapSects, wp_pure]
    simp only [Nat.mul_zero, Nat.min_zero, mark_zero, Nat.sub_zero] at hQ
    exact hQ s.mem AllBits.zero
  | succ fuel ih =>
    rw [show 4096 * (fuel + 1) = 4096 + 4096 * fuel by omega] at hQ hE
    rw [allBits_min] at hE
    simp only [allBits_min, ← mark_min, Nat.sub_add_eq] at hQ
    have hnext : 4096 * (sb.smapBase + i) + 4096 = 4096 * (sb.smapBase + (i + 1)) := by omega
    simp only [hnext] at hQ hE
    have hblk : (1 + 1 + sb.nrImapSects).toInt + (i : Int) = ((sb.smapBase + i : Nat) : Int) := by
      rw [SuperBlock.toInt_smapBase (by omega)]
      omega
    simp only [allocSmapSects, hblk, wp_bind]
    refine wp_rdSect_view (by omega) fun M hV => ?_
    refine wp_allocSmapBytes_all hf hV (fun M' hM hc => ?_) fun hc => hE (hc ·.1)
    -- a difference from a literal is not to be computed
    generalize left - 4096 = rest at hQ hE ⊢
    rw [wp_onlyIf]
    refine ⟨fun _ => ?_, fun h => absurd hf h⟩
    rw [Fs.io_disk] at hM
    rw [wp_wrSect_view (by omega), Fs.io_disk, Fs.io_mem, Fs.io_io, Fs.io_io, Fs.io_disk, hM,
      wp_ite]
    refine ⟨fun (h0 : rest = 0) => ?_, fun (h0 : ¬rest = 0) => ?_⟩
    · simp only [h0, Nat.zero_min, Nat.zero_sub, mark_zero] at hQ
      rw [wp_pure, h0]
      exact hQ M' ⟨hc, AllBits.zero⟩
    · have hrest : AllBits (mark s.disk (4096 * (sb.smapBase + i)) true (min left 4096))
          (4096 * (sb.smapBase + (i + 1))) false (min rest (4096 * fuel)) ↔
          AllBits s.disk (4096 * (sb.smapBase + (i + 1))) false (min rest (4096 * fuel)) :=
        allBits_mark (by omega)
      exact ih (by omega) (by omega) (fun M hc' => hQ M ⟨hc, hrest.mp hc'⟩)
        fun hc' => hE fun h => hc' (hrest.mpr h.2)

theorem wp_allocSmapSects_search (hl : 0 < left) (hb : sb.smapBase + i + fuel ≤ 2 ^ 23)
    (hset : ∀ M, AllBits s.disk (4096 * (sb.smapBase + i)) true (4096 * fuel) →
      Q (0, left) (s.io s.disk M))
    (hclear : ∀ x, 4096 * i ≤ x → x < 4096 * (i + fuel) →
      AllBits s.disk (4096 * (sb.smapBase + i)) true (x - 4096 * i) →
      bit s.disk (4096 * sb.smapBase + x) = false → bitSect sb.n1stSect x ≠ 0 ∧
      (∀ M, AllBits s.disk (4096 * sb.smapBase + x) false (min left (4096 * (i + fuel) - x)) →
        Q (bitSect sb.n1stSect x, left - (4096 * (i + fuel) - x)) (s.io
          (mark s.disk (4096 * sb.smapBase + x) true (min left (4096 * (i + fuel) - x))) M)) ∧
      (¬AllBits s.disk (4096 * sb.smapBase + x) false (min left (4096 * (i + fuel) - x)) →
        ∀ e t, E e t)) :
    wp (allocSmapSects rootDev sb fuel i 0 left) Q E s := by
  induction fuel generalizing i s with
  | zero =>
    rw [allocSmapSects, wp_pure]
    exact hset s.mem AllBits.zero
  | succ fuel ih =>
    have hblk : (1 + 1 + sb.nrImapSects).toInt + (i : Int) = ((sb.smapBase + i : Nat) : Int) := by
      rw [SuperBlock.toInt_smapBase (by omega)]
      omega
    have hnext : 4096 * (sb.smapBase + i) + 4096 = 4096 * (sb.smapBase + (i + 1)) := by omega
    simp only [allocSmapSects, hblk, wp_bind]
    refine wp_rdSect_view (by omega) fun M hV => ?_
    refine wp_allocSmapBytes_searchAll (by omega) hV (fun hfull => ?_) fun x hx hset' hbit => ?_
    · rw [wp_onlyIf]
      refine ⟨fun h => absurd rfl h, fun _ => ?_⟩
      rw [wp_ite]
      refine ⟨fun (h0 : left = 0) => absurd hl (by omega), fun _ => ?_⟩
      refine ih (by omega) (fun M hfull' => hset M ?_) fun x hx hx' hset' hbit => ?_
      · rw [show 4096 * (fuel + 1) = 4096 + 4096 * fuel by omega, allBits_add, hnext]
        exact ⟨hfull, hfull'⟩
      · rw [show 4096 * (i + 1 + fuel) = 4096 * (i + (fuel + 1)) by omega]
        refine hclear x (by omega) (by omega) ?_ hbit
        rw [show x - 4096 * i = 4096 + (x - 4096 * (i + 1)) by omega, allBits_add, hnext]
        exact ⟨hfull, hset'⟩
    · have hpos : 4096 * (sb.smapBase + i) + x = 4096 * sb.smapBase + (4096 * i + x) := by omega
      rw [hpos] at hbit ⊢
      obtain ⟨hne, hQ, hE⟩ := hclear (4096 * i + x) (by omega) (by omega)
        (by rwa [Nat.add_sub_cancel_left]) hbit
      have hsize : 4096 * (i + (fuel + 1)) - (4096 * i + x) = (4096 - x) + 4096 * fuel := by omega
      have hend : 4096 * sb.smapBase + (4096 * i + x) + (4096 - x) =
          4096 * (sb.smapBase + (i + 1)) := by omega
      rw [hsize, allBits_min, hend] at hE
      simp only [hsize, allBits_min, ← mark_min, Nat.sub_add_eq, hend] at hQ
      refine ⟨hne, fun M' hM hc => ?_, fun hc => hE (hc ·.1)⟩
      generalize left - (4096 - x) = rest at hQ hE ⊢
      rw [wp_onlyIf]
      refine ⟨fun _ => ?_, fun h => absurd hne h⟩
      rw [Fs.io_disk] at hM
      rw [wp_wrSect_view (by omega), Fs.io_disk, Fs.io_mem, Fs.io_io, Fs.io_io, Fs.io_disk, hM,
        wp_ite]
      refine ⟨fun (h0 : rest = 0) => ?_, fun (h0 : ¬rest = 0) => ?_⟩
      · simp only [h0, Nat.zero_min, Nat.zero_sub, mark_zero] at hQ
        rw [wp_pure, h0]
        exact hQ M' ⟨hc, AllBits.zero⟩
      · have hrest : AllBits (mark s.disk (4096 * sb.smapBase + (4096 * i + x)) true
            (min left (4096 - x))) (4096 * (sb.smapBase + (i + 1))) false
            (min rest (4096 * fuel)) ↔
            AllBits s.disk (4096 * (sb.smapBase + (i + 1))) false (min rest (4096 * fuel)) :=
          allBits_mark (by omega)
        exact wp_allocSmapSects_take hne (by omega) (by omega)
          (fun M hc' => hQ M ⟨hc, hrest.mp hc'⟩) fun hc' => hE fun h => hc' (hrest.mpr h.2)

end

/-- The number of bits in the sector map. -/
def SuperBlock.smapBits (sb : SuperBlock) : Nat := 4096 * sb.nrSmapSects.toNat

/-- The first clear bit and the `count` bits from it on decide: they are taken, or the allocation
fails. -/
theorem wp_allocSmapBit {sb : SuperBlock} {count : Nat} {Q : BitVec 32 → Fs → Prop}
    (hsb : s.super rootDev = some sb) (hroom : sb.smapBase + sb.nrSmapSects.toNat ≤ 2 ^ 23)
    (hcount : 0 < count)
    (hne : ∀ x, FirstClear s.disk (4096 * sb.smapBase) sb.smapBits x → bitSect sb.n1stSect x ≠ 0)
    (hQ : ∀ M x, FirstClear s.disk (4096 * sb.smapBase) sb.smapBits x →
      x + count ≤ sb.smapBits → AllBits s.disk (4096 * sb.smapBase + x) false count →
      Q (bitSect sb.n1stSect x) (s.io (mark s.disk (4096 * sb.smapBase + x) true count) M))
    (hE : (∀ x, FirstClear s.disk (4096 * sb.smapBase) sb.smapBits x → x + count ≤ sb.smapBits →
      ¬AllBits s.disk (4096 * sb.smapBase + x) false count) → ∀ e t, E e t) :
    wp (allocSmapBit rootDev count) Q E s := by
  rw [allocSmapBit, wp_bind, wp_getSuperBlock hsb, wp_bind]
  refine wp_allocSmapSects_search hcount (by omega) (fun M hset => ?_) fun x _ hx hset hbit => ?_
  · simp only [wp_bind, wp_assert]
    refine ⟨fun h => by omega, fun _ => hE (fun x hfirst => ?_) _ _⟩
    have hlt := hfirst.lt
    rw [SuperBlock.smapBits] at hlt
    have := hset (4096 * sb.smapBase + x) (by omega) (by omega)
    rw [hfirst.clear] at this
    exact absurd this Bool.false_ne_true
  · have hsize : 4096 * (0 + sb.nrSmapSects.toNat) = sb.smapBits := by
      rw [SuperBlock.smapBits, Nat.zero_add]
    rw [hsize] at hx ⊢
    have hfirst : FirstClear s.disk (4096 * sb.smapBase) sb.smapBits x := ⟨hx, hset, hbit⟩
    refine ⟨hne x hfirst, fun M hc => ?_, fun hc => hE fun y hy hy' hall => hc ?_⟩
    · simp only [wp_bind, wp_assert, wp_pure]
      refine ⟨fun hleft => ?_, fun hleft => hE (fun y hy hy' _ => ?_) _ _⟩
      · rw [show min count (sb.smapBits - x) = count by omega] at hc ⊢
        exact hQ M x hfirst (by omega) hc
      · have := hfirst.unique hy
        omega
    · obtain rfl := hfirst.unique hy
      rwa [show min count (sb.smapBits - x) = count by omega]

/-! ## The inode map -/

theorem wp_allocImapBytes {Q : Int → Fs → Prop} (hj : j + fuel = 512)
    (hV : view s.disk s.mem 2 = D) (hset : AllBits D (4096 * 2 + 8 * j) true (8 * fuel) → Q 0 s)
    (hclear : ∀ M x, 8 * j ≤ x → x < 4096 → AllBits D (4096 * 2 + 8 * j) true (x - 8 * j) →
      bit D (4096 * 2 + x) = false → Q (x : Nat) (s.io (mark D (4096 * 2 + x) true 1) M)) :
    wp (allocImapBytes rootDev 0 fuel j) Q E s := by
  induction fuel generalizing j with
  | zero =>
    rw [allocImapBytes, wp_pure]
    exact hset AllBits.zero
  | succ fuel ih =>
    have hfull := view_full (D := s.disk) (M := s.mem) (n := 2) (show j < 512 by omega)
    rw [hV] at hfull
    rw [allocImapBytes, wp_bind, wp_bufAt, wp_ite]
    refine ⟨fun hb => ?_, fun hb => ?_⟩
    · rw [← hfull] at hb
      refine ih (by omega) (fun h => hset ?_) fun M x hx hx' h hbit => ?_
      · rw [show 8 * (fuel + 1) = 8 + 8 * fuel by omega, allBits_add]
        exact ⟨hb, h⟩
      · refine hclear M x (by omega) hx' ?_ hbit
        rw [show x - 8 * j = 8 + (x - 8 * (j + 1)) by omega, allBits_add]
        exact ⟨hb, h⟩
    · obtain ⟨hk, hbit, hbelow⟩ := firstClear_spec hb
      generalize firstClear (s.mem (fsbuf + j)) = k at hk hbit hbelow ⊢
      have hbits (y : Nat) (hy : y < 8) :
          bit D (4096 * 2 + 8 * j + y) = (s.mem (fsbuf + j)).getLsbD y := by
        rw [← hV, bit_view (by omega) hy]
      have hset' : AllBits D (4096 * 2 + 8 * j) true (8 * j + k - 8 * j) := fun y hy hy' => by
        have := hbits (y - (4096 * 2 + 8 * j)) (by omega)
        rw [hbelow _ (by omega)] at this
        rwa [show 4096 * 2 + 8 * j + (y - (4096 * 2 + 8 * j)) = y by omega] at this
      have hclear' : bit D (4096 * 2 + (8 * j + k)) = false := by
        rw [← Nat.add_assoc, hbits k hk, hbit]
      have hV₁ := view_setBit (D := s.disk) (M := s.mem) (n := 2) (v := true)
        (show j < 512 by omega) hk
      rw [hV, Nat.add_assoc] at hV₁
      have hsect : (0 * sectorSize + j) * 8 + k = 8 * j + k := by
        rw [sectorSize]
        omega
      simp only [wp_bind, wp_setBuf, update_or hk, hsect, wp_pure]
      rw [wp_wrSect_view (by omega), Fs.io_disk, Fs.io_mem, Fs.io_io]
      rw [show 1 + 1 + 0 = 2 from rfl, hV₁]
      exact hclear _ _ (by omega) (by omega) hset' hclear'

/-- The first clear bit is taken; if there is none the answer is 0. -/
theorem wp_allocImapBit {sb : SuperBlock} {Q : Int → Fs → Prop} (hsb : s.super rootDev = some sb)
    (himap : 0 < sb.nrImapSects.toNat)
    (hset : ∀ M, AllBits s.disk (4096 * 2) true 4096 → Q 0 (s.io s.disk M))
    (hclear : ∀ M x, FirstClear s.disk (4096 * 2) 4096 x →
      Q (x : Nat) (s.io (mark s.disk (4096 * 2 + x) true 1) M)) :
    wp (allocImapBit rootDev) Q E s := by
  rw [allocImapBit, wp_bind, wp_getSuperBlock hsb, if_pos himap, wp_bind]
  refine wp_rdSect_view (n := 1 + 1) (by omega) fun M hV => ?_
  have h512 : 0 + sectorSize = 512 := rfl
  have h4096 : 8 * sectorSize = 4096 := rfl
  generalize sectorSize = fuel at h512 h4096
  refine wp_allocImapBytes h512 hV (fun hfull => ?_) fun M' x _ hx hall hbit => ?_
  · rw [h4096] at hfull
    exact hset M hfull
  · exact hclear M' x ⟨hx, by simpa using hall, hbit⟩

theorem tdiv_natCast (x y : Nat) : (x : Int).tdiv y = (x / y : Nat) := rfl

theorem tmod_natCast (x y : Nat) : (x : Int).tmod y = (x % y : Nat) := rfl

/-- An inode's bit is cleared, or it was not set. -/
theorem wp_freeImapBit {x : Nat} (hx : x < 4096)
    (hQ : ∀ M, bit s.disk (4096 * 2 + x) = true →
      Q () (s.io (mark s.disk (4096 * 2 + x) false 1) M))
    (hE : bit s.disk (4096 * 2 + x) = false → ∀ e t, E e t) :
    wp (freeImapBit rootDev (x : Nat)) Q E s := by
  have hpos : 4096 * 2 + 8 * (x / 8) + x % 8 = 4096 * 2 + x := by omega
  have hj : x / 8 < 512 := by omega
  have hk : x % 8 < 8 := by omega
  have hsize : (x / 8) % sectorSize = x / 8 := by
    rw [sectorSize]
    omega
  simp only [freeImapBit, wp_bind, wp_assert]
  rw [show (x : Int).tdiv 8 = (x / 8 : Nat) from rfl, show (x : Int).tmod 8 = (x % 8 : Nat) from rfl,
    tmod_natCast (x / 8) sectorSize, hsize]
  refine ⟨fun _ => ?_, fun h => absurd (by rw [sectorSize]; omega) h⟩
  refine wp_rdSect_view (n := 2) (by omega) fun M hV => ?_
  have hbit := bit_view (D := s.disk) (M := M) (n := 2) hj hk
  have hV₁ := view_setBit (D := s.disk) (M := M) (n := 2) (v := false) hj hk
  rw [hV, hpos] at hbit hV₁
  rw [wp_natOf_natCast, wp_natOf_natCast, wp_bufAt, and_bit_ne_zero hk, Fs.io_mem, ← hbit,
    wp_setBuf, Fs.io_mem, update_andNot hk]
  refine ⟨fun hset => ?_, fun hclear => hE (by simpa using hclear) _ _⟩
  refine (wp_wrSect_view (n := 2) (by omega)).mpr ?_
  rw [Fs.io_disk, Fs.io_mem, Fs.io_io, Fs.io_io, Fs.io_disk, hV₁]
  exact hQ _ hset

/-! ## Releasing bits of the sector map -/

theorem wp_clearBits {Q : Int → Fs → Prop} (hk : k + fuel = 8) (hj : j < 512)
    (hV : view s.disk s.mem n = D)
    (hQ : ∀ M, view s.disk M n = mark D (4096 * n + 8 * j + k) false (min left fuel) →
      AllBits D (4096 * n + 8 * j + k) true (min left fuel) →
      Q (left - fuel : Nat) (s.io s.disk M))
    (hE : ¬AllBits D (4096 * n + 8 * j + k) true (min left fuel) → ∀ e t, E e t) :
    wp (clearBits j fuel k (left : Nat)) Q E s := by
  induction fuel generalizing k left s D with
  | zero =>
    rw [clearBits, wp_pure]
    simp only [Nat.min_zero, mark_zero, Nat.sub_zero] at hQ
    exact hQ s.mem hV AllBits.zero
  | succ fuel ih =>
    have hk8 : k < 8 := by omega
    have hbit := bit_view (D := s.disk) (M := s.mem) (n := n) hj hk8
    have hV₁ := view_setBit (D := s.disk) (M := s.mem) (n := n) (v := false) hj hk8
    rw [hV] at hbit hV₁
    rw [clearBits, wp_ite]
    refine ⟨fun h0 => ?_, fun h0 => ?_⟩
    · obtain rfl : left = 0 := by omega
      simp only [Nat.zero_min, Nat.zero_sub, mark_zero] at hQ
      exact hQ s.mem hV AllBits.zero
    · have h1 : min left 1 = 1 := by omega
      rw [Nat.add_comm fuel 1, allBits_min, h1, allBits_one] at hE
      simp only [Nat.add_comm fuel 1, allBits_min, ← mark_min, h1, allBits_one, Nat.sub_add_eq]
        at hQ
      simp only [wp_bind, wp_bufAt, wp_assert, wp_setBuf, update_andNot hk8, ← hbit]
      refine ⟨fun hset => ?_, fun hclear => hE (hclear ·.1) _ _⟩
      have hrest : AllBits (mark D (4096 * n + 8 * j + k) false 1) (4096 * n + 8 * j + (k + 1))
          true (min (left - 1) fuel) ↔
          AllBits D (4096 * n + 8 * j + k + 1) true (min (left - 1) fuel) :=
        allBits_mark (by omega)
      rw [show (left : Int) - 1 = (left - 1 : Nat) by omega]
      exact ih (by omega) hV₁ (fun M hM hc => hQ M hM ⟨hset, hrest.mp hc⟩)
        fun hc => hE fun h => hc (hrest.mpr h.2)

/-- Going on to the next sector keeps the view. -/
theorem wp_nextSect {i : Nat} {Q : Nat × Int → Fs → Prop} (hi : i ≤ 512)
    (hn : 4096 * n + 8 * i < 4096 * (2 ^ 23 - 1)) (hV : view s.disk s.mem n = D)
    (hQ : ∀ d M i' n', i' < 512 → 4096 * n' + 8 * i' = 4096 * n + 8 * i → view d M n' = D →
      Q (i', (n' : Nat)) (s.io d M)) :
    wp (nextSect rootDev i (n : Nat)) Q E s := by
  rw [nextSect, wp_ite]
  refine ⟨fun h => ?_, fun h => ?_⟩
  · rw [sectorSize] at h
    rw [wp_bind, wp_wrSect_view (by omega), wp_bind, hV]
    refine wp_rdSect_view (n := n + 1) (by omega) fun M hM => ?_
    exact hQ D M 0 (n + 1) (by omega) (by omega) hM
  · rw [sectorSize] at h
    exact hQ s.disk s.mem i n (by omega) rfl hV

theorem wp_clearBytes {i : Nat} {bitsLeft : Int} {Q : Nat × Int × Int → Fs → Prop} (hi : i ≤ 512)
    (hn : 4096 * n + 8 * (i + fuel) < 4096 * (2 ^ 23 - 1)) (hV : view s.disk s.mem n = D)
    (hQ : ∀ d M i' n', i' ≤ 512 → 4096 * n' + 8 * i' = 4096 * n + 8 * i + 8 * fuel →
      view d M n' = mark D (4096 * n + 8 * i) false (8 * fuel) →
      AllBits D (4096 * n + 8 * i) true (8 * fuel) →
      Q (i', (n' : Nat), bitsLeft - (8 * fuel : Nat)) (s.io d M))
    (hE : ¬AllBits D (4096 * n + 8 * i) true (8 * fuel) → ∀ e t, E e t) :
    wp (clearBytes rootDev fuel i (n : Nat) bitsLeft) Q E s := by
  induction fuel generalizing i n bitsLeft s D with
  | zero =>
    rw [clearBytes, wp_pure]
    have := hQ s.disk s.mem i n hi rfl hV AllBits.zero
    rwa [show bitsLeft - (8 * 0 : Nat) = bitsLeft by omega] at this
  | succ fuel ih =>
    rw [show 8 * (fuel + 1) = 8 + 8 * fuel by omega] at hQ hE
    rw [allBits_add] at hE
    simp only [allBits_add, ← mark_mark] at hQ
    rw [clearBytes, wp_bind]
    refine wp_nextSect hi (by omega) hV fun d M i' n' hi' hpos hM => ?_
    have hfull := view_full (D := d) (M := M) (n := n') hi'
    have hV₁ := view_mark (D := d) (M := M) (n := n') (v := false)
      (show 8 * i' + 8 ≤ 4096 by omega)
    rw [hM, hpos] at hfull hV₁
    rw [← Nat.mul_add] at hV₁
    simp only [wp_bind, wp_bufAt, wp_assert, wp_setBuf, Fs.io_mem, Fs.io_disk, Fs.io_io, ← hfull]
    refine ⟨fun hset => ?_, fun hset => hE (hset ·.1) _ _⟩
    have hrest : AllBits (mark D (4096 * n + 8 * i) false 8) (4096 * n' + 8 * (i' + 1))
        true (8 * fuel) ↔ AllBits D (4096 * n + 8 * i + 8) true (8 * fuel) := by
      rw [show 4096 * n' + 8 * (i' + 1) = 4096 * n + 8 * i + 8 by omega]
      exact allBits_mark (by omega)
    refine ih (by omega) (by omega) (D := mark D (4096 * n + 8 * i) false 8)
      (by rw [Fs.io_disk, Fs.io_mem, update_zero, hV₁])
      (fun d' M' i'' n'' hi'' hpos' hM' hc => ?_) fun hc => hE fun h => hc (hrest.mpr h.2)
    rw [show 4096 * n' + 8 * (i' + 1) = 4096 * n + 8 * i + 8 by omega] at hM'
    have := hQ d' M' i'' n'' hi'' (by omega) hM' ⟨hset, hrest.mp hc⟩
    rwa [show bitsLeft - (8 + 8 * fuel : Nat) = bitsLeft - 8 - (8 * fuel : Nat) by omega] at this

theorem toNat_byteCnt (cnt k : Nat) (hk : k < 8) :
    (((cnt : Int) - (8 - (k : Int))).tdiv 8).toNat = (cnt - (8 - k)) / 8 := by
  by_cases h : 8 - k ≤ cnt
  · rw [show (cnt : Int) - (8 - (k : Int)) = (cnt - (8 - k) : Nat) by omega]
    rfl
  · have hneg : (cnt : Int) - (8 - (k : Int)) = -((8 - k - cnt : Nat) : Int) := by omega
    rw [hneg, Int.neg_tdiv, show ((8 - k - cnt : Nat) : Int).tdiv 8 = ((8 - k - cnt) / 8 : Nat)
      from rfl]
    omega

/-- The sector of the map in which bit `b` stands. -/
theorem SuperBlock.smapSect {sb : SuperBlock} {b : Nat} (h : sb.smapBase + b / 4096 < 2 ^ 31) :
    (2 + sb.nrImapSects + BitVec.ofInt 32 (((b / 8 : Nat) : Int).tdiv (sectorSize : Nat))).toInt =
      (sb.smapBase + b / 4096 : Nat) := by
  have hdiv : ((b / 8 : Nat) : Int).tdiv (sectorSize : Nat) = (b / 4096 : Nat) := by
    rw [tdiv_natCast, sectorSize, Nat.div_div_eq_div_mul]
  rw [hdiv, BitVec.ofInt_natCast]
  rw [smapBase] at *
  rw [show (1 + 1 + sb.nrImapSects) = 2 + sb.nrImapSects from rfl] at *
  have hadd : (2 + sb.nrImapSects + BitVec.ofNat 32 (b / 4096)).toNat =
      (2 + sb.nrImapSects).toNat + b / 4096 := by
    rw [BitVec.toNat_add, BitVec.toNat_ofNat]
    omega
  rw [BitVec.toInt_eq_toNat_of_lt (by rw [hadd]; omega), hadd]

/-- The bits of a file are cleared, or they were not all set. -/
theorem wp_freeSmapBits {sb : SuperBlock} {b cnt : Nat}
    (hb : 4096 * sb.smapBase + b + cnt + 8 < 4096 * (2 ^ 23 - 1))
    (hQ : ∀ M, AllBits s.disk (4096 * sb.smapBase + b) true cnt →
      Q () (s.io (mark s.disk (4096 * sb.smapBase + b) false cnt) M))
    (hE : ¬AllBits s.disk (4096 * sb.smapBase + b) true cnt → ∀ e t, E e t) :
    wp (freeSmapBits rootDev sb (b : Nat) (cnt : Nat)) Q E s := by
  have hk : b % 8 < 8 := by omega
  have hj : b / 8 % 512 < 512 := by omega
  have hpos : 4096 * (sb.smapBase + b / 4096) + 8 * (b / 8 % 512) + b % 8 =
      4096 * sb.smapBase + b := by omega
  simp only [freeSmapBits]
  rw [show (b : Int).tdiv 8 = (b / 8 : Nat) from rfl, show (b : Int).tmod 8 = (b % 8 : Nat) from rfl,
    SuperBlock.smapSect (by omega), toNat_byteCnt _ _ hk, tmod_natCast, sectorSize, wp_bind]
  refine wp_rdSect_view (by omega) fun M hV => ?_
  rw [wp_bind, wp_natOf_natCast, wp_bind, wp_natOf_natCast, wp_bind]
  generalize b / 8 % 512 = j at hj hpos ⊢
  generalize b % 8 = k at hk hpos ⊢
  generalize sb.smapBase + b / 4096 = n at hpos hV ⊢
  -- the first byte, the whole bytes and the last byte
  generalize hp : 4096 * sb.smapBase + b = p at hpos hQ hE hb
  generalize hrest : cnt - (8 - k) = rest
  have hcnt : cnt = min cnt ((8 - k) + rest) := by omega
  have hlast : min rest rest = 8 * (rest / 8) + rest % 8 := by omega
  have hnext : p + (8 - k) = 4096 * n + 8 * (j + 1) := by omega
  have hmark : mark s.disk p false cnt = mark (mark (mark s.disk p false (min cnt (8 - k)))
      (p + (8 - k)) false (8 * (rest / 8))) (p + (8 - k) + 8 * (rest / 8)) false (rest % 8) := by
    rw [mark_mark, ← hlast]
    conv_lhs => rw [hcnt]
    rw [← mark_min, hrest]
  have hall : AllBits s.disk p true cnt ↔ AllBits s.disk p true (min cnt (8 - k)) ∧
      AllBits s.disk (p + (8 - k)) true (8 * (rest / 8)) ∧
      AllBits s.disk (p + (8 - k) + 8 * (rest / 8)) true (rest % 8) := by
    rw [← allBits_add, ← hlast]
    conv_lhs => rw [hcnt]
    rw [allBits_min, hrest]
  rw [hmark, hall, hnext] at hQ
  rw [hall, hnext] at hE
  refine wp_clearBits (by omega) hj hV (fun M₁ hM₁ hc₁ => ?_) fun hc => hE fun h => hc ?_
  rotate_left
  · rw [hpos]
    exact h.1
  simp only [Fs.io_disk, hpos] at hM₁ hc₁
  rw [hrest, wp_bind]
  have hfirst {v : Bool} {m lo : Nat} (h : 4096 * n + 8 * (j + 1) ≤ lo) :
      AllBits (mark s.disk p false (min cnt (8 - k))) lo v m ↔ AllBits s.disk lo v m :=
    allBits_mark (by omega)
  refine wp_clearBytes (n := n) (i := j + 1) (by omega) (by omega) hM₁
    (fun d₂ M₂ i₂ n₂ hi₂ hpos₂ hM₂ hc₂ => ?_)
    fun hc => hE fun h => hc ((hfirst le_rfl).mpr h.2.1)
  rw [hfirst le_rfl] at hc₂
  rw [wp_bind]
  refine wp_nextSect hi₂ (by omega) hM₂ fun d₃ M₃ i₃ n₃ hi₃ hpos₃ hM₃ => ?_
  have hleft : (rest : Int) - (8 * (rest / 8) : Nat) = (rest % 8 : Nat) := by omega
  rw [hleft, wp_bind, wp_natOf_natCast]
  have hr : rest % 8 < 8 := by omega
  generalize hq : 4096 * n + 8 * (j + 1) + 8 * (rest / 8) = q at hQ hE hpos₂
  have hbits : (∀ x < rest % 8, (M₃ (fsbuf + i₃)).getLsbD x = true) ↔
      AllBits s.disk q true (rest % 8) := by
    rw [← hfirst (by omega), ← allBits_mark (m := mark s.disk p false (min cnt (8 - k)))
      (w := false) (p := 8 * (rest / 8)) (q := 4096 * n + 8 * (j + 1)) (by omega), ← hM₃]
    constructor
    · intro h x hx hx'
      have := bit_view (D := d₃) (M := M₃) (n := n₃) hi₃ (show x - q < 8 by omega)
      rw [show 4096 * n₃ + 8 * i₃ + (x - q) = x by omega] at this
      rw [this]
      exact h _ (by omega)
    · intro h x hx
      rw [← bit_view (D := d₃) (M := M₃) (n := n₃) hi₃ (show x < 8 by omega)]
      exact h _ (by omega) (by omega)
  simp only [wp_bind, wp_bufAt, wp_assert, wp_setBuf, Fs.io_mem, Fs.io_disk, Fs.io_io]
  rw [and_lowMask hr.le, hbits, update_clearLow hr.le]
  refine ⟨fun hset => ?_, fun hset => hE (hset ·.2.2) _ _⟩
  have hV₃ := view_mark (D := d₃) (M := M₃) (n := n₃) (v := false)
    (show 8 * i₃ + rest % 8 ≤ 4096 by omega)
  rw [hM₃, ← Nat.mul_add, show 4096 * n₃ + 8 * i₃ = q by omega] at hV₃
  rw [wp_wrSect_view (by omega), Fs.io_disk, Fs.io_mem, Fs.io_io, hV₃]
  exact hQ _ ⟨hc₁, hc₂, hset⟩

/-! ## Marking the log -/

theorem wp_markLogBytes {Q : Nat → Fs → Prop} (hj : j + fuel = 512) (hk : k < 8)
    (hk0 : fuel = 0 → k = 0) (hV : view s.disk s.mem n = D)
    (hQ : ∀ M, view s.disk M n = mark D (4096 * n + 8 * j + k) true (min left (8 * fuel - k)) →
      AllBits D (4096 * n + 8 * j + k) false (min left (8 * fuel - k)) →
      Q (left - (8 * fuel - k)) (s.io s.disk M))
    (hE : ¬AllBits D (4096 * n + 8 * j + k) false (min left (8 * fuel - k)) → ∀ e t, E e t) :
    wp (markLogBytes fuel j k left) Q E s := by
  induction fuel generalizing j k left s D with
  | zero =>
    rw [markLogBytes, wp_pure]
    simp only [Nat.mul_zero, Nat.zero_sub, Nat.min_zero, mark_zero, Nat.sub_zero] at hQ
    exact hQ s.mem hV AllBits.zero
  | succ fuel ih =>
    rw [markLogBytes, wp_ite]
    refine ⟨fun h0 => ?_, fun h0 => ?_⟩
    · simp only [h0, Nat.zero_min, Nat.zero_sub] at hQ
      rw [wp_pure, h0]
      exact hQ s.mem hV AllBits.zero
    · have hsize : 8 * (fuel + 1) - k = (8 - k) + 8 * fuel := by omega
      have hnext : 4096 * n + 8 * j + k + (8 - k) = 4096 * n + 8 * (j + 1) := by omega
      rw [hsize, allBits_min, hnext] at hE
      simp only [hsize, allBits_min, ← mark_min, Nat.sub_add_eq, hnext] at hQ
      have hrest : AllBits (mark D (4096 * n + 8 * j + k) true (min left (8 - k)))
          (4096 * n + 8 * (j + 1)) false (min (left - (8 - k)) (8 * fuel)) ↔
          AllBits D (4096 * n + 8 * (j + 1)) false (min (left - (8 - k)) (8 * fuel)) :=
        allBits_mark (by omega)
      rw [wp_bind]
      refine wp_takeBits (by omega) (by omega) (by omega) hV (fun M hM hc => ?_)
        fun hc => hE (hc ·.1)
      exact ih (by omega) (by omega) (fun _ => rfl) hM
        (fun M' hM' hc' => hQ M' hM' ⟨hc, hrest.mp hc'⟩) fun hc' => hE fun h => hc' (hrest.mpr h.2)

theorem wp_markLogSects {Q : Nat → Fs → Prop} (hj : j < 512) (hk : k < 8) (hn : n + fuel ≤ 2 ^ 23)
    (hQ : ∀ M, AllBits s.disk (4096 * n + 8 * j + k) false (min left (4096 * fuel - (8 * j + k))) →
      Q (left - (4096 * fuel - (8 * j + k))) (s.io
        (mark s.disk (4096 * n + 8 * j + k) true (min left (4096 * fuel - (8 * j + k)))) M))
    (hE : ¬AllBits s.disk (4096 * n + 8 * j + k) false (min left (4096 * fuel - (8 * j + k))) →
      ∀ e t, E e t) :
    wp (markLogSects rootDev fuel (n : Nat) j k left) Q E s := by
  induction fuel generalizing n j k left s with
  | zero =>
    rw [markLogSects, wp_pure]
    simp only [Nat.mul_zero, Nat.zero_sub, Nat.min_zero, mark_zero, Nat.sub_zero] at hQ
    exact hQ s.mem AllBits.zero
  | succ fuel ih =>
    have hsize : 4096 * (fuel + 1) - (8 * j + k) = (4096 - (8 * j + k)) + 4096 * fuel := by omega
    have hnext : 4096 * n + 8 * j + k + (4096 - (8 * j + k)) = 4096 * (n + 1) := by omega
    rw [hsize, allBits_min, hnext] at hE
    simp only [hsize, allBits_min, ← mark_min, Nat.sub_add_eq _ (4096 - (8 * j + k)), hnext] at hQ
    have hbytes : 8 * (512 - j) - k = 4096 - (8 * j + k) := by omega
    rw [markLogSects, wp_bind]
    refine wp_rdSect_view (by omega) fun M hV => ?_
    rw [wp_bind, sectorSize]
    refine wp_markLogBytes (by omega) hk (by omega) hV ?_ ?_
    · rw [hbytes]
      intro M' hM hc
      generalize left - (4096 - (8 * j + k)) = rest at hQ hE ⊢
      simp only [Fs.io_disk] at hM
      rw [wp_bind, wp_wrSect_view (by omega), Fs.io_disk, Fs.io_mem, Fs.io_io, Fs.io_io,
        Fs.io_disk, hM, wp_ite]
      refine ⟨fun h0 => ?_, fun h0 => ?_⟩
      · simp only [h0, Nat.zero_min, Nat.zero_sub, mark_zero] at hQ
        rw [wp_pure, h0]
        exact hQ M' ⟨hc, AllBits.zero⟩
      · have hrest : AllBits (mark s.disk (4096 * n + 8 * j + k) true
            (min left (4096 - (8 * j + k)))) (4096 * (n + 1)) false (min rest (4096 * fuel)) ↔
            AllBits s.disk (4096 * (n + 1)) false (min rest (4096 * fuel)) :=
          allBits_mark (by omega)
        rw [show ((n : Nat) : Int) + 1 = (n + 1 : Nat) by omega]
        refine ih (n := n + 1) (j := 0) (k := 0) (by omega) (by omega) (by omega) ?_ ?_
        · simp only [Nat.mul_zero, Nat.add_zero, Nat.sub_zero]
          exact fun M hc' => hQ M ⟨hc, hrest.mp hc'⟩
        · simp only [Nat.mul_zero, Nat.add_zero, Nat.sub_zero]
          exact fun hc' => hE fun h => hc' (hrest.mpr h.2)
    · rw [hbytes]
      exact fun hc => hE (hc ·.1)

/-- The log's bits are in two sectors of the map at most. -/
theorem wp_markLog_iff {sb : SuperBlock} {b : Nat} {Q : Unit → Fs → Prop}
    (hb : sb.smapBase + b / 4096 + 2 ≤ 2 ^ 23) : wp (markLog rootDev sb (b : Nat)) Q E s ↔
      wp (markLogSects rootDev 2 (sb.smapBase + b / 4096 : Nat) (b % 4096 / 8) (b % 4096 % 8)
        nrSectsForLog) (fun left u => wp (assert "bits_left == 0" (left = 0)) Q E u) E s := by
  have hbits : sectorBits = 4096 := rfl
  have hcnt : nrSectsForLog / 4096 + 2 = 2 := by decide
  simp only [markLog, hbits, hcnt]
  rw [tmod_natCast, tdiv_natCast, show ((b % 4096 : Nat) : Int).tdiv 8 = (b % 4096 / 8 : Nat)
    from rfl, show ((b % 4096 : Nat) : Int).tmod 8 = (b % 4096 % 8 : Nat) from rfl, wp_bind,
    wp_natOf_natCast, wp_bind, wp_natOf_natCast, SuperBlock.toInt_smapBase (by omega), wp_bind,
    ← Nat.cast_add]

/-- The log's bits are set, or they were not all clear. -/
theorem wp_markLog {sb : SuperBlock} {b : Nat} (hb : sb.smapBase + b / 4096 + 2 ≤ 2 ^ 23)
    (hQ : ∀ M, AllBits s.disk (4096 * sb.smapBase + b) false nrSectsForLog →
      Q () (s.io (mark s.disk (4096 * sb.smapBase + b) true nrSectsForLog) M))
    (hE : ¬AllBits s.disk (4096 * sb.smapBase + b) false nrSectsForLog → ∀ e t, E e t) :
    wp (markLog rootDev sb (b : Nat)) Q E s := by
  have hpos : 4096 * (sb.smapBase + b / 4096) + 8 * (b % 4096 / 8) + b % 4096 % 8 =
      4096 * sb.smapBase + b := by omega
  have hlen : min nrSectsForLog (4096 * 2 - (8 * (b % 4096 / 8) + b % 4096 % 8)) =
      nrSectsForLog := by
    rw [nrSectsForLog, nrDefaultFileSects]
    omega
  have hleft : nrSectsForLog - (4096 * 2 - (8 * (b % 4096 / 8) + b % 4096 % 8)) = 0 := by
    rw [nrSectsForLog, nrDefaultFileSects]
    omega
  rw [wp_markLog_iff hb]
  refine wp_markLogSects (by omega) (by omega) (by omega) ?_ ?_
  · rw [hpos, hlen, hleft]
    exact fun M hc => (wp_assert_of rfl).mpr (hQ M hc)
  · rw [hpos, hlen]
    exact hE

end Dlos
