import Dlos.Lib.Format

/-!
# Numbers on the screen (`klib.c`)

`itoa` walks over the nibbles of a number from the top, `vsprintf` divides by the base.
-/

namespace Dlos

open Bytes

namespace Itoa

/-- The character of a nibble. -/
def digit (ch : Byte) : Byte :=
  let ch := ch + chr '0'
  if ch.toInt > (chr '9').toInt then ch + 7 else ch

/-- The loop, with so many nibbles left; the text so far ends at `p`. -/
def loop (num : BitVec 32) : Nat → Bool → List Byte → List Byte
  | 0, _, p => p
  | i + 1, flag, p =>
    let ch : Byte := (num.sshiftRight (4 * i) &&& 0xF).truncate 8
    if flag ∨ ch.toInt > 0 then loop num i true (p ++ [digit ch]) else loop num i flag p

end Itoa

/-- What is in `str` afterwards. -/
def itoa (num : BitVec 32) : List Byte :=
  let p := [chr '0', chr 'x']
  (if num = 0 then p ++ [chr '0'] else Itoa.loop num 8 false p) ++ [0]

/-! ## `itoa` -/

section

variable {num : BitVec 32} {i m : Nat} {flag : Bool} {p : List Byte}

theorem Itoa.digit_of_lt (h : m < 16) :
    Itoa.digit (BitVec.ofNat 8 m) = chr m.digitChar.toUpper := by
  revert m
  decide

theorem Itoa.getElem_mask : ∀ j : Fin 32, (0xF#32)[j.val] = decide (j.val < 4) := by decide

/-- The nibble at bit `4 * i`. The sign comes in from above only. -/
theorem Itoa.nibble (h : i < 8) : (num.sshiftRight (4 * i) &&& 0xF#32).truncate 8 =
    BitVec.ofNat 8 (num.toNat / 16 ^ i % 16) := by
  have hbits : num.sshiftRight (4 * i) &&& 0xF#32 = num >>> (4 * i) &&& 0xF#32 := by
    ext j hj
    by_cases hj4 : j < 4
    · simp [BitVec.getElem_sshiftRight, show 4 * i + j < 32 by omega]
    · have hmask : (0xF#32)[j] = false := (Itoa.getElem_mask ⟨j, hj⟩).trans (decide_eq_false hj4)
      simp only [BitVec.getElem_and, hmask, Bool.and_false]
  have hmod (n : Nat) : n &&& 15 = n % 16 := Nat.and_two_pow_sub_one_eq_mod n 4
  rw [hbits]
  apply BitVec.eq_of_toNat_eq
  simp only [BitVec.truncate_eq_setWidth, BitVec.toNat_setWidth, BitVec.toNat_and, BitVec.toNat_ushiftRight,
    BitVec.toNat_ofNat, Nat.reducePow, Nat.reduceMod, hmod, Nat.shiftRight_eq_div_pow, pow_mul]

theorem Itoa.toInt_nibble (h : m < 16) : (BitVec.ofNat 8 m).toInt > 0 ↔ m ≠ 0 := by
  revert m
  decide

theorem Itoa.loop_succ (h : i < 8) : Itoa.loop num (i + 1) flag p =
    if flag = true ∨ num.toNat / 16 ^ i % 16 ≠ 0 then
      Itoa.loop num i true (p ++ [chr (num.toNat / 16 ^ i % 16).digitChar.toUpper])
    else Itoa.loop num i flag p := by
  have hm : num.toNat / 16 ^ i % 16 < 16 := Nat.mod_lt _ (by omega)
  have hpos : ((num.sshiftRight (4 * i) &&& 0xF#32).truncate 8).toInt > 0 ↔
      num.toNat / 16 ^ i % 16 ≠ 0 := by
    rw [Itoa.nibble h]
    exact Itoa.toInt_nibble hm
  rw [← Itoa.digit_of_lt hm, ← Itoa.nibble h]
  exact if_congr (or_congr_right hpos) rfl rfl

/-- The numeral of a number that may be missing: 0 has no digits. -/
def digits (base n : Nat) : List Byte := if n = 0 then [] else numeral base n

/-- The last digit. -/
theorem digits_of_ne_zero {base n : Nat} (hb : 1 < base) (hn : n ≠ 0) :
    digits base n = digits base (n / base) ++ [chr (n % base).digitChar.toUpper] := by
  unfold digits
  rw [if_neg hn]
  split_ifs with hq
  · have hlt : n < base := (Nat.div_eq_zero_iff.mp hq).resolve_left (by omega)
    rw [numeral_of_lt hlt, Nat.mod_eq_of_lt hlt]
    rfl
  · have hle : base ≤ n := by
      by_contra hlt
      exact hq (Nat.div_eq_of_lt (not_le.mp hlt))
    exact numeral_of_le hb hle

/-- The digits that the loop has written are those of the nibbles it has seen. -/
theorem Itoa.loop_eq (h : i ≤ 8) :
    Itoa.loop num i (num.toNat / 16 ^ i ≠ 0) (p ++ digits 16 (num.toNat / 16 ^ i)) =
      p ++ digits 16 num.toNat := by
  induction i with
  | zero => simp [Itoa.loop]
  | succ i ih =>
    rw [← ih (by omega), Itoa.loop_succ (by omega), pow_succ, ← Nat.div_div_eq_div_mul]
    generalize num.toNat / 16 ^ i = n
    have hcond : decide (n / 16 ≠ 0) = true ∨ n % 16 ≠ 0 ↔ n ≠ 0 := by
      rw [decide_eq_true_eq]
      omega
    by_cases hn : n = 0
    · rw [if_neg (mt hcond.mp (not_not.mpr hn)), hn]
    · rw [if_pos (hcond.mpr hn), List.append_assoc, ← digits_of_ne_zero (by omega) hn,
        decide_eq_true hn]

/-- `itoa` writes every number. -/
theorem itoa_eq : itoa num = chr '0' :: chr 'x' :: numeral 16 num.toNat ++ [0] := by
  unfold itoa
  have htop : num.toNat / 16 ^ 8 = 0 := Nat.div_eq_of_lt num.isLt
  by_cases hnum : num = 0
  · subst hnum
    rfl
  · have hne : num.toNat ≠ 0 := fun h => hnum (BitVec.eq_of_toNat_eq h)
    have hloop := @Itoa.loop_eq num 8 [chr '0', chr 'x'] (le_refl 8)
    simp only [htop, ne_eq, not_true_eq_false, decide_false, digits, if_true, if_neg hne,
      List.append_nil] at hloop
    simp only [if_neg hnum, hloop]
    rfl

/-! ## The two kinds of numbers -/

/-- A conversion of one argument. -/
def conversion (c : Byte) : List Byte := [chr '%', c]

/-- The text of a number with a sign. -/
def decimalText (v : Int) : List Byte := (if v < 0 then [chr '-'] else []) ++ numeral 10 v.natAbs

/-- Both implementations write the number as it is, wherever its arguments come from. -/
structure NumbersRight (v : BitVec 32) : Prop where
  decimal : ∀ mem args, ∃ n, vsprintf mem (conversion (chr 'd')) (v :: args) =
    .ok (decimalText v.toInt ++ [0], n)
  hex : ∀ mem args, ∃ n, vsprintf mem (conversion (chr 'x')) (v :: args) =
    .ok (numeral 16 v.toNat ++ [0], n)
  agree : ∀ mem args buf n, vsprintf mem (conversion (chr 'x')) (v :: args) = .ok (buf, n) →
    itoa v = chr '0' :: chr 'x' :: buf

variable {mem : Store} {args : List Arg} {a v : Arg} {c : Byte}

theorem vsprintf_conversion (h : c = chr 'x' ∨ c = chr 'd') :
    vsprintf mem (conversion c) (a :: args) =
      .ok (Vsprintf.argText mem c a ++ [0], BitVec.ofNat 32 (Vsprintf.argText mem c a).length) := by
  have htakes : takesArg c = true := by rcases h with rfl | rfl <;> decide
  have hs : c ≠ chr 's' := by rcases h with rfl | rfl <;> decide
  have hpercent : ([c].head? : Option Byte) ≠ some (chr '%') := by rcases h with rfl | rfl <;> decide
  have hat : atConv [c] = [c] := by rcases h with rfl | rfl <;> decide
  have hwidth : (unflagged [c]).takeWhile isDigit = [] := by rcases h with rfl | rfl <;> decide
  have hpad : pad (flag [c]) 0 (Vsprintf.argText mem c a) = Vsprintf.argText mem c a := by
    rw [pad, Nat.zero_sub]
    rfl
  rw [vsprintf, conversion]
  change (do
    let p ← Vsprintf.loop mem 3 [chr '%', c] (a :: args) []
    pure (p ++ [0], BitVec.ofNat 32 p.length)) = _
  rw [loop_of_percent, directive_eq hpercent, hat, deChar_cons,
    innerBuf_of_takesArg htakes fun hc => absurd hc hs, hwidth]
  change (do
    let p ← Vsprintf.loop mem 2 [] args
      ([] ++ (List.replicate ((BitVec.ofNat 32 0).toInt - (Vsprintf.argText mem c a).length).toNat
        (if flag [c] then chr '0' else chr ' ') ++ Vsprintf.argText mem c a))
    pure (p ++ [0], BitVec.ofNat 32 p.length)) = _
  rw [replicate_width (by decide), hpad]
  rfl

/-- `i2a` writes the numbers that it can write, and spoils the others. -/
theorem vsprintf_conversion_iff (h : c = chr 'x' ∨ c = chr 'd') :
    (∃ n, vsprintf mem (conversion c) (v :: args) = .ok (argText mem c v ++ [0], n)) ↔
      Writable c v := by
  rw [vsprintf_conversion h]
  constructor
  · rintro ⟨n, hn⟩
    by_contra hw
    exact (clash_of_not_writable hw).append_ne (Prod.mk.inj (Except.ok.inj hn)).1
  · intro hw
    rw [argText_of_writable hw]
    exact ⟨_, rfl⟩

theorem writable_hex : Writable (chr 'x') v ↔ 0 ≤ v.toInt :=
  ⟨fun h => h.1 rfl, fun h => ⟨fun _ => h, fun hc => absurd hc (by decide)⟩⟩

theorem writable_decimal : Writable (chr 'd') v ↔ v.toInt ≠ -2 ^ 31 :=
  ⟨fun h => h.2 rfl, fun h => ⟨fun hc => absurd hc (by decide), fun _ => h⟩⟩

theorem vsprintf_decimal_iff : (∃ n, vsprintf mem (conversion (chr 'd')) (v :: args) =
    .ok (decimalText v.toInt ++ [0], n)) ↔ v.toInt ≠ -2 ^ 31 :=
  (vsprintf_conversion_iff (.inr rfl)).trans writable_decimal

theorem vsprintf_hex_iff : (∃ n, vsprintf mem (conversion (chr 'x')) (v :: args) =
    .ok (numeral 16 v.toNat ++ [0], n)) ↔ 0 ≤ v.toInt :=
  (vsprintf_conversion_iff (.inl rfl)).trans writable_hex

/-- `%x` and `itoa` write a number that is not negative alike, and `%d` writes it too; `%x` divides
a negative number with its sign. -/
theorem numbersRight_iff : NumbersRight v ↔ 0 ≤ v.toInt := by
  constructor
  · intro h
    exact vsprintf_hex_iff.mp (h.hex (fun _ => 0) [])
  · intro hv
    refine ⟨fun mem args => vsprintf_decimal_iff.mpr (by omega),
      fun mem args => vsprintf_hex_iff.mpr hv, fun mem args buf n hn => ?_⟩
    obtain ⟨n', hhex⟩ := (@vsprintf_hex_iff mem args v).mpr hv
    rw [hhex] at hn
    rw [itoa_eq, ← (Prod.mk.inj (Except.ok.inj hn)).1]
    rfl

/-- The number that is all ones: `%x` writes the character before `0`. -/
theorem not_numbersRight_neg_one : ¬NumbersRight (-1) := fun h => by
  have hneg := vsprintf_hex_iff.mp (h.hex (fun _ => 0) [])
  exact absurd hneg (by decide)

end

end Dlos
