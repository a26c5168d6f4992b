import Dlos.Lib.Vsprintf

/-!
# The format language

A format is a list of pieces. `vsprintf` writes them one after the other, unless the last one breaks
off: then it reads on behind the format.
-/

namespace Dlos

open Bytes

/-! ## The language -/

inductive Piece
  /-- A character that stands for itself. -/
  | char (c : Byte)
  /-- `%%` -/
  | percent
  /-- `%`, a flag, the digits of a width and the character of a conversion, if it is there. -/
  | directive (zero : Bool) (width : List Byte) (conv : Option Byte)
  deriving DecidableEq

/-- How a piece is written. -/
def Piece.source : Piece → List Byte
  | .char c => [c]
  | .percent => [chr '%', chr '%']
  | .directive zero width conv =>
    chr '%' :: (if zero then [chr '0'] else []) ++ width ++ conv.toList

/-- A `0` comes first. -/
def flag (fmt : List Byte) : Bool := fmt.head? = some (chr '0')

/-- What stands behind the flag. -/
def unflagged (fmt : List Byte) : List Byte := if flag fmt then fmt.tail else fmt

theorem length_unflagged {fmt : List Byte} : (unflagged fmt).length ≤ fmt.length := by
  unfold unflagged
  split <;> simp

def pieces : List Byte → List Piece
  | [] => []
  | c :: fmt =>
    if c ≠ chr '%' then .char c :: pieces fmt
    else if fmt.head? = some (chr '%') then .percent :: pieces fmt.tail
    else
      .directive (flag fmt) ((unflagged fmt).takeWhile isDigit)
          ((unflagged fmt).dropWhile isDigit).head? ::
        pieces ((unflagged fmt).dropWhile isDigit).tail
  termination_by fmt => fmt.length
  decreasing_by
  · simp
  · simp only [List.length_tail, List.length_cons]
    omega
  · have := (List.dropWhile_suffix (l := unflagged fmt) isDigit).length_le
    have : (unflagged fmt).length ≤ fmt.length := length_unflagged
    simp only [List.length_tail, List.length_cons]
    omega

/-- The number with these digits. -/
def decimal (digits : List Byte) : Nat := digits.foldl (fun n c => 10 * n + (c.toNat - 0x30)) 0

/-- A number in writing. -/
def numeral (base n : Nat) : List Byte := (Nat.toDigits base n).map fun c => chr c.toUpper

/-- The characters that take an argument. -/
def takesArg (c : Byte) : Bool := [chr 'c', chr 'x', chr 'd', chr 's'].contains c

/-- What a conversion makes of its argument. -/
def argText (mem : Store) (c : Byte) (a : Arg) : List Byte :=
  if c = chr 'c' then cString [a.setWidth 8]
  else if c = chr 'x' then numeral 16 a.toNat
  else if c = chr 'd' then (if a.toInt < 0 then [chr '-'] else []) ++ numeral 10 a.toInt.natAbs
  else Vsprintf.stringAt mem a

/-- `text`, padded on the left. -/
def pad (zero : Bool) (width : Nat) (text : List Byte) : List Byte :=
  List.replicate (width - text.length) (if zero then chr '0' else chr ' ') ++ text

/-- The conversion of a piece, if it takes an argument. -/
def Piece.takes : Piece → Option Byte
  | .directive _ _ (some c) => if takesArg c then some c else none
  | _ => none

/-- The pieces as text, where `text` says what becomes of the arguments. -/
def render (text : Byte → Arg → List Byte) : List Piece → List Arg → List Byte
  | [], _ => []
  | .char c :: ps, args => c :: render text ps args
  | .percent :: ps, args => chr '%' :: render text ps args
  | .directive zero width conv :: ps, args =>
    match (Piece.directive zero width conv).takes with
    | some c => pad zero (decimal width) (text c (args.headD 0)) ++ render text ps args.tail
    | none => pad zero (decimal width) [] ++ render text ps args

/-- The conversions of a format, each with its argument. -/
def converted (ps : List Piece) (args : List Arg) : List (Byte × Arg) :=
  (ps.filterMap Piece.takes).zip args

/-- What the caller sees to. -/
structure FormatCall (mem : Store) (fmt : List Byte) (args : List Arg) : Prop where
  ended : 0 ∉ fmt
  enough : ((pieces fmt).filterMap Piece.takes).length ≤ args.length
  strings : ∀ a, (chr 's', a) ∈ converted (pieces fmt) args →
    (Vsprintf.stringAt mem a).length < strDefaultLen
  room : (render (argText mem) (pieces fmt) args).length < 2 ^ 31

/-- `vsprintf` ends, and reads nothing behind the format; the text is that of the pieces, and its length
is returned. -/
def Formats (mem : Store) (fmt : List Byte) (args : List Arg) : Prop :=
  ∃ buf n, vsprintf mem fmt args = .ok (buf, n) ∧
    cString buf = render (argText mem) (pieces fmt) args ∧ n.toInt = (cString buf).length

/-- No directive breaks off. -/
def Complete (ps : List Piece) : Prop := ∀ zero width, Piece.directive zero width none ∉ ps

/-- A number that `i2a` can write, in this conversion. -/
def Writable (c : Byte) (a : Arg) : Prop :=
  (c = chr 'x' → 0 ≤ a.toInt) ∧ (c = chr 'd' → a.toInt ≠ -2 ^ 31)

/-! ## Numbers -/

section

variable {base n k calls : Nat} {val : Int} {c : Byte}

/-- The last digit of a number. -/
theorem chr_digitChar {m : Nat} (hm : m < 16) : chr m.digitChar.toUpper =
    if (m : Int) < 10 then BitVec.ofInt 8 (m + 0x30) else BitVec.ofInt 8 (m - 10 + 0x41) := by
  revert m
  decide

theorem numeral_of_lt (h : n < base) : numeral base n = [chr n.digitChar.toUpper] := by
  rw [numeral, Nat.toDigits_of_lt_base h]
  rfl

theorem numeral_of_le (hb : 1 < base) (h : base ≤ n) :
    numeral base n = numeral base (n / base) ++ [chr (n % base).digitChar.toUpper] := by
  rw [numeral, Nat.toDigits_of_base_le hb h, List.map_append]
  rfl

/-- The first digits of a long number. -/
theorem exists_numeral_eq (hb : 1 < base) (h : base ^ k ≤ n) :
    ∃ l, l.length = k ∧ numeral base n = numeral base (n / base ^ k) ++ l := by
  induction k generalizing n with
  | zero => exact ⟨[], rfl, by simp⟩
  | succ k ih =>
    have hle : base ≤ n := le_trans (Nat.le_self_pow (by omega) base) h
    have hdiv : base ^ k ≤ n / base := by
      rw [Nat.le_div_iff_mul_le (by omega), ← pow_succ]
      exact h
    obtain ⟨l, hl, heq⟩ := ih hdiv
    refine ⟨l ++ [chr (n % base).digitChar.toUpper], by simp [hl], ?_⟩
    rw [numeral_of_le hb hle, heq, List.append_assoc, Nat.div_div_eq_div_mul, ← pow_succ']

theorem i2a_succ (hb : base ≤ 16) (hpos : 0 < base) :
    Vsprintf.i2a base (calls + 1) n =
      (if n / base ≠ 0 then Vsprintf.i2a base calls (n / base : Nat) else []) ++
        [chr (n % base).digitChar.toUpper] := by
  have hlt : n % base < base := Nat.mod_lt n hpos
  have hquot : ((n / base : Nat) : Int) ≠ 0 ↔ n / base ≠ 0 := Nat.cast_ne_zero
  rw [Vsprintf.i2a, chr_digitChar (by omega)]
  change (if ((n / base : Nat) : Int) ≠ 0 then _ else _) ++ _ = _
  rw [if_congr hquot rfl rfl]
  rfl

/-- `i2a` writes a number that is not negative. -/
theorem i2a_natCast (hb : 1 < base) (hb' : base ≤ 16) (h : n < 2 ^ (calls + 1)) :
    Vsprintf.i2a base (calls + 1) n = numeral base n := by
  induction calls generalizing n with
  | zero =>
    have hlt : n < base := by omega
    rw [i2a_succ hb' (by omega), Nat.div_eq_of_lt hlt, Nat.mod_eq_of_lt hlt, numeral_of_lt hlt]
    rfl
  | succ calls ih =>
    rw [i2a_succ hb' (by omega)]
    by_cases hlt : n < base
    · rw [Nat.div_eq_of_lt hlt, Nat.mod_eq_of_lt hlt, numeral_of_lt hlt]
      rfl
    · have hle : base ≤ n := Nat.le_of_not_lt hlt
      have hquot : n / base < 2 ^ (calls + 1) := by
        rw [Nat.div_lt_iff_lt_mul (by omega)]
        calc n < 2 ^ (calls + 1) * 2 := by rwa [← pow_succ]
          _ ≤ 2 ^ (calls + 1) * base := Nat.mul_le_mul_left _ hb
      have hne : n / base ≠ 0 := (Nat.div_pos hle (by omega)).ne'
      rw [if_pos hne, ih hquot, numeral_of_le hb hle]

/-- No digit is a 0 byte, and those of a number that is not positive are no letters. -/
theorem toNat_i2a (hb : 1 < base) (hb' : base ≤ 16) (hc : c ∈ Vsprintf.i2a base calls val) :
    c ≠ 0 ∧ (val ≤ 0 → c.toNat ≤ 0x30) := by
  induction calls generalizing val with
  | zero => simp [Vsprintf.i2a] at hc
  | succ calls ih =>
    have hlow : -(base : Int) < val.tmod base := Int.lt_tmod_of_pos val (by omega)
    have hhigh : val.tmod base < base := Int.tmod_lt_of_pos val (by omega)
    have hneg (h : val ≤ 0) : val.tmod base ≤ 0 ∧ val.tdiv base ≤ 0 := by
      obtain ⟨k, rfl⟩ := Int.exists_eq_neg_ofNat h
      rw [Int.neg_tmod, Int.neg_tdiv, ← Int.ofNat_tmod, ← Int.ofNat_tdiv]
      exact ⟨Int.neg_nonpos_of_nonneg (Int.natCast_nonneg _),
        Int.neg_nonpos_of_nonneg (Int.natCast_nonneg _)⟩
    rw [Vsprintf.i2a, List.mem_append] at hc
    rcases hc with hc | hc
    · split at hc
      · exact ⟨(ih hc).1, fun h => (ih hc).2 (hneg h).2⟩
      · simp at hc
    · have hval : ∀ x : Int, 0 < x → x < 256 → (BitVec.ofInt 8 x).toNat = x.toNat := by
        intro x hx hx'
        rw [BitVec.toNat_ofInt]
        omega
      rw [List.mem_singleton] at hc
      subst hc
      split
      · have hnat := hval (val.tmod base + 0x30) (by omega) (by omega)
        refine ⟨fun h => ?_, fun h => ?_⟩
        · rw [h] at hnat
          simp at hnat
          omega
        · have := (hneg h).1
          omega
      · have hnat := hval (val.tmod base - 10 + 0x41) (by omega) (by omega)
        refine ⟨fun h => ?_, fun h => ?_⟩
        · rw [h] at hnat
          simp at hnat
          omega
        · have := (hneg h).1
          omega

theorem i2a_ne_nil : Vsprintf.i2a base (calls + 1) val ≠ [] := by
  simp [Vsprintf.i2a]

end

/-! ## Arguments -/

section

variable {mem : Store} {c : Byte} {a : Arg} {P Q X Y : List Byte} {zero : Bool} {width : Nat}

/-- What the `switch` makes of an argument. -/
def Vsprintf.argText (mem : Store) (c : Byte) (a : Arg) : List Byte :=
  if c = chr 'c' then cString [a.setWidth 8]
  else if c = chr 'x' then i2a 16 32 a.toInt
  else if c = chr 'd' then
    if a.toInt < 0 then chr '-' :: i2a 10 32 (a * (-1)).toInt else i2a 10 32 a.toInt
  else stringAt mem a

/-- `Q` has a character above `0` where `P` has none. -/
def Clash (P Q : List Byte) : Prop :=
  (∀ c ∈ P, c.toNat ≤ 0x30) ∧ ∃ i < P.length, ∃ c, Q[i]? = some c ∧ 0x30 < c.toNat

theorem Clash.append_ne (h : Clash P Q) : P ++ X ≠ Q ++ Y := by
  obtain ⟨hle, i, hi, c, hc, hlt⟩ := h
  intro heq
  have hQ : i < Q.length := (List.getElem?_eq_some_iff.mp hc).1
  have hget : P[i]? = Q[i]? := by
    rw [← List.getElem?_append_left (show i < P.length from hi), heq, List.getElem?_append_left hQ]
  have hmem : c ∈ P := List.mem_of_getElem? (hget.trans hc)
  exact absurd (hle c hmem) (by omega)

theorem Clash.pad (h : Clash P Q) : Clash (pad zero width P) (pad zero width Q) := by
  obtain ⟨hle, i, hi, c, hc, hlt⟩ := h
  have hQ : i < Q.length := (List.getElem?_eq_some_iff.mp hc).1
  refine ⟨fun c hc => ?_, width - Q.length + i, ?_, c, ?_, hlt⟩
  · rcases List.mem_append.mp hc with hc | hc
    · rw [List.eq_of_mem_replicate hc]
      cases zero <;> decide
    · exact hle c hc
  · rw [Dlos.pad, List.length_append, List.length_replicate]
    omega
  · rw [Dlos.pad, List.getElem?_append_right (by simp), List.length_replicate, Nat.add_sub_cancel_left]
    exact hc

/-- `m = m * (-1)` -/
theorem toInt_mul_neg_one (h : a.toInt ≠ -2 ^ 31) : (a * (-1)).toInt = -a.toInt := by
  have hmul : a * (-1) = -a := by rw [BitVec.mul_neg, show a * 1 = a from BitVec.mul_one a]
  rw [hmul, BitVec.toInt_neg_of_ne_intMin]
  rintro rfl
  exact h (by decide)

theorem argText_of_writable (h : Writable c a) : Vsprintf.argText mem c a = argText mem c a := by
  obtain ⟨hx, hd⟩ := h
  have hlt : a.toNat < 2 ^ 32 := a.isLt
  have hsmall : a.toInt.natAbs < 2 ^ 32 := by
    rw [BitVec.toInt_eq_toNat_cond]
    omega
  unfold Vsprintf.argText argText
  split_ifs with hcc hcx hcd hneg
  · rfl
  · have hpos : a.toInt = a.toNat := by
      have := hx hcx
      rw [BitVec.toInt_eq_toNat_cond] at this ⊢
      omega
    rw [hpos]
    exact i2a_natCast (by decide : 1 < 16) (by decide) hlt
  · rw [toInt_mul_neg_one (hd hcd), ← Int.ofNat_natAbs_of_nonpos hneg.le]
    exact congrArg _ (i2a_natCast (by decide : 1 < 10) (by decide) hsmall)
  · rw [← Int.natAbs_of_nonneg (not_lt.mp hneg), List.nil_append]
    exact i2a_natCast (by decide : 1 < 10) (by decide) hsmall
  · rfl

/-- A numeral's first digit, where it is not 0. -/
theorem exists_numeral_cons {base n k : Nat} (hb : 1 < base) (hb' : base ≤ 16) (h : base ^ k ≤ n)
    (h' : n < base ^ (k + 1)) :
    ∃ c l, numeral base n = c :: l ∧ 0x30 < c.toNat := by
  have hfirst : ∀ m < 16, 0 < m → 0x30 < (chr m.digitChar.toUpper).toNat := by decide
  obtain ⟨l, -, heq⟩ := exists_numeral_eq hb h
  have hpos : 0 < base ^ k := Nat.pow_pos (by omega)
  have hlt : n / base ^ k < base := by
    rw [Nat.div_lt_iff_lt_mul hpos, ← pow_succ']
    exact h'
  rw [numeral_of_lt hlt] at heq
  exact ⟨_, l, heq, hfirst _ (by omega) (Nat.div_pos h hpos)⟩

theorem clash_of_not_writable (h : ¬Writable c a) :
    Clash (Vsprintf.argText mem c a) (argText mem c a) := by
  have hne (base : Nat) (val : Int) : 0 < (Vsprintf.i2a base 32 val).length :=
    List.length_pos_iff.mpr i2a_ne_nil
  by_cases hx : c = chr 'x'
  · subst hx
    have hneg : a.toInt < 0 := by
      by_contra hneg
      exact h ⟨fun _ => by omega, fun h => absurd h (by decide)⟩
    have hlow : 2 ^ 31 ≤ a.toNat := by
      rw [BitVec.toInt_eq_toNat_cond] at hneg
      omega
    obtain ⟨c, l, hl, hc⟩ := exists_numeral_cons (by decide : 1 < 16) (by decide)
      (show 16 ^ 7 ≤ a.toNat by omega) a.isLt
    refine ⟨fun c hc => ?_, 0, hne 16 _, c, ?_, hc⟩
    · exact (toNat_i2a (by decide : 1 < 16) (by decide) hc).2 hneg.le
    · change (numeral 16 a.toNat)[0]? = _
      rw [hl]
      rfl
  · obtain ⟨rfl, hmin⟩ : c = chr 'd' ∧ a.toInt = -2 ^ 31 := by
      by_contra hd
      exact h ⟨fun h => absurd h hx, fun hc hmin => hd ⟨hc, hmin⟩⟩
    obtain rfl : a = 0x80000000 := BitVec.eq_of_toInt_eq hmin
    obtain ⟨c, l, hl, hc⟩ := exists_numeral_cons (by decide : 1 < 10) (by decide)
      (show 10 ^ 9 ≤ 2 ^ 31 by decide) (by decide)
    refine ⟨fun c hc => ?_, 1, ?_, c, ?_, hc⟩
    · rcases List.mem_cons.mp hc with rfl | hc
      · decide
      · exact (toNat_i2a (by decide : 1 < 10) (by decide) hc).2 (by decide)
    · exact Nat.succ_lt_succ (hne 10 (-2 ^ 31))
    · change (chr '-' :: numeral 10 (2 ^ 31))[1]? = _
      rw [hl]
      rfl

/-- No text has a 0 in it. -/
theorem zero_notMem_cString {l : List Byte} : 0 ∉ cString l := by
  intro h
  simpa using List.all_eq_true.mp List.all_takeWhile 0 h

theorem zero_notMem_argText : 0 ∉ Vsprintf.argText mem c a := by
  unfold Vsprintf.argText
  split_ifs
  · exact zero_notMem_cString
  · exact fun h => (toNat_i2a (by decide : 1 < 16) (by decide) h).1 rfl
  · rw [List.mem_cons, not_or]
    exact ⟨by decide, fun h => (toNat_i2a (by decide : 1 < 10) (by decide) h).1 rfl⟩
  · exact fun h => (toNat_i2a (by decide : 1 < 10) (by decide) h).1 rfl
  · exact zero_notMem_cString

end

/-! ## Pieces -/

section

variable {mem : Store} {c : Byte} {a : Arg} {args : List Arg} {ps : List Piece} {p : Piece}
  {zero : Bool} {width fmt : List Byte} {conv : Option Byte} {text : Byte → Arg → List Byte}

/-- What `vsprintf` relies on, of the pieces. -/
structure Ready (mem : Store) (ps : List Piece) (args : List Arg) : Prop where
  enough : (ps.filterMap Piece.takes).length ≤ args.length
  strings : ∀ a, (chr 's', a) ∈ converted ps args →
    (Vsprintf.stringAt mem a).length < strDefaultLen
  widths : ∀ zero width conv, .directive zero width conv ∈ ps → decimal width < 2 ^ 31

theorem converted_of_none (h : p.takes = none) : converted (p :: ps) args = converted ps args := by
  rw [converted, List.filterMap_cons_none h]
  rfl

theorem converted_of_some (h : p.takes = some c) :
    converted (p :: ps) (a :: args) = (c, a) :: converted ps args := by
  rw [converted, List.filterMap_cons_some h]
  rfl

theorem Ready.of_none (h : Ready mem (p :: ps) args) (hp : p.takes = none) : Ready mem ps args where
  enough := by
    have := h.enough
    rwa [List.filterMap_cons_none hp] at this
  strings a ha := h.strings a (by rwa [converted_of_none hp])
  widths zero width conv hd := h.widths zero width conv (List.mem_cons_of_mem _ hd)

theorem Ready.of_some (h : Ready mem (p :: ps) args) (hp : p.takes = some c) :
    ∃ a rest, args = a :: rest ∧ (c = chr 's' → (Vsprintf.stringAt mem a).length < strDefaultLen) ∧
      Ready mem ps rest := by
  have henough := h.enough
  rw [List.filterMap_cons_some hp] at henough
  cases args with
  | nil => exact absurd henough (by simp)
  | cons a rest =>
    refine ⟨a, rest, rfl, ?_, Nat.le_of_succ_le_succ henough, fun b hb => ?_, fun z w v hd => ?_⟩
    · rintro rfl
      exact h.strings a (by simp [converted_of_some hp])
    · exact h.strings b (by simp [converted_of_some hp, hb])
    · exact h.widths z w v (List.mem_cons_of_mem _ hd)

theorem render_of_none (h : (Piece.directive zero width conv).takes = none) :
    render text (.directive zero width conv :: ps) args =
      pad zero (decimal width) [] ++ render text ps args := by
  rw [render, h]

theorem render_of_some (h : (Piece.directive zero width conv).takes = some c) :
    render text (.directive zero width conv :: ps) (a :: args) =
      pad zero (decimal width) (text c a) ++ render text ps args := by
  rw [render, h]
  rfl

/-- Both texts are the same where `i2a` can write all numbers, and only there. -/
theorem render_eq_iff (h : Ready mem ps args) :
    render (Vsprintf.argText mem) ps args = render (argText mem) ps args ↔
      ∀ x ∈ converted ps args, Writable x.1 x.2 := by
  induction ps generalizing args with
  | nil => simp [render, converted]
  | cons p ps ih =>
    cases p with
    | char c => 
      rw [render, render, List.cons_inj_right, ih (h.of_none rfl), converted_of_none rfl]
    | percent =>
      rw [render, render, List.cons_inj_right, ih (h.of_none rfl), converted_of_none rfl]
    | directive zero width conv =>
      cases ht : (Piece.directive zero width conv).takes with
      | none =>
        rw [render_of_none ht, render_of_none ht, List.append_cancel_left_eq, ih (h.of_none ht),
          converted_of_none ht]
      | some c =>
        obtain ⟨a, rest, rfl, -, hrest⟩ := h.of_some ht
        rw [render_of_some ht, render_of_some ht, converted_of_some ht, List.forall_mem_cons]
        by_cases hw : Writable c a
        · rw [argText_of_writable hw, List.append_cancel_left_eq, ih hrest]
          exact (and_iff_right hw).symm
        · exact iff_of_false (clash_of_not_writable hw).pad.append_ne fun hall => hw hall.1

theorem le_length_pad {n : Nat} {l : List Byte} : n ≤ (pad zero n l).length := by
  rw [pad, List.length_append, List.length_replicate]
  omega

/-- A width is no greater than the text. -/
theorem decimal_le_length_render (hd : .directive zero width conv ∈ ps) :
    decimal width ≤ (render text ps args).length := by
  induction ps generalizing args with
  | nil => simp at hd
  | cons p ps ih =>
    rcases List.mem_cons.mp hd with rfl | hps
    · rw [render]
      split
      · rw [List.length_append]
        exact Nat.le_add_right_of_le le_length_pad
      · rw [List.length_append]
        exact Nat.le_add_right_of_le le_length_pad
    · cases p with
      | char c => exact Nat.le_succ_of_le (ih hps)
      | percent => exact Nat.le_succ_of_le (ih hps)
      | directive zero width conv =>
        rw [render]
        split
        · rw [List.length_append]
          exact Nat.le_add_left_of_le (ih hps)
        · rw [List.length_append]
          exact Nat.le_add_left_of_le (ih hps)

theorem zero_notMem_pad {n : Nat} {l : List Byte} (h : 0 ∉ l) : 0 ∉ pad zero n l := by
  rw [pad, List.mem_append, not_or]
  refine ⟨fun h => ?_, h⟩
  have := List.eq_of_mem_replicate h
  cases zero <;> exact absurd this (by decide)

theorem zero_notMem_render (h : .char 0 ∉ ps) : 0 ∉ render (Vsprintf.argText mem) ps args := by
  induction ps generalizing args with
  | nil => simp [render]
  | cons p ps ih =>
    obtain ⟨hp, hps⟩ := not_or.mp (mt List.mem_cons.mpr h)
    cases p with
    | char c =>
      rw [render, List.mem_cons, not_or]
      exact ⟨fun hc => hp (congrArg Piece.char hc), ih hps⟩
    | percent =>
      rw [render, List.mem_cons, not_or]
      exact ⟨by decide, ih hps⟩
    | directive zero width conv =>
      rw [render]
      split
      · rw [List.mem_append, not_or]
        exact ⟨zero_notMem_pad zero_notMem_argText, ih hps⟩
      · rw [List.mem_append, not_or]
        exact ⟨zero_notMem_pad List.not_mem_nil, ih hps⟩

end

/-! ## The loop -/

section

variable {mem : Store} {c : Byte} {a : Arg} {args : List Arg} {fmt p : List Byte} {n rounds : Nat}

theorem toNat_sub_zero (h : isDigit c) :
    (c - chr '0').setWidth 32 = BitVec.ofNat 32 (c.toNat - 0x30) := by
  have hc : 0x30 ≤ c.toNat ∧ c.toNat ≤ 0x39 := of_decide_eq_true h
  apply BitVec.eq_of_toNat_eq
  have hzero : '0'.toNat = 0x30 := rfl
  simp only [BitVec.toNat_setWidth, BitVec.toNat_sub, BitVec.toNat_ofNat, hzero]
  omega

/-- `align_nr` is the number of the digits, as a 32-bit number. -/
theorem alignNr_eq : Vsprintf.alignNr fmt (BitVec.ofNat 32 n) =
    (BitVec.ofNat 32 ((fmt.takeWhile isDigit).foldl (fun n c => 10 * n + (c.toNat - 0x30)) n),
      fmt.dropWhile isDigit) := by
  induction fmt generalizing n with
  | nil => rfl
  | cons c fmt ih =>
    rw [Vsprintf.alignNr]
    split
    next hc =>
      have hstep : BitVec.ofNat 32 n * 10 + (c - chr '0').setWidth 32 =
          BitVec.ofNat 32 (10 * n + (c.toNat - 0x30)) := by
        rw [toNat_sub_zero hc, Nat.mul_comm, BitVec.ofNat_add, BitVec.ofNat_mul]
        rfl
      rw [hstep, ih, List.takeWhile_cons_of_pos hc, List.dropWhile_cons_of_pos hc, List.foldl_cons]
    next hc =>
      rw [List.takeWhile_cons_of_neg hc, List.dropWhile_cons_of_neg hc]
      rfl

theorem innerBuf_of_takesArg (h : takesArg c = true)
    (hs : c = chr 's' → (Vsprintf.stringAt mem a).length < strDefaultLen) :
    Vsprintf.innerBuf mem c (a :: args) = .ok (Vsprintf.argText mem c a, args) := by
  unfold Vsprintf.innerBuf Vsprintf.argText
  split_ifs with hc hx hd hneg hsc
  · rfl
  · rfl
  · simp only [Vsprintf.nextArg, pure_bind, if_pos hneg]
    rfl
  · simp only [Vsprintf.nextArg, pure_bind, if_neg hneg]
    rfl
  · simp only [Vsprintf.nextArg, pure_bind, if_pos (hs hsc)]
    rfl
  · simp [takesArg, hc, hx, hd, hsc] at h

theorem innerBuf_of_not_takesArg (h : takesArg c = false) :
    Vsprintf.innerBuf mem c args = .ok ([], args) := by
  have hc : c ≠ chr 'c' ∧ c ≠ chr 'x' ∧ c ≠ chr 'd' ∧ c ≠ chr 's' := by
    simpa [takesArg] using h
  rw [Vsprintf.innerBuf, if_neg hc.1, if_neg hc.2.1, if_neg hc.2.2.1, if_neg hc.2.2.2]
  rfl

/-- What stands at the conversion of a directive. -/
def atConv (fmt : List Byte) : List Byte := (unflagged fmt).dropWhile isDigit

theorem deChar_eq_zero_iff : Vsprintf.deChar fmt = chr '0' ↔ flag fmt = true := by
  cases fmt with
  | nil => decide
  | cons c fmt => simp [Vsprintf.deChar, flag]

theorem nextChar_of_flag (h : flag fmt = true) : Vsprintf.nextChar fmt = pure (unflagged fmt) := by
  cases fmt with
  | nil => exact absurd h (by decide)
  | cons c fmt =>
    rw [unflagged, if_pos h]
    rfl

theorem pieces_of_directive (h : fmt.head? ≠ some (chr '%')) : pieces (chr '%' :: fmt) =
    .directive (flag fmt) ((unflagged fmt).takeWhile isDigit) (atConv fmt).head? ::
      pieces (atConv fmt).tail := by
  rw [pieces, if_neg (not_not.mpr rfl), if_neg h]
  rfl

theorem atConv_sublist : (atConv fmt).Sublist fmt := by
  refine (List.dropWhile_suffix _).sublist.trans ?_
  unfold unflagged
  split
  · exact List.tail_sublist _
  · exact .refl _

/-- A directive, up to its conversion. -/
theorem directive_eq (h : fmt.head? ≠ some (chr '%')) :
    Vsprintf.directive mem fmt args = (do
      let (q, rest) ← Vsprintf.innerBuf mem (Vsprintf.deChar (atConv fmt)) args
      pure (List.replicate ((BitVec.ofNat 32 (decimal ((unflagged fmt).takeWhile isDigit))).toInt -
        q.length).toNat (if flag fmt then chr '0' else chr ' ') ++ q, atConv fmt, rest)) := by
  have hwidth : Vsprintf.alignNr (unflagged fmt) 0 =
      (BitVec.ofNat 32 (decimal ((unflagged fmt).takeWhile isDigit)), atConv fmt) := alignNr_eq
  have hpercent : Vsprintf.deChar fmt ≠ chr '%' := by
    cases fmt with
    | nil => decide
    | cons c fmt => exact fun hc => h (congrArg some hc)
  rw [Vsprintf.directive, if_neg hpercent]
  by_cases hflag : flag fmt = true
  · simp only [deChar_eq_zero_iff, hflag, if_true, nextChar_of_flag hflag, pure_bind, hwidth]
  · rw [unflagged, if_neg hflag] at hwidth ⊢
    simp only [deChar_eq_zero_iff, hflag, if_false, pure_bind, hwidth, Bool.false_eq_true]

variable {ps : List Piece} {rest : List Arg} {q : Piece} {t : List Byte}
  {r : Except Halt (List Byte)}

/-- The pieces were written behind `p`, unless one breaks off. -/
structure Runs (mem : Store) (ps : List Piece) (args : List Arg) (p : List Byte)
    (r : Except Halt (List Byte)) : Prop where
  complete : Complete ps → r = .ok (p ++ render (Vsprintf.argText mem) ps args)
  broken : ¬Complete ps → r = .error .wildIndex

theorem complete_cons : Complete (q :: ps) ↔
    (∀ zero width, q ≠ .directive zero width none) ∧ Complete ps := by
  simp only [Complete, List.mem_cons, not_or, forall_and, ne_comm, ne_eq]

theorem Runs.cons (h : Runs mem ps rest (p ++ t) r)
    (hq : ∀ zero width, q ≠ .directive zero width none)
    (ht : render (Vsprintf.argText mem) (q :: ps) args =
      t ++ render (Vsprintf.argText mem) ps rest) : Runs mem (q :: ps) args p r where
  complete hc := by
    rw [h.complete (complete_cons.mp hc).2, ht, List.append_assoc]
  broken hc := h.broken fun hps => hc (complete_cons.mpr ⟨hq, hps⟩)

/-- A width below 2³¹ is what it says. -/
theorem replicate_width {width : Nat} {zero : Bool} (h : width < 2 ^ 31) :
    List.replicate ((BitVec.ofNat 32 width).toInt - t.length).toNat
      (if zero then chr '0' else chr ' ') ++ t = pad zero width t := by
  have htoInt : (BitVec.ofNat 32 width).toInt = width := by
    rw [BitVec.toInt_eq_toNat_cond, BitVec.toNat_ofNat]
    omega
  rw [htoInt, pad]
  congr 2
  omega

theorem deChar_cons : Vsprintf.deChar (c :: fmt) = c := rfl

theorem loop_of_char (hne : c ≠ 0) (hc : c ≠ chr '%') :
    Vsprintf.loop mem (rounds + 1) (c :: fmt) args p =
      Vsprintf.loop mem rounds fmt args (p ++ [c]) := by
  rw [Vsprintf.loop, deChar_cons, if_neg hne]
  exact if_pos hc

theorem loop_of_percent : Vsprintf.loop mem (rounds + 1) (chr '%' :: fmt) args p = (do
    let (text, fmt, args) ← Vsprintf.directive mem fmt args
    Vsprintf.loop mem rounds (← Vsprintf.nextChar fmt) args (p ++ text)) := by
  rw [Vsprintf.loop, deChar_cons, if_neg (by decide)]
  rfl

theorem loop_runs (hend : 0 ∉ fmt) (hrounds : fmt.length < rounds)
    (h : Ready mem (pieces fmt) args) :
    Runs mem (pieces fmt) args p (Vsprintf.loop mem rounds fmt args p) := by
  induction fmt using pieces.induct generalizing rounds args p with
  | case1 =>
    obtain ⟨rounds, rfl⟩ := Nat.exists_eq_add_one.mpr (Nat.zero_lt_of_lt hrounds)
    rw [pieces]
    exact ⟨fun _ => by rw [render, List.append_nil]; rfl, fun hc => absurd (by simp [Complete]) hc⟩
  | case2 c fmt hc ih =>
    obtain ⟨rounds, rfl⟩ := Nat.exists_eq_add_one.mpr (Nat.zero_lt_of_lt hrounds)
    obtain ⟨hne, hfmt⟩ := not_or.mp (mt List.mem_cons.mpr hend)
    rw [pieces, if_pos hc] at h ⊢
    rw [loop_of_char (Ne.symm hne) hc]
    exact (ih hfmt (Nat.lt_of_succ_lt_succ hrounds) (h.of_none rfl)).cons (by simp) rfl
  | case3 c fmt hc hp ih =>
    obtain ⟨rounds, rfl⟩ := Nat.exists_eq_add_one.mpr (Nat.zero_lt_of_lt hrounds)
    obtain ⟨hne, hfmt⟩ := not_or.mp (mt List.mem_cons.mpr hend)
    obtain rfl := not_not.mp hc
    rw [pieces, if_neg hc, if_pos hp] at h ⊢
    obtain ⟨fmt, rfl⟩ := List.head?_eq_some_iff.mp hp
    rw [loop_of_percent]
    refine Runs.cons (ih ?_ ?_ (h.of_none rfl)) (by simp) rfl
    · exact fun hmem => hfmt (List.mem_cons_of_mem _ hmem)
    · simp only [List.tail_cons, List.length_cons] at hrounds ⊢
      omega
  | case4 c fmt hc hp ih =>
    obtain ⟨rounds, rfl⟩ := Nat.exists_eq_add_one.mpr (Nat.zero_lt_of_lt hrounds)
    obtain ⟨hne, hfmt⟩ := not_or.mp (mt List.mem_cons.mpr hend)
    obtain rfl := not_not.mp hc
    have hsub : (atConv fmt).Sublist fmt := atConv_sublist
    rw [pieces_of_directive hp] at h ⊢
    rw [loop_of_percent, directive_eq hp]
    have hwidth := h.widths _ _ _ List.mem_cons_self
    change ∀ {args : List Arg} {p : List Byte} {rounds : Nat}, 0 ∉ (atConv fmt).tail →
      (atConv fmt).tail.length < rounds → Ready mem (pieces (atConv fmt).tail) args →
      Runs mem (pieces (atConv fmt).tail) args p (Vsprintf.loop mem rounds (atConv fmt).tail args p) at ih
    generalize atConv fmt = l at *
    cases l with
    | nil =>
      have htakes : takesArg (Vsprintf.deChar []) = false := by decide
      rw [innerBuf_of_not_takesArg htakes]
      exact ⟨fun hc => absurd List.mem_cons_self (hc _ _), fun _ => rfl⟩
    | cons x l =>
      have hend' : 0 ∉ l := fun hl => hfmt (hsub.subset (List.mem_cons_of_mem x hl))
      have hrounds' : l.length < rounds := by
        have := hsub.length_le
        simp only [List.length_cons] at this hrounds
        omega
      cases htakes : takesArg x with
      | false =>
        have hnone : (Piece.directive (flag fmt) ((unflagged fmt).takeWhile isDigit)
            (some x)).takes = none := by simp [Piece.takes, htakes]
        rw [deChar_cons, innerBuf_of_not_takesArg htakes]
        refine Runs.cons (ih hend' hrounds' (h.of_none hnone)) (by simp) ?_
        rw [replicate_width hwidth]
        exact render_of_none hnone
      | true =>
        have hsome : (Piece.directive (flag fmt) ((unflagged fmt).takeWhile isDigit)
            (some x)).takes = some x := by simp [Piece.takes, htakes]
        obtain ⟨a, args, rfl, hs, hrest⟩ := h.of_some hsome
        rw [deChar_cons, innerBuf_of_takesArg htakes hs]
        refine Runs.cons (ih hend' hrounds' hrest) (by simp) ?_
        rw [replicate_width hwidth]
        exact render_of_some hsome

/-! ## The whole text -/

/-- The pieces are the format. -/
theorem flatMap_source_pieces : (pieces fmt).flatMap Piece.source = fmt := by
  induction fmt using pieces.induct with
  | case1 => rw [pieces, List.flatMap_nil]
  | case2 c fmt hc ih =>
    rw [pieces, if_pos hc, List.flatMap_cons, ih]
    rfl
  | case3 c fmt hc hp ih =>
    obtain rfl := not_not.mp hc
    obtain ⟨fmt, rfl⟩ := List.head?_eq_some_iff.mp hp
    rw [pieces, if_neg hc, if_pos hp, List.flatMap_cons, ih]
    rfl
  | case4 c fmt hc hp ih =>
    obtain rfl := not_not.mp hc
    have hhead (l : List Byte) : l.head?.toList ++ l.tail = l := by cases l <;> rfl
    have hflag : (if flag fmt then [chr '0'] else []) ++ unflagged fmt = fmt := by
      unfold unflagged
      split
      next hf =>
        obtain ⟨rest, rfl⟩ := List.head?_eq_some_iff.mp (of_decide_eq_true hf)
        rfl
      next => rfl
    rw [pieces_of_directive hp, List.flatMap_cons, atConv, ih, Piece.source, List.append_assoc, hhead,
      List.cons_append, List.cons_append, List.append_assoc, List.takeWhile_append_dropWhile, hflag]

theorem cString_append_zero {l : List Byte} (h : 0 ∉ l) : cString (l ++ [0]) = l := by
  rw [cString, List.takeWhile_append_of_pos fun b hb => ?_]
  · simp
  · exact decide_eq_true fun hz : b = 0 => h (hz ▸ hb)

theorem FormatCall.ready (h : FormatCall mem fmt args) : Ready mem (pieces fmt) args :=
  ⟨h.enough, h.strings, fun _ _ _ hd => (decimal_le_length_render hd).trans_lt h.room⟩

/-- The text, where all pieces are whole and `i2a` can write all numbers. -/
theorem vsprintf_of_complete (h : FormatCall mem fmt args) (hcomplete : Complete (pieces fmt))
    (hw : ∀ x ∈ converted (pieces fmt) args, Writable x.1 x.2) : vsprintf mem fmt args =
      .ok (render (argText mem) (pieces fmt) args ++ [0],
        BitVec.ofNat 32 (render (argText mem) (pieces fmt) args).length) := by
  have hruns := loop_runs (p := []) h.ended (Nat.lt_succ_self _) h.ready
  rw [vsprintf, hruns.complete hcomplete, (render_eq_iff h.ready).mpr hw]
  rfl

/-- `vsprintf` follows its language where no directive breaks off and `i2a` can write all numbers. -/
theorem formats_iff (h : FormatCall mem fmt args) : Formats mem fmt args ↔
    Complete (pieces fmt) ∧ ∀ x ∈ converted (pieces fmt) args, Writable x.1 x.2 := by
  have hzero : 0 ∉ render (Vsprintf.argText mem) (pieces fmt) args := by
    refine zero_notMem_render fun hmem => h.ended ?_
    have hsource : 0 ∈ (pieces fmt).flatMap Piece.source :=
      List.mem_flatMap.mpr ⟨_, hmem, List.mem_singleton_self 0⟩
    rwa [flatMap_source_pieces] at hsource
  have hruns := loop_runs (p := []) h.ended (Nat.lt_succ_self _) h.ready
  constructor
  · rintro ⟨buf, n, hrun, htext, -⟩
    have hcomplete : Complete (pieces fmt) := by
      by_contra hc
      rw [vsprintf, hruns.broken hc] at hrun
      cases hrun
    rw [vsprintf, hruns.complete hcomplete] at hrun
    obtain ⟨rfl, -⟩ := Prod.mk.inj (Except.ok.inj hrun)
    rw [List.nil_append, cString_append_zero hzero] at htext
    exact ⟨hcomplete, (render_eq_iff h.ready).mp htext⟩
  · rintro ⟨hcomplete, hw⟩
    rw [(render_eq_iff h.ready).mpr hw] at hzero
    refine ⟨_, _, vsprintf_of_complete h hcomplete hw, cString_append_zero hzero, ?_⟩
    have := h.room
    rw [cString_append_zero hzero, BitVec.toInt_eq_toNat_cond, BitVec.toNat_ofNat]
    omega

end

/-- A number in a column. -/
def columnFormat : List Byte := [chr '%', chr '8', chr 'd', chr '|']

theorem formatCall_column : FormatCall (fun _ => 0) columnFormat [42] where
  ended := by decide
  enough := by decide +kernel
  strings a ha := by
    have hconv : converted (pieces columnFormat) [42] = [(chr 'd', 42)] := by decide +kernel
    rw [hconv, List.mem_singleton] at ha
    exact absurd (Prod.mk.inj ha).1 (by decide)
  room := by decide +kernel

theorem formats_iff_column : Formats (fun _ => 0) columnFormat [42] ↔
    Complete (pieces columnFormat) ∧
      ∀ x ∈ converted (pieces columnFormat) [42], Writable x.1 x.2 :=
  formats_iff formatCall_column

/-- A format that ends behind a `%`. -/
theorem not_formats_percent : FormatCall (fun _ => 0) [chr '%'] [] ∧
    ¬Formats (fun _ => 0) [chr '%'] [] := by
  refine ⟨⟨by decide, by decide +kernel, fun a ha => ?_, by decide +kernel⟩, ?_⟩
  · rw [converted, List.zip_nil_right] at ha
    exact absurd ha List.not_mem_nil
  · rintro ⟨buf, n, hrun, -, -⟩
    have hwild : vsprintf (fun _ => 0) [chr '%'] [] = .error .wildIndex := rfl
    rw [hwild] at hrun
    cases hrun

end Dlos
