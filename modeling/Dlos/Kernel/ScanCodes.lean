import Dlos.Kernel.Keyboard
import Mathlib.Data.List.Infix

/-!
# Scan codes

The codes of keys, and what a list of them means for the modifiers. `keyboard_read` takes the bytes of
exactly one code, and finds the modifiers as they should be afterwards.
-/

namespace Dlos

open Bytes

/-! ## Codes -/

/-- A key, by its scan code and whether `0xE0` comes before it. -/
structure Key where
  ext : Bool
  code : Byte
  deriving DecidableEq

inductive Code
  /-- A key is pressed or released. `0x2A` and `0x37` behind `0xE0` belong to PRINT SCREEN. -/
  | key (k : Key) (make : Bool) (range : 1 ≤ k.code.toNat ∧ k.code.toNat ≤ 0x58)
      (notPrint : k.ext = true → k.code ≠ 0x2A ∧ k.code ≠ 0x37)
  | printMake
  | printBreak
  | pause

/-- The last byte of a key's code. -/
def Key.scanCode (k : Key) (make : Bool) : Byte := if make then k.code else k.code ||| 0x80

def Code.bytes : Code → List Byte
  | key k make _ _ => (if k.ext then [0xE0] else []) ++ [k.scanCode make]
  | printMake => [0xE0, 0x2A, 0xE0, 0x37]
  | printBreak => [0xE0, 0xB7, 0xE0, 0xAA]
  | pause => [0xE1, 0x1D, 0x45, 0xE1, 0x9D, 0xC5]

/-- The bytes of a list of codes. -/
def bytesOf (codes : List Code) : List Byte := codes.flatMap Code.bytes

/-- What the code says about a key. -/
def Code.tells (k : Key) : Code → Option Bool
  | key k' make _ _ => if k' = k then some make else none
  | _ => none

/-- A key other than PRINT SCREEN and PAUSE is pressed. -/
def Code.isMake : Code → Bool
  | key _ make _ _ => make
  | _ => false

/-! ## What a list of codes means -/

def shiftLKey : Key := ⟨false, 0x2A⟩
def shiftRKey : Key := ⟨false, 0x36⟩
def ctrlLKey : Key := ⟨false, 0x1D⟩
def ctrlRKey : Key := ⟨true, 0x1D⟩
def altLKey : Key := ⟨false, 0x38⟩
def altRKey : Key := ⟨true, 0x38⟩
def capsLockKey : Key := ⟨false, 0x3A⟩
def numLockKey : Key := ⟨false, 0x45⟩
def scrollLockKey : Key := ⟨false, 0x46⟩
def f12Key : Key := ⟨false, 0x58⟩

/-- The last code of the key was a make. -/
def Key.down (k : Key) (codes : List Code) : Bool := (codes.filterMap (Code.tells k)).getLast? = some true

/-- A lock toggled once for each make of the key. -/
def Key.toggled (k : Key) (start : Bool) (codes : List Code) : Bool :=
  start ^^ decide ((codes.filterMap (Code.tells k)).count true % 2 = 1)

/-- The modifiers after `init_keyboard` and these codes. -/
def Modifiers.after (codes : List Code) : Modifiers where
  shiftL := shiftLKey.down codes
  shiftR := shiftRKey.down codes
  altL := altLKey.down codes
  altR := altRKey.down codes
  ctrlL := ctrlLKey.down codes
  ctrlR := ctrlRKey.down codes
  capsLock := capsLockKey.toggled false codes
  numLock := numLockKey.toggled true codes
  scrollLock := scrollLockKey.toggled false codes

/-- A SHIFT key is down, or CAPS LOCK is on, and not both. -/
def upperCase (codes : List Code) : Bool :=
  (shiftLKey.down codes || shiftRKey.down codes) ^^ capsLockKey.toggled false codes

/-- The makes among the codes, each with the codes before it. -/
def makes (before : List Code) : List Code → List (List Code × Code)
  | [] => []
  | c :: codes => (if c.isMake then [(before, c)] else []) ++ makes (before ++ [c]) codes

/-- The key is a letter. -/
def Key.IsLetter (k : Key) : Prop :=
  k.ext = false ∧ ascii 'a' ≤ (keymap k.code).1 ∧ (keymap k.code).1 ≤ ascii 'z'

/-- Where a letter is pressed, `in_process` gets it in the right case. -/
def GivesKey (x : List Code × Code) (key : BitVec 32) : Prop :=
  ∀ k make range notPrint, x.2 = .key k make range notPrint → k.IsLetter →
    key &&& maskRaw = (keymap k.code).1 - if upperCase x.1 then 0x20 else 0

/-! ## Reading a code -/

section

variable {c : Code} {k : Key} {make : Bool} {p q : List Byte} {s : Modifiers} {b : Byte}

/-- The place after all bytes of a code. -/
def Code.last : Code → KbPc
  | key k make _ _ => .decode (k.scanCode make) k.ext
  | _ => .finish

theorem feed_scanCode : ∀ b : Byte, 1 ≤ b.toNat → b.toNat ≤ 0x58 → ∀ make,
    KbPc.first.feed (Key.scanCode ⟨false, b⟩ make) = .decode (Key.scanCode ⟨false, b⟩ make) false ∧
      (b ≠ 0x2A → b ≠ 0x37 → KbPc.extended.feed (Key.scanCode ⟨true, b⟩ make) =
        .decode (Key.scanCode ⟨true, b⟩ make) true) := by
  decide +kernel

/-- `keyboard_read` asks for the next byte until it has all bytes of the code. -/
theorem foldl_feed (c : Code) (hp : p <+: c.bytes) :
    (p = c.bytes → p.foldl KbPc.feed .first = c.last) ∧
      (p ≠ c.bytes → (p.foldl KbPc.feed .first).Reads) := by
  have hmem : p ∈ c.bytes.inits := (List.mem_inits p c.bytes).mpr hp
  clear hp
  revert hmem p
  cases c with
  | printMake => decide
  | printBreak => decide
  | pause => decide
  | key k make range notPrint =>
    obtain ⟨ext, b⟩ := k
    obtain ⟨hplain, hext⟩ := feed_scanCode b range.1 range.2 make
    cases ext with
    | false =>
      intro p hp
      have hp : p = [] ∨ p = [Key.scanCode ⟨false, b⟩ make] := by simpa [Code.bytes] using hp
      rcases hp with rfl | rfl
      · exact ⟨nofun, fun _ => trivial⟩
      · exact ⟨fun _ => hplain, fun h => absurd rfl h⟩
    | true =>
      have hext := hext (notPrint rfl).1 (notPrint rfl).2
      intro p hp
      have hp : p = [] ∨ p = [0xE0] ∨ p = [0xE0, Key.scanCode ⟨true, b⟩ make] := by
        simpa [Code.bytes] using hp
      rcases hp with rfl | rfl | rfl
      · exact ⟨nofun, fun _ => trivial⟩
      · exact ⟨nofun, fun _ => trivial⟩
      · exact ⟨fun _ => hext, fun h => absurd rfl h⟩

/-! ## Keys and modifiers -/

/-- The key map has `key` for the key `k` alone, in all columns of it. -/
def Maps (key : BitVec 32) (k : Key) : Prop := ∀ b : Byte, b.toNat ≤ 0x58 →
  ((keymap b).1 = key ↔ ⟨false, b⟩ = k) ∧ ((keymap b).2.1 = key ↔ ⟨false, b⟩ = k) ∧
    ((keymap b).2.2 = key ↔ ⟨true, b⟩ = k)

/-- The keys that the code looks at one by one. -/
def specialKeys : List (BitVec 32 × Key) :=
  [(keyShiftL, shiftLKey), (keyShiftR, shiftRKey), (keyCtrlL, ctrlLKey), (keyCtrlR, ctrlRKey),
    (keyAltL, altLKey), (keyAltR, altRKey), (keyCapsLock, capsLockKey), (keyNumLock, numLockKey),
    (keyScrollLock, scrollLockKey), (keyF12, f12Key)]

theorem row_specialKeys : ∀ b : Byte, b.toNat ≤ 0x58 → specialKeys.Forall fun x =>
    ((keymap b).1 = x.1 ↔ ⟨false, b⟩ = x.2) ∧ ((keymap b).2.1 = x.1 ↔ ⟨false, b⟩ = x.2) ∧
      ((keymap b).2.2 = x.1 ↔ ⟨true, b⟩ = x.2) := by
  decide +kernel

theorem maps_of_mem {key : BitVec 32} {k : Key} (h : (key, k) ∈ specialKeys) : Maps key k :=
  fun b hb => List.forall_iff_forall_mem.mp (row_specialKeys b hb) _ h

/-- Whatever column is used, the key is found where it belongs. -/
theorem keyOf_eq_iff {key : BitVec 32} {k₀ : Key} (h : Maps key k₀) (hk : k.code.toNat ≤ 0x58) :
    s.keyOf (keymap k.code) k.ext = key ↔ k = k₀ := by
  obtain ⟨hplain, hshift, hext⟩ := h k.code hk
  obtain ⟨ext, b⟩ := k
  unfold Modifiers.keyOf
  cases ext with
  | true => exact hext
  | false =>
    simp only [Bool.false_eq_true, if_false]
    split_ifs
    · exact hshift
    · exact hplain
    · exact hshift
    · exact hplain

theorem keymap_scanCode : ∀ b : Byte, b.toNat ≤ 0x58 → ∀ ext make,
    keymap (Key.scanCode ⟨ext, b⟩ make) = keymap b ∧
      (decide (Key.scanCode ⟨ext, b⟩ make &&& flagBreak = 0) = make) := by
  decide +kernel

/-- `note`, field by field. -/
theorem Modifiers.note_eq {key : BitVec 32} : s.note key make =
    { shiftL := if key = keyShiftL then make else s.shiftL
      shiftR := if key = keyShiftR then make else s.shiftR
      altL := if key = keyAltL then make else s.altL
      altR := if key = keyAltR then make else s.altR
      ctrlL := if key = keyCtrlL then make else s.ctrlL
      ctrlR := if key = keyCtrlR then make else s.ctrlR
      capsLock := if key = keyCapsLock then s.capsLock ^^ make else s.capsLock
      numLock := if key = keyNumLock then s.numLock ^^ make else s.numLock
      scrollLock := if key = keyScrollLock then s.scrollLock ^^ make else s.scrollLock } := by
  by_cases hshiftL : key = keyShiftL
  · subst hshiftL
    rfl
  by_cases hshiftR : key = keyShiftR
  · subst hshiftR
    rfl
  by_cases hctrlL : key = keyCtrlL
  · subst hctrlL
    rfl
  by_cases hctrlR : key = keyCtrlR
  · subst hctrlR
    rfl
  by_cases haltL : key = keyAltL
  · subst haltL
    rfl
  by_cases haltR : key = keyAltR
  · subst haltR
    rfl
  by_cases hcaps : key = keyCapsLock
  · subst hcaps
    cases make
    · simp [Modifiers.note]
    · simp [Modifiers.note]
  by_cases hnum : key = keyNumLock
  · subst hnum
    cases make
    · simp [Modifiers.note]
    · simp [Modifiers.note]
  by_cases hscroll : key = keyScrollLock
  · subst hscroll
    cases make
    · simp [Modifiers.note]
    · simp [Modifiers.note]
  simp [Modifiers.note, hshiftL, hshiftR, hctrlL, hctrlR, haltL, haltR, hcaps, hnum, hscroll]

/-! ## What a code does -/

variable {codes : List Code} {k₀ : Key} {range : 1 ≤ k.code.toNat ∧ k.code.toNat ≤ 0x58}
  {notPrint : k.ext = true → k.code ≠ 0x2A ∧ k.code ≠ 0x37} {start : Bool}

theorem down_key : k₀.down (codes ++ [.key k make range notPrint]) =
    if k = k₀ then make else k₀.down codes := by
  unfold Key.down
  rw [List.filterMap_append]
  by_cases hk : k = k₀
  · simp [Code.tells, hk]
  · simp [Code.tells, hk]

theorem toggled_key : k₀.toggled start (codes ++ [.key k make range notPrint]) =
    if k = k₀ then k₀.toggled start codes ^^ make else k₀.toggled start codes := by
  unfold Key.toggled
  rw [List.filterMap_append]
  by_cases hk : k = k₀
  · cases make with
    | false => simp [Code.tells, hk]
    | true =>
      generalize hn : (codes.filterMap (Code.tells k₀)).count true = n
      have hodd : decide ((n + 1) % 2 = 1) = !decide (n % 2 = 1) := by
        rw [← decide_not]
        exact decide_eq_decide.mpr (by omega)
      simp [Code.tells, hk, hn, hodd]
  · simp [Code.tells, hk]

/-- A code of a key changes the modifiers as it should. -/
theorem decode_after : ((Modifiers.after codes).decode (k.scanCode make) k.ext).1 =
    Modifiers.after (codes ++ [.key k make range notPrint]) := by
  obtain ⟨ext, b⟩ := k
  obtain ⟨hrow, hmake⟩ := keymap_scanCode b range.2 ext make
  have hstate : ((Modifiers.after codes).decode (Key.scanCode ⟨ext, b⟩ make) ext).1 =
      (Modifiers.after codes).note ((Modifiers.after codes).keyOf (keymap b) ext) make := by
    rw [Modifiers.decode, hrow, hmake]
    split_ifs <;> rfl
  have hiff {key : BitVec 32} {k₀ : Key} (h : (key, k₀) ∈ specialKeys) :
      (Modifiers.after codes).keyOf (keymap b) ext = key ↔ Key.mk ext b = k₀ :=
    keyOf_eq_iff (maps_of_mem h) range.2
  have hshiftL := hiff (show (keyShiftL, shiftLKey) ∈ specialKeys by decide)
  have hshiftR := hiff (show (keyShiftR, shiftRKey) ∈ specialKeys by decide)
  have hctrlL := hiff (show (keyCtrlL, ctrlLKey) ∈ specialKeys by decide)
  have hctrlR := hiff (show (keyCtrlR, ctrlRKey) ∈ specialKeys by decide)
  have haltL := hiff (show (keyAltL, altLKey) ∈ specialKeys by decide)
  have haltR := hiff (show (keyAltR, altRKey) ∈ specialKeys by decide)
  have hcaps := hiff (show (keyCapsLock, capsLockKey) ∈ specialKeys by decide)
  have hnum := hiff (show (keyNumLock, numLockKey) ∈ specialKeys by decide)
  have hscroll := hiff (show (keyScrollLock, scrollLockKey) ∈ specialKeys by decide)
  rw [hstate, Modifiers.note_eq]
  simp only [hshiftL, hshiftR, hctrlL, hctrlR, haltL, haltR, hcaps, hnum, hscroll]
  simp only [Modifiers.after, down_key, toggled_key]

/-- Other codes do not. -/
theorem after_append_of_finish (h : c.last = .finish) :
    Modifiers.after (codes ++ [c]) = Modifiers.after codes := by
  have htells (k : Key) : c.tells k = none := by
    cases c with
    | key k make range notPrint => cases h
    | printMake | printBreak | pause => rfl
  simp only [Modifiers.after, Key.down, Key.toggled, List.filterMap_append, List.filterMap_cons, htells,
    List.filterMap_nil, List.append_nil]

/-! ## What `in_process` gets -/

variable {before : List Code} {key : BitVec 32}

/-- A make gives a key, a break does not. -/
theorem isSome_decode (hk : k.code.toNat ≤ 0x58) :
    (s.decode (k.scanCode make) k.ext).2.isSome = make := by
  obtain ⟨ext, b⟩ := k
  obtain ⟨-, hmake⟩ := keymap_scanCode b hk ext make
  rw [Modifiers.decode, hmake]
  cases make with
  | false => rfl
  | true =>
    simp only [if_true]
    split_ifs <;> rfl

/-- The letters' rows of the key map. -/
theorem keymap_letter : ∀ b : Byte, b.toNat ≤ 0x58 → ascii 'a' ≤ (keymap b).1 →
    (keymap b).1 ≤ ascii 'z' → (keymap b).2.1 = (keymap b).1 - 0x20 ∧
      ∀ upper : Bool, ((keymap b).1 - if upper then 0x20 else 0) &&& maskRaw =
          (keymap b).1 - (if upper then 0x20 else 0) ∧
        ¬keyPadSlash ≤ (keymap b).1 - if upper then 0x20 else 0 := by
  decide +kernel

theorem flags_and_maskRaw : s.flags &&& maskRaw = 0 := by
  unfold Modifiers.flags
  cases s.shiftL <;> cases s.shiftR <;> cases s.ctrlL <;> cases s.ctrlR <;> cases s.altL <;>
    cases s.altR <;> rfl

theorem keyOf_letter (h : k.IsLetter) (hk : k.code.toNat ≤ 0x58) :
    (Modifiers.after before).keyOf (keymap k.code) k.ext =
      (keymap k.code).1 - if upperCase before then 0x20 else 0 := by
  obtain ⟨hext, hlow, hhigh⟩ := h
  have hupper := (keymap_letter k.code hk hlow hhigh).1
  have hletter : (decide (ascii 'a' ≤ (keymap k.code).1) && decide ((keymap k.code).1 ≤ ascii 'z')) =
      true := by simp [hlow, hhigh]
  have hcaps : (if (Modifiers.after before).capsLock && true then
      !((Modifiers.after before).shiftL || (Modifiers.after before).shiftR)
      else (Modifiers.after before).shiftL || (Modifiers.after before).shiftR) = upperCase before := by
    have hbool : ∀ c u : Bool, (if (c && true) = true then !u else u) = (u ^^ c) := by decide
    exact hbool _ _
  rw [Modifiers.keyOf, hletter, hcaps, hext, hupper]
  cases upperCase before <;> simp

/-- A letter comes in the right case. -/
theorem delivers_decode (hkey : ((Modifiers.after before).decode (k.scanCode make) k.ext).2 = some key) :
    GivesKey (before, .key k make range notPrint) key := by
  rintro k' make' range' notPrint' heq hletter
  obtain ⟨rfl, rfl⟩ : k = k' ∧ make = make' := by simpa using heq
  have hof : (Modifiers.after before).keyOf (keymap k.code) k.ext = _ := keyOf_letter hletter range.2
  obtain ⟨hrow, hmake⟩ := keymap_scanCode k.code range.2 k.ext make
  obtain ⟨hraw, hpad⟩ := (keymap_letter k.code range.2 hletter.2.1 hletter.2.2).2 (upperCase before)
  rw [Modifiers.decode, hrow, hmake, hof] at hkey
  cases make with
  | false => cases hkey
  | true =>
    simp only [if_true, hpad, false_and, if_false, Option.some.injEq] at hkey
    rw [← hkey, BitVec.and_or_distrib_right, flags_and_maskRaw, hraw]
    exact BitVec.or_zero

/-! ## F12 -/

theorem keymap_maskRaw : ∀ b : Byte, b.toNat ≤ 0x58 → (keymap b).1 &&& maskRaw = (keymap b).1 ∧
    (keymap b).2.1 &&& maskRaw = (keymap b).2.1 ∧ (keymap b).2.2 &&& maskRaw = (keymap b).2.2 := by
  decide +kernel

theorem keyOf_maskRaw (hk : k.code.toNat ≤ 0x58) :
    s.keyOf (keymap k.code) k.ext &&& maskRaw = s.keyOf (keymap k.code) k.ext := by
  obtain ⟨hplain, hshift, hext⟩ := keymap_maskRaw k.code hk
  simp only [Modifiers.keyOf]
  split_ifs <;> assumption

theorem padKey_ne_f12 (h : keyPadSlash ≤ key) (h' : key ≤ keyPad9) :
    s.padKey key &&& maskRaw ≠ keyF12 := by
  have hall : ∀ j : Fin 16, ∀ numLock : Bool,
      ({ numLock } : Modifiers).padKey (keyPadSlash + BitVec.ofNat 32 j) &&& maskRaw ≠ keyF12 := by
    decide +kernel
  have hlow : (keyPadSlash : BitVec 32).toNat ≤ key.toNat := h
  have hhigh : key.toNat ≤ (keyPad9 : BitVec 32).toNat := h'
  have hslash : (keyPadSlash : BitVec 32).toNat = 0x12C := rfl
  have hnine : (keyPad9 : BitVec 32).toNat = 0x13B := rfl
  have hkey : key = keyPadSlash + BitVec.ofNat 32 (key.toNat - 0x12C) := by
    apply BitVec.eq_of_toNat_eq
    rw [BitVec.toNat_add, BitVec.toNat_ofNat, hslash]
    omega
  have := hall ⟨key.toNat - 0x12C, by omega⟩ s.numLock
  rw [hkey]
  exact this

theorem altL_of_flags : s.flags &&& flagAltL = 0 → s.altL = false := by
  unfold Modifiers.flags
  cases s.altL
  · exact fun _ => rfl
  · cases s.shiftL <;> cases s.shiftR <;> cases s.ctrlL <;> cases s.ctrlR <;> cases s.altR <;>
      exact fun h => absurd h (by decide)

theorem altR_of_flags : s.flags &&& flagAltR = 0 → s.altR = false := by
  unfold Modifiers.flags
  cases s.altR
  · exact fun _ => rfl
  · cases s.shiftL <;> cases s.shiftR <;> cases s.ctrlL <;> cases s.ctrlR <;> cases s.altL <;>
      exact fun h => absurd h (by decide)

/-- Only F12 has the key of F12, and the flags for ALT are those of the keys that are down. -/
theorem f12_of_decode (hk : k.code.toNat ≤ 0x58)
    (hkey : ((Modifiers.after before).decode (k.scanCode make) k.ext).2 = some key)
    (hf12 : key &&& maskRaw = keyF12) (hL : key &&& flagAltL = 0) (hR : key &&& flagAltR = 0) :
    k = f12Key ∧ make = true ∧ altLKey.down before = false ∧ altRKey.down before = false := by
  obtain ⟨hrow, hmake⟩ := keymap_scanCode k.code hk k.ext make
  rw [Modifiers.decode, hrow, hmake] at hkey
  cases make with
  | false => cases hkey
  | true =>
    simp only [if_true] at hkey
    split at hkey
    next hpad =>
      rw [← Option.some.inj hkey, BitVec.and_or_distrib_right, BitVec.and_or_distrib_right,
        flags_and_maskRaw] at hf12
      exact absurd hf12 (by
        have hzero : flagPad &&& maskRaw = 0 := rfl
        rw [hzero]
        simpa using padKey_ne_f12 hpad.1 hpad.2)
    next =>
      have hor (x y : BitVec 32) (h : 0 ||| x = y) : x = y := by simpa using h
      rw [← Option.some.inj hkey] at hf12 hL hR
      rw [BitVec.and_or_distrib_right, flags_and_maskRaw, keyOf_maskRaw hk] at hf12
      replace hf12 : (Modifiers.after before).keyOf (keymap k.code) k.ext = keyF12 := by
        simpa using hf12
      rw [hf12, BitVec.and_or_distrib_right] at hL hR
      have hLdown := altL_of_flags (hor _ _ hL)
      have hRdown := altR_of_flags (hor _ _ hR)
      rw [Modifiers.note_eq] at hLdown hRdown
      exact ⟨(keyOf_eq_iff (maps_of_mem (by decide)) hk).mp hf12, rfl, hLdown, hRdown⟩

end

end Dlos
