import Dlos.Fs.Sector

/-!
# `vsprintf`

A pointer into the format is what is left of it before its terminating 0. The text is the bytes from
`buf` to `p`.
-/

namespace Dlos

open Bytes

abbrev chr (c : Char) : Byte := BitVec.ofNat 8 c.toNat

def isDigit (b : Byte) : Bool := 0x30 ≤ b.toNat ∧ b.toNat ≤ 0x39

def strDefaultLen : Nat := 1024

/-- A word of the arguments. -/
abbrev Arg := BitVec 32

namespace Vsprintf

/-- `*fmt` -/
def deChar (fmt : List Byte) : Byte := fmt.headD 0

/-- `fmt++`, before a character is read. Behind the terminating 0 there is none. -/
def nextChar : List Byte → Except Halt (List Byte)
  | [] => throw .wildIndex
  | _ :: fmt => pure fmt

/-- `p_next_arg += 4`, after a word was read. -/
def nextArg : List Arg → Except Halt (Arg × List Arg)
  | [] => throw .wildIndex
  | a :: args => pure (a, args)

/-- The characters that `i2a` writes, for so many calls. A call loses a digit of the number. -/
def i2a (base : Int) : Nat → Int → List Byte
  | 0, _ => []
  | calls + 1, val =>
    let m := val.tmod base
    let q := val.tdiv base
    (if q ≠ 0 then i2a base calls q else []) ++
      [if m < 10 then BitVec.ofInt 8 (m + 0x30) else BitVec.ofInt 8 (m - 10 + 0x41)]

/-- The string that an argument points to, as far as it fits in `inner_buf`. -/
def stringAt (mem : Store) (a : Arg) : List Byte :=
  cString ((List.range strDefaultLen).map fun i => mem (a + BitVec.ofNat 32 i).toNat)

/-- The string in `inner_buf` after the `switch`, and the arguments left. -/
def innerBuf (mem : Store) (c : Byte) (args : List Arg) : Except Halt (List Byte × List Arg) :=
  if c = chr 'c' then do
    let (m, args) ← nextArg args
    pure (cString [m.setWidth 8], args)
  else if c = chr 'x' then do
    let (m, args) ← nextArg args
    pure (i2a 16 32 m.toInt, args)
  else if c = chr 'd' then do
    let (m, args) ← nextArg args
    if m.toInt < 0 then pure (chr '-' :: i2a 10 32 (m * (-1)).toInt, args)
    else pure (i2a 10 32 m.toInt, args)
  else if c = chr 's' then do
    let (m, args) ← nextArg args
    if (stringAt mem m).length < strDefaultLen then pure (stringAt mem m, args)
    else throw .wildIndex
  else pure ([], args)

/-- The width `align_nr`, from the number so far, and the format behind it. -/
def alignNr : List Byte → BitVec 32 → BitVec 32 × List Byte
  | [], n => (n, [])
  | c :: fmt, n => if isDigit c then alignNr fmt (n * 10 + (c - chr '0').setWidth 32) else (n, c :: fmt)

/-- What is written for a directive, from behind its `%`; the format at its last character, and the
arguments left. -/
def directive (mem : Store) (fmt : List Byte) (args : List Arg) :
    Except Halt (List Byte × List Byte × List Arg) :=
  if deChar fmt = chr '%' then pure ([deChar fmt], fmt, args)
  else do
    let cs := if deChar fmt = chr '0' then chr '0' else chr ' '
    let fmt ← if deChar fmt = chr '0' then nextChar fmt else pure fmt
    let (n, fmt) := alignNr fmt 0
    let (q, args) ← innerBuf mem (deChar fmt) args
    pure (List.replicate (n.toInt - q.length).toNat cs ++ q, fmt, args)

/-- The loop. Each round reads on. -/
def loop (mem : Store) : Nat → List Byte → List Arg → List Byte → Except Halt (List Byte)
  | 0, _, _, _ => throw .diverge
  | rounds + 1, fmt, args, p =>
    if deChar fmt = 0 then pure p
    else do
      let (text, fmt, args) ←
        if deChar fmt ≠ chr '%' then pure ([deChar fmt], fmt, args)
        else do directive mem (← nextChar fmt) args
      loop mem rounds (← nextChar fmt) args (p ++ text)

end Vsprintf

/-- What is in `buf` afterwards, and `p - buf`. -/
def vsprintf (mem : Store) (fmt : List Byte) (args : List Arg) :
    Except Halt (List Byte × BitVec 32) := do
  let p ← Vsprintf.loop mem (fmt.length + 1) fmt args []
  pure (p ++ [0], BitVec.ofNat 32 p.length)

end Dlos
