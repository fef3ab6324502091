import Mathlib.Algebra.Group.Int.Defs
import Mathlib.Algebra.Group.Nat.Defs

/-!
# Formatted output (`lib/printfmt.c`)

The `vprintfmt` of the kernel and of the user library, which differ in `%o` only.  A pointer into the
format string is given by the bytes before and after it, up to the NUL.  Where the code would read
past the NUL, or an argument that is missing or of another type, a function returns nothing.
Arithmetic on `int` wraps.
-/

namespace MCertiKOS.Printfmt

/-! ## 1. Arguments -/

def chr (c : Char) : UInt8 := c.toUInt8

def toInt (n : Int) : Int := n.bmod (2 ^ 32)

inductive Kind
  | int | long | longLong | pointer | string
deriving DecidableEq

/-- An argument, signed or unsigned; a string has the bytes before its NUL. -/
inductive Arg
  | int (n : BitVec 32)
  | long (n : BitVec 32)
  | longLong (n : BitVec 64)
  | pointer (n : BitVec 32)
  | string (s : Option (List UInt8))

namespace Arg

def kind : Arg → Kind
  | int _ => .int
  | long _ => .long
  | longLong _ => .longLong
  | pointer _ => .pointer
  | string _ => .string

def signed : Arg → Int
  | int n | long n | pointer n => n.toInt
  | longLong n => n.toInt
  | string _ => 0

def unsigned : Arg → Nat
  | int n | long n | pointer n => n.toNat
  | longLong n => n.toNat
  | string _ => 0

def chars : Arg → Option (List UInt8)
  | string s => s
  | _ => none

end Arg

def vaArg (k : Kind) : List Arg → Option (Arg × List Arg)
  | a :: args => if a.kind = k then some (a, args) else none
  | [] => none

def numKind (lflag : Int) : Kind :=
  if 2 ≤ lflag then .longLong else if lflag ≠ 0 then .long else .int

def getuint (lflag : Int) (args : List Arg) : Option (Nat × List Arg) :=
  (vaArg (numKind lflag) args).map fun r => (r.1.unsigned, r.2)

def getint (lflag : Int) (args : List Arg) : Option (Int × List Arg) :=
  (vaArg (numKind lflag) args).map fun r => (r.1.signed, r.2)

/-! ## 2. The scanner -/

/-- A pointer; the bytes before it, the nearest first. -/
structure Cursor where
  before : List UInt8
  after : List UInt8

/-- `*fmt++`. -/
def Cursor.next : Cursor → Option (UInt8 × Cursor)
  | ⟨_, []⟩ => none
  | ⟨before, ch :: after⟩ => some (ch, ⟨ch :: before, after⟩)

structure Escape where
  padc : UInt8 := chr ' '
  width : Int := -1
  precision : Int := -1
  lflag : Int := 0
  altflag : Bool := false

def Escape.processPrecision (esc : Escape) (precision : Int) : Escape :=
  if esc.width < 0 then { esc with width := precision, precision := -1 }
  else { esc with precision }

inductive Conversion
  | character | string | decimal | unsigned | octal | pointer | hexadecimal | percent

inductive Label
  | minus | zero | width | star | dot | hash | long
  | convert (conv : Conversion)
  | default

def isDigit (ch : UInt8) : Bool := chr '0' ≤ ch && ch ≤ chr '9'

def label (ch : UInt8) : Label :=
  if isDigit ch then if ch = chr '0' then .zero else .width
  else if ch = chr '-' then .minus
  else if ch = chr '*' then .star
  else if ch = chr '.' then .dot
  else if ch = chr '#' then .hash
  else if ch = chr 'l' then .long
  else if ch = chr 'c' then .convert .character
  else if ch = chr 's' then .convert .string
  else if ch = chr 'd' then .convert .decimal
  else if ch = chr 'u' then .convert .unsigned
  else if ch = chr 'o' then .convert .octal
  else if ch = chr 'p' then .convert .pointer
  else if ch = chr 'x' then .convert .hexadecimal
  else if ch = chr '%' then .convert .percent
  else .default

def addDigit (precision : Int) (ch : UInt8) : Int := toInt (precision * 10 + ch.toNat - 48)

/-- The loop over a width field, with the number read so far. -/
def widthField (precision : Int) (before : List UInt8) : List UInt8 → Option (Int × Cursor)
  | [] => none
  | ch :: after =>
    if isDigit ch then widthField (addDigit precision ch) (ch :: before) after
    else some (precision, ⟨before, ch :: after⟩)

/-- From the label `reswitch` to a conversion, or to the default case. -/
def reswitch : Nat → Escape → List Arg → Cursor →
    Option (Option Conversion × Escape × List Arg × Cursor)
  | 0, _, _, _ => none
  | fuel + 1, esc, args, c => do
    let (ch, c) ← c.next
    match label ch with
    | .minus => reswitch fuel { esc with padc := chr '-' } args c
    | .zero => reswitch fuel { esc with padc := chr '0' } args c
    | .width => do
      let (precision, c) ← widthField (addDigit 0 ch) c.before c.after
      reswitch fuel (esc.processPrecision precision) args c
    | .star => do
      let (a, args) ← vaArg .int args
      reswitch fuel (esc.processPrecision a.signed) args c
    | .dot => reswitch fuel { esc with width := if esc.width < 0 then 0 else esc.width } args c
    | .hash => reswitch fuel { esc with altflag := true } args c
    | .long => reswitch fuel { esc with lflag := toInt (esc.lflag + 1) } args c
    | .convert conv => some (some conv, esc, args, c)
    | .default => some (none, esc, args, c)

/-! ## 3. Conversions -/

def digitChar (d : Nat) : Int := if d < 10 then 48 + d else 87 + d

/-- What is put out for a number; the pad characters come before the first digit. -/
def printnum (num base : Nat) (width : Int) (padc : UInt8) : List Int :=
  if 2 ≤ base ∧ base ≤ num then
    printnum (num / base) base (toInt (width - 1)) padc ++ [digitChar (num % base)]
  else List.replicate (toInt (width - 1)).toNat (padc.toNat : Int) ++ [digitChar (num % base)]
termination_by num
decreasing_by exact Nat.div_lt_self (by omega) (by omega)

/-- One character of a string: a `char` is signed. -/
def shownChar (altflag : Bool) (ch : UInt8) : Int :=
  let ch : Int := Int.bmod ch.toNat 256
  if altflag ∧ (ch < 32 ∨ 126 < ch) then 63 else ch

def strnlen (p : List UInt8) (size : Nat) : Nat := min p.length size

def printString (esc : Escape) (p : List UInt8) : List Int :=
  let leading := 0 < esc.width ∧ esc.padc ≠ chr '-'
  let width :=
    if leading then toInt (esc.width - strnlen p (esc.precision % 2 ^ 32).toNat) else esc.width
  let p := if esc.precision < 0 then p else p.take esc.precision.toNat
  let pad : List Int := if leading then List.replicate width.toNat esc.padc.toNat else []
  let width := if leading then min width 0 else width
  pad ++ p.map (shownChar esc.altflag) ++ List.replicate (toInt (width - p.length)).toNat 32

inductive Library
  | kern | user

section Convert

variable (lib : Library) (esc : Escape) (args : List Arg)

def printPointer : Option (List Int × List Arg) :=
  (vaArg .pointer args).map fun r =>
    (48 :: 120 :: printnum r.1.unsigned 16 esc.width esc.padc, r.2)

/-- The kernel goes on from `%o` to `%p`. -/
def convert : Conversion → Option (List Int × List Arg)
  | .character => (vaArg .int args).map fun r => ([r.1.signed], r.2)
  | .string => (vaArg .string args).map fun r =>
      (printString esc (r.1.chars.getD ("(null)".toList.map chr)), r.2)
  | .decimal => (getint esc.lflag args).map fun r =>
      (if r.1 < 0 then 45 :: printnum (-r.1).toNat 10 esc.width esc.padc
        else printnum r.1.toNat 10 esc.width esc.padc, r.2)
  | .unsigned => (getuint esc.lflag args).map fun r => (printnum r.1 10 esc.width esc.padc, r.2)
  | .octal =>
    match lib with
    | .kern => printPointer esc args
    | .user => some ([88, 88, 88], args)
  | .pointer => printPointer esc args
  | .hexadecimal => (getuint esc.lflag args).map fun r => (printnum r.1 16 esc.width esc.padc, r.2)
  | .percent => some ([37], args)

end Convert

/-! ## 4. `vprintfmt` -/

def literal (before : List UInt8) : List UInt8 → Option (List Int × Option Cursor)
  | [] => none
  | ch :: after =>
    if ch = chr '%' then some ([], some ⟨ch :: before, after⟩)
    else if ch = 0 then some ([], none)
    else (literal (ch :: before) after).map fun r => (ch.toNat :: r.1, r.2)

/-- Back to where the byte before is a `%`. -/
def rewind : List UInt8 → List UInt8 → Option Cursor
  | [], _ => none
  | ch :: before, after =>
    if ch = chr '%' then some ⟨ch :: before, after⟩ else rewind before (ch :: after)

/-- `for (fmt--; fmt[-1] != '%'; fmt--)`. -/
def Cursor.unread : Cursor → Option Cursor
  | ⟨[], _⟩ => none
  | ⟨ch :: before, after⟩ => rewind before (ch :: after)

/-- The characters given to `putch`. -/
def vprintfmt (lib : Library) : Nat → List Arg → Cursor → Option (List Int)
  | 0, _, _ => none
  | fuel + 1, args, c => do
    let (text, next) ← literal c.before c.after
    match next with
    | none => some text
    | some c => do
      let (conv, esc, args, c) ← reswitch fuel {} args c
      match conv with
      | none => do
        let c ← c.unread
        let rest ← vprintfmt lib fuel args c
        some (text ++ 37 :: rest)
      | some conv => do
        let (shown, args) ← convert lib esc args conv
        let rest ← vprintfmt lib fuel args c
        some (text ++ (shown ++ rest))

end MCertiKOS.Printfmt
