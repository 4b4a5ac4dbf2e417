import EbpfSyscall.Lib.Decimal
import EbpfSyscall.Lib.Fields

/-!
# Text as the two languages see it

A text is its list of Unicode scalar values. Rust's `str` and the Python strings that can be written as UTF-8 are both such
lists, but the two languages do not agree on which characters are blanks or end a line:

* Rust's `char::is_whitespace` is the Unicode property `White_Space`; Python's `str.split` also splits at U+001C to U+001F.
* Rust's `str::lines` ends a line at `\n` only and drops one `\r` before it; Python's `str.splitlines` ends a line at ten
  different characters and takes `\r\n` as one line break.

Numbers differ too: `str::parse::<u64>` takes ASCII digits after an optional plus sign, Python's `int` takes any Unicode decimal
digit, underscores between digits and either sign. The definitions follow the documentation of the two standard libraries;
CPython's configurable cap on the digits of one conversion is not modelled.
-/

namespace EbpfSyscall

/-- A text: its Unicode scalar values in order. -/
abbrev Text := List Char

instance : LawfulBEq Text := inferInstance

/-! ## Rust -/

namespace Rust

/-- `char::is_whitespace`: the Unicode property `White_Space`. -/
def isWhitespace (c : Char) : Bool :=
  let n := c.toNat
  (9 ≤ n && n ≤ 13) || n == 0x20 || n == 0x85 || n == 0xA0 || n == 0x1680 || (0x2000 ≤ n && n ≤ 0x200A) ||
    n == 0x2028 || n == 0x2029 || n == 0x202F || n == 0x205F || n == 0x3000

/-- A line ended by `\n` loses one `\r` before it. -/
def stripCr (line : Text) : Text := if line.getLast? = some '\r' then line.dropLast else line

/-- `str::lines`. A last line without `\n` keeps its `\r`. -/
def lines (text : Text) : List Text := Fields.lines stripCr (· == '\n') text

/-- `str::split_whitespace`. -/
def splitWhitespace (line : Text) : List Text := Fields.fields isWhitespace line

/-- `str::parse::<u64>`: an optional plus sign, then ASCII digits whose value fits. -/
def parse (value : Text) : Option UInt64 :=
  let digits := match value with
    | '+' :: rest => rest
    | _ => value
  (Decimal.read digits).bind (fun n => if n < 2 ^ 64 then some (UInt64.ofNat n) else none)

/-- `u64::checked_add`. -/
def checkedAdd (a b : UInt64) : Option UInt64 := if a.toNat + b.toNat < 2 ^ 64 then some (a + b) else none

/-- `u64::is_multiple_of`: a multiple of zero is zero. -/
def isMultipleOf (a b : UInt64) : Bool := a.toNat % b.toNat == 0

/-- `u64::is_power_of_two`. -/
def isPowerOfTwo (a : UInt64) : Bool := decide a.toNat.isPowerOfTwo

/-- The decimal form of `format!("{}", n)`. -/
def display (n : UInt64) : Text := Decimal.print n.toNat

end Rust

/-! ## Python -/

namespace Python

/-- `str.isspace` of one character, the separators of `str.split()`. -/
def isSpace (c : Char) : Bool := Rust.isWhitespace c || (0x1C ≤ c.toNat && c.toNat ≤ 0x1F)

/-- The characters that end a line of `str.splitlines`. -/
def isLineBreak (c : Char) : Bool :=
  let n := c.toNat
  (0xA ≤ n && n ≤ 0xD) || (0x1C ≤ n && n ≤ 0x1E) || n == 0x85 || n == 0x2028 || n == 0x2029

/-- Every `\r\n` as `\n`, so that it counts as one line break. -/
def joinCrLf : Text → Text
  | '\r' :: '\n' :: rest => '\n' :: joinCrLf rest
  | c :: rest => c :: joinCrLf rest
  | [] => []

/-- `str.splitlines()`. -/
def splitlines (text : Text) : List Text := Fields.lines id isLineBreak (joinCrLf text)

/-- `str.split()`. -/
def split (line : Text) : List Text := Fields.fields isSpace line

/-- The code points of the zeros of the Unicode decimal digits (category `Nd`); the nine digits that follow each are its
digits 1 to 9. -/
def digitZeros : List Nat :=
  [0x30, 0x660, 0x6F0, 0x7C0, 0x966, 0x9E6, 0xA66, 0xAE6, 0xB66, 0xBE6, 0xC66, 0xCE6, 0xD66, 0xDE6, 0xE50, 0xED0, 0xF20, 0x1040,
    0x1090, 0x17E0, 0x1810, 0x1946, 0x19D0, 0x1A80, 0x1A90, 0x1B50, 0x1BB0, 0x1C40, 0x1C50, 0xA620, 0xA8D0, 0xA900, 0xA9D0,
    0xA9F0, 0xAA50, 0xABF0, 0xFF10, 0x104A0, 0x10D30, 0x11066, 0x110F0, 0x11136, 0x111D0, 0x112F0, 0x11450, 0x114D0, 0x11650,
    0x116C0, 0x11730, 0x118E0, 0x11950, 0x11C50, 0x11D50, 0x11DA0, 0x16A60, 0x16AC0, 0x16B50, 0x1D7CE, 0x1D7D8, 0x1D7E2,
    0x1D7EC, 0x1D7F6, 0x1E140, 0x1E2F0, 0x1E950, 0x1FBF0]

/-- The value of a decimal digit of any script. -/
def digitValue (c : Char) : Option Nat :=
  (digitZeros.find? (fun z => z ≤ c.toNat && c.toNat < z + 10)).map (fun z => c.toNat - z)

/-- The digits of a numeral, most significant first, with single underscores allowed between two digits. `value` is the number
read so far. -/
def digitsFrom (value : Nat) : Text → Option Nat
  | [] => some value
  | '_' :: c :: rest => (digitValue c).bind (fun d => digitsFrom (value * 10 + d) rest)
  | c :: rest => (digitValue c).bind (fun d => digitsFrom (value * 10 + d) rest)

/-- The digits after the sign: the first character is a digit. -/
def digits : Text → Option Nat
  | [] => none
  | c :: rest => (digitValue c).bind (fun d => digitsFrom d rest)

/-- `int(text)`: blanks around, an optional sign, then digits. -/
def intOfText (text : Text) : Option Int :=
  match ((text.dropWhile isSpace).reverse.dropWhile isSpace).reverse with
  | '-' :: rest => (digits rest).map (fun n => -Int.ofNat n)
  | '+' :: rest => (digits rest).map Int.ofNat
  | word => (digits word).map Int.ofNat

end Python

end EbpfSyscall
