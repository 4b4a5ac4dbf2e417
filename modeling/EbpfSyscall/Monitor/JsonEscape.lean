import Mathlib

/-!
# Strings of the monitor's JSON

`json_escape` of `syscall_monitor.c`. The source is the memory at `src` and the destination is what is written to `dst`.
-/

namespace EbpfSyscall.Monitor

/-- A digit of `%04x`. -/
def hexDigit (n : UInt8) : UInt8 := if n < 10 then 0x30 + n else 0x57 + n

/-- `esc`: the escape of a byte that needs one. -/
def esc (c : UInt8) : Option (List UInt8) :=
  if c = 0x22 then some [0x5C, 0x22]
  else if c = 0x5C then some [0x5C, 0x5C]
  else if c = 0x08 then some [0x5C, 0x62]
  else if c = 0x0C then some [0x5C, 0x66]
  else if c = 0x0A then some [0x5C, 0x6E]
  else if c = 0x0D then some [0x5C, 0x72]
  else if c = 0x09 then some [0x5C, 0x74]
  else if c < 0x20 then some [0x5C, 0x75, 0x30, 0x30, hexDigit (c / 16), hexDigit (c % 16)]
  else none

/-- The loop, with what has been written to `dst`. -/
def jsonEscapeLoop (dstSz : Nat) : List UInt8 → List UInt8 → List UInt8
  | [], dst => dst
  | c :: src, dst =>
    if c = 0 then dst
    else
      match esc c with
      | some esc => if dstSz ≤ dst.length + esc.length + 1 then dst else jsonEscapeLoop dstSz src (dst ++ esc)
      | none => if dstSz ≤ dst.length + 2 then dst else jsonEscapeLoop dstSz src (dst ++ [c])

/-- `json_escape`: what is written to `dst`. -/
def jsonEscape (dstSz : Nat) (src : List UInt8) (srcMax : Nat) : List UInt8 :=
  if dstSz = 0 then [] else jsonEscapeLoop dstSz (src.take srcMax) [] ++ [0]

end EbpfSyscall.Monitor
