import EbpfSyscall.Dump

/-!
# The object splitter of the replayer

The main loop of `syscall_replayer.c` reads the trace line by line, counts braces, and collects lines from the first opening brace on;
when the braces balance at the end of a line, it hands what it has collected to the parser. The trace is the text that
`filter_syscall_log.py` writes: `json.dump` of the list of the records that it keeps.
-/

namespace EbpfSyscall.Replayer

/-- `LINE_BUF`. -/
def lineBuf : Nat := 4096 + 512

/-- `JSON_BUFFER_SIZE`. -/
def jsonBufferSize : Nat := 4096 * 20

/-- At most so many characters, up to and with a line break, and the rest of the file. -/
def takeLine : Nat → Text → Text × Text
  | 0, text => ([], text)
  | _ + 1, [] => ([], [])
  | n + 1, c :: rest =>
    if c = '\n' then ([c], rest)
    else
      let (line, after) := takeLine n rest
      (c :: line, after)

/-- What `fgets` returns until the end of the file; every call reads at least one character. -/
def readLines : Nat → Text → List Text
  | 0, _ => []
  | _ + 1, [] => []
  | fuel + 1, c :: text =>
    let (line, rest) := takeLine (lineBuf - 1) (c :: text)
    line :: readLines fuel rest

/-- The variables of the loop, and what has been handed to the parser. -/
structure Splitter where
  braceCount : Int
  inObject : Bool
  jsonBuffer : Text
  handed : List Text
  deriving DecidableEq, Repr

/-- The loop over the characters of a line. -/
def scanBraces (braceCount : Int) (inObject : Bool) : Text → Int × Bool
  | [] => (braceCount, inObject)
  | c :: rest =>
    if c = '{' then scanBraces (braceCount + 1) true rest
    else if c = '}' then scanBraces (braceCount - 1) inObject rest
    else scanBraces braceCount inObject rest

/-- Trailing line ends are removed before the parser is called. -/
def trimEnds (buffer : Text) : Text := buffer.rdropWhile fun c => c = '\n' ∨ c = '\r'

namespace Splitter

def start : Splitter := ⟨0, false, [], []⟩

/-- One line: it is skipped when it is empty, and the buffer is given up when it does not fit. -/
def line (s : Splitter) (read : Text) : Splitter :=
  let line := read.takeWhile fun c => c ≠ '\x00'
  if line.head? = none ∨ line.head? = some '\n' ∨ line.head? = some '\r' then s
  else
    let (braceCount, inObject) := scanBraces s.braceCount s.inObject line
    if inObject = true ∧ jsonBufferSize - 1 ≤ s.jsonBuffer.length + line.length then
      { s with braceCount := 0, inObject := false, jsonBuffer := [] }
    else
      let jsonBuffer := if inObject = true then s.jsonBuffer ++ line else s.jsonBuffer
      if inObject = true ∧ braceCount = 0 then { s with braceCount, inObject := false, jsonBuffer := [], handed := s.handed ++ [trimEnds jsonBuffer] }
      else { s with braceCount, inObject, jsonBuffer }

end Splitter

/-- What the parser gets for a file. -/
def handedOver (text : Text) : List Text := ((readLines text.length text).foldl Splitter.line Splitter.start).handed

/-- A record: a dict. -/
abbrev Record := List (List Nat × Python.PyValue)

/-- What `filter_log` writes. -/
def fileText (kept : List Record) : Text := Python.dump (.list (kept.map .dict))

/-- The text of a record in the file. -/
def recordText (record : Record) : Text := Layout.indent 1 ++ Layout.print 1 (Python.PyValue.dict record).tree

/-- The records one by one, each whole, with the comma that follows it in its line. -/
def recordTexts : List Record → List Text
  | [] => []
  | [record] => [recordText record]
  | record :: next :: records => (recordText record ++ [',']) :: recordTexts (next :: records)

end EbpfSyscall.Replayer
