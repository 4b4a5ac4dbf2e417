import EbpfSyscall.Ir.Workload

/-!
# The fio v3 iolog: emitter and parser

`emit_fio_iolog` writes a header, an add and an open line, one line for each command and a close line. `parse_fio_iolog` reads
such a text back with a state machine over its lines: an add, then an open, then commands, then one close whose timestamp is the
last command's.
-/

namespace EbpfSyscall

open Checked

/-- `FIO_V3_HEADER`. -/
def fioV3Header : Text := "fio version 3 iolog".toList

/-! ## The emitter -/

/-- The line of one command: reads and writes carry their extent. -/
def commandLine (filename : Text) (command : Command) : Text :=
  let atUs := (quantizeTimestampNs command.atNs).1
  if command.op.isData = true then
    Rust.display atUs ++ [' '] ++ filename ++ [' '] ++ command.op.fioName ++ [' '] ++ Rust.display command.offsetBytes ++
      [' '] ++ Rust.display command.lengthBytes ++ ['\n']
  else
    Rust.display atUs ++ [' '] ++ filename ++ [' '] ++ command.op.fioName ++ ['\n']

/-- The timestamp of the close line: the last command's, or zero. -/
def closeUs (commands : List Command) : UInt64 :=
  (commands.getLast?.map (fun command => (quantizeTimestampNs command.atNs).1)).getD 0

/-- The text `emit_fio_iolog` builds once its checks have passed. -/
def iologText (commands : List Command) (filename : Text) : Text :=
  fioV3Header ++ ['\n'] ++
    ("0 ".toList ++ filename ++ " add\n0 ".toList ++ filename ++ " open\n".toList) ++
    commands.flatMap (commandLine filename) ++
    (Rust.display (closeUs commands) ++ [' '] ++ filename ++ " close\n".toList)

def emitFioIolog (commands : List Command) (filename : Text) : Except IrError Text := do
  ensure (filename ≠ [] ∧ filename.any Rust.isWhitespace = false)
    ⟨"fio target must be nonempty and contain no whitespace"⟩
  validateWorkload { schemaVersion := 1, commands } 1 {}
  pure (iologText commands filename)

/-! ## The parser -/

/-- The state of the parser between two lines. -/
structure ParseState where
  filename : Option Text := none
  sawAdd : Bool := false
  sawOpen : Bool := false
  sawClose : Bool := false
  commands : List FioCommand := []
  deriving DecidableEq, Repr

def parseU64 (value : Text) (line : Nat) (field : String) : Except IrError UInt64 :=
  require (Rust.parse value) ⟨s!"line {line} has invalid {field}"⟩

/-- The actions of a line, told apart by the third field and the number of fields. -/
inductive Action where
  | add | open | close
  | data (op : Operation) (offset length : Text)
  | sync (op : Operation)
  | other
  deriving DecidableEq, Repr

/-- The patterns of the parser's `match (fields[2], fields.len())`, before their guards. -/
def actionOf : List Text → Action
  | [_, _, word] =>
    if word = "add".toList then .add
    else if word = "open".toList then .open
    else if word = "close".toList then .close
    else if word = "sync".toList then .sync .sync
    else if word = "datasync".toList then .sync .datasync
    else .other
  | [_, _, word, offset, length] =>
    if word = "read".toList then .data .read offset length
    else if word = "write".toList then .data .write offset length
    else .other
  | _ => .other

/-- The guards and effects of the parser's `match`. A guard that fails falls through to the last arm. -/
def applyAction (st : ParseState) (lineNumber : Nat) (atUs : UInt64) : Action → Except IrError ParseState
  | .add =>
    if st.sawAdd = false ∧ st.sawOpen = false ∧ st.commands = [] then .ok { st with sawAdd := true } else invalid
  | .open =>
    if st.sawAdd = true ∧ st.sawOpen = false ∧ st.commands = [] then .ok { st with sawOpen := true } else invalid
  | .close =>
    if st.sawOpen = true ∧ st.sawClose = false then do
      ensure (atUs = (st.commands.getLast?.map (·.atUs)).getD 0) ⟨"close timestamp does not match the last command"⟩
      pure { st with sawClose := true }
    else invalid
  | .data op offset length =>
    if st.sawOpen = true ∧ st.sawClose = false then do
      let lengthBytes ← parseU64 length lineNumber "length"
      let offsetBytes ← parseU64 offset lineNumber "offset"
      pure { st with commands := st.commands ++ [{ atUs, lengthBytes, offsetBytes, op }] }
    else invalid
  | .sync op =>
    if st.sawOpen = true ∧ st.sawClose = false then
      .ok { st with commands := st.commands ++ [{ atUs, lengthBytes := 0, offsetBytes := 0, op }] }
    else invalid
  | .other => invalid
where
  invalid : Except IrError ParseState := .error ⟨s!"line {lineNumber} has an invalid action or ordering"⟩

/-- One line of the iolog after the header. `index` counts from zero, as `enumerate` does. -/
def parseLine (st : ParseState) (index : Nat) (line : Text) : Except IrError ParseState :=
  let lineNumber := index + 2
  match Rust.splitWhitespace line with
  | stamp :: name :: action :: rest => do
    let atUs ← parseU64 stamp lineNumber "timestamp"
    ensure (st.filename.all (fun known => known = name) = true) ⟨s!"line {lineNumber} changes the fio target"⟩
    applyAction { st with filename := some (st.filename.getD name) } lineNumber atUs
      (actionOf (stamp :: name :: action :: rest))
  | _ => .error ⟨s!"line {lineNumber} is incomplete"⟩

/-- `commands.windows(2).any(|pair| pair[1].at_us < pair[0].at_us)` does not hold. -/
def timestampsNondecreasing (commands : List FioCommand) : Bool :=
  (commands.zip commands.tail).all (fun pair => decide (pair.1.atUs ≤ pair.2.atUs))

def parseFioIolog (text : Text) : Except IrError ParsedIolog :=
  match Rust.lines text with
  | [] => .error ⟨"invalid fio v3 header"⟩
  | header :: lines => do
    ensure (header = fioV3Header) ⟨"invalid fio v3 header"⟩
    let st ← foldFrom parseLine 0 {} lines
    ensure (st.sawAdd = true ∧ st.sawOpen = true ∧ st.sawClose = true)
      ⟨"iolog must contain ordered add, open, and close actions"⟩
    ensure (timestampsNondecreasing st.commands = true) ⟨"iolog command timestamps move backwards"⟩
    -- A line that sets `sawAdd` has set the filename, so the parser's `expect` does not fail.
    let filename ← require st.filename ⟨"file actions establish a filename"⟩
    pure { filename, commands := st.commands }

end EbpfSyscall
