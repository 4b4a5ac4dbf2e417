import EbpfSyscall.Lib.Assoc
import EbpfSyscall.Lib.Decimal
import EbpfSyscall.Text

/-!
# Names in an S3 capture

`RecordingS3` of `tools/kvio/s3_client.py` replaces the keys of the application by synthetic ones, component by component, and remembers
what it has given out. Here are the names; what a call records besides them is left out.
-/

namespace EbpfSyscall.Kvio

/-- `"/".join(parts)`. -/
def joinSlash (parts : List Text) : Text := ['/'].intercalate parts

/-- `mapping["components"]`: for each joined prefix, the names of the components that follow it. -/
abbrev Components := Assoc Text (Assoc Text Text)

/-- The tables of names. -/
structure RecordingS3 where
  /-- `_keys`. -/
  keys : Assoc Text Text := .empty
  components : Components := .empty
  deriving DecidableEq, Repr

namespace RecordingS3

/-- The name of a component in a table, which gets a new one if it has none. -/
def component (table : Assoc Text Text) (part : Text) : Text × Assoc Text Text :=
  match table.get part with
  | some name => (name, table)
  | none => ('k' :: Decimal.print table.entries.length, table.set part ('k' :: Decimal.print table.entries.length))

/-- The loop over the parts; `front` are the parts before. -/
def walk (components : Components) (front : List Text) : List Text → List Text × Components
  | [] => ([], components)
  | part :: rest =>
    let named := component ((components.get (joinSlash front)).getD .empty) part
    let done := walk (components.set (joinSlash front) named.2) (front ++ [part]) rest
    (named.1 :: done.1, done.2)

/-- `[p for p in real.split("/") if p]`. -/
def partsOf (real : Text) : List Text := (real.splitOn '/').filter (· ≠ [])

/-- `"/"` if the text ends in it. -/
def trailing (real : Text) : Text := if real.getLast? = some '/' then ['/'] else []

/-- `_key`. -/
def key (s : RecordingS3) (real : Text) : Text × RecordingS3 :=
  match s.keys.get real with
  | some name => (name, s)
  | none =>
    let walked := walk s.components [] (partsOf real)
    let name := joinSlash walked.1 ++ trailing real
    (name, { keys := s.keys.set real name, components := walked.2 })

end RecordingS3

/-- A key or a list prefix that the application uses. -/
inductive Use where
  | key (real : Text)
  | list (real : Text)
  deriving DecidableEq, Repr

namespace RecordingS3

/-- What a call records for a key or a prefix: the empty prefix stays as it is. -/
def record (s : RecordingS3) : Use → Text × RecordingS3
  | .key real => s.key real
  | .list real => if real = [] then ([], s) else s.key real

/-- The uses with what is recorded for them. -/
def recordAll (s : RecordingS3) : List Use → List (Use × Text)
  | [] => []
  | use :: rest => (use, (s.record use).1) :: recordAll (s.record use).2 rest

end RecordingS3

end EbpfSyscall.Kvio
