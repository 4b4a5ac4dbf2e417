import EbpfSyscall.Json
import EbpfSyscall.Ir.Runtime

/-!
# What the host's libraries provide

Hashing, text encoding and JSON come from the standard libraries of the two languages and from the crates the verifier links.
The model takes them as a `Host`: any implementation will do that hashes to 64 hexadecimal digits and reads back the text it
encoded. Python and Rust share one host: SHA-256 and the compact JSON encoding of a command list are the same function on both
sides.
-/

namespace EbpfSyscall

/-- A command of the normalized stream as JSON writes it: integers without a width. -/
structure NormalizedCommand where
  seq : Int
  atNs : Int
  op : Operation
  offsetBytes : Int
  lengthBytes : Int
  deriving DecidableEq, Repr

/-- Why `json.loads` with a hook against repeated keys fails. -/
inductive JsonFailure where
  | duplicateKey (key : Text)
  | invalid
  deriving DecidableEq, Repr

structure Host where
  /-- Byte strings: the content of a file. -/
  Bytes : Type
  /-- `str.encode()`, and what `write_text(…, encoding="utf-8")` writes. -/
  encode : Text → Bytes
  /-- Decoding UTF-8; `none` is a `UnicodeDecodeError`. -/
  decode : Bytes → Option Text
  /-- `hashlib.sha256(…).hexdigest()` and the verifier's `sha256_hex`. -/
  sha256 : Bytes → Text
  /-- `json.loads`. -/
  jsonLoads : Text → Except JsonFailure Json
  /-- `json.dumps(…, indent=2, sort_keys=True)`. -/
  jsonDumps : Json → Text
  /-- The compact JSON encoding of the command list, `json.dumps(normalized, sort_keys=True, separators=(",", ":")).encode()`
  and `serde_json::to_vec(&workload.commands)`. -/
  streamBytes : List NormalizedCommand → Bytes
  /-- `repr`, for error messages. -/
  repr : Option Json → String
  decode_encode : ∀ text, decode (encode text) = some text
  sha256_hex : ∀ bytes, isSha256 (sha256 bytes) = true

/-- Hashing a text hashes its UTF-8 bytes. -/
def Host.sha256Text (Γ : Host) (text : Text) : Text := Γ.sha256 (Γ.encode text)

end EbpfSyscall
