import EbpfSyscall.Lib.Segments
import EbpfSyscall.Json

/-!
# The framing of the coordinator's messages

`send` and `recv` of `coordinator.py`: a message is its JSON text after the number of its bytes, in four bytes, the highest first. The
receiving side of a socket is a stream of bytes that arrives in segments.
-/

namespace EbpfSyscall.Framing

open Segments

/-- `json.dumps(obj, sort_keys=True).encode()` and `json.loads(body.decode())`, which gives a message back. -/
structure Codec (μ : Type) where
  dumps : μ → List UInt8
  loads : List UInt8 → Except PyError μ
  loads_dumps : ∀ message, loads (dumps message) = .ok message

/-- The receiving side of a connection. -/
abbrev Socket := Segmented UInt8

/-- `struct.pack("!I", n)`, an error when the number does not fit. -/
def pack (n : Nat) : Option (List UInt8) :=
  if n < 2 ^ 32 then some [UInt8.ofNat (n / 2 ^ 24), UInt8.ofNat (n / 2 ^ 16), UInt8.ofNat (n / 2 ^ 8), UInt8.ofNat n] else none

/-- `struct.unpack("!I", head)`. -/
def unpack (head : List UInt8) : Nat := head.foldl (fun n byte => n * 2 ^ 8 + byte.toNat) 0

/-- What `send` writes. -/
def send {μ : Type} (codec : Codec μ) (obj : μ) : Option (List UInt8) := do
  let data := codec.dumps obj
  let head ← pack data.length
  some (head ++ data)

/-- What several calls of `send` write. -/
def sendAll {μ : Type} (codec : Codec μ) : List μ → Option (List UInt8)
  | [] => some []
  | obj :: rest => do
    let frame ← send codec obj
    let later ← sendAll codec rest
    some (frame ++ later)

/-- `_recv_exact`. -/
def recvExact (sock : Socket) (n : Nat) : Option (List UInt8) × Socket := readUntil n [] sock

/-- `recv`: `none` at the end of the stream. -/
def recv {μ : Type} (codec : Codec μ) (sock : Socket) : Except PyError (Option μ × Socket) :=
  match recvExact sock 4 with
  | (none, sock) => .ok (none, sock)
  | (some head, sock) =>
    match recvExact sock (unpack head) with
    | (none, sock) => .ok (none, sock)
    | (some body, sock) => do
      let message ← codec.loads body
      .ok (some message, sock)

/-- What calls of `recv` return one after the other. -/
def recvs {μ : Type} (codec : Codec μ) : Nat → Socket → Except PyError (List (Option μ) × Socket)
  | 0, sock => .ok ([], sock)
  | count + 1, sock => do
    let first ← recv codec sock
    let rest ← recvs codec count first.2
    .ok (first.1 :: rest.1, rest.2)

end EbpfSyscall.Framing
