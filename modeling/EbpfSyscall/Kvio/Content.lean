import EbpfSyscall.Kvio.Intent2

/-!
# Synthetic content

What a replay writes: `synthetic_bytes` of `tools/kvio/intent_exec.py` and `content` of `tools/kvio/content_profile.py`. Both are
pure functions of an identity and a range. The hash function is any function with digests of the size asked for.
-/

namespace EbpfSyscall.Kvio

abbrev Bytes := List UInt8

/-- What the content needs of the host. -/
structure ContentHost where
  /-- `hashlib.blake2b(text.encode(), digest_size=n).digest()`. -/
  blake2b : Nat → Text → Bytes
  /-- The double nearest to a number. -/
  double : Rat → Rat
  length_blake2b : ∀ n text, (blake2b n text).length = n

/-- `synthetic_bytes`: the digests of the blocks of 64 bytes that the range touches, and the range cut out of them. -/
def syntheticBytes (H : ContentHost) (objectId : Text) (version : Version) (offset : Int) (length : Nat) : Bytes :=
  let first := offset / 64
  let last := (offset + length - 1) / 64
  let out := (List.range (last + 1 - first).toNat).flatMap fun k : Nat =>
    H.blake2b 64 (objectId ++ [':'] ++ version.text ++ [':'] ++ Decimal.printInt (first + k))
  (out.drop (offset - first * 64).toNat).take length

/-- `a < b`. -/
def lessThan : PyFloat → PyFloat → Bool
  | .finite p, .finite q => decide (p < q)
  | .finite _, .inf negative => !negative
  | .inf negative, .finite _ => negative
  | .inf a, .inf b => a && !b
  | _, _ => false

/-- `a + b`; a sum of two numbers is rounded. -/
def plus (round : Rat → Rat) : PyFloat → PyFloat → PyFloat
  | .finite p, .finite q => .finite (round (p + q))
  | .finite _, .inf negative | .inf negative, .finite _ => .inf negative
  | .inf a, .inf b => if a = b then .inf a else .nan
  | _, _ => .nan

/-- The knobs of a mixed profile. -/
structure Knobs where
  zero : PyFloat
  pattern : PyFloat
  patternLen : Int
  dupClasses : Int
  block : Nat
  blockPos : 0 < block
  deriving DecidableEq, Repr

/-- A content profile whose blocks are not empty. -/
inductive ContentProfile where
  | zeros
  | incompressible
  | mixed (knobs : Knobs)
  deriving DecidableEq, Repr

/-- `profile.get("block", BLOCK)`. -/
def ContentProfile.block : ContentProfile → Nat
  | .mixed knobs => knobs.block
  | _ => 4096

/-- `int.from_bytes(digest, "big")`. -/
def fromBigEndian (digest : Bytes) : Nat := digest.foldl (fun value byte => value * 256 + byte.toNat) 0

/-- `_hash_stream`: digests one after the other until there is enough. -/
def hashStream (H : ContentHost) (identity : Text) (blockIndex length : Nat) : Bytes :=
  ((List.range ((length + 63) / 64)).flatMap fun n =>
    H.blake2b 64 (identity ++ [':'] ++ Decimal.print blockIndex ++ [':'] ++ Decimal.print n)).take length

/-- `(pat * (length // len(pat) + 1))[:length]`. -/
def repeated (pattern : Bytes) (length : Nat) : Bytes :=
  ((List.replicate (length / pattern.length + 1) pattern).flatten).take length

/-- `_block_bytes`. -/
def blockBytes (H : ContentHost) (profile : ContentProfile) (identity : Text) (blockIndex length : Nat) : Bytes :=
  let seed (suffix : String) : Text := identity ++ [':'] ++ Decimal.print blockIndex ++ suffix.toList
  match profile with
  | .zeros => List.replicate length 0
  | .incompressible => hashStream H identity blockIndex length
  | .mixed knobs =>
    let r := PyFloat.finite (H.double (fromBigEndian (H.blake2b 8 (seed ":class")) / 2 ^ 64))
    if lessThan r knobs.zero then List.replicate length 0
    else if lessThan r (plus H.double knobs.zero knobs.pattern) then
      repeated (H.blake2b (max 1 (min 64 knobs.patternLen)).toNat (seed ":pat")) length
    else if knobs.dupClasses ≠ 0 then
      -- One of the blocks that all objects share.
      let cls := (fromBigEndian (H.blake2b 4 (seed ":dup")) : Int).fmod knobs.dupClasses
      hashStream H ("dup-class-".toList ++ Decimal.printInt cls) 0 length
    else hashStream H identity blockIndex length

/-- The loop of `content` from `pos` to `stop`. Each turn takes at least one byte, so the number of bytes bounds the turns. -/
def contentLoop (H : ContentHost) (profile : ContentProfile) (identity : Text) : Nat → Nat → Nat → Bytes
  | 0, _, _ => []
  | turns + 1, pos, stop =>
    if pos < stop then
      let off := pos % profile.block
      let take := min (profile.block - off) (stop - pos)
      ((blockBytes H profile identity (pos / profile.block) profile.block).drop off).take take ++
        contentLoop H profile identity turns (pos + take) stop
    else []

/-- `content`. -/
def content (H : ContentHost) (profile : ContentProfile) (identity : Text) (offset length : Nat) : Bytes :=
  contentLoop H profile identity length offset (offset + length)

end EbpfSyscall.Kvio
