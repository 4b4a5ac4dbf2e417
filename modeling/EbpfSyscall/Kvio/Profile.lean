import EbpfSyscall.Kvio.Content
import EbpfSyscall.Lib.Slices

/-!
# Content profiles from their texts

`parse_profile` and `content` of `tools/kvio/content_profile.py` as they are, with what they do for every text that is accepted: a block
size that is zero or negative is accepted too, and the loop of `content` then divides by zero or goes backwards. An identity is a Python
string, its code points; one with a surrogate cannot be encoded and hashed.
-/

namespace EbpfSyscall.Kvio

open Checked

/-- The knobs of a mixed profile as its text gives them, with their defaults. -/
structure ParsedKnobs where
  zero : PyFloat := .finite 0
  pattern : PyFloat := .finite 0
  patternLen : Int := 64
  dupClasses : Int := 0
  block : Int := 4096
  deriving DecidableEq, Repr

/-- What `parse_profile` returns. -/
inductive ParsedProfile where
  | zeros
  | incompressible
  | mixed (knobs : ParsedKnobs)
  deriving DecidableEq, Repr

/-- `profile.get("block", BLOCK)`. -/
def ParsedProfile.block : ParsedProfile → Int
  | .mixed knobs => knobs.block
  | _ => 4096

/-- What parsing needs of the host besides. -/
structure ProfileHost extends ContentHost where
  /-- `float(text)`; `none` is a `ValueError`. -/
  float : Text → Option PyFloat

/-- The text before the first separator, and the text after it. -/
def partition (separator : Char) (text : Text) : Text × Text :=
  (text.takeWhile (· ≠ separator), (text.dropWhile (· ≠ separator)).drop 1)

namespace ProfileHost

variable (H : ProfileHost)

def floatOf (text : Text) : Except PyError PyFloat :=
  require (H.float text) (.valueError ("could not convert string to float: '" ++ String.ofList text ++ "'"))

def intOf (text : Text) : Except PyError Int :=
  require (Python.intOfText text) (.valueError ("invalid literal for int() with base 10: '" ++ String.ofList text ++ "'"))

/-- One `key=value` of the text. -/
def setKnob (knobs : ParsedKnobs) (kv : Text) : Except PyError ParsedKnobs :=
  let (k, v) := partition '=' kv
  if k = "zero".toList then (H.floatOf v).map fun zero => { knobs with zero }
  else if k = "pattern".toList then (H.floatOf v).map fun pattern => { knobs with pattern }
  else if k = "pattern_len".toList then (intOf v).map fun patternLen => { knobs with patternLen }
  else if k = "dup_classes".toList then (intOf v).map fun dupClasses => { knobs with dupClasses }
  else if k = "block".toList then (intOf v).map fun block => { knobs with block }
  else .error (.valueError ("unknown knob '" ++ String.ofList k ++ "'"))

end ProfileHost

/-- `parse_profile`. -/
def parseProfile (H : ProfileHost) (spec : Text) : Except PyError ParsedProfile := do
  let (name, rest) := partition ':' spec
  if name = "zeros".toList ∨ name = "incompressible".toList then
    ensure (rest = []) (.valueError (String.ofList name ++ " takes no knobs"))
    pure (if name = "zeros".toList then .zeros else .incompressible)
  else
    ensure (name = "mixed".toList) (.valueError ("unknown profile '" ++ String.ofList name ++ "'"))
    let knobs ← ((rest.splitOn ',').filter (· ≠ [])).foldlM H.setKnob {}
    ensure (¬lessThan (.finite 1) (plus H.double knobs.zero knobs.pattern)) (.valueError "zero + pattern fractions exceed 1")
    pure (.mixed knobs)

/-! ## The content of a range -/

/-- The text of a string that has no surrogates. -/
def scalars? (points : List Nat) : Option Text := if ∀ p ∈ points, p.isValidChar then some (points.map Char.ofNat) else none

/-- `f"{identity}…".encode()`. -/
def encoded (identity : List Nat) : Except PyError Text :=
  require (scalars? identity) (.valueError "'utf-8' codec can't encode characters: surrogates not allowed")

/-- `bytes(length)`. -/
def zeroBytes (length : Int) : Except PyError Bytes := do
  ensure (0 ≤ length) (.valueError "negative count")
  pure (List.replicate length.toNat 0)

/-- The loop of `_hash_stream`. -/
def hashStreamLoop (H : ContentHost) (seed : Text) (length : Int) (n : Nat) (out : Bytes) : Bytes :=
  if (out.length : Int) < length then hashStreamLoop H seed length (n + 1) (out ++ H.blake2b 64 (seed ++ [':'] ++ Decimal.print n))
  else out
termination_by (length - out.length).toNat
decreasing_by
  rw [List.length_append, H.length_blake2b]
  omega

/-- `_hash_stream`. The text that is hashed is the same but for the number in every turn, so it is encoded once; without a turn it is not
encoded. -/
def hashStreamOf (H : ContentHost) (identity : List Nat) (blockIndex length : Int) : Except PyError Bytes :=
  if 0 < length then do
    let text ← encoded identity
    pure (Slices.slice (hashStreamLoop H (text ++ [':'] ++ Decimal.printInt blockIndex) length 0 []) 0 length)
  else pure []

/-- `_block_bytes`. -/
def blockBytesOf (H : ContentHost) (profile : ParsedProfile) (identity : List Nat) (blockIndex length : Int) : Except PyError Bytes :=
  match profile with
  | .zeros => zeroBytes length
  | .incompressible => hashStreamOf H identity blockIndex length
  | .mixed knobs => do
    let text ← encoded identity
    let seed (suffix : String) : Text := text ++ [':'] ++ Decimal.printInt blockIndex ++ suffix.toList
    let r := PyFloat.finite (H.double (fromBigEndian (H.blake2b 8 (seed ":class")) / 2 ^ 64))
    if lessThan r knobs.zero then zeroBytes length
    else if lessThan r (plus H.double knobs.zero knobs.pattern) then
      let pat := H.blake2b (max 1 (min 64 knobs.patternLen)).toNat (seed ":pat")
      pure (Slices.slice (List.replicate (length / pat.length + 1).toNat pat).flatten 0 length)
    else if knobs.dupClasses ≠ 0 then
      let cls := (fromBigEndian (H.blake2b 4 (seed ":dup")) : Int).fmod knobs.dupClasses
      hashStreamOf H (("dup-class-".toList ++ Decimal.printInt cls).map Char.toNat) 0 length
    else hashStreamOf H identity blockIndex length

/-- The loop of `content` from `pos` to `stop`, for as many turns as there is fuel; `none` is a loop that has not ended. -/
def contentRun (H : ContentHost) (profile : ParsedProfile) (identity : List Nat) : Nat → Int → Int → Option (Except PyError Bytes)
  | 0, _, _ => none
  | fuel + 1, pos, stop =>
    if pos < stop then
      if profile.block = 0 then some (.error .zeroDivisionError)
      else
        let bi := pos.fdiv profile.block
        let off := pos.fmod profile.block
        let take := min (profile.block - off) (stop - pos)
        match blockBytesOf H profile identity bi profile.block with
        | .error error => some (.error error)
        | .ok bytes => (contentRun H profile identity fuel (pos + take) stop).map fun rest =>
            rest.map fun out => Slices.slice bytes off (off + take) ++ out
    else some (.ok [])

/-- `content` with the text of a profile. -/
def contentOf (H : ProfileHost) (spec : Text) (identity : List Nat) (offset length : Int) (fuel : Nat) : Option (Except PyError Bytes) :=
  match parseProfile H spec with
  | .error error => some (.error error)
  | .ok profile => contentRun H.toContentHost profile identity fuel offset (offset + length)

end EbpfSyscall.Kvio
