import EbpfSyscall.Kvio.Backend
import EbpfSyscall.Lib.Blocks

/-!
# Ranges of content

The content of an object is a sequence of blocks that depends on its identity only, and every range of it is a part of that sequence:
it has the length asked for, and a range of the stored bytes is the content of the range.
-/

namespace EbpfSyscall.Kvio

open List

namespace ContentAux

variable (H : ContentHost)

/-- The block of `synthetic_bytes` with a number. -/
def digestBlock (objectId : Text) (version : Version) (block : Int) : Bytes :=
  H.blake2b 64 (objectId ++ [':'] ++ version.text ++ [':'] ++ Decimal.printInt block)

theorem syntheticBytes_eq (objectId : Text) (version : Version) (offset : Int) (length : Nat) :
    syntheticBytes H objectId version offset length = Blocks.range (digestBlock H objectId version) 64 0 offset length := by
  have hblocks : ∀ b, (digestBlock H objectId version b).length = 64 := fun b => H.length_blake2b 64 _
  unfold syntheticBytes
  dsimp only
  change ((flatMap (fun k : Nat => digestBlock H objectId version (offset / 64 + k)) _).drop _).take length = _
  rw [Blocks.flatMap_blocks (d := 0) hblocks (by decide)]
  rcases Nat.eq_zero_or_pos length with rfl | hpos
  · simp
  · rw [Blocks.take_drop_range]
    · congr 1
      omega
    · omega

theorem length_hashStream (identity : Text) (blockIndex length : Nat) : (hashStream H identity blockIndex length).length = length := by
  have hflat : ∀ l : List Nat, (l.flatMap fun n =>
      H.blake2b 64 (identity ++ [':'] ++ Decimal.print blockIndex ++ [':'] ++ Decimal.print n)).length = 64 * l.length := by
    intro l
    rw [length_flatMap, map_congr_left (fun n _ => H.length_blake2b 64 _), map_const', sum_replicate, smul_eq_mul,
      Nat.mul_comm]
  rw [hashStream, length_take, hflat, length_range]
  omega

theorem length_repeated {pattern : Bytes} (h : 0 < pattern.length) (length : Nat) : (repeated pattern length).length = length := by
  rw [repeated, length_take, length_flatten, map_replicate, sum_replicate, smul_eq_mul]
  have hlt := Nat.lt_div_mul_add (a := length) h
  rw [Nat.add_mul, Nat.one_mul]
  omega

theorem length_blockBytes (profile : ContentProfile) (identity : Text) (blockIndex length : Nat) :
    (blockBytes H profile identity blockIndex length).length = length := by
  cases profile with
  | zeros => exact length_replicate
  | incompressible => exact length_hashStream H identity blockIndex length
  | mixed knobs =>
    unfold blockBytes
    dsimp only
    split
    · exact length_replicate
    · split
      · refine length_repeated ?_ length
        rw [H.length_blake2b]
        omega
      · split
        · exact length_hashStream H _ _ length
        · exact length_hashStream H _ _ length

theorem block_pos (profile : ContentProfile) : 0 < profile.block := by
  cases profile with
  | zeros => decide
  | incompressible => decide
  | mixed knobs => exact knobs.blockPos

theorem contentLoop_eq (profile : ContentProfile) (identity : Text) {turns pos stop : Nat} (h : stop ≤ pos + turns) :
    contentLoop H profile identity turns pos stop =
      Blocks.range (fun b => blockBytes H profile identity b.toNat profile.block) profile.block 0 pos (stop - pos) := by
  have hpos := block_pos profile
  have hblocks : ∀ b : Int, (blockBytes H profile identity b.toNat profile.block).length = profile.block := fun b =>
    length_blockBytes H profile identity _ _
  induction turns generalizing pos with
  | zero =>
    have hzero : stop - pos = 0 := by omega
    rw [contentLoop, hzero]
    rfl
  | succ turns ih =>
    rw [contentLoop]
    by_cases hlt : pos < stop
    · rw [if_pos hlt]
      dsimp only
      have hmod := Nat.mod_lt pos hpos
      have htake : 0 < min (profile.block - pos % profile.block) (stop - pos) := by omega
      have hblock := Blocks.take_drop_block (d := 0) hblocks (pos / profile.block : Nat) (pos % profile.block) _ (by omega) htake
      rw [Int.toNat_natCast, ← Nat.cast_mul, ← Nat.cast_add, Nat.mul_comm, Nat.div_add_mod] at hblock
      rw [hblock, ih (by omega), Nat.cast_add, Blocks.range_append]
      congr 1
      omega
    · have hzero : stop - pos = 0 := by omega
      rw [if_neg hlt, hzero]
      rfl

theorem content_eq (profile : ContentProfile) (identity : Text) (offset length : Nat) : content H profile identity offset length =
      Blocks.range (fun b => blockBytes H profile identity b.toNat profile.block) profile.block 0 offset length := by
  rw [content, contentLoop_eq H profile identity (by omega), Nat.add_sub_cancel_left]

end ContentAux

namespace FakeBackend

variable (H : ContentHost) (backend : FakeBackend)

open ContentAux

/-- What a target would store is a sequence of blocks. -/
theorem payload_eq_range (identity : Text) (version : Version) :
    ∃ f width, ∀ offset length : Nat, backend.payload H identity version offset length = Blocks.range f width 0 offset length := by
  cases hprofile : backend.profile with
  | none => exact ⟨_, _, fun offset length => by rw [payload, hprofile]; exact syntheticBytes_eq H identity version offset length⟩
  | some profile => exact ⟨_, _, fun offset length => by rw [payload, hprofile]; exact content_eq H profile identity offset length⟩

@[simp] theorem length_payload (identity : Text) (version : Version) (offset length : Nat) :
    (backend.payload H identity version offset length).length = length := by
  obtain ⟨f, width, heq⟩ := payload_eq_range H backend identity version
  rw [heq, Blocks.length_range]

/-- A range of what was stored is the content of the range. -/
theorem take_drop_payload (identity : Text) (version : Version) {offset length size : Nat} (h : offset + length ≤ size) :
    ((backend.payload H identity version 0 size).drop offset).take length = backend.payload H identity version offset length := by
  obtain ⟨f, width, heq⟩ := payload_eq_range H backend identity version
  rw [heq, heq, Blocks.take_drop_range _ _ _ _ h, Nat.cast_zero, Int.zero_add]

/-- Loading a range of an object that holds its content succeeds. -/
theorem load_payload {opId objectId : Text} {version : Version} {offset length size : Nat} {versions : Version → Option Bytes}
    (hfail : backend.fail opId = none) (hstored : versions version = some (backend.payload H objectId version 0 size))
    (hrange : offset + length ≤ size) : backend.load H opId objectId version offset length versions = ⟨.success, length, []⟩ := by
  rw [load, hfail]
  dsimp only
  rw [hstored]
  dsimp only
  rw [take_drop_payload H backend objectId version hrange, length_payload]
  simp

end FakeBackend

end EbpfSyscall.Kvio
