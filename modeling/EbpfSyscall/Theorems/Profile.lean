import EbpfSyscall.Kvio.Profile
import EbpfSyscall.Lemmas.Content

/-!
# Content by ranges, and when it is returned

With blocks that are not empty, the content of an identity is one sequence of blocks and every range is cut out of it, so ranges that
follow each other join. Without that, the loop of `content` does not reach the end of a range.
-/

namespace EbpfSyscall.Kvio

open Checked List

/-- The profile that `parse_profile` returns for a profile whose blocks are not empty. -/
def ContentProfile.parsed : ContentProfile → ParsedProfile
  | .zeros => .zeros
  | .incompressible => .incompressible
  | .mixed knobs => .mixed ⟨knobs.zero, knobs.pattern, knobs.patternLen, knobs.dupClasses, knobs.block⟩

/-- The identity is hashed for every profile but zeros, so it must have an encoding. -/
def Hashable (profile : ParsedProfile) (identity : List Nat) : Prop := profile = .zeros ∨ (scalars? identity).isSome = true

instance (profile : ParsedProfile) (identity : List Nat) : Decidable (Hashable profile identity) := inferInstanceAs (Decidable (_ ∨ _))

namespace ProfileAux

variable {H : ContentHost} {profile : ParsedProfile} {identity : List Nat}

/-! ## One block -/

theorem scalars?_toNat (text : Text) : scalars? (text.map Char.toNat) = some text := by
  have hvalid : ∀ p ∈ text.map Char.toNat, p.isValidChar := by
    intro p hp
    obtain ⟨c, -, rfl⟩ := mem_map.mp hp
    exact c.valid
  rw [scalars?, if_pos hvalid, map_map]
  have hid : Char.ofNat ∘ Char.toNat = id := funext fun c => Char.ofNat_toNat c
  rw [hid, map_id]

theorem encoded_of_some {text : Text} (h : scalars? identity = some text) : encoded identity = .ok text := by
  rw [encoded, h]
  rfl

theorem encoded_of_none (h : ¬(scalars? identity).isSome = true) : ∃ error, encoded identity = .error error := by
  rw [Option.not_isSome_iff_eq_none] at h
  rw [encoded, h]
  exact ⟨_, rfl⟩

/-- The loop goes on until there is enough. -/
theorem hashStreamLoop_eq (seed : Text) (length : Int) (n : Nat) (out : Bytes) :
    hashStreamLoop H seed length n out = out ++ (List.range' n (((length - out.length).toNat + 63) / 64)).flatMap fun k =>
      H.blake2b 64 (seed ++ [':'] ++ Decimal.print k) := by
  fun_induction hashStreamLoop H seed length n out with
  | case1 n out hlt ih =>
    rw [ih, length_append, H.length_blake2b]
    obtain ⟨turns, hturns⟩ : ∃ turns, ((length - out.length).toNat + 63) / 64 = turns + 1 :=
      ⟨((length - out.length).toNat + 63) / 64 - 1, by omega⟩
    have hrest : ((length - ((out.length + 64 : Nat) : Int)).toNat + 63) / 64 = turns := by omega
    rw [hturns, hrest, range'_succ, flatMap_cons, append_assoc]
  | case2 n out hge =>
    have hzero : ((length - out.length).toNat + 63) / 64 = 0 := by omega
    rw [hzero]
    simp

/-- A stream of a length that is not negative is the one of the text. -/
theorem hashStreamOf_eq {text : Text} (h : scalars? identity = some text) (blockIndex : Int) (length : Nat) :
    hashStreamOf H identity blockIndex length =
      .ok (((List.range ((length + 63) / 64)).flatMap fun n =>
        H.blake2b 64 (text ++ [':'] ++ Decimal.printInt blockIndex ++ [':'] ++ Decimal.print n)).take length) := by
  rw [hashStreamOf]
  split
  · rw [encoded_of_some h, ok_bind, pure_eq_ok, hashStreamLoop_eq, Slices.slice_zero, range_eq_range']
    simp
  · have hzero : length = 0 := by omega
    subst hzero
    rfl

theorem length_stream (seed : Text) (length : Nat) :
    (((List.range ((length + 63) / 64)).flatMap fun n => H.blake2b 64 (seed ++ [':'] ++ Decimal.print n)).take length).length = length := by
  have hflat : ∀ l : List Nat, (l.flatMap fun n => H.blake2b 64 (seed ++ [':'] ++ Decimal.print n)).length = 64 * l.length := by
    intro l
    rw [length_flatMap, map_congr_left (fun n _ => H.length_blake2b 64 _), map_const', sum_replicate, smul_eq_mul,
      Nat.mul_comm]
  rw [length_take, hflat, length_range]
  omega

theorem zeroBytes_natCast (length : Nat) : zeroBytes length = .ok (List.replicate length 0) := by
  rw [zeroBytes, ensure_of (by omega), ok_bind, pure_eq_ok, Int.toNat_natCast]

/-- The repeated pattern of `_block_bytes`. -/
theorem repeated_eq (pattern : Bytes) (length : Nat) :
    Slices.slice (List.replicate ((length : Int) / pattern.length + 1).toNat pattern).flatten 0 length = repeated pattern length := by
  have hcount : ((length : Int) / pattern.length + 1).toNat = length / pattern.length + 1 := by
    rw [← Int.natCast_div, Int.toNat_natCast_add_one]
  rw [hcount, Slices.slice_zero, repeated]

/-- A block of a length that is not negative, if the identity can be hashed. -/
theorem exists_block (h : Hashable profile identity) (blockIndex : Int) (length : Nat) :
    ∃ bytes, blockBytesOf H profile identity blockIndex length = .ok bytes ∧ bytes.length = length := by
  have hstream : ∀ {identity text}, scalars? identity = some text → ∀ blockIndex,
      ∃ bytes, hashStreamOf H identity blockIndex length = .ok bytes ∧ bytes.length = length := by
    intro identity text htext blockIndex
    exact ⟨_, hashStreamOf_eq htext blockIndex length, length_stream _ length⟩
  cases profile with
  | zeros => exact ⟨_, zeroBytes_natCast length, length_replicate⟩
  | incompressible =>
    obtain ⟨text, htext⟩ := Option.isSome_iff_exists.mp (h.resolve_left (by simp))
    exact hstream htext blockIndex
  | mixed knobs =>
    obtain ⟨text, htext⟩ := Option.isSome_iff_exists.mp (h.resolve_left (by simp))
    simp only [blockBytesOf, encoded_of_some htext, ok_bind]
    split
    · exact ⟨_, zeroBytes_natCast length, length_replicate⟩
    split
    · refine ⟨_, rfl, ?_⟩
      rw [repeated_eq]
      refine ContentAux.length_repeated ?_ length
      rw [H.length_blake2b]
      omega
    split
    · exact hstream (scalars?_toNat _) 0
    · exact hstream htext blockIndex

/-- Without an encoding of the identity there is no block. -/
theorem block_error (h : ¬Hashable profile identity) (blockIndex : Int) {length : Int} (hpos : 0 < length) :
    ∃ error, blockBytesOf H profile identity blockIndex length = .error error := by
  rw [Hashable, not_or] at h
  obtain ⟨error, herror⟩ := encoded_of_none h.2
  refine ⟨error, ?_⟩
  cases profile with
  | zeros => exact absurd rfl h.1
  | incompressible => rw [blockBytesOf, hashStreamOf, if_pos hpos, herror, error_bind]
  | mixed knobs => rw [blockBytesOf, herror, error_bind]

/-! ## The loop -/

/-- With blocks that are not empty the loop cuts the range out of the sequence of the blocks; each turn takes at least one byte. -/
theorem contentRun_eq {width : Nat} (hblock : profile.block = width) (hwidth : 0 < width) {f : Int → Bytes}
    (hf : ∀ b, blockBytesOf H profile identity b width = .ok (f b)) (hlength : ∀ b, (f b).length = width) (fuel : Nat) (pos stop : Int)
    (hfuel : (stop - pos).toNat < fuel) :
    contentRun H profile identity fuel pos stop = some (.ok (Blocks.range f width 0 pos (stop - pos).toNat)) := by
  induction fuel generalizing pos with
  | zero => omega
  | succ fuel ih =>
    rw [contentRun]
    by_cases hlt : pos < stop
    · have hnonneg := Int.emod_nonneg pos (show (width : Int) ≠ 0 by omega)
      have hmod := Int.emod_lt_of_pos pos (show (0 : Int) < width by omega)
      obtain ⟨off, hoff⟩ := Int.eq_ofNat_of_zero_le hnonneg
      obtain ⟨take, htake⟩ := Int.eq_ofNat_of_zero_le (show 0 ≤ min ((width : Int) - off) (stop - pos) by omega)
      have hplace : pos / (width : Int) * width + off = pos := by
        rw [← hoff]
        exact Int.ediv_mul_add_emod pos width
      rw [if_pos hlt, if_neg (by omega)]
      simp only [hblock, Int.fdiv_eq_ediv_of_nonneg _ (show (0 : Int) ≤ width by omega),
        Int.fmod_eq_emod_of_nonneg _ (show (0 : Int) ≤ width by omega), hoff, htake, hf]
      rw [ih _ (by omega), Slices.slice_natCast, Blocks.take_drop_block (d := 0) hlength _ _ _ (by omega) (by omega), hplace]
      simp only [Option.map_some, Except.map]
      rw [Blocks.range_append]
      congr 3
      omega
    · rw [if_neg hlt, show (stop - pos).toNat = 0 by omega]
      rfl

/-- The blocks of a profile, whose sequence every range is cut out of. -/
theorem exists_blocks (hblock : 0 < profile.block) (h : Hashable profile identity) :
    ∃ (width : Nat) (f : Int → Bytes), ∀ (offset : Int) (length fuel : Nat), length < fuel →
      contentRun H profile identity fuel offset (offset + length) = some (.ok (Blocks.range f width 0 offset length)) := by
  obtain ⟨width, hwidth⟩ := Int.eq_ofNat_of_zero_le hblock.le
  choose f hf hlength using fun b => exists_block (H := H) h b width
  refine ⟨width, f, fun offset length fuel hfuel => ?_⟩
  have hcount : (offset + length - offset).toNat = length := by omega
  rw [contentRun_eq hwidth (by omega) hf hlength fuel offset (offset + length) (by omega), hcount]

/-- With a negative block size every turn goes backwards. -/
theorem contentRun_negative (hblock : profile.block < 0) {fuel : Nat} {pos stop : Int} (hlt : pos < stop) (bytes : Bytes) :
    contentRun H profile identity fuel pos stop ≠ some (.ok bytes) := by
  induction fuel generalizing pos bytes with
  | zero => simp [contentRun]
  | succ fuel ih =>
    have hmod : profile.block < pos.fmod profile.block := by
      have hback := Int.neg_fmod_neg (-pos) (-profile.block)
      have hlt := Int.fmod_lt_of_pos (-pos) (show 0 < -profile.block by omega)
      rw [Int.neg_neg, Int.neg_neg] at hback
      omega
    rw [contentRun, if_pos hlt, if_neg (by omega)]
    dsimp only
    cases blockBytesOf H profile identity (pos.fdiv profile.block) profile.block with
    | error error => simp
    | ok block =>
      simp only [ne_eq, Option.map_eq_some_iff, not_exists, not_and]
      intro rest hrest hok
      cases rest with
      | error error => cases hok
      | ok out => exact ih (by omega) out hrest

/-- An identity without an encoding stops the first turn. -/
theorem contentRun_unhashable (hblock : 0 < profile.block) (h : ¬Hashable profile identity) {fuel : Nat} {pos stop : Int} (hlt : pos < stop)
    (bytes : Bytes) : contentRun H profile identity fuel pos stop ≠ some (.ok bytes) := by
  cases fuel with
  | zero => simp [contentRun]
  | succ fuel =>
    rw [contentRun, if_pos hlt, if_neg (by omega)]
    obtain ⟨error, herror⟩ := block_error (H := H) h (pos.fdiv profile.block) hblock
    simp [herror]

/-! ## The content that the backends write -/

theorem blockBytesOf_parsed (profile : ContentProfile) (identity : Text) (blockIndex length : Nat) :
    blockBytesOf H profile.parsed (identity.map Char.toNat) blockIndex length = .ok (blockBytes H profile identity blockIndex length) := by
  have htext := scalars?_toNat identity
  have hstream : ∀ blockIndex : Nat, hashStreamOf H (identity.map Char.toNat) blockIndex length =
      .ok (hashStream H identity blockIndex length) := by
    intro blockIndex
    rw [hashStreamOf_eq htext, Decimal.printInt_natCast]
    rfl
  cases profile with
  | zeros => exact zeroBytes_natCast length
  | incompressible => exact hstream blockIndex
  | mixed knobs =>
    simp only [ContentProfile.parsed, blockBytesOf, blockBytes, encoded_of_some htext, ok_bind, Decimal.printInt_natCast, repeated_eq,
      zeroBytes_natCast, hstream, pure_eq_ok]
    split
    · rfl
    split
    · rfl
    split
    · have hdup := hashStreamOf_eq (H := H) (scalars?_toNat ("dup-class-".toList ++
        Decimal.printInt ((fromBigEndian (H.blake2b 4 (identity ++ [':'] ++ Decimal.print blockIndex ++ ":dup".toList)) : Int).fmod
          knobs.dupClasses))) 0 length
      exact hdup
    · rfl

end ProfileAux

open ProfileAux

/-- What a backend writes is what `content` returns. -/
theorem contentRun_parsed (H : ContentHost) (profile : ContentProfile) (identity : Text) (offset length : Nat) {fuel : Nat} (hfuel : length < fuel) :
    contentRun H profile.parsed (identity.map Char.toNat) fuel offset (offset + length) =
      some (.ok (content H profile identity offset length)) := by
  have hblock : profile.parsed.block = profile.block := by
    cases profile <;> rfl
  have hhash : Hashable profile.parsed (identity.map Char.toNat) := .inr (by rw [scalars?_toNat]; rfl)
  choose f hf hlength using fun b => exists_block (H := H) hhash b profile.block
  have hrun := contentRun_eq (H := H) hblock (ContentAux.block_pos profile) hf hlength fuel offset (offset + length) (by omega)
  have hcount : ((offset : Int) + length - offset).toNat = length := by omega
  rw [hrun, hcount, ContentAux.content_eq]
  congr 2
  refine map_congr_left fun k _ => ?_
  -- No block before the first is touched.
  have hplace : 0 ≤ ((offset : Int) + k) / (profile.block : Int) := Int.ediv_nonneg (by omega) (by omega)
  obtain ⟨b, hb⟩ := Int.eq_ofNat_of_zero_le hplace
  have hsame := hf b
  rw [blockBytesOf_parsed] at hsame
  rw [Blocks.item, Blocks.item, hb, Int.toNat_natCast, ← Except.ok.inj hsame]

/-- The content of a range is the content of its first part followed by the content of the rest, and has the length asked for; any fuel
above the number of bytes is enough. The same holds of synthetic bytes. -/
theorem content_append (H : ContentHost) : (∀ (profile : ParsedProfile) (identity : Text) (offset : Int) (a b : Nat), 0 < profile.block →
      ∃ first second : Bytes, first.length = a ∧ second.length = b ∧
        (∀ fuel, a < fuel → contentRun H profile (identity.map Char.toNat) fuel offset (offset + a) = some (.ok first)) ∧
        (∀ fuel, b < fuel → contentRun H profile (identity.map Char.toNat) fuel (offset + a) (offset + a + b) = some (.ok second)) ∧
        ∀ fuel, a + b < fuel →
          contentRun H profile (identity.map Char.toNat) fuel offset (offset + (a + b : Nat)) = some (.ok (first ++ second))) ∧
    ∀ (object : Text) (version : Version) (offset : Int) (a b : Nat),
      syntheticBytes H object version offset (a + b) =
        syntheticBytes H object version offset a ++ syntheticBytes H object version (offset + a) b ∧
      (syntheticBytes H object version offset (a + b)).length = a + b := by
  refine ⟨fun profile identity offset a b hblock => ?_, fun object version offset a b => ?_⟩
  · have hhash : Hashable profile (identity.map Char.toNat) := .inr (by rw [scalars?_toNat]; rfl)
    obtain ⟨width, f, hrun⟩ := exists_blocks (H := H) hblock hhash
    refine ⟨Blocks.range f width 0 offset a, Blocks.range f width 0 (offset + a) b, Blocks.length_range _ _, Blocks.length_range _ _,
      hrun offset a, hrun (offset + a) b, fun fuel hfuel => ?_⟩
    rw [hrun offset (a + b) fuel hfuel, Blocks.range_append]
  · rw [ContentAux.syntheticBytes_eq, ContentAux.syntheticBytes_eq, ContentAux.syntheticBytes_eq, Blocks.range_append,
      Blocks.length_range]
    exact ⟨rfl, rfl⟩

theorem length_zeros (n : Nat) (_ : Text) : (List.replicate n (0 : UInt8)).length = n := length_replicate

/-- A host whose digests are zeros. -/
def plainHost : ProfileHost where
  blake2b n _ := List.replicate n 0
  double q := q
  length_blake2b := length_zeros
  float _ := none

/-- For a text that `parse_profile` accepts, `content` ends without an exception and returns as many bytes as asked for exactly when none
are asked for, or the block size is positive and the identity can be hashed. -/
theorem content_returns_iff (H : ProfileHost) {spec : Text} {profile : ParsedProfile} (hspec : parseProfile H spec = .ok profile)
    (identity : List Nat) (offset length : Nat) :
    (∃ fuel bytes, contentOf H spec identity offset length fuel = some (.ok bytes) ∧ bytes.length = length) ↔
      length = 0 ∨ (0 < profile.block ∧ Hashable profile identity) := by
  simp only [contentOf, hspec]
  constructor
  · rintro ⟨fuel, bytes, hrun, -⟩
    rcases Nat.eq_zero_or_pos length with hzero | hpos
    · exact .inl hzero
    · have hlt : (offset : Int) < offset + length := by omega
      have hblock : 0 < profile.block := by
        rcases Int.lt_trichotomy profile.block 0 with hneg | hzero | hpos'
        · exact absurd hrun (contentRun_negative hneg hlt bytes)
        · cases fuel with
          | zero => simp [contentRun] at hrun
          | succ fuel => simp [contentRun, hlt, hzero] at hrun
        · exact hpos'
      refine .inr ⟨hblock, ?_⟩
      by_contra hhash
      exact contentRun_unhashable hblock hhash hlt bytes hrun
  · rintro (rfl | ⟨hblock, hhash⟩)
    · exact ⟨1, [], by simp [contentRun], rfl⟩
    · obtain ⟨width, f, hrun⟩ := exists_blocks (H := H.toContentHost) hblock hhash
      exact ⟨length + 1, _, hrun offset length _ (Nat.lt_succ_self length), Blocks.length_range _ _⟩

/-- The default block size. -/
theorem content_returns_mixed :
    ∃ fuel bytes, contentOf plainHost "mixed:dup_classes=3".toList [0x61] 7 5 fuel = some (.ok bytes) ∧ bytes.length = 5 :=
  have hspec : parseProfile plainHost "mixed:dup_classes=3".toList = .ok (.mixed { dupClasses := 3 }) := by decide +kernel
  (content_returns_iff plainHost hspec [0x61] 7 5).mpr (.inr ⟨by decide, by decide⟩)

/-- A block size of zero is accepted, and `content` divides by it; with a negative one it never returns. -/
theorem content_returns_not : parseProfile plainHost "mixed:block=0".toList = .ok (.mixed { block := 0 }) ∧
    contentOf plainHost "mixed:block=0".toList [0x61] 0 1 1 = some (.error .zeroDivisionError) ∧
    parseProfile plainHost "mixed:block=-1".toList = .ok (.mixed { block := -1 }) ∧
    ∀ fuel bytes, contentOf plainHost "mixed:block=-1".toList [0x61] 0 1 fuel ≠ some (.ok bytes) := by
  have hparse : parseProfile plainHost "mixed:block=-1".toList = .ok (.mixed { block := -1 }) := by decide +kernel
  refine ⟨by decide +kernel, by decide +kernel, hparse, fun fuel bytes => ?_⟩
  simp only [contentOf, hparse]
  exact contentRun_negative (by decide) (by decide) bytes

end EbpfSyscall.Kvio
