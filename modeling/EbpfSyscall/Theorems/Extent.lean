import EbpfSyscall.Ir.Extent
import EbpfSyscall.Lemmas.Workload

/-!
# What splitting an extent gives

`split_extent` accepts exactly the extents whose rounded range fits in 64 bits, and its pieces are the fewest whole-block pieces
within the limit that make up the rounded extent.
-/

namespace EbpfSyscall

open Checked List

/-- The length rounded up to whole blocks. -/
def roundUp (length block : Nat) : Nat := (length + block - 1) / block * block

/-- The extents that can be split: aligned, and with a rounded range that fits in 64 bits. -/
structure Splittable (offsetBytes logicalBytes lbaBytes transferLimit : UInt64) : Prop where
  lba : lbaBytes.toNat.isPowerOfTwo
  limit : transferLimit ≠ 0 ∧ lbaBytes.toNat ∣ transferLimit.toNat
  offset : lbaBytes.toNat ∣ offsetBytes.toNat
  fits : logicalBytes ≠ 0 → roundUp logicalBytes.toNat lbaBytes.toNat < 2 ^ 64 ∧
    offsetBytes.toNat + roundUp logicalBytes.toNat lbaBytes.toNat < 2 ^ 64

/-- Pieces that make up a range of whole blocks, in order, each within the limit. -/
structure Pieces (offset total block limit : Nat) (pieces : List (UInt64 × UInt64)) : Prop where
  start : ∀ piece ∈ pieces.head?, piece.1.toNat = offset
  contiguous : pieces.IsChain (fun piece next => next.1.toNat = piece.1.toNat + piece.2.toNat)
  nonzero : ∀ piece ∈ pieces, piece.2 ≠ 0
  blocks : ∀ piece ∈ pieces, block ∣ piece.2.toNat
  limited : ∀ piece ∈ pieces, piece.2.toNat ≤ limit
  sum : (pieces.map fun piece => piece.2.toNat).sum = total

namespace ExtentAux

open WorkloadAux

/-- Clearing the low bits of a number leaves the multiple of the power of two below it. -/
theorem and_not_mask {x k : Nat} (hx : x < 2 ^ 64) (hk : k < 64) : x &&& (2 ^ 64 - 1 - (2 ^ k - 1)) = x / 2 ^ k * 2 ^ k := by
  have hpow : 2 ^ k < 2 ^ 64 := Nat.pow_lt_pow_right (by decide) hk
  have hpos : 0 < 2 ^ k := Nat.two_pow_pos k
  have hmask : 2 ^ 64 - 1 - (2 ^ k - 1) = 2 ^ 64 - (2 ^ k - 1 + 1) := by omega
  refine Nat.eq_of_testBit_eq fun i => ?_
  rw [hmask, Nat.testBit_and, Nat.testBit_two_pow_sub_succ (by omega), Nat.testBit_two_pow_sub_one, Nat.testBit_mul_two_pow,
    Nat.testBit_div_two_pow]
  by_cases hlow : i < k
  · simp [hlow]
  · have hback : i - k + k = i := by omega
    by_cases hhigh : i < 64
    · simp [hlow, hhigh, Nat.not_lt.mp hlow, hback]
    · have hzero : x.testBit i = false :=
        Nat.testBit_lt_two_pow (lt_of_lt_of_le hx (Nat.pow_le_pow_right (by decide) (Nat.not_lt.mp hhigh)))
      simp [hback, hzero]

variable {block : Nat}

theorem roundUp_eq {length : Nat} (hblock : 0 < block) : roundUp length block = (length + (block - 1)) / block * block := by
  rw [roundUp, Nat.add_sub_assoc hblock]

/-- `align_up` accepts exactly what can be rounded up within 64 bits, and rounds it up. -/
theorem alignUp_eq_ok {value alignment : UInt64} (halignment : alignment.toNat.isPowerOfTwo) {r : UInt64} :
    alignUp value alignment = .ok r ↔ roundUp value.toNat alignment.toNat < 2 ^ 64 ∧ r.toNat = roundUp value.toNat alignment.toNat := by
  obtain ⟨k, hk⟩ := halignment
  have hpos : 0 < alignment.toNat := hk ▸ Nat.two_pow_pos k
  have hlt : k < 64 := by
    have := alignment.toNat_lt
    rw [hk] at this
    exact (Nat.pow_lt_pow_iff_right (by decide)).mp this
  have hmask : (alignment - 1).toNat = 2 ^ k - 1 := by
    rw [UInt64.toNat_sub_of_le _ _ (by rw [UInt64.le_iff_toNat_le]; exact hpos), hk]
    rfl
  have hne : alignment ≠ 0 := by
    rintro rfl
    exact absurd hpos (by decide)
  -- 2 ^ 64 is a multiple of the alignment, so the sum fits exactly when the rounded value does.
  have hfits : value.toNat + (2 ^ k - 1) < 2 ^ 64 ↔ roundUp value.toNat alignment.toNat < 2 ^ 64 := by
    have hpow : 2 ^ 64 = 2 ^ (64 - k) * 2 ^ k := by rw [← Nat.pow_add, Nat.sub_add_cancel hlt.le]
    rw [roundUp_eq hpos, hk, hpow, Nat.mul_lt_mul_right (Nat.two_pow_pos k), Nat.div_lt_iff_lt_mul (Nat.two_pow_pos k)]
  have hpower : Rust.isPowerOfTwo alignment = true := decide_eq_true ⟨k, hk⟩
  have heq : ∀ sum : UInt64, sum.toNat = value.toNat + (2 ^ k - 1) → sum.toNat < 2 ^ 64 →
      (sum &&& ~~~(alignment - 1)).toNat = roundUp value.toNat alignment.toNat := by
    intro sum hvalue hsum
    rw [UInt64.toNat_and, UInt64.toNat_not, hmask, roundUp_eq hpos, hk, ← hvalue]
    exact and_not_mask hsum hlt
  rw [alignUp, check_bind_eq_ok, ensure_eq_ok]
  simp only [require_eq_ok, Option.map_eq_some_iff, checkedAdd_eq_some, hmask]
  constructor
  · rintro ⟨-, sum, ⟨hsum, hvalue⟩, rfl⟩
    exact ⟨hfits.mp hsum, heq sum hvalue sum.toNat_lt⟩
  · rintro ⟨hround, hr⟩
    have hsum := hfits.mpr hround
    have hvalue : (UInt64.ofNat (value.toNat + (2 ^ k - 1))).toNat = value.toNat + (2 ^ k - 1) := UInt64.toNat_ofNat_of_lt' hsum
    refine ⟨⟨hne, hpower⟩, UInt64.ofNat (value.toNat + (2 ^ k - 1)), ⟨hsum, hvalue⟩, ?_⟩
    rw [← UInt64.toNat_inj, hr]
    exact heq _ hvalue (UInt64.toNat_lt _)

/-- The loop makes pieces of what remains, and all but the last are as long as the limit. -/
theorem splitLoop_spec {limit : UInt64} (hlimit : limit ≠ 0) (hblock : block ∣ limit.toNat) (offset remaining : UInt64)
    (hmultiple : block ∣ remaining.toNat) (hfits : offset.toNat + remaining.toNat < 2 ^ 64) :
    ∃ pieces, splitLoop limit hlimit offset remaining = .ok pieces ∧
      Pieces offset.toNat remaining.toNat block limit.toNat pieces ∧
      pieces.length * limit.toNat < remaining.toNat + limit.toNat := by
  have hpos : 0 < limit.toNat := Nat.pos_of_ne_zero fun hzero => hlimit (UInt64.toNat_inj.mp hzero)
  generalize hn : remaining.toNat = n
  induction n using Nat.strongRecOn generalizing offset remaining with
  | ind n ih =>
    rw [splitLoop]
    by_cases hzero : remaining = 0
    · subst hzero
      subst hn
      rw [dif_pos rfl]
      exact ⟨[], rfl, ⟨by simp, .nil, by simp, by simp, by simp, by simp⟩, by simpa using hpos⟩
    · rw [dif_neg hzero]
      have hleft : 0 < remaining.toNat := Nat.pos_of_ne_zero fun heq => hzero (UInt64.toNat_inj.mp heq)
      have hlength := toNat_minimum remaining limit
      have hrest := toNat_sub_minimum remaining limit
      have hdvd : block ∣ min remaining.toNat limit.toNat := by
        rcases Nat.le_total remaining.toNat limit.toNat with hle | hle
        · rwa [Nat.min_eq_left hle]
        · rwa [Nat.min_eq_right hle]
      obtain ⟨next, hnext⟩ : ∃ next, Rust.checkedAdd offset (minimum remaining limit) = some next := by
        rw [Rust.checkedAdd, if_pos (by rw [hlength]; omega)]
        exact ⟨_, rfl⟩
      have hnextNat := (checkedAdd_eq_some.mp hnext).2
      rw [hlength] at hnextNat
      obtain ⟨pieces, hpieces, hgood, hcount⟩ := ih (remaining - minimum remaining limit).toNat (by rw [hrest]; omega) next
        (remaining - minimum remaining limit) (by rw [hrest]; exact Nat.dvd_sub hmultiple hdvd)
        (by rw [hrest, hnextNat]; omega) rfl
      rw [hrest] at hgood hcount
      simp only [hnext, require, ok_bind, hpieces, pure_eq_ok]
      refine ⟨_, rfl, ⟨?_, ?_, ?_, ?_, ?_, ?_⟩, ?_⟩
      · intro piece hpiece
        cases hpiece
        rfl
      · refine isChain_cons.mpr ⟨fun piece hpiece => ?_, hgood.contiguous⟩
        rw [hgood.start piece hpiece, hnextNat, hlength]
      · refine forall_mem_cons.mpr ⟨fun heq => ?_, hgood.nonzero⟩
        have hzeroNat := congrArg UInt64.toNat heq
        rw [hlength] at hzeroNat
        have : (0 : UInt64).toNat = 0 := rfl
        omega
      · exact forall_mem_cons.mpr ⟨by rw [hlength]; exact hdvd, hgood.blocks⟩
      · exact forall_mem_cons.mpr ⟨by rw [hlength]; exact Nat.min_le_right _ _, hgood.limited⟩
      · rw [map_cons, sum_cons, hgood.sum, hlength]
        omega
      · rw [length_cons, Nat.add_mul, Nat.one_mul]
        -- Either the limit was taken off, or nothing remains and there is no further piece.
        rcases Nat.le_total remaining.toNat limit.toNat with hle | hle
        · rw [Nat.min_eq_left hle, Nat.sub_self, Nat.zero_add] at hcount
          have hnil : pieces.length = 0 := by
            by_contra hne
            have := Nat.le_mul_of_pos_left limit.toNat (Nat.pos_of_ne_zero hne)
            omega
          rw [hnil]
          omega
        · rw [Nat.min_eq_right hle] at hcount
          omega

/-- Pieces within a limit cover at most as many limits as there are pieces. -/
theorem Pieces.total_le {offset total limit : Nat} {pieces : List (UInt64 × UInt64)} (h : Pieces offset total block limit pieces) :
    total ≤ pieces.length * limit := by
  rw [← h.sum, ← length_map (fun piece : UInt64 × UInt64 => piece.2.toNat), ← smul_eq_mul]
  refine sum_le_card_nsmul _ _ fun length hlength => ?_
  obtain ⟨piece, hpiece, rfl⟩ := mem_map.mp hlength
  exact h.limited piece hpiece

theorem dvd_roundUp (length block : Nat) : block ∣ roundUp length block := Nat.dvd_mul_left _ _

variable {offsetBytes logicalBytes lbaBytes transferLimit : UInt64}

theorem splittable_of_ok {pieces : List (UInt64 × UInt64)} (h : splitExtent offsetBytes logicalBytes lbaBytes transferLimit = .ok pieces) :
    Splittable offsetBytes logicalBytes lbaBytes transferLimit := by
  simp only [splitExtent, check_bind_eq_ok, validateLba_eq_ok, validateTransferLimit_eq_ok, ensure_eq_ok, isMultipleOf_iff] at h
  obtain ⟨hlba, hlimit, hoffset, h⟩ := h
  refine ⟨hlba, hlimit, hoffset, fun hne => ?_⟩
  rw [if_neg hne, bind_eq_ok] at h
  obtain ⟨remaining, hremaining, h⟩ := h
  obtain ⟨hround, hnat⟩ := (alignUp_eq_ok hlba).mp hremaining
  rw [bind_eq_ok] at h
  obtain ⟨stop, hstop, -⟩ := h
  rw [require_eq_ok, checkedAdd_eq_some, hnat] at hstop
  exact ⟨hround, hstop.1⟩

/-- The pieces of an extent that can be split: all but the last are as long as the limit. -/
theorem exists_pieces (h : Splittable offsetBytes logicalBytes lbaBytes transferLimit) :
    ∃ pieces, splitExtent offsetBytes logicalBytes lbaBytes transferLimit = .ok pieces ∧ (logicalBytes = 0 → pieces = []) ∧
      Pieces offsetBytes.toNat (roundUp logicalBytes.toNat lbaBytes.toNat) lbaBytes.toNat transferLimit.toNat pieces ∧
      pieces.length * transferLimit.toNat < roundUp logicalBytes.toNat lbaBytes.toNat + transferLimit.toNat := by
  have hlba : validateLba lbaBytes = .ok () := validateLba_eq_ok.mpr h.lba
  have hlimit : validateTransferLimit transferLimit lbaBytes = .ok () := validateTransferLimit_eq_ok.mpr h.limit
  have hoffset := (isMultipleOf_iff _ _).mpr h.offset
  simp only [splitExtent, hlba, hlimit, hoffset, ensure_of, ok_bind]
  obtain ⟨k, hk⟩ := h.lba
  have hpos : 0 < lbaBytes.toNat := hk ▸ Nat.two_pow_pos k
  have hlimitPos : 0 < transferLimit.toNat := Nat.pos_of_ne_zero fun hzero => h.limit.1 (UInt64.toNat_inj.mp hzero)
  by_cases hzero : logicalBytes = 0
  · subst hzero
    have hround : roundUp (0 : UInt64).toNat lbaBytes.toNat = 0 := by
      rw [roundUp_eq hpos, show (0 : UInt64).toNat = 0 from rfl, Nat.zero_add, Nat.div_eq_of_lt (by omega), Nat.zero_mul]
    rw [hround, if_pos rfl]
    exact ⟨[], rfl, fun _ => rfl, ⟨by simp, .nil, by simp, by simp, by simp, rfl⟩, by simpa using hlimitPos⟩
  · obtain ⟨hround, hrange⟩ := h.fits hzero
    have hnat : (UInt64.ofNat (roundUp logicalBytes.toNat lbaBytes.toNat)).toNat = roundUp logicalBytes.toNat lbaBytes.toNat :=
      UInt64.toNat_ofNat_of_lt' hround
    obtain ⟨pieces, hpieces, hgood, hcount⟩ := splitLoop_spec h.limit.1 h.limit.2 offsetBytes
      (UInt64.ofNat (roundUp logicalBytes.toNat lbaBytes.toNat)) (by rw [hnat]; exact dvd_roundUp _ _)
      (by rw [hnat]; exact hrange)
    rw [hnat] at hgood hcount
    refine ⟨pieces, ?_, fun heq => absurd heq hzero, hgood, hcount⟩
    rw [if_neg hzero, (alignUp_eq_ok h.lba).mpr ⟨hround, hnat⟩, ok_bind, Rust.checkedAdd, if_pos (by rw [hnat]; exact hrange)]
    simp only [require, ok_bind, dif_neg h.limit.1, hpieces]

end ExtentAux

open ExtentAux

/-- `split_extent` accepts exactly the extents that can be split, and then it returns pieces that make up the rounded extent (none for
length 0), of which there is no shorter list. -/
theorem splitExtent_spec (offsetBytes logicalBytes lbaBytes transferLimit : UInt64) :
    ((∃ pieces, splitExtent offsetBytes logicalBytes lbaBytes transferLimit = .ok pieces) ↔
      Splittable offsetBytes logicalBytes lbaBytes transferLimit) ∧
    ∀ pieces, splitExtent offsetBytes logicalBytes lbaBytes transferLimit = .ok pieces →
      (logicalBytes = 0 → pieces = []) ∧
      Pieces offsetBytes.toNat (roundUp logicalBytes.toNat lbaBytes.toNat) lbaBytes.toNat transferLimit.toNat pieces ∧
      ∀ others, Pieces offsetBytes.toNat (roundUp logicalBytes.toNat lbaBytes.toNat) lbaBytes.toNat transferLimit.toNat others →
        pieces.length ≤ others.length := by
  refine ⟨⟨fun ⟨_, hpieces⟩ => splittable_of_ok hpieces, fun h => ?_⟩, fun pieces hpieces => ?_⟩
  · obtain ⟨pieces, hpieces, -⟩ := exists_pieces h
    exact ⟨pieces, hpieces⟩
  · obtain ⟨found, hfound, hempty, hgood, hcount⟩ := exists_pieces (splittable_of_ok hpieces)
    obtain rfl : pieces = found := Except.ok.inj (hpieces.symm.trans hfound)
    refine ⟨hempty, hgood, fun others hothers => ?_⟩
    -- One piece less would leave more than the limit to the others.
    by_contra hless
    have htotal := Pieces.total_le hothers
    have hmul := Nat.mul_le_mul_right transferLimit.toNat (show others.length + 1 ≤ pieces.length by omega)
    rw [Nat.add_mul, Nat.one_mul] at hmul
    omega

end EbpfSyscall
