import Mathlib

/-!
# Cutting a length into pieces

A length cut into pieces of a limit, and a last piece that is what remains: the fewest pieces within the limit. Rounding the length up to
whole blocks, of which the limit is a multiple, rounds the last piece only.
-/

namespace Tiles

open List

/-- The pieces of a length. -/
def sizes (limit total : Nat) : List Nat := List.replicate (total / limit) limit ++ if total % limit = 0 then [] else [total % limit]

/-- A length rounded up to whole blocks. -/
def roundUp (length block : Nat) : Nat := (length + block - 1) / block * block

variable {limit total block length : Nat}

@[simp] theorem sizes_zero : sizes limit 0 = [] := by
  simp [sizes]

/-- The first piece and the pieces of what remains, as a loop cuts them. -/
theorem sizes_step (hlimit : 0 < limit) (htotal : 0 < total) : sizes limit total = min total limit :: sizes limit (total - min total limit) := by
  rcases Nat.lt_or_ge total limit with hlt | hge
  · rw [Nat.min_eq_left hlt.le, Nat.sub_self, sizes_zero, sizes, Nat.div_eq_of_lt hlt, Nat.mod_eq_of_lt hlt, if_neg (by omega)]
    rfl
  · obtain ⟨rest, rfl⟩ : ∃ rest, total = rest + limit := ⟨total - limit, by omega⟩
    rw [Nat.min_eq_right hge, Nat.add_sub_cancel, sizes, sizes, Nat.add_div_right _ hlimit, Nat.add_mod_right, replicate_succ]
    rfl

theorem sum_sizes (limit total : Nat) : (sizes limit total).sum = total := by
  rw [sizes, sum_append, sum_replicate, smul_eq_mul]
  have hdiv := Nat.div_add_mod' total limit
  split
  · rw [sum_nil]
    omega
  · rw [sum_singleton]
    omega

theorem mem_sizes (hlimit : 0 < limit) {size : Nat} (h : size ∈ sizes limit total) : 0 < size ∧ size ≤ limit := by
  rcases mem_append.mp h with h | h
  · rw [eq_of_mem_replicate h]
    exact ⟨hlimit, le_rfl⟩
  · split at h
    · cases h
    · rename_i hne
      rw [mem_singleton.mp h]
      exact ⟨Nat.pos_of_ne_zero hne, (Nat.mod_lt _ hlimit).le⟩

/-- The number of pieces, times the limit, is less than one limit above the length. -/
theorem length_sizes_mul (hlimit : 0 < limit) (total : Nat) : (sizes limit total).length * limit < total + limit := by
  have hdiv := Nat.div_add_mod' total limit
  rw [sizes, length_append, length_replicate, Nat.add_mul]
  split
  · simp only [length_nil, Nat.zero_mul]
    omega
  · simp only [length_singleton, Nat.one_mul]
    omega

/-- No other pieces within the limit are fewer. -/
theorem length_sizes_le (hlimit : 0 < limit) {others : List Nat} (hothers : ∀ size ∈ others, size ≤ limit) (hsum : others.sum = total) :
    (sizes limit total).length ≤ others.length := by
  have htotal : total ≤ others.length * limit := by
    rw [← hsum, ← smul_eq_mul]
    exact sum_le_card_nsmul _ _ hothers
  have hcount := length_sizes_mul hlimit total
  by_contra hless
  have hmul := Nat.mul_le_mul_right limit (show others.length + 1 ≤ (sizes limit total).length by omega)
  rw [Nat.add_mul, Nat.one_mul] at hmul
  omega

/-- The pieces as a number of whole limits before the last piece. -/
theorem sizes_eq_concat (hlimit : 0 < limit) (htotal : 0 < total) :
    sizes limit total = List.replicate ((total - 1) / limit) limit ++ [total - limit * ((total - 1) / limit)] := by
  have hdiv := Nat.div_add_mod' total limit
  have hlt := Nat.mod_lt total hlimit
  rw [sizes]
  split
  · rename_i hzero
    obtain ⟨k, hk⟩ : ∃ k, total / limit = k + 1 := by
      refine ⟨total / limit - 1, ?_⟩
      have hpos : 0 < total / limit := by
        refine Nat.pos_of_ne_zero fun h => ?_
        rw [h] at hdiv
        omega
      omega
    have hlast : (total - 1) / limit = k := by
      rw [hk, Nat.add_mul, Nat.one_mul] at hdiv
      rw [Nat.div_eq_iff hlimit]
      omega
    rw [hk, hlast, append_nil, replicate_succ']
    congr 2
    rw [hk, Nat.add_mul, Nat.one_mul, Nat.mul_comm] at hdiv
    omega
  · rename_i hne
    have hsame : (total - 1) / limit = total / limit := by
      rw [Nat.div_eq_iff hlimit]
      omega
    rw [hsame, Nat.mul_comm]
    congr 2
    omega

theorem roundUp_of_dvd (hblock : 0 < block) (h : block ∣ length) : roundUp length block = length := by
  obtain ⟨k, rfl⟩ := h
  rw [roundUp, Nat.add_sub_assoc hblock, Nat.mul_add_div hblock, Nat.div_eq_of_lt (by omega), Nat.add_zero, Nat.mul_comm]

theorem le_roundUp (hblock : 0 < block) (length : Nat) : length ≤ roundUp length block := by
  have hdiv := Nat.div_add_mod' (length + block - 1) block
  have hlt := Nat.mod_lt (length + block - 1) hblock
  rw [roundUp]
  omega

theorem roundUp_le {bound : Nat} (hblock : 0 < block) (hdvd : block ∣ bound) (h : length ≤ bound) : roundUp length block ≤ bound := by
  rw [← roundUp_of_dvd hblock hdvd]
  exact Nat.mul_le_mul_right _ (Nat.div_le_div_right (by omega))

theorem roundUp_add {more : Nat} (hblock : 0 < block) (hdvd : block ∣ more) : roundUp (length + more) block = roundUp length block + more := by
  obtain ⟨k, rfl⟩ := hdvd
  rw [roundUp, roundUp, show length + block * k + block - 1 = length + block - 1 + block * k by omega, Nat.add_mul_div_left _ _ hblock,
    Nat.add_mul, Nat.mul_comm k]

/-- Rounding the length up to whole blocks rounds every piece. -/
theorem sizes_roundUp (hblock : 0 < block) (hlimit : 0 < limit) (hdvd : block ∣ limit) (total : Nat) :
    sizes limit (roundUp total block) = (sizes limit total).map fun size => roundUp size block := by
  induction total using Nat.strongRecOn with
  | ind total ih =>
    rcases Nat.eq_zero_or_pos total with rfl | hpos
    · rw [roundUp_of_dvd hblock (dvd_zero block)]
      simp
    · have hle := le_roundUp hblock total
      rw [sizes_step hlimit hpos, map_cons, ← ih _ (by omega), sizes_step hlimit (by omega)]
      rcases Nat.le_total total limit with hlow | hhigh
      · have hround := roundUp_le hblock hdvd hlow
        rw [Nat.min_eq_left hlow, Nat.min_eq_left hround, Nat.sub_self, Nat.sub_self, roundUp_of_dvd hblock (dvd_zero block)]
      · obtain ⟨rest, rfl⟩ : ∃ rest, total = rest + limit := ⟨total - limit, by omega⟩
        rw [roundUp_add hblock hdvd, Nat.min_eq_right hhigh, Nat.min_eq_right (Nat.le_add_left _ _), Nat.add_sub_cancel, Nat.add_sub_cancel,
          roundUp_of_dvd hblock hdvd]

end Tiles
