import EbpfSyscall.Ir.Workload

/-!
# Splitting an extent

`align_up` and `split_extent`: an extent of an object becomes commands of whole blocks, each no longer than the transfer limit.
-/

namespace EbpfSyscall

open Checked

/-- `align_up`. -/
def alignUp (value alignment : UInt64) : Except IrError UInt64 := do
  ensure (alignment ≠ 0 ∧ Rust.isPowerOfTwo alignment = true) ⟨"alignment must be a positive power of two"⟩
  let mask := alignment - 1
  require ((Rust.checkedAdd value mask).map fun sum => sum &&& ~~~mask) ⟨"aligned value overflows u64"⟩

/-- `a.min(b)`. -/
def minimum (a b : UInt64) : UInt64 := if a ≤ b then a else b

theorem toNat_minimum (a b : UInt64) : (minimum a b).toNat = min a.toNat b.toNat := by
  unfold minimum
  rw [Nat.min_def]
  simp only [UInt64.le_iff_toNat_le]
  split <;> rfl

/-- What remains after a piece. -/
theorem toNat_sub_minimum (a b : UInt64) : (a - minimum a b).toNat = a.toNat - min a.toNat b.toNat := by
  rw [UInt64.toNat_sub_of_le _ _ (by rw [UInt64.le_iff_toNat_le, toNat_minimum]; omega), toNat_minimum]

/-- The loop of `split_extent`. It ends because a limit that is not zero takes something off what remains. -/
def splitLoop (transferLimit : UInt64) (hlimit : transferLimit ≠ 0) (offset remaining : UInt64) :
    Except IrError (List (UInt64 × UInt64)) :=
  if hremaining : remaining = 0 then .ok []
  else do
    let length := minimum remaining transferLimit
    let next ← require (Rust.checkedAdd offset length) ⟨"split offset overflows u64"⟩
    let rest ← splitLoop transferLimit hlimit next (remaining - length)
    pure ((offset, length) :: rest)
termination_by remaining.toNat
decreasing_by
  have hpos : 0 < remaining.toNat := Nat.pos_of_ne_zero fun hzero => hremaining (UInt64.toNat_inj.mp hzero)
  have hlimit : 0 < transferLimit.toNat := Nat.pos_of_ne_zero fun hzero => hlimit (UInt64.toNat_inj.mp hzero)
  rw [toNat_sub_minimum]
  omega

/-- `split_extent`: the offset and the length of every piece. -/
def splitExtent (offsetBytes logicalBytes lbaBytes transferLimit : UInt64) : Except IrError (List (UInt64 × UInt64)) := do
  validateLba lbaBytes
  validateTransferLimit transferLimit lbaBytes
  ensure (Rust.isMultipleOf offsetBytes lbaBytes = true) ⟨"extent offset is not block aligned"⟩
  if logicalBytes = 0 then pure []
  else do
    let remaining ← alignUp logicalBytes lbaBytes
    let _ ← require (Rust.checkedAdd offsetBytes remaining) ⟨"extent range overflows u64"⟩
    -- The limit has been checked, so the loop is always entered.
    if hlimit : transferLimit = 0 then .error ⟨"transfer limit must be nonzero and block aligned"⟩
    else splitLoop transferLimit hlimit offsetBytes remaining

end EbpfSyscall
