import Mathlib

/-!
# A stream that arrives in segments

The items of a stream arrive in segments of any size, none of them empty, and a read returns at most one segment. Reading again until
enough has arrived gives the same items however the stream is cut; only when the stream ends too early there is no result.
-/

namespace Segments

open List

variable {α : Type}

/-- What is still to come. -/
structure Segmented (α : Type) where
  segments : List (List α)
  nonempty : ∀ segment ∈ segments, segment ≠ []

/-- All items that are still to come. -/
def Segmented.items (stream : Segmented α) : List α := stream.segments.flatten

/-- One read of at most `limit` items: the first segment, or as much of it as fits; nothing at the end. -/
def Segmented.read (stream : Segmented α) (limit : Nat) : List α × Segmented α :=
  match h : stream.segments with
  | [] => ([], stream)
  | segment :: rest =>
    if hfits : segment.length ≤ limit then
      (segment, ⟨rest, fun other hother => stream.nonempty other (h ▸ List.mem_cons_of_mem segment hother)⟩)
    else
      (segment.take limit, ⟨segment.drop limit :: rest, fun other hother => by
        rcases List.mem_cons.mp hother with rfl | hother
        · exact fun hnil => hfits (List.drop_eq_nil_iff.mp hnil)
        · exact stream.nonempty other (h ▸ List.mem_cons_of_mem segment hother)⟩)

/-- Everything that a read can do. -/
theorem read_cases (stream : Segmented α) {limit : Nat} (hlimit : 0 < limit) : (stream.items = [] ∧ stream.read limit = ([], stream)) ∨
      ((stream.read limit).1 ≠ [] ∧ (stream.read limit).1.length ≤ limit ∧
        (stream.read limit).1 ++ (stream.read limit).2.items = stream.items) := by
  obtain ⟨segments, hnonempty⟩ := stream
  cases segments with
  | nil => exact Or.inl ⟨rfl, rfl⟩
  | cons segment rest =>
    refine Or.inr ?_
    by_cases hfits : segment.length ≤ limit
    · simp only [Segmented.read, dif_pos hfits]
      exact ⟨hnonempty segment mem_cons_self, hfits, rfl⟩
    · have hne : segment.take limit ≠ [] := by
        rw [← length_pos_iff, length_take]
        omega
      simp only [Segmented.read, dif_neg hfits]
      refine ⟨hne, length_take_le limit segment, ?_⟩
      rw [Segmented.items, flatten_cons, ← append_assoc, take_append_drop]
      rfl

/-- Reading until `n` items have arrived; `buf` has those so far. -/
def readUntil (n : Nat) (buf : List α) (stream : Segmented α) : Option (List α) × Segmented α :=
  if buf.length < n then
    if (stream.read (n - buf.length)).1 = [] then (none, (stream.read (n - buf.length)).2)
    else readUntil n (buf ++ (stream.read (n - buf.length)).1) (stream.read (n - buf.length)).2
  else (some buf, stream)
termination_by n - buf.length
decreasing_by
  have hpos := List.length_pos_iff.mpr ‹¬(stream.read (n - buf.length)).1 = []›
  rw [List.length_append]
  omega

/-- The loop returns the next items, or nothing when the stream ends before. -/
theorem readUntil_spec (n : Nat) (buf : List α) (stream : Segmented α) (hbuf : buf.length ≤ n) :
    (n ≤ (buf ++ stream.items).length → (readUntil n buf stream).1 = some ((buf ++ stream.items).take n) ∧
      (readUntil n buf stream).2.items = (buf ++ stream.items).drop n) ∧
    ((buf ++ stream.items).length < n → (readUntil n buf stream).1 = none) := by
  fun_induction readUntil n buf stream with
  | case1 buf stream hlt hempty =>
    rcases read_cases stream (Nat.sub_pos_of_lt hlt) with ⟨hend, _⟩ | ⟨hne, _⟩
    · rw [hend, append_nil]
      exact ⟨fun hle => absurd hle (by omega), fun _ => rfl⟩
    · exact absurd hempty hne
  | case2 buf stream hlt hne ih =>
    rcases read_cases stream (Nat.sub_pos_of_lt hlt) with ⟨_, hend⟩ | ⟨_, hlength, hitems⟩
    · exact absurd (congrArg Prod.fst hend) hne
    · have hnext := ih (by rw [length_append]; omega)
      rwa [append_assoc, hitems] at hnext
  | case3 buf stream hge =>
    obtain hlen : buf.length = n := by omega
    refine ⟨fun _ => ⟨?_, ?_⟩, fun hlt => absurd hlt (by rw [length_append]; omega)⟩
    · rw [take_left' hlen]
    · rw [drop_left' hlen]

end Segments
