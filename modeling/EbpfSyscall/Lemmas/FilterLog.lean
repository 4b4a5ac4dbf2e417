import EbpfSyscall.Filter.SyscallLog

/-!
# The loop of the filter, record by record

Everything that one record can do to the loop, and what it does to the records that are held (kept or put off) and to the writes of one
descriptor.
-/

namespace EbpfSyscall

open List Buckets

/-! ## Fields of a record -/

namespace Dict

variable {key : String}

theorem get_pop_of_ne (d : Dict) {other : String} (h : other ≠ key) : (d.pop key).get other = d.get other := by
  induction d with
  | nil => rfl
  | cons entry d ih =>
    obtain ⟨k, v⟩ := entry
    unfold pop get at ih ⊢
    by_cases hk : k = key.toList
    · rw [List.filter_cons_of_neg (by simpa using hk), ih, List.lookup_cons]
      have hne : (other.toList == k) = false := by
        rw [beq_eq_false_iff_ne, hk, ne_eq, String.toList_inj]
        exact h
      rw [hne]
    · rw [List.filter_cons_of_pos (by simpa using hk), List.lookup_cons, List.lookup_cons, ih]

theorem get_set_of_ne (d : Dict) {other : String} (h : other ≠ key) (value : Json) : (d.set key value).get other = d.get other := by
  rw [get_set, if_neg (Ne.symm h)]

/-- Without a field, setting it changes nothing. -/
theorem pop_set (d : Dict) (key : String) (value : Json) : (d.set key value).pop key = d.pop key := by
  induction d with
  | nil => simp [Dict.set, Dict.pop]
  | cons entry d ih =>
    obtain ⟨k, v⟩ := entry
    unfold Dict.pop at ih ⊢
    rw [Dict.set]
    split
    · rename_i hk
      subst hk
      rw [List.filter_cons_of_neg (by simp), List.filter_cons_of_neg (by simp)]
    · rename_i hk
      split
      · rw [List.filter_cons_of_neg (by simp)]
      · rw [List.filter_cons_of_pos (by simpa using hk), List.filter_cons_of_pos (by simpa using hk), ih]

theorem pop_of_get_eq_none {d : Dict} (h : d.get key = none) : d.pop key = d := by
  refine filter_eq_self.mpr fun entry hentry => decide_eq_true fun heq => ?_
  rw [get, lookup_eq_none_iff] at h
  have hne := h entry hentry
  rw [heq, bne_self_eq_false] at hne
  cases hne

end Dict

namespace FilterLog

/-- A write of a pid to a descriptor. -/
def isWriteOf (pid fd : Int) (r : Dict) : Bool :=
  isWrite r && decide (recPid r = .int pid) && decide (r.getOr "fd" (.int (-1)) = .int fd)

/-- A record that is not kept. -/
def isExit (r : Record) : Bool := isOpenatExit r.entries || isGenericExit r.entries

/-- A record as it is kept: the entry of an `openat` may differ in its return value. -/
def Image (r : Record) (entries : Dict) : Prop :=
  if isOpenatEntry r.entries = true then entries.pop "ret" = r.entries.pop "ret" else entries = r.entries

namespace FilterAux

theorem eq_int_iff (v : Json) (i : Int) : Python.eq v (.int i) = true ↔ Python.number? v = some (i : Rat) := by
  cases v with
  | null | str _ | arr _ | obj _ | bool b | int j => simp [Python.eq, Python.number?]
  | float f => cases f <;> simp [Python.eq, Python.number?]

/-- A record has one number. -/
theorem isNr_unique {r : Dict} {a b : Int} (ha : isNr r a = true) (hb : isNr r b = true) : a = b := by
  rw [isNr, eq_int_iff] at ha hb
  exact_mod_cast Option.some.inj (ha.symm.trans hb)

theorem not_openat_of_isWrite {r : Dict} (h : isWrite r = true) : isNr r openatNr = false := by
  obtain ⟨nr, hnr, heq⟩ := any_eq_true.mp h
  by_contra hopenat
  rw [Bool.not_eq_false] at hopenat
  rw [isNr_unique heq hopenat] at hnr
  revert hnr
  decide

theorem not_close_of_isWrite {r : Dict} (h : isWrite r = true) : isNr r closeNr = false := by
  obtain ⟨nr, hnr, heq⟩ := any_eq_true.mp h
  by_contra hclose
  rw [Bool.not_eq_false] at hclose
  rw [isNr_unique heq hclose] at hnr
  revert hnr
  decide

theorem Record.fd_eq (r : Record) : r.entries.getOr "fd" (.int (-1)) = .int r.fd := by
  have hint := r.intFd
  unfold Record.fd
  cases h : r.entries.getOr "fd" (.int (-1)) with
  | int fd => rfl
  | null | bool _ | float _ | str _ | arr _ | obj _ =>
    rw [h] at hint
    cases hint

theorem isWriteOf_record {pid fd : Int} (r : Record) : isWriteOf pid fd r.entries = true ↔ isWrite r.entries = true ∧ r.pid = pid ∧ r.fd = fd := by
  simp [isWriteOf, r.recPid_eq, Record.fd_eq, and_assoc]

/-- The private field does not matter. -/
theorem isWriteOf_unmark (pid fd : Int) (r : Dict) : isWriteOf pid fd ((mark r).pop marker) = isWriteOf pid fd r := by
  have hnr : ∀ nr, isNr (r.pop marker) nr = isNr r nr := fun nr => by
    rw [isNr, isNr, Dict.getOr, Dict.getOr, Dict.get_pop_of_ne _ (by decide)]
  have hget : ∀ key value, key ≠ marker → (r.pop marker).getOr key value = r.getOr key value := fun key value hkey => by
    rw [Dict.getOr, Dict.getOr, Dict.get_pop_of_ne _ hkey]
  have hpid : recPid (r.pop marker) = recPid r := by
    rw [recPid, recPid, hget "pid" _ (by decide), hget "tgid" _ (by decide), hget "tid" _ (by decide)]
  rw [mark, Dict.pop_set, isWriteOf, isWriteOf, isWrite, isWrite, funext hnr, hpid, hget "fd" _ (by decide)]

theorem isNr_set_ret (r : Dict) (value : Json) (nr : Int) : isNr (r.set "ret" value) nr = isNr r nr := by
  rw [isNr, isNr, Dict.getOr, Dict.getOr, Dict.get_set_of_ne _ (by decide)]

/-! ## One record -/

/-- A write that is put off. -/
structure Defers (data : List Record) (lookahead : Int) (st : State) (idx : Nat) (r : Record) : Prop where
  write : isWrite r.entries = true
  closed : r.fd ∉ st.pidRegistered r.pid
  ahead : hasSamePidOpenat data lookahead idx r = true

/-- Everything that one record can do. -/
theorem step_cases (data : List Record) (lookahead : Int) (st : State) (idx : Nat) (r : Record) :
    (isExit r = true ∧ step data lookahead st idx r = st) ∨
    (isExit r = false ∧ isOpenatEntry r.entries = true ∧ step data lookahead st idx r = openatStep st idx r) ∨
    (isExit r = false ∧ isOpenatEntry r.entries = false ∧ Defers data lookahead st idx r ∧ step data lookahead st idx r =
      { st with deferredWrites := push st.deferredWrites (r.pid, r.fd) ⟨idx, mark r.entries⟩ }) ∨
    (isExit r = false ∧ isOpenatEntry r.entries = false ∧ ¬Defers data lookahead st idx r ∧
      ∃ registered : Int → List Int, (∀ pid, registered pid ⊆ st.pidRegistered pid) ∧
        step data lookahead st idx r = { keep st idx r with pidRegistered := registered }) := by
  unfold step isExit
  by_cases hopenat : isOpenatExit r.entries = true
  · exact .inl ⟨by rw [hopenat, Bool.true_or], if_pos hopenat⟩
  · rw [if_neg hopenat]
    by_cases hgeneric : isGenericExit r.entries = true
    · exact .inl ⟨by rw [hgeneric, Bool.or_true], if_pos hgeneric⟩
    · rw [if_neg hgeneric]
      rw [Bool.not_eq_true] at hopenat hgeneric
      have hexit : (isOpenatExit r.entries || isGenericExit r.entries) = false := by rw [hopenat, hgeneric, Bool.false_or]
      by_cases hentry : isOpenatEntry r.entries = true
      · exact .inr (.inl ⟨hexit, hentry, if_pos hentry⟩)
      · rw [if_neg hentry]
        rw [Bool.not_eq_true] at hentry
        by_cases hclose : isNr r.entries closeNr = true
        · refine .inr (.inr (.inr ⟨hexit, hentry, fun h => ?_, _, ?_, if_pos hclose⟩))
          · rw [not_close_of_isWrite h.write] at hclose
            cases hclose
          · intro pid
            split
            · exact Subset.refl _
            · by_cases hpid : pid = r.pid
              · subst hpid
                rw [Function.update_self]
                exact filter_subset_self _
              · rw [Function.update_of_ne hpid]
                exact Subset.refl _
        · rw [if_neg hclose]
          by_cases hwrite : isWrite r.entries = true
          · rw [if_pos hwrite, writeStep]
            by_cases hdefers : r.fd ∉ st.pidRegistered r.pid ∧ hasSamePidOpenat data lookahead idx r = true
            · exact .inr (.inr (.inl ⟨hexit, hentry, ⟨hwrite, hdefers.1, hdefers.2⟩, if_pos hdefers⟩))
            · exact .inr (.inr (.inr ⟨hexit, hentry, fun h => hdefers ⟨h.closed, h.ahead⟩, st.pidRegistered, fun _ => Subset.refl _,
                if_neg hdefers⟩))
          · rw [if_neg hwrite]
            exact .inr (.inr (.inr ⟨hexit, hentry, fun h => hwrite h.write, st.pidRegistered, fun _ => Subset.refl _, rfl⟩))

/-- The entry of an `openat` changes at most in its return value. -/
theorem patchOpenat_entries (r : Record) (queue : List (Option Int)) :
    ((patchOpenat r queue).2.1).pop "ret" = r.entries.pop "ret" ∧ ∀ nr, isNr (patchOpenat r queue).2.1 nr = isNr r.entries nr := by
  unfold patchOpenat
  split
  · split
    · exact ⟨Dict.pop_set _ _ _, isNr_set_ret _ _⟩
    · exact ⟨rfl, fun _ => rfl⟩
  · exact ⟨rfl, fun _ => rfl⟩
  · exact ⟨rfl, fun _ => rfl⟩

variable {data : List Record} {r : Record} {idx : Nat} {st : State} {count : Nat}

/-- The states one after the other. -/
theorem stateAfter_succ {lookahead : Int} (h : data[idx]? = some r) :
    stateAfter data lookahead (idx + 1) = step data lookahead (stateAfter data lookahead idx) idx r := by
  obtain ⟨hlt, hr⟩ := List.getElem?_eq_some_iff.mp h
  rw [stateAfter, List.take_add_one, h, Option.toList_some, List.zipIdx_append, List.foldl_append, List.length_take, Nat.min_eq_left hlt.le,
    Nat.zero_add]
  rfl

/-! ## What is held -/

/-- The records that are kept or put off. -/
def held (st : State) : Multiset Kept := (st.kept : Multiset Kept) + ((Buckets.contents st.deferredWrites).map Kept.unmark : Multiset Kept)

/-- A record of the data as it is kept. -/
def KeptAs (item : Record × Nat) (k : Kept) : Prop := k.place = item.2 ∧ Image item.1 k.entries

/-- A record that is not an exit is held from then on, at its place: the entry of an `openat` as it is patched, another one as it is but for
the private field. -/
theorem held_step_place (data : List Record) (lookahead : Int) (st : State) (idx : Nat) (r : Record) :
    (isExit r = true ∧ held (step data lookahead st idx r) = held st) ∨
      (isExit r = false ∧ ∃ entries, held (step data lookahead st idx r) = held st + {⟨idx, entries⟩} ∧
        ((isOpenatEntry r.entries = true ∧ entries = (patchOpenat r (st.openatExitQueue r.pid)).2.1) ∨
          (isOpenatEntry r.entries = false ∧ (entries = r.entries ∨ entries = r.entries.pop marker)))) := by
  rcases step_cases data lookahead st idx r with ⟨hexit, heq⟩ | ⟨hexit, hentry, heq⟩ | ⟨hexit, hentry, -, heq⟩ |
    ⟨hexit, hentry, -, registered, -, heq⟩
  · exact .inl ⟨hexit, by rw [heq]⟩
  · refine .inr ⟨hexit, _, ?_, .inl ⟨hentry, rfl⟩⟩
    have hpop : ∀ capFd, ((Buckets.contents st.deferredWrites).map Kept.unmark : Multiset Kept) =
        ((popDeferred st.deferredWrites r.pid capFd).1.map Kept.unmark : Multiset Kept) +
          ((Buckets.contents (popDeferred st.deferredWrites r.pid capFd).2).map Kept.unmark : Multiset Kept) := by
      intro capFd
      rw [Multiset.coe_add, ← List.map_append, Multiset.coe_eq_coe]
      cases capFd with
      | none => exact List.Perm.refl _
      | some fd => exact (Buckets.contents_erase st.deferredWrites (r.pid, fd)).map _
    rw [heq, held, held, openatStep, hpop (patchOpenat r (st.openatExitQueue r.pid)).2.2, ← Multiset.coe_add, ← Multiset.coe_add,
      Multiset.coe_singleton]
    dsimp only
    abel
  · refine .inr ⟨hexit, _, ?_, .inr ⟨hentry, .inr rfl⟩⟩
    have hunmark : Kept.unmark ⟨idx, mark r.entries⟩ = ⟨idx, r.entries.pop marker⟩ := by
      rw [Kept.unmark, mark, Dict.pop_set]
    have hpush := (Buckets.contents_push st.deferredWrites (r.pid, r.fd) ⟨idx, mark r.entries⟩).map Kept.unmark
    rw [List.map_append, List.map_singleton, hunmark] at hpush
    rw [heq, held, held, Multiset.coe_eq_coe.mpr hpush, ← Multiset.coe_add, Multiset.coe_singleton, add_assoc]
  · refine .inr ⟨hexit, _, ?_, .inr ⟨hentry, .inl rfl⟩⟩
    rw [heq, held, held, keep, ← Multiset.coe_add, Multiset.coe_singleton]
    dsimp only
    abel

/-- A record that is not an exit is held from then on. -/
theorem held_step (data : List Record) (lookahead : Int) (st : State) (idx : Nat) (hmarker : r.entries.get marker = none) :
    (isExit r = true ∧ held (step data lookahead st idx r) = held st) ∨
      (isExit r = false ∧ ∃ k, KeptAs (r, idx) k ∧ held (step data lookahead st idx r) = held st + {k}) := by
  rcases held_step_place data lookahead st idx r with hexit | ⟨hexit, entries, heq, ⟨hentry, hpatched⟩ | ⟨hentry, hsame⟩⟩
  · exact .inl hexit
  · refine .inr ⟨hexit, _, ⟨rfl, ?_⟩, heq⟩
    rw [Image, if_pos hentry, hpatched]
    exact (patchOpenat_entries r _).1
  · rw [Dict.pop_of_get_eq_none hmarker, or_self] at hsame
    exact .inr ⟨hexit, _, ⟨rfl, by rw [Image, hentry]; exact hsame⟩, heq⟩

/-- After some records, what is held are those that are not exits. -/
theorem held_stateAfter (lookahead : Int) (hmarker : ∀ r ∈ data, r.entries.get marker = none) (count : Nat) :
    Multiset.Rel KeptAs ((data.take count).zipIdx.filter fun item => !isExit item.1 : List (Record × Nat)) (held (stateAfter data lookahead count)) := by
  induction count with
  | zero => exact Multiset.Rel.zero
  | succ idx ih =>
    cases hr : data[idx]? with
    | none =>
      have hlen := List.getElem?_eq_none_iff.mp hr
      have hafter : stateAfter data lookahead (idx + 1) = stateAfter data lookahead idx := by
        rw [stateAfter, stateAfter, List.take_of_length_le hlen, List.take_of_length_le (hlen.trans (Nat.le_succ idx))]
      rw [hafter, List.take_of_length_le (hlen.trans (Nat.le_succ idx))]
      rwa [List.take_of_length_le hlen] at ih
    | some r =>
      obtain ⟨hlt, -⟩ := List.getElem?_eq_some_iff.mp hr
      rw [stateAfter_succ hr, List.take_add_one, hr, Option.toList_some, List.zipIdx_append, List.filter_append, List.length_take,
        Nat.min_eq_left hlt.le, Nat.zero_add, List.zipIdx_singleton]
      rcases held_step data lookahead (stateAfter data lookahead idx) idx (hmarker r (List.mem_of_getElem? hr)) with ⟨hexit, heq⟩ | ⟨hexit, k, hk, heq⟩
      · rw [List.filter_cons_of_neg (by simp [hexit]), List.filter_nil, List.append_nil, heq]
        exact ih
      · rw [List.filter_cons_of_pos (by simp [hexit]), List.filter_nil, heq, ← Multiset.coe_add, Multiset.coe_singleton]
        exact ih.add (Multiset.Rel.cons hk Multiset.Rel.zero)

/-! ## The writes of one descriptor -/

/-- The places of the writes to a descriptor: those that are kept, and those that are put off. -/
def keptPlaces (pid fd : Int) (st : State) : List Nat := (st.kept.filter fun k => isWriteOf pid fd k.entries).map Kept.place

def deferredPlaces (pid fd : Int) (st : State) : List Nat := (Buckets.bucket st.deferredWrites (pid, fd)).map Kept.place

/-- In the order in which they would be written now. -/
def places (pid fd : Int) (st : State) : List Nat := keptPlaces pid fd st ++ deferredPlaces pid fd st

/-- What holds after `count` records: only writes are put off, under their pid and descriptor; none of an open descriptor is; and all
places come before. -/
structure Tidy (count : Nat) (st : State) : Prop where
  writes : ∀ pid fd, ∀ k ∈ Buckets.bucket st.deferredWrites (pid, fd), ∀ other otherFd,
    isWriteOf other otherFd k.unmark.entries = true ↔ other = pid ∧ otherFd = fd
  registered : ∀ pid fd, fd ∈ st.pidRegistered pid → Buckets.bucket st.deferredWrites (pid, fd) = []
  before : ∀ pid fd, ∀ place ∈ places pid fd st, place < count

theorem tidy_start (data : List Record) : Tidy 0 (State.start data) := by
  refine ⟨?_, ?_, ?_⟩
  · intro pid fd k hk
    cases hk
  · intro pid fd hfd
    cases hfd
  · intro pid fd place hplace
    cases hplace

/-- The writes that wait for a descriptor are kept in the order in which they wait. -/
theorem filter_pending (h : Tidy count st) (owner : Int) (capFd : Option Int) (pid fd : Int) :
    ((popDeferred st.deferredWrites owner capFd).1.map Kept.unmark).filter (fun k => isWriteOf pid fd k.entries) =
      if capFd = some fd ∧ owner = pid then (Buckets.bucket st.deferredWrites (pid, fd)).map Kept.unmark else [] := by
  cases capFd with
  | none => simp [popDeferred]
  | some cap =>
    rw [popDeferred]
    dsimp only
    by_cases hkey : some cap = some fd ∧ owner = pid
    · obtain ⟨hcap, rfl⟩ := hkey
      cases hcap
      rw [if_pos ⟨rfl, rfl⟩, filter_eq_self]
      intro k hk
      obtain ⟨old, hold, rfl⟩ := mem_map.mp hk
      exact (h.writes _ _ old hold _ _).mpr ⟨rfl, rfl⟩
    · rw [if_neg hkey, filter_eq_nil_iff]
      intro k hk hwrite
      obtain ⟨old, hold, rfl⟩ := mem_map.mp hk
      obtain ⟨rfl, rfl⟩ := (h.writes _ _ old hold _ _).mp hwrite
      exact hkey ⟨rfl, rfl⟩

theorem bucket_popDeferred (deferred : Assoc (Int × Int) (List Kept)) (owner : Int) (capFd : Option Int) (pid fd : Int) :
    Buckets.bucket (popDeferred deferred owner capFd).2 (pid, fd) =
      if capFd = some fd ∧ owner = pid then [] else Buckets.bucket deferred (pid, fd) := by
  cases capFd with
  | none => simp [popDeferred]
  | some cap =>
    rw [popDeferred]
    dsimp only
    rw [bucket_erase]
    refine if_congr ?_ rfl rfl
    rw [Prod.mk.injEq, Option.some.injEq]
    constructor
    · rintro ⟨rfl, rfl⟩
      exact ⟨rfl, rfl⟩
    · rintro ⟨rfl, rfl⟩
      exact ⟨rfl, rfl⟩

/-- An `openat` leaves the order of the writes. -/
theorem places_openatStep (h : Tidy count st) (idx : Nat) (hentry : isOpenatEntry r.entries = true)
    (pid fd : Int) : places pid fd (openatStep st idx r) = places pid fd st := by
  have hnr : isNr r.entries openatNr = true := (Bool.and_eq_true_iff.mp hentry).1
  have hentries : isWriteOf pid fd (patchOpenat r (st.openatExitQueue r.pid)).2.1 = false := by
    rw [isWriteOf]
    by_contra hwrite
    rw [Bool.not_eq_false, Bool.and_eq_true, Bool.and_eq_true] at hwrite
    have hopenat := not_openat_of_isWrite hwrite.1.1
    rw [(patchOpenat_entries r _).2, hnr] at hopenat
    cases hopenat
  rw [places, places, keptPlaces, deferredPlaces, openatStep]
  dsimp only
  rw [List.filter_append, List.filter_append, filter_pending h, List.filter_cons_of_neg (by rw [hentries]; simp), List.filter_nil,
    List.append_nil, List.map_append, bucket_popDeferred, List.append_assoc]
  refine congrArg _ ?_
  split
  · rw [List.map_map, List.map_nil, List.append_nil]
    rfl
  · rfl

/-- What one record does to the writes of a descriptor: nothing, or it is one of them and put off, or one of them and kept. -/
theorem places_step (data : List Record) (lookahead : Int) (h : Tidy idx st) (r : Record) (pid fd : Int) :
    (¬(isExit r = false ∧ isWriteOf pid fd r.entries = true) ∧ places pid fd (step data lookahead st idx r) = places pid fd st) ∨
    (Defers data lookahead st idx r ∧ places pid fd (step data lookahead st idx r) = places pid fd st ++ [idx]) ∨
    (isExit r = false ∧ isWriteOf pid fd r.entries = true ∧ ¬Defers data lookahead st idx r ∧
      places pid fd (step data lookahead st idx r) = keptPlaces pid fd st ++ idx :: deferredPlaces pid fd st) := by
  rcases step_cases data lookahead st idx r with ⟨hexit, heq⟩ | ⟨hexit, hentry, heq⟩ | ⟨hexit, hentry, hdefers, heq⟩ |
    ⟨hexit, hentry, hdefers, registered, -, heq⟩
  · exact .inl ⟨fun hwrite => absurd (hexit.symm.trans hwrite.1) (by decide), by rw [heq]⟩
  · refine .inl ⟨fun hwrite => ?_, by rw [heq, places_openatStep h idx hentry]⟩
    have hopenat := not_openat_of_isWrite ((isWriteOf_record r).mp hwrite.2).1
    rw [(Bool.and_eq_true_iff.mp hentry).1] at hopenat
    cases hopenat
  · rw [heq]
    by_cases hown : r.pid = pid ∧ r.fd = fd
    · obtain ⟨rfl, rfl⟩ := hown
      refine .inr (.inl ⟨hdefers, ?_⟩)
      rw [places, places, deferredPlaces, deferredPlaces, bucket_push, if_pos rfl, map_append, append_assoc]
      rfl
    · refine .inl ⟨fun hwrite => hown ((isWriteOf_record r).mp hwrite.2).2, ?_⟩
      have hne : (pid, fd) ≠ (r.pid, r.fd) := fun hsame => hown ⟨(Prod.mk.inj hsame).1.symm, (Prod.mk.inj hsame).2.symm⟩
      rw [places, places, deferredPlaces, deferredPlaces, bucket_push, if_neg hne]
      rfl
  · rw [heq]
    by_cases hwrite : isWriteOf pid fd r.entries = true
    · refine .inr (.inr ⟨hexit, hwrite, hdefers, ?_⟩)
      rw [places, keptPlaces, keep]
      simp only [List.filter_append, filter_cons, hwrite, if_true, List.filter_nil, map_append, append_assoc]
      rfl
    · refine .inl ⟨fun h => hwrite h.2, ?_⟩
      rw [places, keptPlaces, keep]
      simp only [List.filter_append, filter_cons, hwrite, Bool.false_eq_true, if_false, List.filter_nil, append_nil]
      rfl

/-- Only registered descriptors are registered. -/
theorem mem_register {registered : Int → List Int} {owner pid fd : Int} {capFd : Option Int} (h : fd ∈ register registered owner capFd pid) :
    (capFd = some fd ∧ owner = pid) ∨ fd ∈ registered pid := by
  unfold register at h
  split at h
  · split at h
    · by_cases hpid : pid = owner
      · subst hpid
        rw [Function.update_self] at h
        rcases mem_cons.mp h with rfl | h
        · exact .inl ⟨rfl, rfl⟩
        · exact .inr h
      · rw [Function.update_of_ne hpid] at h
        exact .inr h
    · exact .inr h
  · exact .inr h

theorem tidy_step {lookahead : Int} (h : Tidy idx st) (r : Record) : Tidy (idx + 1) (step data lookahead st idx r) := by
  have hbefore : ∀ pid fd, ∀ place ∈ places pid fd (step data lookahead st idx r), place < idx + 1 := by
    intro pid fd place hplace
    have hold : ∀ place ∈ places pid fd st, place < idx + 1 := fun place hplace => (h.before pid fd place hplace).trans (Nat.lt_succ_self idx)
    rcases places_step data lookahead h r pid fd with ⟨-, heq⟩ | ⟨-, heq⟩ | ⟨-, -, -, heq⟩
    · exact hold place (heq ▸ hplace)
    · rw [heq] at hplace
      rcases List.mem_append.mp hplace with hplace | hplace
      · exact hold place hplace
      · rw [List.mem_singleton.mp hplace]
        exact Nat.lt_succ_self idx
    · rw [heq] at hplace
      rcases List.mem_append.mp hplace with hplace | hplace
      · exact hold place (List.mem_append_left _ hplace)
      · rcases List.mem_cons.mp hplace with rfl | hplace
        · exact Nat.lt_succ_self place
        · exact hold place (List.mem_append_right _ hplace)
  rcases step_cases data lookahead st idx r with ⟨-, heq⟩ | ⟨-, -, heq⟩ | ⟨-, -, hdefers, heq⟩ | ⟨-, -, -, registered, hregistered, heq⟩
  · rw [heq] at hbefore ⊢
    exact ⟨h.writes, h.registered, hbefore⟩
  · rw [heq] at hbefore ⊢
    refine ⟨?_, ?_, hbefore⟩
    · intro pid fd k hk
      rw [openatStep] at hk
      dsimp only at hk
      rw [bucket_popDeferred] at hk
      split at hk
      · cases hk
      · exact h.writes pid fd k hk
    · intro pid fd hfd
      rw [openatStep] at hfd ⊢
      dsimp only at hfd ⊢
      rw [bucket_popDeferred]
      rcases mem_register hfd with hopened | hold
      · rw [if_pos hopened]
      · rw [h.registered pid fd hold, ite_self]
  · rw [heq] at hbefore ⊢
    refine ⟨?_, ?_, hbefore⟩
    · intro pid fd k hk other otherFd
      dsimp only at hk
      rw [Buckets.bucket_push] at hk
      split at hk
      · rename_i hkey
        rcases List.mem_append.mp hk with hk | hk
        · rw [← hkey] at hk
          exact h.writes pid fd k hk other otherFd
        · obtain ⟨rfl, rfl⟩ := Prod.mk.inj hkey
          rw [List.mem_singleton.mp hk, Kept.unmark]
          dsimp only
          rw [isWriteOf_unmark, isWriteOf_record, and_iff_right hdefers.write]
          exact and_congr eq_comm eq_comm
      · exact h.writes pid fd k hk other otherFd
    · intro pid fd hfd
      dsimp only at hfd ⊢
      have hne : (pid, fd) ≠ (r.pid, r.fd) := by
        intro hkey
        obtain ⟨rfl, rfl⟩ := Prod.mk.inj hkey
        exact hdefers.closed hfd
      rw [Buckets.bucket_push, if_neg hne]
      exact h.registered pid fd hfd
  · rw [heq] at hbefore ⊢
    exact ⟨h.writes, fun pid fd hfd => h.registered pid fd (hregistered pid hfd), hbefore⟩

theorem tidy_stateAfter (data : List Record) (lookahead : Int) (hcount : count ≤ data.length) : Tidy count (stateAfter data lookahead count) := by
  induction count with
  | zero => exact tidy_start data
  | succ idx ih =>
    rw [stateAfter_succ (getElem?_eq_getElem hcount)]
    exact tidy_step (ih (Nat.le_of_succ_le hcount)) _

end FilterAux

end FilterLog

end EbpfSyscall
