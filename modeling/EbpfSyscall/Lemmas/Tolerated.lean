import EbpfSyscall.Lemmas.Reparse
import EbpfSyscall.Lemmas.Capture

/-!
# The device names the exporter's own check tolerates

`translation_certificate` compares what `parse_iolog` reads with the stream. A name that is one field passes, with or without
blanks around it. A name with line breaks inside passes only when every line it breaks off reads as an action line and the stamps
it brings along are right, which they are only for a stream whose rounded times are all zero.
-/

namespace EbpfSyscall

open Checked ReparseAux List Option Fields

/-- The device names for which the exporter finds its stream again. `burst` says that the stream lasts less than a
microsecond. -/
def ToleratedName (burst : Prop) (name : Text) : Prop :=
  (∃ word, (pieces name).map Python.split = [[word]]) ∨
  ∃ word action mids y z, (pieces name).map Python.split = [word, action] :: (mids ++ [[y, z]]) ∧
    action ∈ ["add".toList, "open".toList, "close".toList] ∧ (∀ fields ∈ mids, IsAction fields) ∧
    Python.intOfText y = some 0 ∧ burst

/-- The command the line of a row gives when the stamp before it reads as `stamp`. -/
def rowCommand (stamp : Int) (row : Row) : IologCommand where
  timestampUs := stamp
  op := row.op.fioName
  offsetBytes := if row.op = .datasync then 0 else row.offsetBytes
  lengthBytes := if row.op = .datasync then 0 else row.lengthBytes

/-- The command an iolog must hold for a row. -/
def expectedRow (t0 : Int) (row : Row) : IologCommand :=
  ⟨(row.timestampNs - t0) / 1000, row.op.fioName, row.offsetBytes, row.lengthBytes⟩

namespace ToleratedAux

/-! ## Printed integers -/

theorem pyWord_printed (i : Int) : PyWord (printed i) := by
  unfold printed Decimal.printInt
  have hdigits : ∀ c ∈ Decimal.print i.natAbs, Python.isSpace c = false := fun c hc =>
    PythonTextAux.isSpace_of_isDigit (Decimal.isDigit_of_mem_print hc)
  split
  · refine ⟨by simp, fun c hc => ?_⟩
    rcases List.mem_cons.mp hc with rfl | hc
    · decide
    · exact hdigits c hc
  · exact ⟨Decimal.print_ne_nil _, hdigits⟩

theorem intOfText_printed {i : Int} (h : 0 ≤ i) : Python.intOfText (printed i) = some i := by
  obtain ⟨n, rfl⟩ := Int.eq_ofNat_of_zero_le h
  rw [printed, Decimal.printInt_natCast]
  exact PythonTextAux.intOfText_print n

theorem pyWord_fioName (op : Operation) : PyWord op.fioName := by
  cases op <;> exact word_iff_all.mpr ⟨by decide, by decide⟩

theorem pyWord_rowWords (row : Row) : ∀ w ∈ rowWords row, PyWord w := by
  intro w hw
  unfold rowWords at hw
  split at hw
  · obtain rfl := mem_singleton.mp hw
    exact word_iff_all.mpr ⟨by decide, by decide⟩
  · simp only [List.mem_cons, List.not_mem_nil, or_false] at hw
    rcases hw with rfl | rfl | rfl
    · exact pyWord_fioName row.op
    · exact pyWord_printed _
    · exact pyWord_printed _

variable {rows : List Row} {t0 : Int} {rs : List (Option IologCommand)} {fs : List (List Text)}
  {block : LineTemplate → List (List Text)} {row : Row} {stamp lbaBytes : Int}

theorem plainTemplate_of_mem {t1 : Int} : ∀ t ∈ templates t0 t1 rows, PlainTemplate t := by
  intro t ht
  have hword : ∀ w ∈ ["0".toList, "add".toList, "open".toList, "close".toList], PyWord w := by
    intro w hw
    simp only [List.mem_cons, List.not_mem_nil, or_false] at hw
    rcases hw with rfl | rfl | rfl | rfl <;> exact Fields.word_iff_all.mpr ⟨by decide, by decide⟩
  simp only [templates, List.mem_cons, List.mem_append, List.mem_map, List.not_mem_nil, or_false] at ht
  rcases ht with rfl | rfl | ⟨row, -, rfl⟩ | rfl
  · exact ⟨hword _ (by simp), by simpa using hword _ (by simp), by simp⟩
  · exact ⟨hword _ (by simp), by simpa using hword "open".toList (by simp), by simp⟩
  · refine ⟨pyWord_printed _, pyWord_rowWords row, ?_⟩
    unfold rowWords
    split <;> simp
  · exact ⟨pyWord_printed _, by simpa using hword "close".toList (by simp), by simp⟩

/-! ## Counting commands -/

theorem parse_of_mem (h : fs.mapM parseFields = some rs) : ∀ f ∈ fs, ∃ r, parseFields f = some r := by
  rw [mapM_eq_some] at h
  induction h with
  | nil => intro f hf; cases hf
  | cons hab _ ih =>
    intro f hf
    rcases List.mem_cons.mp hf with rfl | hf
    · exact ⟨_, hab⟩
    · exact ih f hf

/-- As many commands are read as there are lines with the shape of one. -/
theorem length_filterMap_of_mapM (h : fs.mapM parseFields = some rs) : (rs.filterMap id).length = fs.countP isCommand := by
  rw [mapM_eq_some] at h
  induction h with
  | nil => rfl
  | @cons f r fs rs hfr _ ih =>
    have hsome := isSome_of_parseFields hfr
    rw [countP_cons, ← hsome, ← ih]
    cases r <;> simp

/-- Blocks that each hold a command hold at least as many commands as there are blocks. -/
theorem length_le_countP {ts : List LineTemplate}
    (h : ∀ t ∈ ts, ∃ f ∈ block t, isCommand f = true) : ts.length ≤ (ts.flatMap block).countP isCommand := by
  induction ts with
  | nil => simp
  | cons t ts ih =>
    obtain ⟨f, hf, hcmd⟩ := h t (by simp)
    have hpos : 0 < (block t).countP isCommand := countP_pos_iff.mpr ⟨f, hf, hcmd⟩
    have hrest := ih (fun u hu => h u (by simp [hu]))
    rw [flatMap_cons, countP_append, length_cons]
    omega

/-- Blocks that each give commands only through their last line give the commands of these lines. -/
theorem mapM_blocks {ts : List LineTemplate} {result : LineTemplate → Option IologCommand}
    (h : ∀ t ∈ ts, ∃ before, (block t).mapM parseFields = some (before ++ [result t]) ∧ before.filterMap id = []) :
    ∃ rs, (ts.flatMap block).mapM parseFields = some rs ∧ rs.filterMap id = ts.filterMap result := by
  induction ts with
  | nil => exact ⟨[], rfl, rfl⟩
  | cons t ts ih =>
    obtain ⟨before, hblock, hbefore⟩ := h t (by simp)
    obtain ⟨rs, hrs, hcommands⟩ := ih (fun u hu => h u (by simp [hu]))
    refine ⟨before ++ [result t] ++ rs, ?_, ?_⟩
    · rw [flatMap_cons, mapM_append, hblock, hrs]
      rfl
    · rw [filterMap_append, filterMap_append, hbefore, hcommands]
      cases hr : result t <;> simp [hr]

/-! ## The last line of a block -/

/-- A line that ends in an action word and parses has two fields before it. -/
theorem length_of_parse_add {fields : List Text} {r : Option IologCommand}
    (h : parseFields (fields ++ ["add".toList]) = some r) : ∃ y z, fields = [y, z] := by
  match fields with
  | [] | [_] | [_, _, _] => simp [parseFields] at h
  | [y, z] => exact ⟨y, z, rfl⟩
  | [_, _, action, _] =>
    have hnone : Python.intOfText "add".toList = none := by decide
    rw [cons_append, cons_append, cons_append, cons_append, nil_append, parseFields] at h
    simp only [hnone, map_none, bind_fun_none, ite_self, reduceCtorEq] at h
  | _ :: _ :: _ :: _ :: _ :: _ => simp [parseFields] at h

theorem rowCommand_datasync (hop : row.op = .datasync) : rowCommand stamp row = ⟨stamp, "datasync".toList, 0, 0⟩ := by
  obtain ⟨_, _, _, op, _, _⟩ := row
  subst hop
  rfl

theorem parse_row (hrow : RowOk lbaBytes row) {y z : Text} (hy : Python.intOfText y = some stamp) :
    parseFields ([y, z] ++ rowWords row) = some (some (rowCommand stamp row)) := by
  by_cases hop : row.op = .datasync
  · have hwords : rowWords row = ["datasync".toList] := by rw [rowWords, if_pos hop]
    rw [hwords, rowCommand_datasync hop, cons_append, cons_append, nil_append, parseFields, if_neg (by decide),
      if_pos (by decide), hy, map_some]
  · have hlength := intOfText_printed (hrow.dataLength hop).le
    have hoffset := intOfText_printed hrow.offset
    have hwords : rowWords row = [row.op.fioName, printed row.offsetBytes, printed row.lengthBytes] := by
      rw [rowWords, if_neg hop]
    have hmem : row.op.fioName ∈ ["read".toList, "write".toList, "trim".toList] := by
      cases hcase : row.op with
      | read => decide
      | write => decide
      | sync => exact absurd hcase hrow.notSync
      | datasync => exact absurd hcase hop
    rw [hwords]
    simp only [cons_append, nil_append, parseFields, if_pos hmem, hy, hoffset, hlength, bind_some,
      map_some, rowCommand, if_neg hop]

/-- The stamp of a row's line that parses is a numeral. -/
theorem intOfText_of_parse_row {y z : Text} {r : Option IologCommand}
    (h : parseFields ([y, z] ++ rowWords row) = some r) : ∃ stamp, Python.intOfText y = some stamp := by
  unfold rowWords at h
  split at h
  · rw [cons_append, cons_append, nil_append, parseFields, if_neg (by decide), if_pos (by decide),
      map_eq_some_iff] at h
    obtain ⟨stamp, hstamp, -⟩ := h
    exact ⟨stamp, hstamp⟩
  · rw [cons_append, cons_append, nil_append, parseFields] at h
    split at h
    · rw [bind_eq_some_iff] at h
      obtain ⟨stamp, hstamp, -⟩ := h
      exact ⟨stamp, hstamp⟩
    · cases h

/-- The last lines of the blocks give the commands of the rows, with the stamps that stand before them. -/
theorem filterMap_templates (t0 t1 : Int) (hrows : ∀ row ∈ rows, RowOk lbaBytes row) (z : Text) (y : LineTemplate → Text) (stamp : Row → Int)
    (hy : ∀ row ∈ rows, Python.intOfText (y ⟨printed ((row.timestampNs - t0) / 1000), rowWords row⟩) = some (stamp row)) :
    (∀ t ∈ templates t0 t1 rows, ∃ r, parseFields ([y t, z] ++ t.words) = some r) ∧
      (templates t0 t1 rows).filterMap (fun t => (parseFields ([y t, z] ++ t.words)).join) =
        rows.map (fun row => rowCommand (stamp row) row) := by
  have haction : ∀ (a : Text), ∀ word ∈ ["add".toList, "open".toList, "close".toList],
      parseFields ([a, z] ++ [word]) = some none := by
    intro a word hword
    exact parseFields_of_isAction ⟨a, z, word, rfl, hword⟩
  have hrow : ∀ row ∈ rows, parseFields ([y ⟨printed ((row.timestampNs - t0) / 1000), rowWords row⟩, z] ++ rowWords row) =
      some (some (rowCommand (stamp row) row)) := fun row hmem => parse_row (hrows row hmem) (hy row hmem)
  constructor
  · intro t ht
    simp only [templates, List.mem_cons, List.mem_append, List.mem_map, List.not_mem_nil, or_false] at ht
    rcases ht with rfl | rfl | ⟨row, hmem, rfl⟩ | rfl
    · exact ⟨none, haction _ _ (by simp)⟩
    · exact ⟨none, haction _ _ (by simp)⟩
    · exact ⟨_, hrow row hmem⟩
    · exact ⟨none, haction _ _ (by simp)⟩
  · have hrest : (rows.map fun row =>
        (⟨printed ((row.timestampNs - t0) / 1000), rowWords row⟩ : LineTemplate)).filterMap
          (fun t => (parseFields ([y t, z] ++ t.words)).join) = rows.map (fun row => rowCommand (stamp row) row) := by
      rw [List.filterMap_map, ← List.filterMap_eq_map]
      refine List.filterMap_congr fun row hmem => ?_
      simp only [Function.comp_apply, hrow row hmem, Option.join_some]
    rw [templates, List.filterMap_cons, haction _ _ (by simp), List.filterMap_cons, haction _ _ (by simp),
      List.filterMap_append, hrest, List.filterMap_cons, haction _ _ (by simp)]
    simp

/-! ## What is read back -/

theorem mapM_isAction (h : ∀ f ∈ fs, IsAction f) : fs.mapM parseFields = some (List.replicate fs.length none) := by
  induction fs with
  | nil => rfl
  | cons f fs ih =>
    rw [mapM_cons, parseFields_of_isAction (h f (by simp)), ih (fun g hg => h g (by simp [hg]))]
    rfl

/-- A name of one field: the rows come back with their own stamps. -/
theorem parse_one_field (t1 : Int) (hrows : ∀ row ∈ rows, RowOk lbaBytes row) (hle : ∀ row ∈ rows, t0 ≤ row.timestampNs) (word : Text) :
    ∃ rs, ((templates t0 t1 rows).flatMap fun t => Fields.glue [t.stamp] t.words [[word]]).mapM parseFields = some rs ∧
      rs.filterMap id = rows.map (fun row => rowCommand ((row.timestampNs - t0) / 1000) row) := by
  obtain ⟨hparse, hresult⟩ := filterMap_templates t0 t1 hrows word LineTemplate.stamp
    (fun row => (row.timestampNs - t0) / 1000) (fun row hrow => intOfText_printed (by have := hle row hrow; omega))
  rw [← hresult]
  refine mapM_blocks fun t ht => ⟨[], ?_, rfl⟩
  obtain ⟨r, hr⟩ := hparse t ht
  have hglue : glue [t.stamp] t.words [[word]] = [[t.stamp, word] ++ t.words] := rfl
  rw [hglue, mapM_cons, hr]
  rfl

/-- A name whose pieces read as action lines: the rows come back with the stamp the name brings along. -/
theorem parse_pieces (t0 t1 : Int) (hrows : ∀ row ∈ rows, RowOk lbaBytes row) (word z : Text) {action y : Text} {mids : List (List Text)}
    (haction : action ∈ ["add".toList, "open".toList, "close".toList]) (hmids : ∀ fields ∈ mids, IsAction fields)
    (hy : Python.intOfText y = some stamp) :
    ∃ rs, ((templates t0 t1 rows).flatMap fun t =>
        Fields.glue [t.stamp] t.words ([word, action] :: (mids ++ [[y, z]]))).mapM parseFields = some rs ∧
      rs.filterMap id = rows.map (rowCommand stamp) := by
  obtain ⟨hparse, hresult⟩ := filterMap_templates t0 t1 hrows z (fun _ => y) (fun _ => stamp) (fun _ _ => hy)
  rw [← hresult]
  refine mapM_blocks fun t ht => ⟨none :: replicate mids.length none, ?_, by simp⟩
  obtain ⟨r, hr⟩ := hparse t ht
  have hhead : parseFields ([t.stamp] ++ [word, action]) = some none :=
    parseFields_of_isAction ⟨t.stamp, word, action, rfl, haction⟩
  rw [glue_cons_append, mapM_cons, hhead, mapM_append, mapM_isAction hmids, mapM_cons, hr]
  rfl

/-! ## What a name must look like -/

theorem length_templates (t0 t1 : Int) (rows : List Row) : (templates t0 t1 rows).length = rows.length + 3 := by
  simp [templates]

/-- Whether a line has the shape of a command does not depend on its stamp. -/
theorem isCommand_stamp (a b : Text) (fields : List Text) : isCommand (a :: fields) = isCommand (b :: fields) := by
  match fields with
  | [] | [_] | [_, _] | [_, _, _] | [_, _, _, _] | _ :: _ :: _ :: _ :: _ :: _ => rfl

/-- A line that occurs for every line of the iolog is no command: there are more lines than rows. -/
theorem not_isCommand_of_common {t1 : Int} (h : ((templates t0 t1 rows).flatMap block).mapM parseFields = some rs)
    (hcount : (rs.filterMap id).length = rows.length) {f : LineTemplate → List Text}
    (hf : ∀ t ∈ templates t0 t1 rows, f t ∈ block t) (hsame : ∀ t u, isCommand (f t) = isCommand (f u)) :
    ∀ t, isCommand (f t) = false := by
  intro t
  by_contra hne
  have htrue : ∀ u, isCommand (f u) = true := by
    intro u
    rw [hsame u t]
    simpa using hne
  have hle := length_le_countP (fun u hu => ⟨f u, hf u hu, htrue u⟩)
  rw [← length_filterMap_of_mapM h, hcount, length_templates] at hle
  omega

theorem add_mem_templates (t0 t1 : Int) (rows : List Row) : (⟨"0".toList, ["add".toList]⟩ : LineTemplate) ∈ templates t0 t1 rows := by
  simp [templates]

theorem row_mem_templates (t0 t1 : Int) (h : row ∈ rows) :
    (⟨printed ((row.timestampNs - t0) / 1000), rowWords row⟩ : LineTemplate) ∈ templates t0 t1 rows := by
  simp only [templates, List.mem_cons, List.mem_append, List.mem_map]
  exact Or.inr (Or.inr (Or.inl ⟨row, h, rfl⟩))

/-- A name with line breaks that parses: its pieces read as action lines, up to the words that follow the last one. -/
theorem shape_of_pieces {t1 : Int} {f l : List Text} {mids : List (List Text)}
    (hrs : ((templates t0 t1 rows).flatMap fun t => Fields.glue [t.stamp] t.words (f :: (mids ++ [l]))).mapM parseFields =
      some rs) (hcount : (rs.filterMap id).length = rows.length) :
    ∃ word action y z, f = [word, action] ∧ l = [y, z] ∧ action ∈ ["add".toList, "open".toList, "close".toList] ∧
      ∀ fields ∈ mids, IsAction fields := by
  simp only [glue_cons_append] at hrs
  have hadd := add_mem_templates t0 t1 rows
  have hhead := not_isCommand_of_common hrs hcount (f := fun t => [t.stamp] ++ f) (fun t _ => by simp)
    (fun t u => isCommand_stamp t.stamp u.stamp f)
  have hmid : ∀ m ∈ mids, isCommand m = false := fun m hm =>
    not_isCommand_of_common hrs hcount (f := fun _ => m) (fun t _ => by simp [hm]) (fun _ _ => rfl) ⟨[], []⟩
  obtain ⟨r, hr⟩ := parse_of_mem hrs (["0".toList] ++ f) (mem_flatMap.mpr ⟨_, hadd, by simp⟩)
  obtain ⟨a, word, action, hf, haction⟩ := isAction_of_parseFields hr (hhead ⟨"0".toList, []⟩)
  obtain ⟨r', hr'⟩ := parse_of_mem hrs (l ++ ["add".toList]) (mem_flatMap.mpr ⟨_, hadd, by simp⟩)
  obtain ⟨y, z, rfl⟩ := length_of_parse_add hr'
  refine ⟨word, action, y, z, ?_, rfl, haction, fun m hm => ?_⟩
  · rw [singleton_append, cons.injEq] at hf
    exact hf.2
  · obtain ⟨r, hr⟩ := parse_of_mem hrs m (mem_flatMap.mpr ⟨_, hadd, by simp [hm]⟩)
    exact isAction_of_parseFields hr (hmid m hm)

/-- A row's line gives the row back exactly when the stamp is the row's and a flush stands at offset zero. -/
theorem rowCommand_eq_iff (hrow : RowOk lbaBytes row) : rowCommand stamp row = expectedRow t0 row ↔
      stamp = (row.timestampNs - t0) / 1000 ∧ (row.op = .datasync → row.offsetBytes = 0) := by
  unfold rowCommand expectedRow
  by_cases hop : row.op = .datasync
  · have hlength := hrow.flushLength hop
    simp only [hop, if_true, IologCommand.mk.injEq, true_and, hlength, and_true, forall_true_left]
    rw [eq_comm (a := (0 : Int))]
  · simp only [hop, if_false, IologCommand.mk.injEq, and_true, false_implies]

theorem map_rowCommand_eq_iff (stamp : Row → Int) (hrows : ∀ row ∈ rows, RowOk lbaBytes row) :
    rows.map (fun row => rowCommand (stamp row) row) = rows.map (expectedRow t0) ↔
      ∀ row ∈ rows, stamp row = (row.timestampNs - t0) / 1000 ∧ (row.op = .datasync → row.offsetBytes = 0) := by
  rw [map_inj_left]
  exact forall₂_congr fun row hrow => rowCommand_eq_iff (hrows row hrow)

end ToleratedAux

open ToleratedAux

/-- The exporter finds its stream again exactly for the names it tolerates, when flushes stand at offset zero. -/
theorem reparse_iff {t0 : Int} (t1 : Int) {lbaBytes : Int} {rows : List Row} {first : Row} (hfirst : first ∈ rows)
    (ht0 : first.timestampNs = t0) (hrows : ∀ row ∈ rows, RowOk lbaBytes row) (hle : ∀ row ∈ rows, t0 ≤ row.timestampNs)
    (name : Text) :
    parseIolog (iologOf (templates t0 t1 rows) name) = .ok (rows.map (expectedRow t0)) ↔
      (∀ row ∈ rows, row.op = .datasync → row.offsetBytes = 0) ∧
        ToleratedName (∀ row ∈ rows, row.timestampNs - t0 < 1000) name := by
  rw [parseIolog_iologOf plainTemplate_of_mem]
  unfold ToleratedName
  obtain ⟨f, fs, hF⟩ := exists_cons_of_ne_nil
    (show (pieces name).map Python.split ≠ [] by simp [pieces, splitOnP_ne_nil])
  rw [hF]
  constructor
  · rintro ⟨rs, hrs, hcommands⟩
    have hcount : (rs.filterMap id).length = rows.length := by rw [hcommands, length_map]
    rcases eq_nil_or_concat' fs with rfl | ⟨mids, l, rfl⟩
    · simp only [glue_singleton] at hrs
      obtain ⟨r, hr⟩ := parse_of_mem hrs (["0".toList] ++ f ++ ["add".toList])
        (mem_flatMap.mpr ⟨_, add_mem_templates t0 t1 rows, mem_singleton_self _⟩)
      obtain ⟨y, z, hyz⟩ := length_of_parse_add hr
      obtain ⟨rfl, rfl⟩ : "0".toList = y ∧ f = [z] := by
        rw [singleton_append, cons.injEq] at hyz
        exact hyz
      obtain ⟨rs', hrs', hcommands'⟩ := parse_one_field t1 hrows hle z
      obtain rfl : rs = rs' := some.inj (hrs.symm.trans hrs')
      rw [hcommands'] at hcommands
      exact ⟨fun row hrow => ((map_rowCommand_eq_iff _ hrows).mp hcommands row hrow).2, Or.inl ⟨z, rfl⟩⟩
    · obtain ⟨word, action, y, z, rfl, rfl, haction, hmids⟩ := shape_of_pieces hrs hcount
      have hrow := row_mem_templates t0 t1 hfirst
      have hlast : [y, z] ++ rowWords first ∈ (templates t0 t1 rows).flatMap fun t =>
          glue [t.stamp] t.words ([word, action] :: (mids ++ [[y, z]])) := by
        refine mem_flatMap.mpr ⟨_, hrow, ?_⟩
        simp [glue_cons_append]
      obtain ⟨r, hr⟩ := parse_of_mem hrs _ hlast
      obtain ⟨stamp, hstamp⟩ := intOfText_of_parse_row hr
      obtain ⟨rs', hrs', hcommands'⟩ := parse_pieces t0 t1 hrows word z haction hmids hstamp
      obtain rfl : rs = rs' := some.inj (hrs.symm.trans hrs')
      rw [hcommands'] at hcommands
      have hall := (map_rowCommand_eq_iff (fun _ => stamp) hrows).mp hcommands
      obtain rfl : stamp = 0 := by
        have := (hall first hfirst).1
        rw [ht0] at this
        simpa using this
      refine ⟨fun row hrow => (hall row hrow).2, Or.inr ⟨word, action, mids, y, z, rfl, haction, hmids, hstamp, ?_⟩⟩
      intro row hrow
      have := (hall row hrow).1
      omega
  · rintro ⟨hflush, ⟨word, hword⟩ | ⟨word, action, mids, y, z, hword, haction, hmids, hy, hburst⟩⟩
    · rw [hword]
      obtain ⟨rs, hrs, hcommands⟩ := parse_one_field t1 hrows hle word
      exact ⟨rs, hrs, hcommands.trans ((map_rowCommand_eq_iff _ hrows).mpr fun row hrow => ⟨rfl, hflush row hrow⟩)⟩
    · rw [hword]
      obtain ⟨rs, hrs, hcommands⟩ := parse_pieces t0 t1 hrows word z haction hmids hy
      refine ⟨rs, hrs, hcommands.trans ((map_rowCommand_eq_iff _ hrows).mpr fun row hrow => ⟨?_, hflush row hrow⟩)⟩
      have h1 := hle row hrow
      have h2 := hburst row hrow
      omega

end EbpfSyscall
