import EbpfSyscall.Lemmas.Objects

/-!
# The splitter hands over records whole exactly when their braces balance

The splitter counts the braces inside strings too, so a record comes out whole when all its braces balance, and is cut or lost when those
in its strings do not.
-/

namespace EbpfSyscall.Replayer

open Python

open ObjectsAux

/-- The splitter hands over the records one by one, each whole, in the order of the file, and nothing else, exactly when in every record
as many braces are opened as closed, those in strings counted, and at no earlier line end. -/
theorem splitter_handsOver_iff (records : List Record) (hlines : ∀ line ∈ Layout.keptLines (fileText records), line.length ≤ lineBuf - 1)
    (hfit : ∀ text ∈ recordTexts records, text.length + 1 < jsonBufferSize - 1) :
    handedOver (fileText records) = recordTexts records ↔ ∀ record ∈ records, BracesBalance record := by
  by_cases hne : records = []
  · subst hne
    refine iff_of_true ?_ (by simp)
    decide +kernel
  · have hok : ∀ text ∈ recordTexts records, TextOk text :=
      (forall_recordTexts (fun record tail htail => iff_true_intro (textOk_record record htail)) records).mpr fun _ _ => trivial
    have hopening : FileLine ['[', '\n'] := ⟨['['], by simp, by simp [Layout.Printable], .inl rfl⟩
    have hstart : Splitter.start.line ['[', '\n'] = clean [] := by
      rw [line_eq _ hopening, if_neg (by simp [Splitter.start])]
      rfl
    rw [handedOver, readLines_eq le_rfl hlines, keptLines_fileText hne, List.foldl_cons, hstart,
      ← forall_recordTexts (fun record tail htail => balanced_record record htail) records, ← handed_iff hok hfit [], List.nil_append]

/-- Two records, the first with braces in its path. -/
theorem splitter_handsOver_bracedPath :
    handedOver (fileText [[(codePoints "filename", .str (codePoints "/tmp/\x7ba\x7d"))], [(codePoints "fd", .int 3)]]) =
      recordTexts [[(codePoints "filename", .str (codePoints "/tmp/\x7ba\x7d"))], [(codePoints "fd", .int 3)]] :=
  (splitter_handsOver_iff _ (by decide +kernel) (by decide +kernel)).mpr (by decide +kernel)

/-- A path with a closing brace alone: the record is handed over without its last line, and the rest of it is lost. -/
theorem splitter_handsOver_cut : handedOver (fileText [[(codePoints "filename", .str (codePoints "/tmp/\x7d")), (codePoints "fd", .int 3)]]) =
      ["  \x7b\n    \"filename\": \"/tmp/\x7d\",".toList] := by
  decide +kernel

end EbpfSyscall.Replayer
