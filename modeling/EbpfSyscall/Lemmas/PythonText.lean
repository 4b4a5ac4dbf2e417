import EbpfSyscall.Text

/-!
# Numerals and lines as Python reads them

`int` reads back a printed numeral, and joining `\r\n` leaves the parts of a text that hold no `\r` alone, so that a text built
around an arbitrary name is cut into lines by cutting the name.
-/

namespace EbpfSyscall.PythonTextAux

open List Decimal Python

/-! ## Numerals -/

theorem digitValue_of_isDigit {c : Char} (h : c.isDigit = true) : Python.digitValue c = some (c.toNat - 48) := by
  rw [Char.isDigit, Bool.and_eq_true, decide_eq_true_eq, decide_eq_true_eq] at h
  have h1 : 48 ≤ c.toNat := UInt32.le_iff_toNat_le.mp h.1
  have h2 : c.toNat ≤ 57 := UInt32.le_iff_toNat_le.mp h.2
  have hfind : digitZeros.find? (fun z => z ≤ c.toNat && c.toNat < z + 10) = some 48 := by
    rw [digitZeros, find?_cons_of_pos]
    simp only [Bool.and_eq_true, decide_eq_true_eq]
    omega
  rw [digitValue, hfind]
  rfl

theorem digitsFrom_of_digits {ds : Text} (h : ∀ c ∈ ds, c.isDigit = true) (value : Nat) :
    Python.digitsFrom value ds = some (Nat.ofDigitChars 10 ds value) := by
  induction ds generalizing value with
  | nil => rfl
  | cons c ds ih =>
    have hc := h c (by simp)
    have hne : c ≠ '_' := ne_of_isDigit hc (by decide)
    have hstep : digitsFrom value (c :: ds) =
        (digitValue c).bind (fun d => digitsFrom (value * 10 + d) ds) := by
      rw [digitsFrom]
      intro d rest hc' _
      exact hne hc'
    rw [hstep, digitValue_of_isDigit hc, Option.bind_some, ih (fun d hd => h d (by simp [hd])), Nat.ofDigitChars_cons]
    congr 2
    rw [Nat.mul_comm]
    rfl

theorem dropWhile_isSpace_of_word {w : Text} (h : ∀ c ∈ w, Python.isSpace c = false) : w.dropWhile Python.isSpace = w := by
  cases w with
  | nil => rfl
  | cons c w => rw [dropWhile_cons_of_neg (by simp [h c (by simp)])]

theorem isSpace_of_isDigit {c : Char} (h : c.isDigit = true) : Python.isSpace c = false := by
  rw [Char.isDigit, Bool.and_eq_true, decide_eq_true_eq, decide_eq_true_eq] at h
  have h1 : 48 ≤ c.toNat := UInt32.le_iff_toNat_le.mp h.1
  have h2 : c.toNat ≤ 57 := UInt32.le_iff_toNat_le.mp h.2
  simp only [isSpace, Rust.isWhitespace, Bool.or_eq_false_iff, Bool.and_eq_false_iff, decide_eq_false_iff_not,
    beq_eq_false_iff_ne]
  omega

/-- Python reads back a printed numeral. -/
theorem intOfText_print (n : Nat) : Python.intOfText (Decimal.print n) = some (n : Int) := by
  have hdigits : ∀ c ∈ print n, c.isDigit = true := fun c => isDigit_of_mem_print
  have hstrip : (((print n).dropWhile isSpace).reverse.dropWhile isSpace).reverse =
      print n := by
    rw [dropWhile_isSpace_of_word (fun c hc => isSpace_of_isDigit (hdigits c hc)),
      dropWhile_isSpace_of_word (fun c hc => isSpace_of_isDigit (hdigits c (by simpa using hc))), reverse_reverse]
  obtain ⟨c, ds, hcons⟩ := exists_cons_of_ne_nil (print_ne_nil n)
  have hread : digits (print n) = some n := by
    have hc := hdigits c (by simp [hcons])
    have hds : ∀ d ∈ ds, d.isDigit = true := fun d hd => hdigits d (by simp [hcons, hd])
    have hvalue := @Nat.ofDigitChars_ten_toDigits n
    rw [← print, hcons, Nat.ofDigitChars_cons] at hvalue
    rw [hcons, digits, digitValue_of_isDigit hc, Option.bind_some, digitsFrom_of_digits hds]
    simpa using hvalue
  unfold intOfText
  rw [hstrip]
  have hminus : c ≠ '-' := ne_of_isDigit (hdigits c (by simp [hcons])) (by decide)
  have hplus : c ≠ '+' := ne_of_isDigit (hdigits c (by simp [hcons])) (by decide)
  split
  · rename_i rest heq
    rw [hcons, cons.injEq] at heq
    exact absurd heq.1 hminus
  · rename_i rest heq
    rw [hcons, cons.injEq] at heq
    exact absurd heq.1 hplus
  · rw [hread]
    rfl

/-! ## Line breaks -/

theorem joinCrLf_cons {c : Char} {rest : Text} (h : c ≠ '\r' ∨ rest.head? ≠ some '\n') : Python.joinCrLf (c :: rest) = c :: Python.joinCrLf rest := by
  rw [joinCrLf]
  rintro rest' rfl rfl
  simp at h

/-- Joining does not reach over a place that is not inside a `\r\n`. -/
theorem joinCrLf_append {a b : Text} (h : a.getLast? ≠ some '\r' ∨ b.head? ≠ some '\n') :
    Python.joinCrLf (a ++ b) = Python.joinCrLf a ++ Python.joinCrLf b := by
  fun_induction joinCrLf a with
  | case1 rest ih =>
    rw [cons_append, cons_append, joinCrLf, ih, cons_append]
    rcases h with h | h
    · refine Or.inl fun hlast => h ?_
      cases rest with
      | nil => simp at hlast
      | cons d rest => simpa using hlast
    · exact Or.inr h
  | case2 c rest hne ih =>
    have hc : c ≠ '\r' ∨ (rest ++ b).head? ≠ some '\n' := by
      by_cases hcr : c = '\r'
      · refine Or.inr fun hhead => ?_
        cases rest with
        | nil =>
          rcases h with h | h
          · exact h (by simp [hcr])
          · exact h (by simpa using hhead)
        | cons d rest =>
          obtain rfl : d = '\n' := by simpa using hhead
          exact hne rest hcr rfl
      · exact Or.inl hcr
    rw [cons_append, joinCrLf_cons hc, ih, cons_append]
    rcases h with h | h
    · cases rest with
      | nil => exact Or.inl (by simp)
      | cons d rest => exact Or.inl (by simpa using h)
    · exact Or.inr h
  | case3 => rfl

theorem joinCrLf_of_not_mem {a : Text} (h : '\r' ∉ a) : Python.joinCrLf a = a := by
  induction a with
  | nil => rfl
  | cons c a ih =>
    rw [joinCrLf_cons (Or.inl fun hc => h (by simp [hc])), ih fun hm => h (by simp [hm])]

end EbpfSyscall.PythonTextAux
