import EbpfSyscall.Lib.Layout
import EbpfSyscall.Text

/-!
# `json.dump` with `indent=2`

The values that `json.dump` writes, as Python holds them: the entries of a dict in their order, a string by its code points (which may
be surrogates), a float by the text of `float.__repr__`. All characters of the text are printable ASCII characters and line breaks.
-/

namespace EbpfSyscall.Python

/-- The text of a float: printable characters, none of which is a brace. -/
structure FloatText where
  text : Text
  nonempty : text ≠ []
  printable : ∀ c ∈ text, Layout.Printable c
  plain : ∀ c ∈ text, c ≠ '{' ∧ c ≠ '}'

inductive PyValue where
  | none
  | bool (b : Bool)
  | int (i : Int)
  | float (f : FloatText)
  | str (points : List Nat)
  | list (items : List PyValue)
  | dict (entries : List (List Nat × PyValue))

/-- The code points of a text. -/
def codePoints (text : String) : List Nat := text.toList.map Char.toNat

/-- A lower-case hexadecimal digit. -/
def hexDigit (n : Nat) : Char := Char.ofNat (if n < 10 then 48 + n else 87 + n)

/-- `'\\u{0:04x}'.format(n)`. -/
def unicodeEscape (n : Nat) : Text :=
  ['\\', 'u', hexDigit (n / 0x1000 % 16), hexDigit (n / 0x100 % 16), hexDigit (n / 0x10 % 16), hexDigit (n % 16)]

/-- One code point in `py_encode_basestring_ascii`. -/
def escapePoint (n : Nat) : Text :=
  if n = 0x22 then ['\\', '"']
  else if n = 0x5c then ['\\', '\\']
  else if n = 0x0a then ['\\', 'n']
  else if n = 0x0d then ['\\', 'r']
  else if n = 0x09 then ['\\', 't']
  else if n = 0x0c then ['\\', 'f']
  else if n = 0x08 then ['\\', 'b']
  else if 0x20 ≤ n ∧ n ≤ 0x7e then [Char.ofNat n]
  else if n < 0x10000 then unicodeEscape n
  else unicodeEscape (0xd800 ||| ((n - 0x10000) >>> 10 &&& 0x3ff)) ++ unicodeEscape (0xdc00 ||| (n - 0x10000 &&& 0x3ff))

/-- A string in quotation marks. -/
def quoted (points : List Nat) : Text := '"' :: points.flatMap escapePoint ++ ['"']

mutual

def PyValue.tree : PyValue → Layout.Tree
  | .none => .leaf "null".toList
  | .bool b => .leaf (if b then "true".toList else "false".toList)
  | .int i => .leaf (Decimal.printInt i)
  | .float f => .leaf f.text
  | .str points => .leaf (quoted points)
  | .list items => .node '[' ']' (PyValue.itemTrees items)
  | .dict entries => .node '{' '}' (PyValue.entryTrees entries)

def PyValue.itemTrees : List PyValue → List (Text × Layout.Tree)
  | [] => []
  | item :: items => ([], item.tree) :: PyValue.itemTrees items

def PyValue.entryTrees : List (List Nat × PyValue) → List (Text × Layout.Tree)
  | [] => []
  | (key, value) :: entries => (quoted key ++ [':', ' '], value.tree) :: PyValue.entryTrees entries

end

/-- `json.dump(value, f, indent=2)`. -/
def dump (value : PyValue) : Text := Layout.print 0 value.tree

/-! ## Printable characters -/

theorem printable_hexDigit {n : Nat} (h : n < 16) : Layout.Printable (hexDigit n) := by
  interval_cases n <;> decide

theorem printable_unicodeEscape (n : Nat) : ∀ c ∈ unicodeEscape n, Layout.Printable c := by
  intro c hc
  simp only [unicodeEscape, List.mem_cons, List.not_mem_nil, or_false] at hc
  rcases hc with rfl | rfl | rfl | rfl | rfl | rfl
  · decide
  · decide
  all_goals exact printable_hexDigit (Nat.mod_lt _ (by decide))

theorem printable_escapePoint (n : Nat) : ∀ c ∈ escapePoint n, Layout.Printable c := by
  intro c hc
  unfold escapePoint at hc
  split_ifs at hc with h1 h2 h3 h4 h5 h6 h7 h8 h9
  iterate 7
    · rcases List.mem_pair.mp hc with rfl | rfl <;> decide
  · rw [List.mem_singleton.mp hc, Layout.Printable, Char.toNat_ofNat, if_pos (Or.inl (by omega))]
    exact h8
  · exact printable_unicodeEscape _ c hc
  · rcases List.mem_append.mp hc with hc | hc
    · exact printable_unicodeEscape _ c hc
    · exact printable_unicodeEscape _ c hc

theorem printable_quoted (points : List Nat) : ∀ c ∈ quoted points, Layout.Printable c := by
  intro c hc
  simp only [quoted, List.cons_append, List.mem_cons, List.mem_append, List.mem_flatMap, List.not_mem_nil, or_false] at hc
  rcases hc with rfl | ⟨n, -, hn⟩ | rfl
  · decide
  · exact printable_escapePoint n c hn
  · decide

theorem printable_printInt (i : Int) : ∀ c ∈ Decimal.printInt i, Layout.Printable c := by
  intro c hc
  rcases Decimal.mem_printInt hc with rfl | hdigit
  · decide
  · simp only [Char.isDigit, Bool.and_eq_true, decide_eq_true_eq] at hdigit
    have hlow : 48 ≤ c.toNat := hdigit.1
    have hhigh : c.toNat ≤ 57 := hdigit.2
    exact ⟨by omega, by omega⟩

mutual

theorem wellFormed_tree : ∀ value : PyValue, Layout.WellFormed value.tree
  | .none => by
    rw [PyValue.tree, Layout.WellFormed]
    exact ⟨by decide, by simp [Layout.Printable]⟩
  | .bool b => by
    rw [PyValue.tree, Layout.WellFormed]
    cases b
    · exact ⟨by decide, by simp [Layout.Printable]⟩
    · exact ⟨by decide, by simp [Layout.Printable]⟩
  | .int i => by
    rw [PyValue.tree, Layout.WellFormed]
    refine ⟨?_, printable_printInt i⟩
    unfold Decimal.printInt
    split
    · simp
    · exact Decimal.print_ne_nil _
  | .float f => by
    rw [PyValue.tree, Layout.WellFormed]
    exact ⟨f.nonempty, f.printable⟩
  | .str points => by
    rw [PyValue.tree, Layout.WellFormed]
    exact ⟨by simp [quoted], printable_quoted points⟩
  | .list items => by
    rw [PyValue.tree, Layout.WellFormed]
    exact ⟨by decide, by decide, wellFormed_itemTrees items⟩
  | .dict entries => by
    rw [PyValue.tree, Layout.WellFormed]
    exact ⟨by decide, by decide, wellFormed_entryTrees entries⟩

theorem wellFormed_itemTrees : ∀ items : List PyValue, Layout.WellFormedItems (PyValue.itemTrees items)
  | [] => by
    rw [PyValue.itemTrees, Layout.WellFormedItems]
    trivial
  | item :: items => by
    rw [PyValue.itemTrees, Layout.WellFormedItems]
    exact ⟨by simp, wellFormed_tree item, wellFormed_itemTrees items⟩

theorem wellFormed_entryTrees : ∀ entries : List (List Nat × PyValue), Layout.WellFormedItems (PyValue.entryTrees entries)
  | [] => by
    rw [PyValue.entryTrees, Layout.WellFormedItems]
    trivial
  | (key, value) :: entries => by
    rw [PyValue.entryTrees, Layout.WellFormedItems]
    refine ⟨fun c hc => ?_, wellFormed_tree value, wellFormed_entryTrees entries⟩
    rcases List.mem_append.mp hc with hc | hc
    · exact printable_quoted key c hc
    · rcases List.mem_pair.mp hc with rfl | rfl <;> decide

end

end EbpfSyscall.Python
