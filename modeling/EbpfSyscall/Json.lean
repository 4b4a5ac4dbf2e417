import EbpfSyscall.Text

/-!
# JSON values and Python's errors

The values `json.loads` returns. An object is kept as its entries in the order of their keys, so that two dicts are equal exactly
when their entry lists are: no function of the model reads the order of a dict. A number written with a fraction or an exponent
is a float, kept as the exact rational it denotes.
-/

namespace EbpfSyscall

/-- The floats `json.loads` may return: Python's decoder also reads `NaN`, `Infinity` and `-Infinity`. -/
inductive PyFloat where
  | finite (q : Rat)
  | inf (negative : Bool)
  | nan
  deriving DecidableEq, Repr

inductive Json where
  | null
  | bool (b : Bool)
  | int (i : Int)
  | float (f : PyFloat)
  | str (s : Text)
  | arr (items : List Json)
  | obj (entries : List (Text × Json))
  deriving Repr

/-- A dict. -/
abbrev Dict := List (Text × Json)

mutual

def Json.decEq : (a b : Json) → Decidable (a = b)
  | .null, .null => isTrue rfl
  | .bool a, .bool b => decidable_of_iff (a = b) (by simp)
  | .int a, .int b => decidable_of_iff (a = b) (by simp)
  | .float a, .float b => decidable_of_iff (a = b) (by simp)
  | .str a, .str b => decidable_of_iff (a = b) (by simp)
  | .arr a, .arr b => @decidable_of_iff _ (a = b) (by simp) (Json.decEqList a b)
  | .obj a, .obj b => @decidable_of_iff _ (a = b) (by simp) (Json.decEqEntries a b)
  | .null, .bool _ | .null, .int _ | .null, .float _ | .null, .str _ | .null, .arr _ | .null, .obj _
  | .bool _, .null | .bool _, .int _ | .bool _, .float _ | .bool _, .str _ | .bool _, .arr _ | .bool _, .obj _
  | .int _, .null | .int _, .bool _ | .int _, .float _ | .int _, .str _ | .int _, .arr _ | .int _, .obj _
  | .float _, .null | .float _, .bool _ | .float _, .int _ | .float _, .str _ | .float _, .arr _ | .float _, .obj _
  | .str _, .null | .str _, .bool _ | .str _, .int _ | .str _, .float _ | .str _, .arr _ | .str _, .obj _
  | .arr _, .null | .arr _, .bool _ | .arr _, .int _ | .arr _, .float _ | .arr _, .str _ | .arr _, .obj _
  | .obj _, .null | .obj _, .bool _ | .obj _, .int _ | .obj _, .float _ | .obj _, .str _ | .obj _, .arr _ =>
    isFalse (by simp)

def Json.decEqList : (a b : List Json) → Decidable (a = b)
  | [], [] => isTrue rfl
  | [], _ :: _ | _ :: _, [] => isFalse (by simp)
  | a :: as, b :: bs =>
    @decidable_of_iff _ (a = b ∧ as = bs) (by simp) (@instDecidableAnd _ _ (Json.decEq a b) (Json.decEqList as bs))

def Json.decEqEntries : (a b : List (Text × Json)) → Decidable (a = b)
  | [], [] => isTrue rfl
  | [], _ :: _ | _ :: _, [] => isFalse (by simp)
  | (k, a) :: as, (l, b) :: bs =>
    @decidable_of_iff _ (k = l ∧ a = b ∧ as = bs) (by simp [and_assoc])
      (@instDecidableAnd _ _ inferInstance (@instDecidableAnd _ _ (Json.decEq a b) (Json.decEqEntries as bs)))

end

instance : DecidableEq Json := Json.decEq

/-- The exceptions the modelled functions raise, with the message where the source gives one. -/
inductive PyError where
  | captureFormatError (message : String)
  | captureError (message : String)
  | comparisonError (message : String)
  | intentError (message : String)
  | intent2Error (message : String)
  | workload3Error (message : String)
  | crossShardError (message : String)
  | traceError (message : String)
  | keyError (key : String)
  | indexError
  | typeError
  | valueError (message : String)
  | overflowError
  | zeroDivisionError
  | attributeError (name : String)
  | unicodeDecodeError
  | osError
  deriving DecidableEq, Repr

namespace Python

/-- `int(value)`: a float is cut toward zero, a bool is 0 or 1, a text is a numeral, and the other values are refused. -/
def intOf : Json → Except PyError Int
  | .int i => .ok i
  | .bool b => .ok (if b then 1 else 0)
  | .float (.finite q) => .ok (q.num.tdiv q.den)
  | .float (.inf _) => .error .overflowError
  | .float .nan => .error (.valueError "cannot convert float NaN to integer")
  | .str s => Checked.require (intOfText s) (.valueError "invalid literal for int() with base 10")
  | _ => .error .typeError

/-- `value in {…}` for a set of texts: only a list or a dict is refused, since it has no hash. -/
def inTexts (value : Option Json) (texts : List Text) : Except PyError Bool :=
  match value with
  | some (.str s) => .ok (decide (s ∈ texts))
  | some (.arr _) | some (.obj _) => .error .typeError
  | _ => .ok false

/-- The number a value compares as: a bool is 0 or 1, and an int equals a float of the same value. -/
def number? : Json → Option Rat
  | .int i => some i
  | .bool b => some (if b then 1 else 0)
  | .float (.finite q) => some q
  | _ => none

mutual

/-- `a == b`. Numbers compare by value, whatever their type, and `NaN` differs from itself. -/
def eq : Json → Json → Bool
  | .null, .null => true
  | .str a, .str b => decide (a = b)
  | .float (.inf a), .float (.inf b) => decide (a = b)
  | .arr a, .arr b => eqList a b
  | .obj a, .obj b => eqEntries a b
  | a, b =>
    match number? a, number? b with
    | some p, some q => decide (p = q)
    | _, _ => false

def eqList : List Json → List Json → Bool
  | [], [] => true
  | a :: as, b :: bs => eq a b && eqList as bs
  | _, _ => false

def eqEntries : List (Text × Json) → List (Text × Json) → Bool
  | [], [] => true
  | (k, a) :: as, (l, b) :: bs => decide (k = l) && eq a b && eqEntries as bs
  | _, _ => false

end

/-- `value is not None`, for a value that may be missing. -/
def present : Option Json → Bool
  | none | some .null => false
  | some _ => true

end Python

/-- `record.get(key)`. -/
def Dict.get (d : Dict) (key : String) : Option Json := d.lookup key.toList

/-- `record[key] = value`, keeping the entries in the order of their keys. -/
def Dict.set (d : Dict) (key : String) (value : Json) : Dict :=
  match d with
  | [] => [(key.toList, value)]
  | (k, v) :: rest =>
    if k = key.toList then (k, value) :: rest
    else if key.toList < k then (key.toList, value) :: (k, v) :: rest
    else (k, v) :: Dict.set rest key value

/-- One entry of a dict display. -/
def Dict.entry (key : String) (value : Json) : Text × Json := (key.toList, value)

/-- Setting an entry of a dict changes what is read for its key only. -/
theorem Dict.get_set (d : Dict) (key other : String) (value : Json) :
    (d.set key value).get other = if key = other then some value else d.get other := by
  have hkeys : ∀ k l : String, (k.toList == l.toList) = decide (k = l) := by
    intro k l
    rw [Bool.eq_iff_iff, beq_iff_eq, String.toList_inj, decide_eq_true_eq]
  induction d with
  | nil =>
    simp only [Dict.set, Dict.get, List.lookup_cons, List.lookup_nil, hkeys]
    by_cases h : key = other <;> simp [h, eq_comm]
  | cons entry rest ih =>
    obtain ⟨k, v⟩ := entry
    simp only [Dict.set, Dict.get] at ih ⊢
    by_cases hk : k = key.toList
    · subst hk
      simp only [if_true, List.lookup_cons, hkeys]
      by_cases h : key = other
      · simp [h]
      · simp [h, Ne.symm h]
    · rw [if_neg hk]
      split
      · simp only [List.lookup_cons, hkeys]
        by_cases h : key = other
        · simp [h]
        · simp [h, Ne.symm h]
      · rw [List.lookup_cons, List.lookup_cons, ih]
        by_cases h : key = other
        · have hne : (other.toList == k) = false := by
            rw [beq_eq_false_iff_ne, ← h]
            exact fun heq => hk heq.symm
          simp [h, hne]
        · simp [h]

/-- Looking a key up in a display goes through its entries. -/
@[simp] theorem Dict.get_entry_cons (k key : String) (v : Json) (d : Dict) :
    Dict.get (Dict.entry k v :: d) key = if k = key then some v else Dict.get d key := by
  rw [Dict.get, Dict.entry, List.lookup_cons]
  by_cases h : k = key
  · rw [if_pos h, h, beq_self_eq_true]
  · have hne : (key.toList == k.toList) = false := by
      rw [beq_eq_false_iff_ne, ne_eq, String.toList_inj]
      exact fun heq => h heq.symm
    rw [if_neg h, hne]
    rfl

/-- `record.get(key) == text`. -/
def Dict.isText (d : Dict) (key text : String) : Bool := decide (d.get key = some (.str text.toList))

/-- `type(record.get(key)) is int`, and the integer. -/
def Dict.int? (d : Dict) (key : String) : Option Int :=
  match d.get key with
  | some (.int i) => some i
  | _ => none

/-- `isinstance(record.get(key), str)`, and the text when it is not empty. -/
def Dict.nonemptyText? (d : Dict) (key : String) : Option Text :=
  match d.get key with
  | some (.str (c :: s)) => some (c :: s)
  | _ => none

end EbpfSyscall
