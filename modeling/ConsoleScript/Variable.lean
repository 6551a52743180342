import ConsoleScript.Bytes.Basic

/-!
# Variables

A variable names a constant. The table of variables grows up to a capacity; a
name that is declared again keeps its first meaning.
-/

namespace ConsoleScript

/-- The kinds of constants. -/
inductive ValueKind where
  | int
  | string
deriving DecidableEq, Repr

/-- The kind with its article, as messages name it. -/
def ValueKind.description : ValueKind → String
  | int => "an int"
  | string => "a string"

/-- A constant. -/
inductive Value where
  | int (n : Int32)
  | string (s : Bytes)
deriving DecidableEq, Repr

namespace Value

/-- The kind of a constant. -/
def kind : Value → ValueKind
  | int _ => .int
  | string _ => .string

/-- The constant as a variable keeps it: a string ends before its first zero. -/
def stored : Value → Value
  | int n => int n
  | string s => string (s.takeWhile (· != 0))

@[simp] theorem kind_stored (v : Value) : v.stored.kind = v.kind := by
  cases v <;> rfl

end Value

/-- A name with its constant. -/
structure Variable where
  name : String
  value : Value
deriving DecidableEq, Repr

/-- The declared variables in order, and how many there may be. -/
structure VariableTable where
  entries : Array Variable := #[]
  capacity : Nat := 512
deriving DecidableEq, Repr

/-- No variable can be added to a table of this capacity. -/
structure TableFull where
  capacity : Nat
deriving DecidableEq, Repr

/-- The text of a full table. -/
def TableFull.message (e : TableFull) : String :=
  s!"Variable table is full ({e.capacity} entries)"

namespace VariableTable

/-- The number of declarations, repeated names included. -/
def size (t : VariableTable) : Nat := t.entries.size

/-- Whether nothing is declared. -/
def isEmpty (t : VariableTable) : Bool := t.entries.isEmpty

/-- Whether the capacity is used up. -/
def isFull (t : VariableTable) : Bool := t.capacity ≤ t.size

/-- The first variable of a name. -/
def find? (t : VariableTable) (name : String) : Option Variable :=
  t.entries.find? (·.name == name)

/-- Adds a variable behind the others. -/
def declare (t : VariableTable) (v : Variable) : Except TableFull VariableTable :=
  if t.isFull then .error ⟨t.capacity⟩
  else .ok { t with entries := t.entries.push { v with value := v.value.stored } }

variable {t t' : VariableTable} {v : Variable} {name : String}

theorem declare_eq_error_iff {e : TableFull} :
    t.declare v = .error e ↔ t.isFull = true ∧ e = ⟨t.capacity⟩ := by
  unfold declare
  split
  case isTrue h => simp only [h, true_and, Except.error.injEq, eq_comm]
  case isFalse h => simp [h]

theorem size_of_declare (h : t.declare v = .ok t') : t'.size = t.size + 1 := by
  unfold declare at h
  split at h <;> cases h
  exact Array.size_push _

theorem capacity_of_declare (h : t.declare v = .ok t') : t'.capacity = t.capacity := by
  unfold declare at h
  split at h <;> cases h
  rfl

/-- The first declaration of a name wins. -/
theorem find?_of_declare (h : t.declare v = .ok t') :
    t'.find? name = (t.find? name <|>
      if v.name = name then some { v with value := v.value.stored } else none) := by
  unfold declare at h
  split at h <;> cases h
  simp [find?, Array.find?_push]

end VariableTable

end ConsoleScript
