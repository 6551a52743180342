import ConsoleScript.Executable.Basic
import ConsoleScript.Source.Location
import ConsoleScript.Variable

/-!
# Errors of a compilation

A compilation stops at its first error. An error says what is wrong and where.
-/

namespace ConsoleScript

/-- The literals that have a closing delimiter. -/
inductive LiteralKind where
  | string
  | char
deriving DecidableEq, Repr

/-- The literal's name in messages. -/
def LiteralKind.name : LiteralKind → String
  | string => "string"
  | char => "char"

/-- What is wrong with a source, and where. -/
inductive CompileError (Place : Type) where
  /-- Something else was expected than what stands at the place. -/
  | malformed (expectation : String) (place : Place)
  /-- The source ends inside a literal. -/
  | unterminated (literal : LiteralKind) (place : Place)
  /-- The name at the place is not declared. -/
  | undefinedVariable (name : String) (place : Place)
  /-- The name at the place stands for a constant of another kind. -/
  | wrongKind (name : String) (expected : ValueKind) (place : Place)
  /-- The name at the place starts no statement. -/
  | unknownStatement (name : String) (place : Place)
  /-- A loop starts inside a loop. -/
  | nestedLoop (place : Place)
  /-- One more variable is declared than the limit allows. -/
  | tooManyVariables (limit : Nat) (place : Place)
  /-- The code does not fit into memory. -/
  | outOfMemory (cause : OutOfMemory)
  /-- The loop at the place needs a jump over a distance that has no 16-bit form. -/
  | jumpOutOfRange (distance : Int) (place : Place)
deriving DecidableEq, Repr

namespace CompileError

variable {Place Place' : Type}

/-- The place of the error, if it has one. -/
def place? : CompileError Place → Option Place
  | malformed _ p | unterminated _ p | undefinedVariable _ p | wrongKind _ _ p
  | unknownStatement _ p | nestedLoop p | tooManyVariables _ p | jumpOutOfRange _ p => some p
  | outOfMemory _ => none

/-- The same error with its place described otherwise. -/
def map (f : Place → Place') : CompileError Place → CompileError Place'
  | malformed expectation p => malformed expectation (f p)
  | unterminated literal p => unterminated literal (f p)
  | undefinedVariable name p => undefinedVariable name (f p)
  | wrongKind name expected p => wrongKind name expected (f p)
  | unknownStatement name p => unknownStatement name (f p)
  | nestedLoop p => nestedLoop (f p)
  | tooManyVariables limit p => tooManyVariables limit (f p)
  | outOfMemory cause => outOfMemory cause
  | jumpOutOfRange distance p => jumpOutOfRange distance (f p)

@[simp] theorem place?_map (f : Place → Place') (e : CompileError Place) :
    (e.map f).place? = e.place?.map f := by
  cases e <;> rfl

@[simp] theorem map_id (e : CompileError Place) : e.map id = e := by
  cases e <;> rfl

theorem map_map {Place'' : Type} (g : Place' → Place'') (f : Place → Place')
    (e : CompileError Place) : (e.map f).map g = e.map (g ∘ f) := by
  cases e <;> rfl

/-- Only the description of the error's own place matters. -/
theorem map_congr {f g : Place → Place'} {e : CompileError Place}
    (h : ∀ p ∈ e.place?, f p = g p) : e.map f = e.map g := by
  cases e with
  | outOfMemory cause => rfl
  | _ => rw [map, map, h _ rfl]

/-- What is wrong, without the place. -/
def description : CompileError Place → String
  | malformed expectation _ => expectation
  | unterminated literal _ => s!"Unterminated {literal.name} literal"
  | undefinedVariable name _ => s!"Undefined variable: {name}"
  | wrongKind name expected _ => s!"Variable {name} is not {expected.description}"
  | unknownStatement name _ => s!"Unknown identifier: {name}"
  | nestedLoop _ => "Nested loops are not supported"
  | tooManyVariables limit _ => s!"Too many variables (limit {limit})"
  | outOfMemory cause => s!"Out of memory: {cause.message}"
  | jumpOutOfRange distance _ => s!"Jump offset {distance} does not fit in 16 bits"

/-- The text of an error: what is wrong and, if it has a place, where. -/
def message (e : CompileError Location) : String :=
  e.description ++ (e.place?.map (" at " ++ ·.text)).getD ""

end CompileError

/-- An error at a place that is given by what is left of the source. -/
abbrev Fault := CompileError Bytes

end ConsoleScript
