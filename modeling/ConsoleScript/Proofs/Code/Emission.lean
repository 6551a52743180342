import ConsoleScript.Executable.Basic
import Mathlib.Algebra.Order.Ring.Int

/-!
# Sequences of instructions in a code buffer

Instructions that are added one behind the other leave their encodings, and the
opcode of the last of them is remembered. So the content of a buffer is described
by a sequence of instructions, and closing the buffer closes the sequence.
-/

namespace ConsoleScript

namespace Instruction

/-- The code of instructions that stand one behind the other. -/
def encodeAll (is : List Instruction) : Bytes := is.flatMap encode

/-- The instructions with an exit at the end. -/
def closed (is : List Instruction) : List Instruction :=
  if is.getLast?.map opcode = some .exit then is else is ++ [⟨.exit, []⟩]

@[simp] theorem encodeAll_nil : encodeAll [] = [] := rfl

@[simp] theorem encodeAll_cons (i : Instruction) (is : List Instruction) :
    encodeAll (i :: is) = i.encode ++ encodeAll is := rfl

@[simp] theorem encodeAll_append (is js : List Instruction) :
    encodeAll (is ++ js) = encodeAll is ++ encodeAll js := List.flatMap_append

@[simp] theorem length_encode (i : Instruction) : i.encode.length = i.size := rfl

/-- Closing adds at most one exit. -/
theorem closed_eq_append (is : List Instruction) :
    ∃ tail, closed is = is ++ tail ∧ ∀ i ∈ tail, i = ⟨.exit, []⟩ := by
  unfold closed
  split
  · exact ⟨[], (List.append_nil is).symm, by simp⟩
  · exact ⟨[⟨.exit, []⟩], rfl, by simp⟩

theorem opcode_getLast?_closed (is : List Instruction) :
    (closed is).getLast?.map opcode = some .exit := by
  unfold closed
  split
  · assumption
  · simp

end Instruction

namespace CodeBuffer

open Instruction

variable {c d : CodeBuffer} {is js : List Instruction}

/-- A buffer is given by its content and its last opcode. -/
theorem eq_of_toList (hbytes : c.toList = d.toList) (hlast : c.lastOpcode = d.lastOpcode) :
    c = d := by
  cases c with
  | mk bytes last =>
      cases d with
      | mk bytes' last' =>
          have hbytes : bytes = bytes' := Array.toList_inj.mp hbytes
          have hlast : last = last' := hlast
          rw [hbytes, hlast]

/-- Adds instructions one behind the other. -/
def emitAll (c : CodeBuffer) (is : List Instruction) : CodeBuffer := is.foldl emit c

@[simp] theorem emitAll_nil : c.emitAll [] = c := rfl

@[simp] theorem emitAll_cons {i : Instruction} :
    c.emitAll (i :: is) = (c.emit i).emitAll is := rfl

@[simp] theorem toList_emitAll : (c.emitAll is).toList = c.toList ++ encodeAll is := by
  induction is generalizing c with
  | nil => simp
  | cons i is ih => rw [emitAll_cons, ih, toList_emit, encodeAll_cons, List.append_assoc]

theorem size_emit {i : Instruction} : (c.emit i).size = c.size + i.size := by
  rw [← length_toList, toList_emit, List.length_append, length_toList, length_encode]

theorem size_append : (c ++ d).size = c.size + d.size := by
  rw [← length_toList, toList_append, List.length_append, length_toList, length_toList]

theorem lastOpcode_emitAll :
    (c.emitAll is).lastOpcode = (is.getLast?.map opcode).or c.lastOpcode := by
  induction is generalizing c with
  | nil => rfl
  | cons i is ih =>
      rw [emitAll_cons, ih, lastOpcode_emit, List.getLast?_cons]
      cases is.getLast? <;> rfl

/-- The buffer that holds the instructions and nothing else. -/
def ofInstructions (is : List Instruction) : CodeBuffer where
  bytes := (encodeAll is).toArray
  lastOpcode := is.getLast?.map opcode

@[simp] theorem toList_ofInstructions : (ofInstructions is).toList = encodeAll is := rfl

theorem emitAll_ofInstructions : (ofInstructions is).emitAll js = ofInstructions (is ++ js) := by
  apply eq_of_toList
  · rw [toList_emitAll, toList_ofInstructions, toList_ofInstructions, encodeAll_append]
  · rw [lastOpcode_emitAll]
    cases hjs : js.getLast? with
    | none =>
        rw [List.getLast?_eq_none_iff.mp hjs, List.append_nil]
        rfl
    | some j =>
        have hlast : (is ++ js).getLast? = some j := by
          rw [List.getLast?_append, hjs]
          rfl
        simp [ofInstructions, hlast]

theorem ofInstructions_append :
    ofInstructions is ++ ofInstructions js = ofInstructions (is ++ js) := by
  apply eq_of_toList
  · rw [toList_append, toList_ofInstructions, toList_ofInstructions, toList_ofInstructions,
      encodeAll_append]
  · rw [lastOpcode_append, ofInstructions, ofInstructions, ofInstructions, List.getLast?_append]
    cases js.getLast? with
    | none => rfl
    | some j => rfl

/-- Closing a buffer closes the instructions that it holds. -/
theorem closed_ofInstructions :
    (ofInstructions is).closed = ofInstructions (Instruction.closed is) := by
  have hlast : (ofInstructions is).endsWithExit = true ↔
      is.getLast?.map opcode = some .exit := beq_iff_eq
  unfold CodeBuffer.closed Instruction.closed
  by_cases h : is.getLast?.map opcode = some .exit
  · rw [if_pos (hlast.mpr h), if_pos h]
  · rw [if_neg (mt hlast.mp h), if_neg h]
    show (ofInstructions is).emitAll [⟨.exit, []⟩] = _
    exact emitAll_ofInstructions

end CodeBuffer

end ConsoleScript
