import ConsoleScript.Proofs.Grammar.ClauseReading
import ConsoleScript.Proofs.Source.LookupCongruence
import ConsoleScript.Proofs.Text.Rounds
import ConsoleScript.Loop

/-!
# The loops of readers

Readers go over a source in loops: to skip trivia and lines, to collect names, strings and
numerals, and to read the statements of a loop's body. Here each of these loops is written down
round by round, as reading byte by byte goes. A round that goes on takes a byte away at least, and
the loop gives what the reader gives.

## Implementation notes

The round of a comment skips the line from its first slash on, so it is not empty. The state of a
loop is what it has collected, and each statement holds from every state on.
-/

namespace ConsoleScript

open Bytes

namespace Bytes

/-- A line that does not end at once is not empty. -/
theorem length_skipLine_cons_lt {b : UInt8} (hb : b ≠ ascii '\n') (s : Bytes) :
    (skipLine (b :: s)).length < (b :: s).length := by
  have hle := (skipLine_suffix s).length_le
  rw [skipLine, List.dropWhile_cons_of_pos (by simpa using hb)]
  exact Nat.lt_succ_of_le hle

end Bytes

/-- What was read, with another result. -/
def Reading.map {α β : Type} (f : α → β) : Reading α → Reading β
  | .ok a rest => .ok (f a) rest
  | .error e rest => .error e rest

theorem Reading.map_map {α β γ : Type} (f : α → β) (g : β → γ) (r : Reading α) :
    Reading.map g (Reading.map f r) = Reading.map (g ∘ f) r := by
  cases r <;> rfl

/-- Statements that were taken before stand in front of those that are read. -/
theorem Reader.bodyStatements_append {table : VariableTable} (front done : Array Statement)
    (s : Bytes) : bodyStatements table (front ++ done) s =
      Reading.map (front.toList ++ ·) (bodyStatements table done s) := by
  fun_induction bodyStatements table done s with
  | case1 done s hs => exact bodyStatements_of_nil table _ hs
  | case2 done s t hs =>
      rw [bodyStatements_of_brace (Grammar.Token.leads_iff.mpr ⟨hs, fun _ _ => id⟩),
        Array.toList_append]
      rfl
  | case3 done s b t hs hb e rest hr =>
      rw [bodyStatements_of_cons _ hs hb, hs, hr]
      rfl
  | case4 done s b t hs hb st rest hr ih =>
      rw [bodyStatements_of_cons _ hs hb, hs, hr, ← ih, Array.append_push]

namespace TextLoop

/-- Skips blanks and comments. -/
def trivia : TextLoop Unit Bytes
  | _, [] => .none []
  | _, b :: s =>
    if isBlank b then .next () s
    else if b = ascii '/' ∧ s.head? = some (ascii '/') then .next () (skipLine (b :: s))
    else .leave (b :: s)

/-- Skips to the next line break. -/
def line : TextLoop Unit Bytes
  | _, [] => .none []
  | _, b :: s => if b = ascii '\n' then .leave (b :: s) else .next () s

/-- Takes name bytes, of which only the first are kept. -/
def name : TextLoop Bytes (Reading String)
  | n, [] => .none (.ok (toText n) [])
  | n, b :: s =>
    if isNameByte b then .next (if n.length < Reader.nameLength then n ++ [b] else n) s
    else .leave (.ok (toText n) (b :: s))

/-- Takes the bytes of a string literal, whose value is collected backwards. -/
def string : TextLoop Bytes (Reading Bytes)
  | _, [] => .leave (Reader.unterminated .string)
  | value, b :: s =>
    if b = ascii '"' then .leave (.ok value.reverse s)
    else if b = ascii '\\' then
      match s with
      | [] => .leave (Reader.unterminated .string)
      | c :: s => .next (unescape c :: value) s
    else .next (b :: value) s

/-- Takes digits, whose number is collected in a word of 64 bits. -/
def digits : TextLoop Int64 (Reading Int64)
  | n, [] => .none (.ok n [])
  | n, b :: s =>
    if isDigit b then .next (n * 10 + (b - ascii '0').toUInt64.toInt64) s
    else .leave (.ok n (b :: s))

/-- Takes the statements of a loop's body, and emits each of them. -/
def body (table : VariableTable) : TextLoop LoopBody (Reading LoopBody) := fun code s =>
  match s.skipTrivia with
  | [] => .leave (.error (.malformed "Unexpected end of input in loop body" []) [])
  | b :: t =>
    if b = ascii '\x7d' then .leave (.ok code t)
    else
      match (Reader.bodyStatement table).run (b :: t) with
      | .error e rest => .leave (.error e rest)
      | .ok statement rest => .next (code.add statement) rest

/-! ### Trivia and lines -/

/-- A round that takes one byte. -/
theorem next_tail (b : UInt8) (s : Bytes) : s <:+ b :: s ∧ s.length < (b :: s).length :=
  ⟨List.suffix_cons b s, Nat.lt_succ_self _⟩

theorem computes_line : line.Computes fun _ s => s.skipLine where
  advances st s st' t h := by
    revert h
    fun_cases line st s with
    | case1 | case2 => exact nofun
    | case3 st b s hb =>
        intro h
        cases h
        exact next_tail b t
  value_eq st s := by
    fun_cases line st s with
    | case1 => rfl
    | case2 st s => rfl
    | case3 st b s hb => exact (List.dropWhile_cons_of_pos (by simpa using hb)).symm

/-- The first slash of a comment is skipped with the rest of the line. -/
theorem trivia_comment (s : Bytes) :
    trivia () (ascii '/' :: ascii '/' :: s) =
      .next () (skipLine (ascii '/' :: ascii '/' :: s)) := by
  rw [trivia, if_neg (by decide), if_pos ⟨rfl, rfl⟩]

theorem computes_trivia : trivia.Computes fun _ s => s.skipTrivia where
  advances st s st' t h := by
    revert h
    fun_cases trivia st s with
    | case1 | case4 => exact nofun
    | case2 st b s hb =>
        intro h
        cases h
        exact next_tail b t
    | case3 st b s hb hcomment =>
        intro h
        cases h
        exact ⟨skipLine_suffix _, length_skipLine_cons_lt (by rw [hcomment.1]; decide) s⟩
  value_eq st s := by
    fun_cases trivia st s with
    | case1 => exact Grammar.skipTrivia_nil.symm
    | case2 st b s hb => exact (Grammar.skipTrivia_blank hb).symm
    | case3 st b s hb hcomment =>
        have hline : skipLine (b :: s) = skipLine s := by
          rw [hcomment.1, skipLine, List.dropWhile_cons_of_pos (by decide)]
          rfl
        rw [skipTrivia, if_neg hb, if_pos hcomment, ← hline]
        rfl
    | case4 st b s hb hcomment =>
        rw [skipTrivia, if_neg hb, if_neg hcomment]
        rfl

/-! ### Tokens -/

/-- What is read of a name behind the bytes `n` of it. -/
def nameBehind (n : Bytes) : Reader String := fun s =>
  .ok (toText (n ++ (s.takeWhile isNameByte).take (Reader.nameLength - n.length)))
    (s.dropWhile isNameByte)

theorem nameBehind_cons {b : UInt8} (hb : isNameByte b = true) (n s : Bytes) :
    nameBehind n (b :: s) =
      nameBehind (if n.length < Reader.nameLength then n ++ [b] else n) s := by
  rw [nameBehind, nameBehind, List.takeWhile_cons_of_pos hb, List.dropWhile_cons_of_pos hb]
  split
  case isTrue hroom =>
    have hleft : Reader.nameLength - n.length = Reader.nameLength - (n ++ [b]).length + 1 := by
      rw [List.length_append, List.length_singleton]
      omega
    rw [hleft, List.take_succ_cons, List.append_assoc]
    rfl
  case isFalse hfull =>
    rw [Nat.sub_eq_zero_of_le (Nat.not_lt.mp hfull), List.take_zero, List.take_zero]

theorem nameBehind_of_stop {b : UInt8} (hb : ¬isNameByte b = true) (n s : Bytes) :
    nameBehind n (b :: s) = .ok (toText n) (b :: s) := by
  rw [nameBehind, List.takeWhile_cons_of_neg hb, List.dropWhile_cons_of_neg hb, List.take_nil,
    List.append_nil]

theorem computes_name : name.Computes nameBehind where
  advances n s n' t h := by
    revert h
    fun_cases name n s with
    | case1 | case3 => exact nofun
    | case2 n b s hb =>
        intro h
        cases h
        exact next_tail b t
  value_eq n s := by
    fun_cases name n s with
    | case1 => simp [nameBehind, Round.value]
    | case2 n b s hb => exact (nameBehind_cons hb n s).symm
    | case3 n b s hb => exact (nameBehind_of_stop hb n s).symm

theorem computes_string : string.Computes Reader.stringBody where
  advances value s value' t h := by
    revert h
    fun_cases string value s with
    | case1 | case2 | case3 => exact nofun
    | case4 hquote c s =>
        intro h
        cases h
        exact ⟨(List.suffix_cons c t).trans (List.suffix_cons _ _),
          Nat.lt_succ_of_lt (Nat.lt_succ_self _)⟩
    | case5 value b s hquote hescape =>
        intro h
        cases h
        exact next_tail b t
  value_eq value s := by
    fun_cases string value s with
    | case1 => rfl
    | case2 s => exact Reader.stringBody_quote.symm
    | case3 hquote => exact Reader.stringBody_lone_backslash.symm
    | case4 hquote c s => exact Reader.stringBody_escape.symm
    | case5 value b s hquote hescape => exact (Reader.stringBody_byte hquote hescape).symm

/-- What is read of a numeral behind the digits whose number is `n`. -/
def digitsBehind (n : Int64) : Reader Int64 := fun s =>
  .ok ((s.takeWhile isDigit).foldl (fun n d => n * 10 + (d - ascii '0').toUInt64.toInt64) n)
    (s.dropWhile isDigit)

theorem digitsBehind_cons {b : UInt8} (hb : isDigit b = true) (n : Int64) (s : Bytes) :
    digitsBehind n (b :: s) = digitsBehind (n * 10 + (b - ascii '0').toUInt64.toInt64) s := by
  rw [digitsBehind, List.takeWhile_cons_of_pos hb, List.dropWhile_cons_of_pos hb]
  rfl

theorem digitsBehind_of_stop {b : UInt8} (hb : ¬isDigit b = true) (n : Int64) (s : Bytes) :
    digitsBehind n (b :: s) = .ok n (b :: s) := by
  rw [digitsBehind, List.takeWhile_cons_of_neg hb, List.dropWhile_cons_of_neg hb]
  rfl

theorem computes_digits : digits.Computes digitsBehind where
  advances n s n' t h := by
    revert h
    fun_cases digits n s with
    | case1 | case3 => exact nofun
    | case2 n b s hb =>
        intro h
        cases h
        exact next_tail b t
  value_eq n s := by
    fun_cases digits n s with
    | case1 => rfl
    | case2 n b s hb => exact (digitsBehind_cons hb n s).symm
    | case3 n b s hb => exact (digitsBehind_of_stop hb n s).symm

/-! ### Bodies of loops -/

variable {table : VariableTable}

/-- What is read of a loop's body behind statements that have left the code. -/
def bodyBehind (table : VariableTable) (code : LoopBody) (s : Bytes) : Reading LoopBody :=
  Reading.map (fun statements => statements.foldl LoopBody.add code)
    (Reader.bodyStatements table #[] s)

/-- Behind a statement, the body is read with the code to which the statement is added. -/
theorem bodyBehind_of_statement {st : Statement} {b : UInt8} {s u rest : Bytes}
    (hskip : s.skipTrivia = b :: u) (hb : b ≠ ascii '\x7d')
    (hst : (Reader.bodyStatement table).run (b :: u) = .ok st rest) (code : LoopBody) :
    bodyBehind table code s = bodyBehind table (code.add st) rest := by
  have hbody : Reader.bodyStatements table #[] s =
      Reading.map (st :: ·) (Reader.bodyStatements table #[] rest) := by
    rw [Reader.bodyStatements_of_cons #[] hskip hb, hskip, hst]
    exact Reader.bodyStatements_append #[st] #[] rest
  rw [bodyBehind, bodyBehind, hbody, Reading.map_map]
  rfl

theorem computes_body (table : VariableTable) : (body table).Computes (bodyBehind table) where
  advances code s code' t h := by
    have hsuffix := skipTrivia_suffix s
    revert h
    fun_cases body table code s with
    | case1 | case2 | case3 => exact nofun
    | case4 b u hskip hb st rest hst =>
        intro h
        cases h
        rw [hskip] at hsuffix
        have hlt := Reader.advances_bodyStatement table _ _ _ hst
        exact ⟨((Reader.forward_bodyStatement table).suffix_of_ok hst).trans hsuffix,
          Nat.lt_of_lt_of_le hlt hsuffix.length_le⟩
  value_eq code s := by
    rw [bodyBehind]
    fun_cases body table code s with
    | case1 hskip =>
        rw [Reader.bodyStatements_of_nil table #[] hskip]
        rfl
    | case2 u hskip =>
        rw [Reader.bodyStatements_of_brace (Grammar.Token.leads_iff.mpr ⟨hskip, fun _ _ => id⟩)]
        rfl
    | case3 b u hskip hb e rest hst =>
        rw [Reader.bodyStatements_of_cons #[] hskip hb, hskip, hst]
        rfl
    | case4 b u hskip hb st rest hst => exact (bodyBehind_of_statement hskip hb hst code).symm

end TextLoop

end ConsoleScript
