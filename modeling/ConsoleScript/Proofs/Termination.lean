import ConsoleScript.Proofs.Grammar.Concatenation
import ConsoleScript.Proofs.Source.Rounds
import ConsoleScript.Program
import ConsoleScript.Listing.Decode

/-!
# Compiling and decoding end

Compiling goes over a source item by item, and decoding over a code section instruction by
instruction, whatever bytes these are. Each round takes bytes away or is the last one, so the
length bounds the number of rounds. The same holds of all the loops of the readers that a round
calls.

## Implementation notes

`Program.ofScript` emits the code of a script that has been read to its end or to its first fault.
In the loop over items, the code of an item is emitted before the next one is read, and reading
stops where code cannot be emitted. Both give the same.
-/

namespace ConsoleScript

open Bytes Grammar

/-- The program of a script behind code that is there already, or the first error. -/
def Program.behind (range : JumpRange) (p : Program) (script : Script) : Except Fault Program := do
  let p ← script.items.foldlM (add range) p
  match script.fault? with
  | some e => throw e
  | none => return p.closed

theorem Program.ofScript_eq_behind (range : JumpRange) (script : Script) :
    ofScript range script = behind range {} script := rfl

namespace TextLoop

/-- Reads items and emits the code of each of them. -/
def items (range : JumpRange) : TextLoop (VariableTable × Program) (Except Fault Program) :=
  fun (table, p) s =>
    match (Reader.item table).run s with
    | .error e _ => .leave (.error e)
    | .ok none _ => .leave (.ok p.closed)
    | .ok (some (i, grown)) rest =>
      match p.add range i with
      | .error e => .leave (.error e)
      | .ok p => .next (grown, p) rest

/-- Decodes instructions from an offset on. -/
def instructions : TextLoop (Nat × Array Listing.Entry) (Except DecodeError (Array Listing.Entry))
  | (_, done), [] => .none (.ok done)
  | (offset, done), b :: s =>
    match Listing.readInstruction offset b s with
    | .error e => .leave (.error e)
    | .ok (i, rest) => .next (offset + i.size, done.push (.place offset i)) rest

variable {range : JumpRange} {table : VariableTable} {p : Program} {s t : Bytes}

/-! ### Items -/

/-- A remark is skipped from its number sign on. -/
theorem items_remark (range : JumpRange) (table : VariableTable) (p : Program)
    (h : s.skipTrivia = ascii '#' :: t) :
    items range (table, p) s = .next (table, p) (skipLine (ascii '#' :: t)) := by
  have hitem : (Reader.item table).run s =
      .ok (some (.remark, table)) (skipLine (ascii '#' :: t)) := by
    rw [Reader.run_item_of_sign (by rw [h]; rfl), h]
  simp only [items, hitem]
  rfl

theorem readItems_of_item {i : Item} {grown : VariableTable} {rest : Bytes}
    (h : (Reader.item table).run s = .ok (some (i, grown)) rest) :
    Script.readItems table #[] s =
      ⟨i :: (Script.readItems grown #[] rest).items, (Script.readItems grown #[] rest).fault?⟩ := by
  rw [Script.readItems_of_some h]
  exact Script.readItems_append #[i] #[] rest

/-- What the rest of a source compiles to behind items that have left the table and the program. -/
def itemsBehind (range : JumpRange) : VariableTable × Program → Bytes → Except Fault Program
  | (table, p), s => Program.behind range p (Script.readItems table #[] s)

theorem computes_items (range : JumpRange) : (items range).Computes (itemsBehind range) where
  advances st s st' t h := by
    revert h
    fun_cases items range st s with
    | case1 | case2 | case3 => exact nofun
    | case4 table p i grown rest hitem q hq =>
        intro h
        cases h
        exact ⟨(Reader.forward_item table).suffix_of_ok hitem, Reader.length_lt_of_item table hitem⟩
  value_eq st s := by
    fun_cases items range st s with
    | case1 table p e rest hitem =>
        rw [itemsBehind, Script.readItems_of_error hitem]
        rfl
    | case2 table p rest hitem =>
        rw [itemsBehind, Script.readItems_of_none hitem]
        rfl
    | case3 table p i grown rest hitem e hq =>
        rw [itemsBehind, readItems_of_item hitem, Program.behind, List.foldlM_cons, hq]
        rfl
    | case4 table p i grown rest hitem q hq =>
        rw [itemsBehind, readItems_of_item hitem, Program.behind, List.foldlM_cons, hq]
        rfl

/-! ### Instructions -/

/-- What the rest of a code section decodes to behind instructions up to the offset. -/
def instructionsBehind :
    Nat × Array Listing.Entry → Bytes → Except DecodeError (Array Listing.Entry)
  | (offset, done), s => Listing.readEntries offset done s

theorem computes_instructions : instructions.Computes instructionsBehind where
  advances st s st' t h := by
    revert h
    fun_cases instructions st s with
    | case1 | case2 => exact nofun
    | case3 offset done b s i rest hread =>
        intro h
        cases h
        refine ⟨?_, Listing.length_lt_of_readInstruction hread⟩
        rw [Listing.readInstruction_eq_append hread]
        exact List.suffix_append _ _
  value_eq st s := by
    fun_cases instructions st s with
    | case1 offset done =>
        rw [instructionsBehind, Listing.readEntries.eq_def]
        rfl
    | case2 offset done b s e hread => exact (Listing.readEntries_cons_of_error hread).symm
    | case3 offset done b s i rest hread => exact (Listing.readEntries_cons_of_ok hread).symm

/-- Whatever bytes a source and a code section are, compiling and decoding end. No round of any
loop stands still: it is the last one, or bytes are taken away. So the loops of the readers give
what the readers give, compiling has at most one round more than the source has bytes, and decoding
at most one for each byte. A comment and a remark are no exception: the rest of the line is
skipped from their first byte on. -/
theorem compile_and_decode_end (options : CompileOptions) (table : VariableTable)
    (source code : Bytes) :
    (trivia.Advances ∧ line.Advances ∧ name.Advances ∧ string.Advances ∧ digits.Advances ∧
      (body table).Advances ∧ (items options.jumpRange).Advances ∧ instructions.Advances) ∧
    (trivia.EndsWithin source.length () source source.skipTrivia ∧
      line.EndsWithin source.length () source source.skipLine ∧
      name.EndsWithin source.skipTrivia.length [] source.skipTrivia (Reader.name.run source) ∧
      string.EndsWithin (source.length + 1) [] source (Reader.stringBody [] source) ∧
      digits.EndsWithin source.length 0 source
        (.ok (numeralValue (source.takeWhile isDigit)) (source.dropWhile isDigit)) ∧
      (body table).EndsWithin (source.length + 1) {} source
        (Reading.map LoopBody.ofStatements (Reader.bodyStatements table #[] source))) ∧
    (∃ result, (items options.jumpRange).EndsWithin (source.length + 1)
        ({ capacity := options.maxVariables }, {}) source result ∧
      compile options source = result.mapError (·.map (Location.within source))) ∧
    (∃ result, instructions.EndsWithin code.length (0, #[]) code result ∧
      Listing.decode code = result.map fun entries => .ofEntries entries.toList code.length) ∧
    (∀ t, source = ascii '/' :: ascii '/' :: t →
      trivia () source = .next () source.skipLine ∧ source.skipLine.length < source.length) ∧
    ∀ p t, source.skipTrivia = ascii '#' :: t →
      items options.jumpRange (table, p) source =
          .next (table, p) source.skipTrivia.skipLine ∧
        source.skipTrivia.skipLine.length < source.skipTrivia.length := by
  refine ⟨⟨computes_trivia.advances, computes_line.advances, computes_name.advances,
    computes_string.advances, computes_digits.advances, (computes_body table).advances,
    (computes_items _).advances, computes_instructions.advances⟩, ⟨?_, ?_, ?_, ?_, ?_, ?_⟩,
    ?_, ?_, ?_, ?_⟩
  · exact computes_trivia.endsWithin_length (fun _ => ⟨_, rfl⟩) () source
  · exact computes_line.endsWithin_length (fun _ => ⟨_, rfl⟩) () source
  · exact computes_name.endsWithin_length (fun _ => ⟨_, rfl⟩) [] source.skipTrivia
  · exact computes_string.endsWithin_succ [] source
  · exact computes_digits.endsWithin_length (fun _ => ⟨_, rfl⟩) 0 source
  · exact (computes_body table).endsWithin_succ {} source
  · refine ⟨_, (computes_items options.jumpRange).endsWithin_succ _ source, ?_⟩
    rw [compile, Program.ofScript_eq_behind]
    rfl
  · refine ⟨_, computes_instructions.endsWithin_length (fun _ => ⟨_, rfl⟩) (0, #[]) code, ?_⟩
    rw [instructionsBehind, Listing.decode]
    cases Listing.readEntries 0 #[] code <;> rfl
  · rintro t rfl
    exact ⟨trivia_comment t, length_skipLine_cons_lt (by decide) _⟩
  · intro p t hskip
    rw [items_remark options.jumpRange table p hskip, hskip]
    exact ⟨rfl, length_skipLine_cons_lt (by decide) t⟩

/-- A comment, a remark, and a loop that is not closed: the comment and the remark are skipped in
one round each, and the error is that of the last round. -/
theorem compile_and_decode_end_of_comment_remark_and_open_loop :
    trivia () (ofString "//\n#a\nloop\x7b") = .next () (ofString "\n#a\nloop\x7b") ∧
      items .checked ({ capacity := 1 }, {}) (ofString "//\n#a\nloop\x7b") =
        .next ({ capacity := 1 }, {}) (ofString "\nloop\x7b") ∧
      ∃ result, (items .checked).EndsWithin 12 ({ capacity := 1 }, {})
          (ofString "//\n#a\nloop\x7b") result ∧
        compile ⟨1, .checked⟩ (ofString "//\n#a\nloop\x7b") =
          result.mapError (·.map (Location.within (ofString "//\n#a\nloop\x7b"))) := by
  obtain ⟨-, -, hcompile, -, hcomment, hremark⟩ := compile_and_decode_end ⟨1, .checked⟩
    { capacity := 1 } (ofString "//\n#a\nloop\x7b") []
  have hskip : skipTrivia (ofString "//\n#a\nloop\x7b") =
      ascii '#' :: ofString "a\nloop\x7b" := by
    decide +kernel
  obtain ⟨hfirst, -⟩ := hcomment (ofString "\n#a\nloop\x7b") rfl
  obtain ⟨hsecond, -⟩ := hremark {} _ hskip
  refine ⟨hfirst, hsecond.trans ?_, hcompile⟩
  rw [hskip]
  rfl

end TextLoop

end ConsoleScript
