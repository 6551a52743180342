import ConsoleScript.Proofs.Code.CheckedJumps
import ConsoleScript.Proofs.Source.FaultPlace
import ConsoleScript.Proofs.Source.Position

/-!
# Locations of errors

A source that is refused is refused at a place. The location that is reported describes
this place, and what is reported can be found there.
-/

namespace ConsoleScript

open Bytes

variable {options : CompileOptions} {source place : Bytes}

theorem CompileError.describes_map {Place Place' : Type} {limit : Nat} {before rest : Bytes}
    (f : Place → Place') (e : CompileError Place) :
    (e.map f).Describes limit before rest ↔ e.Describes limit before rest := by
  cases e <;> rfl

/-- The keyword of a loop is all of the name at the loop's place. -/
theorem IsLoopAt.takeWhile_eq {body : List Statement} (h : IsLoopAt place body) :
    place.takeWhile isNameByte = ofString "loop" := by
  obtain ⟨commands, declared, behind, rest, rfl, hrenders, -⟩ := h
  obtain ⟨t, ⟨w, hw, rfl, -⟩, -⟩ := hrenders
  have hbrace : ∀ b ∈ ((Grammar.Token.mark .openBrace).spelling ++ t).head?,
      isNameByte b = false := by
    intro b hb
    cases hb
    decide
  exact (Text.span_eq_iff.mpr
    ⟨rfl, Grammar.Keyword.loop.word.isNameByte_of_mem, hw.isNameByte_head? hbrace⟩).1

/-- What a source is refused for is at a place of the source, and so there. -/
theorem isWithin_of_ofScript_readItems_eq_error {table : VariableTable} {range : JumpRange}
    {e : Fault} (h : Program.ofScript range (Script.readItems table #[] source) = .error e) :
    e.IsWithin table.capacity source := by
  by_cases hfits : range = .checked → (Script.readItems table #[] source).oversized? = none
  · rw [Program.ofScript_of_fits hfits] at h
    cases hfault : (Script.readItems table #[] source).fault? with
    | none =>
        rw [hfault] at h
        cases h
    | some e' =>
        rw [hfault] at h
        cases h
        exact Script.isWithin_of_fault?_readItems List.suffix_rfl hfault
  · obtain ⟨rfl, hsome⟩ := Classical.not_imp.mp hfits
    obtain ⟨⟨place, body⟩, hloop⟩ := Option.ne_none_iff_exists'.mp hsome
    rw [Program.ofScript_checked_of_oversized hloop] at h
    cases h
    obtain ⟨hsuffix, hat⟩ := Script.isLoopAt_of_mem_items (Script.mem_items_of_oversized? hloop)
    exact isWithin_of_suffix hsuffix rfl fun _ => hat.takeWhile_eq

theorem isWithin_of_ofScript_read_eq_error {maxVariables : Nat} {range : JumpRange} {e : Fault}
    (h : Program.ofScript range (Script.read maxVariables source) = .error e) :
    e.IsWithin maxVariables source :=
  isWithin_of_ofScript_readItems_eq_error h

theorem compile_eq_error_iff {e : CompileError Location} :
    compile options source = .error e ↔ ∃ fault : Fault,
      Program.ofScript options.jumpRange (Script.read options.maxVariables source) =
          .error fault ∧
        fault.map (Location.within source) = e := by
  rw [compile]
  cases Program.ofScript options.jumpRange (Script.read options.maxVariables source) with
  | error fault => simp [Except.mapError]
  | ok p => simp [Except.mapError]

/-- The error of a source that is refused has a place in the source. Its line is counted by
the line breaks in front of the place, its column by the bytes behind the last of them, and
its excerpt has the bytes from the place on, up to twenty and in front of the next line
break. What the error tells is so at the place. -/
theorem location_of_compile_eq_error {e : CompileError Location}
    (h : compile options source = .error e) :
    ∃ before rest, source = before ++ rest ∧
      e.place? = some {
        line := 1 + before.count (ascii '\n')
        column := 1 + (before.rtakeWhile (· != ascii '\n')).length
        snippet := Text.decodeLossy ((rest.take 20).takeWhile (· != ascii '\n')) } ∧
      e.Describes options.maxVariables before rest := by
  obtain ⟨fault, hfault, rfl⟩ := compile_eq_error_iff.mp h
  obtain ⟨before, rest, rfl, hplace, hdescribes⟩ := isWithin_of_ofScript_read_eq_error hfault
  refine ⟨before, rest, rfl, ?_, (fault.describes_map _).mpr hdescribes⟩
  rw [CompileError.place?_map, hplace, Option.map_some, Location.within_append,
    Position.behind_eq]
  rfl

theorem location_of_compile_eq_error_of_wrongKind :
    compile {} (ofString "var n = 1; // n\nprint n ;") =
        .error (.wrongKind "n" .string ⟨⟨2, 7⟩, "n ;"⟩) ∧
      ∃ before rest, ofString "var n = 1; // n\nprint n ;" = before ++ rest ∧
        before.count (ascii '\n') = 1 ∧ (before.rtakeWhile (· != ascii '\n')).length = 6 ∧
        StartsWithName "n" rest := by
  have h : compile {} (ofString "var n = 1; // n\nprint n ;") =
      .error (.wrongKind "n" .string ⟨⟨2, 7⟩, "n ;"⟩) := by
    decide +kernel
  obtain ⟨before, rest, hsource, hplace, hname⟩ := location_of_compile_eq_error h
  refine ⟨h, before, rest, hsource, ?_, ?_, hname⟩
  · have hline : 2 = 1 + before.count (ascii '\n') :=
      congrArg (·.line) (Option.some.inj hplace)
    omega
  · have hcolumn : 7 = 1 + (before.rtakeWhile (· != ascii '\n')).length :=
      congrArg (·.column) (Option.some.inj hplace)
    omega

end ConsoleScript
