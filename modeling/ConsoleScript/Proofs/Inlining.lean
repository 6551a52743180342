import ConsoleScript.Proofs.Source.Inlining

/-!
# Variables as constants

A variable is a constant. Where its name stands for an operand, a literal of the constant
could as well stand: the source compiles to the same program, or is refused for the same
reason.

## Implementation notes

A literal has another length than the name and blanks around it, so places behind it differ
and an error is compared without its location.
-/

namespace ConsoleScript

open Grammar Bytes

/-- The error without its place. -/
def CompileError.reason {Place : Type} (e : CompileError Place) : CompileError Unit :=
  e.map fun _ => ()

namespace Item

variable {i : Item}

theorem blocks_withoutPlace : i.withoutPlace.blocks = i.blocks := by
  cases i <;> rfl

theorem declarations_withoutPlace : i.withoutPlace.declarations = i.declarations := by
  cases i <;> rfl

theorem oversized?_withoutPlace :
    i.withoutPlace.oversized? = i.oversized?.map fun found => ([], found.2) := by
  cases i with
  | loop place body =>
      rw [withoutPlace, oversized?, oversized?]
      split <;> rfl
  | _ => rfl

end Item

namespace Script

variable {script : Script}

theorem blocks_withoutPlaces : script.withoutPlaces.blocks = script.blocks := by
  rw [blocks, withoutPlaces, List.flatMap_map]
  exact congrArg (script.items.flatMap ·) (funext fun _ => Item.blocks_withoutPlace)

theorem declarations_withoutPlaces :
    script.withoutPlaces.declarations = script.declarations := by
  rw [declarations, withoutPlaces, List.flatMap_map]
  exact congrArg (script.items.flatMap ·) (funext fun _ => Item.declarations_withoutPlace)

theorem oversized?_withoutPlaces :
    script.withoutPlaces.oversized? = script.oversized?.map fun found => ([], found.2) := by
  rw [oversized?, oversized?, withoutPlaces, List.findSome?_map, List.map_findSome?]
  exact congrArg (script.items.findSome? ·) (funext fun _ => Item.oversized?_withoutPlace)

end Script

/-- The places of loops are only told in errors. -/
theorem Program.ofScript_withoutPlaces (range : JumpRange) (script : Script) :
    (ofScript range script.withoutPlaces).mapError CompileError.reason =
      (ofScript range script).mapError CompileError.reason := by
  by_cases hfits : range = .checked → script.oversized? = none
  · have hfits' : range = .checked → script.withoutPlaces.oversized? = none := by
      intro hrange
      rw [Script.oversized?_withoutPlaces, hfits hrange]
      rfl
    rw [ofScript_of_fits hfits, ofScript_of_fits hfits', Script.blocks_withoutPlaces,
      Script.declarations_withoutPlaces]
    rfl
  · obtain ⟨rfl, hsome⟩ := Classical.not_imp.mp hfits
    obtain ⟨⟨place, body⟩, hloop⟩ := Option.ne_none_iff_exists'.mp hsome
    have hloop' : script.withoutPlaces.oversized? = some ([], body) := by
      rw [Script.oversized?_withoutPlaces, hloop]
      rfl
    rw [ofScript_checked_of_oversized hloop, ofScript_checked_of_oversized hloop']
    rfl

variable {options : CompileOptions}

/-- Without its place, an error is the one that the script is refused for. -/
theorem mapError_reason_compile (source : Bytes) :
    (compile options source).mapError CompileError.reason =
      (Program.ofScript options.jumpRange
        (Script.read options.maxVariables source)).mapError CompileError.reason := by
  rw [compile]
  cases Program.ofScript options.jumpRange (Script.read options.maxVariables source) with
  | error e => exact congrArg Except.error (CompileError.map_map _ _ e)
  | ok p => rfl

/-- A name that is looked up as an operand and stands for a constant of the operand's kind
may be replaced by a literal of the constant, with blanks around it. The source becomes the
same program then, with the same flags and as many declarations, or is refused for the same
reason. -/
theorem compile_inlined {front back : Bytes} {w : Word} {v : Value} {table : VariableTable}
    (hlooks : Script.LooksUp { capacity := options.maxVariables } (front ++ (w.bytes ++ back))
      table v.kind (w.bytes ++ back))
    (hw : w.Names table v back) :
    (compile options (front ++ v.inlined back)).mapError CompileError.reason =
      (compile options (front ++ (w.bytes ++ back))).mapError CompileError.reason := by
  obtain ⟨t, hreads, hlooks⟩ := hlooks
  have hscripts : (Script.read options.maxVariables (front ++ v.inlined back)).withoutPlaces =
      (Script.read options.maxVariables (front ++ (w.bytes ++ back))).withoutPlaces :=
    Script.withoutPlaces_readItems_inlined hw hreads rfl rfl hlooks
  rw [mapError_reason_compile, mapError_reason_compile, ← Program.ofScript_withoutPlaces,
    hscripts, Program.ofScript_withoutPlaces]

theorem compile_inlined_of_breakIfLast :
    compile {} (ofString "var n = -2147483647; loop \x7b breakiflast n; \x7d") =
        .ok (.ofBlocks [.loop [.breakIfLast 1]] 1) ∧
      (compile {} (ofString "var n = -2147483647; loop \x7b breakiflast  -2147483647 ; \x7d")
        ).mapError CompileError.reason = .ok (.ofBlocks [.loop [.breakIfLast 1]] 1) := by
  have hdeclaration : (Reader.item { capacity := 512 }).run
      (ofString "var n = -2147483647; loop \x7b breakiflast n; \x7d") =
        .ok (some (.declaration ⟨"n", .int (-2147483647)⟩, ⟨#[⟨"n", .int (-2147483647)⟩], 512⟩))
          (ofString " loop \x7b breakiflast n; \x7d") := by
    decide +kernel
  have hloop : (Reader.requiredName "Expected identifier").run
      (ofString " loop \x7b breakiflast n; \x7d") =
        .ok "loop" (ofString " \x7b breakiflast n; \x7d") := by
    decide +kernel
  have hbrace : (Reader.expect (ascii '\x7b') "Expected '\x7b' after loop").run
      (ofString " \x7b breakiflast n; \x7d") = .ok () (ofString " breakiflast n; \x7d") := by
    decide +kernel
  have hkeyword : (Reader.requiredName "Expected identifier in loop body").run
      (ofString " breakiflast n; \x7d") = .ok "breakiflast" (ofString " n; \x7d") := by
    decide +kernel
  have hsource : ofString "var n = -2147483647; loop \x7b breakiflast n; \x7d" =
      ofString "var n = -2147483647; loop \x7b breakiflast " ++
        (ofString "n" ++ ofString "; \x7d") := by
    decide +kernel
  have hplace : (ofString " n; \x7d").skipTrivia = ofString "n" ++ ofString "; \x7d" := by
    decide +kernel
  have hlooks : Script.LooksUp { capacity := 512 }
      (ofString "var n = -2147483647; loop \x7b breakiflast n; \x7d")
      ⟨#[⟨"n", .int (-2147483647)⟩], 512⟩ .int (ofString " n; \x7d").skipTrivia :=
    ⟨_, .behind hdeclaration (.loop hloop hbrace (.here hkeyword .value)),
      .int (by decide +kernel)⟩
  rw [hsource, hplace] at hlooks
  have hname : Word.Names ⟨ofString "n", by decide +kernel, by decide +kernel⟩
      ⟨#[⟨"n", .int (-2147483647)⟩], 512⟩ (.int (-2147483647)) (ofString "; \x7d") :=
    ⟨by decide +kernel, by decide +kernel⟩
  have hinlined : ofString "var n = -2147483647; loop \x7b breakiflast " ++
      Value.inlined (.int (-2147483647)) (ofString "; \x7d") =
        ofString "var n = -2147483647; loop \x7b breakiflast  -2147483647 ; \x7d" := by
    decide +kernel
  have hprogram : compile {} (ofString "var n = -2147483647; loop \x7b breakiflast n; \x7d") =
      .ok (.ofBlocks [.loop [.breakIfLast 1]] 1) := by
    decide +kernel
  refine ⟨hprogram, ?_⟩
  have h : (compile {} _).mapError CompileError.reason = _ := compile_inlined hlooks hname
  rw [hinlined, ← hsource, hprogram] at h
  exact h

end ConsoleScript
