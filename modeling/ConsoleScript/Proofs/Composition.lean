import ConsoleScript.Proofs.Grammar.Concatenation
import ConsoleScript.Proofs.Source.ErrorLocation

/-!
# Compiling sources one behind the other

A source that stands behind another one, on lines of its own, compiles to the same code and
fails for the same reason as alone, as far as the first source does not touch its variables.
-/

namespace ConsoleScript

namespace Program

variable {range : JumpRange} {script : Script} {items : List Item} {e : Fault} {p : Program}

/-- The program of blocks is closed behind the code of all of them. -/
theorem ofBlocks_append (front back : List Block) (declared : Nat) :
    ofBlocks (front ++ back) declared =
      closed ⟨.ofInstructions (Block.instructionsOf front) ++
          .ofInstructions (Block.instructionsOf back),
        Block.flagsOf front ∪ Block.flagsOf back, declared⟩ := by
  rw [closed, ofBlocks, CodeBuffer.ofInstructions_append, CodeBuffer.closed_ofInstructions,
    Block.instructionsOf_append, Block.flagsOf_append_eq_union]

/-- Items in front whose jumps fit do not change what a script is refused for. -/
theorem ofScript_append_eq_error
    (hitems : range = .checked → items.findSome? Item.oversized? = none)
    (h : ofScript range script = .error e) :
    ofScript range ⟨items ++ script.items, script.fault?⟩ = .error e := by
  by_cases hfits : range = .checked → script.oversized? = none
  · have hboth : range = .checked →
        (⟨items ++ script.items, script.fault?⟩ : Script).oversized? = none := by
      intro hrange
      have hfront := hitems hrange
      have hback := hfits hrange
      rw [Script.oversized?] at hback
      rw [Script.oversized?, List.findSome?_append, hfront, hback]
      rfl
    rw [ofScript_of_fits hfits] at h
    rw [ofScript_of_fits hboth]
    cases hfault : script.fault? with
    | none =>
        rw [hfault] at h
        cases h
    | some e' =>
        rw [hfault] at h
        exact h
  · obtain ⟨rfl, hsome⟩ := Classical.not_imp.mp hfits
    obtain ⟨⟨place, body⟩, hloop⟩ := Option.ne_none_iff_exists'.mp hsome
    have hboth : (⟨items ++ script.items, script.fault?⟩ : Script).oversized? =
        some (place, body) := by
      rw [Script.oversized?, List.findSome?_append, hitems rfl]
      exact hloop
    rw [ofScript_checked_of_oversized hloop] at h
    rw [ofScript_checked_of_oversized hboth]
    exact h

/-- Behind items whose jumps fit, a script with a program has one. -/
theorem ofScript_append_eq_ok
    (hitems : range = .checked → items.findSome? Item.oversized? = none)
    (h : ofScript range script = .ok p) :
    ofScript range ⟨items ++ script.items, script.fault?⟩ =
      .ok (ofBlocks (items.flatMap Item.blocks ++ script.blocks)
        ((items.flatMap Item.declarations).length + script.declarations.length)) := by
  obtain ⟨hfault, hfits, -⟩ := ofScript_eq_ok_iff.mp h
  have hblocks : (⟨items ++ script.items, script.fault?⟩ : Script).blocks =
      items.flatMap Item.blocks ++ script.blocks := List.flatMap_append
  have hdeclarations : (⟨items ++ script.items, script.fault?⟩ : Script).declarations =
      items.flatMap Item.declarations ++ script.declarations := List.flatMap_append
  rw [ofScript_eq_ok_iff, hblocks, hdeclarations, List.length_append]
  refine ⟨hfault, fun hrange => ?_, rfl⟩
  have hfront : ∀ b ∈ (⟨items, none⟩ : Script).blocks, b.Fits :=
    Script.oversized?_eq_none_iff.mp (hitems hrange)
  exact List.forall_mem_append.mpr ⟨hfront, hfits hrange⟩

end Program

open Program

variable {options : CompileOptions} {source s₁ s₂ : Bytes} {p p₁ : Program} {e : Fault}

/-- What a source is refused for is at a place of the source. -/
theorem suffix_of_ofScript_readItems_eq_error {table : VariableTable} {range : JumpRange}
    (h : ofScript range (Script.readItems table #[] source) = .error e) :
    ∀ place ∈ e.place?, place <:+ source :=
  (isWithin_of_ofScript_readItems_eq_error h).suffix

theorem suffix_of_ofScript_read_eq_error {maxVariables : Nat} {range : JumpRange}
    (h : ofScript range (Script.read maxVariables source) = .error e) :
    ∀ place ∈ e.place?, place <:+ source :=
  suffix_of_ofScript_readItems_eq_error h

/-- A source that compiles is assembled and then closed. -/
theorem assemble_of_compile (h : compile options source = .ok p) :
    ∃ q, assemble options.jumpRange (Script.read options.maxVariables source) = .ok q ∧
      p = q.closed ∧ q.code = .ofInstructions
        (Block.instructionsOf (Script.read options.maxVariables source).blocks) := by
  obtain ⟨-, hfits, rfl⟩ := compile_eq_ok_iff_read.mp h
  refine ⟨_, assemble_of_fits ?_, closed_ofItems.symm, rfl⟩
  intro hrange
  exact Script.oversized?_eq_none_iff.mpr (hfits hrange)

/-- Two sources with a line break between them, of which the first one compiles. If the
second one compiles, they declare different names and there is room for their variables,
the code is that of both in front of their exits, closed by one exit, and facilities and
variables are those of both. If the first one declares nothing and the second one fails,
they fail together for the same reason, as many lines further down as the first one has
line breaks and one more. -/
theorem compile_append (h₁ : compile options s₁ = .ok p₁) (s₂ : Bytes) :
    (∀ p₂, compile options s₂ = .ok p₂ →
      (∀ v ∈ (Script.read options.maxVariables s₁).declarations,
        ∀ w ∈ (Script.read options.maxVariables s₂).declarations, v.name ≠ w.name) →
      p₁.declared + p₂.declared ≤ options.maxVariables →
      ∃ q₁ q₂,
        assemble options.jumpRange (Script.read options.maxVariables s₁) = .ok q₁ ∧
        p₁ = q₁.closed ∧
        assemble options.jumpRange (Script.read options.maxVariables s₂) = .ok q₂ ∧
        p₂ = q₂.closed ∧
        compile options (s₁ ++ ascii '\n' :: s₂) =
          .ok (closed ⟨q₁.code ++ q₂.code, p₁.flags ∪ p₂.flags, p₁.declared + p₂.declared⟩)) ∧
    (p₁.declared = 0 → ∀ e, compile options s₂ = .error e →
      compile options (s₁ ++ ascii '\n' :: s₂) = .error (e.map fun l =>
        { l with line := l.line + (1 + s₁.count (ascii '\n')) })) := by
  obtain ⟨hfault₁, hfits₁, hp₁⟩ := compile_eq_ok_iff_read.mp h₁
  constructor
  · intro p₂ h₂ hnames hroom
    obtain ⟨hfault₂, hfits₂, hp₂⟩ := compile_eq_ok_iff_read.mp h₂
    obtain ⟨q₁, hassemble₁, hclosed₁, hcode₁⟩ := assemble_of_compile h₁
    obtain ⟨q₂, hassemble₂, hclosed₂, hcode₂⟩ := assemble_of_compile h₂
    refine ⟨q₁, q₂, hassemble₁, hclosed₁, hassemble₂, hclosed₂, ?_⟩
    rw [hp₁, hp₂] at hroom
    obtain ⟨hfault, hblocks, hdeclared⟩ :=
      Script.read_append_of_names_ne hfault₁ hfault₂ hnames hroom
    apply compile_eq_ok_iff_read.mpr
    rw [hblocks, hdeclared]
    refine ⟨hfault, ?_, ?_⟩
    · intro hrange
      exact List.forall_mem_append.mpr ⟨hfits₁ hrange, hfits₂ hrange⟩
    · rw [ofBlocks_append, hcode₁, hcode₂, hp₁, hp₂]
      rfl
  · intro hnone e h₂
    obtain ⟨fault, hfault, rfl⟩ := compile_eq_error_iff.mp h₂
    rw [hp₁] at hnone
    obtain ⟨items, hread, hitems⟩ :=
      Script.exists_read_append_eq hfault₁ (List.length_eq_zero_iff.mp hnone) s₂
    have hfits : options.jumpRange = .checked → items.findSome? Item.oversized? = none := by
      intro hrange
      have hblocks : ∀ b ∈ (⟨items, none⟩ : Script).blocks, b.Fits := by
        rw [Script.blocks, hitems]
        exact hfits₁ hrange
      exact Script.oversized?_eq_none_iff.mpr hblocks
    apply compile_eq_error_iff.mpr
    refine ⟨fault, ?_, ?_⟩
    · rw [hread]
      exact ofScript_append_eq_error hfits hfault
    · rw [CompileError.map_map]
      apply CompileError.map_congr
      intro place hplace
      exact Location.within_append_newline (suffix_of_ofScript_read_eq_error hfault place hplace) s₁

theorem compile_append_of_variables_and_undefined :
    (∃ q₁ q₂ : Program, q₁.closed = .ofBlocks [.statement (.setCursor 255 0)] 1 ∧
      q₂.closed = .ofBlocks [.loop [.breakIfLast 120]] 1 ∧
      compile {} (Bytes.ofString "var n = 300; setcursor n, -1; // n" ++ ascii '\n' ::
          Bytes.ofString "var m = 'x'; loop \x7b breakiflast m; \x7d") =
        .ok (closed ⟨q₁.code ++ q₂.code, q₁.flags ∪ q₂.flags, q₁.declared + q₂.declared⟩)) ∧
      compile {} (Bytes.ofString "clear; # print y;\n" ++ ascii '\n' ::
          Bytes.ofString "print y;") =
        .error (.undefinedVariable "y" ⟨⟨3, 7⟩, "y;"⟩) := by
  constructor
  · have h₁ : compile {} (Bytes.ofString "var n = 300; setcursor n, -1; // n") =
        .ok (.ofBlocks [.statement (.setCursor 255 0)] 1) := by
      decide +kernel
    have h₂ : compile {} (Bytes.ofString "var m = 'x'; loop \x7b breakiflast m; \x7d") =
        .ok (.ofBlocks [.loop [.breakIfLast 120]] 1) := by
      decide +kernel
    obtain ⟨hboth, -⟩ := compile_append h₁
      (Bytes.ofString "var m = 'x'; loop \x7b breakiflast m; \x7d")
    obtain ⟨q₁, q₂, -, hq₁, -, hq₂, h⟩ := hboth _ h₂ (by decide +kernel) (by decide +kernel)
    refine ⟨q₁, q₂, hq₁.symm, hq₂.symm, ?_⟩
    rw [hq₁, hq₂] at h
    exact h
  · have h₁ : compile {} (Bytes.ofString "clear; # print y;\n") =
        .ok (.ofBlocks [.statement .clear] 0) := by
      decide +kernel
    obtain ⟨-, hfails⟩ := compile_append h₁ (Bytes.ofString "print y;")
    exact hfails rfl (.undefinedVariable "y" ⟨⟨1, 7⟩, "y;"⟩) (by decide +kernel)

end ConsoleScript
