import ConsoleScript.Proofs.Composition
import ConsoleScript.Proofs.Grammar.ClauseText
import ConsoleScript.Proofs.Source.Room

/-!
# Declaring a name again

The first declaration of a name is what it stands for. A name that is declared again, with a
constant of whatever kind, takes the room of one more variable, and nothing else changes.
-/

namespace ConsoleScript

open Grammar Bytes Program

theorem VariableTable.exists_find?_eq_some {table : VariableTable} {v : Variable}
    (h : v ∈ table.declared) : ∃ w, table.find? v.name = some w := by
  apply Option.isSome_iff_exists.mp
  rw [find?, Array.find?_isSome]
  exact ⟨v, Array.mem_toList_iff.mp h, beq_self_eq_true v.name⟩

namespace Script

variable {table : VariableTable} {name : Word} {literal : Literal} {text : Bytes}

/-- Behind a declaration on a line of its own, reading goes on with one more variable. -/
theorem readItems_declaration (hroom : table.isFull = false)
    (htext : Renders (Clause.declaration name literal).tokens text []) (q : Bytes) :
    readItems table #[] (text ++ ascii '\n' :: q) =
      ⟨[.declaration ⟨name.text, literal.value⟩] ++
          (readItems (table.push ⟨name.text, literal.value⟩) #[] q).items,
        (readItems (table.push ⟨name.text, literal.value⟩) #[] q).fault?⟩ := by
  have hitem := Reader.run_item_of_room hroom (htext.append_newline (u := q))
  have hbehind : skipTrivia (ascii '\n' :: q) = skipTrivia q :=
    skipTrivia_append_newline (.trivia .nil)
  rw [(ReadsItems.cons hitem .nil).readItems_eq_append, List.nil_append,
    readItems_eq_of_skipTrivia_eq hbehind]

/-- No loop is too long among items with the blocks of a source that compiles. -/
theorem findSome?_oversized?_eq_none {options : CompileOptions} {p : Bytes} {program : Program}
    {items : List Item} (hp : compile options p = .ok program)
    (hblocks : items.flatMap Item.blocks = (Script.read options.maxVariables p).blocks)
    (hrange : options.jumpRange = .checked) : items.findSome? Item.oversized? = none := by
  obtain ⟨-, hfits, -⟩ := compile_eq_ok_iff_read.mp hp
  have hitems : ∀ b ∈ (⟨items, none⟩ : Script).blocks, b.Fits := by
    rw [blocks, hblocks]
    exact hfits hrange
  exact oversized?_eq_none_iff.mpr hitems

end Script

variable {options : CompileOptions} {p text : Bytes} {program : Program} {name : Word}
  {literal : Literal}

section Append

variable {source : Bytes} {front : List Item} {script : Script}

theorem compile_eq_ok_of_read_eq_append {r : Program}
    (hread : Script.read options.maxVariables source = ⟨front ++ script.items, script.fault?⟩)
    (hfits : options.jumpRange = .checked → front.findSome? Item.oversized? = none)
    (h : ofScript options.jumpRange script = .ok r) :
    compile options source = .ok (ofBlocks (front.flatMap Item.blocks ++ script.blocks)
      ((front.flatMap Item.declarations).length + script.declarations.length)) := by
  rw [compile, hread, ofScript_append_eq_ok hfits h]
  rfl

theorem compile_eq_error_of_read_eq_append {e : Fault}
    (hread : Script.read options.maxVariables source = ⟨front ++ script.items, script.fault?⟩)
    (hfits : options.jumpRange = .checked → front.findSome? Item.oversized? = none)
    (h : ofScript options.jumpRange script = .error e) :
    compile options source = .error (e.map (.within source)) := by
  rw [compile, hread, ofScript_append_eq_error hfits h]
  rfl

end Append

/-- A table that has a name of a source's declarations knows the name. -/
theorem exists_find?_eq_some_of_names_eq {table : VariableTable}
    (hnames : table.declared.map Variable.name =
      (Script.read options.maxVariables p).declarations.map Variable.name)
    (hname : ∃ v ∈ (Script.read options.maxVariables p).declarations, v.name = name.text) :
    ∃ w, table.find? name.text = some w := by
  obtain ⟨v, hv, hname⟩ := hname
  obtain ⟨u, hu, huv⟩ : ∃ u ∈ table.declared, u.name = v.name := by
    apply List.mem_map.mp
    rw [hnames]
    exact List.mem_map_of_mem hv
  rw [← hname, ← huv]
  exact VariableTable.exists_find?_eq_some hu

/-- Behind a source and a second declaration of one of its names, reading goes on with a
tighter table than behind the source, if there is room for the declaration. -/
theorem exists_reads_redeclared (hp : compile options p = .ok program)
    (hname : ∃ v ∈ (Script.read options.maxVariables p).declarations, v.name = name.text)
    (htext : Renders (Clause.declaration name literal).tokens text []) (q : Bytes)
    (hroom : ∀ limit l, compile options (p ++ ascii '\n' :: (text ++ ascii '\n' :: q)) ≠
      .error (.tooManyVariables limit l)) :
    ∃ (front front' : List Item) (table table' : VariableTable),
      table'.IsTighter table ∧
      Script.read options.maxVariables (p ++ ascii '\n' :: q) =
        ⟨front ++ (Script.readItems table #[] q).items,
          (Script.readItems table #[] q).fault?⟩ ∧
      Script.read options.maxVariables (p ++ ascii '\n' :: (text ++ ascii '\n' :: q)) =
        ⟨front' ++ (Script.readItems table' #[] q).items,
          (Script.readItems table' #[] q).fault?⟩ ∧
      front.flatMap Item.blocks = (Script.read options.maxVariables p).blocks ∧
      front'.flatMap Item.blocks = (Script.read options.maxVariables p).blocks ∧
      (front'.flatMap Item.declarations).length =
        (front.flatMap Item.declarations).length + 1 := by
  obtain ⟨hfault, -, -⟩ := compile_eq_ok_iff_read.mp hp
  obtain ⟨table, -, hnames, hreads⟩ := Script.exists_read_append_eq_readItems hfault
  obtain ⟨front, hread, hblocks, hlength⟩ := hreads q
  obtain ⟨front', hread', hblocks', hlength'⟩ := hreads (text ++ ascii '\n' :: q)
  have hnotFull : table.isFull = false := by
    by_contra hfull
    obtain ⟨place, hopens⟩ := Reader.opensDeclaration_of_renders (htext.append_newline (u := q))
    have hstops := Script.ReadsItems.nil.readItems_of_full (by simpa using hfull) hopens
    refine hroom table.capacity _ (compile_eq_error_of_read_eq_append
      (e := .tooManyVariables table.capacity place) hread'
      (Script.findSome?_oversized?_eq_none hp hblocks') ?_)
    rw [hstops]
    rfl
  obtain ⟨w, hw⟩ := exists_find?_eq_some_of_names_eq hnames hname
  rw [Script.readItems_declaration hnotFull htext, ← List.append_assoc] at hread'
  refine ⟨front, front' ++ [.declaration ⟨name.text, literal.value⟩], table,
    table.push ⟨name.text, literal.value⟩, VariableTable.isTighter_of_find?_eq_some hw, hread,
    hread', hblocks, ?_, ?_⟩
  · rw [List.flatMap_append, hblocks']
    exact List.append_nil _
  · rw [List.flatMap_append, List.length_append, hlength', hlength]
    rfl

/-- A text on lines of its own moves the places behind it down by its lines. -/
theorem map_within_append {e : Fault} {q : Bytes} (h : ∀ place ∈ e.place?, place <:+ q)
    (p text : Bytes) :
    e.map (Location.within (p ++ ascii '\n' :: (text ++ ascii '\n' :: q))) =
      (e.map (Location.within (p ++ ascii '\n' :: q))).map fun l =>
        { l with line := l.line + (1 + text.count (ascii '\n')) } := by
  rw [CompileError.map_map]
  apply CompileError.map_congr
  intro place hplace
  have hq : place <:+ q := h place hplace
  have htext : place <:+ text ++ ascii '\n' :: q :=
    (hq.trans (List.suffix_cons _ q)).trans (List.suffix_append text _)
  rw [Function.comp_apply, Location.within_append_newline htext,
    Location.within_append_newline hq, Location.within_append_newline hq, Nat.add_right_comm]

/-- A declaration on lines of its own, of a name that the source in front of it declares, only
counts as one more variable. It moves what is behind it down by its lines. -/
theorem compile_redeclared (hp : compile options p = .ok program)
    (hname : ∃ v ∈ (Script.read options.maxVariables p).declarations, v.name = name.text)
    (htext : Renders (Clause.declaration name literal).tokens text []) (q : Bytes)
    (hroom : ∀ limit l, compile options (p ++ ascii '\n' :: (text ++ ascii '\n' :: q)) ≠
      .error (.tooManyVariables limit l)) :
    (∃ r, compile options (p ++ ascii '\n' :: q) = .ok r ∧
      compile options (p ++ ascii '\n' :: (text ++ ascii '\n' :: q)) =
        .ok { r with declared := r.declared + 1 }) ∨
    ∃ e, compile options (p ++ ascii '\n' :: q) = .error e ∧
      compile options (p ++ ascii '\n' :: (text ++ ascii '\n' :: q)) = .error (e.map fun l =>
        { l with line := l.line + (1 + text.count (ascii '\n')) }) := by
  obtain ⟨front, front', table, table', htighter, hread, hread', hblocks, hblocks', hlength⟩ :=
    exists_reads_redeclared hp hname htext q hroom
  have hfits := Script.findSome?_oversized?_eq_none hp hblocks
  have hfits' := Script.findSome?_oversized?_eq_none hp hblocks'
  have hboth : ∀ e, ofScript options.jumpRange (Script.readItems table' #[] q) = .error e →
      ofScript options.jumpRange (Script.readItems table #[] q) = .error e →
      ∃ e, compile options (p ++ ascii '\n' :: q) = .error e ∧
        compile options (p ++ ascii '\n' :: (text ++ ascii '\n' :: q)) = .error (e.map fun l =>
          { l with line := l.line + (1 + text.count (ascii '\n')) }) := by
    intro e he' he
    refine ⟨_, compile_eq_error_of_read_eq_append hread hfits he, ?_⟩
    rw [← map_within_append (suffix_of_ofScript_readItems_eq_error he)]
    exact compile_eq_error_of_read_eq_append hread' hfits' he'
  have hnoStop : ∀ limit place, ofScript options.jumpRange (Script.readItems table' #[] q) ≠
      .error (.tooManyVariables limit place) := by
    intro limit place hstops
    exact hroom limit _ (compile_eq_error_of_read_eq_append hread' hfits' hstops)
  rcases Script.ofScript_readItems_of_isTighter htighter hnoStop with heq | ⟨e, he', he⟩
  · cases hscript : ofScript options.jumpRange (Script.readItems table' #[] q) with
    | error e => exact .inr (hboth e hscript (by rw [heq, hscript]))
    | ok r =>
        have hcompile := compile_eq_ok_of_read_eq_append hread hfits (by rw [heq, hscript])
        have hcompile' := compile_eq_ok_of_read_eq_append hread' hfits' hscript
        refine .inl ⟨_, hcompile, ?_⟩
        rw [hcompile', hblocks', ← hblocks, hlength, Nat.add_right_comm, heq]
        rfl
  · exact .inr (hboth e he' he)

/-- A source that compiles and declares a name, and behind it, on a line of its own, a second
declaration of the name, with whatever literal. What stands behind that compiles as without
the second declaration, with one more variable, or is refused for the same with a location
that is only further down, unless there is no room for a variable. Names are the same if
their first bytes are. -/
theorem compile_declarationText (hp : compile options p = .ok program)
    (hname : ∃ v ∈ (Script.read options.maxVariables p).declarations, v.name = name.text)
    (literal : Literal) (q : Bytes)
    (hroom : ∀ limit l, compile options
      (p ++ ascii '\n' :: (declarationText name literal ++ ascii '\n' :: q)) ≠
        .error (.tooManyVariables limit l)) :
    (∃ r, compile options (p ++ ascii '\n' :: q) = .ok r ∧
      compile options (p ++ ascii '\n' :: (declarationText name literal ++ ascii '\n' :: q)) =
        .ok { r with declared := r.declared + 1 }) ∨
    ∃ e, compile options (p ++ ascii '\n' :: q) = .error e ∧
      compile options (p ++ ascii '\n' :: (declarationText name literal ++ ascii '\n' :: q)) =
        .error (e.map fun l => { l with
          line := l.line + (1 + (declarationText name literal).count (ascii '\n')) }) :=
  compile_redeclared hp hname (renders_declarationText name literal) q hroom

theorem compile_declarationText_of_string :
    compile {} (ofString "var n = 1;\nvar n = \"\";\nsetcursor n, 0;") =
        .ok (.ofBlocks [.statement (.setCursor 1 0)] 2) ∧
      compile {} (ofString "var n = 1;\nvar n = \"\";\nprint n;") =
        .error (.wrongKind "n" .string ⟨⟨3, 7⟩, "n;"⟩) := by
  have hp : compile {} (ofString "var n = 1;") = .ok (.ofBlocks [] 1) := by
    decide +kernel
  have hname : ∃ v ∈ (Script.read 512 (ofString "var n = 1;")).declarations,
      v.name = (⟨ofString "n", by decide, by decide +kernel⟩ : Word).text := by
    decide +kernel
  have happly := compile_declarationText hp hname (.string ⟨[], by simp⟩)
  constructor
  · have hbehind : compile {} (ofString "var n = 1;\nsetcursor n, 0;") =
        .ok (.ofBlocks [.statement (.setCursor 1 0)] 1) := by
      decide +kernel
    have hredeclared : compile {} (ofString "var n = 1;\nvar n = \"\";\nsetcursor n, 0;") =
        .ok (.ofBlocks [.statement (.setCursor 1 0)] 2) := by
      decide +kernel
    rcases happly (ofString "setcursor n, 0;") (fun _ _ h => nomatch hredeclared.symm.trans h) with
      ⟨r, hr, h⟩ | ⟨e, he, -⟩
    · cases hbehind.symm.trans hr
      exact h
    · cases hbehind.symm.trans he
  · have hbehind : compile {} (ofString "var n = 1;\nprint n;") =
        .error (.wrongKind "n" .string ⟨⟨2, 7⟩, "n;"⟩) := by
      decide +kernel
    have hredeclared : compile {} (ofString "var n = 1;\nvar n = \"\";\nprint n;") =
        .error (.wrongKind "n" .string ⟨⟨3, 7⟩, "n;"⟩) := by
      decide +kernel
    rcases happly (ofString "print n;") (fun _ _ h => nomatch hredeclared.symm.trans h) with
      ⟨r, hr, -⟩ | ⟨e, he, h⟩
    · cases hbehind.symm.trans hr
    · cases hbehind.symm.trans he
      exact h

end ConsoleScript
