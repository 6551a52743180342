import ConsoleScript.Proofs.Grammar.ClauseReading

/-!
# Where items come from

Each item of a script is read from a clause that stands somewhere in the source, whether
or not the script is read to its end.
-/

namespace ConsoleScript

open Grammar Bytes

variable {table : VariableTable} {done : Array Item} {s source : Bytes} {i : Item}
  {maxVariables : Nat}

/-- A clause stands at the place without trivia in front of it, and the item is what it
is read as. -/
def Item.IsReadAt (i : Item) (place : Bytes) : Prop :=
  place.skipTrivia = place ∧ ∃ (c : Clause) (table grown : VariableTable) (rest : Bytes),
    c.item? table place = some (i, grown) ∧ Renders c.tokens place rest

/-- A loop whose commands have the statements stands at the place, and its keyword with
nothing in front of it. -/
def IsLoopAt (place : Bytes) (body : List Statement) : Prop :=
  ∃ (commands : List (Command .loopBody)) (declared : List Variable) (behind rest : Bytes),
    place = Keyword.loop.word.bytes ++ behind ∧
      Renders (.mark .openBrace :: (commands.flatMap Command.tokens ++ [.mark .closeBrace]))
        behind rest ∧
      commands.mapM (Command.statement? declared) = some body

namespace Clause

variable {c : Clause} {grown : VariableTable} {place : Bytes}

theorem exists_of_item?_loop {loopPlace : Bytes} {body : List Statement}
    (h : c.item? table place = some (.loop loopPlace body, grown)) :
    loopPlace = place ∧ ∃ commands : List (Command .loopBody),
      c = .loop commands ∧
        commands.mapM (Command.statement? table.declared) = some body := by
  cases c with
  | remark text htext => cases h
  | declaration name literal =>
      obtain ⟨t, -, heq⟩ := Option.map_eq_some_iff.mp h
      cases heq
  | statement c =>
      obtain ⟨st, -, heq⟩ := Option.map_eq_some_iff.mp h
      cases heq
  | loop commands =>
      obtain ⟨statements, hbody, heq⟩ := Option.map_eq_some_iff.mp h
      cases heq
      exact ⟨rfl, commands, rfl, hbody⟩

theorem exists_of_item?_statement {st : Statement}
    (h : c.item? table place = some (.statement st, grown)) :
    ∃ command : Command .topLevel,
      c = .statement command ∧ command.statement? table.declared = some st := by
  cases c with
  | remark text htext => cases h
  | declaration name literal =>
      obtain ⟨t, -, heq⟩ := Option.map_eq_some_iff.mp h
      cases heq
  | loop commands =>
      obtain ⟨statements, -, heq⟩ := Option.map_eq_some_iff.mp h
      cases heq
  | statement command =>
      obtain ⟨st, hst, heq⟩ := Option.map_eq_some_iff.mp h
      cases heq
      exact ⟨command, rfl, hst⟩

end Clause

namespace Script

theorem exists_isReadAt_of_mem_readItems (h : i ∈ (readItems table done s).items) :
    i ∈ done.toList ∨ ∃ place, place <:+ s ∧ i.IsReadAt place := by
  fun_induction readItems table done s with
  | case1 => exact .inl h
  | case2 => exact .inl h
  | case3 table done s j grown rest hs ih =>
      obtain ⟨c, hitem, hc⟩ := Reader.run_item_eq_some_iff.mp hs
      rcases ih h with hdone | ⟨place, hplace, hread⟩
      · rw [Array.toList_push, List.mem_append, List.mem_singleton] at hdone
        rcases hdone with hdone | rfl
        · exact .inl hdone
        · exact .inr ⟨s.skipTrivia, skipTrivia_suffix s, skipTrivia_skipTrivia s, c,
            table, grown, rest, hitem, (renders_skipTrivia_iff c.tokens_ne_nil).mpr hc⟩
      · exact .inr ⟨place, hplace.trans hc.suffix, hread⟩

theorem exists_isReadAt_of_mem_items (h : i ∈ (readItems table #[] source).items) :
    ∃ place, place <:+ source ∧ i.IsReadAt place := by
  rcases exists_isReadAt_of_mem_readItems h with hdone | hplace
  · cases hdone
  · exact hplace

/-- A loop's place is a place of the source where it stands. -/
theorem isLoopAt_of_mem_items {place : Bytes} {body : List Statement}
    (h : .loop place body ∈ (readItems table #[] source).items) :
    place <:+ source ∧ IsLoopAt place body := by
  obtain ⟨place', hsuffix, hskip, c, table, grown, rest, hitem, hc⟩ :=
    exists_isReadAt_of_mem_items h
  obtain ⟨rfl, commands, rfl, hbody⟩ := Clause.exists_of_item?_loop hitem
  obtain ⟨behind, hleads, hrenders⟩ := hc
  have hplace := (Token.leads_iff.mp hleads).1
  rw [hskip] at hplace
  exact ⟨hsuffix, commands, table.declared, behind, rest, hplace, hrenders, hbody⟩

theorem statement?_ne_breakIfLast {declared : List Variable} (c : Command .topLevel)
    {value : UInt8} : c.statement? declared ≠ some (.breakIfLast value) := by
  cases c <;> simp [Command.statement?, Option.bind_eq_some_iff]

/-- No conditional break stands outside of a loop. -/
theorem ne_breakIfLast_of_mem_blocks {value : UInt8} :
    .statement (.breakIfLast value) ∉ (read maxVariables source).blocks := by
  intro h
  obtain ⟨i, hi, hblock⟩ := List.mem_flatMap.mp h
  obtain ⟨place, -, -, c, table, grown, rest, hitem, -⟩ := exists_isReadAt_of_mem_items hi
  cases i with
  | remark => cases hblock
  | declaration v => cases hblock
  | loop loopPlace body => cases List.mem_singleton.mp hblock
  | statement st =>
      cases List.mem_singleton.mp hblock
      obtain ⟨command, rfl, hst⟩ := Clause.exists_of_item?_statement hitem
      exact statement?_ne_breakIfLast command hst

end Script

end ConsoleScript
