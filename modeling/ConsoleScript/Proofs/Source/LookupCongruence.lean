import ConsoleScript.Proofs.Source.Fault
import ConsoleScript.Proofs.Source.Lookup

/-!
# What readers see of a table

Operands, statements and the bodies of loops are read with a table of variables. All that
they see of it is what names stand for, so tables that tell the same of each name are as good
as each other.
-/

namespace ConsoleScript

open Bytes

namespace Reader

variable {α : Type} {table table' : VariableTable} {s : Bytes} {place : Bytes} {keyword : String}

/-! ### Operands and statements -/

theorem constant_congr (h : table'.find? = table.find?) (kind : ValueKind)
    (select : Value → Option α) (expectation : String) :
    constant table' kind select expectation = constant table kind select expectation := by
  unfold constant
  rw [h]

theorem stringOperand_congr (h : table'.find? = table.find?) :
    stringOperand table' = stringOperand table := by
  unfold stringOperand
  rw [constant_congr h]

theorem intOperand_congr (h : table'.find? = table.find?) :
    intOperand table' = intOperand table := by
  unfold intOperand
  rw [constant_congr h]

theorem statement_congr (h : table'.find? = table.find?) (scope : Scope) (place : Bytes)
    (keyword : String) :
    statement table' scope place keyword = statement table scope place keyword := by
  unfold statement operandsOf setCursorOperands writeFileOperands breakIfLastOperand
  rw [stringOperand_congr h, intOperand_congr h]

/-! ### Loops -/

theorem bodyStatement_congr (h : table'.find? = table.find?) :
    bodyStatement table' = bodyStatement table := by
  unfold bodyStatement
  simp only [statement_congr h]

theorem bodyStatements_of_nil (table : VariableTable) (done : Array Statement)
    (h : s.skipTrivia = []) :
    bodyStatements table done s =
      .error (.malformed "Unexpected end of input in loop body" []) [] := by
  rw [bodyStatements]
  split
  case h_1 => rfl
  case h_2 hs =>
    rw [h] at hs
    cases hs

theorem bodyStatements_congr (h : table'.find? = table.find?) (done : Array Statement)
    (s : Bytes) : bodyStatements table' done s = bodyStatements table done s := by
  fun_induction bodyStatements table done s with
  | case1 done s hs => exact bodyStatements_of_nil table' done hs
  | case2 done s t hs =>
      exact bodyStatements_of_brace (Grammar.Token.leads_iff.mpr ⟨hs, fun _ _ => id⟩)
  | case3 done s b t hs hb e rest hr =>
      rw [bodyStatements_of_cons done hs hb, bodyStatement_congr h, hs, hr]
  | case4 done s b t hs hb st rest hr ih =>
      rw [bodyStatements_of_cons done hs hb, bodyStatement_congr h, hs, hr]
      exact ih

theorem loopBody_congr (h : table'.find? = table.find?) : loopBody table' = loopBody table := by
  unfold loopBody
  rw [funext (bodyStatements_congr h #[])]

/-! ### Items -/

/-- Behind a keyword that declares nothing, an item is read the same with each table that has
the same look-ups, and the table stays as it is. -/
theorem exists_keywordItem_eq_map (table : VariableTable) (place : Bytes)
    (hkeyword : keyword ≠ "var") :
    ∃ r : Reader Item, ∀ table', table'.find? = table.find? →
      keywordItem table' place keyword = (·, table') <$> r := by
  by_cases hloop : keyword = "loop"
  · refine ⟨.loop place <$> loopBody table, fun table' h => ?_⟩
    rw [hloop, keywordItem, loopBody_congr h, Functor.map_map]
    rfl
  · refine ⟨.statement <$> statement table .topLevel place keyword, fun table' h => ?_⟩
    rw [Functor.map_map, ← statement_congr h]
    unfold keywordItem
    split
    · exact absurd rfl hkeyword
    · exact absurd rfl hloop
    · rfl

/-- Where no item ends and none starts with a name, the item fails as its name does. -/
theorem run_item_of_name_error {b : UInt8} {u rest : Bytes} {e : Fault} (table : VariableTable)
    (hskip : s.skipTrivia = b :: u) (hb : b ≠ ascii '#')
    (h : (requiredName "Expected identifier").run s = .error e rest) :
    (item table).run s = .error e rest := by
  have hname : (requiredName "Expected identifier").run s.skipTrivia = .error e rest :=
    (ignoresTrivia_requiredName _ _ _ (Grammar.skipTrivia_skipTrivia s)).trans h
  have hnamed : (namedItem table).run s.skipTrivia = .error e rest :=
    run_bind_eq_error_iff.mpr (.inr ⟨_, _, rfl, run_bind_eq_error_iff.mpr (.inl hname)⟩)
  rw [run_item_of_ne (by rw [hskip]; rfl) hb, map_eq_pure_bind]
  exact run_bind_eq_error_iff.mpr (.inl hnamed)

/-- What is no declaration is read the same with each table that has the same look-ups, and
the table stays as it is. -/
theorem exists_run_item_eq_map (table : VariableTable)
    (hvar : ∀ t, (requiredName "Expected identifier").run s ≠ .ok "var" t) :
    ∃ r : Reader (Option Item), ∀ table', table'.find? = table.find? →
      (item table').run s = (Option.map (·, table') <$> r).run s := by
  cases hskip : s.skipTrivia with
  | nil => exact ⟨fun _ => .ok none [], fun table' _ => run_item_of_nil hskip⟩
  | cons b u =>
      by_cases hb : b = ascii '#'
      · have hsign : s.skipTrivia.head? = some (ascii '#') := by rw [hskip, hb]; rfl
        exact ⟨fun _ => .ok (some .remark) s.skipTrivia.skipLine,
          fun table' _ => run_item_of_sign hsign⟩
      · cases hname : (requiredName "Expected identifier").run s with
        | error e rest =>
            exact ⟨fun _ => .error e rest, fun table' _ =>
              run_item_of_name_error table' hskip hb hname⟩
        | ok keyword t =>
            have hkeyword : keyword ≠ "var" := by
              rintro rfl
              exact hvar t hname
            obtain ⟨r, hr⟩ := exists_keywordItem_eq_map table s.skipTrivia hkeyword
            refine ⟨fun _ => (some <$> r).run t, fun table' h => ?_⟩
            rw [run_item_of_name hname, hr table' h, Functor.map_map]
            show _ = (Option.map (·, table') <$> some <$> r).run t
            rw [Functor.map_map]
            rfl

end Reader

end ConsoleScript
