import ConsoleScript.Proofs.Grammar.ClauseText
import ConsoleScript.Proofs.Source.Room

/-!
# Names that are declared

A name stands for the constant of its first declaration, in all items behind that. Where a
string is read, each name is read as such. Where an integer is read, a name that starts with a
digit is not: its digits are read as a literal, and what is behind them is left.

## Implementation notes

A name may stand for another one that has the same first bytes, so declarations and uses are
compared by their texts, but read with all their bytes.
-/

namespace ConsoleScript

open Grammar Bytes

namespace VariableTable

variable {table grown : VariableTable} {name : String} {v : Variable}

theorem find?_eq_find?_declared (table : VariableTable) (name : String) :
    table.find? name = table.declared.find? (·.name == name) :=
  Array.find?_toList.symm

/-- A name keeps its meaning in a table with more variables. -/
theorem find?_of_declared_eq_append {later : List Variable}
    (h : grown.declared = table.declared ++ later) (hfind : table.find? name = some v) :
    grown.find? name = some v := by
  rw [find?_eq_find?_declared] at hfind ⊢
  rw [h, List.find?_append, hfind]
  rfl

/-- A name that is declared for the first time stands for the constant. -/
theorem find?_push_of_eq_none (h : table.find? v.name = none) :
    (table.push v).find? v.name = some v.stored := by
  rw [find?_push, h, if_pos rfl]
  rfl

end VariableTable

namespace Script

variable {table grown : VariableTable} {s t rest : Bytes} {kind : ValueKind} {name : String}
  {v : Variable} {items : List Item} {capacity : Nat}

/-- A name keeps its meaning in all items behind. -/
theorem ReadsOperand.find?_eq_some (h : ReadsOperand table s grown kind t)
    (hfind : table.find? name = some v) : grown.find? name = some v := by
  induction h with
  | statement => exact hfind
  | loop => exact hfind
  | behind hitem _ ih =>
      exact ih (VariableTable.find?_of_declared_eq_append (declared_of_run_item hitem) hfind)

/-- A name that no item declares has no meaning behind the items. -/
theorem ReadsItems.find?_eq_none (h : ReadsItems { capacity := capacity } s items grown rest)
    (hname : ∀ v ∈ items.flatMap Item.declarations, v.name ≠ name) : grown.find? name = none := by
  have hdeclared : grown.declared = (items.flatMap Item.declarations).map Variable.stored :=
    h.declared_eq
  rw [VariableTable.find?_eq_find?_declared, hdeclared, List.find?_eq_none]
  intro v hv heq
  obtain ⟨u, hu, rfl⟩ := List.mem_map.mp hv
  exact hname u hu (beq_iff_eq.mp heq)

end Script

theorem isNameByte_of_isDigit {b : UInt8} (h : isDigit b = true) : isNameByte b = true := by
  rw [isNameByte, h, Bool.or_true, Bool.true_or]

namespace Reader

variable {table : VariableTable} {w : Word} {literal : Literal} {i : Item}
  {after : VariableTable} {s t rest back : Bytes}

/-- The item that a declaration is read as, and the table behind it. -/
theorem eq_of_run_item_declaration (h : Renders (Clause.declaration w literal).tokens s rest)
    (hitem : (item table).run s = .ok (some (i, after)) rest) :
    i = .declaration ⟨w.text, literal.value⟩ ∧ after = table.push ⟨w.text, literal.value⟩ := by
  cases hfull : table.isFull with
  | true =>
      obtain ⟨place, hopens⟩ := opensDeclaration_of_renders h
      rw [run_item_of_full hfull hopens] at hitem
      cases hitem
  | false =>
      rw [run_item_of_room hfull h] at hitem
      cases hitem
      exact ⟨rfl, rfl⟩

/-- Where an integer is read and a name of one stands that starts with no digit. -/
theorem run_intOperand_of_name {n : Int32} (hw : ∀ b ∈ w.bytes.head?, isDigit b = false)
    (hfind : table.find? w.text = some ⟨w.text, .int n⟩) (h : (Token.word w).Leads t back) :
    (intOperand table).run t = .ok n back := by
  apply run_intOperand_eq_ok_iff.mpr
  refine ⟨.name w hw, ?_, h⟩
  rw [IntOperand.value?, ← table.find?_text w, hfind]
  rfl

/-- Where a string is read and a name of one stands. -/
theorem run_stringOperand_of_name {v : Bytes}
    (hfind : table.find? w.text = some ⟨w.text, .string v⟩) (h : (Token.word w).Leads t back) :
    (stringOperand table).run t = .ok v back := by
  apply run_stringOperand_eq_ok_iff.mpr
  refine ⟨.name w, ?_, h⟩
  rw [StringOperand.value?, ← table.find?_text w, hfind]
  rfl

/-- Where an integer is read and a name stands that starts with a digit, the digits are read
as a literal. -/
theorem run_intOperand_of_digits {b : UInt8} (hb : w.bytes.head? = some b)
    (hdigit : isDigit b = true) (h : (Token.word w).Leads t back) :
    ∃ l : IntLiteral, l.spelling = w.bytes.takeWhile isDigit ∧
      (intOperand table).run t = .ok l.value (w.bytes.dropWhile isDigit ++ back) := by
  obtain ⟨hskip, hback⟩ := Token.leads_iff.mp h
  have hdigits : w.bytes.takeWhile isDigit ≠ [] := by
    obtain ⟨u, hu⟩ := List.head?_eq_some_iff.mp hb
    rw [hu, List.takeWhile_cons_of_pos hdigit]
    exact List.cons_ne_nil _ _
  refine ⟨⟨false, w.bytes.takeWhile isDigit, hdigits, fun _ => List.mem_takeWhile_imp⟩, rfl, ?_⟩
  apply run_intOperand_eq_ok_iff.mpr
  refine ⟨.literal _, rfl, Token.leads_iff.mpr ⟨?_, ?_⟩⟩
  · show _ = w.bytes.takeWhile isDigit ++ (w.bytes.dropWhile isDigit ++ back)
    rw [hskip, ← List.append_assoc, List.takeWhile_append_dropWhile]
    rfl
  · -- What is behind the digits is another byte of the name, or no byte of it.
    intro c hc hextends
    cases hdrop : w.bytes.dropWhile isDigit with
    | nil =>
        rw [hdrop] at hc
        exact hback c hc (isNameByte_of_isDigit hextends)
    | cons d u =>
        have hstop := List.head?_dropWhile_not isDigit w.bytes
        rw [hdrop] at hstop hc
        cases hc
        exact Bool.false_ne_true (hstop.symm.trans hextends)

end Reader

/-- A declaration in a script that is the first one of its name, and the operands that are read
behind it, of statements, in loops or out of them, where its name stands. A string is read as
the constant up to its first zero, and an integer as the constant if the name starts with no
digit, and the name is all that is taken. A name that starts with a digit is not looked up
where an integer is read: its first digits are taken as a literal, and the others of its bytes
are left. -/
theorem operands_of_declared_name {capacity : Nat} {source u rest : Bytes} {front : List Item}
    {before after : VariableTable} {w : Word} {literal : Literal} {i : Item}
    (hfront : Script.ReadsItems { capacity := capacity } source front before u)
    (hfirst : ∀ v ∈ front.flatMap Item.declarations, v.name ≠ w.text)
    (hrenders : Renders (Clause.declaration w literal).tokens u rest)
    (hitem : (Reader.item before).run u = .ok (some (i, after)) rest) :
    (∀ table t back, Script.ReadsOperand after rest table .int t → (Token.word w).Leads t back →
      ((∀ b ∈ w.bytes.head?, isDigit b = false) →
        ∀ n, literal.value = .int n → (Reader.intOperand table).run t = .ok n back) ∧
      ∀ b ∈ w.bytes.head?, isDigit b = true →
        ∃ l : IntLiteral, l.spelling = w.bytes.takeWhile isDigit ∧
          (Reader.intOperand table).run t = .ok l.value (w.bytes.dropWhile isDigit ++ back)) ∧
    ∀ table t back, Script.ReadsOperand after rest table .string t →
      (Token.word w).Leads t back →
        ∀ v, literal.value = .string v →
          (Reader.stringOperand table).run t = .ok (v.takeWhile (· != 0)) back := by
  obtain ⟨-, rfl⟩ := Reader.eq_of_run_item_declaration hrenders hitem
  have hmeaning : (before.push ⟨w.text, literal.value⟩).find? w.text =
      some ⟨w.text, literal.value.stored⟩ :=
    VariableTable.find?_push_of_eq_none (hfront.find?_eq_none hfirst)
  constructor
  · intro table t back hreads hleads
    refine ⟨fun hw n hn => ?_, fun b hb hdigit =>
      Reader.run_intOperand_of_digits hb hdigit hleads⟩
    have hfind := hreads.find?_eq_some hmeaning
    rw [hn] at hfind
    exact Reader.run_intOperand_of_name hw hfind hleads
  · intro table t back hreads hleads v hv
    have hfind := hreads.find?_eq_some hmeaning
    rw [hv] at hfind
    exact Reader.run_stringOperand_of_name hfind hleads

theorem operands_of_declared_name_of_coordinate_and_text :
    (Reader.intOperand ⟨#[⟨"n", .int 7⟩], 512⟩).run (ofString " n;") = .ok 7 (ofString ";") ∧
      (Reader.stringOperand ⟨#[⟨"1s", .string [120]⟩], 512⟩).run (ofString " 1s;") =
        .ok [120] (ofString ";") := by
  have hsemicolon : ¬isNameByte (ascii ';') = true := by decide
  constructor
  · have hrenders : Renders (Clause.declaration ⟨ofString "n", by decide, by decide +kernel⟩
        (.integer ⟨false, ofString "7", by decide, by decide +kernel⟩)).tokens
        (ofString "var n = 7;\nsetcursor 1, n;") (ofString "\nsetcursor 1, n;") :=
      (renders_declarationText _ _).append_newline
    have hitem : (Reader.item { capacity := 512 }).run (ofString "var n = 7;\nsetcursor 1, n;") =
        .ok (some (.declaration ⟨"n", .int 7⟩, ⟨#[⟨"n", .int 7⟩], 512⟩))
          (ofString "\nsetcursor 1, n;") := by
      decide +kernel
    have hname : (Reader.requiredName "Expected identifier").run (ofString "\nsetcursor 1, n;") =
        .ok "setcursor" (ofString " 1, n;") := by
      decide +kernel
    have hx : (Reader.intOperand ⟨#[⟨"n", .int 7⟩], 512⟩).run (ofString " 1, n;") =
        .ok 1 (ofString ", n;") := by
      decide +kernel
    have hcomma : (Reader.eat (ascii ',')).run (ofString ", n;") = .ok true (ofString " n;") := by
      decide +kernel
    obtain ⟨hint, -⟩ := operands_of_declared_name .nil (fun _ hv => nomatch hv) hrenders hitem
    obtain ⟨hlooked, -⟩ := hint ⟨#[⟨"n", .int 7⟩], 512⟩ (ofString " n;") (ofString ";")
      (.statement hname (.y hx hcomma)) (Token.leads_blank_cons hsemicolon)
    exact hlooked (by decide +kernel) 7 (by decide +kernel)
  · have hrenders : Renders (Clause.declaration ⟨ofString "1s", by decide, by decide +kernel⟩
        (.string ⟨[.plain (ascii 'x') (by decide)], by decide⟩)).tokens
        (ofString "var 1s = \"x\";\nprint 1s;") (ofString "\nprint 1s;") :=
      (renders_declarationText _ _).append_newline
    have hitem : (Reader.item { capacity := 512 }).run (ofString "var 1s = \"x\";\nprint 1s;") =
        .ok (some (.declaration ⟨"1s", .string [120]⟩, ⟨#[⟨"1s", .string [120]⟩], 512⟩))
          (ofString "\nprint 1s;") := by
      decide +kernel
    have hname : (Reader.requiredName "Expected identifier").run (ofString "\nprint 1s;") =
        .ok "print" (ofString " 1s;") := by
      decide +kernel
    obtain ⟨-, hstring⟩ := operands_of_declared_name .nil (fun _ hv => nomatch hv) hrenders hitem
    exact hstring ⟨#[⟨"1s", .string [120]⟩], 512⟩ (ofString " 1s;") (ofString ";")
      (.statement hname .print) (Token.leads_blank_cons hsemicolon) [120] rfl

/-- A name that starts with a digit does not stand for its constant where an integer is read. -/
theorem digits_in_front_of_declared_name :
    compile {} (ofString "var 9 = 5; setcursor 9, 0;") =
        .ok (.ofBlocks [.statement (.setCursor 9 0)] 1) ∧
      ¬∀ (source u rest t back : Bytes) (front : List Item) (before after table : VariableTable)
        (w : Word) (literal : Literal) (i : Item) (n : Int32),
        Script.ReadsItems {} source front before u →
        (∀ v ∈ front.flatMap Item.declarations, v.name ≠ w.text) →
        Renders (Clause.declaration w literal).tokens u rest →
        (Reader.item before).run u = .ok (some (i, after)) rest →
        literal.value = .int n → Script.ReadsOperand after rest table .int t →
        (Token.word w).Leads t back → (Reader.intOperand table).run t = .ok n back := by
  refine ⟨by decide +kernel, fun h => ?_⟩
  have hcomma : ¬isNameByte (ascii ',') = true := by decide
  have hname : (Reader.requiredName "Expected identifier").run (ofString "\nsetcursor 9, 0;") =
      .ok "setcursor" (ofString " 9, 0;") := by
    decide +kernel
  have hdigits : (Reader.intOperand ⟨#[⟨"9", .int 5⟩], 512⟩).run (ofString " 9, 0;") =
      .ok 9 (ofString ", 0;") := by
    decide +kernel
  have hconstant := h _ _ _ (ofString " 9, 0;") (ofString ", 0;") [] {} _
    ⟨#[⟨"9", .int 5⟩], 512⟩ ⟨ofString "9", by decide, by decide +kernel⟩
    (.integer ⟨false, ofString "5", by decide, by decide +kernel⟩) _ 5 .nil (fun _ hv => nomatch hv)
    ((renders_declarationText _ _).append_newline (u := ofString "setcursor 9, 0;"))
    (Reader.run_item_of_room rfl ((renders_declarationText _ _).append_newline))
    (by decide +kernel) (.statement hname .x) (Token.leads_blank_cons hcomma)
  rw [hdigits] at hconstant
  cases hconstant

end ConsoleScript
