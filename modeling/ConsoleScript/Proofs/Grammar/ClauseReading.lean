import ConsoleScript.Proofs.Grammar.CommandReading
import ConsoleScript.Script.Basic

/-!
# Reading clauses

Reading an item with the table of variables succeeds exactly on the renderings of the
clauses that have a meaning behind the table's declarations and for which it has room.
-/

namespace ConsoleScript

open Grammar Bytes

namespace Grammar

/-- A word that is told apart as a keyword is this keyword. -/
theorem Keyword.eq_word_of_text {w : Word} {k : Keyword} (h : w.text = k.text) :
    w = k.word := by
  rw [← k.text_word, Word.text, Word.text, toText_inj,
    List.take_of_length_le k.length_word_lt.le] at h
  have hlength : w.bytes.length ≤ Reader.nameLength := by
    by_contra hlt
    have hk := k.length_word_lt
    rw [← h, List.length_take, Nat.min_eq_left (Nat.le_of_not_le hlt)] at hk
    exact Nat.lt_irrefl _ hk
  rw [List.take_of_length_le hlength] at h
  cases w
  cases hk : k.word
  rw [hk] at h
  cases h
  rfl

theorem Renders.exists_cons_of_word {w : Word} {ts : List Token} {s rest : Bytes}
    (h : Renders (.word w :: ts) s rest) :
    ∃ b t, s.skipTrivia = b :: t ∧ isNameByte b = true := by
  obtain ⟨u, hleads, -⟩ := h
  obtain ⟨b, v, hw, hb⟩ := w.exists_cons
  refine ⟨b, v ++ u, ?_, hb⟩
  rw [(Token.leads_iff.mp hleads).1, Token.spelling, hw, List.cons_append]

theorem toOption_eq_some_iff {ε α : Type} {r : Except ε α} {a : α} :
    r.toOption = some a ↔ r = .ok a := by
  cases r <;> simp [Except.toOption]

/-- The word that a clause starts with, if it is no remark. -/
def Clause.keyword? : Clause → Option Keyword
  | remark .. => none
  | declaration .. => some .var
  | statement c => some c.keyword
  | loop _ => some .loop

theorem Clause.tokens_of_keyword? {c : Clause} {k : Keyword} (h : c.keyword? = some k) :
    c.tokens = .word k.word :: c.tokens.tail := by
  cases c <;> cases h <;> rfl

/-- The item that a clause is read as at a place, and the table of variables behind it. -/
def Clause.item? (table : VariableTable) (place : Bytes) :
    Clause → Option (Item × VariableTable)
  | remark .. => some (.remark, table)
  | declaration name literal =>
    (table.declare ⟨name.text, literal.value⟩).toOption.map fun grown =>
      (.declaration ⟨name.text, literal.value⟩, grown)
  | statement c => (c.statement? table.declared).map fun s => (.statement s, table)
  | loop body =>
    (body.mapM (Command.statement? table.declared)).map fun statements =>
      (.loop place statements, table)

end Grammar

namespace Reader

variable {α : Type} {s t rest : Bytes} {table grown : VariableTable} {b : UInt8}

/-! ### Declarations -/

theorem run_value_eq_ok_iff {v : Value} :
    value.run s = .ok v rest ↔ ∃ l : Literal, l.value = v ∧ l.token.Leads s rest := by
  have hvalue : value.run s =
      (if s.skipTrivia.head? = some (ascii '"') then .string <$> string
        else if s.skipTrivia.head? = some (ascii '\'') then
          (fun c => .int c.toUInt32.toInt32) <$> char
        else .int <$> integer : Reader Value).run s.skipTrivia := rfl
  rw [hvalue]
  constructor
  · intro h
    split at h
    · obtain ⟨v, hv, rfl⟩ := run_map_eq_ok_iff.mp h
      obtain ⟨l, rfl, hleads⟩ := run_string_eq_ok_iff.mp hv
      exact ⟨.string l, rfl, Token.leads_skipTrivia_iff.mp hleads⟩
    · split at h
      · obtain ⟨c, hc, rfl⟩ := run_map_eq_ok_iff.mp h
        obtain ⟨u, rfl, hleads⟩ := run_char_eq_ok_iff.mp hc
        exact ⟨.char u, rfl, Token.leads_skipTrivia_iff.mp hleads⟩
      · obtain ⟨n, hn, rfl⟩ := run_map_eq_ok_iff.mp h
        obtain ⟨l, rfl, hleads⟩ := run_integer_eq_ok_iff.mp hn
        exact ⟨.integer l, rfl, Token.leads_skipTrivia_iff.mp hleads⟩
  · rintro ⟨l, rfl, hleads⟩
    rw [Token.head?_skipTrivia_of_leads hleads]
    have hleads := Token.leads_skipTrivia_iff.mpr hleads
    cases l with
    | string l =>
        rw [Literal.token, Token.spelling, StringLiteral.spelling, List.head?_cons, if_pos rfl]
        apply run_map_eq_ok_iff.mpr
        exact ⟨l.value, run_string_eq_ok_iff.mpr ⟨l, rfl, hleads⟩, rfl⟩
    | char u =>
        rw [Literal.token, Token.spelling, List.head?_cons, if_neg (by decide), if_pos rfl]
        apply run_map_eq_ok_iff.mpr
        exact ⟨u.value, run_char_eq_ok_iff.mpr ⟨u, rfl, hleads⟩, rfl⟩
    | integer l =>
        have hdouble : l.spelling.head? ≠ some (ascii '"') :=
          l.head?_spelling_ne (by decide) (by decide)
        have hsingle : l.spelling.head? ≠ some (ascii '\'') :=
          l.head?_spelling_ne (by decide) (by decide)
        rw [Literal.token, Token.spelling, if_neg hdouble, if_neg hsingle]
        apply run_map_eq_ok_iff.mpr
        exact ⟨l.value, run_integer_eq_ok_iff.mpr ⟨l, rfl, hleads⟩, rfl⟩

theorem run_roomForVariable_eq_ok_iff :
    (roomForVariable table).run s = .ok () rest ↔ table.isFull = false ∧ rest = s := by
  rw [roomForVariable]
  cases table.isFull with
  | true =>
      constructor
      · intro h
        cases h
      · rintro ⟨h, -⟩
        cases h
  | false =>
      constructor
      · intro h
        cases h
        exact ⟨rfl, rfl⟩
      · rintro ⟨-, rfl⟩
        rfl

theorem run_declare_eq_ok_iff {v : Variable} :
    (declare table v).run s = .ok grown rest ↔ table.declare v = .ok grown ∧ rest = s := by
  rw [declare]
  cases table.declare v with
  | error full =>
      constructor
      · intro h
        cases h
      · rintro ⟨h, -⟩
        cases h
  | ok t =>
      constructor
      · intro h
        cases h
        exact ⟨rfl, rfl⟩
      · rintro ⟨h, rfl⟩
        cases h
        rfl

/-- A declaration is read behind its keyword if the table has room for it. -/
theorem run_declaration_eq_ok_iff {v : Variable} :
    (declaration table).run s = .ok (v, grown) rest ↔
      ∃ (name : Word) (literal : Literal), v = ⟨name.text, literal.value⟩ ∧
        table.declare v = .ok grown ∧
          Renders [.word name, .mark .equals, literal.token, .mark .semicolon] s rest := by
  rw [declaration, run_bind_eq_ok_iff]
  constructor
  · rintro ⟨n, t₁, hname, h⟩
    obtain ⟨⟨⟩, t₂, hequals, h⟩ := run_bind_eq_ok_iff.mp h
    obtain ⟨⟨⟩, t₃, hroom, h⟩ := run_bind_eq_ok_iff.mp h
    obtain ⟨v, t₄, hvalue, h⟩ := run_bind_eq_ok_iff.mp h
    obtain ⟨⟨⟩, t₅, hsemicolon, h⟩ := run_bind_eq_ok_iff.mp h
    obtain ⟨grown, t₆, hgrown, h⟩ := run_bind_eq_ok_iff.mp h
    cases h
    obtain ⟨w, rfl, hw⟩ := run_requiredName_eq_ok_iff.mp hname
    obtain ⟨-, rfl⟩ := run_roomForVariable_eq_ok_iff.mp hroom
    obtain ⟨l, rfl, hl⟩ := run_value_eq_ok_iff.mp hvalue
    obtain ⟨hdeclare, rfl⟩ := run_declare_eq_ok_iff.mp hgrown
    exact ⟨w, l, rfl, hdeclare, _, hw, _, (run_expect_eq_ok_iff .equals).mp hequals, _, hl,
      _, (run_expect_eq_ok_iff .semicolon).mp hsemicolon, rfl⟩
  · rintro ⟨w, l, rfl, hgrown, t₁, hname, t₂, hequals, t₃, hvalue, t₄, hsemicolon, rfl⟩
    have hroom : table.isFull = false := by
      by_contra hfull
      rw [VariableTable.declare, if_pos (by simpa using hfull)] at hgrown
      cases hgrown
    refine ⟨_, t₁, run_requiredName_eq_ok_iff.mpr ⟨w, rfl, hname⟩, ?_⟩
    apply run_bind_eq_ok_iff.mpr
    refine ⟨(), t₂, (run_expect_eq_ok_iff .equals).mpr hequals, ?_⟩
    apply run_bind_eq_ok_iff.mpr
    refine ⟨(), t₂, run_roomForVariable_eq_ok_iff.mpr ⟨hroom, rfl⟩, ?_⟩
    apply run_bind_eq_ok_iff.mpr
    refine ⟨_, t₃, run_value_eq_ok_iff.mpr ⟨l, rfl, hvalue⟩, ?_⟩
    apply run_bind_eq_ok_iff.mpr
    refine ⟨(), t₄, (run_expect_eq_ok_iff .semicolon).mpr hsemicolon, ?_⟩
    apply run_bind_eq_ok_iff.mpr
    exact ⟨grown, t₄, run_declare_eq_ok_iff.mpr ⟨hgrown, rfl⟩, rfl⟩

/-! ### Loops -/

theorem run_bodyStatement_eq_ok_iff {st : Statement} :
    (bodyStatement table).run s = .ok st rest ↔
      ∃ c : Command .loopBody, c.statement? table.declared = some st ∧
        Renders c.tokens s rest := by
  rw [bodyStatement, run_bind_eq_ok_iff]
  constructor
  · rintro ⟨place, t, hplace, h⟩
    cases hplace
    obtain ⟨keyword, t, hkeyword, h⟩ := run_bind_eq_ok_iff.mp h
    obtain ⟨w, rfl, hleads⟩ := run_requiredName_eq_ok_iff.mp hkeyword
    obtain ⟨c, htext, hst, hrenders⟩ := run_statement_eq_ok_iff.mp h
    rw [Keyword.eq_word_of_text htext.symm] at hleads
    exact ⟨c, hst, t, hleads, hrenders⟩
  · rintro ⟨c, hst, t, hleads, hrenders⟩
    refine ⟨s, s, rfl, ?_⟩
    apply run_bind_eq_ok_iff.mpr
    refine ⟨c.keyword.text, t, ?_, ?_⟩
    · exact run_requiredName_eq_ok_iff.mpr ⟨c.keyword.word, c.keyword.text_word, hleads⟩
    · exact run_statement_eq_ok_iff.mpr ⟨c, rfl, hst, hrenders⟩

theorem bodyStatements_of_brace {done : Array Statement}
    (h : (Token.mark .closeBrace).Leads s rest) :
    bodyStatements table done s = .ok done.toList rest := by
  have hskip : s.skipTrivia = ascii '\x7d' :: rest := (Token.leads_iff.mp h).1
  unfold bodyStatements
  split
  case h_1 hs =>
    rw [hskip] at hs
    cases hs
  case h_2 b t hs =>
    rw [hskip] at hs
    cases hs
    rw [if_pos rfl]

theorem bodyStatements_of_command {done : Array Statement} {c : Command .loopBody}
    {st : Statement} (hst : c.statement? table.declared = some st) (h : Renders c.tokens s t) :
    bodyStatements table done s = bodyStatements table (done.push st) t := by
  obtain ⟨b, u, hskip, hb⟩ := h.exists_cons_of_word
  have hrun : (bodyStatement table).run s.skipTrivia = .ok st t :=
    run_bodyStatement_eq_ok_iff.mpr
      ⟨c, hst, (renders_skipTrivia_iff (List.cons_ne_nil _ _)).mpr h⟩
  rw [bodyStatements]
  split
  case h_1 hs =>
    rw [hskip] at hs
    cases hs
  case h_2 b' t' hs =>
    rw [hskip] at hs
    cases hs
    rw [if_neg (ne_of_class hb (by decide))]
    rw [hskip] at hrun
    split
    case h_1 hr =>
      rw [hrun] at hr
      cases hr
    case h_2 hr =>
      rw [hrun] at hr
      cases hr
      rfl

/-- The statements of a loop's body are read up to its closing brace. -/
theorem bodyStatements_eq_ok_iff {done : Array Statement} {statements : List Statement} :
    bodyStatements table done s = .ok statements rest ↔
      ∃ (body : List (Command .loopBody)) (sts : List Statement),
        body.mapM (Command.statement? table.declared) = some sts ∧
          statements = done.toList ++ sts ∧
            Renders (body.flatMap Command.tokens ++ [.mark .closeBrace]) s rest := by
  constructor
  · intro h
    fun_induction bodyStatements table done s with
    | case1 => cases h
    | case2 done s t hs =>
        cases h
        refine ⟨[], [], rfl, (List.append_nil _).symm, ?_⟩
        exact renders_singleton.mpr (Token.leads_iff.mpr ⟨hs, fun _ _ => id⟩)
    | case3 => cases h
    | case4 done s b t hs hb st u hr ih =>
        obtain ⟨body, sts, hbody, rfl, hrenders⟩ := ih h
        obtain ⟨c, hst, hc⟩ := run_bodyStatement_eq_ok_iff.mp hr
        rw [← hs] at hc
        replace hc := (renders_skipTrivia_iff (List.cons_ne_nil _ _)).mp hc
        refine ⟨c :: body, st :: sts, ?_, by simp, ?_⟩
        · rw [List.mapM_cons, hst, hbody]
          rfl
        · rw [List.flatMap_cons, List.append_assoc]
          exact renders_append.mpr ⟨u, hc, hrenders⟩
  · rintro ⟨body, sts, hbody, rfl, hrenders⟩
    induction body generalizing s done sts with
    | nil =>
        cases hbody
        rw [List.reverse_nil, List.append_nil]
        exact bodyStatements_of_brace (renders_singleton.mp hrenders)
    | cons c body ih =>
        obtain ⟨st, hst, tail, htail, rfl⟩ : ∃ st, c.statement? table.declared = some st ∧
            ∃ tail, body.mapM (Command.statement? table.declared) = some tail ∧
              st :: tail = sts := by
          simpa [Option.bind_eq_some_iff] using hbody
        rw [List.flatMap_cons, List.append_assoc] at hrenders
        obtain ⟨t, hc, hrenders⟩ := renders_append.mp hrenders
        rw [bodyStatements_of_command hst hc, ih tail htail hrenders]
        simp

theorem run_loopBody_eq_ok_iff {statements : List Statement} :
    (loopBody table).run s = .ok statements rest ↔
      ∃ body : List (Command .loopBody),
        body.mapM (Command.statement? table.declared) = some statements ∧
          Renders (.mark .openBrace :: (body.flatMap Command.tokens ++ [.mark .closeBrace]))
            s rest := by
  refine run_bind_eq_ok_iff.trans ?_
  constructor
  · rintro ⟨⟨⟩, t, hbrace, h⟩
    obtain ⟨body, sts, hbody, rfl, hrenders⟩ := bodyStatements_eq_ok_iff.mp h
    exact ⟨body, hbody, t, (run_expect_eq_ok_iff .openBrace).mp hbrace, hrenders⟩
  · rintro ⟨body, hbody, t, hbrace, hrenders⟩
    refine ⟨(), t, (run_expect_eq_ok_iff .openBrace).mpr hbrace, ?_⟩
    apply bodyStatements_eq_ok_iff.mpr
    exact ⟨body, statements, hbody, rfl, hrenders⟩

/-! ### Items -/

variable {place : Bytes} {i : Item}

theorem keywordItem_of_command (c : Command .topLevel) :
    keywordItem table place c.keyword.text = (do
      let s ← statement table .topLevel place c.keyword.text
      return (.statement s, table)) := by
  cases c <;> rfl

/-- What belongs to a keyword is the rest of a clause that starts with it. -/
theorem run_keywordItem_eq_ok_iff {keyword : String} :
    (keywordItem table place keyword).run s = .ok (i, grown) rest ↔
      ∃ (c : Clause) (k : Keyword), c.keyword? = some k ∧ k.text = keyword ∧
        c.item? table place = some (i, grown) ∧ Renders c.tokens.tail s rest := by
  constructor
  · intro h
    unfold keywordItem at h
    split at h
    case h_1 =>
      obtain ⟨⟨v, grown⟩, t, hdeclaration, h⟩ := run_bind_eq_ok_iff.mp h
      cases h
      obtain ⟨name, literal, rfl, hgrown, hrenders⟩ := run_declaration_eq_ok_iff.mp hdeclaration
      refine ⟨.declaration name literal, .var, rfl, rfl, ?_, hrenders⟩
      rw [Clause.item?, hgrown]
      rfl
    case h_2 =>
      obtain ⟨body, t, hloop, h⟩ := run_bind_eq_ok_iff.mp h
      cases h
      obtain ⟨commands, hbody, hrenders⟩ := run_loopBody_eq_ok_iff.mp hloop
      refine ⟨.loop commands, .loop, rfl, rfl, ?_, hrenders⟩
      rw [Clause.item?, hbody]
      rfl
    case h_3 =>
      obtain ⟨st, t, hstatement, h⟩ := run_bind_eq_ok_iff.mp h
      cases h
      obtain ⟨c, htext, hst, hrenders⟩ := run_statement_eq_ok_iff.mp hstatement
      refine ⟨.statement c, c.keyword, rfl, htext, ?_, hrenders⟩
      rw [Clause.item?, hst]
      rfl
  · rintro ⟨c, k, hkeyword, rfl, hitem, hrenders⟩
    cases c with
    | remark text htext => cases hkeyword
    | declaration name literal =>
        cases hkeyword
        obtain ⟨t, hgrown, heq⟩ := Option.map_eq_some_iff.mp hitem
        cases heq
        apply run_bind_eq_ok_iff.mpr
        refine ⟨(_, grown), rest, ?_, rfl⟩
        apply run_declaration_eq_ok_iff.mpr
        exact ⟨name, literal, rfl, toOption_eq_some_iff.mp hgrown, hrenders⟩
    | statement c =>
        cases hkeyword
        obtain ⟨st, hst, heq⟩ := Option.map_eq_some_iff.mp hitem
        cases heq
        rw [keywordItem_of_command]
        apply run_bind_eq_ok_iff.mpr
        exact ⟨st, rest, run_statement_eq_ok_iff.mpr ⟨c, rfl, hst, hrenders⟩, rfl⟩
    | loop body =>
        cases hkeyword
        obtain ⟨statements, hbody, heq⟩ := Option.map_eq_some_iff.mp hitem
        cases heq
        apply run_bind_eq_ok_iff.mpr
        exact ⟨statements, rest, run_loopBody_eq_ok_iff.mpr ⟨body, hbody, hrenders⟩, rfl⟩

theorem run_namedItem_eq_ok_iff :
    (namedItem table).run s = .ok (i, grown) rest ↔
      ∃ (c : Clause) (k : Keyword), c.keyword? = some k ∧
        c.item? table s = some (i, grown) ∧ Renders c.tokens s rest := by
  rw [namedItem, run_bind_eq_ok_iff]
  constructor
  · rintro ⟨place, t, hplace, h⟩
    cases hplace
    obtain ⟨keyword, t, hkeyword, h⟩ := run_bind_eq_ok_iff.mp h
    obtain ⟨w, rfl, hleads⟩ := run_requiredName_eq_ok_iff.mp hkeyword
    obtain ⟨c, k, hk, htext, hitem, hrenders⟩ := run_keywordItem_eq_ok_iff.mp h
    rw [Keyword.eq_word_of_text htext.symm] at hleads
    refine ⟨c, k, hk, hitem, ?_⟩
    rw [Clause.tokens_of_keyword? hk]
    exact ⟨t, hleads, hrenders⟩
  · rintro ⟨c, k, hk, hitem, hrenders⟩
    rw [Clause.tokens_of_keyword? hk] at hrenders
    obtain ⟨t, hleads, hrenders⟩ := hrenders
    refine ⟨s, s, rfl, ?_⟩
    apply run_bind_eq_ok_iff.mpr
    refine ⟨k.text, t, ?_, ?_⟩
    · exact run_requiredName_eq_ok_iff.mpr ⟨k.word, k.text_word, hleads⟩
    · exact run_keywordItem_eq_ok_iff.mpr ⟨c, k, hk, rfl, hitem, hrenders⟩

/-- A remark takes the rest of its line. -/
theorem leads_remark_iff :
    (∃ text htext, (Token.remark text htext).Leads s rest) ↔
      s.skipTrivia.head? = some (ascii '#') ∧ s.skipTrivia.skipLine = rest := by
  rw [skipLine_eq_iff]
  constructor
  · rintro ⟨text, htext, h⟩
    obtain ⟨hs, hstop⟩ := Token.leads_iff.mp h
    refine ⟨by rw [hs]; rfl, ascii '#' :: text, hs, ?_, ?_⟩
    · rw [List.mem_cons, not_or]
      exact ⟨by decide, htext⟩
    · intro b hb
      exact not_not.mp (hstop b hb)
  · rintro ⟨hhead, line, hs, hline, hstop⟩
    cases line with
    | nil =>
        rw [hs, List.nil_append] at hhead
        exact absurd (hstop _ hhead) (by decide)
    | cons b text =>
        rw [hs] at hhead
        cases hhead
        refine ⟨text, fun h => hline (List.mem_cons_of_mem _ h), Token.leads_iff.mpr ⟨hs, ?_⟩⟩
        intro b hb
        exact not_not.mpr (hstop b hb)

theorem run_item_of_nil (h : s.skipTrivia = []) : (item table).run s = .ok none [] := by
  rw [item, EStateM.run_bind, run_significant, h]
  rfl

theorem run_item_of_sign (h : s.skipTrivia.head? = some (ascii '#')) :
    (item table).run s = .ok (some (.remark, table)) s.skipTrivia.skipLine := by
  rw [item, EStateM.run_bind, run_significant, h]
  rfl

theorem run_item_of_ne (h : s.skipTrivia.head? = some b) (hb : b ≠ ascii '#') :
    (item table).run s = (some <$> namedItem table).run s.skipTrivia := by
  rw [item, EStateM.run_bind, run_significant, h]
  show (if b = ascii '#' then _ else _ : Reader _).run _ = _
  rw [if_neg hb]

/-- Nothing is read exactly where the source ends. -/
theorem run_item_eq_none_iff :
    (item table).run s = .ok none rest ↔ Ending s ∧ rest = [] := by
  rw [← skipTrivia_eq_nil_iff]
  cases hs : s.skipTrivia with
  | nil =>
      rw [run_item_of_nil hs]
      simp [eq_comm]
  | cons b t =>
      have hhead : s.skipTrivia.head? = some b := by rw [hs, List.head?_cons]
      refine iff_of_false ?_ (fun h => List.cons_ne_nil _ _ h.1)
      by_cases hb : b = ascii '#'
      · rw [run_item_of_sign (hb ▸ hhead)]
        intro h
        cases h
      · rw [run_item_of_ne hhead hb, run_map_eq_ok_iff]
        rintro ⟨a, -, h⟩
        cases h

/-- An item is read exactly where a clause stands, and is what the clause is read as. -/
theorem run_item_eq_some_iff :
    (item table).run s = .ok (some (i, grown)) rest ↔
      ∃ c : Clause, c.item? table s.skipTrivia = some (i, grown) ∧ Renders c.tokens s rest := by
  constructor
  · intro h
    cases hs : s.skipTrivia with
    | nil =>
        rw [run_item_of_nil hs] at h
        cases h
    | cons b t =>
        rw [← hs]
        have hhead : s.skipTrivia.head? = some b := by rw [hs, List.head?_cons]
        by_cases hb : b = ascii '#'
        · rw [hb] at hhead
          rw [run_item_of_sign hhead] at h
          cases h
          obtain ⟨text, htext, hleads⟩ := leads_remark_iff.mpr ⟨hhead, rfl⟩
          exact ⟨.remark text htext, rfl, renders_singleton.mpr hleads⟩
        · rw [run_item_of_ne hhead hb] at h
          obtain ⟨a, hnamed, ha⟩ := run_map_eq_ok_iff.mp h
          cases ha
          obtain ⟨c, k, hk, hitem, hrenders⟩ := run_namedItem_eq_ok_iff.mp hnamed
          rw [Clause.tokens_of_keyword? hk] at hrenders
          refine ⟨c, hitem, ?_⟩
          rw [Clause.tokens_of_keyword? hk]
          exact (renders_skipTrivia_iff (List.cons_ne_nil _ _)).mp hrenders
  · rintro ⟨c, hitem, hrenders⟩
    cases hk : c.keyword? with
    | none =>
        cases c with
        | remark text htext =>
            cases hitem
            obtain ⟨hhead, rfl⟩ := leads_remark_iff.mp ⟨text, htext, renders_singleton.mp hrenders⟩
            exact run_item_of_sign hhead
        | _ => cases hk
    | some k =>
        rw [Clause.tokens_of_keyword? hk] at hrenders
        obtain ⟨b, t, hs, hb⟩ := hrenders.exists_cons_of_word
        rw [run_item_of_ne (by rw [hs, List.head?_cons]) (ne_of_class hb (by decide))]
        apply run_map_eq_ok_iff.mpr
        refine ⟨(i, grown), ?_, rfl⟩
        apply run_namedItem_eq_ok_iff.mpr
        refine ⟨c, k, hk, hitem, ?_⟩
        rw [Clause.tokens_of_keyword? hk]
        exact (renders_skipTrivia_iff (List.cons_ne_nil _ _)).mpr hrenders

end Reader

end ConsoleScript
