import ConsoleScript.Proofs.Grammar.Clause
import ConsoleScript.Proofs.Grammar.TokenReading

/-!
# Reading operands and commands

Reading a statement with the table of variables succeeds exactly on the renderings
of the commands that have a statement behind the table's declarations.
-/

namespace ConsoleScript

open Grammar Bytes

namespace VariableTable

/-- The declarations of a table in order. -/
def declared (table : VariableTable) : List Variable := table.entries.toList

theorem find?_text (table : VariableTable) (w : Word) :
    (table.find? w.text).map Variable.value = valueOf? table.declared w := by
  rw [find?, valueOf?, declared, Array.find?_toList]

end VariableTable

namespace Reader

variable {α β : Type} {s rest : Bytes} {table : VariableTable}

theorem run_map_eq_ok_iff {r : Reader α} {f : α → β} {b : β} :
    (f <$> r).run s = .ok b rest ↔ ∃ a, r.run s = .ok a rest ∧ f a = b := by
  rw [map_eq_pure_bind, run_bind_eq_ok_iff]
  constructor
  · rintro ⟨a, t, ha, h⟩
    cases h
    exact ⟨a, ha, rfl⟩
  · rintro ⟨a, ha, rfl⟩
    exact ⟨a, rest, ha, rfl⟩

/-! ### Operands -/

theorem run_constant_eq_ok_iff {kind : ValueKind} {select : Value → Option α}
    {expectation : String} {a : α} :
    (constant table kind select expectation).run s = .ok a rest ↔
      ∃ w : Word, (valueOf? table.declared w).bind select = some a ∧
        (Token.word w).Leads s rest := by
  rw [constant, run_bind_eq_ok_iff]
  constructor
  · rintro ⟨place, t, hplace, h⟩
    cases hplace
    obtain ⟨n, t, hname, h⟩ := run_bind_eq_ok_iff.mp h
    obtain ⟨w, rfl, hleads⟩ := run_requiredName_eq_ok_iff.mp hname
    refine ⟨w, ?_⟩
    rw [← table.find?_text w]
    cases hfind : table.find? w.text with
    | none =>
        rw [hfind] at h
        cases h
    | some v =>
        rw [hfind] at h
        cases hselect : select v.value with
        | none =>
            simp only [hselect] at h
            cases h
        | some a' =>
            simp only [hselect] at h
            cases h
            exact ⟨hselect, hleads⟩
  · rintro ⟨w, hvalue, hleads⟩
    refine ⟨s, s, rfl, ?_⟩
    apply run_bind_eq_ok_iff.mpr
    refine ⟨w.text, rest, run_requiredName_eq_ok_iff.mpr ⟨w, rfl, hleads⟩, ?_⟩
    rw [← table.find?_text w] at hvalue
    cases hfind : table.find? w.text with
    | none =>
        rw [hfind] at hvalue
        cases hvalue
    | some v =>
        rw [hfind] at hvalue
        have hselect : select v.value = some a := hvalue
        simp only [hselect]
        rfl

/-- A choice by the next significant byte goes on with what is left behind trivia. -/
theorem run_significant_ite_eq_ok_iff {p : Option UInt8 → Prop} [DecidablePred p]
    {r r' : Reader α} {a : α} :
    (do if p (← significant) then r else r' : Reader α).run s = .ok a rest ↔
      p s.skipTrivia.head? ∧ r.run s.skipTrivia = .ok a rest ∨
        ¬p s.skipTrivia.head? ∧ r'.run s.skipTrivia = .ok a rest := by
  rw [run_bind_eq_ok_iff]
  constructor
  · rintro ⟨b, t, hsig, h⟩
    cases hsig
    split at h
    case isTrue hp => exact .inl ⟨hp, h⟩
    case isFalse hp => exact .inr ⟨hp, h⟩
  · rintro (⟨hp, h⟩ | ⟨hp, h⟩)
    · exact ⟨_, _, run_significant, by rwa [if_pos hp]⟩
    · exact ⟨_, _, run_significant, by rwa [if_neg hp]⟩

theorem run_stringOperand_eq_ok_iff {v : Bytes} :
    (stringOperand table).run s = .ok v rest ↔
      ∃ o : StringOperand, o.value? table.declared = some v ∧ o.token.Leads s rest := by
  refine run_significant_ite_eq_ok_iff.trans ?_
  constructor
  · rintro (⟨-, h⟩ | ⟨-, h⟩)
    · obtain ⟨l, rfl, hleads⟩ := run_string_eq_ok_iff.mp h
      exact ⟨.literal l, rfl, Token.leads_skipTrivia_iff.mp hleads⟩
    · obtain ⟨w, hvalue, hleads⟩ := run_constant_eq_ok_iff.mp h
      exact ⟨.name w, hvalue, Token.leads_skipTrivia_iff.mp hleads⟩
  · rintro ⟨o, hvalue, hleads⟩
    rw [Token.head?_skipTrivia_of_leads hleads]
    have hleads := Token.leads_skipTrivia_iff.mpr hleads
    cases o with
    | literal l =>
        cases hvalue
        exact .inl ⟨rfl, run_string_eq_ok_iff.mpr ⟨l, rfl, hleads⟩⟩
    | name w =>
        exact .inr ⟨w.head?_bytes_ne (by decide),
          run_constant_eq_ok_iff.mpr ⟨w, hvalue, hleads⟩⟩

theorem run_intOperand_eq_ok_iff {n : Int32} :
    (intOperand table).run s = .ok n rest ↔
      ∃ o : IntOperand, o.value? table.declared = some n ∧ o.token.Leads s rest := by
  refine run_significant_ite_eq_ok_iff.trans ?_
  constructor
  · rintro (⟨-, h⟩ | ⟨hstart, h⟩)
    · obtain ⟨l, rfl, hleads⟩ := run_integer_eq_ok_iff.mp h
      exact ⟨.literal l, rfl, Token.leads_skipTrivia_iff.mp hleads⟩
    · obtain ⟨w, hvalue, hleads⟩ := run_constant_eq_ok_iff.mp h
      have hleads := Token.leads_skipTrivia_iff.mp hleads
      rw [Token.head?_skipTrivia_of_leads hleads, Token.spelling] at hstart
      refine ⟨.name w fun b hb => ?_, hvalue, hleads⟩
      rw [Option.mem_def.mp hb] at hstart
      simp only [Option.any_some, startsInteger, Bool.or_eq_true, not_or] at hstart
      exact Bool.eq_false_iff.mpr hstart.2
  · rintro ⟨o, hvalue, hleads⟩
    rw [Token.head?_skipTrivia_of_leads hleads]
    have hleads := Token.leads_skipTrivia_iff.mpr hleads
    cases o with
    | literal l =>
        cases hvalue
        refine .inl ⟨?_, run_integer_eq_ok_iff.mpr ⟨l, rfl, hleads⟩⟩
        obtain ⟨b, u, hl, hb⟩ := l.exists_cons
        cases hneg : l.negative <;>
          simp [IntOperand.token, Token.spelling, IntLiteral.spelling, hneg, hl, startsInteger, hb]
    | name w hw =>
        refine .inr ⟨?_, run_constant_eq_ok_iff.mpr ⟨w, hvalue, hleads⟩⟩
        obtain ⟨b, u, hbytes, hb⟩ := w.exists_cons
        have hdigit : isDigit b = false := hw b (by simp [hbytes])
        have hminus : b ≠ ascii '-' := ne_of_class hb (by decide)
        simp [IntOperand.token, Token.spelling, hbytes, startsInteger, hdigit, hminus]

/-- No operand of an integer starts with a comma. -/
theorem head?_spelling_ne_comma (o : IntOperand) :
    o.token.spelling.head? ≠ some (ascii ',') := by
  cases o with
  | literal l => exact l.head?_spelling_ne (by decide) (by decide)
  | name w hw => exact w.head?_bytes_ne (by decide)

/-! ### Commands -/

variable {scope : Scope} {place : Bytes} {keyword : String} {st : Statement}

theorem run_map_stringOperand_eq_ok_iff {mk : Bytes → Statement} :
    (mk <$> stringOperand table).run s = .ok st rest ↔
      ∃ o : StringOperand, (o.value? table.declared).map mk = some st ∧
        Renders [o.token] s rest := by
  simp only [run_map_eq_ok_iff, run_stringOperand_eq_ok_iff, renders_singleton,
    Option.map_eq_some_iff]
  constructor
  · rintro ⟨v, ⟨o, hvalue, hleads⟩, rfl⟩
    exact ⟨o, ⟨v, hvalue, rfl⟩, hleads⟩
  · rintro ⟨o, ⟨v, hvalue, rfl⟩, hleads⟩
    exact ⟨v, ⟨o, hvalue, hleads⟩, rfl⟩

theorem run_breakIfLastOperand_eq_ok_iff :
    (breakIfLastOperand table).run s = .ok st rest ↔
      ∃ o, (Command.breakIfLast o).statement? table.declared = some st ∧
        Renders (Command.breakIfLast o).operands s rest := by
  rw [breakIfLastOperand, run_bind_eq_ok_iff]
  constructor
  · rintro ⟨n, t, hn, h⟩
    cases h
    obtain ⟨o, hvalue, hleads⟩ := run_intOperand_eq_ok_iff.mp hn
    exact ⟨o, by rw [Command.statement?, hvalue]; rfl, renders_singleton.mpr hleads⟩
  · rintro ⟨o, hst, hrenders⟩
    obtain ⟨n, hvalue, rfl⟩ := Option.map_eq_some_iff.mp hst
    refine ⟨n, rest, ?_, rfl⟩
    apply run_intOperand_eq_ok_iff.mpr
    exact ⟨o, hvalue, renders_singleton.mp hrenders⟩

theorem run_setCursorOperands_eq_ok_iff :
    (setCursorOperands table).run s = .ok st rest ↔
      ∃ x comma y, (Command.setCursor x comma y : Command scope).statement? table.declared =
          some st ∧
        Renders (Command.setCursor x comma y : Command scope).operands s rest := by
  rw [setCursorOperands, run_bind_eq_ok_iff]
  constructor
  · rintro ⟨n, t, hx, h⟩
    obtain ⟨found, u, hfound, h⟩ := run_bind_eq_ok_iff.mp h
    obtain ⟨m, v, hy, h⟩ := run_bind_eq_ok_iff.mp h
    cases h
    obtain ⟨x, hn, hx⟩ := run_intOperand_eq_ok_iff.mp hx
    obtain ⟨y, hm, hy⟩ := run_intOperand_eq_ok_iff.mp hy
    refine ⟨x, found, y, by simp [Command.statement?, hn, hm], ?_⟩
    cases found with
    | true =>
        exact ⟨t, hx, u, (run_eat_mark_eq_true_iff .comma).mp hfound, renders_singleton.mpr hy⟩
    | false =>
        obtain ⟨rfl, -⟩ := run_eat_eq_false_iff.mp hfound
        exact ⟨t, hx, renders_singleton.mpr (Token.leads_skipTrivia_iff.mp hy)⟩
  · rintro ⟨x, comma, y, hst, h⟩
    obtain ⟨n, hn, m, hm, rfl⟩ : ∃ n, x.value? table.declared = some n ∧
        ∃ m, y.value? table.declared = some m ∧
          Statement.setCursor (Statement.coordinate n) (Statement.coordinate m) = st := by
      simpa [Command.statement?, Option.bind_eq_some_iff] using hst
    cases comma with
    | true =>
        obtain ⟨t, hx, u, hcomma, hy⟩ := h
        have hx := run_intOperand_eq_ok_iff.mpr ⟨x, hn, hx⟩
        have hcomma := (run_eat_mark_eq_true_iff .comma).mpr hcomma
        have hy := run_intOperand_eq_ok_iff.mpr ⟨y, hm, renders_singleton.mp hy⟩
        refine ⟨n, t, hx, ?_⟩
        apply run_bind_eq_ok_iff.mpr
        exact ⟨true, u, hcomma, run_bind_eq_ok_iff.mpr ⟨m, rest, hy, rfl⟩⟩
    | false =>
        obtain ⟨t, hx, hy⟩ := h
        have hy := renders_singleton.mp hy
        have hx := run_intOperand_eq_ok_iff.mpr ⟨x, hn, hx⟩
        have hcomma : (eat (ascii ',')).run t = .ok false t.skipTrivia := by
          refine run_eat_eq_false_iff.mpr ⟨rfl, ?_⟩
          rw [Token.head?_skipTrivia_of_leads hy]
          exact head?_spelling_ne_comma y
        have hy := run_intOperand_eq_ok_iff.mpr ⟨y, hm, Token.leads_skipTrivia_iff.mpr hy⟩
        refine ⟨n, t, hx, ?_⟩
        apply run_bind_eq_ok_iff.mpr
        exact ⟨false, _, hcomma, run_bind_eq_ok_iff.mpr ⟨m, rest, hy, rfl⟩⟩

theorem run_writeFileOperands_eq_ok_iff :
    (writeFileOperands table).run s = .ok st rest ↔
      ∃ path data, (Command.writeFile path data : Command scope).statement? table.declared =
          some st ∧
        Renders (Command.writeFile path data : Command scope).operands s rest := by
  rw [writeFileOperands, run_bind_eq_ok_iff]
  constructor
  · rintro ⟨p, t, hpath, h⟩
    obtain ⟨⟨⟩, u, hcomma, h⟩ := run_bind_eq_ok_iff.mp h
    obtain ⟨d, v, hdata, h⟩ := run_bind_eq_ok_iff.mp h
    cases h
    obtain ⟨path, hp, hpath⟩ := run_stringOperand_eq_ok_iff.mp hpath
    obtain ⟨data, hd, hdata⟩ := run_stringOperand_eq_ok_iff.mp hdata
    exact ⟨path, data, by simp [Command.statement?, hp, hd], t, hpath, u,
      (run_expect_eq_ok_iff .comma).mp hcomma, renders_singleton.mpr hdata⟩
  · rintro ⟨path, data, hst, t, hpath, u, hcomma, hdata⟩
    obtain ⟨p, hp, d, hd, rfl⟩ : ∃ p, path.value? table.declared = some p ∧
        ∃ d, data.value? table.declared = some d ∧ Statement.writeFile p d = st := by
      simpa [Command.statement?, Option.bind_eq_some_iff] using hst
    have hpath := run_stringOperand_eq_ok_iff.mpr ⟨path, hp, hpath⟩
    have hdata := run_stringOperand_eq_ok_iff.mpr ⟨data, hd, renders_singleton.mp hdata⟩
    refine ⟨p, t, hpath, ?_⟩
    apply run_bind_eq_ok_iff.mpr
    refine ⟨(), u, (run_expect_eq_ok_iff .comma).mpr hcomma, ?_⟩
    apply run_bind_eq_ok_iff.mpr
    exact ⟨d, rest, hdata, rfl⟩

/-- Operands are read behind a keyword exactly where those of a command with this
keyword stand. -/
theorem run_operandsOf_eq_ok_iff :
    (operandsOf table scope place keyword).run s = .ok st rest ↔
      ∃ c : Command scope, c.keyword.text = keyword ∧
        c.statement? table.declared = some st ∧ Renders c.operands s rest := by
  constructor
  · intro h
    unfold operandsOf at h
    split at h
    case h_1 =>
      obtain ⟨o, ho⟩ := run_map_stringOperand_eq_ok_iff.mp h
      exact ⟨.print o, rfl, ho⟩
    case h_2 =>
      obtain ⟨b, hb, rfl⟩ := run_map_eq_ok_iff.mp h
      obtain ⟨u, rfl, hleads⟩ := run_char_eq_ok_iff.mp hb
      exact ⟨.putChar u, rfl, rfl, renders_singleton.mpr hleads⟩
    case h_3 =>
      cases h
      exact ⟨.exit, rfl, rfl, rfl⟩
    case h_4 =>
      cases h
      exact ⟨.clear, rfl, rfl, rfl⟩
    case h_5 =>
      obtain ⟨x, comma, y, hc⟩ := run_setCursorOperands_eq_ok_iff.mp h
      exact ⟨.setCursor x comma y, rfl, hc⟩
    case h_6 =>
      cases h
      exact ⟨.readKey, rfl, rfl, rfl⟩
    case h_7 =>
      obtain ⟨o, ho⟩ := run_map_stringOperand_eq_ok_iff.mp h
      exact ⟨.loadFile o, rfl, ho⟩
    case h_8 =>
      obtain ⟨path, data, hc⟩ := run_writeFileOperands_eq_ok_iff.mp h
      exact ⟨.writeFile path data, rfl, hc⟩
    case h_9 =>
      cases h
      exact ⟨.printBuf, rfl, rfl, rfl⟩
    case h_10 =>
      cases h
      exact ⟨.printLast, rfl, rfl, rfl⟩
    case h_11 =>
      obtain ⟨o, ho⟩ := run_map_stringOperand_eq_ok_iff.mp h
      exact ⟨.writeBuf o, rfl, ho⟩
    case h_12 =>
      split at h
      case h_1 =>
        obtain ⟨o, ho⟩ := run_breakIfLastOperand_eq_ok_iff.mp h
        exact ⟨.breakIfLast o, rfl, ho⟩
      case h_2 => cases h
      case h_3 => cases h
  · rintro ⟨c, rfl, hst, h⟩
    cases c with
    | print o | loadFile o | writeBuf o => exact run_map_stringOperand_eq_ok_iff.mpr ⟨o, hst, h⟩
    | putChar u =>
        cases hst
        apply run_map_eq_ok_iff.mpr
        exact ⟨u.value, run_char_eq_ok_iff.mpr ⟨u, rfl, renders_singleton.mp h⟩, rfl⟩
    | setCursor x comma y => exact run_setCursorOperands_eq_ok_iff.mpr ⟨x, comma, y, hst, h⟩
    | writeFile path data => exact run_writeFileOperands_eq_ok_iff.mpr ⟨path, data, hst, h⟩
    | breakIfLast o => exact run_breakIfLastOperand_eq_ok_iff.mpr ⟨o, hst, h⟩
    | exit | clear | readKey | printBuf | printLast =>
        cases hst
        cases h
        rfl

/-- A statement is read behind its keyword up to and including the semicolon. -/
theorem run_statement_eq_ok_iff :
    (statement table scope place keyword).run s = .ok st rest ↔
      ∃ c : Command scope, c.keyword.text = keyword ∧
        c.statement? table.declared = some st ∧
          Renders (c.operands ++ [.mark .semicolon]) s rest := by
  rw [statement, run_bind_eq_ok_iff]
  constructor
  · rintro ⟨st', t, hst, h⟩
    obtain ⟨⟨⟩, u, hsemicolon, h⟩ := run_bind_eq_ok_iff.mp h
    cases h
    obtain ⟨c, hkeyword, hvalue, hrenders⟩ := run_operandsOf_eq_ok_iff.mp hst
    have hsemicolon := (run_expect_eq_ok_iff .semicolon).mp hsemicolon
    exact ⟨c, hkeyword, hvalue,
      renders_append.mpr ⟨t, hrenders, renders_singleton.mpr hsemicolon⟩⟩
  · rintro ⟨c, hkeyword, hvalue, hrenders⟩
    obtain ⟨t, hoperands, hsemicolon⟩ := renders_append.mp hrenders
    refine ⟨st, t, run_operandsOf_eq_ok_iff.mpr ⟨c, hkeyword, hvalue, hoperands⟩, ?_⟩
    apply run_bind_eq_ok_iff.mpr
    refine ⟨(), rest, ?_, rfl⟩
    exact (run_expect_eq_ok_iff .semicolon).mpr (renders_singleton.mp hsemicolon)

end Reader

end ConsoleScript
