import ConsoleScript.Proofs.Source.FaultPlace
import ConsoleScript.Proofs.Source.Lookup

/-!
# Lookups without success

Reading stops where a name is looked up that is not declared or stands for a constant of
another kind, and it meets such a fault nowhere else. So the lookups that are followed to
their places are those of the readers.

## Implementation notes

A lookup can be told from outside by its fault only. So the relation that follows the
readers to a lookup is compared with the faults that they meet.
-/

namespace ConsoleScript

open Bytes

/-- The error is about a name in the place of an operand. -/
def CompileError.IsOfLookup {Place : Type} : CompileError Place → Prop
  | undefinedVariable _ _ | wrongKind _ _ _ => True
  | _ => False

/-- The name that starts at the place is not declared, or not for a constant of the kind. -/
def VariableTable.Refuses (table : VariableTable) (kind : ValueKind) (place : Bytes) :
    Fault → Prop
  | .undefinedVariable name p => p = place ∧ StartsWithName name place ∧ table.find? name = none
  | .wrongKind name expected p => p = place ∧ expected = kind ∧ StartsWithName name place ∧
      ∃ v, table.find? name = some v ∧ v.value.kind ≠ kind
  | _ => False

theorem VariableTable.Refuses.isOfLookup {table : VariableTable} {kind : ValueKind}
    {place : Bytes} {e : Fault} (h : table.Refuses kind place e) : e.IsOfLookup := by
  cases e with
  | undefinedVariable | wrongKind => trivial
  | _ => exact h

namespace Reader

variable {α β : Type} {r : Reader α} {f : α → Reader β} {table : VariableTable}
  {s t place : Bytes} {e e' : Fault} {kind : ValueKind}

/-! ### Failures -/

/-- The reader fails on the text. -/
def FailsWith (r : Reader α) (s : Bytes) (e : Fault) : Prop := ∃ t, r.run s = .error e t

theorem failsWith_bind_iff :
    (r >>= f).FailsWith s e ↔ r.FailsWith s e ∨ ∃ a t, r.run s = .ok a t ∧ (f a).FailsWith t e := by
  constructor
  · rintro ⟨u, h⟩
    rcases run_bind_eq_error_iff.mp h with hr | ⟨a, t, hr, hf⟩
    · exact .inl ⟨u, hr⟩
    · exact .inr ⟨a, t, hr, u, hf⟩
  · rintro (⟨u, hr⟩ | ⟨a, t, hr, u, hf⟩)
    · exact ⟨u, run_bind_eq_error_iff.mpr (.inl hr)⟩
    · exact ⟨u, run_bind_eq_error_iff.mpr (.inr ⟨a, t, hr, hf⟩)⟩

theorem not_failsWith_of_ok {a : α} (h : r.run s = .ok a t) : ¬r.FailsWith s e := by
  rintro ⟨u, herror⟩
  rw [h] at herror
  cases herror

theorem failsWith_bind_of_ok {a : α} (h : r.run s = .ok a t) :
    (r >>= f).FailsWith s e ↔ (f a).FailsWith t e := by
  rw [FailsWith, run_bind_of_ok h, FailsWith]

theorem failsWith_map_iff {g : α → β} : (g <$> r).FailsWith s e ↔ r.FailsWith s e := by
  rw [map_eq_pure_bind, failsWith_bind_iff, or_iff_left]
  rintro ⟨a, t, -, hpure⟩
  exact not_failsWith_of_ok rfl hpure

theorem failsWith_throw_iff : (throw e' : Reader α).FailsWith s e ↔ e' = e := by
  constructor
  · rintro ⟨u, h⟩
    cases h
    rfl
  · rintro rfl
    exact ⟨s, rfl⟩

/-! ### Readers without lookups -/

theorem includesTokens_not_isOfLookup {source : Bytes} :
    IncludesTokens source fun e => ¬e.IsOfLookup where
  malformed _ _ := id
  unterminated _ := id

/-- A reader of which no fault is of a lookup does not fail so. -/
theorem FaultsIn.not_failsWith (h : FaultsIn s (fun e => ¬e.IsOfLookup) r) (he : e.IsOfLookup) :
    ¬r.FailsWith s e := by
  rintro ⟨t, hrun⟩
  exact h s List.suffix_rfl e t hrun he

theorem faultsIn_roomForVariable {source : Bytes} (table : VariableTable) :
    FaultsIn source (fun e => ¬e.IsOfLookup) (roomForVariable table) := by
  intro s hs e t h
  unfold roomForVariable at h
  split at h
  · cases h
    exact id
  · cases h

theorem faultsIn_declare {source : Bytes} (table : VariableTable) (v : Variable) :
    FaultsIn source (fun e => ¬e.IsOfLookup) (declare table v) := by
  intro s hs e t h
  unfold declare at h
  split at h
  · cases h
    exact id
  · cases h

theorem faultsIn_declaration {source : Bytes} (table : VariableTable) :
    FaultsIn source (fun e => ¬e.IsOfLookup) (declaration table) :=
  (faultsIn_requiredName includesTokens_not_isOfLookup _).bind (forward_requiredName _) fun _ =>
    (faultsIn_expect includesTokens_not_isOfLookup _ _).bind (forward_expect _ _) fun _ =>
      (faultsIn_roomForVariable table).bind (forward_roomForVariable table) fun _ =>
        (faultsIn_value includesTokens_not_isOfLookup).bind forward_value fun _ =>
          (faultsIn_expect includesTokens_not_isOfLookup _ _).bind (forward_expect _ _) fun _ =>
            (faultsIn_declare table _).bind (forward_declare table _) fun _ => faultsIn_pure _

theorem not_failsWith_requiredName (he : e.IsOfLookup) (expectation : String) :
    ¬(requiredName expectation).FailsWith s e :=
  (faultsIn_requiredName includesTokens_not_isOfLookup expectation).not_failsWith he

theorem not_failsWith_expect (he : e.IsOfLookup) (b : UInt8) (expectation : String) :
    ¬(expect b expectation).FailsWith s e :=
  (faultsIn_expect includesTokens_not_isOfLookup b expectation).not_failsWith he

/-- Behind a name or a mark, a lookup fails as it does behind what is read. -/
theorem failsWith_bind_iff_of_not (h : ¬r.FailsWith s e) :
    (r >>= f).FailsWith s e ↔ ∃ a t, r.run s = .ok a t ∧ (f a).FailsWith t e := by
  rw [failsWith_bind_iff, or_iff_right h]

/-! ### Operands -/

theorem exists_run_requiredName_iff {expectation name : String} (hskip : s.skipTrivia = s) :
    (∃ t, (requiredName expectation).run s = .ok name t) ↔ StartsWithName name s := by
  constructor
  · rintro ⟨t, h⟩
    exact startsWithName_of_run_requiredName hskip h
  · rintro ⟨hne, hname⟩
    have hrun : Reader.name.run s = .ok name (s.dropWhile isNameByte) := by
      rw [run_name, hskip, ← hname]
    refine ⟨s.dropWhile isNameByte, ?_⟩
    rw [requiredName, run_bind_of_ok hrun, if_neg (by simpa using hne)]
    rfl

/-- What is looked up is refused where it stands. -/
theorem failsWith_constant_iff {select : Value → Option α} {expectation : String}
    (hskip : place.skipTrivia = place) (hselect : ∀ v, select v = none ↔ v.kind ≠ kind)
    (he : e.IsOfLookup) :
    (constant table kind select expectation).FailsWith place e ↔ table.Refuses kind place e := by
  have hget : (get : Reader Bytes).run place = .ok place place := rfl
  rw [constant, failsWith_bind_of_ok hget,
    failsWith_bind_iff_of_not (not_failsWith_requiredName he expectation)]
  constructor
  · rintro ⟨name, t, hname, h⟩
    replace hname := startsWithName_of_run_requiredName hskip hname
    cases hfind : table.find? name with
    | none =>
        simp only [hfind] at h
        cases failsWith_throw_iff.mp h
        exact ⟨rfl, hname, hfind⟩
    | some v =>
        simp only [hfind] at h
        cases hvalue : select v.value with
        | none =>
            simp only [hvalue] at h
            cases failsWith_throw_iff.mp h
            exact ⟨rfl, rfl, hname, v, hfind, (hselect v.value).mp hvalue⟩
        | some a =>
            simp only [hvalue] at h
            exact absurd h (not_failsWith_of_ok rfl)
  · intro h
    cases e with
    | undefinedVariable name p =>
        obtain ⟨rfl, hname, hfind⟩ := h
        obtain ⟨t, ht⟩ := (exists_run_requiredName_iff hskip).mpr hname
        refine ⟨name, t, ht, ?_⟩
        simp only [hfind]
        exact failsWith_throw_iff.mpr rfl
    | wrongKind name expected p =>
        obtain ⟨rfl, rfl, hname, v, hfind, hkind⟩ := h
        obtain ⟨t, ht⟩ := (exists_run_requiredName_iff hskip).mpr hname
        refine ⟨name, t, ht, ?_⟩
        simp only [hfind, (hselect v.value).mpr hkind]
        exact failsWith_throw_iff.mpr rfl
    | _ => exact h.elim

/-- From the text on, an operand of the kind is looked up without success. -/
def RefusesOperand (table : VariableTable) (kind : ValueKind) (s : Bytes) (e : Fault) : Prop :=
  ∃ place, LooksUp kind s place ∧ table.Refuses kind place e

theorem failsWith_stringOperand_iff (he : e.IsOfLookup) :
    (stringOperand table).FailsWith s e ↔ RefusesOperand table .string s e := by
  have hselect : ∀ v : Value, v.string? = none ↔ v.kind ≠ .string := by
    intro v
    cases v <;> simp [Value.string?, Value.kind]
  by_cases hquote : s.skipTrivia.head? = some (ascii '"')
  · rw [stringOperand, failsWith_bind_of_ok run_significant, if_pos hquote]
    constructor
    · exact fun h => absurd h ((faultsIn_string includesTokens_not_isOfLookup).not_failsWith he)
    · rintro ⟨place, hlooks, -⟩
      cases hlooks with
      | string hne => exact absurd hquote hne
  · rw [FailsWith, run_stringOperand_of_looksUp (.string hquote), ← FailsWith,
      failsWith_constant_iff (Grammar.skipTrivia_skipTrivia s) hselect he]
    constructor
    · exact fun h => ⟨s.skipTrivia, .string hquote, h⟩
    · rintro ⟨place, hlooks, h⟩
      rwa [hlooks.eq_skipTrivia] at h

theorem failsWith_intOperand_iff (he : e.IsOfLookup) :
    (intOperand table).FailsWith s e ↔ RefusesOperand table .int s e := by
  have hselect : ∀ v : Value, v.int? = none ↔ v.kind ≠ .int := by
    intro v
    cases v <;> simp [Value.int?, Value.kind]
  by_cases hstart : s.skipTrivia.head?.any startsInteger
  · rw [intOperand, failsWith_bind_of_ok run_significant, if_pos hstart]
    constructor
    · exact fun h => absurd h ((faultsIn_integer includesTokens_not_isOfLookup).not_failsWith he)
    · rintro ⟨place, hlooks, -⟩
      cases hlooks with
      | int hne => exact absurd hstart hne
  · rw [FailsWith, run_intOperand_of_looksUp (.int hstart), ← FailsWith,
      failsWith_constant_iff (Grammar.skipTrivia_skipTrivia s) hselect he]
    constructor
    · exact fun h => ⟨s.skipTrivia, .int hstart, h⟩
    · rintro ⟨place, hlooks, h⟩
      rwa [hlooks.eq_skipTrivia] at h

/-! ### Statements -/

variable {scope : Scope} {keyword : String} {p : Bytes}

theorem exists_of_failsWith_setCursorOperands (he : e.IsOfLookup)
    (h : (setCursorOperands table).FailsWith s e) :
    ∃ t, ReadsOperand table scope "setcursor" s .int t ∧ RefusesOperand table .int t e := by
  rcases failsWith_bind_iff.mp h with hx | ⟨x, u, hx, h⟩
  · exact ⟨s, .x, (failsWith_intOperand_iff he).mp hx⟩
  · rw [failsWith_bind_iff_of_not ((faultsIn_eat _).not_failsWith he)] at h
    obtain ⟨found, t, hcomma, h⟩ := h
    rcases failsWith_bind_iff.mp h with hy | ⟨y, v, -, hpure⟩
    · exact ⟨t, .y hx hcomma, (failsWith_intOperand_iff he).mp hy⟩
    · exact absurd hpure (not_failsWith_of_ok rfl)

theorem exists_of_failsWith_writeFileOperands (he : e.IsOfLookup)
    (h : (writeFileOperands table).FailsWith s e) :
    ∃ t, ReadsOperand table scope "writefile" s .string t ∧ RefusesOperand table .string t e := by
  rcases failsWith_bind_iff.mp h with hpath | ⟨path, u, hpath, h⟩
  · exact ⟨s, .path, (failsWith_stringOperand_iff he).mp hpath⟩
  · rw [failsWith_bind_iff_of_not (not_failsWith_expect he _ _)] at h
    obtain ⟨⟨⟩, t, hcomma, h⟩ := h
    rcases failsWith_bind_iff.mp h with hdata | ⟨data, v, -, hpure⟩
    · exact ⟨t, .data hpath hcomma, (failsWith_stringOperand_iff he).mp hdata⟩
    · exact absurd hpure (not_failsWith_of_ok rfl)

theorem failsWith_breakIfLastOperand_iff (he : e.IsOfLookup) :
    (breakIfLastOperand table).FailsWith s e ↔ RefusesOperand table .int s e := by
  rw [breakIfLastOperand, failsWith_bind_iff, failsWith_intOperand_iff he, or_iff_left]
  rintro ⟨value, t, -, hpure⟩
  exact not_failsWith_of_ok rfl hpure

/-- The operands of a statement are looked up where they are read. -/
theorem failsWith_operandsOf_iff (he : e.IsOfLookup) :
    (operandsOf table scope p keyword).FailsWith s e ↔
      ∃ kind t, ReadsOperand table scope keyword s kind t ∧ RefusesOperand table kind t e := by
  constructor
  · intro h
    unfold operandsOf at h
    split at h
    case h_1 | h_7 | h_11 =>
      refine ⟨.string, s, by constructor, ?_⟩
      exact (failsWith_stringOperand_iff he).mp (failsWith_map_iff.mp h)
    case h_2 =>
      exact absurd (failsWith_map_iff.mp h)
        ((faultsIn_char includesTokens_not_isOfLookup).not_failsWith he)
    case h_3 | h_4 | h_6 | h_9 | h_10 => exact absurd h (not_failsWith_of_ok rfl)
    case h_5 => exact ⟨.int, exists_of_failsWith_setCursorOperands he h⟩
    case h_8 => exact ⟨.string, exists_of_failsWith_writeFileOperands he h⟩
    case h_12 =>
      split at h
      · exact ⟨.int, s, .value, (failsWith_breakIfLastOperand_iff he).mp h⟩
      · cases failsWith_throw_iff.mp h
        exact he.elim
      · cases failsWith_throw_iff.mp h
        exact he.elim
  · rintro ⟨kind, t, hreads, h⟩
    cases hreads with
    | print | loadFile | writeBuf =>
        exact failsWith_map_iff.mpr ((failsWith_stringOperand_iff he).mpr h)
    | path => exact failsWith_bind_iff.mpr (.inl ((failsWith_stringOperand_iff he).mpr h))
    | data hpath hcomma =>
        apply (failsWith_bind_of_ok hpath).mpr
        apply (failsWith_bind_of_ok hcomma).mpr
        exact failsWith_bind_iff.mpr (.inl ((failsWith_stringOperand_iff he).mpr h))
    | x => exact failsWith_bind_iff.mpr (.inl ((failsWith_intOperand_iff he).mpr h))
    | y hx hcomma =>
        apply (failsWith_bind_of_ok hx).mpr
        apply (failsWith_bind_of_ok hcomma).mpr
        exact failsWith_bind_iff.mpr (.inl ((failsWith_intOperand_iff he).mpr h))
    | value => exact (failsWith_breakIfLastOperand_iff he).mpr h

theorem failsWith_statement_iff (he : e.IsOfLookup) :
    (statement table scope p keyword).FailsWith s e ↔
      ∃ kind t, ReadsOperand table scope keyword s kind t ∧ RefusesOperand table kind t e := by
  rw [statement, failsWith_bind_iff, failsWith_operandsOf_iff he, or_iff_left]
  rintro ⟨st, t, -, h⟩
  rw [failsWith_bind_iff_of_not (not_failsWith_expect he _ _)] at h
  obtain ⟨⟨⟩, u, -, hpure⟩ := h
  exact not_failsWith_of_ok rfl hpure

/-! ### Loops -/

theorem failsWith_bodyStatement_iff (he : e.IsOfLookup) :
    (bodyStatement table).FailsWith s e ↔
      ∃ keyword t, (requiredName "Expected identifier in loop body").run s = .ok keyword t ∧
        (statement table .loopBody s keyword).FailsWith t e := by
  have hget : (get : Reader Bytes).run s = .ok s s := rfl
  rw [bodyStatement, failsWith_bind_of_ok hget,
    failsWith_bind_iff_of_not (not_failsWith_requiredName he _)]

/-- The operands in a loop's body are looked up where they are read. -/
theorem failsWith_bodyStatements_iff (he : e.IsOfLookup) (done : Array Statement) :
    FailsWith (bodyStatements table done) s e ↔
      ∃ kind t, BodyReadsOperand table s kind t ∧ RefusesOperand table kind t e := by
  constructor
  · rintro ⟨u, h⟩
    unfold EStateM.run at h
    fun_induction bodyStatements table done s with
    | case1 =>
        cases h
        exact he.elim
    | case2 => cases h
    | case3 done s b v hskip hb e' rest hr =>
        cases h
        rw [← hskip] at hr
        obtain ⟨keyword, t, hkeyword, hfails⟩ := (failsWith_bodyStatement_iff he).mp ⟨_, hr⟩
        obtain ⟨kind, u, hreads, h⟩ := (failsWith_statement_iff he).mp hfails
        rw [ignoresTrivia_requiredName _ _ _ (Grammar.skipTrivia_skipTrivia _)] at hkeyword
        exact ⟨kind, u, .here hkeyword hreads, h⟩
    | case4 done s b v hskip hb st rest hr ih =>
        rw [← hskip, run_bodyStatement_skipTrivia_iff] at hr
        obtain ⟨kind, t, hreads, h⟩ := ih h
        exact ⟨kind, t, .behind hr hreads, h⟩
  · rintro ⟨kind, t, hreads, h⟩
    induction hreads generalizing done with
    | here hkeyword hoperand =>
        obtain ⟨u, hfails⟩ := (failsWith_statement_iff he).mpr ⟨_, _, hoperand, h⟩
        refine ⟨u, ?_⟩
        show bodyStatements table done _ = _
        rw [bodyStatements_of_name done hkeyword, hfails]
    | behind hstatement _ ih =>
        obtain ⟨u, hfails⟩ := ih (done.push _) h
        refine ⟨u, ?_⟩
        show bodyStatements table done _ = _
        rw [bodyStatements_of_ok done hstatement]
        exact hfails

theorem failsWith_loopBody_iff (he : e.IsOfLookup) :
    (loopBody table).FailsWith s e ↔
      ∃ u kind t, (expect (ascii '\x7b') "Expected '\x7b' after loop").run s = .ok () u ∧
        BodyReadsOperand table u kind t ∧ RefusesOperand table kind t e := by
  refine (failsWith_bind_iff_of_not (not_failsWith_expect he _ _)).trans ?_
  constructor
  · rintro ⟨⟨⟩, u, hbrace, h⟩
    obtain ⟨kind, t, hreads, h⟩ := (failsWith_bodyStatements_iff he #[]).mp h
    exact ⟨u, kind, t, hbrace, hreads, h⟩
  · rintro ⟨u, kind, t, hbrace, hreads, h⟩
    exact ⟨(), u, hbrace, (failsWith_bodyStatements_iff he #[]).mpr ⟨kind, t, hreads, h⟩⟩

/-! ### Items -/

theorem failsWith_bind_pure_iff {g : α → β} :
    (r >>= fun a => pure (g a)).FailsWith s e ↔ r.FailsWith s e := by
  rw [← map_eq_pure_bind, failsWith_map_iff]

theorem failsWith_keywordItem_iff (he : e.IsOfLookup) :
    (keywordItem table p keyword).FailsWith s e ↔
      keyword = "loop" ∧ (loopBody table).FailsWith s e ∨
      ∃ kind t, ReadsOperand table .topLevel keyword s kind t ∧ RefusesOperand table kind t e := by
  constructor
  · intro h
    unfold keywordItem at h
    split at h
    · exact absurd (failsWith_bind_pure_iff.mp h) ((faultsIn_declaration table).not_failsWith he)
    · exact .inl ⟨rfl, failsWith_bind_pure_iff.mp h⟩
    · exact .inr ((failsWith_statement_iff he).mp (failsWith_bind_pure_iff.mp h))
  · rintro (⟨rfl, h⟩ | ⟨kind, t, hreads, h⟩)
    · exact failsWith_bind_pure_iff.mpr h
    · rw [keywordItem_of_readsOperand hreads]
      exact failsWith_bind_pure_iff.mpr ((failsWith_statement_iff he).mpr ⟨kind, t, hreads, h⟩)

theorem failsWith_item_iff (he : e.IsOfLookup) :
    (item table).FailsWith s e ↔
      ∃ keyword t, (requiredName "Expected identifier").run s = .ok keyword t ∧
        (keywordItem table s.skipTrivia keyword).FailsWith t e := by
  constructor
  · intro h
    rw [item, failsWith_bind_of_ok run_significant] at h
    split at h
    · exact absurd h (not_failsWith_of_ok rfl)
    · split at h
      · exact absurd h (not_failsWith_of_ok rfl)
      · have hget : (get : Reader Bytes).run s.skipTrivia = .ok s.skipTrivia s.skipTrivia := rfl
        rw [failsWith_map_iff, namedItem, failsWith_bind_of_ok hget,
          failsWith_bind_iff_of_not (not_failsWith_requiredName he _),
          ignoresTrivia_requiredName _ _ _ (Grammar.skipTrivia_skipTrivia s)] at h
        exact h
  · rintro ⟨keyword, t, hkeyword, h⟩
    rw [FailsWith, run_item_of_name hkeyword, ← FailsWith, failsWith_map_iff]
    exact h

end Reader

namespace Script

variable {table : VariableTable} {s : Bytes} {e : Fault}

/-- Reading stops at the fault of a lookup exactly where an operand is looked up without
success. -/
theorem fault?_readItems_eq_some_iff (he : e.IsOfLookup) (done : Array Item) :
    (readItems table done s).fault? = some e ↔
      ∃ grown kind place, LooksUp table s grown kind place ∧ grown.Refuses kind place e := by
  constructor
  · intro h
    fun_induction readItems table done s with
    | case1 table done s e' rest hr =>
        cases h
        obtain ⟨keyword, t, hkeyword, h⟩ := (Reader.failsWith_item_iff he).mp ⟨_, hr⟩
        rcases (Reader.failsWith_keywordItem_iff he).mp h with
          ⟨rfl, hbody⟩ | ⟨kind, u, hreads, place, hlooks, h⟩
        · obtain ⟨u, kind, v, hbrace, hreads, place, hlooks, h⟩ :=
            (Reader.failsWith_loopBody_iff he).mp hbody
          exact ⟨table, kind, place, ⟨v, .loop hkeyword hbrace hreads, hlooks⟩, h⟩
        · exact ⟨table, kind, place, ⟨u, .statement hkeyword hreads, hlooks⟩, h⟩
    | case2 => cases h
    | case3 table done s i grown rest hr ih =>
        obtain ⟨grown, kind, place, ⟨t, hreads, hlooks⟩, h⟩ := ih h
        exact ⟨grown, kind, place, ⟨t, .behind hr hreads, hlooks⟩, h⟩
  · rintro ⟨grown, kind, place, ⟨t, hreads, hlooks⟩, h⟩
    induction hreads generalizing done with
    | statement hkeyword hoperand =>
        obtain ⟨u, hitem⟩ := (Reader.failsWith_item_iff he).mpr ⟨_, _, hkeyword,
          (Reader.failsWith_keywordItem_iff he).mpr (.inr ⟨_, _, hoperand, place, hlooks, h⟩)⟩
        rw [readItems_of_error hitem]
    | loop hkeyword hbrace hbody =>
        obtain ⟨u, hitem⟩ := (Reader.failsWith_item_iff he).mpr ⟨_, _, hkeyword,
          (Reader.failsWith_keywordItem_iff he).mpr (.inl ⟨rfl,
            (Reader.failsWith_loopBody_iff he).mpr ⟨_, _, _, hbrace, hbody, place, hlooks, h⟩⟩)⟩
        rw [readItems_of_error hitem]
    | behind hitem _ ih =>
        rw [readItems_of_some hitem]
        exact ih (done.push _) h hlooks

/-- A source has a fault of a lookup exactly if some operand in it is looked up without
success. -/
theorem fault?_read_isOfLookup_iff {maxVariables : Nat} {source : Bytes} :
    (read maxVariables source).fault? = some e ∧ e.IsOfLookup ↔
      ∃ table kind place, LooksUp { capacity := maxVariables } source table kind place ∧
        table.Refuses kind place e := by
  constructor
  · rintro ⟨h, he⟩
    exact (fault?_readItems_eq_some_iff he #[]).mp h
  · rintro ⟨table, kind, place, hlooks, h⟩
    exact ⟨(fault?_readItems_eq_some_iff h.isOfLookup #[]).mpr ⟨table, kind, place, hlooks, h⟩,
      h.isOfLookup⟩

end Script

end ConsoleScript
