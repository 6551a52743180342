import ConsoleScript.Proofs.Grammar.Concatenation
import ConsoleScript.Proofs.Grammar.Replacement
import ConsoleScript.Proofs.Grammar.ValueLiteral
import ConsoleScript.Proofs.Source.Lookup

/-!
# Literals in the places of names

A name that is looked up stands for a constant. Where a literal of the constant stands
instead, the script that is read is the same, but for the places of loops.

## Implementation notes

What is read in front of the name is local, so it is read alike in front of the literal. The
operand has the same value. What is read behind it starts with trivia, so the blank behind
the literal is skipped there. The blank in front of the literal keeps it apart from a
keyword or a number that the name stands right behind.
-/

namespace ConsoleScript

open Grammar Bytes

/-- A text that starts with a literal of the constant, with blanks around it. -/
def Value.inlined (v : Value) (back : Bytes) : Bytes :=
  ascii ' ' :: (v.literal ++ ascii ' ' :: back)

/-- The word stands for the constant, and no more of the word follows. -/
structure Grammar.Word.Names (w : Word) (table : VariableTable) (v : Value) (back : Bytes) :
    Prop where
  value : (table.find? w.text).map Variable.value = some v
  stop : ∀ b ∈ back.head?, isNameByte b = false

namespace Reader

variable {α β : Type} {r : Reader α} {f : α → Reader β} {table : VariableTable} {w : Word}
  {v : Value} {kind : ValueKind} {front back s t : Bytes}

/-! ### Readers one behind the other -/

/-- Behind what is read alike, reading goes on alike. -/
theorem run_bind_eq_of_ok {a : α} {u u' : Bytes} (hr : r.run s = .ok a u)
    (hr' : r.run t = .ok a u') (hf : (f a).run u' = (f a).run u) :
    (r >>= f).run t = (r >>= f).run s := by
  rw [run_bind_of_ok hr, run_bind_of_ok hr', hf]

/-- Behind an operand, reading does not depend on a blank. -/
theorem run_bind_eq_of_blank {a : α} (hr : r.run s = .ok a back)
    (hr' : r.run t = .ok a (ascii ' ' :: back)) (hf : IgnoresTrivia (f a)) :
    (r >>= f).run t = (r >>= f).run s :=
  run_bind_eq_of_ok hr hr' (hf _ _ (skipTrivia_blank (by decide)))

theorem IsLocal.inlined {a : α} {rest : Bytes} (hr : IsLocal r)
    (h : r.run (front ++ (w.bytes ++ back)) = .ok a (rest ++ (w.bytes ++ back))) :
    r.run (front ++ v.inlined back) = .ok a (rest ++ v.inlined back) :=
  hr rfl h

/-! ### Operands -/

theorem run_stringOperand_of_names {value : Bytes} (hw : w.Names table (.string value) back)
    (h : LooksUp .string s (w.bytes ++ back)) : (stringOperand table).run s = .ok value back := by
  apply run_stringOperand_eq_ok_iff.mpr
  refine ⟨.name w, ?_, Token.leads_iff.mpr ⟨h.eq_skipTrivia.symm, ?_⟩⟩
  · rw [StringOperand.value?, ← table.find?_text, hw.value]
    rfl
  · intro b hb
    exact Bool.eq_false_iff.mp (hw.stop b hb)

theorem run_stringOperand_of_literal (table : VariableTable) {value : Bytes}
    (h : s.skipTrivia = (Value.string value).literal ++ ascii ' ' :: back) :
    (stringOperand table).run s = .ok value (ascii ' ' :: back) := by
  apply run_stringOperand_eq_ok_iff.mpr
  refine ⟨.literal (.ofBytes value), congrArg some (StringLiteral.value_ofBytes value), ?_⟩
  apply Token.leads_iff.mpr
  rw [← StringLiteral.spelling_ofBytes] at h
  exact ⟨h, fun _ _ => id⟩

theorem run_intOperand_of_names {n : Int32} (hw : w.Names table (.int n) back)
    (h : LooksUp .int s (w.bytes ++ back)) : (intOperand table).run s = .ok n back := by
  have hdigit : ∀ b ∈ w.bytes.head?, isDigit b = false := by
    intro b hb
    have hstart := h.not_startsInteger b (List.mem_head?_append_of_mem_head? hb)
    exact (Bool.or_eq_false_iff.mp hstart).2
  apply run_intOperand_eq_ok_iff.mpr
  refine ⟨.name w hdigit, ?_, Token.leads_iff.mpr ⟨h.eq_skipTrivia.symm, ?_⟩⟩
  · rw [IntOperand.value?, ← table.find?_text, hw.value]
    rfl
  · intro b hb
    exact Bool.eq_false_iff.mp (hw.stop b hb)

theorem leads_integer_of_literal {n : Int32}
    (h : s.skipTrivia = (Value.int n).literal ++ ascii ' ' :: back) :
    (Token.integer (.ofInt n.toInt)).Leads s (ascii ' ' :: back) := by
  apply Token.leads_iff.mpr
  rw [Value.literal, ← IntLiteral.spelling_ofInt] at h
  refine ⟨h, fun b hb => ?_⟩
  cases hb
  exact (by decide : ¬isDigit (ascii ' ') = true)

theorem run_intOperand_of_literal (table : VariableTable) {n : Int32}
    (h : s.skipTrivia = (Value.int n).literal ++ ascii ' ' :: back) :
    (intOperand table).run s = .ok n (ascii ' ' :: back) := by
  apply run_intOperand_eq_ok_iff.mpr
  exact ⟨.literal (.ofInt n.toInt), congrArg some (IntLiteral.value_ofInt n),
    leads_integer_of_literal h⟩

theorem Value.significant_literal (v : Value) (rest : Bytes) : Significant (v.literal ++ rest) := by
  cases v with
  | int n =>
      rw [Value.literal, ← IntLiteral.spelling_ofInt]
      exact (Token.integer _).significant rest
  | string s =>
      rw [← StringLiteral.spelling_ofBytes]
      exact (Token.string _).significant rest

/-- In front of a name that is looked up stands trivia, and then also in front of a literal. -/
theorem skipTrivia_inlined (h : (front ++ (w.bytes ++ back)).skipTrivia = w.bytes ++ back) :
    (front ++ v.inlined back).skipTrivia = v.literal ++ ascii ' ' :: back := by
  obtain ⟨trivia, htrivia, hfront⟩ := (skipTrivia_eq_iff ((Token.word w).significant back)).mp h
  obtain rfl : front = trivia := List.append_cancel_right hfront
  rw [skipTrivia_append htrivia, Value.inlined, skipTrivia_blank (by decide)]
  exact skipTrivia_of_significant (Value.significant_literal v _)

/-- A comma that may stand in front of the second coordinate is taken in front of a name
exactly if it is in front of a literal. -/
theorem exists_run_eat_inlined (n : Int32) {found : Bool}
    (hlooks : LooksUp .int t (w.bytes ++ back))
    (h : (eat (ascii ',')).run (front ++ (w.bytes ++ back)) = .ok found t) :
    ∃ t', (eat (ascii ',')).run (front ++ (Value.int n).inlined back) = .ok found t' ∧
      t'.skipTrivia = (Value.int n).literal ++ ascii ' ' :: back := by
  cases found with
  | true =>
      obtain ⟨rest, rfl⟩ := hlooks.suffix
      have hleads : (Token.mark .comma).Leads (front ++ (Value.int n).inlined back)
          (rest ++ (Value.int n).inlined back) :=
        ((run_eat_mark_eq_true_iff .comma).mp h).replace rfl
      exact ⟨_, (run_eat_mark_eq_true_iff .comma).mpr hleads,
        skipTrivia_inlined hlooks.eq_skipTrivia.symm⟩
  | false =>
      obtain ⟨rfl, -⟩ := run_eat_eq_false_iff.mp h
      have hname := hlooks.eq_skipTrivia
      rw [skipTrivia_skipTrivia] at hname
      have hskip := skipTrivia_inlined (v := .int n) hname.symm
      refine ⟨_, run_eat_eq_false_iff.mpr ⟨rfl, ?_⟩, by rw [skipTrivia_skipTrivia, hskip]⟩
      rw [Token.head?_skipTrivia_of_leads (leads_integer_of_literal hskip)]
      exact IntLiteral.head?_spelling_ne _ (by decide) (by decide)

/-! ### Statements -/

section Operands

variable {scope : Scope} {keyword : String} {place place' : Bytes} {f : Statement → Reader β}

theorem run_stringOperand_bind_inlined {value : Bytes} {g : Bytes → Reader β}
    (hw : w.Names table (.string value) back)
    (hlooks : LooksUp .string (front ++ (w.bytes ++ back)) (w.bytes ++ back))
    (hg : ∀ a, IgnoresTrivia (g a)) :
    (stringOperand table >>= g).run (front ++ (Value.string value).inlined back) =
      (stringOperand table >>= g).run (front ++ (w.bytes ++ back)) := by
  have hskip := skipTrivia_inlined (v := .string value) hlooks.eq_skipTrivia.symm
  exact run_bind_eq_of_blank (run_stringOperand_of_names hw hlooks)
    (run_stringOperand_of_literal table hskip) (hg value)

theorem run_intOperand_bind_inlined {n : Int32} {g : Int32 → Reader β}
    (hw : w.Names table (.int n) back)
    (hlooks : LooksUp .int (front ++ (w.bytes ++ back)) (w.bytes ++ back))
    (hg : ∀ a, IgnoresTrivia (g a)) :
    (intOperand table >>= g).run (front ++ (Value.int n).inlined back) =
      (intOperand table >>= g).run (front ++ (w.bytes ++ back)) := by
  have hskip := skipTrivia_inlined (v := .int n) hlooks.eq_skipTrivia.symm
  exact run_bind_eq_of_blank (run_intOperand_of_names hw hlooks)
    (run_intOperand_of_literal table hskip) (hg n)

/-- Behind the name of a string, a statement is read on as behind the string's literal. -/
theorem run_operandsOf_bind_string {value : Bytes} (hw : w.Names table (.string value) back)
    (hreads : ReadsOperand table scope keyword (front ++ (w.bytes ++ back)) .string t)
    (hlooks : LooksUp .string t (w.bytes ++ back)) (hf : ∀ st, IgnoresTrivia (f st)) :
    (operandsOf table scope place' keyword >>= f).run
        (front ++ (Value.string value).inlined back) =
      (operandsOf table scope place keyword >>= f).run (front ++ (w.bytes ++ back)) := by
  cases hreads with
  | print | loadFile | writeBuf =>
      rw [operandsOf, operandsOf, bind_map_left]
      exact run_stringOperand_bind_inlined hw hlooks fun _ => hf _
  | path =>
      rw [operandsOf, operandsOf, writeFileOperands, bind_assoc]
      exact run_stringOperand_bind_inlined hw hlooks fun _ =>
        ((ignoresTrivia_expect _ _).bind _).bind f
  | data hpath hcomma =>
      obtain ⟨middle, rfl⟩ := hlooks.suffix.trans ((forward_expect _ _).suffix_of_ok hcomma)
      obtain ⟨rest, rfl⟩ := hlooks.suffix
      rw [operandsOf, operandsOf, writeFileOperands, bind_assoc]
      apply run_bind_eq_of_ok hpath ((isLocal_stringOperand table).inlined hpath)
      rw [bind_assoc]
      apply run_bind_eq_of_ok hcomma ((isLocal_expect .comma _).inlined hcomma)
      rw [bind_assoc]
      exact run_stringOperand_bind_inlined hw hlooks fun _ => hf _

/-- Behind the name of an integer, a statement is read on as behind the integer's literal. -/
theorem run_operandsOf_bind_int {n : Int32} (hw : w.Names table (.int n) back)
    (hreads : ReadsOperand table scope keyword (front ++ (w.bytes ++ back)) .int t)
    (hlooks : LooksUp .int t (w.bytes ++ back)) (hf : ∀ st, IgnoresTrivia (f st)) :
    (operandsOf table scope place' keyword >>= f).run
        (front ++ (Value.int n).inlined back) =
      (operandsOf table scope place keyword >>= f).run (front ++ (w.bytes ++ back)) := by
  cases hreads with
  | x =>
      rw [operandsOf, operandsOf, setCursorOperands, bind_assoc]
      exact run_intOperand_bind_inlined hw hlooks fun _ => ((ignoresTrivia_eat _).bind _).bind f
  | y hx hcomma =>
      obtain ⟨middle, rfl⟩ := hlooks.suffix.trans ((forward_eat _).suffix_of_ok hcomma)
      -- Without a comma, trivia is gone from what is left, and so is the blank of the literal.
      obtain ⟨t', hcomma', hskip⟩ := exists_run_eat_inlined n hlooks hcomma
      rw [operandsOf, operandsOf, setCursorOperands, bind_assoc]
      apply run_bind_eq_of_ok hx ((isLocal_intOperand table).inlined hx)
      rw [bind_assoc]
      apply run_bind_eq_of_ok hcomma hcomma'
      rw [bind_assoc]
      exact run_bind_eq_of_blank (run_intOperand_of_names hw hlooks)
        (run_intOperand_of_literal table hskip) (hf _)
  | value =>
      rw [operandsOf, operandsOf, breakIfLastOperand, bind_assoc]
      exact run_intOperand_bind_inlined hw hlooks fun _ => hf _

/-- A statement in which a name is looked up is the same with the literal instead. -/
theorem run_statement_inlined (hw : w.Names table v back)
    (hreads : ReadsOperand table scope keyword (front ++ (w.bytes ++ back)) v.kind t)
    (hlooks : LooksUp v.kind t (w.bytes ++ back)) :
    (statement table scope place' keyword).run (front ++ v.inlined back) =
      (statement table scope place keyword).run (front ++ (w.bytes ++ back)) := by
  cases v with
  | string value =>
      exact run_operandsOf_bind_string hw hreads hlooks fun _ => (ignoresTrivia_expect _ _).bind _
  | int n =>
      exact run_operandsOf_bind_int hw hreads hlooks fun _ => (ignoresTrivia_expect _ _).bind _

end Operands

/-! ### Loops -/

variable {keyword expectation : String}

/-- A loop's body in which a name is looked up is the same with the literal instead. -/
theorem bodyStatements_inlined (hw : w.Names table v back)
    (hreads : BodyReadsOperand table s kind t) (hkind : kind = v.kind)
    (hs : s = front ++ (w.bytes ++ back)) (hlooks : LooksUp v.kind t (w.bytes ++ back))
    (done : Array Statement) :
    bodyStatements table done (front ++ v.inlined back) = bodyStatements table done s := by
  induction hreads generalizing front done with
  | here hkeyword h =>
      subst hkind hs
      obtain ⟨rest, rfl⟩ := hlooks.suffix.trans h.suffix
      have hkeyword' := (isLocal_requiredName _).inlined (v := v) hkeyword
      rw [bodyStatements_of_name done hkeyword, bodyStatements_of_name done hkeyword',
        run_statement_inlined hw h hlooks]
  | behind hstatement h ih =>
      subst hs
      obtain ⟨rest, rfl⟩ := hlooks.suffix.trans h.suffix
      rw [bodyStatements_of_ok done hstatement,
        bodyStatements_of_ok done ((isLocal_bodyStatement table).inlined hstatement)]
      exact ih hkind rfl hlooks (done.push _)

theorem run_loopBody_inlined (hw : w.Names table v back)
    (hbrace : (expect (ascii '\x7b') "Expected '\x7b' after loop").run
      (front ++ (w.bytes ++ back)) = .ok () s)
    (hreads : BodyReadsOperand table s v.kind t) (hlooks : LooksUp v.kind t (w.bytes ++ back)) :
    (loopBody table).run (front ++ v.inlined back) =
      (loopBody table).run (front ++ (w.bytes ++ back)) := by
  obtain ⟨rest, rfl⟩ := hlooks.suffix.trans hreads.suffix
  exact run_bind_eq_of_ok hbrace ((isLocal_expect .openBrace _).inlined hbrace)
    (bodyStatements_inlined hw hreads rfl rfl hlooks #[])

/-! ### Items -/

/-- An item in front of the name is the same, but for its place. -/
theorem exists_run_item_inlined {grown : VariableTable} {rest : Bytes} {i : Item}
    (h : (item table).run (front ++ (w.bytes ++ back)) =
      .ok (some (i, grown)) (rest ++ (w.bytes ++ back))) :
    ∃ j, (item table).run (front ++ v.inlined back) =
        .ok (some (j, grown)) (rest ++ v.inlined back) ∧
      j.withoutPlace = i.withoutPlace :=
  exists_run_item_eq rfl h

/-- A statement at the top level in which a name is looked up is the same with the literal
instead. -/
theorem run_item_inlined (hw : w.Names table v back)
    (hkeyword : (requiredName "Expected identifier").run (front ++ (w.bytes ++ back)) =
      .ok keyword s)
    (hreads : ReadsOperand table .topLevel keyword s v.kind t)
    (hlooks : LooksUp v.kind t (w.bytes ++ back)) :
    (item table).run (front ++ v.inlined back) =
      (item table).run (front ++ (w.bytes ++ back)) := by
  obtain ⟨rest, rfl⟩ := hlooks.suffix.trans hreads.suffix
  have hkeyword' := (isLocal_requiredName _).inlined (v := v) hkeyword
  rw [run_item_of_name hkeyword, run_item_of_name hkeyword', keywordItem_of_readsOperand hreads,
    keywordItem_of_readsOperand hreads, map_eq_pure_bind, map_eq_pure_bind, bind_assoc, bind_assoc,
    EStateM.run_bind, EStateM.run_bind, run_statement_inlined hw hreads hlooks]

end Reader

namespace Script

/-- The script without the places of its loops. -/
def withoutPlaces (script : Script) : Script :=
  ⟨script.items.map Item.withoutPlace, script.fault?⟩

theorem withoutPlaces_readItems_of_some {table grown : VariableTable} {s rest : Bytes} {i : Item}
    (h : (Reader.item table).run s = .ok (some (i, grown)) rest) :
    (readItems table #[] s).withoutPlaces =
      ⟨i.withoutPlace :: (readItems grown #[] rest).withoutPlaces.items,
        (readItems grown #[] rest).withoutPlaces.fault?⟩ := by
  have hbehind : readItems grown #[i] rest =
      ⟨[i] ++ (readItems grown #[] rest).items, (readItems grown #[] rest).fault?⟩ :=
    readItems_append #[i] #[] rest
  have hread : readItems table #[] s = readItems grown #[i] rest := readItems_of_some h
  rw [hread, hbehind]
  rfl

/-- Items among which a name is looked up are the same with the literal instead, but for the
places of loops. -/
theorem withoutPlaces_readItems_inlined {table grown : VariableTable} {w : Word} {v : Value}
    {kind : ValueKind} {front back s t : Bytes} (hw : w.Names grown v back)
    (hreads : ReadsOperand table s grown kind t) (hkind : kind = v.kind)
    (hs : s = front ++ (w.bytes ++ back)) (hlooks : Reader.LooksUp v.kind t (w.bytes ++ back)) :
    (readItems table #[] (front ++ v.inlined back)).withoutPlaces =
      (readItems table #[] s).withoutPlaces := by
  induction hreads generalizing front with
  | statement hkeyword h =>
      subst hkind hs
      rw [readItems_eq, readItems_eq, Reader.run_item_inlined hw hkeyword h hlooks]
  | @loop table _ _ _ _ _ hkeyword hbrace h =>
      subst hkind hs
      obtain ⟨middle, rfl⟩ := (hlooks.suffix.trans h.suffix).trans
        ((Reader.forward_expect _ _).suffix_of_ok hbrace)
      have hkeyword' := (Reader.isLocal_requiredName _).inlined (v := v) hkeyword
      have hitem := Reader.run_item_of_loop table hkeyword
      have hitem' := Reader.run_item_of_loop table hkeyword'
      rw [Reader.run_loopBody_inlined hw hbrace h hlooks] at hitem'
      cases hbody : (Reader.loopBody table).run (middle ++ (w.bytes ++ back)) with
      | error e rest =>
          rw [hbody] at hitem hitem'
          rw [readItems_of_error hitem, readItems_of_error hitem']
      | ok body rest =>
          rw [hbody] at hitem hitem'
          rw [withoutPlaces_readItems_of_some hitem, withoutPlaces_readItems_of_some hitem']
          rfl
  | behind hitem h ih =>
      subst hs
      obtain ⟨rest, rfl⟩ := hlooks.suffix.trans h.suffix
      obtain ⟨j, hitem', hplace⟩ := Reader.exists_run_item_inlined (v := v) hitem
      rw [withoutPlaces_readItems_of_some hitem, withoutPlaces_readItems_of_some hitem', hplace,
        ih hw hkind rfl hlooks]

end Script

end ConsoleScript
