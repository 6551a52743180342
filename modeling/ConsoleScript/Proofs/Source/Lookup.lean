import ConsoleScript.Proofs.Grammar.Replacement

/-!
# Where names are looked up

While a script is read, names in the places of operands are looked up. The relations here
follow the readers to such a place: the items in front of it are read, then the statements
in front of it in its loop, its keyword, and the operands in front of it.
-/

namespace ConsoleScript

open Grammar Bytes

namespace Reader

/-- An operand of the kind that is read from `s` on is looked up at `place`. -/
inductive LooksUp : ValueKind → Bytes → Bytes → Prop
  | string {s : Bytes} (h : s.skipTrivia.head? ≠ some (ascii '"')) :
      LooksUp .string s s.skipTrivia
  | int {s : Bytes} (h : ¬s.skipTrivia.head?.any startsInteger) : LooksUp .int s s.skipTrivia

section LooksUp

variable {table : VariableTable} {kind : ValueKind} {s place : Bytes}

theorem LooksUp.eq_skipTrivia (h : LooksUp kind s place) : place = s.skipTrivia := by
  cases h <;> rfl

theorem LooksUp.suffix (h : LooksUp kind s place) : place <:+ s := by
  rw [h.eq_skipTrivia]
  exact Bytes.skipTrivia_suffix s

theorem LooksUp.not_startsInteger (h : LooksUp .int s place) :
    ∀ b ∈ place.head?, startsInteger b = false := by
  cases h with
  | int h =>
      intro b hb
      rw [Option.mem_def.mp hb, Option.any_some] at h
      exact Bool.eq_false_iff.mpr h

theorem run_stringOperand_of_looksUp (h : LooksUp .string s place) :
    (stringOperand table).run s = (constant table .string Value.string?
      "Expected string literal or variable").run place := by
  cases h with
  | string h =>
      rw [stringOperand, EStateM.run_bind, run_significant]
      show (if _ then _ else _ : Reader Bytes).run _ = _
      rw [if_neg h]

theorem run_intOperand_of_looksUp (h : LooksUp .int s place) :
    (intOperand table).run s = (constant table .int Value.int?
      "Expected int literal or variable").run place := by
  cases h with
  | int h =>
      rw [intOperand, EStateM.run_bind, run_significant]
      show (if _ then _ else _ : Reader Int32).run _ = _
      rw [if_neg h]

end LooksUp

/-- Behind the keyword, from `s` on, an operand of the kind is read from `t` on. -/
inductive ReadsOperand (table : VariableTable) :
    Scope → String → Bytes → ValueKind → Bytes → Prop
  | print {scope : Scope} {s : Bytes} : ReadsOperand table scope "print" s .string s
  | loadFile {scope : Scope} {s : Bytes} : ReadsOperand table scope "readfile" s .string s
  | writeBuf {scope : Scope} {s : Bytes} : ReadsOperand table scope "writebuf" s .string s
  | path {scope : Scope} {s : Bytes} : ReadsOperand table scope "writefile" s .string s
  | data {scope : Scope} {s path u t : Bytes}
      (hpath : (stringOperand table).run s = .ok path u)
      (hcomma : (expect (ascii ',') "Expected ',' after path in writefile").run u = .ok () t) :
      ReadsOperand table scope "writefile" s .string t
  | x {scope : Scope} {s : Bytes} : ReadsOperand table scope "setcursor" s .int s
  | y {scope : Scope} {s u t : Bytes} {x : Int32} {found : Bool}
      (hx : (intOperand table).run s = .ok x u)
      (hcomma : (eat (ascii ',')).run u = .ok found t) :
      ReadsOperand table scope "setcursor" s .int t
  | value {s : Bytes} : ReadsOperand table .loopBody "breakiflast" s .int s

/-- In the loop's body that is read from `s` on, an operand of the kind is read from `t` on. -/
inductive BodyReadsOperand (table : VariableTable) : Bytes → ValueKind → Bytes → Prop
  | here {s u t : Bytes} {keyword : String} {kind : ValueKind}
      (hkeyword : (requiredName "Expected identifier in loop body").run s = .ok keyword u)
      (h : ReadsOperand table .loopBody keyword u kind t) : BodyReadsOperand table s kind t
  | behind {s u t : Bytes} {statement : Statement} {kind : ValueKind}
      (hstatement : (bodyStatement table).run s = .ok statement u)
      (h : BodyReadsOperand table u kind t) : BodyReadsOperand table s kind t

end Reader

namespace Script

/-- In the items that are read with a table from `s` on, an operand of the kind is read with
the table `grown` from `t` on. -/
inductive ReadsOperand : VariableTable → Bytes → VariableTable → ValueKind → Bytes → Prop
  | statement {table : VariableTable} {s u t : Bytes} {keyword : String} {kind : ValueKind}
      (hkeyword : (Reader.requiredName "Expected identifier").run s = .ok keyword u)
      (h : Reader.ReadsOperand table .topLevel keyword u kind t) :
      ReadsOperand table s table kind t
  | loop {table : VariableTable} {s u v t : Bytes} {kind : ValueKind}
      (hkeyword : (Reader.requiredName "Expected identifier").run s = .ok "loop" u)
      (hbrace : (Reader.expect (ascii '\x7b') "Expected '\x7b' after loop").run u = .ok () v)
      (h : Reader.BodyReadsOperand table v kind t) : ReadsOperand table s table kind t
  | behind {table next grown : VariableTable} {s u t : Bytes} {i : Item} {kind : ValueKind}
      (hitem : (Reader.item table).run s = .ok (some (i, next)) u)
      (h : ReadsOperand next u grown kind t) : ReadsOperand table s grown kind t

/-- In the items that are read with a table from `s` on, what stands at `place` is looked up
in the table `grown`, in the place of an operand of the kind. -/
def LooksUp (table : VariableTable) (s : Bytes) (grown : VariableTable) (kind : ValueKind)
    (place : Bytes) : Prop :=
  ∃ t, ReadsOperand table s grown kind t ∧ Reader.LooksUp kind t place

end Script

/-! ### Keywords -/

namespace Reader

variable {α β : Type} {r : Reader α} {f : α → Reader β} {table : VariableTable}
  {kind : ValueKind} {keyword expectation : String} {s t : Bytes}

theorem run_bind_of_ok {a : α} (h : r.run s = .ok a t) : (r >>= f).run s = (f a).run t := by
  rw [EStateM.run_bind, h]

theorem exists_cons_of_run_requiredName (h : (requiredName expectation).run s = .ok keyword t) :
    ∃ b u, s.skipTrivia = b :: u ∧ isNameByte b = true := by
  obtain ⟨w, -, hleads⟩ := run_requiredName_eq_ok_iff.mp h
  exact Renders.exists_cons_of_word (renders_singleton.mpr hleads)

/-- In front of a byte that is not the closing brace, a statement is read. -/
theorem bodyStatements_of_cons {b : UInt8} {u : Bytes} (done : Array Statement)
    (hskip : s.skipTrivia = b :: u) (hb : b ≠ ascii '\x7d') :
    bodyStatements table done s =
      match (bodyStatement table).run s.skipTrivia with
      | .error e rest => .error e rest
      | .ok st rest => bodyStatements table (done.push st) rest := by
  rw [bodyStatements]
  split
  case h_1 hs =>
    rw [hskip] at hs
    cases hs
  case h_2 hs =>
    rw [hskip] at hs
    cases hs
    rw [if_neg hb, hskip]
    split
    case h_1 hr => rw [hr]
    case h_2 hr => rw [hr]

/-- Where a statement of a loop's body starts with a keyword. -/
theorem bodyStatements_of_name (done : Array Statement)
    (h : (requiredName "Expected identifier in loop body").run s = .ok keyword t) :
    bodyStatements table done s =
      match (statement table .loopBody s.skipTrivia keyword).run t with
      | .error e rest => .error e rest
      | .ok st rest => bodyStatements table (done.push st) rest := by
  obtain ⟨b, u, hskip, hb⟩ := exists_cons_of_run_requiredName h
  have hkeyword : (requiredName "Expected identifier in loop body").run s.skipTrivia =
      .ok keyword t :=
    (ignoresTrivia_requiredName _ _ _ (skipTrivia_skipTrivia s)).trans h
  have hrun : (bodyStatement table).run s.skipTrivia =
      (statement table .loopBody s.skipTrivia keyword).run t := run_bind_of_ok hkeyword
  rw [bodyStatements_of_cons done hskip (ne_of_class hb (by decide)), hrun]

theorem run_bodyStatement_skipTrivia_iff {st : Statement} :
    (bodyStatement table).run s.skipTrivia = .ok st t ↔ (bodyStatement table).run s = .ok st t := by
  rw [run_bodyStatement_eq_ok_iff, run_bodyStatement_eq_ok_iff]
  exact exists_congr fun c => and_congr_right fun _ =>
    renders_skipTrivia_iff (List.cons_ne_nil _ _)

theorem bodyStatements_of_ok {st : Statement} (done : Array Statement)
    (h : (bodyStatement table).run s = .ok st t) :
    bodyStatements table done s = bodyStatements table (done.push st) t := by
  obtain ⟨c, hst, hrenders⟩ := run_bodyStatement_eq_ok_iff.mp h
  exact bodyStatements_of_command hst hrenders

/-- Where an item starts with a keyword. -/
theorem run_item_of_name (h : (requiredName "Expected identifier").run s = .ok keyword t) :
    (item table).run s = (some <$> keywordItem table s.skipTrivia keyword).run t := by
  obtain ⟨b, u, hskip, hb⟩ := exists_cons_of_run_requiredName h
  have hkeyword : (requiredName "Expected identifier").run s.skipTrivia = .ok keyword t :=
    (ignoresTrivia_requiredName _ _ _ (skipTrivia_skipTrivia s)).trans h
  have hnamed : (namedItem table).run s.skipTrivia =
      (keywordItem table s.skipTrivia keyword).run t := run_bind_of_ok hkeyword
  rw [run_item_of_ne (by rw [hskip]; rfl) (ne_of_class hb (by decide)), map_eq_pure_bind,
    map_eq_pure_bind, EStateM.run_bind, EStateM.run_bind, hnamed]

theorem keywordItem_of_readsOperand {place : Bytes}
    (h : ReadsOperand table .topLevel keyword s kind t) :
    keywordItem table place keyword = (do
      let st ← statement table .topLevel place keyword
      return (.statement st, table)) := by
  cases h <;> rfl

/-- A loop is read as its body is. -/
theorem run_item_of_loop (table : VariableTable)
    (h : (requiredName "Expected identifier").run s = .ok "loop" t) :
    (item table).run s =
      match (loopBody table).run t with
      | .error e rest => .error e rest
      | .ok body rest => .ok (some (.loop s.skipTrivia body, table)) rest := by
  have hloop : (keywordItem table s.skipTrivia "loop").run t =
      match (loopBody table).run t with
      | .error e rest => .error e rest
      | .ok body rest => .ok (.loop s.skipTrivia body, table) rest := by
    show (loopBody table >>= fun body => pure (Item.loop s.skipTrivia body, table)).run t = _
    rw [EStateM.run_bind]
    cases (loopBody table).run t <;> rfl
  rw [run_item_of_name h, map_eq_pure_bind, EStateM.run_bind, hloop]
  cases (loopBody table).run t <;> rfl

end Reader

/-! ### Places -/

namespace Reader

variable {table : VariableTable} {kind : ValueKind} {s t : Bytes}

theorem ReadsOperand.suffix {scope : Scope} {keyword : String}
    (h : ReadsOperand table scope keyword s kind t) : t <:+ s := by
  cases h with
  | print | loadFile | writeBuf | path | x | value => exact List.suffix_rfl
  | data hpath hcomma =>
      exact ((forward_expect _ _).suffix_of_ok hcomma).trans
        ((forward_stringOperand table).suffix_of_ok hpath)
  | y hx hcomma =>
      exact ((forward_eat _).suffix_of_ok hcomma).trans
        ((forward_intOperand table).suffix_of_ok hx)

theorem BodyReadsOperand.suffix (h : BodyReadsOperand table s kind t) : t <:+ s := by
  induction h with
  | here hkeyword h =>
      exact h.suffix.trans ((forward_requiredName _).suffix_of_ok hkeyword)
  | behind hstatement _ ih =>
      exact ih.trans ((forward_bodyStatement table).suffix_of_ok hstatement)

end Reader

namespace Script

variable {table grown : VariableTable} {kind : ValueKind} {s t place : Bytes}

theorem ReadsOperand.suffix (h : ReadsOperand table s grown kind t) : t <:+ s := by
  induction h with
  | statement hkeyword h =>
      exact h.suffix.trans ((Reader.forward_requiredName _).suffix_of_ok hkeyword)
  | loop hkeyword hbrace h =>
      exact (h.suffix.trans ((Reader.forward_expect _ _).suffix_of_ok hbrace)).trans
        ((Reader.forward_requiredName _).suffix_of_ok hkeyword)
  | behind hitem _ ih => exact ih.trans ((Reader.forward_item _).suffix_of_ok hitem)

theorem LooksUp.suffix (h : LooksUp table s grown kind place) : place <:+ s := by
  obtain ⟨t, hreads, hlooks⟩ := h
  exact hlooks.suffix.trans hreads.suffix

end Script

end ConsoleScript
