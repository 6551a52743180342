import ConsoleScript.Proofs.Source.FaultPlace
import ConsoleScript.Proofs.Source.ItemSequence
import ConsoleScript.Proofs.Source.LookupCongruence

/-!
# Room for variables

A table of variables has room for some more of them. Whether there is any is asked behind the
equals sign of a declaration, and nowhere else. So two tables with the same look-ups, of which
the second one has as much room as the first one, are as good as each other until the first
one has no room for a declaration.

## Implementation notes

One table may be tighter than another because it has a smaller capacity, or because it has
entries that no look-up comes to. Both are kept by each declaration, so one relation serves
for both.
-/

namespace ConsoleScript

open Grammar Bytes

/-! ### Tables -/

namespace VariableTable

variable {table table' : VariableTable} {v : Variable} {name : String}

/-- The number of variables that can still be declared. -/
def room (table : VariableTable) : Nat := table.capacity - table.size

/-- The table with the variable behind the others. -/
def push (table : VariableTable) (v : Variable) : VariableTable :=
  { table with entries := table.entries.push v.stored }

theorem isFull_eq_true_iff : table.isFull = true ↔ table.room = 0 := by
  rw [isFull, decide_eq_true_iff, room, Nat.sub_eq_zero_iff_le]

theorem isFull_eq_false_iff : table.isFull = false ↔ 0 < table.room := by
  rw [← Bool.not_eq_true, isFull_eq_true_iff, Nat.pos_iff_ne_zero]

theorem declare_of_room (h : table.isFull = false) (v : Variable) :
    table.declare v = .ok (table.push v) := by
  rw [declare, h]
  rfl

@[simp] theorem size_push (table : VariableTable) (v : Variable) :
    (table.push v).size = table.size + 1 :=
  Array.size_push _

theorem room_push (table : VariableTable) (v : Variable) :
    (table.push v).room = table.room - 1 := by
  rw [room, size_push, room, Nat.sub_sub]
  rfl

theorem find?_push (table : VariableTable) (v : Variable) (name : String) :
    (table.push v).find? name =
      (table.find? name <|> if v.name = name then some v.stored else none) := by
  simp [find?, push, Array.find?_push, Variable.stored]

/-- Each name stands for the same in both tables, and where there is room in the first one,
there is as much in the second one. -/
structure IsTighter (table table' : VariableTable) : Prop where
  find?_eq : table'.find? = table.find?
  room_le : table.room ≤ table'.room

theorem IsTighter.push (h : table.IsTighter table') (v : Variable) :
    (table.push v).IsTighter (table'.push v) where
  find?_eq := by
    funext name
    rw [find?_push, find?_push, h.find?_eq]
  room_le := by
    rw [room_push, room_push]
    exact Nat.sub_le_sub_right h.room_le 1

theorem IsTighter.isFull_eq_false (h : table.IsTighter table') (hroom : table.isFull = false) :
    table'.isFull = false :=
  isFull_eq_false_iff.mpr ((isFull_eq_false_iff.mp hroom).trans_le h.room_le)

theorem isTighter_of_capacity_le {entries : Array Variable} {capacity capacity' : Nat}
    (h : capacity ≤ capacity') : IsTighter ⟨entries, capacity⟩ ⟨entries, capacity'⟩ where
  find?_eq := rfl
  room_le := Nat.sub_le_sub_right h _

/-- A declaration of a name that is declared already only takes room. -/
theorem isTighter_of_find?_eq_some {w : Variable} (h : table.find? v.name = some w) :
    (table.push v).IsTighter table where
  find?_eq := by
    funext name
    rw [find?_push]
    by_cases hname : v.name = name
    · rw [← hname, h]
      rfl
    · rw [if_neg hname]
      cases table.find? name <;> rfl
  room_le := by
    rw [room_push]
    exact Nat.sub_le _ _

end VariableTable

/-! ### Declarations -/

/-- A declaration starts at `s`, and `place` is left behind its equals sign. -/
def Grammar.OpensDeclaration (s place : Bytes) : Prop :=
  ∃ name : Word, Renders [.word Keyword.var.word, .word name, .mark .equals] s place

namespace Reader

variable {table table' grown grown' : VariableTable} {s t place rest : Bytes} {i : Item}

/-- Takes a declaration behind its keyword up to the equals sign, and gives the name. -/
def declarationHead : Reader String := do
  let name ← requiredName "Expected variable name after var"
  expect (ascii '=') "Expected '=' in var declaration"
  return name

/-- Takes a declaration of the name behind the equals sign. -/
def declarationTail (name : String) : Reader Variable := do
  let value ← value
  expect (ascii ';') "Expected ';' after var declaration"
  return ⟨name, value⟩

/-- A table with room takes each declaration that can be read. -/
theorem declaration_of_room (h : table.isFull = false) :
    declaration table = (fun v => (v, table.push v)) <$> (declarationHead >>= declarationTail) := by
  have hroom : roomForVariable table = pure () := by
    rw [roomForVariable, h]
    rfl
  have hdeclare : ∀ v, declare table v = pure (table.push v) := by
    intro v
    rw [declare, VariableTable.declare_of_room h]
  simp only [declaration, declarationHead, declarationTail, hroom, hdeclare, map_eq_pure_bind,
    bind_assoc, pure_bind]

/-- A table without room refuses a declaration behind its equals sign. -/
theorem declaration_of_full (h : table.isFull = true) :
    declaration table = (declarationHead >>= fun _ => tooManyVariables table.capacity) := by
  have hroom : roomForVariable table = tooManyVariables table.capacity := by
    rw [roomForVariable, h]
    rfl
  simp only [declaration, declarationHead, hroom, bind_assoc, pure_bind]
  rfl

theorem run_declarationHead_eq_ok_iff {name : String} :
    declarationHead.run s = .ok name rest ↔
      ∃ w : Word, w.text = name ∧ Renders [.word w, .mark .equals] s rest := by
  rw [declarationHead, run_bind_eq_ok_iff]
  constructor
  · rintro ⟨n, t, hname, h⟩
    obtain ⟨⟨⟩, u, hequals, h⟩ := run_bind_eq_ok_iff.mp h
    cases h
    obtain ⟨w, rfl, hw⟩ := run_requiredName_eq_ok_iff.mp hname
    exact ⟨w, rfl, t, hw, rest, (run_expect_eq_ok_iff .equals).mp hequals, rfl⟩
  · rintro ⟨w, rfl, t, hw, hequals⟩
    refine ⟨w.text, t, run_requiredName_eq_ok_iff.mpr ⟨w, rfl, hw⟩, ?_⟩
    apply run_bind_eq_ok_iff.mpr
    exact ⟨(), rest, (run_expect_eq_ok_iff .equals).mpr (renders_singleton.mp hequals), rfl⟩

theorem opensDeclaration_iff :
    OpensDeclaration s place ↔ ∃ t, (requiredName "Expected identifier").run s = .ok "var" t ∧
      ∃ name, declarationHead.run t = .ok name place := by
  constructor
  · rintro ⟨name, t, hvar, hname⟩
    refine ⟨t, run_requiredName_eq_ok_iff.mpr ⟨_, Keyword.var.text_word, hvar⟩, name.text, ?_⟩
    exact run_declarationHead_eq_ok_iff.mpr ⟨name, rfl, hname⟩
  · rintro ⟨t, hvar, name, hname⟩
    obtain ⟨w, htext, hvar⟩ := run_requiredName_eq_ok_iff.mp hvar
    obtain rfl : w = Keyword.var.word := Keyword.eq_word_of_text htext
    obtain ⟨name, -, hname⟩ := run_declarationHead_eq_ok_iff.mp hname
    exact ⟨name, t, hvar, hname⟩

theorem run_item_of_var (table : VariableTable)
    (h : (requiredName "Expected identifier").run s = .ok "var" t) :
    (item table).run s =
      ((fun d => some (Item.declaration d.1, d.2)) <$> declaration table).run t := by
  have hitem : keywordItem table s.skipTrivia "var" =
      (fun d => (Item.declaration d.1, d.2)) <$> declaration table := rfl
  rw [run_item_of_name h, hitem, Functor.map_map]

/-- A declaration is refused behind its equals sign if there is no room. -/
theorem run_item_of_full (hfull : table.isFull = true) (h : OpensDeclaration s place) :
    (item table).run s = .error (.tooManyVariables table.capacity place) place := by
  obtain ⟨t, hvar, name, hhead⟩ := opensDeclaration_iff.mp h
  rw [run_item_of_var table hvar, declaration_of_full hfull, map_bind, run_bind_of_ok hhead]
  rfl

theorem opensDeclaration_of_renders {name : Word} {literal : Literal}
    (h : Renders (Clause.declaration name literal).tokens s rest) :
    ∃ place, OpensDeclaration s place := by
  obtain ⟨t, hvar, u, hname, place, hequals, -⟩ := h
  exact ⟨place, name, t, hvar, u, hname, place, hequals, rfl⟩

/-- A declaration is read if there is room, and its variable stands behind the others. -/
theorem run_item_of_room {name : Word} {literal : Literal} (hroom : table.isFull = false)
    (h : Renders (Clause.declaration name literal).tokens s rest) :
    (item table).run s = .ok (some (.declaration ⟨name.text, literal.value⟩,
      table.push ⟨name.text, literal.value⟩)) rest := by
  apply run_item_eq_some_iff.mpr
  refine ⟨.declaration name literal, ?_, h⟩
  rw [Clause.item?, VariableTable.declare_of_room hroom]
  rfl

/-- Where a declaration starts, only a declaration is read. -/
theorem exists_of_opensDeclaration (h : OpensDeclaration s place)
    (hitem : (item table).run s = .ok (some (i, grown)) rest) : ∃ v, i = .declaration v := by
  obtain ⟨t, hvar, -⟩ := opensDeclaration_iff.mp h
  rw [run_item_of_var table hvar] at hitem
  obtain ⟨d, -, heq⟩ := run_map_eq_ok_iff.mp hitem
  cases heq
  exact ⟨d.1, rfl⟩

/-! ### Items -/

/-- The readings give the same item or the same fault, and the table behind the item in the
first one is tighter than in the second one. -/
inductive Agree : Reading (Option (Item × VariableTable)) →
    Reading (Option (Item × VariableTable)) → Prop
  | error {e : Fault} {rest : Bytes} : Agree (.error e rest) (.error e rest)
  | nothing {rest : Bytes} : Agree (.ok none rest) (.ok none rest)
  | item {i : Item} {grown grown' : VariableTable} {rest : Bytes} (h : grown.IsTighter grown') :
      Agree (.ok (some (i, grown)) rest) (.ok (some (i, grown')) rest)

theorem agree_map {α : Type} {r : Reader α} {f : α → Option (Item × VariableTable)}
    {f' : α → Option (Item × VariableTable)}
    (h : ∀ a rest, Agree (.ok (f a) rest) (.ok (f' a) rest)) :
    Agree ((f <$> r).run s) ((f' <$> r).run s) := by
  rw [map_eq_pure_bind, map_eq_pure_bind, EStateM.run_bind, EStateM.run_bind]
  cases r.run s with
  | error e rest => exact .error
  | ok a rest => exact h a rest

theorem Agree.exists_right {reading : Reading (Option (Item × VariableTable))}
    (h : Agree (.ok (some (i, grown)) rest) reading) :
    ∃ grown' : VariableTable, reading = .ok (some (i, grown')) rest ∧ grown.IsTighter grown' := by
  cases h with
  | item h => exact ⟨_, rfl, h⟩

theorem Agree.exists_left {reading : Reading (Option (Item × VariableTable))}
    (h : Agree reading (.ok (some (i, grown')) rest)) :
    ∃ grown : VariableTable, reading = .ok (some (i, grown)) rest ∧ grown.IsTighter grown' := by
  cases h with
  | item h => exact ⟨_, rfl, h⟩

/-- With the tighter table an item is read as with the other one, unless it is a declaration
for which there is no room. -/
theorem agree_item (h : table.IsTighter table')
    (hroom : table.isFull = true → ∀ place, ¬OpensDeclaration s place) :
    Agree ((item table).run s) ((item table').run s) := by
  by_cases hvar : ∃ t, (requiredName "Expected identifier").run s = .ok "var" t
  · obtain ⟨t, hvar⟩ := hvar
    rw [run_item_of_var table hvar, run_item_of_var table' hvar]
    cases hfull : table.isFull with
    | false =>
        rw [declaration_of_room hfull, declaration_of_room (h.isFull_eq_false hfull),
          Functor.map_map, Functor.map_map]
        exact agree_map fun v rest => .item (h.push v)
    | true =>
        cases hhead : declarationHead.run t with
        | ok name place =>
            exact absurd (opensDeclaration_iff.mpr ⟨t, hvar, name, hhead⟩) (hroom hfull place)
        | error e rest =>
            have hfails : ∀ table, (declaration table).run t = .error e rest := by
              intro table
              cases hfull : table.isFull with
              | true =>
                  rw [declaration_of_full hfull]
                  exact run_bind_eq_error_iff.mpr (.inl hhead)
              | false =>
                  rw [declaration_of_room hfull, map_bind]
                  exact run_bind_eq_error_iff.mpr (.inl hhead)
            rw [map_eq_pure_bind, map_eq_pure_bind, EStateM.run_bind, EStateM.run_bind,
              hfails table, hfails table']
            exact .error
  · rw [not_exists] at hvar
    obtain ⟨r, hr⟩ := exists_run_item_eq_map table hvar
    rw [hr table rfl, hr table' h.find?_eq]
    refine agree_map fun i rest => ?_
    cases i with
    | none => exact .nothing
    | some i => exact .item h

/-- Only a table without room is refused for want of room, behind an equals sign. -/
theorem run_item_eq_tooManyVariables_iff {limit : Nat} :
    (item table).run s = .error (.tooManyVariables limit place) rest ↔
      table.isFull = true ∧ OpensDeclaration s place ∧ limit = table.capacity ∧ rest = place := by
  constructor
  · intro h
    by_cases hroom : table.isFull = true → ∀ place, ¬OpensDeclaration s place
    · -- With one more place in the table the fault would be the same, and tell another limit.
      have htighter : table.IsTighter ⟨table.entries, table.capacity + 1⟩ :=
        VariableTable.isTighter_of_capacity_le (Nat.le_succ _)
      have hagree := agree_item htighter hroom
      have hlimit : limit = table.capacity := by
        obtain ⟨-, -, -, -, hlimit, -⟩ := faultsWithin_item table s List.suffix_rfl _ _ h
        exact hlimit
      rw [h] at hagree
      generalize hlarger : (item ⟨table.entries, table.capacity + 1⟩).run s = reading at hagree
      cases hagree
      obtain ⟨-, -, -, -, hlimit', -⟩ :=
        faultsWithin_item ⟨table.entries, table.capacity + 1⟩ s List.suffix_rfl _ _ hlarger
      exact absurd (hlimit.symm.trans hlimit') (Nat.lt_succ_self _).ne
    · simp only [Classical.not_imp, not_forall, not_not] at hroom
      obtain ⟨hfull, place', hopens⟩ := hroom
      rw [run_item_of_full hfull hopens] at h
      cases h
      exact ⟨hfull, hopens, rfl, rfl⟩
  · rintro ⟨hfull, hopens, rfl, rfl⟩
    exact run_item_of_full hfull hopens

end Reader

/-! ### Scripts -/

namespace Script

variable {table table' grown grown' : VariableTable} {s rest : Bytes} {items : List Item}

theorem ReadsItems.room_eq (h : ReadsItems table s items grown rest) :
    grown.room = table.room - (items.flatMap Item.declarations).length := by
  rw [VariableTable.room, VariableTable.room, h.capacity_eq, h.size_eq, Nat.sub_sub]

/-- What is read with a table is read with each one that it is tighter than. -/
theorem ReadsItems.exists_of_isTighter (hreads : ReadsItems table s items grown rest)
    (h : table.IsTighter table') :
    ∃ grown', ReadsItems table' s items grown' rest ∧ grown.IsTighter grown' := by
  induction hreads generalizing table' with
  | nil => exact ⟨table', .nil, h⟩
  | cons hitem _ ih =>
      have hagree := Reader.agree_item h fun hfull place hopens => by
        rw [Reader.run_item_of_full hfull hopens] at hitem
        cases hitem
      rw [hitem] at hagree
      obtain ⟨next', hitem', hnext⟩ := hagree.exists_right
      obtain ⟨grown', hreads', hgrown⟩ := ih hnext
      exact ⟨grown', .cons hitem' hreads', hgrown⟩

/-- What is read with a table is read with each tighter one that has room for what is
declared. -/
theorem ReadsItems.exists_of_room (hreads : ReadsItems table' s items grown' rest)
    (h : table.IsTighter table')
    (hroom : (items.flatMap Item.declarations).length ≤ table.room) :
    ∃ grown, ReadsItems table s items grown rest ∧ grown.IsTighter grown' := by
  induction hreads generalizing table with
  | nil => exact ⟨table, .nil, h⟩
  | @cons table' next' grown' s t rest i items hitem' hreads' ih =>
      rw [List.flatMap_cons, List.length_append] at hroom
      have hagree := Reader.agree_item h fun hfull place hopens => by
        obtain ⟨v, rfl⟩ := Reader.exists_of_opensDeclaration hopens hitem'
        rw [VariableTable.isFull_eq_true_iff.mp hfull] at hroom
        exact Nat.not_succ_le_zero 0 ((Nat.le_add_right 1 _).trans hroom)
      rw [hitem'] at hagree
      obtain ⟨next, hitem, hnext⟩ := hagree.exists_left
      have hnextRoom : next.room = table.room - i.declarations.length := by
        simpa using (ReadsItems.cons hitem .nil).room_eq
      obtain ⟨grown, hreads, hgrown⟩ := ih hnext (by omega)
      exact ⟨grown, .cons hitem hreads, hgrown⟩

/-- Reading stops with a table as with a tighter one, unless that one has no room for a
declaration. -/
theorem StopsWith.of_isTighter {fault? : Option Fault} (hstops : StopsWith table s fault?)
    (h : table.IsTighter table')
    (hroom : table.isFull = true → ∀ place, ¬OpensDeclaration s place) :
    StopsWith table' s fault? := by
  have hagree := Reader.agree_item h hroom
  cases fault? with
  | none =>
      rw [show (Reader.item table).run s = .ok none [] from hstops] at hagree
      generalize hreading : (Reader.item table').run s = reading at hagree
      cases hagree
      exact hreading
  | some e =>
      obtain ⟨rest, hstops⟩ := hstops
      rw [hstops] at hagree
      generalize hreading : (Reader.item table').run s = reading at hagree
      cases hagree
      exact ⟨rest, hreading⟩

/-- A script is the same with a table as with a tighter one, unless that one comes to a
declaration for which there is no room. -/
theorem readItems_of_isTighter (h : table.IsTighter table') (s : Bytes) :
    readItems table' #[] s = readItems table #[] s ∨
      ∃ front grown rest place, ReadsItems table s front grown rest ∧ grown.isFull = true ∧
        OpensDeclaration rest place := by
  obtain ⟨items, grown, rest, fault?, hreads, hstops, heq⟩ := exists_readsItems table #[] s
  by_cases hroom : grown.isFull = true → ∀ place, ¬OpensDeclaration rest place
  · obtain ⟨grown', hreads', hgrown⟩ := hreads.exists_of_isTighter h
    have hscript : readItems table' #[] s = ⟨items, fault?⟩ :=
      readItems_eq_iff.mpr ⟨grown', rest, hreads', hstops.of_isTighter hgrown hroom⟩
    exact .inl (hscript.trans heq.symm)
  · simp only [Classical.not_imp, not_forall, not_not] at hroom
    obtain ⟨hfull, place, hopens⟩ := hroom
    exact .inr ⟨items, grown, rest, place, hreads, hfull, hopens⟩

/-- A script stops where there is no room for a declaration, behind its equals sign. -/
theorem ReadsItems.readItems_of_full {place : Bytes} (h : ReadsItems table s items grown rest)
    (hfull : grown.isFull = true) (hopens : OpensDeclaration rest place) :
    readItems table #[] s = ⟨items, some (.tooManyVariables table.capacity place)⟩ := by
  rw [← h.capacity_eq]
  exact readItems_eq_iff.mpr
    ⟨grown, rest, h, place, Reader.run_item_of_full hfull hopens⟩

/-! ### Programs -/

/-- If there is room for what a script declares with a table, it is the same script with each
table that this one is tighter than, or both are refused for the same loop, which is too long. -/
theorem ofScript_readItems_of_isTighter {range : JumpRange} (h : table.IsTighter table')
    (hroom : ∀ limit place, Program.ofScript range (readItems table #[] s) ≠
      .error (.tooManyVariables limit place)) :
    readItems table' #[] s = readItems table #[] s ∨
      ∃ e, Program.ofScript range (readItems table #[] s) = .error e ∧
        Program.ofScript range (readItems table' #[] s) = .error e := by
  rcases readItems_of_isTighter h s with heq | ⟨front, grown, rest, place, hreads, hfull, hopens⟩
  · exact .inl heq
  · cases hfront : Program.assemble range ⟨front, none⟩ with
    | ok p =>
        refine absurd ?_ (hroom table.capacity place)
        rw [hreads.readItems_of_full hfull hopens]
        exact Program.ofScript_eq_error_iff.mpr (.inr ⟨⟨p, hfront⟩, rfl⟩)
    | error e =>
        -- The loop stands in front of the declaration, so both come to it.
        obtain ⟨grown', hreads', -⟩ := hreads.exists_of_isTighter h
        refine .inr ⟨e, ?_, ?_⟩
        · rw [hreads.readItems_eq_append]
          exact Program.ofScript_append_of_assemble_eq_error hfront _
        · rw [hreads'.readItems_eq_append]
          exact Program.ofScript_append_of_assemble_eq_error hfront _

end Script

end ConsoleScript
