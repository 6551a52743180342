import ConsoleScript.Proofs.Grammar.Concatenation

/-!
# Items one behind the other

A script is read item by item. Behind some items there is a table of the variables that they
declare, and the rest of the source. Reading goes on with these, and so it does from there as
from a start.
-/

namespace ConsoleScript

open Grammar Bytes

/-- The variable as a table keeps it. -/
def Variable.stored (v : Variable) : Variable := { v with value := v.value.stored }

namespace Grammar

variable {c : Clause} {table grown : VariableTable} {place : Bytes} {i : Item}

theorem Clause.declarations_of_item? (h : c.item? table place = some (i, grown)) :
    c.declarations = i.declarations.map Variable.stored := by
  cases c with
  | remark text htext =>
      cases h
      rfl
  | declaration name literal =>
      obtain ⟨t, -, heq⟩ := Option.map_eq_some_iff.mp h
      cases heq
      rfl
  | statement c =>
      obtain ⟨st, -, heq⟩ := Option.map_eq_some_iff.mp h
      cases heq
      rfl
  | loop body =>
      obtain ⟨statements, -, heq⟩ := Option.map_eq_some_iff.mp h
      cases heq
      rfl

end Grammar

namespace Script

/-- From `s` on, the items are read one behind the other. The table behind them is `grown`,
and `rest` is left. -/
inductive ReadsItems : VariableTable → Bytes → List Item → VariableTable → Bytes → Prop
  | nil {table : VariableTable} {s : Bytes} : ReadsItems table s [] table s
  | cons {table next grown : VariableTable} {s t rest : Bytes} {i : Item} {items : List Item}
      (hitem : (Reader.item table).run s = .ok (some (i, next)) t)
      (h : ReadsItems next t items grown rest) : ReadsItems table s (i :: items) grown rest

/-- No item is read with the table from `s` on, because of the fault or since the source
ends. -/
def StopsWith (table : VariableTable) (s : Bytes) : Option Fault → Prop
  | none => (Reader.item table).run s = .ok none []
  | some e => ∃ rest, (Reader.item table).run s = .error e rest

variable {table grown : VariableTable} {done : Array Item} {s rest : Bytes} {items : List Item}
  {fault? : Option Fault}

/-! ### Scripts -/

theorem readItems_of_stopsWith (h : StopsWith table s fault?) (done : Array Item) :
    readItems table done s = ⟨done.toList, fault?⟩ := by
  cases fault? with
  | none => exact readItems_of_none h
  | some e =>
      obtain ⟨rest, h⟩ := h
      exact readItems_of_error h

/-- Reading goes on behind items as from a start. -/
theorem ReadsItems.readItems_eq (h : ReadsItems table s items grown rest) (done : Array Item) :
    readItems table done s = readItems grown (done ++ items.toArray) rest := by
  induction h generalizing done with
  | nil => rw [Array.append_empty]
  | cons hitem _ ih =>
      rw [readItems_of_some hitem, ih, List.toArray_cons, Array.push_eq_append, Array.append_assoc]

theorem ReadsItems.readItems_eq_append (h : ReadsItems table s items grown rest) :
    readItems table #[] s =
      ⟨items ++ (readItems grown #[] rest).items, (readItems grown #[] rest).fault?⟩ := by
  rw [h.readItems_eq, Array.empty_append]
  calc
    readItems grown items.toArray rest = readItems grown (items.toArray ++ #[]) rest := by
      rw [Array.append_empty]
    _ = _ := readItems_append items.toArray #[] rest

theorem exists_readsItems (table : VariableTable) (done : Array Item) (s : Bytes) :
    ∃ items grown rest fault?, ReadsItems table s items grown rest ∧
      StopsWith grown rest fault? ∧ readItems table done s = ⟨done.toList ++ items, fault?⟩ := by
  fun_induction readItems table done s with
  | case1 table done s e rest hs =>
      exact ⟨[], table, s, some e, .nil, ⟨rest, hs⟩, by rw [List.append_nil]⟩
  | case2 table done s rest hs =>
      obtain ⟨-, rfl⟩ := Reader.run_item_eq_none_iff.mp hs
      exact ⟨[], table, s, none, .nil, hs, by rw [List.append_nil]⟩
  | case3 table done s i next t hs ih =>
      obtain ⟨items, grown, rest, fault?, hreads, hstops, heq⟩ := ih
      refine ⟨i :: items, grown, rest, fault?, .cons hs hreads, hstops, ?_⟩
      rw [heq, Array.toList_push, List.append_assoc, List.singleton_append]

/-- A script consists of the items that are read up to where reading stops. -/
theorem readItems_eq_iff :
    readItems table #[] s = ⟨items, fault?⟩ ↔
      ∃ grown rest, ReadsItems table s items grown rest ∧ StopsWith grown rest fault? := by
  constructor
  · intro h
    obtain ⟨items', grown, rest, fault', hreads, hstops, heq⟩ := exists_readsItems table #[] s
    rw [h] at heq
    cases heq
    exact ⟨grown, rest, hreads, hstops⟩
  · rintro ⟨grown, rest, hreads, hstops⟩
    rw [hreads.readItems_eq #[], readItems_of_stopsWith hstops, Array.empty_append]

/-! ### Tables -/

theorem capacity_of_run_item {i : Item}
    (h : (Reader.item table).run s = .ok (some (i, grown)) rest) :
    grown.capacity = table.capacity := by
  obtain ⟨c, hitem, -⟩ := Reader.run_item_eq_some_iff.mp h
  exact (Clause.yields_of_item? hitem).capacity

/-- An item adds the variables that it declares to the table. -/
theorem declared_of_run_item {i : Item}
    (h : (Reader.item table).run s = .ok (some (i, grown)) rest) :
    grown.declared = table.declared ++ i.declarations.map Variable.stored := by
  obtain ⟨c, hitem, -⟩ := Reader.run_item_eq_some_iff.mp h
  rw [(Clause.yields_of_item? hitem).declared, Clause.declarations_of_item? hitem]

/-- The table behind items has the variables that they declare, in order. -/
theorem ReadsItems.declared_eq (h : ReadsItems table s items grown rest) :
    grown.declared =
      table.declared ++ (items.flatMap Item.declarations).map Variable.stored := by
  induction h with
  | nil => exact (List.append_nil _).symm
  | cons hitem _ ih =>
      rw [ih, declared_of_run_item hitem, List.flatMap_cons, List.map_append, List.append_assoc]

theorem ReadsItems.capacity_eq (h : ReadsItems table s items grown rest) :
    grown.capacity = table.capacity := by
  induction h with
  | nil => rfl
  | cons hitem _ ih => rw [ih, capacity_of_run_item hitem]

theorem ReadsItems.size_eq (h : ReadsItems table s items grown rest) :
    grown.size = table.size + (items.flatMap Item.declarations).length := by
  rw [← VariableTable.length_declared, h.declared_eq, List.length_append, List.length_map,
    VariableTable.length_declared]

theorem ReadsItems.size_le (h : ReadsItems table s items grown rest)
    (htable : table.size ≤ table.capacity) : grown.size ≤ grown.capacity := by
  induction h with
  | nil => exact htable
  | cons hitem _ ih =>
      obtain ⟨c, hclause, -⟩ := Reader.run_item_eq_some_iff.mp hitem
      exact ih ((Clause.yields_of_item? hclause).room htable)

/-! ### Texts -/

/-- Each item takes text away. -/
theorem ReadsItems.length_add_le (h : ReadsItems table s items grown rest) :
    items.length + rest.length ≤ s.length := by
  induction h with
  | nil => exact (Nat.zero_add _).le
  | cons hitem _ ih =>
      have hlt := Reader.length_lt_of_item _ hitem
      rw [List.length_cons]
      omega

end Script

end ConsoleScript
