import ConsoleScript.Proofs.Grammar.ClauseReading

/-!
# What the compiler accepts

A source compiles exactly when it is a rendering of clauses whose names are bound and
for whose declarations there is room. The program is that of the clauses' blocks.
-/

namespace ConsoleScript

open Grammar Bytes

variable {table grown : VariableTable} {place s : Bytes} {i : Item}

namespace VariableTable

theorem declare_eq_ok_iff {v : Variable} :
    table.declare v = .ok grown ↔ table.size < table.capacity ∧
      grown = { table with entries := table.entries.push { v with value := v.value.stored } } := by
  have hfull : table.isFull = true ↔ ¬table.size < table.capacity := by
    rw [isFull, decide_eq_true_iff, Nat.not_lt]
  rw [declare]
  by_cases hroom : table.size < table.capacity
  · rw [if_neg (fun h => hfull.mp h hroom)]
    simp [hroom, eq_comm]
  · rw [if_pos (hfull.mpr hroom)]
    simp [hroom]

theorem length_declared (table : VariableTable) : table.declared.length = table.size := rfl

end VariableTable

namespace Grammar

variable {c : Clause} {clauses : List Clause}

/-- What an item and the table behind it have from the clause. -/
structure Clause.Yields (table : VariableTable) (c : Clause) (i : Item) (grown : VariableTable) :
    Prop where
  blocks : c.blocks? table.declared = some i.blocks
  declarations : i.declarations.length = c.declarations.length
  declared : grown.declared = table.declared ++ c.declarations
  capacity : grown.capacity = table.capacity
  room : table.size ≤ table.capacity → grown.size ≤ grown.capacity

theorem Clause.yields_of_item? (h : c.item? table place = some (i, grown)) :
    c.Yields table i grown := by
  cases c with
  | remark text htext =>
      cases h
      exact ⟨rfl, rfl, (List.append_nil _).symm, rfl, id⟩
  | declaration name literal =>
      obtain ⟨t, hdeclare, heq⟩ := Option.map_eq_some_iff.mp h
      cases heq
      obtain ⟨hroom, rfl⟩ := VariableTable.declare_eq_ok_iff.mp (toOption_eq_some_iff.mp hdeclare)
      refine ⟨rfl, rfl, Array.toList_push, rfl, fun _ => ?_⟩
      rw [VariableTable.size, Array.size_push]
      exact hroom
  | statement c =>
      obtain ⟨st, hst, heq⟩ := Option.map_eq_some_iff.mp h
      cases heq
      refine ⟨?_, rfl, (List.append_nil _).symm, rfl, id⟩
      rw [blocks?, hst]
      rfl
  | loop body =>
      obtain ⟨statements, hbody, heq⟩ := Option.map_eq_some_iff.mp h
      cases heq
      refine ⟨?_, rfl, (List.append_nil _).symm, rfl, id⟩
      rw [blocks?, hbody]
      rfl

/-- An item declares the names of its clause. -/
theorem Clause.names_of_item? (h : c.item? table place = some (i, grown)) :
    i.declarations.map Variable.name = c.declarations.map Variable.name := by
  cases c with
  | remark text htext =>
      cases h
      rfl
  | declaration name literal =>
      obtain ⟨t, -, heq⟩ := Option.map_eq_some_iff.mp h
      cases heq
      rfl
  | statement c =>
      obtain ⟨st, -, heq⟩ := Option.map_eq_some_iff.mp h
      cases heq
      rfl
  | loop body =>
      obtain ⟨statements, -, heq⟩ := Option.map_eq_some_iff.mp h
      cases heq
      rfl

theorem Clause.Yields.size (h : c.Yields table i grown) :
    grown.size = table.size + c.declarations.length := by
  calc
    grown.size = grown.declared.length := (VariableTable.length_declared grown).symm
    _ = table.declared.length + c.declarations.length := by rw [h.declared, List.length_append]
    _ = table.size + c.declarations.length := by rw [VariableTable.length_declared]

/-- A clause is read if it has a meaning and there is room for what it declares. -/
theorem Clause.exists_item? (place : Bytes) (hblocks : (c.blocks? table.declared).isSome)
    (hroom : table.size + c.declarations.length ≤ table.capacity) :
    ∃ i grown, c.item? table place = some (i, grown) := by
  cases c with
  | remark text htext => exact ⟨.remark, table, rfl⟩
  | declaration name literal =>
      have hdeclare := VariableTable.declare_eq_ok_iff (v := ⟨name.text, literal.value⟩).mpr
        ⟨hroom, rfl⟩
      exact ⟨_, _, Option.map_eq_some_iff.mpr ⟨_, toOption_eq_some_iff.mpr hdeclare, rfl⟩⟩
  | statement c =>
      cases hst : c.statement? table.declared with
      | none =>
          rw [blocks?, hst] at hblocks
          cases hblocks
      | some st => exact ⟨_, _, Option.map_eq_some_iff.mpr ⟨st, hst, rfl⟩⟩
  | loop body =>
      cases hbody : body.mapM (Command.statement? table.declared) with
      | none =>
          rw [blocks?, hbody] at hblocks
          cases hblocks
      | some statements => exact ⟨_, _, Option.map_eq_some_iff.mpr ⟨statements, hbody, rfl⟩⟩

theorem declarationsOf_cons :
    declarationsOf (c :: clauses) = c.declarations ++ declarationsOf clauses :=
  List.flatMap_cons

theorem blocksOf?_cons_eq_some_iff {declared : List Variable} {blocks : List Block} :
    blocksOf? declared (c :: clauses) = some blocks ↔
      ∃ front, c.blocks? declared = some front ∧
        ∃ back, blocksOf? (declared ++ c.declarations) clauses = some back ∧
          front ++ back = blocks := by
  simp [blocksOf?, Option.bind_eq_some_iff]

/-- A rendering starts with a rendering of its first clause. -/
theorem isRendering_cons_iff :
    IsRendering (c :: clauses) s ↔ ∃ t, Renders c.tokens s t ∧ IsRendering clauses t := by
  simp only [IsRendering, List.flatMap_cons, renders_append]
  constructor
  · rintro ⟨rest, ⟨t, hc, hclauses⟩, hend⟩
    exact ⟨t, hc, rest, hclauses, hend⟩
  · rintro ⟨t, hc, rest, hclauses, hend⟩
    exact ⟨rest, ⟨t, hc, hclauses⟩, hend⟩

theorem isRendering_nil_iff : IsRendering [] s ↔ Ending s := by
  simp [IsRendering, Renders]

end Grammar

namespace Script

variable {done : Array Item} {rest : Bytes} {clauses : List Clause}

theorem readItems_eq (table : VariableTable) (done : Array Item) (s : Bytes) :
    readItems table done s =
      match (Reader.item table).run s with
      | .error e _ => ⟨done.toList, some e⟩
      | .ok none _ => ⟨done.toList, none⟩
      | .ok (some (i, grown)) rest => readItems grown (done.push i) rest := by
  rw [readItems]
  split
  case h_1 hs => rw [hs]
  case h_2 hs => rw [hs]
  case h_3 hs => rw [hs]

theorem readItems_of_error {e : Fault} (h : (Reader.item table).run s = .error e rest) :
    readItems table done s = ⟨done.toList, some e⟩ := by
  rw [readItems_eq, h]

theorem readItems_of_none (h : (Reader.item table).run s = .ok none rest) :
    readItems table done s = ⟨done.toList, none⟩ := by
  rw [readItems_eq, h]

theorem readItems_of_some (h : (Reader.item table).run s = .ok (some (i, grown)) rest) :
    readItems table done s = readItems grown (done.push i) rest := by
  rw [readItems_eq, h]

/-- Clauses that stand in front are read to items with their blocks and names, and reading
goes on behind them with what they declare. -/
theorem exists_readItems_eq_readItems (done : Array Item) {blocks : List Block}
    (hs : Renders (clauses.flatMap Clause.tokens) s rest)
    (hblocks : blocksOf? table.declared clauses = some blocks)
    (hroom : table.size + (declarationsOf clauses).length ≤ table.capacity) :
    ∃ (items : List Item) (grown : VariableTable),
      readItems table done s = readItems grown (done ++ items.toArray) rest ∧
      items.flatMap Item.blocks = blocks ∧
      (items.flatMap Item.declarations).map Variable.name =
        (declarationsOf clauses).map Variable.name ∧
      grown.declared = table.declared ++ declarationsOf clauses ∧
      grown.capacity = table.capacity := by
  induction clauses generalizing table done s blocks with
  | nil =>
      cases hblocks
      obtain rfl : s = rest := hs
      exact ⟨[], table, by rw [Array.append_empty], rfl, rfl, (List.append_nil _).symm, rfl⟩
  | cons c clauses ih =>
      rw [List.flatMap_cons] at hs
      obtain ⟨t, hc, ht⟩ := renders_append.mp hs
      obtain ⟨front, hfront, back, hback, rfl⟩ := blocksOf?_cons_eq_some_iff.mp hblocks
      rw [declarationsOf_cons, List.length_append] at hroom
      obtain ⟨i, next, hitem⟩ := c.exists_item? s.skipTrivia
        (Option.isSome_of_eq_some hfront) (by omega)
      have hyields := Clause.yields_of_item? hitem
      obtain rfl : front = i.blocks := Option.some.inj (hfront.symm.trans hyields.blocks)
      rw [← hyields.declared] at hback
      obtain ⟨items, grown, hitems, rfl, hnames, hdeclared, hcapacity⟩ :=
        ih (done.push i) ht hback (by rw [hyields.size, hyields.capacity]; omega)
      refine ⟨i :: items, grown, ?_, List.flatMap_cons, ?_, ?_, ?_⟩
      · calc
          readItems table done s = readItems next (done.push i) t :=
            readItems_of_some (Reader.run_item_eq_some_iff.mpr ⟨c, hitem, hc⟩)
          _ = readItems grown (done.push i ++ items.toArray) rest := hitems
          _ = readItems grown (done ++ (i :: items).toArray) rest := by
            rw [List.toArray_cons, Array.push_eq_append, Array.append_assoc]
      · rw [List.flatMap_cons, List.map_append, hnames, Clause.names_of_item? hitem,
          declarationsOf_cons, List.map_append]
      · rw [hdeclared, hyields.declared, declarationsOf_cons, List.append_assoc]
      · rw [hcapacity, hyields.capacity]

/-- A rendering is read to its end, and the items have the blocks and the names of the
clauses. -/
theorem exists_readItems_eq (done : Array Item) {blocks : List Block}
    (hs : IsRendering clauses s)
    (hblocks : blocksOf? table.declared clauses = some blocks)
    (hroom : table.size + (declarationsOf clauses).length ≤ table.capacity) :
    ∃ items, readItems table done s = ⟨done.toList ++ items, none⟩ ∧
      items.flatMap Item.blocks = blocks ∧
        (items.flatMap Item.declarations).map Variable.name =
          (declarationsOf clauses).map Variable.name := by
  obtain ⟨rest, hrest, hend⟩ := hs
  obtain ⟨items, grown, hitems, hitemBlocks, hnames, -⟩ :=
    exists_readItems_eq_readItems done hrest hblocks hroom
  refine ⟨items, ?_, hitemBlocks, hnames⟩
  rw [hitems, readItems_of_none (Reader.run_item_eq_none_iff.mpr ⟨hend, rfl⟩), Array.toList_append]

/-- What is read to its end is a rendering whose names are bound and for which there is
room. -/
theorem exists_clauses_of_fault?_eq_none (htable : table.size ≤ table.capacity)
    (h : (readItems table done s).fault? = none) :
    ∃ clauses, IsRendering clauses s ∧ (blocksOf? table.declared clauses).isSome ∧
      table.size + (declarationsOf clauses).length ≤ table.capacity := by
  fun_induction readItems table done s with
  | case1 => cases h
  | case2 table done s rest hs =>
      exact ⟨[], isRendering_nil_iff.mpr (Reader.run_item_eq_none_iff.mp hs).1, rfl, htable⟩
  | case3 table done s i grown rest hs ih =>
      obtain ⟨c, hitem, hc⟩ := Reader.run_item_eq_some_iff.mp hs
      have hyields := Clause.yields_of_item? hitem
      obtain ⟨clauses, hclauses, hblocks, hroom⟩ := ih (hyields.room htable) h
      rw [hyields.declared] at hblocks
      obtain ⟨back, hback⟩ := Option.isSome_iff_exists.mp hblocks
      refine ⟨c :: clauses, isRendering_cons_iff.mpr ⟨rest, hc, hclauses⟩, ?_, ?_⟩
      · apply Option.isSome_of_eq_some
        apply blocksOf?_cons_eq_some_iff.mpr
        exact ⟨i.blocks, hyields.blocks, back, hback, rfl⟩
      · rw [hyields.size, hyields.capacity] at hroom
        rw [declarationsOf_cons, List.length_append]
        omega

variable {maxVariables : Nat} {source : Bytes}

/-- The script of a rendering whose names are bound and for which there is room has the
names that the clauses declare. -/
theorem names_read_of_isRendering (hs : IsRendering clauses source) (hscoped : IsScoped clauses)
    (hroom : (declarationsOf clauses).length ≤ maxVariables) :
    (read maxVariables source).fault? = none ∧
      (read maxVariables source).blocks = blocksOf clauses ∧
        (read maxVariables source).declarations.map Variable.name =
          (declarationsOf clauses).map Variable.name := by
  have hblocks : blocksOf? (VariableTable.declared { capacity := maxVariables }) clauses =
      some (blocksOf clauses) := blocksOf?_eq_some_iff.mpr ⟨hscoped, rfl⟩
  obtain ⟨items, hread, hitems, hnames⟩ := exists_readItems_eq #[] hs hblocks
    ((Nat.zero_add _).le.trans hroom)
  have hscript : read maxVariables source = ⟨items, none⟩ := hread
  rw [hscript]
  exact ⟨rfl, hitems, hnames⟩

/-- The script of a rendering whose names are bound and for which there is room. -/
theorem read_of_isRendering (hs : IsRendering clauses source) (hscoped : IsScoped clauses)
    (hroom : (declarationsOf clauses).length ≤ maxVariables) :
    (read maxVariables source).fault? = none ∧
      (read maxVariables source).blocks = blocksOf clauses ∧
        (read maxVariables source).declarations.length = (declarationsOf clauses).length := by
  obtain ⟨hfault, hblocks, hnames⟩ := names_read_of_isRendering hs hscoped hroom
  have hlength := congrArg List.length hnames
  rw [List.length_map, List.length_map] at hlength
  exact ⟨hfault, hblocks, hlength⟩

theorem fault?_read_eq_none_iff :
    (read maxVariables source).fault? = none ↔
      ∃ clauses, IsRendering clauses source ∧ IsScoped clauses ∧
        (declarationsOf clauses).length ≤ maxVariables := by
  constructor
  · intro h
    obtain ⟨clauses, hclauses, hblocks, hroom⟩ :=
      exists_clauses_of_fault?_eq_none (Nat.zero_le _) h
    obtain ⟨blocks, hblocks⟩ := Option.isSome_iff_exists.mp hblocks
    exact ⟨clauses, hclauses, (blocksOf?_eq_some_iff.mp hblocks).1,
      (Nat.zero_add _).symm.le.trans hroom⟩
  · rintro ⟨clauses, hclauses, hscoped, hroom⟩
    exact (read_of_isRendering hclauses hscoped hroom).1

end Script

/-- The program of a rendering whose names are bound, for which there is room, and whose jumps
all fit if they are checked. -/
theorem compile_of_isRendering {options : CompileOptions} {clauses : List Clause} {source : Bytes}
    (hs : IsRendering clauses source) (hscoped : IsScoped clauses)
    (hroom : (declarationsOf clauses).length ≤ options.maxVariables)
    (hfits : options.jumpRange = .checked → ∀ b ∈ blocksOf clauses, b.Fits) :
    compile options source =
      .ok (.ofBlocks (blocksOf clauses) (declarationsOf clauses).length) := by
  obtain ⟨hfault, hblocks, hdeclarations⟩ := Script.read_of_isRendering hs hscoped hroom
  apply compile_eq_ok_iff_read.mpr
  rw [hblocks, hdeclarations]
  exact ⟨hfault, hfits, rfl⟩

/-- What compiles is such a rendering. -/
theorem exists_isRendering_of_compile {options : CompileOptions} {source : Bytes} {p : Program}
    (h : compile options source = .ok p) :
    ∃ clauses, IsRendering clauses source ∧ IsScoped clauses ∧
      (declarationsOf clauses).length ≤ options.maxVariables ∧
      (options.jumpRange = .checked → ∀ b ∈ blocksOf clauses, b.Fits) ∧
      p = .ofBlocks (blocksOf clauses) (declarationsOf clauses).length := by
  obtain ⟨hfault, hfits, rfl⟩ := compile_eq_ok_iff_read.mp h
  obtain ⟨clauses, hs, hscoped, hroom⟩ := Script.fault?_read_eq_none_iff.mp hfault
  obtain ⟨-, hblocks, hdeclarations⟩ := Script.read_of_isRendering hs hscoped hroom
  rw [hblocks] at hfits
  rw [hblocks, hdeclarations]
  exact ⟨clauses, hs, hscoped, hroom, hfits, rfl⟩

/-- A source compiles exactly when it renders clauses whose names are bound in front of
them, of which no more declare than may and, if jumps are checked, no loop is too long.
The program has the encoding of the clauses' blocks, their facilities, and as many
variables as there are declarations. -/
theorem compile_eq_ok_iff_isRendering (options : CompileOptions) (source : Bytes) (p : Program) :
    compile options source = .ok p ↔
      ∃ clauses, IsRendering clauses source ∧ IsScoped clauses ∧
        (declarationsOf clauses).length ≤ options.maxVariables ∧
        (options.jumpRange = .checked → ∀ b ∈ blocksOf clauses, b.Fits) ∧
        p = .ofBlocks (blocksOf clauses) (declarationsOf clauses).length := by
  constructor
  · exact exists_isRendering_of_compile
  · rintro ⟨clauses, hs, hscoped, hroom, hfits, rfl⟩
    exact compile_of_isRendering hs hscoped hroom hfits

end ConsoleScript
