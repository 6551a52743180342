import ConsoleScript.Proofs.Grammar.Compilation

/-!
# Sources one behind the other

Two sources with a line break between them are read one behind the other. The line break
ends a comment or a remark that the first one leaves open, and belongs to no token.
-/

namespace ConsoleScript

open Bytes

namespace Grammar

variable {s rest u w : Bytes} {t : Token} {ts : List Token}

/-! ### Renderings -/

/-- Blanks and comments with a line break behind them are trivia. -/
theorem Ending.trivia_concat (h : Ending s) : Trivia (s ++ [ascii '\n']) := by
  cases h with
  | trivia hs => exact hs.append (.blank (by decide) .nil)
  | comment hs htext =>
      rw [List.append_assoc, List.cons_append, List.cons_append]
      exact hs.append (.comment htext .nil)

/-- What stands behind the line that the end of a source is on is all that is left. -/
theorem skipTrivia_append_newline (h : Ending s) :
    skipTrivia (s ++ ascii '\n' :: u) = skipTrivia u := by
  have hskip : skipTrivia ((s ++ [ascii '\n']) ++ u) = skipTrivia u :=
    skipTrivia_append h.trivia_concat
  rwa [List.append_assoc] at hskip

/-- No token goes on behind a line break. -/
theorem Token.not_extends_newline (t : Token) : ¬t.Extends (ascii '\n') := by
  cases t with
  | word w => exact (by decide : ¬isNameByte (ascii '\n') = true)
  | integer l => exact (by decide : ¬isDigit (ascii '\n') = true)
  | remark text htext => exact fun h => h rfl
  | string l | char u | mark m => exact id

theorem Token.Leads.append_newline (h : t.Leads s rest) :
    t.Leads (s ++ ascii '\n' :: u) (rest ++ ascii '\n' :: u) := by
  obtain ⟨w, hw, rfl, hrest⟩ := h
  refine ⟨w, hw, by simp, ?_⟩
  intro b hb
  cases rest with
  | nil =>
      obtain rfl : ascii '\n' = b := Option.some.inj hb
      exact t.not_extends_newline
  | cons c rest => exact hrest b hb

theorem Renders.append_newline (h : Renders ts s rest) :
    Renders ts (s ++ ascii '\n' :: u) (rest ++ ascii '\n' :: u) := by
  induction ts generalizing s with
  | nil =>
      obtain rfl : s = rest := h
      rfl
  | cons t ts ih =>
      obtain ⟨v, ht, hts⟩ := h
      exact ⟨v ++ ascii '\n' :: u, ht.append_newline, ih hts⟩

variable {clauses front back : List Clause} {declared : List Variable}

theorem IsRendering.append_trivia (hw : Trivia w) (h : IsRendering clauses s) :
    IsRendering clauses (w ++ s) := by
  cases clauses with
  | nil => exact isRendering_nil_iff.mpr ((isRendering_nil_iff.mp h).append hw)
  | cons c clauses =>
      obtain ⟨t, hc, ht⟩ := isRendering_cons_iff.mp h
      refine isRendering_cons_iff.mpr ⟨t, ?_, ht⟩
      rw [← renders_skipTrivia_iff c.tokens_ne_nil, skipTrivia_append hw]
      exact (renders_skipTrivia_iff c.tokens_ne_nil).mpr hc

/-- Renderings one behind the other, with a line break between them. -/
theorem IsRendering.append (hfront : IsRendering front s) (hback : IsRendering back u) :
    IsRendering (front ++ back) (s ++ ascii '\n' :: u) := by
  induction front generalizing s with
  | nil =>
      have hend := (isRendering_nil_iff.mp hfront).trivia_concat
      have hrendering := hback.append_trivia hend
      rwa [List.append_assoc] at hrendering
  | cons c front ih =>
      obtain ⟨t, hc, ht⟩ := isRendering_cons_iff.mp hfront
      exact isRendering_cons_iff.mpr ⟨_, hc.append_newline, ih ht⟩

/-! ### Meanings -/

section Congruence

variable {d d' : List Variable} {scope : Scope}

theorem StringOperand.value?_congr {o : StringOperand}
    (h : ∀ u ∈ o.uses, valueOf? d u.word = valueOf? d' u.word) : o.value? d = o.value? d' := by
  cases o with
  | literal l => rfl
  | name w => rw [value?, value?, h ⟨w, .string⟩ List.mem_cons_self]

theorem IntOperand.value?_congr {o : IntOperand}
    (h : ∀ u ∈ o.uses, valueOf? d u.word = valueOf? d' u.word) : o.value? d = o.value? d' := by
  cases o with
  | literal l => rfl
  | name w hw => rw [value?, value?, h ⟨w, .int⟩ List.mem_cons_self]

/-- Only the constants that its names stand for matter to a command. -/
theorem Command.statement?_congr {c : Command scope}
    (h : ∀ u ∈ c.uses, valueOf? d u.word = valueOf? d' u.word) :
    c.statement? d = c.statement? d' := by
  cases c with
  | print o | loadFile o | writeBuf o =>
      rw [statement?, statement?, StringOperand.value?_congr h]
  | breakIfLast o => rw [statement?, statement?, IntOperand.value?_congr h]
  | setCursor x comma y =>
      obtain ⟨hx, hy⟩ := List.forall_mem_append.mp h
      rw [statement?, statement?, IntOperand.value?_congr hx, IntOperand.value?_congr hy]
  | writeFile path data =>
      obtain ⟨hpath, hdata⟩ := List.forall_mem_append.mp h
      rw [statement?, statement?, StringOperand.value?_congr hpath,
        StringOperand.value?_congr hdata]
  | putChar u => rfl
  | exit | clear | readKey | printBuf | printLast => rfl

theorem mapM_congr {α β : Type} {f g : α → Option β} {as : List α} (h : ∀ a ∈ as, f a = g a) :
    as.mapM f = as.mapM g := by
  induction as with
  | nil => rfl
  | cons a as ih =>
      obtain ⟨ha, has⟩ := List.forall_mem_cons.mp h
      rw [List.mapM_cons, List.mapM_cons, ha, ih has]

theorem Clause.blocks?_congr {c : Clause}
    (h : ∀ u ∈ c.uses, valueOf? d u.word = valueOf? d' u.word) : c.blocks? d = c.blocks? d' := by
  cases c with
  | remark text htext => rfl
  | declaration name literal => rfl
  | statement c => rw [blocks?, blocks?, Command.statement?_congr h]
  | loop body =>
      have hbody : body.mapM (Command.statement? d) = body.mapM (Command.statement? d') := by
        apply mapM_congr
        intro c hc
        apply Command.statement?_congr
        intro u hu
        exact h u (List.mem_flatMap.mpr ⟨c, hc, hu⟩)
      rw [blocks?, blocks?, hbody]

theorem blocksOf?_congr
    (h : ∀ front c back, clauses = front ++ c :: back → ∀ u ∈ c.uses,
      valueOf? (d ++ declarationsOf front) u.word = valueOf? (d' ++ declarationsOf front) u.word) :
    blocksOf? d clauses = blocksOf? d' clauses := by
  induction clauses generalizing d d' with
  | nil => rfl
  | cons c clauses ih =>
      have hc : c.blocks? d = c.blocks? d' := by
        apply Clause.blocks?_congr
        simpa [declarationsOf] using h [] c clauses rfl
      have hclauses : blocksOf? (d ++ c.declarations) clauses =
          blocksOf? (d' ++ c.declarations) clauses := by
        apply ih
        intro front e back hsplit
        have he := h (c :: front) e back (by rw [hsplit, List.cons_append])
        rwa [declarationsOf_cons, ← List.append_assoc, ← List.append_assoc] at he
      rw [blocksOf?, blocksOf?, hc, hclauses]

end Congruence

/-- A name that is declared behind others only has the meaning that it has without them. -/
theorem valueOf?_append_of_ne {w : Word} (h : ∀ v ∈ declared, v.name ≠ w.text)
    (later : List Variable) : valueOf? (declared ++ later) w = valueOf? later w := by
  have hnone : declared.find? (·.name == w.text) = none := by
    rw [List.find?_eq_none]
    intro v hv hname
    exact h v hv (beq_iff_eq.mp hname)
  rw [valueOf?, valueOf?, List.find?_append, hnone, Option.none_or]

/-- A name that is bound is among the declared ones. -/
theorem Use.IsBound.exists_name_eq {use : Use} (h : use.IsBound declared) :
    ∃ v ∈ declared, v.name = use.word.text := by
  obtain ⟨value, hvalue, -⟩ := h
  obtain ⟨v, hv, -⟩ := Option.map_eq_some_iff.mp hvalue
  have hname : v.name = use.word.text := by simpa using List.find?_some hv
  exact ⟨v, List.mem_of_find?_eq_some hv, hname⟩

/-- Declarations of other names in front of clauses do not change what they mean. -/
theorem IsScoped.blocksOf?_eq (h : IsScoped clauses)
    (hnames : ∀ v ∈ declared, ∀ w ∈ declarationsOf clauses, v.name ≠ w.name) :
    blocksOf? declared clauses = some (blocksOf clauses) := by
  have halone : blocksOf? [] clauses = some (blocksOf clauses) :=
    blocksOf?_eq_some_iff.mpr ⟨h, rfl⟩
  rw [← halone]
  apply blocksOf?_congr
  intro front c back hsplit u hu
  obtain ⟨w, hw, hname⟩ := (h front c back hsplit u hu).exists_name_eq
  rw [List.nil_append]
  apply valueOf?_append_of_ne
  intro v hv
  rw [← hname]
  apply hnames v hv w
  rw [hsplit, declarationsOf, List.flatMap_append]
  exact List.mem_append_left _ hw

theorem declarationsOf_append :
    declarationsOf (front ++ back) = declarationsOf front ++ declarationsOf back :=
  List.flatMap_append

theorem blocksOf?_append_eq_some {first second : List Block}
    (hfirst : blocksOf? declared front = some first)
    (hsecond : blocksOf? (declared ++ declarationsOf front) back = some second) :
    blocksOf? declared (front ++ back) = some (first ++ second) := by
  induction front generalizing declared first with
  | nil =>
      cases hfirst
      simpa [declarationsOf] using hsecond
  | cons c front ih =>
      obtain ⟨head, hhead, tail, htail, rfl⟩ := blocksOf?_cons_eq_some_iff.mp hfirst
      rw [declarationsOf_cons, ← List.append_assoc] at hsecond
      rw [List.cons_append, List.append_assoc]
      exact blocksOf?_cons_eq_some_iff.mpr ⟨head, hhead, _, ih htail hsecond, rfl⟩

/-- Clauses that share no names have the blocks that they have alone. -/
theorem IsScoped.append (hfront : IsScoped front) (hback : IsScoped back)
    (hnames : ∀ v ∈ declarationsOf front, ∀ w ∈ declarationsOf back, v.name ≠ w.name) :
    IsScoped (front ++ back) ∧ blocksOf (front ++ back) = blocksOf front ++ blocksOf back := by
  have hfirst : blocksOf? [] front = some (blocksOf front) :=
    blocksOf?_eq_some_iff.mpr ⟨hfront, rfl⟩
  have hboth := blocksOf?_append_eq_some hfirst (hback.blocksOf?_eq hnames)
  obtain ⟨hscoped, hblocks⟩ := blocksOf?_eq_some_iff.mp hboth
  exact ⟨hscoped, hblocks.symm⟩

end Grammar

open Grammar

namespace Script

variable {table : VariableTable} {done front : Array Item} {s t source later : Bytes}
  {maxVariables : Nat}

/-! ### Reading on -/

/-- What is read depends on what is left behind trivia. -/
theorem readItems_eq_of_skipTrivia_eq (h : s.skipTrivia = t.skipTrivia) :
    readItems table done s = readItems table done t := by
  have hitem : (Reader.item table).run s = (Reader.item table).run t := by
    rw [Reader.item, EStateM.run_bind, EStateM.run_bind, Reader.run_significant,
      Reader.run_significant, h]
  rw [readItems_eq, readItems_eq, hitem]

/-- Items that are read already stay in front. -/
theorem readItems_append (front done : Array Item) (s : Bytes) :
    readItems table (front ++ done) s =
      ⟨front.toList ++ (readItems table done s).items, (readItems table done s).fault?⟩ := by
  fun_induction readItems table done s with
  | case1 table done s e rest hs => rw [readItems_of_error hs, Array.toList_append]
  | case2 table done s rest hs => rw [readItems_of_none hs, Array.toList_append]
  | case3 table done s i grown rest hs ih => rw [readItems_of_some hs, ← Array.append_push, ih]

/-- Behind a source that is read to its end, reading goes on with the table of what it
declares. -/
theorem exists_read_append_eq_readItems (h : (read maxVariables source).fault? = none) :
    ∃ grown : VariableTable, grown.capacity = maxVariables ∧
      grown.declared.map Variable.name =
        (read maxVariables source).declarations.map Variable.name ∧
      ∀ later, ∃ items : List Item,
        read maxVariables (source ++ ascii '\n' :: later) =
          ⟨items ++ (readItems grown #[] later).items, (readItems grown #[] later).fault?⟩ ∧
        items.flatMap Item.blocks = (read maxVariables source).blocks ∧
        (items.flatMap Item.declarations).length =
          (read maxVariables source).declarations.length := by
  obtain ⟨clauses, hs, hscoped, hroom⟩ := fault?_read_eq_none_iff.mp h
  obtain ⟨-, hblocks, hnames⟩ := names_read_of_isRendering hs hscoped hroom
  obtain ⟨rest, hrest, hend⟩ := hs
  have hmeaning : blocksOf? (VariableTable.declared { capacity := maxVariables }) clauses =
      some (blocksOf clauses) := blocksOf?_eq_some_iff.mpr ⟨hscoped, rfl⟩
  refine ⟨⟨(declarationsOf clauses).toArray, maxVariables⟩, rfl, hnames.symm, fun later => ?_⟩
  obtain ⟨items, ⟨entries, capacity⟩, hread, hitems, hitemNames, hdeclared, hcapacity⟩ :=
    exists_readItems_eq_readItems #[] (hrest.append_newline (u := later)) hmeaning
      ((Nat.zero_add _).le.trans hroom)
  obtain rfl : capacity = maxVariables := hcapacity
  obtain rfl : entries = (declarationsOf clauses).toArray := Array.toList_inj.mp hdeclared
  have hlength := congrArg List.length (hitemNames.trans hnames.symm)
  rw [List.length_map, List.length_map] at hlength
  refine ⟨items, ?_, by rw [hitems, hblocks], hlength⟩
  calc
    read capacity (source ++ ascii '\n' :: later) =
        readItems ⟨(declarationsOf clauses).toArray, capacity⟩ (#[] ++ items.toArray)
          (rest ++ ascii '\n' :: later) := hread
    _ = readItems ⟨(declarationsOf clauses).toArray, capacity⟩ (items.toArray ++ #[]) later := by
      rw [Array.empty_append, Array.append_empty]
      exact readItems_eq_of_skipTrivia_eq (skipTrivia_append_newline hend)
    _ = _ := readItems_append items.toArray #[] later

/-- Behind a source that is read to its end and declares nothing, reading goes on as at
the start. -/
theorem exists_read_append_eq (h : (read maxVariables source).fault? = none)
    (hnone : (read maxVariables source).declarations = []) (later : Bytes) :
    ∃ items : List Item,
      read maxVariables (source ++ ascii '\n' :: later) =
        ⟨items ++ (read maxVariables later).items, (read maxVariables later).fault?⟩ ∧
      items.flatMap Item.blocks = (read maxVariables source).blocks := by
  obtain ⟨⟨entries, capacity⟩, rfl, hnames, hreads⟩ := exists_read_append_eq_readItems h
  rw [hnone, List.map_nil, List.map_eq_nil_iff] at hnames
  obtain rfl : entries = #[] := Array.toList_inj.mp hnames
  obtain ⟨items, hread, hblocks, -⟩ := hreads later
  exact ⟨items, hread, hblocks⟩

/-- Sources that are read to their ends and share no names are so one behind the other, if
there is room for what they declare together. -/
theorem read_append_of_names_ne (hfront : (read maxVariables source).fault? = none)
    (hback : (read maxVariables later).fault? = none)
    (hnames : ∀ v ∈ (read maxVariables source).declarations,
      ∀ w ∈ (read maxVariables later).declarations, v.name ≠ w.name)
    (hroom : (read maxVariables source).declarations.length +
      (read maxVariables later).declarations.length ≤ maxVariables) :
    (read maxVariables (source ++ ascii '\n' :: later)).fault? = none ∧
      (read maxVariables (source ++ ascii '\n' :: later)).blocks =
        (read maxVariables source).blocks ++ (read maxVariables later).blocks ∧
      (read maxVariables (source ++ ascii '\n' :: later)).declarations.length =
        (read maxVariables source).declarations.length +
          (read maxVariables later).declarations.length := by
  obtain ⟨front, hs, hfrontScoped, hfrontRoom⟩ := fault?_read_eq_none_iff.mp hfront
  obtain ⟨back, ht, hbackScoped, hbackRoom⟩ := fault?_read_eq_none_iff.mp hback
  obtain ⟨-, hfrontBlocks, hfrontNames⟩ := names_read_of_isRendering hs hfrontScoped hfrontRoom
  obtain ⟨-, hbackBlocks, hbackNames⟩ := names_read_of_isRendering ht hbackScoped hbackRoom
  obtain ⟨-, -, hfrontLength⟩ := read_of_isRendering hs hfrontScoped hfrontRoom
  obtain ⟨-, -, hbackLength⟩ := read_of_isRendering ht hbackScoped hbackRoom
  have hclauseNames : ∀ v ∈ declarationsOf front, ∀ w ∈ declarationsOf back, v.name ≠ w.name := by
    intro v hv w hw
    have hvname : v.name ∈ (read maxVariables source).declarations.map Variable.name := by
      rw [hfrontNames]
      exact List.mem_map_of_mem hv
    have hwname : w.name ∈ (read maxVariables later).declarations.map Variable.name := by
      rw [hbackNames]
      exact List.mem_map_of_mem hw
    obtain ⟨v', hv', hveq⟩ := List.mem_map.mp hvname
    obtain ⟨w', hw', hweq⟩ := List.mem_map.mp hwname
    rw [← hveq, ← hweq]
    exact hnames v' hv' w' hw'
  obtain ⟨hscoped, hblocks⟩ := hfrontScoped.append hbackScoped hclauseNames
  have hlength : (declarationsOf (front ++ back)).length =
      (read maxVariables source).declarations.length +
        (read maxVariables later).declarations.length := by
    rw [declarationsOf_append, List.length_append, hfrontLength, hbackLength]
  rw [hfrontBlocks, hbackBlocks, ← hblocks, ← hlength]
  rw [← hlength] at hroom
  exact read_of_isRendering (hs.append ht) hscoped hroom

end Script

end ConsoleScript
