import ConsoleScript.Proofs.Source.ErrorLocation
import ConsoleScript.Proofs.Source.Room

/-!
# The limit on variables

A limit on the number of variables decides only how far a source is compiled. A source that
the limit does not stop compiles as with each larger limit. A source that it stops is stopped
behind the equals sign of the first declaration that goes beyond it.
-/

namespace ConsoleScript

open Grammar Program Script

/-- With the options, compiling comes to a declaration with `n` others in front and takes its
equals sign, behind which `place` is left. -/
def ComesToDeclaration (options : CompileOptions) (source : Bytes) (n : Nat) (place : Bytes) :
    Prop :=
  ∃ front grown rest p, ReadsItems { capacity := options.maxVariables } source front grown rest ∧
    assemble options.jumpRange ⟨front, none⟩ = .ok p ∧ p.declared = n ∧
    OpensDeclaration rest place

variable {range : JumpRange} {c c' limit : Nat} {source place rest : Bytes} {l : Location}
  {p : Program} {front : List Item} {grown : VariableTable}

namespace Script

/-! ### Items in front of a stop -/

/-- In front of a stop there are as many declarations as the limit allows. -/
theorem ReadsItems.length_declarations_of_full
    (h : ReadsItems { capacity := c } source front grown rest) (hfull : grown.isFull = true) :
    (front.flatMap Item.declarations).length = c := by
  have hsize : grown.size = (front.flatMap Item.declarations).length :=
    h.size_eq.trans (Nat.zero_add _)
  have hcapacity : grown.capacity = c := h.capacity_eq
  have hle : grown.size ≤ grown.capacity := h.size_le (Nat.zero_le _)
  have hge : grown.capacity ≤ grown.size := of_decide_eq_true hfull
  omega

/-- Behind as many declarations as the limit allows, the table is full. -/
theorem ReadsItems.isFull_of_length_declarations
    (h : ReadsItems { capacity := c } source front grown rest)
    (hlength : (front.flatMap Item.declarations).length = c) : grown.isFull = true := by
  rw [VariableTable.isFull_eq_true_iff, h.room_eq, hlength]
  exact Nat.sub_self c

theorem length_declarations_le (items : List Item) :
    (items.flatMap Item.declarations).length ≤ items.length := by
  induction items with
  | nil => exact Nat.le_refl _
  | cons i items ih =>
      have hi : i.declarations.length ≤ 1 := by
        cases i <;> simp [Item.declarations]
      rw [List.flatMap_cons, List.length_append, List.length_cons]
      omega

end Script

/-! ### Stops -/

theorem exists_full_of_compile_eq_tooManyVariables
    (h : compile ⟨c, range⟩ source = .error (.tooManyVariables limit l)) :
    limit = c ∧ ∃ front grown rest place p,
      ReadsItems { capacity := c } source front grown rest ∧ grown.isFull = true ∧
      OpensDeclaration rest place ∧ assemble range ⟨front, none⟩ = .ok p ∧
      l = .within source place := by
  obtain ⟨fault, hscript, hfault⟩ := compile_eq_error_iff.mp h
  obtain ⟨place, rfl, rfl⟩ : ∃ place, fault = .tooManyVariables limit place ∧
      Location.within source place = l := by
    cases fault <;> cases hfault
    exact ⟨_, rfl, rfl⟩
  obtain ⟨items, grown, rest, fault?, hreads, hstops, heq⟩ :=
    exists_readsItems { capacity := c } #[] source
  replace heq : Script.read c source = ⟨items, fault?⟩ := heq
  rw [heq, ofScript_eq_error_iff] at hscript
  rcases hscript with hjump | ⟨⟨p, hassemble⟩, hread⟩
  · obtain ⟨distance, jumpPlace, hjump⟩ := jumpOutOfRange_of_assemble_eq_error hjump
    cases hjump
  · obtain rfl : fault? = some (.tooManyVariables limit place) := hread
    obtain ⟨end', hstops⟩ := hstops
    obtain ⟨hfull, hopens, hlimit, -⟩ := Reader.run_item_eq_tooManyVariables_iff.mp hstops
    exact ⟨hlimit.trans hreads.capacity_eq, items, grown, rest, place, p, hreads, hfull, hopens,
      hassemble, rfl⟩

theorem compile_of_full (hreads : ReadsItems { capacity := c } source front grown rest)
    (hfull : grown.isFull = true) (hopens : OpensDeclaration rest place)
    (hassemble : assemble range ⟨front, none⟩ = .ok p) :
    compile ⟨c, range⟩ source = .error (.tooManyVariables c (.within source place)) := by
  have hread : Script.read c source = ⟨front, some (.tooManyVariables c place)⟩ :=
    hreads.readItems_of_full hfull hopens
  apply compile_eq_error_iff.mpr
  refine ⟨.tooManyVariables c place, ?_, rfl⟩
  rw [hread]
  exact ofScript_eq_error_iff.mpr (.inr ⟨⟨p, hassemble⟩, rfl⟩)

/-- A limit stops a source exactly where each larger limit lets it come to a declaration with
as many others in front. -/
theorem compile_eq_tooManyVariables_iff (hle : c ≤ c') :
    compile ⟨c, range⟩ source = .error (.tooManyVariables limit l) ↔
      limit = c ∧ ∃ place, l = .within source place ∧
        ComesToDeclaration ⟨c', range⟩ source c place := by
  have htighter : VariableTable.IsTighter { capacity := c } { capacity := c' } :=
    VariableTable.isTighter_of_capacity_le hle
  constructor
  · intro h
    obtain ⟨rfl, front, grown, rest, place, p, hreads, hfull, hopens, hassemble, rfl⟩ :=
      exists_full_of_compile_eq_tooManyVariables h
    obtain ⟨grown', hreads', -⟩ := hreads.exists_of_isTighter htighter
    refine ⟨rfl, place, rfl, front, grown', rest, p, hreads', hassemble, ?_, hopens⟩
    rw [(assemble_eq_ok_iff.mp hassemble).2]
    exact hreads.length_declarations_of_full hfull
  · rintro ⟨rfl, place, rfl, front, grown', rest, p, hreads', hassemble, hdeclared, hopens⟩
    rw [(assemble_eq_ok_iff.mp hassemble).2] at hdeclared
    have hlength : (front.flatMap Item.declarations).length = limit := hdeclared
    obtain ⟨grown, hreads, -⟩ := hreads'.exists_of_room htighter hlength.le
    exact compile_of_full hreads (hreads.isFull_of_length_declarations hlength) hopens hassemble

/-- What a limit does not stop compiles as with each larger limit. -/
theorem compile_eq_of_ne_tooManyVariables (hle : c ≤ c')
    (h : ∀ limit l, compile ⟨c, range⟩ source ≠ .error (.tooManyVariables limit l)) :
    compile ⟨c', range⟩ source = compile ⟨c, range⟩ source := by
  have htighter : VariableTable.IsTighter { capacity := c } { capacity := c' } :=
    VariableTable.isTighter_of_capacity_le hle
  have hroom : ∀ limit place, ofScript range (Script.read c source) ≠
      .error (.tooManyVariables limit place) := by
    intro limit place hscript
    exact h limit (.within source place) (compile_eq_error_iff.mpr ⟨_, hscript, rfl⟩)
  rcases ofScript_readItems_of_isTighter htighter hroom with heq | ⟨e, he, he'⟩
  · have hread : Script.read c' source = Script.read c source := heq
    rw [compile, compile, hread]
  · have hsmall : compile ⟨c, range⟩ source = .error (e.map (.within source)) :=
      compile_eq_error_iff.mpr ⟨e, he, rfl⟩
    have hlarge : compile ⟨c', range⟩ source = .error (e.map (.within source)) :=
      compile_eq_error_iff.mpr ⟨e, he', rfl⟩
    rw [hsmall, hlarge]

/-- A source is longer than a limit that stops it. -/
theorem lt_length_of_compile_eq_tooManyVariables
    (h : compile ⟨c, range⟩ source = .error (.tooManyVariables limit l)) :
    c < source.length := by
  obtain ⟨-, front, grown, rest, place, p, hreads, hfull, hopens, -⟩ :=
    exists_full_of_compile_eq_tooManyVariables h
  have hfront := hreads.length_add_le
  have hdeclarations := length_declarations_le front
  rw [hreads.length_declarations_of_full hfull] at hdeclarations
  have hrest : 0 < rest.length := by
    obtain ⟨name, hrenders⟩ := hopens
    obtain ⟨b, t, hskip, -⟩ := hrenders.exists_cons_of_word
    have hlength := (Bytes.skipTrivia_suffix rest).length_le
    rw [hskip, List.length_cons] at hlength
    omega
  omega

/-- The variables of a program are the declarations of its source, and no more than may be. -/
theorem declared_of_compile (h : compile ⟨c, range⟩ source = .ok p) :
    p.declared ≤ c ∧ p.declared = (Script.read c source).declarations.length ∧
      ∃ clauses, IsRendering clauses source ∧ (declarationsOf clauses).length = p.declared := by
  obtain ⟨clauses, hrendering, -, hroom, -, hp⟩ := exists_isRendering_of_compile h
  obtain ⟨-, -, hread⟩ := compile_eq_ok_iff_read.mp h
  have hclauses : (declarationsOf clauses).length = p.declared := by
    rw [hp]
    rfl
  refine ⟨hclauses ▸ hroom, ?_, clauses, hrendering, hclauses⟩
  rw [hread]
  rfl

/-- Compiling with a limit is compiling with a larger one up to the first declaration that goes
beyond the limit. A source that the limit does not stop has the same program or error with the
larger limit. The limit stops a source exactly if with the larger limit, which may be one that
stops no source of its length, the source comes to the equals sign of a declaration with as
many others in front as the limit allows: the error is located behind this sign and tells the
limit, whatever follows. A program has as many variables as its source has declarations, and no
more than the limit. Where a table that compiling comes to has room, no declaration is refused
by it. -/
theorem maxVariables_gates_compile (range : JumpRange) (source : Bytes) (hle : c ≤ c') :
    ((∀ limit l, compile ⟨c, range⟩ source ≠ .error (.tooManyVariables limit l)) →
      compile ⟨c', range⟩ source = compile ⟨c, range⟩ source) ∧
    (∀ limit l, compile ⟨c, range⟩ source = .error (.tooManyVariables limit l) ↔
      limit = c ∧ ∃ place, l = .within source place ∧
        ComesToDeclaration ⟨c', range⟩ source c place) ∧
    (source.length ≤ c' →
      ∀ limit l, compile ⟨c', range⟩ source ≠ .error (.tooManyVariables limit l)) ∧
    (∀ p, compile ⟨c, range⟩ source = .ok p →
      p.declared ≤ c ∧ p.declared = (Script.read c source).declarations.length ∧
        ∃ clauses, IsRendering clauses source ∧
          (declarationsOf clauses).length = p.declared) ∧
    (∀ front grown rest, ReadsItems { capacity := c } source front grown rest →
      grown.size = (front.flatMap Item.declarations).length ∧ grown.size ≤ c ∧
      ∀ t u, (Reader.roomForVariable grown).run t = .ok () u →
        ∀ v full, grown.declare v ≠ .error full) := by
  refine ⟨compile_eq_of_ne_tooManyVariables hle,
    fun _ _ => compile_eq_tooManyVariables_iff hle, ?_, fun _ => declared_of_compile, ?_⟩
  · intro hlength limit l h
    exact absurd (lt_length_of_compile_eq_tooManyVariables h) (Nat.not_lt.mpr hlength)
  · intro front grown rest hreads
    refine ⟨hreads.size_eq.trans (Nat.zero_add _), ?_, ?_⟩
    · have hle := hreads.size_le (Nat.zero_le c)
      rwa [hreads.capacity_eq] at hle
    · intro t u hroom v full hfull
      obtain ⟨htrue, -⟩ := VariableTable.declare_eq_error_iff.mp hfull
      rw [(Reader.run_roomForVariable_eq_ok_iff.mp hroom).1] at htrue
      cases htrue

theorem maxVariables_gates_compile_of_one_and_two :
    (1 ≤ 24 ∧
      compile ⟨1, .checked⟩ (Bytes.ofString "var n = 1;\nvar n = ?;") =
        .error (.tooManyVariables 1 ⟨⟨2, 8⟩, " ?;"⟩) ∧
      ∃ place, ⟨⟨2, 8⟩, " ?;"⟩ =
          Location.within (Bytes.ofString "var n = 1;\nvar n = ?;") place ∧
        ComesToDeclaration ⟨24, .checked⟩ (Bytes.ofString "var n = 1;\nvar n = ?;") 1 place) ∧
      2 ≤ 24 ∧
      compile ⟨24, .checked⟩ (Bytes.ofString "var n = 1;\nvar n = 'x';") =
        .ok (.ofBlocks [] 2) := by
  constructor
  · have hstops : compile ⟨1, .checked⟩ (Bytes.ofString "var n = 1;\nvar n = ?;") =
        .error (.tooManyVariables 1 ⟨⟨2, 8⟩, " ?;"⟩) := by
      decide +kernel
    have hle : 1 ≤ 24 := by decide
    obtain ⟨-, hiff, -⟩ := maxVariables_gates_compile .checked
      (Bytes.ofString "var n = 1;\nvar n = ?;") hle
    exact ⟨hle, hstops, ((hiff 1 _).mp hstops).2⟩
  · have hcompiles : compile ⟨2, .checked⟩ (Bytes.ofString "var n = 1;\nvar n = 'x';") =
        .ok (.ofBlocks [] 2) := by
      decide +kernel
    have hle : 2 ≤ 24 := by decide
    obtain ⟨hsame, -⟩ := maxVariables_gates_compile .checked
      (Bytes.ofString "var n = 1;\nvar n = 'x';") hle
    refine ⟨hle, ?_⟩
    rw [← hcompiles]
    apply hsame
    intro limit l h
    rw [hcompiles] at h
    cases h

end ConsoleScript
