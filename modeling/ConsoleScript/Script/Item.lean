import ConsoleScript.Statement.Read

/-!
# Items of a script

A script is a sequence of items: declarations of variables, statements, loops,
and remarks, which run from a number sign to the end of the line.

## Implementation notes

Variables have no scope: reading an item takes the table of the variables that
are declared in front of it and gives the table behind it.
-/

namespace ConsoleScript

/-- A part of a script at the top level. -/
inductive Item where
  | remark
  | declaration (v : Variable)
  | statement (s : Statement)
  /-- A loop with its body, and the place of its keyword. -/
  | loop (place : Bytes) (body : List Statement)
deriving DecidableEq, Repr

namespace Reader

/-- Takes the literal that a variable is declared with. A char literal stands
for an integer. -/
def value : Reader Value := do
  let b ← significant
  if b = some (ascii '"') then .string <$> string
  else if b = some (ascii '\'') then (fun c => .int c.toUInt32.toInt32) <$> char
  else .int <$> integer

/-- Fails here because no more variables can be declared. -/
def tooManyVariables {α : Type} (limit : Nat) : Reader α := fun s =>
  .error (.tooManyVariables limit s) s

/-- Fails unless one more variable can be declared. -/
def roomForVariable (table : VariableTable) : Reader Unit :=
  if table.isFull then tooManyVariables table.capacity else pure ()

/-- Declares a variable. -/
def declare (table : VariableTable) (v : Variable) : Reader VariableTable :=
  match table.declare v with
  | .error full => tooManyVariables full.capacity
  | .ok grown => pure grown

/-- Takes a declaration behind its keyword. Whether there is room for one more
variable is decided behind the equals sign. -/
def declaration (table : VariableTable) : Reader (Variable × VariableTable) := do
  let name ← requiredName "Expected variable name after var"
  expect (ascii '=') "Expected '=' in var declaration"
  roomForVariable table
  let value ← value
  expect (ascii ';') "Expected ';' after var declaration"
  let grown ← declare table ⟨name, value⟩
  return (⟨name, value⟩, grown)

/-- Takes a statement of a loop's body. -/
def bodyStatement (table : VariableTable) : Reader Statement := do
  let place ← get
  let keyword ← requiredName "Expected identifier in loop body"
  statement table .loopBody place keyword

theorem advances_bodyStatement (table : VariableTable) :
    Advances (bodyStatement table) :=
  forward_get.bind_advances fun place => (advances_requiredName _).bind_forward fun keyword =>
    forward_statement table .loopBody place keyword

/-- Takes the statements of a loop's body up to and including the closing brace,
behind those that were taken before. -/
def bodyStatements (table : VariableTable) (done : Array Statement) (s : Bytes) :
    Reading (List Statement) :=
  match _hs : s.skipTrivia with
  | [] => .error (.malformed "Unexpected end of input in loop body" []) []
  | b :: t =>
    if b = ascii '\x7d' then .ok done.toList t
    else
      match _hr : (bodyStatement table).run (b :: t) with
      | .error e rest => .error e rest
      | .ok statement rest => bodyStatements table (done.push statement) rest
termination_by s.length
decreasing_by
  have h := (Bytes.skipTrivia_suffix s).length_le
  rw [_hs] at h
  exact Nat.lt_of_lt_of_le (advances_bodyStatement table _ _ _ _hr) h

/-- Takes a loop's body behind the keyword, braces included. -/
def loopBody (table : VariableTable) : Reader (List Statement) := do
  expect (ascii '\x7b') "Expected '\x7b' after loop"
  bodyStatements table #[]

/-- Takes what belongs to the keyword that stands at the place, and gives the
table of variables behind the item. -/
def keywordItem (table : VariableTable) (place : Bytes) :
    String → Reader (Item × VariableTable)
  | "var" => do
    let (v, grown) ← declaration table
    return (.declaration v, grown)
  | "loop" => do
    let body ← loopBody table
    return (.loop place body, table)
  | keyword => do
    let s ← statement table .topLevel place keyword
    return (.statement s, table)

/-- Takes an item that starts with a keyword. -/
def namedItem (table : VariableTable) : Reader (Item × VariableTable) := do
  let place ← get
  let keyword ← requiredName "Expected identifier"
  keywordItem table place keyword

/-- Takes the next item and gives the table of variables behind it, or nothing
at the end of the source. -/
def item (table : VariableTable) : Reader (Option (Item × VariableTable)) := do
  match ← significant with
  | none => return none
  | some b =>
    if b = ascii '#' then
      line
      return some (.remark, table)
    else some <$> namedItem table

/-! ### Progress -/

variable (table : VariableTable)

theorem forward_value : Forward value := by
  refine forward_significant.bind fun b => ?_
  split
  · exact forward_string.map _
  · split
    · exact forward_char.map _
    · exact forward_integer.map _

theorem forward_tooManyVariables {α : Type} (limit : Nat) :
    Forward (tooManyVariables limit : Reader α) := fun _ => List.suffix_rfl

theorem forward_roomForVariable : Forward (roomForVariable table) := by
  unfold roomForVariable
  split
  · exact forward_tooManyVariables _
  · exact forward_pure ()

theorem forward_declare (v : Variable) : Forward (declare table v) := by
  unfold declare
  split
  · exact forward_tooManyVariables _
  · exact forward_pure _

theorem forward_declaration : Forward (declaration table) :=
  (forward_requiredName _).bind fun _ => (forward_expect _ _).bind fun _ =>
    (forward_roomForVariable table).bind fun _ => forward_value.bind fun _ =>
      (forward_expect _ _).bind fun _ => (forward_declare table _).bind fun _ =>
        forward_pure _

theorem forward_bodyStatement : Forward (bodyStatement table) :=
  forward_get.bind fun place => (forward_requiredName _).bind fun keyword =>
    forward_statement table .loopBody place keyword

theorem forward_bodyStatements (done : Array Statement) :
    Forward (bodyStatements table done : Reader (List Statement)) := by
  intro s
  unfold rest EStateM.run
  fun_induction bodyStatements table done s with
  | case1 => exact List.nil_suffix
  | case2 done s t hs =>
      have h := Bytes.skipTrivia_suffix s
      rw [hs] at h
      exact (List.suffix_cons _ _).trans h
  | case3 done s b t hs hb e rest hr =>
      have h := Bytes.skipTrivia_suffix s
      rw [hs] at h
      have hrest := forward_bodyStatement table (b :: t)
      simp only [Reader.rest, hr] at hrest
      exact hrest.trans h
  | case4 done s b t hs hb statement rest hr ih =>
      have h := Bytes.skipTrivia_suffix s
      rw [hs] at h
      exact (ih.trans ((forward_bodyStatement table).suffix_of_ok hr)).trans h

theorem forward_loopBody : Forward (loopBody table) :=
  (forward_expect _ _).bind fun _ => forward_bodyStatements table #[]

theorem forward_keywordItem (place : Bytes) (keyword : String) :
    Forward (keywordItem table place keyword) := by
  unfold keywordItem
  split
  · exact (forward_declaration table).bind fun _ => forward_pure _
  · exact (forward_loopBody table).bind fun _ => forward_pure _
  · exact (forward_statement table .topLevel place _).bind fun _ => forward_pure _

theorem forward_namedItem : Forward (namedItem table) :=
  forward_get.bind fun place => (forward_requiredName _).bind fun keyword =>
    forward_keywordItem table place keyword

theorem forward_item : Forward (item table) := by
  refine forward_significant.bind fun b => ?_
  split
  · exact forward_pure none
  · split
    · exact forward_line.bind fun _ => forward_pure _
    · exact (forward_namedItem table).map _

theorem advances_namedItem : Advances (namedItem table) :=
  forward_get.bind_advances fun place => (advances_requiredName _).bind_forward fun keyword =>
    forward_keywordItem table place keyword

/-- Skipping a line that starts with a number sign takes the sign away. -/
theorem length_skipLine_lt (s : Bytes) :
    (Bytes.skipLine (ascii '#' :: s)).length < (ascii '#' :: s).length := by
  have h := (Bytes.skipLine_suffix s).length_le
  rw [Bytes.skipLine, List.dropWhile_cons_of_pos (by decide)]
  exact Nat.lt_succ_of_le h

/-- An item takes text away. -/
theorem length_lt_of_item {s t : Bytes} {i : Item × VariableTable}
    (h : (item table).run s = .ok (some i) t) : t.length < s.length := by
  refine Nat.lt_of_lt_of_le ?_ (Bytes.skipTrivia_suffix s).length_le
  rw [item, EStateM.run_bind] at h
  simp only [run_significant] at h
  cases hs : s.skipTrivia with
  | nil => simp [hs] at h
  | cons b u =>
      simp only [hs, List.head?_cons] at h
      split at h
      case isTrue hb =>
        simp only [EStateM.run_bind, run_line, EStateM.run_pure, EStateM.Result.ok.injEq] at h
        rw [← h.2, hb]
        exact length_skipLine_lt u
      case isFalse =>
        rw [map_eq_pure_bind] at h
        obtain ⟨j, v, hj, h⟩ := run_bind_eq_ok_iff.mp h
        cases h
        exact advances_namedItem table _ _ _ hj

end Reader

end ConsoleScript
