import ConsoleScript.Proofs.Code.Block
import ConsoleScript.Proofs.Grammar.Token

/-!
# Clauses of the grammar

A program as it is written is a list of clauses: remarks, declarations, statements
and loops. A clause has its tokens and, behind declarations, its meaning: the
variables that it declares and the blocks that it adds to the code.

## Implementation notes

The commands of the top level and of loops' bodies are one family, in which only a
loop's body has the conditional break.
-/

namespace ConsoleScript.Grammar

open Bytes

/-! ### Keywords -/

/-- The words that clauses and commands start with. -/
inductive Keyword where
  | var
  | loop
  | print
  | putChar
  | exit
  | clear
  | setCursor
  | readKey
  | loadFile
  | writeFile
  | printBuf
  | printLast
  | writeBuf
  | breakIfLast
deriving DecidableEq, Repr

namespace Keyword

def text : Keyword → String
  | var => "var"
  | loop => "loop"
  | print => "print"
  | putChar => "putchar"
  | exit => "exit"
  | clear => "clear"
  | setCursor => "setcursor"
  | readKey => "readkey"
  | loadFile => "readfile"
  | writeFile => "writefile"
  | printBuf => "printbuf"
  | printLast => "printlast"
  | writeBuf => "writebuf"
  | breakIfLast => "breakiflast"

/-- The keyword as it is written. -/
def word (k : Keyword) : Word where
  bytes := ofString k.text
  ne_nil := by cases k <;> decide
  isNameByte_of_mem := by cases k <;> decide +kernel

@[simp] theorem text_word (k : Keyword) : k.word.text = k.text := by
  cases k <;> decide

theorem length_word_lt (k : Keyword) : k.word.bytes.length < Reader.nameLength := by
  cases k <;> decide

end Keyword

/-! ### Operands -/

/-- The constant that a word stands for: its first declaration counts. -/
def valueOf? (declared : List Variable) (w : Word) : Option Value :=
  (declared.find? (·.name == w.text)).map Variable.value

/-- A name in the place of a constant, and the kind that the constant has to be of. -/
structure Use where
  word : Word
  kind : ValueKind

/-- The first declaration of the name is one of a constant of the kind. -/
def Use.IsBound (declared : List Variable) (u : Use) : Prop :=
  ∃ v, valueOf? declared u.word = some v ∧ v.kind = u.kind

/-- A string literal or the name of a string. -/
inductive StringOperand where
  | literal (l : StringLiteral)
  | name (w : Word)

namespace StringOperand

def token : StringOperand → Token
  | literal l => .string l
  | name w => .word w

def uses : StringOperand → List Use
  | literal _ => []
  | name w => [⟨w, .string⟩]

def value? (declared : List Variable) : StringOperand → Option Bytes
  | literal l => some l.value
  | name w => (valueOf? declared w).bind Value.string?

end StringOperand

/-- An integer literal or the name of an integer, which starts with no digit. -/
inductive IntOperand where
  | literal (l : IntLiteral)
  | name (w : Word) (hw : ∀ b ∈ w.bytes.head?, isDigit b = false)

namespace IntOperand

def token : IntOperand → Token
  | literal l => .integer l
  | name w _ => .word w

def uses : IntOperand → List Use
  | literal _ => []
  | name w _ => [⟨w, .int⟩]

def value? (declared : List Variable) : IntOperand → Option Int32
  | literal l => some l.value
  | name w _ => (valueOf? declared w).bind Value.int?

end IntOperand

/-! ### Commands -/

/-- A statement as it is written. -/
inductive Command : Scope → Type where
  | print {scope : Scope} (text : StringOperand) : Command scope
  | putChar {scope : Scope} (value : LiteralUnit) : Command scope
  | exit {scope : Scope} : Command scope
  | clear {scope : Scope} : Command scope
  /-- The comma between the coordinates may be left out. -/
  | setCursor {scope : Scope} (x : IntOperand) (comma : Bool) (y : IntOperand) : Command scope
  | readKey {scope : Scope} : Command scope
  | loadFile {scope : Scope} (path : StringOperand) : Command scope
  | writeFile {scope : Scope} (path data : StringOperand) : Command scope
  | printBuf {scope : Scope} : Command scope
  | printLast {scope : Scope} : Command scope
  | writeBuf {scope : Scope} (path : StringOperand) : Command scope
  | breakIfLast (value : IntOperand) : Command .loopBody

namespace Command

variable {scope : Scope}

def keyword : Command scope → Keyword
  | print _ => .print
  | putChar _ => .putChar
  | exit => .exit
  | clear => .clear
  | setCursor .. => .setCursor
  | readKey => .readKey
  | loadFile _ => .loadFile
  | writeFile .. => .writeFile
  | printBuf => .printBuf
  | printLast => .printLast
  | writeBuf _ => .writeBuf
  | breakIfLast _ => .breakIfLast

/-- The tokens between the keyword and the semicolon. -/
def operands : Command scope → List Token
  | print o | loadFile o | writeBuf o => [o.token]
  | putChar u => [.char u]
  | setCursor x true y => [x.token, .mark .comma, y.token]
  | setCursor x false y => [x.token, y.token]
  | writeFile path data => [path.token, .mark .comma, data.token]
  | breakIfLast o => [o.token]
  | exit | clear | readKey | printBuf | printLast => []

def tokens (c : Command scope) : List Token :=
  .word c.keyword.word :: (c.operands ++ [.mark .semicolon])

def uses : Command scope → List Use
  | print o | loadFile o | writeBuf o => o.uses
  | setCursor x _ y => x.uses ++ y.uses
  | writeFile path data => path.uses ++ data.uses
  | breakIfLast o => o.uses
  | putChar _ | exit | clear | readKey | printBuf | printLast => []

/-- The statement with its names replaced by constants. -/
def statement? (declared : List Variable) : Command scope → Option Statement
  | print o => (o.value? declared).map .print
  | putChar u => some (.putChar u.value)
  | exit => some .exit
  | clear => some .clear
  | setCursor x _ y => do
    return .setCursor (Statement.coordinate (← x.value? declared))
      (Statement.coordinate (← y.value? declared))
  | readKey => some .readKey
  | loadFile o => (o.value? declared).map .loadFile
  | writeFile path data => do
    return .writeFile (← path.value? declared) (← data.value? declared)
  | printBuf => some .printBuf
  | printLast => some .printLast
  | writeBuf o => (o.value? declared).map .writeBuf
  | breakIfLast o => (o.value? declared).map fun n => .breakIfLast n.toUInt32.toUInt8

end Command

/-! ### Clauses -/

/-- The literal of a declaration. -/
inductive Literal where
  | string (l : StringLiteral)
  | char (u : LiteralUnit)
  | integer (l : IntLiteral)

namespace Literal

def token : Literal → Token
  | string l => .string l
  | char u => .char u
  | integer l => .integer l

/-- The constant of a literal. A char literal stands for an integer. -/
def value : Literal → Value
  | string l => .string l.value
  | char u => .int u.value.toUInt32.toInt32
  | integer l => .int l.value

end Literal

/-- A part of a program as it is written. -/
inductive Clause where
  | remark (text : Bytes) (htext : ascii '\n' ∉ text)
  | declaration (name : Word) (literal : Literal)
  | statement (c : Command .topLevel)
  | loop (body : List (Command .loopBody))

namespace Clause

def tokens : Clause → List Token
  | remark text htext => [.remark text htext]
  | declaration name literal =>
    [.word Keyword.var.word, .word name, .mark .equals, literal.token, .mark .semicolon]
  | statement c => c.tokens
  | loop body =>
    .word Keyword.loop.word :: .mark .openBrace ::
      (body.flatMap Command.tokens ++ [.mark .closeBrace])

theorem tokens_ne_nil (c : Clause) : c.tokens ≠ [] := by
  cases c <;> exact List.cons_ne_nil _ _

/-- The variables that a clause declares. -/
def declarations : Clause → List Variable
  | declaration name literal => [⟨name.text, literal.value.stored⟩]
  | _ => []

def uses : Clause → List Use
  | remark .. | declaration .. => []
  | statement c => c.uses
  | loop body => body.flatMap Command.uses

/-- The blocks that a clause adds behind declarations. -/
def blocks? (declared : List Variable) : Clause → Option (List Block)
  | remark .. | declaration .. => some []
  | statement c => do return [.statement (← c.statement? declared)]
  | loop body => do return [.loop (← body.mapM (Command.statement? declared))]

end Clause

/-! ### Programs -/

/-- The declarations of clauses. -/
def declarationsOf (clauses : List Clause) : List Variable := clauses.flatMap Clause.declarations

/-- The blocks that clauses add behind declarations. -/
def blocksOf? (declared : List Variable) : List Clause → Option (List Block)
  | [] => some []
  | c :: clauses => do
    return (← c.blocks? declared) ++ (← blocksOf? (declared ++ c.declarations) clauses)

/-- The blocks of a program whose names are bound. -/
def blocksOf (clauses : List Clause) : List Block := (blocksOf? [] clauses).getD []

/-- Each name is bound by the declarations in front of its clause. -/
def IsScoped (clauses : List Clause) : Prop :=
  ∀ front c back, clauses = front ++ c :: back →
    ∀ u ∈ c.uses, u.IsBound (declarationsOf front)

/-- The source consists of the tokens of the clauses, with trivia in front of each and
maybe behind the last. -/
def IsRendering (clauses : List Clause) (source : Bytes) : Prop :=
  ∃ rest, Renders (clauses.flatMap Clause.tokens) source rest ∧ Ending rest

/-! ### Scoping -/

variable {declared : List Variable} {clauses : List Clause}

theorem StringOperand.isSome_value?_iff {o : StringOperand} :
    (o.value? declared).isSome ↔ ∀ u ∈ o.uses, u.IsBound declared := by
  cases o with
  | literal l => simp [value?, uses]
  | name w =>
      simp only [value?, uses, List.mem_singleton, forall_eq, Use.IsBound]
      cases valueOf? declared w with
      | none => simp
      | some v => cases v <;> simp [Value.string?, Value.kind]

theorem IntOperand.isSome_value?_iff {o : IntOperand} :
    (o.value? declared).isSome ↔ ∀ u ∈ o.uses, u.IsBound declared := by
  cases o with
  | literal l => simp [value?, uses]
  | name w hw =>
      simp only [value?, uses, List.mem_singleton, forall_eq, Use.IsBound]
      cases valueOf? declared w with
      | none => simp
      | some v => cases v <;> simp [Value.int?, Value.kind]

/-- Two parts have a meaning together exactly when each has one. -/
theorem isSome_both_iff {α β γ : Type} {a? : Option α} {b? : Option β} {f : α → β → γ} :
    (do return f (← a?) (← b?) : Option γ).isSome ↔ a?.isSome ∧ b?.isSome := by
  cases a? <;> cases b? <;> simp

theorem Command.isSome_statement?_iff {scope : Scope} {c : Command scope} :
    (c.statement? declared).isSome ↔ ∀ u ∈ c.uses, u.IsBound declared := by
  cases c with
  | print o | loadFile o | writeBuf o =>
      rw [statement?, Option.isSome_map]
      exact StringOperand.isSome_value?_iff
  | breakIfLast o =>
      rw [statement?, Option.isSome_map]
      exact IntOperand.isSome_value?_iff
  | setCursor x comma y =>
      simp only [uses, List.forall_mem_append, ← IntOperand.isSome_value?_iff]
      exact isSome_both_iff
  | writeFile path data =>
      simp only [uses, List.forall_mem_append, ← StringOperand.isSome_value?_iff]
      exact isSome_both_iff
  | putChar u => simp [statement?, uses]
  | exit | clear | readKey | printBuf | printLast => simp [statement?, uses]

theorem isSome_mapM_iff {α β : Type} {f : α → Option β} {as : List α} :
    (as.mapM f).isSome ↔ ∀ a ∈ as, (f a).isSome := by
  induction as with
  | nil => simp
  | cons a as ih =>
      rw [List.mapM_cons, List.forall_mem_cons, ← ih]
      exact isSome_both_iff

theorem Clause.isSome_blocks?_iff {c : Clause} :
    (c.blocks? declared).isSome ↔ ∀ u ∈ c.uses, u.IsBound declared := by
  cases c with
  | remark | declaration => simp [blocks?, uses]
  | statement c =>
      rw [uses, ← Command.isSome_statement?_iff, blocks?]
      cases c.statement? declared <;> rfl
  | loop body =>
      simp only [uses, List.forall_mem_flatMap, ← Command.isSome_statement?_iff]
      rw [← isSome_mapM_iff, blocks?]
      cases body.mapM (Command.statement? declared) <;> rfl

/-- Clauses have a meaning behind declarations exactly when each name is bound by those
and by the clauses in front of it. -/
theorem blocksOf?_isSome_iff :
    (blocksOf? declared clauses).isSome ↔
      ∀ front c back, clauses = front ++ c :: back →
        ∀ u ∈ c.uses, u.IsBound (declared ++ declarationsOf front) := by
  induction clauses generalizing declared with
  | nil => simp [blocksOf?]
  | cons c clauses ih =>
      have hcons : (blocksOf? declared (c :: clauses)).isSome ↔
          (c.blocks? declared).isSome ∧ (blocksOf? (declared ++ c.declarations) clauses).isSome :=
        isSome_both_iff
      rw [hcons, ih, Clause.isSome_blocks?_iff]
      constructor
      · rintro ⟨hc, hclauses⟩ front d back hsplit
        cases front with
        | nil =>
            cases hsplit
            simpa [declarationsOf] using hc
        | cons e front =>
            cases hsplit
            have hd := hclauses front d back rfl
            rwa [List.append_assoc] at hd
      · intro h
        refine ⟨by simpa [declarationsOf] using h [] c clauses rfl, ?_⟩
        intro front d back hsplit
        have hd := h (c :: front) d back (by rw [hsplit, List.cons_append])
        rwa [List.append_assoc]

/-- A clause without names is bound by itself. -/
theorem isScoped_singleton {c : Clause} (hc : c.uses = []) : IsScoped [c] := by
  intro front d back hsplit u hu
  obtain rfl : d = c := by
    apply List.mem_singleton.mp
    rw [hsplit]
    exact List.mem_append_right _ List.mem_cons_self
  rw [hc] at hu
  cases hu

theorem blocksOf?_eq_some_iff {blocks : List Block} :
    blocksOf? [] clauses = some blocks ↔ IsScoped clauses ∧ blocks = blocksOf clauses := by
  have hscoped : (blocksOf? [] clauses).isSome ↔ IsScoped clauses := blocksOf?_isSome_iff
  rw [← hscoped, blocksOf]
  cases blocksOf? [] clauses with
  | none => simp
  | some bs => simp [eq_comm]

end ConsoleScript.Grammar
