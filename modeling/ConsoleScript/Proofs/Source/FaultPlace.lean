import ConsoleScript.Proofs.Grammar.Compilation
import ConsoleScript.Proofs.Source.Fault

/-!
# Places of faults

A fault that a reader meets is at a place of the source that is read: at what is left
where the fault is met, or where the name stands that it is about. What the fault tells
can be found there.
-/

namespace ConsoleScript

open Bytes

/-- A text starts with the run of name bytes of which the name has the first ones. -/
def StartsWithName (name : String) (rest : Bytes) : Prop :=
  name ≠ "" ∧ name = toText ((rest.takeWhile isNameByte).take Reader.nameLength)

namespace CompileError

variable {Place : Type}

/-- What an error tells is so between `before` and `rest`: a name that it is about starts
there, a loop has its keyword there, a literal does not end in front of the end of the
source, and a variable for which there is no room has its equals sign in front. -/
def Describes (limit : Nat) (before rest : Bytes) : CompileError Place → Prop
  | malformed _ _ | outOfMemory _ => True
  | unterminated _ _ => rest = []
  | undefinedVariable name _ | wrongKind name _ _ | unknownStatement name _ =>
    StartsWithName name rest
  | nestedLoop _ | jumpOutOfRange _ _ => rest.takeWhile isNameByte = ofString "loop"
  | tooManyVariables n _ => n = limit ∧ before.getLast? = some (ascii '=')

/-- The place of a fault is in the source, and what the fault tells is so there. -/
def IsWithin (limit : Nat) (source : Bytes) (e : Fault) : Prop :=
  ∃ before rest, source = before ++ rest ∧ e.place? = some rest ∧ e.Describes limit before rest

end CompileError

section IsWithin

variable {limit : Nat} {source place : Bytes} {e : Fault}

theorem CompileError.IsWithin.suffix (h : e.IsWithin limit source) :
    ∀ p ∈ e.place?, p <:+ source := by
  obtain ⟨before, rest, rfl, hplace, -⟩ := h
  intro p hp
  obtain rfl : rest = p := Option.some.inj (hplace.symm.trans hp)
  exact List.suffix_append before rest

/-- A fault whose account does not depend on what is in front of its place. -/
theorem isWithin_of_suffix (hsuffix : place <:+ source) (hplace : e.place? = some place)
    (h : ∀ before, e.Describes limit before place) : e.IsWithin limit source := by
  obtain ⟨before, rfl⟩ := hsuffix
  exact ⟨before, place, rfl, hplace, h before⟩

/-- A name that is told apart from others as a short text is this text. -/
theorem StartsWithName.takeWhile_eq {name rest : Bytes} (h : StartsWithName (toText name) rest)
    (hname : name.length < Reader.nameLength) : rest.takeWhile isNameByte = name := by
  have htake := toText_inj.mp h.2
  have hlength := congrArg List.length htake
  rw [List.length_take] at hlength
  rwa [List.take_of_length_le (by omega), eq_comm] at htake

end IsWithin

namespace Reader

variable {α β : Type} {limit : Nat} {source : Bytes} {r : Reader α} {f : α → Reader β}
  {e : Fault}

/-- On an end of the source, the reader has no fault but within the source. -/
abbrev FaultsWithin (limit : Nat) (source : Bytes) (r : Reader α) : Prop :=
  FaultsIn source (CompileError.IsWithin limit source) r

theorem includesTokens_isWithin :
    IncludesTokens source (CompileError.IsWithin limit source) where
  malformed _ h := isWithin_of_suffix h rfl fun _ => trivial
  unterminated _ := isWithin_of_suffix List.nil_suffix rfl fun _ => rfl

/-- Behind the next significant byte, reading goes on with what is left behind trivia. -/
theorem faultsWithin_significant_bind {f : Option UInt8 → Reader β}
    (hf : ∀ b (s : Bytes), s <:+ source → s.skipTrivia = s →
      ∀ e t, (f b).run s = .error e t → e.IsWithin limit source) :
    FaultsWithin limit source (significant >>= f) := by
  intro s hs e t h
  have hskip : skipTrivia s <:+ source := (skipTrivia_suffix s).trans hs
  exact hf _ (skipTrivia s) hskip (Grammar.skipTrivia_skipTrivia s) e t h

/-- The name that a reader takes starts behind trivia. -/
theorem startsWithName_of_run_requiredName {expectation n : String} {s t : Bytes}
    (hskip : s.skipTrivia = s) (h : (requiredName expectation).run s = .ok n t) :
    StartsWithName n s := by
  obtain ⟨n', u, hname, h⟩ := run_bind_eq_ok_iff.mp h
  rw [run_name, hskip] at hname
  cases hname
  split at h
  case isTrue => cases h
  case isFalse hne =>
    cases h
    refine ⟨?_, rfl⟩
    intro hempty
    rw [hempty] at hne
    exact hne rfl

/-- A reader that keeps the place of the name that it starts with, and is run on that name. -/
theorem isWithin_of_run_named {expectation : String} {g : Bytes → String → Reader β}
    {s t : Bytes} (hs : s <:+ source) (hskip : s.skipTrivia = s)
    (hg : ∀ n, StartsWithName n s → FaultsWithin limit source (g s n))
    (h : (do g (← get) (← requiredName expectation)).run s = .error e t) :
    e.IsWithin limit source := by
  rcases run_bind_eq_error_iff.mp h with hget | ⟨place, u, hget, h⟩
  · cases hget
  · cases hget
    rcases run_bind_eq_error_iff.mp h with hname | ⟨n, u, hname, h⟩
    · exact faultsIn_requiredName includesTokens_isWithin expectation s hs e t hname
    · have hu : u <:+ source := ((forward_requiredName expectation).suffix_of_ok hname).trans hs
      exact hg n (startsWithName_of_run_requiredName hskip hname) u hu e t h

/-! ### Operands and statements -/

variable (table : VariableTable)

/-- A name in the place of a constant is what its faults are about. -/
theorem isWithin_of_run_constant {kind : ValueKind} {select : Value → Option α}
    {expectation : String} {s t : Bytes} (hs : s <:+ source) (hskip : s.skipTrivia = s)
    (h : (constant table kind select expectation).run s = .error e t) :
    e.IsWithin limit source := by
  refine isWithin_of_run_named hs hskip (fun n hname => ?_) h
  split
  · exact faultsIn_throw (isWithin_of_suffix hs rfl fun _ => hname)
  · split
    · exact faultsIn_throw (isWithin_of_suffix hs rfl fun _ => hname)
    · exact faultsIn_pure _

theorem faultsWithin_stringOperand : FaultsWithin limit source (stringOperand table) := by
  refine faultsWithin_significant_bind fun b s hs hskip e t h => ?_
  split at h
  · exact faultsIn_string includesTokens_isWithin s hs e t h
  · exact isWithin_of_run_constant table hs hskip h

theorem faultsWithin_intOperand : FaultsWithin limit source (intOperand table) := by
  refine faultsWithin_significant_bind fun b s hs hskip e t h => ?_
  split at h
  · exact faultsIn_integer includesTokens_isWithin s hs e t h
  · exact isWithin_of_run_constant table hs hskip h

theorem faultsWithin_setCursorOperands : FaultsWithin limit source (setCursorOperands table) :=
  (faultsWithin_intOperand table).bind (forward_intOperand table) fun _ =>
    (faultsIn_eat _).bind (forward_eat _) fun _ =>
      (faultsWithin_intOperand table).bind (forward_intOperand table) fun _ => faultsIn_pure _

theorem faultsWithin_writeFileOperands : FaultsWithin limit source (writeFileOperands table) :=
  (faultsWithin_stringOperand table).bind (forward_stringOperand table) fun _ =>
    (faultsIn_expect includesTokens_isWithin _ _).bind (forward_expect _ _) fun _ =>
      (faultsWithin_stringOperand table).bind (forward_stringOperand table) fun _ =>
        faultsIn_pure _

variable {place : Bytes}

theorem faultsWithin_operandsOf (scope : Scope) (hplace : place <:+ source) {keyword : String}
    (hname : StartsWithName keyword place) :
    FaultsWithin limit source (operandsOf table scope place keyword) := by
  unfold operandsOf
  split
  case h_1 | h_7 | h_11 =>
    exact (faultsWithin_stringOperand table).map (forward_stringOperand table) _
  case h_2 => exact (faultsIn_char includesTokens_isWithin).map forward_char _
  case h_5 => exact faultsWithin_setCursorOperands table
  case h_8 => exact faultsWithin_writeFileOperands table
  case h_3 | h_4 | h_6 | h_9 | h_10 => exact faultsIn_pure _
  case h_12 =>
    split
    · exact (faultsWithin_intOperand table).bind (forward_intOperand table) fun _ =>
        faultsIn_pure _
    · have hloop : place.takeWhile isNameByte = ofString "loop" :=
        StartsWithName.takeWhile_eq hname (by decide)
      exact faultsIn_throw (isWithin_of_suffix hplace rfl fun _ => hloop)
    · exact faultsIn_throw (isWithin_of_suffix hplace rfl fun _ => hname)

theorem faultsWithin_statement (scope : Scope) (hplace : place <:+ source) {keyword : String}
    (hname : StartsWithName keyword place) :
    FaultsWithin limit source (statement table scope place keyword) :=
  (faultsWithin_operandsOf table scope hplace hname).bind
    (forward_operandsOf table scope place keyword) fun _ =>
      (faultsIn_expect includesTokens_isWithin _ _).bind (forward_expect _ _) fun _ =>
        faultsIn_pure _

/-! ### Items -/

/-- A byte that was expected and found stands in front of what is left. -/
theorem cons_suffix_of_run_expect {b : UInt8} {expectation : String} {s t : Bytes}
    (hs : s <:+ source) (h : (expect b expectation).run s = .ok () t) : b :: t <:+ source := by
  obtain ⟨found, u, hfound, h⟩ := run_bind_eq_ok_iff.mp h
  cases found with
  | false => cases h
  | true =>
      cases h
      rw [← run_eat_eq_true_iff.mp hfound]
      exact (skipTrivia_suffix s).trans hs

/-- A table without room is reported behind the equals sign, with its capacity. -/
theorem isWithin_of_run_roomForVariable {t u : Bytes} (ht : ascii '=' :: t <:+ source)
    (h : (roomForVariable table).run t = .error e u) : e.IsWithin table.capacity source := by
  unfold roomForVariable at h
  split at h
  · cases h
    obtain ⟨before, rfl⟩ := ht
    exact ⟨before ++ [ascii '='], t, by simp, rfl, rfl, List.getLast?_concat⟩
  · cases h

/-- Where there is room for a variable, it can be declared. -/
theorem faultsWithin_declare (h : table.isFull = false) (v : Variable) :
    FaultsWithin limit source (declare table v) := by
  unfold declare
  split
  case h_1 full hfull =>
    obtain ⟨htrue, -⟩ := VariableTable.declare_eq_error_iff.mp hfull
    rw [h] at htrue
    cases htrue
  case h_2 => exact faultsIn_pure _

theorem isFull_eq_false_of_run_roomForVariable {t u : Bytes}
    (h : (roomForVariable table).run t = .ok () u) : table.isFull = false := by
  unfold roomForVariable at h
  split at h
  case isTrue => cases h
  case isFalse hroom => exact Bool.eq_false_iff.mpr hroom

theorem faultsWithin_declaration : FaultsWithin table.capacity source (declaration table) := by
  refine (faultsIn_requiredName includesTokens_isWithin _).bind (forward_requiredName _)
    fun name => ?_
  intro s hs e t h
  -- What is behind the equals sign depends on the place where it was found.
  rcases run_bind_eq_error_iff.mp h with hequals | ⟨⟨⟩, u, hequals, h⟩
  · exact faultsIn_expect includesTokens_isWithin _ _ s hs e t hequals
  have hu : ascii '=' :: u <:+ source := cons_suffix_of_run_expect hs hequals
  rcases run_bind_eq_error_iff.mp h with hroom | ⟨⟨⟩, u', hroom, h⟩
  · exact isWithin_of_run_roomForVariable table hu hroom
  have hu' : u' <:+ source :=
    ((forward_roomForVariable table).suffix_of_ok hroom).trans ((List.suffix_cons _ u).trans hu)
  have hdeclare : ∀ v, FaultsWithin table.capacity source (declare table v) :=
    faultsWithin_declare table (isFull_eq_false_of_run_roomForVariable table hroom)
  have hvalue := (faultsIn_value includesTokens_isWithin).bind forward_value fun value =>
    (faultsIn_expect includesTokens_isWithin (ascii ';') "Expected ';' after var declaration").bind
      (forward_expect _ _) fun _ =>
        (hdeclare ⟨name, value⟩).bind (forward_declare table _) fun grown =>
          faultsIn_pure ((⟨name, value⟩ : Variable), grown)
  exact hvalue u' hu' e t h

theorem isWithin_of_run_bodyStatement {s t : Bytes} (hs : s <:+ source)
    (hskip : s.skipTrivia = s) (h : (bodyStatement table).run s = .error e t) :
    e.IsWithin limit source :=
  isWithin_of_run_named hs hskip
    (fun _ hname => faultsWithin_statement table .loopBody hs hname) h

theorem faultsWithin_bodyStatements (done : Array Statement) :
    FaultsWithin limit source (bodyStatements table done : Reader (List Statement)) := by
  intro s hs e t h
  unfold EStateM.run at h
  fun_induction bodyStatements table done s with
  | case1 =>
      cases h
      exact includesTokens_isWithin.malformed _ List.nil_suffix
  | case2 => cases h
  | case3 done s b u hskip hb e' rest hr =>
      cases h
      rw [← hskip] at hr
      exact isWithin_of_run_bodyStatement table ((skipTrivia_suffix s).trans hs)
        (Grammar.skipTrivia_skipTrivia s) hr
  | case4 done s b u hskip hb statement rest hr ih =>
      have hsuffix := (skipTrivia_suffix s).trans hs
      rw [hskip] at hsuffix
      exact ih (((forward_bodyStatement table).suffix_of_ok hr).trans hsuffix) h

theorem faultsWithin_loopBody : FaultsWithin limit source (loopBody table) :=
  (faultsIn_expect includesTokens_isWithin _ _).bind (forward_expect _ _) fun _ =>
    faultsWithin_bodyStatements table #[]

theorem faultsWithin_keywordItem (hplace : place <:+ source) {keyword : String}
    (hname : StartsWithName keyword place) :
    FaultsWithin table.capacity source (keywordItem table place keyword) := by
  unfold keywordItem
  split
  · exact (faultsWithin_declaration table).bind (forward_declaration table) fun _ =>
      faultsIn_pure _
  · exact (faultsWithin_loopBody table).bind (forward_loopBody table) fun _ =>
      faultsIn_pure _
  · exact (faultsWithin_statement table .topLevel hplace hname).bind
      (forward_statement table .topLevel place _) fun _ => faultsIn_pure _

theorem isWithin_of_run_namedItem {s t : Bytes} (hs : s <:+ source)
    (hskip : s.skipTrivia = s) (h : (namedItem table).run s = .error e t) :
    e.IsWithin table.capacity source :=
  isWithin_of_run_named hs hskip
    (fun _ hname => faultsWithin_keywordItem table hs hname) h

theorem faultsWithin_item : FaultsWithin table.capacity source (item table) := by
  refine faultsWithin_significant_bind fun b s hs hskip e t h => ?_
  split at h
  · cases h
  · split at h
    · cases h
    · rw [map_eq_pure_bind] at h
      rcases run_bind_eq_error_iff.mp h with hitem | ⟨i, u, -, hpure⟩
      · exact isWithin_of_run_namedItem table hs hskip hitem
      · cases hpure

end Reader

namespace Script

variable {table : VariableTable} {done : Array Item} {source s : Bytes} {e : Fault}

/-- The fault at which reading a source stops is at a place of the source, and what it
tells is so there. -/
theorem isWithin_of_fault?_readItems (hs : s <:+ source)
    (h : (readItems table done s).fault? = some e) : e.IsWithin table.capacity source := by
  fun_induction readItems table done s with
  | case1 table done s e' rest hr =>
      cases h
      exact Reader.faultsWithin_item table s hs e rest hr
  | case2 => cases h
  | case3 table done s i grown rest hr ih =>
      obtain ⟨c, hitem, -⟩ := Reader.run_item_eq_some_iff.mp hr
      rw [← (Grammar.Clause.yields_of_item? hitem).capacity]
      exact ih (((Reader.forward_item table).suffix_of_ok hr).trans hs) h

end Script

end ConsoleScript
