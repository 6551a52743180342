import ConsoleScript.Proofs.Grammar.ClauseReading

/-!
# Replacing what is left to read

What is read is decided by the text that is taken and by whether the next byte belongs to
it. So where a name is left to be read, a blank and any other text may stand instead.

## Implementation notes

An item that is read keeps the place of its keyword. The place is all that the replacement
changes, so items are compared without it.
-/

namespace ConsoleScript

open Bytes

namespace Grammar

variable {t : Token} {ts : List Token} {w : Word} {front back rest text : Bytes}

/-- A token in front of a name is not extended by a blank. -/
theorem Token.not_extends_blank {b : UInt8} (hb : isNameByte b = true) (h : ¬t.Extends b) :
    ¬t.Extends (ascii ' ') := by
  cases t with
  | word w => exact absurd hb h
  | integer l => exact (by decide : ¬isDigit (ascii ' ') = true)
  | remark text htext =>
      have hline : b = ascii '\n' := not_not.mp h
      rw [hline] at hb
      exact absurd hb (by decide)
  | string l | char u | mark m => exact id

theorem Token.Leads.replace (h : t.Leads (front ++ (w.bytes ++ back)) (rest ++ (w.bytes ++ back)))
    (htext : text.head? = some (ascii ' ')) : t.Leads (front ++ text) (rest ++ text) := by
  obtain ⟨trivia, htrivia, hfront, hstop⟩ := h
  have hsplit : front ++ (w.bytes ++ back) =
      trivia ++ (t.spelling ++ rest) ++ (w.bytes ++ back) := by
    rw [hfront]
    simp
  obtain rfl := List.append_cancel_right hsplit
  refine ⟨trivia, htrivia, by simp, ?_⟩
  cases rest with
  | nil =>
      obtain ⟨b, u, hw, hb⟩ := w.exists_cons
      intro c hc
      obtain rfl : ascii ' ' = c := Option.some.inj (htext.symm.trans hc)
      apply Token.not_extends_blank hb
      exact hstop b (by rw [List.nil_append, hw]; rfl)
  | cons b rest => exact hstop

/-- What is left behind tokens ends with what is left behind more of them. -/
theorem Renders.exists_append_eq {u : Bytes} (h : Renders ts front (rest ++ u)) :
    ∃ middle, front = middle ++ u := by
  obtain ⟨before, hbefore⟩ := h.suffix
  exact ⟨before ++ rest, by rw [← hbefore, List.append_assoc]⟩

/-- What stands behind tokens may be replaced from a name on. -/
theorem Renders.replace
    (h : Renders ts (front ++ (w.bytes ++ back)) (rest ++ (w.bytes ++ back)))
    (htext : text.head? = some (ascii ' ')) : Renders ts (front ++ text) (rest ++ text) := by
  induction ts generalizing front with
  | nil =>
      obtain rfl : front = rest := List.append_cancel_right h
      rfl
  | cons t ts ih =>
      obtain ⟨u, ht, hts⟩ := h
      obtain ⟨middle, rfl⟩ := hts.exists_append_eq
      exact ⟨_, ht.replace htext, ih hts⟩

end Grammar

open Grammar

/-! ### Readers -/

namespace Item

/-- The item without its place. -/
def withoutPlace : Item → Item
  | loop _ body => loop [] body
  | i => i

end Item

/-- The place of a clause is all that depends on where it stands. -/
theorem Grammar.Clause.exists_item?_eq {c : Clause} {table grown : VariableTable} {place : Bytes}
    {i : Item} (h : c.item? table place = some (i, grown)) (place' : Bytes) :
    ∃ j, c.item? table place' = some (j, grown) ∧ j.withoutPlace = i.withoutPlace := by
  cases c with
  | remark text htext =>
      cases h
      exact ⟨.remark, rfl, rfl⟩
  | declaration name literal => exact ⟨i, h, rfl⟩
  | statement c => exact ⟨i, h, rfl⟩
  | loop body =>
      obtain ⟨statements, hbody, heq⟩ := Option.map_eq_some_iff.mp h
      cases heq
      exact ⟨.loop place' statements, Option.map_eq_some_iff.mpr ⟨statements, hbody, rfl⟩, rfl⟩

namespace Reader

variable {α ι : Type} {r : Reader α} {table grown : VariableTable}

/-- Where the reader leaves a name, it gives the same if it leaves a blank and any text. -/
def IsLocal (r : Reader α) : Prop :=
  ∀ ⦃w : Word⦄ ⦃front back rest text : Bytes⦄ ⦃a : α⦄, text.head? = some (ascii ' ') →
    r.run (front ++ (w.bytes ++ back)) = .ok a (rest ++ (w.bytes ++ back)) →
      r.run (front ++ text) = .ok a (rest ++ text)

theorem isLocal_of_renders {p : ι → α → Prop} {tokens : ι → List Token}
    (hr : ∀ s rest a, r.run s = .ok a rest ↔ ∃ x, p x a ∧ Renders (tokens x) s rest) :
    IsLocal r := by
  intro w front back rest text a htext h
  obtain ⟨x, hx, hrenders⟩ := (hr _ _ _).mp h
  exact (hr _ _ _).mpr ⟨x, hx, hrenders.replace htext⟩

theorem isLocal_of_leads {p : ι → α → Prop} {token : ι → Token}
    (hr : ∀ s rest a, r.run s = .ok a rest ↔ ∃ x, p x a ∧ (token x).Leads s rest) :
    IsLocal r :=
  isLocal_of_renders fun s rest a => (hr s rest a).trans
    (exists_congr fun _ => and_congr_right fun _ => renders_singleton.symm)

theorem isLocal_requiredName (expectation : String) : IsLocal (requiredName expectation) :=
  isLocal_of_leads fun _ _ _ => run_requiredName_eq_ok_iff

theorem isLocal_expect (m : Mark) (expectation : String) : IsLocal (expect m.byte expectation) := by
  intro w front back rest text a htext h
  have hleads := (run_expect_eq_ok_iff m).mp h
  exact (run_expect_eq_ok_iff m).mpr (hleads.replace htext)

theorem isLocal_stringOperand (table : VariableTable) : IsLocal (stringOperand table) :=
  isLocal_of_leads fun _ _ _ => run_stringOperand_eq_ok_iff

theorem isLocal_intOperand (table : VariableTable) : IsLocal (intOperand table) :=
  isLocal_of_leads fun _ _ _ => run_intOperand_eq_ok_iff

theorem isLocal_bodyStatement (table : VariableTable) : IsLocal (bodyStatement table) :=
  isLocal_of_renders fun _ _ _ => run_bodyStatement_eq_ok_iff

/-- An item in front of a name is the same in front of other text, but for its place. -/
theorem exists_run_item_eq {w : Word} {front back rest text : Bytes} {i : Item}
    (htext : text.head? = some (ascii ' '))
    (h : (item table).run (front ++ (w.bytes ++ back)) =
      .ok (some (i, grown)) (rest ++ (w.bytes ++ back))) :
    ∃ j, (item table).run (front ++ text) = .ok (some (j, grown)) (rest ++ text) ∧
      j.withoutPlace = i.withoutPlace := by
  obtain ⟨c, hitem, hrenders⟩ := run_item_eq_some_iff.mp h
  obtain ⟨j, hj, hplace⟩ := c.exists_item?_eq hitem (front ++ text).skipTrivia
  exact ⟨j, run_item_eq_some_iff.mpr ⟨c, hj, hrenders.replace htext⟩, hplace⟩

/-! ### Trivia in front -/

/-- What the reader gives does not depend on trivia in front. -/
def IgnoresTrivia (r : Reader α) : Prop :=
  ∀ s t : Bytes, s.skipTrivia = t.skipTrivia → r.run s = r.run t

theorem IgnoresTrivia.bind (hr : IgnoresTrivia r) (f : α → Reader β) :
    IgnoresTrivia (r >>= f) := by
  intro s t h
  rw [EStateM.run_bind, EStateM.run_bind, hr s t h]

theorem ignoresTrivia_significant : IgnoresTrivia significant := by
  intro s t h
  rw [run_significant, run_significant, h]

theorem ignoresTrivia_eat (b : UInt8) : IgnoresTrivia (eat b) := by
  intro s t h
  unfold eat EStateM.run
  simp only [h]

theorem ignoresTrivia_expect (b : UInt8) (expectation : String) :
    IgnoresTrivia (expect b expectation) :=
  (ignoresTrivia_eat b).bind _

theorem ignoresTrivia_name : IgnoresTrivia name := by
  intro s t h
  rw [run_name, run_name, h]

theorem ignoresTrivia_requiredName (expectation : String) :
    IgnoresTrivia (requiredName expectation) :=
  ignoresTrivia_name.bind _

end Reader

end ConsoleScript
