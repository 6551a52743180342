import ConsoleScript.Listing.Text
import ConsoleScript.Proofs.Listing.Codec
import ConsoleScript.Proofs.Text.Separation

/-!
# The lines of a listing

No part of an instruction's line breaks the line, so a listing has as many lines as
instructions. A line says which instruction it shows: the mnemonic gives the kinds of the
operands, and each operand shows where it ends. The offset in front and the target behind
follow from the instructions.
-/

namespace ConsoleScript

open Instruction Text

theorem Opcode.mnemonic_inj {op op' : Opcode} (h : op.mnemonic = op'.mnemonic) : op = op' := by
  cases op <;> cases op' <;> first | rfl | exact absurd h (by decide)

theorem Opcode.ne_of_mem_mnemonic {op : Opcode} :
    ∀ c ∈ op.mnemonic.toList, c ≠ ' ' ∧ c ≠ '\n' := by
  have hall : op.mnemonic.toList.all (fun c => c != ' ' && c != '\n') = true := by
    cases op <;> rfl
  simpa using hall

namespace Listing

variable {p : Char → Bool} {offset : Nat} {x : List Char} {is js : List Instruction}
  {i j : Instruction} {l : Listing}

/-! ### Line breaks -/

theorem newline_notMem_operand (o : Operand) : '\n' ∉ o.text.toList := by
  have hnumeral : ¬isNumeral '\n' = true := by decide
  cases o with
  | byte b => exact fun h => hnumeral (isNumeral_of_mem_repr h)
  | string s => exact newline_notMem_quoted s
  | relative n => exact fun h => hnumeral (isNumeral_of_mem_signed h)

theorem newline_notMem_operandsText (operands : List Operand) :
    '\n' ∉ (operandsText operands).toList := by
  cases operands with
  | nil => decide
  | cons o operands =>
      simp [operandsText, String.toList_append, String.toList_join, newline_notMem_operand]

theorem newline_notMem_targetText (target : Option Int) : '\n' ∉ (targetText target).toList := by
  cases target with
  | none => decide
  | some target => simp [targetText, String.toList_append, newline_notMem_hex]

/-- The text of an entry breaks no line, whatever bytes its strings hold. -/
theorem newline_notMem_text (e : Entry) : '\n' ∉ e.text.toList := by
  have hmnemonic : '\n' ∉ e.opcode.mnemonic.toList :=
    fun h => (Opcode.ne_of_mem_mnemonic _ h).2 rfl
  simp [Entry.text, String.toList_append, newline_notMem_hex, hmnemonic,
    newline_notMem_operandsText, newline_notMem_targetText]

theorem toList_text (l : Listing) :
    l.text.toList = l.entries.flatMap fun e => e.text.toList ++ ['\n'] := by
  simp [text, String.toList_join, String.toList_append, List.flatMap_map]

/-- Cut at its line breaks, the text of a listing falls into the texts of its entries, with
nothing behind the last break. -/
theorem splitOn_text (l : Listing) :
    l.text.toList.splitOn '\n' = (l.entries.map fun e => e.text.toList) ++ [[]] := by
  rw [toList_text]
  induction l.entries with
  | nil => rfl
  | cons e entries ih =>
      rw [List.flatMap_cons, List.append_assoc, List.singleton_append,
        List.splitOn_append_cons_self_of_not_mem (newline_notMem_text e), ih, List.map_cons,
        List.cons_append]

theorem count_newline_text (l : Listing) : l.text.toList.count '\n' = l.entries.length := by
  rw [toList_text]
  induction l.entries with
  | nil => rfl
  | cons e entries ih =>
      rw [List.flatMap_cons, List.count_append, List.count_append,
        List.count_eq_zero.mpr (newline_notMem_text e), ih, List.length_cons, Nat.add_comm]
      rfl

/-! ### Operands -/

theorem separates_mnemonic (op op' : Opcode) :
    Separates (· != ' ') op.mnemonic op'.mnemonic (op = op') := by
  have hletters : ∀ op : Opcode, ∀ c ∈ op.mnemonic.toList, (c != ' ') = true := by
    intro op c hc
    exact bne_iff_ne.mpr (Opcode.ne_of_mem_mnemonic c hc).1
  exact (Separates.of_forall (hletters op) (hletters op')).imp Opcode.mnemonic_inj

/-- Operands of one kind are told apart by a printer that tells their values apart. -/
theorem separates_of_kind_eq {f : Operand → String} {o o' : Operand}
    (hbyte : ∀ b b', Separates isNumeral (f (.byte b)) (f (.byte b')) (b = b'))
    (hstring : ∀ s s', Separates isNumeral (f (.string s)) (f (.string s')) (s = s'))
    (hrelative : ∀ n n', Separates isNumeral (f (.relative n)) (f (.relative n')) (n = n'))
    (hkind : o.kind = o'.kind) : Separates isNumeral (f o) (f o') (o = o') := by
  cases o with
  | byte b =>
      cases o' with
      | byte b' => exact (hbyte b b').imp (congrArg Operand.byte)
      | _ => cases hkind
  | string s =>
      cases o' with
      | string s' => exact (hstring s s').imp (congrArg Operand.string)
      | _ => cases hkind
  | relative n =>
      cases o' with
      | relative n' => exact (hrelative n n').imp (congrArg Operand.relative)
      | _ => cases hkind

theorem separates_byte (b b' : UInt8) :
    Separates isNumeral (toString b.toNat) (toString b'.toNat) (b = b') :=
  (separates_repr b.toNat b'.toNat).imp UInt8.toNat_inj.mp

/-- The texts of operands of one kind are told apart. -/
theorem separates_operand {o o' : Operand} (hkind : o.kind = o'.kind) :
    Separates isNumeral o.text o'.text (o = o') := by
  refine separates_of_kind_eq separates_byte (fun s s' => separates_quoted s s') ?_ hkind
  intro n n'
  exact (separates_signed n.toInt n'.toInt).imp Int16.toInt_inj.mp

/-- The operands behind the first one, each behind a comma. -/
def laterOperandsText (operands : List Operand) : String :=
  String.join (operands.map fun o => ", " ++ o.text)

theorem laterOperandsText_cons (o : Operand) (operands : List Operand) :
    laterOperandsText (o :: operands) = ", " ++ (o.text ++ laterOperandsText operands) := by
  rw [laterOperandsText, List.map_cons, String.join_cons, String.append_assoc]
  rfl

theorem goesOnOutside_laterOperandsText (operands : List Operand)
    (hx : GoesOnOutside isNumeral x) :
    GoesOnOutside isNumeral ((laterOperandsText operands).toList ++ x) := by
  cases operands with
  | nil => exact hx
  | cons o operands =>
      rw [laterOperandsText_cons, String.toList_append, List.append_assoc]
      exact goesOnOutside_of_head? (s := ", ") (c := ',') rfl rfl _

theorem separates_laterOperandsText {operands operands' : List Operand}
    (hkinds : operands.map Operand.kind = operands'.map Operand.kind) :
    Separates isNumeral (laterOperandsText operands) (laterOperandsText operands')
      (operands = operands') := by
  induction operands generalizing operands' with
  | nil =>
      obtain rfl : operands' = [] := List.map_eq_nil_iff.mp hkinds.symm
      exact (Separates.refl _).imp fun _ => rfl
  | cons o operands ih =>
      obtain ⟨o', operands', rfl, hkind, hlater⟩ := List.map_eq_cons_iff.mp hkinds.symm
      rw [laterOperandsText_cons, laterOperandsText_cons]
      have hboth := (separates_operand hkind.symm).append (fun _ => ih hlater.symm)
        (fun x => goesOnOutside_laterOperandsText operands)
        (fun x => goesOnOutside_laterOperandsText operands')
      refine (hboth.behind ", ").imp ?_
      rintro ⟨rfl, rfl⟩
      rfl

/-- Operands of the same kinds are told apart. -/
theorem separates_operandsText {operands operands' : List Operand}
    (hkinds : operands.map Operand.kind = operands'.map Operand.kind) :
    Separates isNumeral (operandsText operands) (operandsText operands')
      (operands = operands') := by
  cases operands with
  | nil =>
      obtain rfl : operands' = [] := List.map_eq_nil_iff.mp hkinds.symm
      exact (Separates.refl _).imp fun _ => rfl
  | cons o operands =>
      obtain ⟨o', operands', rfl, hkind, hlater⟩ := List.map_eq_cons_iff.mp hkinds.symm
      have hboth := ((separates_operand hkind.symm).behind " ").append
        (fun _ => separates_laterOperandsText hlater.symm)
        (fun x => goesOnOutside_laterOperandsText operands)
        (fun x => goesOnOutside_laterOperandsText operands')
      refine hboth.imp ?_
      rintro ⟨rfl, rfl⟩
      rfl

/-! ### Lines -/

theorem goesOnOutside_targetText (hp : p ' ' = false) (target : Option Int) :
    GoesOnOutside p (targetText target).toList := by
  cases target with
  | none => exact fun c hc => nomatch hc
  | some target =>
      rw [targetText, String.toList_append]
      exact goesOnOutside_of_head? (s := " -> ") (c := ' ') rfl hp _

theorem goesOnOutside_operandsText (hp : p ' ' = false) (operands : List Operand)
    (hx : GoesOnOutside p x) : GoesOnOutside p ((operandsText operands).toList ++ x) := by
  cases operands with
  | nil => exact hx
  | cons o operands =>
      rw [operandsText, String.append_assoc, String.toList_append, List.append_assoc]
      exact goesOnOutside_of_head? (s := " ") (c := ' ') rfl hp _

/-- Instructions at the same place with the same line are the same. -/
theorem eq_of_text_place_eq (hi : i.WellFormed) (hj : j.WellFormed)
    (h : (Entry.place offset i).text = (Entry.place offset j).text) : i = j := by
  have hline := congrArg String.toList h
  simp only [Entry.text, String.toList_append, List.append_assoc, Entry.offset_place,
    Entry.toInstruction_place, List.append_cancel_left_eq] at hline
  have hoperandsText : ∀ {p : Char → Bool} (_ : p ' ' = false) (i : Instruction),
      GoesOnOutside p ((operandsText i.operands).toList ++
        (targetText (Entry.place offset i).target?).toList) :=
    fun hp i => goesOnOutside_operandsText hp _ (goesOnOutside_targetText hp _)
  obtain ⟨hopcode, hbehind⟩ := separates_mnemonic i.opcode j.opcode _ _
    (hoperandsText rfl i) (hoperandsText rfl j) hline
  have hkinds : i.operands.map Operand.kind = j.operands.map Operand.kind := by
    rw [hi.1, hj.1, hopcode]
  obtain ⟨hoperands, -⟩ := separates_operandsText hkinds _ _
    (goesOnOutside_targetText rfl _) (goesOnOutside_targetText rfl _) hbehind
  cases i
  cases j
  simp_all

/-- Layouts with the same lines have the same instructions. -/
theorem layout_text_inj (his : ∀ i ∈ is, i.WellFormed) (hjs : ∀ i ∈ js, i.WellFormed)
    (h : (layout offset is).map Entry.text = (layout offset js).map Entry.text) : is = js := by
  induction is generalizing offset js with
  | nil =>
      cases js with
      | nil => rfl
      | cons j js => cases h
  | cons i is ih =>
      cases js with
      | nil => cases h
      | cons j js =>
          obtain ⟨hi, hisLater⟩ := List.forall_mem_cons.mp his
          obtain ⟨hj, hjsLater⟩ := List.forall_mem_cons.mp hjs
          obtain ⟨hline, hlines⟩ := List.cons.inj h
          -- the same instruction takes the same room, so the next lines start at the same place
          obtain rfl := eq_of_text_place_eq hi hj hline
          rw [ih hisLater hjsLater hlines]

/-- Listings with the same text have the same lines. -/
theorem map_text_eq_of_text_eq {m : Listing} (h : l.text = m.text) :
    l.entries.map Entry.text = m.entries.map Entry.text := by
  have hlines : (l.entries.map fun e => e.text.toList) ++ [[]] =
      (m.entries.map fun e => e.text.toList) ++ [[]] := by
    rw [← splitOn_text, ← splitOn_text, h]
  apply (List.map_inj_right fun _ _ => String.toList_inj.mp).mp
  rw [List.map_map, List.map_map]
  exact List.append_cancel_right hlines

/-- The text of a decoded listing determines the code. -/
theorem code_eq_of_text_eq {code code' : Bytes} {m : Listing} (hl : decode code = .ok l)
    (hm : decode code' = .ok m) (h : l.text = m.text) : code = code' := by
  obtain ⟨is, his, rfl, rfl⟩ := decode_eq_ok_iff_encodeAll.mp hl
  obtain ⟨js, hjs, rfl, rfl⟩ := decode_eq_ok_iff_encodeAll.mp hm
  rw [layout_text_inj his hjs (map_text_eq_of_text_eq h)]

end Listing

end ConsoleScript
