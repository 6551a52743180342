import ConsoleScript.Listing.Json
import ConsoleScript.Proofs.Listing.Lines

/-!
# Listings lose nothing

The JSON text of a listing says which entries it shows, because elements and members are
separated by characters that no number has, and words and lists are closed. So both texts
of a decoded listing determine the code.
-/

namespace ConsoleScript

open Instruction Text

namespace Json

variable {q : Char → Bool} {depth : Nat} {s t : String} {ss ts : List String} {P Q R : Prop}

/-! ### Elements and members -/

/-- Elements are told apart one behind the other: the proposition holds if they all agree. An
element may depend on what those in front of it say. -/
inductive SeparatesAll : List String → List String → Prop → Prop
  | nil {R : Prop} (hR : R) : SeparatesAll [] [] R
  | cons {s t : String} {ss ts : List String} {P Q R : Prop} (hfirst : Separates isNumeral s t P)
      (hlater : P → SeparatesAll ss ts Q) (hR : P → Q → R) : SeparatesAll (s :: ss) (t :: ts) R
  | nil_cons {t : String} {ts : List String} {R : Prop} : SeparatesAll [] (t :: ts) R
  | cons_nil {s : String} {ss : List String} {R : Prop} : SeparatesAll (s :: ss) [] R

theorem SeparatesAll.of_map {α : Type} {f : α → String} {as bs : List α}
    (hf : ∀ a b, Separates isNumeral (f a) (f b) (a = b)) :
    SeparatesAll (as.map f) (bs.map f) (as = bs) := by
  induction as generalizing bs with
  | nil =>
      cases bs with
      | nil => exact .nil rfl
      | cons b bs => exact .nil_cons
  | cons a as ih =>
      cases bs with
      | nil => exact .cons_nil
      | cons b bs =>
          refine .cons (hf a b) (fun _ => ih) ?_
          rintro rfl rfl
          rfl

/-- The parts behind the first one, and the line break in front of the closing bracket. -/
def laterParts (depth : Nat) (ps : List String) : String :=
  String.join (ps.map fun p => "," ++ newline (depth + 1) ++ p) ++ newline depth

theorem laterParts_cons (depth : Nat) (p : String) (ps : List String) :
    laterParts depth (p :: ps) = "," ++ newline (depth + 1) ++ (p ++ laterParts depth ps) := by
  rw [laterParts, List.map_cons, String.join_cons, String.append_assoc, String.append_assoc]
  rfl

theorem parts_cons (depth : Nat) (p : String) (ps : List String) :
    parts depth (p :: ps) = newline (depth + 1) ++ (p ++ laterParts depth ps) := by
  rw [parts, laterParts, String.append_assoc, String.append_assoc]

theorem head?_newline (depth : Nat) : (newline depth).toList.head? = some '\n' := by
  rw [newline, String.toList_append]
  rfl

theorem head?_laterParts (depth : Nat) (ps : List String) :
    (laterParts depth ps).toList.head? = some (if ps = [] then '\n' else ',') := by
  cases ps with
  | nil => exact head?_newline depth
  | cons p ps =>
      rw [laterParts_cons, String.append_assoc, String.toList_append]
      rfl

theorem goesOnOutside_laterParts (ps : List String) (x : List Char) :
    GoesOnOutside isNumeral ((laterParts depth ps).toList ++ x) := by
  apply goesOnOutside_of_head? (head?_laterParts depth ps)
  split <;> rfl

theorem separates_append_laterParts (hfirst : Separates isNumeral s t P)
    (hlater : P → Separates q (laterParts depth ss) (laterParts depth ts) Q) (hR : P → Q → R) :
    Separates q (s ++ laterParts depth ss) (t ++ laterParts depth ts) R := by
  refine (hfirst.append hlater ?_ ?_).imp fun h => hR h.1 h.2
  · exact fun x _ => goesOnOutside_laterParts ss x
  · exact fun x _ => goesOnOutside_laterParts ts x

theorem SeparatesAll.laterParts (h : SeparatesAll ss ts P) :
    Separates q (Json.laterParts depth ss) (Json.laterParts depth ts) P := by
  induction h with
  | nil hR => exact (Separates.refl _).imp fun _ => hR
  | cons hfirst _ hR ih =>
      rw [laterParts_cons, laterParts_cons]
      exact (separates_append_laterParts hfirst ih hR).behind _
  | nil_cons => exact .of_head?_ne (head?_laterParts _ _) (head?_laterParts _ _) (by simp)
  | cons_nil => exact .of_head?_ne (head?_laterParts _ _) (head?_laterParts _ _) (by simp)

/-- Parts between brackets are told apart one behind the other, and show where they end. -/
theorem SeparatesAll.bracketed (h : SeparatesAll ss ts P) (front : String) {back : String}
    {c : Char} (hback : back.toList.head? = some c) (hc : c ≠ '\n') :
    Separates q (front ++ parts depth ss ++ back) (front ++ parts depth ts ++ back) P := by
  have hcons : ∀ p ps, (parts depth (p :: ps) ++ back).toList.head? = some '\n' := by
    intro p ps
    rw [parts_cons, String.append_assoc, String.toList_append, List.head?_append, head?_newline]
    rfl
  have hnil : (parts depth [] ++ back).toList.head? = some c := by
    rw [parts, String.empty_append, hback]
  rw [String.append_assoc, String.append_assoc]
  apply Separates.behind
  cases h with
  | nil hR => exact (Separates.refl _).imp fun _ => hR
  | @cons s t ss ts _ _ _ hfirst hlater hR =>
      rw [parts_cons, parts_cons]
      have hparts : Separates (fun _ => false) (s ++ Json.laterParts depth ss)
          (t ++ Json.laterParts depth ts) P :=
        separates_append_laterParts hfirst (fun hP => (hlater hP).laterParts) hR
      exact (hparts.behind _).closed hback rfl
  | nil_cons => exact .of_head?_ne hnil (hcons _ _) hc
  | cons_nil => exact .of_head?_ne (hcons _ _) hnil hc.symm

/-- Lists are told apart by their elements. -/
theorem separates_list {α : Type} {f : α → String} {as bs : List α}
    (hf : ∀ a b, Separates isNumeral (f a) (f b) (a = b)) :
    Separates q (list depth (as.map f)) (list depth (bs.map f)) (as = bs) :=
  (SeparatesAll.of_map hf).bracketed "[" (c := ']') rfl (by decide)

/-- The text of a member. -/
def member : String × String → String
  | (name, value) => "\"" ++ name ++ "\": " ++ value

/-- Objects are told apart by their members. -/
theorem separates_object {members members' : List (String × String)}
    (h : SeparatesAll (members.map member) (members'.map member) P) :
    Separates q (object depth members) (object depth members') P :=
  h.bracketed "\x7b" (c := '\x7d') rfl (by decide)

/-- Members of one name are told apart by their values. -/
theorem separates_member (name : String) (h : Separates isNumeral s t P) :
    Separates isNumeral (member (name, s)) (member (name, t)) P :=
  h.behind _

/-- Words without quotes are told apart. -/
theorem separates_word (hs : '"' ∉ s.toList) (ht : '"' ∉ t.toList) :
    Separates q (word s) (word t) (s = t) := by
  have hword : Separates (· != '"') s t (s = t) := by
    apply Separates.of_forall
    · intro c hc
      exact bne_iff_ne.mpr fun h => hs (h ▸ hc)
    · intro c hc
      exact bne_iff_ne.mpr fun h => ht (h ▸ hc)
  exact (hword.behind "\"").closed (c := '"') rfl rfl

end Json

/-! ### Operands -/

theorem Opcode.name_inj {op op' : Opcode} (h : op.name = op'.name) : op = op' := by
  cases op <;> cases op' <;> first | rfl | exact absurd h (by decide)

theorem Opcode.quote_notMem_name (op : Opcode) : '"' ∉ op.name.toList := by
  cases op <;> decide

theorem OperandKind.jsonName_inj {kind kind' : OperandKind} (h : kind.jsonName = kind'.jsonName) :
    kind = kind' := by
  cases kind <;> cases kind' <;> first | rfl | exact absurd h (by decide)

theorem OperandKind.quote_notMem_jsonName (kind : OperandKind) :
    '"' ∉ kind.jsonName.toList := by
  cases kind <;> decide

namespace Listing

variable {q : Char → Bool} {depth : Nat} {o o' : Operand} {l m : Listing}

/-- The values of operands of one kind are told apart. -/
theorem separates_jsonValue (hkind : o.kind = o'.kind) :
    Separates isNumeral (o.jsonValue depth) (o'.jsonValue depth) (o = o') := by
  refine separates_of_kind_eq separates_byte ?_ ?_ hkind
  · intro s s'
    exact Json.separates_list separates_byte
  · intro n n'
    exact (separates_toString n.toInt n'.toInt).imp Int16.toInt_inj.mp

theorem separates_operandJson (depth : Nat) (o o' : Operand) :
    Separates q (o.json depth) (o'.json depth) (o = o') := by
  apply Json.separates_object
  have hkind : Separates isNumeral (Json.word o.kind.jsonName) (Json.word o'.kind.jsonName)
      (o.kind = o'.kind) :=
    (Json.separates_word o.kind.quote_notMem_jsonName o'.kind.quote_notMem_jsonName).imp
      OperandKind.jsonName_inj
  refine .cons (Json.separates_member "kind" hkind) (fun hkind => ?_) fun _ h => h
  exact .cons (Json.separates_member "value" (separates_jsonValue hkind))
    (fun _ => .nil trivial) fun h _ => h

/-! ### Listings -/

theorem separates_entryJson (depth : Nat) (e f : Entry) :
    Separates q (e.json depth) (f.json depth) (e = f) := by
  have hopcode : Separates isNumeral (Json.word e.opcode.name) (Json.word f.opcode.name)
      (e.opcode = f.opcode) :=
    (Json.separates_word e.opcode.quote_notMem_name f.opcode.quote_notMem_name).imp
      Opcode.name_inj
  have hoperands : Separates isNumeral
      (Json.list (depth + 1) (e.operands.map (Operand.json (depth + 2))))
      (Json.list (depth + 1) (f.operands.map (Operand.json (depth + 2))))
      (e.operands = f.operands) :=
    Json.separates_list (separates_operandJson (depth + 2))
  have hentry : e.offset = f.offset → e.size = f.size ∧ e.opcode = f.opcode ∧
      e.operands = f.operands → e = f := by
    rintro hoffset ⟨hsize, hopcode, hoperands⟩
    obtain ⟨⟨_, _⟩, _, _⟩ := e
    obtain ⟨⟨_, _⟩, _, _⟩ := f
    cases hoffset
    cases hsize
    cases hopcode
    cases hoperands
    rfl
  apply Json.separates_object
  refine .cons (Json.separates_member "offset" (separates_repr _ _)) (fun _ => ?_) hentry
  refine .cons (Json.separates_member "size" (separates_repr _ _)) (fun _ => ?_) And.intro
  refine .cons (Json.separates_member "opcode" hopcode) (fun _ => ?_) And.intro
  exact .cons (Json.separates_member "operands" hoperands) (fun _ => .nil trivial) fun h _ => h

/-- Listings with the same JSON text have the same entries and the same length. -/
theorem json_inj (h : l.json = m.json) :
    l.entries = m.entries ∧ l.codeLength = m.codeLength := by
  have hlisting : Separates isNumeral l.json m.json
      (l.entries = m.entries ∧ l.codeLength = m.codeLength) := by
    have hentries : Separates isNumeral (Json.list 1 (l.entries.map (Entry.json 2)))
        (Json.list 1 (m.entries.map (Entry.json 2))) (l.entries = m.entries) :=
      Json.separates_list (separates_entryJson 2)
    apply Json.separates_object
    refine .cons (Json.separates_member "instructions" hentries) (fun _ => ?_) And.intro
    exact .cons (Json.separates_member "code_len" (separates_repr _ _)) (fun _ => .nil trivial)
      fun h _ => h
  have hend : GoesOnOutside isNumeral [] := fun c hc => nomatch hc
  exact (hlisting [] [] hend hend (by rw [h])).1

/-- The JSON text of a decoded listing determines the code. -/
theorem code_eq_of_json_eq {code code' : Bytes} (hl : decode code = .ok l)
    (hm : decode code' = .ok m) (h : l.json = m.json) : code = code' := by
  obtain ⟨is, -, rfl, rfl⟩ := decode_eq_ok_iff_encodeAll.mp hl
  obtain ⟨js, -, rfl, rfl⟩ := decode_eq_ok_iff_encodeAll.mp hm
  have hentries : layout 0 is = layout 0 js := (json_inj h).1
  rw [← map_toInstruction_layout 0 is, hentries, map_toInstruction_layout]

/-- Code sections whose listings have the same text are the same, and so are those whose
listings have the same JSON text. The text of a listing has one line break for each
instruction, and cut there it falls into the lines of the instructions. -/
theorem code_determined_by_texts :
    (∀ (code code' : Bytes) (l m : Listing), decode code = .ok l → decode code' = .ok m →
      (l.text = m.text → code = code') ∧ (l.json = m.json → code = code')) ∧
    ∀ l : Listing, l.text.toList.count '\n' = l.entries.length ∧
      l.text.toList.splitOn '\n' = (l.entries.map fun e => e.text.toList) ++ [[]] := by
  refine ⟨?_, fun l => ⟨count_newline_text l, splitOn_text l⟩⟩
  intro code code' l m hl hm
  exact ⟨code_eq_of_text_eq hl hm, code_eq_of_json_eq hl hm⟩

theorem texts_ne_of_writeFile_of_path_with_quotes :
    ∃ l m, decode [0x11, 97, 34, 44, 32, 34, 98, 0, 10, 0] = .ok l ∧
      decode [0x11, 97, 0, 98, 0] = .ok m ∧ l.text ≠ m.text ∧ l.json ≠ m.json ∧
      l.text.toList.count '\n' = 1 := by
  obtain ⟨hcode, hlines⟩ := code_determined_by_texts
  have hquotes : decode [0x11, 97, 34, 44, 32, 34, 98, 0, 10, 0] = .ok _ :=
    decode_eq_ok_iff_encodeAll.mpr
      ⟨[⟨.writeFile, [.string [97, 34, 44, 32, 34, 98], .string [10]]⟩], by decide, rfl, rfl⟩
  have hplain : decode [0x11, 97, 0, 98, 0] = .ok _ :=
    decode_eq_ok_iff_encodeAll.mpr
      ⟨[⟨.writeFile, [.string [97], .string [98]]⟩], by decide, rfl, rfl⟩
  obtain ⟨htext, hjson⟩ := hcode _ _ _ _ hquotes hplain
  refine ⟨_, _, hquotes, hplain, ?_, ?_, (hlines _).1⟩
  · exact fun h => absurd (htext h) (by decide)
  · exact fun h => absurd (hjson h) (by decide)

end Listing

end ConsoleScript
