import ConsoleScript.Proofs.Grammar.ClauseText
import ConsoleScript.Proofs.Grammar.Compilation
import ConsoleScript.Proofs.Source.Fault
import Mathlib.Data.Int.ModEq

/-!
# Integers and their residues

The digits of an integer literal are collected in a word that wraps around, and the low half of
the word is taken. None of that is seen in the result: whatever the number of digits, the integer
is the one that has the same residue as the literal's number. A conditional break takes the low
byte of the integer, which has the residue of the number modulo 256.
-/

namespace ConsoleScript

open Grammar Bytes

/-! ### Residues -/

/-- An integer of 32 bits is known from its residue. -/
theorem eq_ofInt_of_modEq {m : Int32} {k : Int} (h : m.toInt ≡ k [ZMOD 2 ^ 32]) :
    m = Int32.ofInt k := by
  have hword : m.toInt % (2 ^ 32 : Nat) = k % (2 ^ 32 : Nat) := by exact_mod_cast h
  apply Int32.toInt_inj.mp
  calc
    m.toInt = m.toInt.bmod (2 ^ 32) := m.toInt_bmod.symm
    _ = k.bmod (2 ^ 32) := by rw [← Int.emod_bmod m.toInt, hword, Int.emod_bmod]
    _ = (Int32.ofInt k).toInt := Int32.toInt_ofInt.symm

/-- The low byte of an integer has its residue. -/
theorem toNat_lowByte (n : Int32) : (n.toUInt32.toUInt8.toNat : Int) = n.toInt % 256 := by
  have hword : n.toInt = (n.toUInt32.toNat : Int).bmod (2 ^ 32) :=
    BitVec.toInt_eq_toNat_bmod n.toBitVec
  calc
    (n.toUInt32.toUInt8.toNat : Int) = (n.toUInt32.toNat : Int) % 256 := by
      rw [UInt32.toNat_toUInt8]
      rfl
    _ = (n.toUInt32.toNat : Int) % (2 ^ 32 : Nat) % 256 :=
      (Int.emod_emod_of_dvd _ (by decide)).symm
    _ = n.toInt % (2 ^ 32 : Nat) % 256 := by rw [hword, Int.bmod_emod]
    _ = n.toInt % 256 := Int.emod_emod_of_dvd _ (by decide)

namespace Grammar.IntLiteral

/-- A literal stands for the residue of its number that is an integer of 32 bits. -/
theorem toInt_value (l : IntLiteral) : l.value.toInt = l.number.bmod (2 ^ 32) :=
  Int32.toInt_ofInt

theorem bmod_number_of_fits {l : IntLiteral} (hlow : -2 ^ 31 ≤ l.number)
    (hhigh : l.number < 2 ^ 31) : l.number.bmod (2 ^ 32) = l.number :=
  Int.bmod_eq_of_le hlow hhigh

/-- The value of a literal has the residue of its number. -/
theorem toInt_value_modEq (l : IntLiteral) : l.value.toInt ≡ l.number [ZMOD 2 ^ 32] := by
  rw [toInt_value]
  exact Int.bmod_emod

/-- The byte that a conditional break compares with. -/
def lowByte (l : IntLiteral) : UInt8 := l.value.toUInt32.toUInt8

theorem toNat_lowByte_eq_emod (l : IntLiteral) : (l.lowByte.toNat : Int) = l.number % 256 := by
  have hdvd : (256 : Int) ∣ 2 ^ 32 := by decide
  rw [lowByte, toNat_lowByte]
  exact l.toInt_value_modEq.of_dvd hdvd

end Grammar.IntLiteral

/-! ### Reading -/

namespace Reader

variable {s t rest : Bytes}

/-- Where no digit stands, none is taken. -/
theorem run_digits_of_none (h : ∀ b ∈ s.head?, isDigit b = false) :
    digits.run s = .error (.malformed "Expected integer literal" s) s := by
  have hnone : s.takeWhile isDigit = [] := by
    cases s with
    | nil => rfl
    | cons b u => exact List.takeWhile_cons_of_neg (by simp [h b rfl])
  simp [EStateM.run, digits, hnone]

/-- Where neither a digit nor a minus in front of one stands, at most a minus is taken. -/
theorem run_integer_of_none
    (h : ¬∃ b u, isDigit b = true ∧ (s.skipTrivia = b :: u ∨ s.skipTrivia = ascii '-' :: b :: u)) :
    ∃ t, integer.run s = .error (.malformed "Expected integer literal" t) t ∧
      (s.skipTrivia = ascii '-' :: t ∨ s.skipTrivia = t ∧ t.head? ≠ some (ascii '-')) := by
  have hread : ∀ (negative : Bool) (t : Bytes), (eat (ascii '-')).run s = .ok negative t →
      (∀ b ∈ t.head?, isDigit b = false) →
        integer.run s = .error (.malformed "Expected integer literal" t) t := by
    intro negative t heat hnone
    have hdigits := run_digits_of_none hnone
    exact run_bind_eq_error_iff.mpr (.inr ⟨negative, t, heat,
      run_bind_eq_error_iff.mpr (.inl hdigits)⟩)
  by_cases hminus : s.skipTrivia.head? = some (ascii '-')
  · obtain ⟨t, hs⟩ := List.head?_eq_some_iff.mp hminus
    refine ⟨t, hread true t (run_eat_eq_true_iff.mpr hs) ?_, .inl hs⟩
    intro b hb
    obtain ⟨u, rfl⟩ := List.head?_eq_some_iff.mp hb
    exact Bool.eq_false_iff.mpr fun hdigit => h ⟨b, u, hdigit, .inr hs⟩
  · refine ⟨s.skipTrivia, hread false _ (run_eat_eq_false_iff.mpr ⟨rfl, hminus⟩) ?_,
      .inr ⟨rfl, hminus⟩⟩
    intro b hb
    obtain ⟨u, hs⟩ := List.head?_eq_some_iff.mp hb
    exact Bool.eq_false_iff.mpr fun hdigit => h ⟨b, u, hdigit, .inl hs⟩

end Reader

/-! ### Conditional breaks -/

namespace Grammar

/-- A loop of one conditional break. -/
def breakIfLastClause (l : IntLiteral) : Clause := .loop [.breakIfLast (.literal l)]

end Grammar

/-- Wherever a conditional break with a literal stands in a loop, it is read with the low byte. -/
theorem run_statement_of_breakIfLast {l : IntLiteral} (table : VariableTable) (place : Bytes)
    {s rest : Bytes} (h : Renders [.integer l, .mark .semicolon] s rest) :
    (Reader.statement table .loopBody place "breakiflast").run s =
      .ok (.breakIfLast l.lowByte) rest :=
  Reader.run_statement_eq_ok_iff.mpr ⟨.breakIfLast (.literal l), rfl, rfl, h⟩

/-- A source of one such loop has the code of the break, the jump back and an exit. -/
theorem compile_of_breakIfLast (options : CompileOptions) {l : IntLiteral} {source : Bytes}
    (h : IsRendering [breakIfLastClause l] source) :
    compile options source = .ok (.ofBlocks [.loop [.breakIfLast l.lowByte]] 0) := by
  apply compile_of_isRendering h (isScoped_singleton rfl) (Nat.zero_le _)
  intro _ b hb
  obtain rfl := List.mem_singleton.mp hb
  exact (by decide : 4 ≤ 32765)

/-- The code of a loop of one conditional break, and an exit. -/
theorem toList_code_of_breakIfLast (b : UInt8) :
    (Program.ofBlocks [.loop [.breakIfLast b]] 0).code.toList =
      [0x51, b, 0, 0, 0x50, 0xF9, 0xFF, 0xFF] := by
  have hback : Statement.backJump [.breakIfLast b] = ⟨.jump, [.relative (-7)]⟩ := by
    have hdistance : Int16.ofInt (-(4 + 3 : Nat)) = -7 := by decide
    exact congrArg (fun n => Instruction.mk .jump [.relative n]) hdistance
  have hloop : Block.instructionsOf [.loop [.breakIfLast b]] =
      [⟨.jumpIfLast, [.byte b, .relative 0]⟩, ⟨.jump, [.relative (-7)]⟩] := by
    rw [← hback]
    rfl
  show Instruction.encodeAll (Instruction.closed (Block.instructionsOf _)) = _
  rw [hloop]
  rfl

/-- The integer of a literal, with any number of digits, is the only one of 32 bits that has the
residue of the literal's number modulo `2 ^ 32`, and what follows the digits is left. So a number
of 32 bits is read as itself. A conditional break with the literal compares with the byte that has
the residue modulo 256: so it is read wherever it stands in a loop, its instruction has this byte
behind the opcode, and so has the code of a loop of it. Where neither a digit nor a minus directly
in front of a digit stands, reading fails there, and at most a minus is taken. -/
theorem integer_is_residue_of_literal :
    (∀ (l : IntLiteral) (s rest : Bytes), (Token.integer l).Leads s rest →
      ∃ n : Int32, Reader.integer.run s = .ok n rest ∧ n.toInt ≡ l.number [ZMOD 2 ^ 32] ∧
        (∀ m : Int32, m.toInt ≡ l.number [ZMOD 2 ^ 32] → m = n) ∧
        (-2 ^ 31 ≤ l.number → l.number < 2 ^ 31 → n.toInt = l.number)) ∧
    (∀ l : IntLiteral, ∃ b : UInt8, (b.toNat : Int) = l.number % 256 ∧
      (∀ (table : VariableTable) (place s rest : Bytes),
        Renders [.integer l, .mark .semicolon] s rest →
          (Reader.statement table .loopBody place "breakiflast").run s =
            .ok (.breakIfLast b) rest) ∧
      (∀ c : CodeBuffer, ((Statement.breakIfLast b).emit c).1.toList =
        c.toList ++ [0x51, b, 0, 0]) ∧
      ∀ options source, IsRendering [breakIfLastClause l] source →
        ∃ p, compile options source = .ok p ∧
          p.code.toList = [0x51, b, 0, 0, 0x50, 0xF9, 0xFF, 0xFF]) ∧
    ∀ s : Bytes,
      (¬∃ b u, isDigit b = true ∧
        (s.skipTrivia = b :: u ∨ s.skipTrivia = ascii '-' :: b :: u)) →
      ∃ t, Reader.integer.run s = .error (.malformed "Expected integer literal" t) t ∧
        (s.skipTrivia = ascii '-' :: t ∨ s.skipTrivia = t ∧ t.head? ≠ some (ascii '-')) := by
  refine ⟨?_, ?_, fun s h => Reader.run_integer_of_none h⟩
  · intro l s rest hleads
    refine ⟨l.value, Reader.run_integer_eq_ok_iff.mpr ⟨l, rfl, hleads⟩, l.toInt_value_modEq,
      fun m hm => eq_ofInt_of_modEq hm, ?_⟩
    intro hlow hhigh
    rw [l.toInt_value, IntLiteral.bmod_number_of_fits hlow hhigh]
  · intro l
    refine ⟨l.lowByte, l.toNat_lowByte_eq_emod, ?_, fun c => CodeBuffer.toList_emit, ?_⟩
    · intro table place s rest h
      exact run_statement_of_breakIfLast table place h
    · intro options source h
      exact ⟨_, compile_of_breakIfLast options h, toList_code_of_breakIfLast l.lowByte⟩

theorem integer_is_residue_of_literal_of_minus_4294967297 :
    ∃ n : Int32, Reader.integer.run (ofString " -4294967297;") = .ok n (ofString ";") ∧
      n.toInt = -1 ∧
      (Reader.statement {} .loopBody [] "breakiflast").run (ofString " -4294967297;") =
        .ok (.breakIfLast 255) [] := by
  have hdigit : ¬isDigit (ascii ';') = true := by decide
  let l : IntLiteral := ⟨true, ofString "4294967297", by decide, by decide +kernel⟩
  have hleads : (Token.integer l).Leads (ofString " -4294967297;") (ofString ";") :=
    Token.leads_blank_cons hdigit
  have hnumber : l.number = -4294967297 := by decide +kernel
  obtain ⟨hinteger, hbreak, -⟩ := integer_is_residue_of_literal
  obtain ⟨n, hn, -, hunique, -⟩ := hinteger l _ _ hleads
  obtain ⟨b, hb, hread, -⟩ := hbreak l
  rw [hnumber] at hunique hb
  obtain rfl : -1 = n := hunique (-1) (by decide)
  obtain rfl : b = 255 := by
    apply UInt8.toNat.inj
    exact Int.ofNat_inj.mp hb
  exact ⟨-1, hn, by decide, hread _ _ _ _ ⟨_, hleads, _, Token.leads_mark .semicolon [], rfl⟩⟩

end ConsoleScript
