import ConsoleScript.Proofs.Source.IntegerLiteral

/-!
# Coordinates of the cursor

The operands of a cursor's move are integers of 32 bits, and a move takes the nearest values
that fit a byte. A literal of any length is first read as an integer of 32 bits, which wraps
around. So only literals of that range are taken to the nearest value themselves.
-/

namespace ConsoleScript

open Grammar Bytes

namespace Statement

/-- A coordinate is the nearest number from zero to 255. -/
theorem toNat_coordinate (n : Int32) :
    ((coordinate n).toNat : Int) = min 255 (max 0 n.toInt) := by
  have hlt : min 255 n.toInt.toNat < UInt8.size := by
    rw [show UInt8.size = 256 from rfl]
    omega
  rw [coordinate, UInt8.toNat_ofNat_of_lt' hlt]
  omega

/-- The code of a move. -/
theorem toList_emit_setCursor (c : CodeBuffer) (x y : UInt8) :
    ((setCursor x y).emit c).1.toList = c.toList ++ [0x31, x, y] :=
  CodeBuffer.toList_emit

end Statement

variable {x y : IntLiteral} {comma : Bool}

/-- A source of one move has the code of the move, and an exit. -/
theorem compile_of_setCursor (options : CompileOptions) {source : Bytes}
    (h : IsRendering [setCursorClause x comma y] source) :
    compile options source = .ok (.ofBlocks [.statement (.setCursor
      (Statement.coordinate x.value) (Statement.coordinate y.value))] 0) := by
  apply compile_of_isRendering h (isScoped_singleton rfl) (Nat.zero_le _)
  intro _ b hb
  obtain rfl := List.mem_singleton.mp hb
  trivial

/-- Wherever a move between literals stands, it is read as a move to the nearest values of the
integers that the literals stand for. -/
theorem run_statement_of_setCursor {scope : Scope} (table : VariableTable) (place : Bytes)
    {s rest : Bytes}
    (h : Renders ((Command.setCursor (.literal x) comma (.literal y) : Command scope).operands ++
      [.mark .semicolon]) s rest) :
    (Reader.statement table scope place "setcursor").run s = .ok
      (.setCursor (Statement.coordinate x.value) (Statement.coordinate y.value)) rest :=
  Reader.run_statement_eq_ok_iff.mpr ⟨_, rfl, rfl, h⟩

/-- A move between literals of any length, with or without a comma, has its opcode and one byte
for each operand: the nearest number from zero to 255 to the residue of the literal's number
modulo `2 ^ 32` that is an integer of 32 bits. That is so for a source of one move, and for a
move anywhere in a script. A number of 32 bits is its own residue, so it is taken to the
nearest byte itself. -/
theorem setCursor_saturates_wrapped (x y : IntLiteral) (comma : Bool) :
    ∃ a b : UInt8,
      (a.toNat : Int) = min 255 (max 0 (x.number.bmod (2 ^ 32))) ∧
      (b.toNat : Int) = min 255 (max 0 (y.number.bmod (2 ^ 32))) ∧
      (∀ options source, IsRendering [setCursorClause x comma y] source →
        ∃ p, compile options source = .ok p ∧ p.code.toList = [0x31, a, b, 0xFF]) ∧
      (∀ (scope : Scope) (table : VariableTable) (place s rest : Bytes),
        Renders ((Command.setCursor (.literal x) comma (.literal y) : Command scope).operands ++
          [.mark .semicolon]) s rest →
        (Reader.statement table scope place "setcursor").run s = .ok (.setCursor a b) rest ∧
        ∀ c : CodeBuffer, ((Statement.setCursor a b).emit c).1.toList =
          c.toList ++ [0x31, a, b]) ∧
      ∀ l : IntLiteral, -2 ^ 31 ≤ l.number → l.number < 2 ^ 31 →
        l.number.bmod (2 ^ 32) = l.number := by
  refine ⟨Statement.coordinate x.value, Statement.coordinate y.value, ?_, ?_, ?_, ?_,
    fun l => l.bmod_number_of_fits⟩
  · rw [Statement.toNat_coordinate, x.toInt_value]
  · rw [Statement.toNat_coordinate, y.toInt_value]
  · intro options source h
    exact ⟨_, compile_of_setCursor options h, rfl⟩
  · intro scope table place s rest h
    exact ⟨run_statement_of_setCursor table place h, fun c =>
      Statement.toList_emit_setCursor c _ _⟩

theorem setCursor_saturates_wrapped_of_300_and_minus_5 :
    ∃ p, compile {} (ofString "setcursor 300 -5;") = .ok p ∧
      p.code.toList = [0x31, 255, 0, 0xFF] := by
  obtain ⟨a, b, ha, hb, hcompile, -, -⟩ := setCursor_saturates_wrapped
    ⟨false, ofString "300", by decide, by decide +kernel⟩
    ⟨true, ofString "5", by decide, by decide +kernel⟩ false
  obtain rfl : a = 255 := by
    apply UInt8.toNat.inj
    exact Int.ofNat_inj.mp (ha.trans (by decide +kernel))
  obtain rfl : b = 0 := by
    apply UInt8.toNat.inj
    exact Int.ofNat_inj.mp (hb.trans (by decide +kernel))
  exact hcompile {} _ (isRendering_setCursorText _ _ _)

/-- A number beyond 32 bits wraps around first, so it may be taken to the other end. -/
theorem setCursor_not_saturates_of_2147483648 :
    compile {} (ofString "setcursor 2147483648, 0;") =
        .ok (.ofBlocks [.statement (.setCursor 0 0)] 0) ∧
      ¬∀ (x y : IntLiteral) (comma : Bool) (source : Bytes),
        IsRendering [setCursorClause x comma y] source →
          ∃ p a b, compile {} source = .ok p ∧ p.code.toList = [0x31, a, b, 0xFF] ∧
            (a.toNat : Int) = min 255 (max 0 x.number) ∧
            (b.toNat : Int) = min 255 (max 0 y.number) := by
  have hcompile : compile {} (ofString "setcursor 2147483648, 0;") =
      .ok (.ofBlocks [.statement (.setCursor 0 0)] 0) := by
    decide +kernel
  refine ⟨hcompile, fun h => ?_⟩
  obtain ⟨p, a, b, hp, hcode, ha, -⟩ := h
    ⟨false, ofString "2147483648", by decide, by decide +kernel⟩
    ⟨false, ofString "0", by decide, by decide +kernel⟩ true
    (ofString "setcursor 2147483648, 0;") (isRendering_setCursorText _ _ _)
  cases hcompile.symm.trans hp
  obtain rfl : a = 0 := by
    cases hcode
    rfl
  exact absurd ha (by decide +kernel)

end ConsoleScript
