import ConsoleScript.Proofs.Grammar.TokenReading
import ConsoleScript.Variable
import Mathlib.Data.List.Basic

/-!
# Literals of constants

Each constant can be written as a literal: an integer as its decimal numeral, and a string
between double quotes, with a backslash in front of each double quote and each backslash.
-/

namespace ConsoleScript

open Grammar Bytes

/-! ### Spelling -/

/-- A byte as it is written between double quotes. -/
def Bytes.quotedByte (b : UInt8) : Bytes :=
  if b = ascii '"' ∨ b = ascii '\\' then [ascii '\\', b] else [b]

/-- The text that a constant is written as. -/
def Value.literal : Value → Bytes
  | int n => ofString (toString n.toInt)
  | string s => ascii '"' :: (s.flatMap quotedByte ++ [ascii '"'])

namespace Bytes

theorem toNat_le_of_isDigit {c : Char} (h : c.isDigit = true) : 48 ≤ c.toNat ∧ c.toNat ≤ 57 := by
  simp only [Char.isDigit, Bool.and_eq_true, decide_eq_true_eq] at h
  exact ⟨UInt32.le_iff_toNat_le.mp h.1, UInt32.le_iff_toNat_le.mp h.2⟩

theorem toNat_ascii_of_isDigit {c : Char} (h : c.isDigit = true) :
    (ascii c).toNat = c.toNat := by
  have hle := (toNat_le_of_isDigit h).2
  show c.toNat % 256 = c.toNat
  omega

theorem isDigit_ascii {c : Char} (h : c.isDigit = true) : isDigit (ascii c) = true := by
  obtain ⟨hlow, hhigh⟩ := toNat_le_of_isDigit h
  rw [isDigit, Bool.and_eq_true, decide_eq_true_eq, decide_eq_true_eq, UInt8.le_iff_toNat_le,
    UInt8.le_iff_toNat_le, toNat_ascii_of_isDigit h]
  exact ⟨hlow, hhigh⟩

/-- A text of ASCII characters has one byte for each of them. -/
theorem ofString_ofList_of_lt {l : List Char} (h : ∀ c ∈ l, c.toNat < 128) :
    ofString (String.ofList l) = l.map ascii := by
  have hencode : ofString (String.ofList l) = l.flatMap String.utf8EncodeChar := by
    simp [ofString, List.utf8Encode]
  rw [hencode]
  clear hencode
  induction l with
  | nil => rfl
  | cons c l ih =>
      have hchar : String.utf8EncodeChar c = [ascii c] := by
        apply String.utf8EncodeChar_eq_singleton
        rw [Char.utf8Size_eq_one_iff, UInt32.le_iff_toNat_le]
        exact Nat.le_of_lt_succ (h c List.mem_cons_self)
      rw [List.flatMap_cons, hchar, ih fun d hd => h d (List.mem_cons_of_mem c hd)]
      rfl

theorem ofString_ofList_of_isDigit {l : List Char} (h : ∀ c ∈ l, c.isDigit = true) :
    ofString (String.ofList l) = l.map ascii := by
  apply ofString_ofList_of_lt
  intro c hc
  exact Nat.lt_of_le_of_lt (toNat_le_of_isDigit (h c hc)).2 (by decide)

theorem ofString_append (s t : String) : ofString (s ++ t) = ofString s ++ ofString t := by
  simp [ofString]

end Bytes

namespace Grammar

/-! ### Strings -/

namespace StringLiteral

/-- A byte in a literal that stands for it. -/
def unitOf (b : UInt8) : LiteralUnit :=
  if h : b = ascii '"' ∨ b = ascii '\\' then .escaped b
  else .plain b fun hb => h (.inr hb)

theorem spelling_unitOf (b : UInt8) : (unitOf b).spelling = quotedByte b := by
  rw [unitOf, quotedByte]
  split <;> rfl

theorem value_unitOf (b : UInt8) : (unitOf b).value = b := by
  rw [unitOf]
  split
  case isTrue h =>
    rcases h with rfl | rfl
    · rfl
    · rfl
  case isFalse => rfl

/-- The literal of a string. -/
def ofBytes (s : Bytes) : StringLiteral where
  units := s.map unitOf
  no_quote u hu := by
    obtain ⟨b, -, rfl⟩ := List.mem_map.mp hu
    rw [spelling_unitOf, quotedByte]
    split
    case isTrue => simp
    case isFalse h =>
      intro heq
      exact h (.inl (List.singleton_inj.mp heq))

theorem flatMap_spelling_ofBytes (s : Bytes) :
    (ofBytes s).units.flatMap LiteralUnit.spelling = s.flatMap quotedByte := by
  rw [ofBytes, List.flatMap_map, funext spelling_unitOf]

theorem spelling_ofBytes (s : Bytes) : (ofBytes s).spelling = (Value.string s).literal := by
  rw [spelling, flatMap_spelling_ofBytes]
  rfl

theorem value_ofBytes (s : Bytes) : (ofBytes s).value = s := by
  rw [value, ofBytes, List.map_map]
  exact (List.map_congr_left fun b _ => value_unitOf b).trans (List.map_id s)

end StringLiteral

/-! ### Integers -/

namespace IntLiteral

theorem isDigit_of_mem_toDigits {n : Nat} {c : Char} (h : c ∈ Nat.toDigits 10 n) :
    c.isDigit = true :=
  Nat.isDigit_of_mem_toDigits (by decide) (by decide) h

/-- The literal of an integer. -/
def ofInt (n : Int) : IntLiteral where
  negative := n < 0
  digits := (Nat.toDigits 10 n.natAbs).map ascii
  ne_nil := by simp [Nat.toDigits_ne_nil]
  isDigit_of_mem b hb := by
    obtain ⟨c, hc, rfl⟩ := List.mem_map.mp hb
    exact isDigit_ascii (isDigit_of_mem_toDigits hc)

theorem ofString_repr (n : Nat) : ofString n.repr = (Nat.toDigits 10 n).map ascii :=
  ofString_ofList_of_isDigit fun _ => isDigit_of_mem_toDigits

theorem spelling_ofInt (n : Int) : (ofInt n).spelling = ofString (toString n) := by
  rw [Int.toString_eq_repr]
  cases n with
  | ofNat n => exact (ofString_repr n).symm
  | negSucc n =>
      rw [Int.repr, ofString_append, ofString_repr]
      have hnegative : (ofInt (.negSucc n)).negative = true :=
        decide_eq_true (Int.negSucc_lt_zero n)
      rw [spelling, hnegative]
      rfl

theorem magnitude_ofInt (n : Int) : (ofInt n).magnitude = n.natAbs := by
  have hdigits : (ofInt n).magnitude = Nat.ofDigitChars 10 (Nat.toDigits 10 n.natAbs) 0 := by
    rw [magnitude, ofInt, List.foldl_map, Nat.ofDigitChars]
    apply List.foldl_ext
    intro m c hc
    have hdigit := isDigit_of_mem_toDigits hc
    have hzero : ascii '0' ≤ ascii c := by
      rw [UInt8.le_iff_toNat_le, toNat_ascii_of_isDigit hdigit]
      exact (toNat_le_of_isDigit hdigit).1
    rw [UInt8.toNat_sub_of_le _ _ hzero, toNat_ascii_of_isDigit hdigit]
    rfl
  rw [hdigits, Nat.ofDigitChars_toDigits (by decide) (by decide)]

/-- The literal of an integer of 32 bits stands for it. -/
theorem value_ofInt (n : Int32) : (ofInt n.toInt).value = n := by
  have hnumber : (ofInt n.toInt).number = n.toInt := by
    rw [number, magnitude_ofInt, ofInt]
    by_cases hneg : n.toInt < 0
    · rw [if_pos (decide_eq_true hneg), Int.ofNat_natAbs_of_nonpos (Int.le_of_lt hneg), Int.neg_neg]
    · rw [if_neg (by simpa using hneg), Int.natAbs_of_nonneg (Int.not_lt.mp hneg)]
  rw [value, hnumber, Int32.ofInt_toInt]

end IntLiteral

end Grammar

end ConsoleScript
