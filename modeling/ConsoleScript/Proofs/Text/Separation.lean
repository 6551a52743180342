import ConsoleScript.Proofs.Text.Splitting
import ConsoleScript.Text.Escaped
import Std.Data.String.ToInt

/-!
# Texts that can be told apart

A text is put together from numerals, words and quoted strings. It says what its parts are
if each part shows where it ends: a numeral at the first character that is none of its
characters, a quoted string at the first quote that is not escaped.

## Implementation notes

The relation compares two texts and not the values of one printer, so that the second part
of a text may depend on what the first part says.
-/

namespace ConsoleScript.Text

/-- The text is over, or goes on outside a class of characters. -/
def GoesOnOutside (p : Char → Bool) (x : List Char) : Prop :=
  ∀ c ∈ x.head?, p c = false

/-- In front of texts that go on outside the class, both texts agree only if the proposition
holds, and then what is behind agrees too. -/
def Separates (p : Char → Bool) (s t : String) (P : Prop) : Prop :=
  ∀ x y : List Char, GoesOnOutside p x → GoesOnOutside p y →
    s.toList ++ x = t.toList ++ y → P ∧ x = y

variable {p q : Char → Bool} {s s' t t' : String} {P Q : Prop}

/-! ### The relation -/

/-- A text that starts outside the class goes on so, whatever is behind it. -/
theorem goesOnOutside_of_head? {c : Char} (hc : s.toList.head? = some c) (hp : p c = false)
    (x : List Char) : GoesOnOutside p (s.toList ++ x) := by
  intro c' hc'
  rw [List.head?_append, hc] at hc'
  obtain rfl : c = c' := Option.some.inj hc'
  exact hp

namespace Separates

theorem refl (s : String) : Separates q s s True := by
  intro x y _ _ h
  exact ⟨trivial, List.append_cancel_left h⟩

theorem imp (h : Separates p s t P) (himp : P → Q) : Separates p s t Q := by
  intro x y hx hy heq
  obtain ⟨hP, hrest⟩ := h x y hx hy heq
  exact ⟨himp hP, hrest⟩

/-- Texts one behind the other are told apart if the first ones are, the second ones are,
and these show where the first ones end. -/
theorem append (h : Separates p s t P) (h' : P → Separates q s' t' Q)
    (hs : ∀ x, GoesOnOutside q x → GoesOnOutside p (s'.toList ++ x))
    (ht : ∀ x, GoesOnOutside q x → GoesOnOutside p (t'.toList ++ x)) :
    Separates q (s ++ s') (t ++ t') (P ∧ Q) := by
  intro x y hx hy heq
  rw [String.toList_append, String.toList_append, List.append_assoc, List.append_assoc] at heq
  obtain ⟨hP, heq⟩ := h _ _ (hs x hx) (ht y hy) heq
  obtain ⟨hQ, hrest⟩ := h' hP x y hx hy heq
  exact ⟨⟨hP, hQ⟩, hrest⟩

/-- The same text may stand in front. -/
theorem behind (front : String) (h : Separates p s t P) :
    Separates p (front ++ s) (front ++ t) P := by
  intro x y hx hy heq
  rw [String.toList_append, String.toList_append, List.append_assoc, List.append_assoc] at heq
  exact h x y hx hy (List.append_cancel_left heq)

/-- A text outside the class may stand behind, and then anything. -/
theorem closed (h : Separates p s t P) {back : String} {c : Char}
    (hc : back.toList.head? = some c) (hp : p c = false) :
    Separates q (s ++ back) (t ++ back) P := by
  have hback : ∀ x, GoesOnOutside q x → GoesOnOutside p (back.toList ++ x) :=
    fun x _ => goesOnOutside_of_head? hc hp x
  exact (h.append (fun _ => refl back) hback hback).imp And.left

/-- Texts of characters of the class are told apart where the class ends. -/
theorem of_forall (hs : ∀ c ∈ s.toList, p c = true) (ht : ∀ c ∈ t.toList, p c = true) :
    Separates p s t (s = t) := by
  intro x y hx hy heq
  obtain ⟨hsrun, hsrest⟩ := span_eq_iff.mpr ⟨rfl, hs, hx⟩
  obtain ⟨htrun, htrest⟩ := span_eq_iff.mpr ⟨heq, ht, hy⟩
  exact ⟨String.toList_inj.mp (hsrun.symm.trans htrun), hsrest.symm.trans htrest⟩

/-- Texts that start with different characters do not agree. -/
theorem of_head?_ne {c d : Char} (hs : s.toList.head? = some c) (ht : t.toList.head? = some d)
    (hne : c ≠ d) : Separates q s t P := by
  intro x y _ _ heq
  have hhead := congrArg List.head? heq
  rw [List.head?_append, List.head?_append, hs, ht] at hhead
  exact absurd (Option.some.inj hhead) hne

end Separates

/-! ### Numerals -/

/-- The characters of decimal numerals with and without a sign. -/
def isNumeral (c : Char) : Bool := c.isDigit || c == '-' || c == '+'

theorem isNumeral_of_mem_repr {n : Nat} {c : Char} (h : c ∈ n.repr.toList) :
    isNumeral c = true := by
  rw [Nat.toList_repr] at h
  have hdigit := Nat.isDigit_of_mem_toDigits (by decide) (by decide) h
  simp [isNumeral, hdigit]

theorem isNumeral_of_mem_toString {n : Int} {c : Char} (h : c ∈ (toString n).toList) :
    isNumeral c = true := by
  cases n with
  | ofNat n => exact isNumeral_of_mem_repr h
  | negSucc n =>
      have htext : (toString (Int.negSucc n)).toList = '-' :: (n + 1).repr.toList :=
        String.toList_append
      rw [htext] at h
      rcases List.mem_cons.mp h with rfl | hdigits
      · rfl
      · exact isNumeral_of_mem_repr hdigits

theorem isNumeral_of_mem_signed {n : Int} {c : Char} (h : c ∈ (signed n).toList) :
    isNumeral c = true := by
  rw [signed] at h
  split at h
  · exact isNumeral_of_mem_toString h
  · rw [String.toList_append] at h
    rcases List.mem_append.mp h with hsign | hdigits
    · obtain rfl := List.mem_singleton.mp hsign
      rfl
    · exact isNumeral_of_mem_toString hdigits

/-- The sign that a numeral always shows. -/
theorem head?_signed (n : Int) : (signed n).toList.head? = some (if n < 0 then '-' else '+') := by
  cases n with
  | ofNat n =>
      have hn : ¬Int.ofNat n < 0 := Int.not_lt.mpr (Int.natCast_nonneg n)
      rw [signed, if_neg hn, if_neg hn, String.toList_append]
      rfl
  | negSucc n =>
      have hn : Int.negSucc n < 0 := Int.negSucc_lt_zero n
      have htext : (toString (Int.negSucc n)).toList = '-' :: (n + 1).repr.toList :=
        String.toList_append
      rw [signed, if_pos hn, if_pos hn, htext]
      rfl

theorem signed_inj {m n : Int} (h : signed m = signed n) : m = n := by
  have hsign : (if m < 0 then '-' else '+') = if n < 0 then '-' else '+' := by
    apply Option.some.inj
    rw [← head?_signed, ← head?_signed, h]
  by_cases hm : m < 0 <;> by_cases hn : n < 0
  · rw [signed, signed, if_pos hm, if_pos hn] at h
    exact Int.repr_inj.mp h
  · rw [if_pos hm, if_neg hn] at hsign
    exact absurd hsign (by decide)
  · rw [if_neg hm, if_pos hn] at hsign
    exact absurd hsign (by decide)
  · rw [signed, signed, if_neg hm, if_neg hn] at h
    exact Int.repr_inj.mp (String.append_right_inj _ |>.mp h)

theorem separates_repr (m n : Nat) : Separates isNumeral m.repr n.repr (m = n) := by
  refine Separates.imp (.of_forall ?_ ?_) Nat.repr_inj.mp
  · exact fun c => isNumeral_of_mem_repr
  · exact fun c => isNumeral_of_mem_repr

theorem separates_toString (m n : Int) :
    Separates isNumeral (toString m) (toString n) (m = n) := by
  refine Separates.imp (.of_forall ?_ ?_) Int.repr_inj.mp
  · exact fun c => isNumeral_of_mem_toString
  · exact fun c => isNumeral_of_mem_toString

theorem separates_signed (m n : Int) : Separates isNumeral (signed m) (signed n) (m = n) := by
  refine Separates.imp (.of_forall ?_ ?_) signed_inj
  · exact fun c => isNumeral_of_mem_signed
  · exact fun c => isNumeral_of_mem_signed

/-! ### Quoted strings -/

/-- The number below sixteen that a small hexadecimal digit stands for. -/
def hexValue (c : Char) : Nat :=
  if c ≤ '9' then c.toNat - '0'.toNat else c.toNat - 'a'.toNat + 10

/-- The byte in whose visible form a text starts, and what is behind that form. -/
def unescape : List Char → Option (UInt8 × List Char)
  | '\\' :: 't' :: x => some (ascii '\t', x)
  | '\\' :: 'r' :: x => some (ascii '\r', x)
  | '\\' :: 'n' :: x => some (ascii '\n', x)
  | '\\' :: 'x' :: high :: low :: x => some (.ofNat (16 * hexValue high + hexValue low), x)
  | '\\' :: c :: x => some (ascii c, x)
  | c :: x => some (ascii c, x)
  | [] => none

theorem ascii_ofUInt8 (b : UInt8) : ascii (Char.ofUInt8 b) = b :=
  UInt8.toUInt8_toUInt32 b

theorem ofUInt8_ne_of_ne {b : UInt8} {c : Char} (h : b ≠ ascii c) : Char.ofUInt8 b ≠ c := by
  rintro rfl
  exact h (ascii_ofUInt8 b).symm

theorem unescape_cons_of_ne {c : Char} (hc : c ≠ '\\') (x : List Char) :
    unescape (c :: x) = some (ascii c, x) := by
  unfold unescape
  split <;> simp_all

theorem hexValue_hexDigit : ∀ n < 16, hexValue (hexDigit .lower n) = n := by decide

/-- The visible form of a byte shows where it ends. -/
theorem unescape_escapeByte (b : UInt8) (x : List Char) :
    unescape (escapeByte b ++ x) = some (b, x) := by
  unfold escapeByte
  split_ifs with htab hreturn hline hdelimiter hprintable
  · rw [htab]; rfl
  · rw [hreturn]; rfl
  · rw [hline]; rfl
  · rcases hdelimiter with rfl | rfl | rfl <;> rfl
  · obtain ⟨-, -, hbackslash⟩ := not_or.mp hdelimiter |>.imp_right not_or.mp
    rw [List.singleton_append, unescape_cons_of_ne (ofUInt8_ne_of_ne hbackslash), ascii_ofUInt8]
  · have hlt := b.toNat_lt
    have hvalue : 16 * hexValue (hexDigit .lower (b.toNat / 16)) +
        hexValue (hexDigit .lower (b.toNat % 16)) = b.toNat := by
      rw [hexValue_hexDigit _ (by omega), hexValue_hexDigit _ (by omega), Nat.div_add_mod]
    show some (UInt8.ofNat _, x) = _
    rw [hvalue, UInt8.ofNat_toNat]

/-- What a text starts with is the visible form of one byte at most. -/
theorem escapeByte_append_inj {b c : UInt8} {x y : List Char}
    (h : escapeByte b ++ x = escapeByte c ++ y) : b = c ∧ x = y := by
  have hread := congrArg unescape h
  rw [unescape_escapeByte, unescape_escapeByte] at hread
  exact Prod.mk.inj (Option.some.inj hread)

/-- No visible form starts as a quote does. -/
theorem escapeByte_append_ne (b : UInt8) (x y : List Char) : escapeByte b ++ x ≠ '"' :: y := by
  intro h
  have hread := congrArg unescape h
  rw [unescape_cons_of_ne (by decide), unescape_escapeByte] at hread
  obtain ⟨rfl, rfl⟩ := Prod.mk.inj (Option.some.inj hread)
  exact absurd (List.cons.inj h).1 (by decide)

theorem toList_quoted (s : Bytes) :
    (quoted s).toList = '"' :: (s.flatMap escapeByte ++ ['"']) := by
  have hescape : (escape s).toList = s.flatMap escapeByte := String.toList_ofList
  rw [quoted, String.toList_append, String.toList_append, hescape]
  rfl

/-- Quoted strings are told apart, whatever is behind them. -/
theorem separates_quoted (s t : Bytes) : Separates p (quoted s) (quoted t) (s = t) := by
  intro x y _ _ h
  rw [toList_quoted, toList_quoted, List.cons_append, List.cons_append, List.append_assoc,
    List.append_assoc] at h
  exact flatMap_append_cons_inj escapeByte_append_inj (fun b _ => escapeByte_append_ne b)
    (fun b _ => escapeByte_append_ne b) (List.cons.inj h).2

/-! ### Line breaks -/

theorem hexDigit_ne_newline (hexCase : HexCase) : ∀ n < 16, hexDigit hexCase n ≠ '\n' := by
  cases hexCase <;> decide

/-- A visible form breaks no line. -/
theorem newline_notMem_escapeByte (b : UInt8) : '\n' ∉ escapeByte b := by
  unfold escapeByte
  split_ifs with htab hreturn hline hdelimiter hprintable
  · decide
  · decide
  · decide
  · rcases hdelimiter with rfl | rfl | rfl <;> decide
  · have hne := ofUInt8_ne_of_ne hline
    simpa using hne.symm
  · have hlt := b.toNat_lt
    have hhigh := hexDigit_ne_newline .lower (b.toNat / 16) (by omega)
    have hlow := hexDigit_ne_newline .lower (b.toNat % 16) (by omega)
    simpa using ⟨hhigh.symm, hlow.symm⟩

theorem newline_notMem_quoted (s : Bytes) : '\n' ∉ (quoted s).toList := by
  rw [toList_quoted]
  intro h
  rcases List.mem_cons.mp h with hquote | h
  · exact absurd hquote (by decide)
  · rcases List.mem_append.mp h with hmem | hquote
    · obtain ⟨b, -, hb⟩ := List.mem_flatMap.mp hmem
      exact newline_notMem_escapeByte b hb
    · exact absurd (List.mem_singleton.mp hquote) (by decide)

theorem newline_notMem_hexDigits (hexCase : HexCase) (n : Nat) :
    '\n' ∉ hexDigits hexCase n := by
  fun_induction hexDigits hexCase n with
  | case1 n hlt => simpa using (hexDigit_ne_newline hexCase n hlt).symm
  | case2 n hle ih =>
      have hlast := hexDigit_ne_newline hexCase (n % 16) (Nat.mod_lt n (by decide))
      simpa [ih] using hlast.symm

theorem newline_notMem_hex (hexCase : HexCase) (width n : Nat) :
    '\n' ∉ (hex hexCase width n).toList := by
  rw [hex, String.toList_ofList, List.leftpad]
  intro h
  rcases List.mem_append.mp h with hpad | hdigit
  · exact absurd (List.eq_of_mem_replicate hpad) (by decide)
  · exact newline_notMem_hexDigits hexCase n hdigit

end ConsoleScript.Text
