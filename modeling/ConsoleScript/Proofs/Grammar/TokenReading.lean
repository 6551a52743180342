import ConsoleScript.Proofs.Grammar.Token

/-!
# Reading tokens

A reader of a token succeeds exactly where such a token stands in front, gives the
value of the token and leaves what is behind it.
-/

namespace ConsoleScript

open Grammar Bytes

namespace Bytes

/-- Texts tell runs of bytes apart. -/
theorem toText_inj {s t : Bytes} : toText s = toText t ↔ s = t := by
  rw [toText, toText, String.ofList_inj]
  refine List.map_inj_right fun b c h => ?_
  have hval : b.toUInt32 = c.toUInt32 := congrArg Char.val h
  simpa using congrArg UInt32.toUInt8 hval

/-- The fold in 64 bits keeps the residue of the number. -/
theorem numeralValue_eq_ofInt (digits : Bytes) :
    numeralValue digits =
      Int64.ofInt (digits.foldl (fun n d => 10 * n + (d - ascii '0').toNat) 0 : Nat) := by
  have hdigit : ∀ d : UInt8, d.toUInt64.toInt64 = Int64.ofInt d.toNat := by
    intro d
    apply Int64.toBitVec_inj.mp
    rw [Int64.toBitVec_ofInt, BitVec.ofInt_natCast]
    exact (BitVec.ofNat_toNat 64 d.toBitVec).symm
  have hfold : ∀ n : Nat, digits.foldl (fun n d => n * 10 + (d - ascii '0').toUInt64.toInt64)
      (Int64.ofInt n) =
        Int64.ofInt (digits.foldl (fun n d => 10 * n + (d - ascii '0').toNat) n : Nat) := by
    induction digits with
    | nil => exact fun n => rfl
    | cons d digits ih =>
        intro n
        have hnext : Int64.ofInt n * 10 + (d - ascii '0').toUInt64.toInt64 =
            Int64.ofInt (10 * n + (d - ascii '0').toNat : Nat) := by
          rw [hdigit, Int.natCast_add, Int.natCast_mul, Int64.ofInt_add, Int64.ofInt_mul,
            Int64.mul_comm]
          rfl
        rw [List.foldl_cons, List.foldl_cons, hnext]
        exact ih _
  exact hfold 0

end Bytes

namespace Reader

variable {s rest : Bytes}

/-! ### Punctuation and words -/

theorem run_eat_eq_true_iff {b : UInt8} :
    (eat b).run s = .ok true rest ↔ s.skipTrivia = b :: rest := by
  cases hs : s.skipTrivia with
  | nil => simp [run_eat_of_nil hs]
  | cons c t =>
      rw [run_eat_of_cons hs]
      by_cases hc : c = b <;> simp [hc]

/-- A byte that is not taken leaves the text behind trivia, which starts otherwise. -/
theorem run_eat_eq_false_iff {b : UInt8} :
    (eat b).run s = .ok false rest ↔ rest = s.skipTrivia ∧ rest.head? ≠ some b := by
  cases hs : s.skipTrivia with
  | nil =>
      rw [run_eat_of_nil hs]
      constructor
      · intro h
        cases h
        simp
      · rintro ⟨rfl, -⟩
        rfl
  | cons c t =>
      rw [run_eat_of_cons hs]
      by_cases hc : c = b
      · simp only [if_pos hc]
        constructor
        · intro h
          cases h
        · rintro ⟨rfl, h⟩
          exact absurd (congrArg some hc) h
      · simp only [if_neg hc]
        constructor
        · intro h
          cases h
          exact ⟨rfl, fun h => hc (Option.some.inj h)⟩
        · rintro ⟨rfl, -⟩
          rfl

theorem run_eat_mark_eq_true_iff (m : Mark) :
    (eat m.byte).run s = .ok true rest ↔ (Token.mark m).Leads s rest := by
  rw [run_eat_eq_true_iff, Token.leads_iff]
  exact (and_iff_left fun _ _ => id).symm

theorem run_expect_eq_ok_iff (m : Mark) {expectation : String} :
    (expect m.byte expectation).run s = .ok () rest ↔ (Token.mark m).Leads s rest := by
  rw [← run_eat_mark_eq_true_iff, expect, run_bind_eq_ok_iff]
  constructor
  · rintro ⟨found, t, hfound, h⟩
    cases found with
    | true =>
        cases h
        exact hfound
    | false => cases h
  · intro h
    exact ⟨true, rest, h, rfl⟩

theorem isEmpty_text (w : Word) : w.text.isEmpty = false := by
  obtain ⟨b, u, hw, -⟩ := w.exists_cons
  simp [Word.text, hw, toText, nameLength]

theorem run_requiredName_eq_ok_iff {expectation n : String} :
    (requiredName expectation).run s = .ok n rest ↔
      ∃ w : Word, w.text = n ∧ (Token.word w).Leads s rest := by
  rw [requiredName, run_bind_eq_ok_iff]
  constructor
  · rintro ⟨n', t, hname, h⟩
    rw [run_name] at hname
    cases hname
    split at h
    case isTrue => cases h
    case isFalse hne =>
      cases h
      obtain ⟨hs, hrun, hstop⟩ := Text.span_eq_iff.mp
        (⟨rfl, rfl⟩ : s.skipTrivia.takeWhile isNameByte = _ ∧ _)
      refine ⟨⟨_, ?_, hrun⟩, rfl, Token.leads_iff.mpr ⟨hs, ?_⟩⟩
      · intro hnil
        rw [hnil] at hne
        exact hne rfl
      · intro b hb
        simpa [Token.Extends] using hstop b hb
  · rintro ⟨w, rfl, hleads⟩
    obtain ⟨hs, hstop⟩ := Token.leads_iff.mp hleads
    obtain ⟨hrun, hrest⟩ := Text.span_eq_iff.mpr
      ⟨hs, w.isNameByte_of_mem, fun b hb => by simpa [Token.Extends] using hstop b hb⟩
    refine ⟨w.text, rest, ?_, ?_⟩
    · rw [run_name, hrun, hrest]
      rfl
    · rw [isEmpty_text]
      rfl

/-! ### Literals -/

/-- A string literal's body ends at the first double quote that stands for itself. -/
theorem stringBody_eq_ok_iff {front v : Bytes} :
    stringBody front s = .ok v rest ↔
      ∃ l : StringLiteral, v = front.reverse ++ l.value ∧
        s = l.units.flatMap LiteralUnit.spelling ++ ascii '"' :: rest := by
  constructor
  · intro h
    fun_induction stringBody front s with
    | case1 => cases h
    | case2 front s =>
        cases h
        exact ⟨⟨[], by simp⟩, by simp [StringLiteral.value], rfl⟩
    | case3 => cases h
    | case4 front c s hq ih =>
        obtain ⟨l, rfl, rfl⟩ := ih h
        refine ⟨⟨.escaped c :: l.units, ?_⟩, by simp [StringLiteral.value, LiteralUnit.value], rfl⟩
        intro u hu
        rcases List.mem_cons.mp hu with rfl | hu
        · simp [LiteralUnit.spelling]
        · exact l.no_quote u hu
    | case5 front b s hq hb ih =>
        obtain ⟨l, rfl, rfl⟩ := ih h
        refine ⟨⟨.plain b hb :: l.units, ?_⟩, by simp [StringLiteral.value, LiteralUnit.value], rfl⟩
        intro u hu
        rcases List.mem_cons.mp hu with rfl | hu
        · simpa [LiteralUnit.spelling] using hq
        · exact l.no_quote u hu
  · rintro ⟨⟨units, hunits⟩, rfl, rfl⟩
    induction units generalizing front with
    | nil =>
        show stringBody front (ascii '"' :: rest) = _
        rw [stringBody_quote]
        simp [StringLiteral.value]
    | cons u units ih =>
        have hrest := fun front => @ih front fun v hv => hunits v (List.mem_cons_of_mem _ hv)
        have hu := hunits u List.mem_cons_self
        cases u with
        | plain b hb =>
            have hq : b ≠ ascii '"' := by simpa [LiteralUnit.spelling] using hu
            show stringBody front (b :: (units.flatMap LiteralUnit.spelling ++ _)) = _
            rw [stringBody_byte hq hb, hrest]
            simp [StringLiteral.value, LiteralUnit.value]
        | escaped c =>
            show stringBody front (ascii '\\' :: c ::
              (units.flatMap LiteralUnit.spelling ++ _)) = _
            rw [stringBody_escape, hrest]
            simp [StringLiteral.value, LiteralUnit.value]

/-- Behind its opening quote, a literal is read as its body. -/
theorem run_quoted_of_skipTrivia {α : Type} {quote : UInt8} {body : Reader α}
    {expectation : String} {t : Bytes} (hs : s.skipTrivia = quote :: t) :
    (do
      if (← significant) = some quote then
        let _ ← eat quote
        body
      else malformed expectation : Reader α).run s = body.run t := by
  have hagain : skipTrivia (quote :: t) = quote :: t := by rw [← hs, skipTrivia_skipTrivia]
  rw [EStateM.run_bind, run_significant, hs]
  simp only [List.head?_cons, if_true]
  rw [EStateM.run_bind, run_eat_of_cons hagain, if_pos rfl]

/-- A literal between quotes is read behind its opening quote. -/
theorem run_quoted_eq_ok_iff {α : Type} {quote : UInt8} {body : Reader α} {expectation : String}
    {a : α} :
    (do
      if (← significant) = some quote then
        let _ ← eat quote
        body
      else malformed expectation : Reader α).run s = .ok a rest ↔
      ∃ t, s.skipTrivia = quote :: t ∧ body.run t = .ok a rest := by
  constructor
  · intro h
    by_cases hquote : s.skipTrivia.head? = some quote
    · obtain ⟨t, hs⟩ := List.head?_eq_some_iff.mp hquote
      rw [run_quoted_of_skipTrivia hs] at h
      exact ⟨t, hs, h⟩
    · rw [EStateM.run_bind, run_significant] at h
      simp only [if_neg hquote] at h
      cases h
  · rintro ⟨t, hs, h⟩
    rw [run_quoted_of_skipTrivia hs, h]

theorem run_string_eq_ok_iff {v : Bytes} :
    string.run s = .ok v rest ↔
      ∃ l : StringLiteral, l.value = v ∧ (Token.string l).Leads s rest := by
  refine run_quoted_eq_ok_iff.trans ?_
  constructor
  · rintro ⟨t, hs, h⟩
    obtain ⟨l, rfl, rfl⟩ := stringBody_eq_ok_iff.mp h
    refine ⟨l, rfl, Token.leads_iff.mpr ⟨?_, fun _ _ => id⟩⟩
    simp [hs, Token.spelling, StringLiteral.spelling]
  · rintro ⟨l, rfl, hleads⟩
    obtain ⟨hs, -⟩ := Token.leads_iff.mp hleads
    refine ⟨l.units.flatMap LiteralUnit.spelling ++ ascii '"' :: rest, ?_, ?_⟩
    · simp [hs, Token.spelling, StringLiteral.spelling]
    · exact stringBody_eq_ok_iff.mpr ⟨l, rfl, rfl⟩

theorem charUnit_plain {b : UInt8} (hb : b ≠ ascii '\\') : charUnit (b :: s) = .ok b s := by
  cases s <;> simp [charUnit, hb]

theorem charUnit_eq_ok_iff {b : UInt8} :
    charUnit s = .ok b rest ↔ ∃ u : LiteralUnit, u.value = b ∧ s = u.spelling ++ rest := by
  constructor
  · intro h
    fun_cases charUnit s with
    | case1 => cases h
    | case2 => cases h
    | case3 c s =>
        cases h
        exact ⟨.escaped c, rfl, rfl⟩
    | case4 c s hc =>
        rw [charUnit_plain hc] at h
        cases h
        exact ⟨.plain b hc, rfl, rfl⟩
  · rintro ⟨u, rfl, rfl⟩
    cases u with
    | plain b hb => exact charUnit_plain hb
    | escaped b => simp [charUnit, LiteralUnit.spelling, LiteralUnit.value]

theorem charEnd_eq_ok_iff : charEnd s = .ok () rest ↔ s = ascii '\'' :: rest := by
  cases s with
  | nil => simp [charEnd, unterminated]
  | cons b s =>
      by_cases hb : b = ascii '\'' <;> simp [charEnd, hb]

/-- Takes what is behind the opening quote of a char literal. -/
def charBody : Reader UInt8 := do
  let b ← charUnit
  charEnd
  return b

/-- A char literal is read behind its opening quote exactly where one unit stands in front of
a quote. -/
theorem run_charBody_eq_ok_iff {b : UInt8} :
    charBody.run s = .ok b rest ↔
      ∃ u : LiteralUnit, u.value = b ∧ s = u.spelling ++ ascii '\'' :: rest := by
  refine run_bind_eq_ok_iff.trans ?_
  constructor
  · rintro ⟨b', t, hunit, h⟩
    obtain ⟨⟨⟩, v, hend, h⟩ := run_bind_eq_ok_iff.mp h
    cases h
    obtain ⟨u, rfl, rfl⟩ := charUnit_eq_ok_iff.mp hunit
    exact ⟨u, rfl, by rw [charEnd_eq_ok_iff.mp hend]⟩
  · rintro ⟨u, rfl, rfl⟩
    refine ⟨u.value, _, charUnit_eq_ok_iff.mpr ⟨u, rfl, rfl⟩, ?_⟩
    apply run_bind_eq_ok_iff.mpr
    exact ⟨(), rest, charEnd_eq_ok_iff.mpr rfl, rfl⟩

theorem run_char_eq_ok_iff {b : UInt8} :
    char.run s = .ok b rest ↔ ∃ u : LiteralUnit, u.value = b ∧ (Token.char u).Leads s rest := by
  refine run_quoted_eq_ok_iff.trans ?_
  constructor
  · rintro ⟨t, hs, h⟩
    obtain ⟨u, rfl, rfl⟩ := run_charBody_eq_ok_iff.mp h
    refine ⟨u, rfl, Token.leads_iff.mpr ⟨?_, fun _ _ => id⟩⟩
    simp [hs, Token.spelling]
  · rintro ⟨u, rfl, hleads⟩
    obtain ⟨hs, -⟩ := Token.leads_iff.mp hleads
    refine ⟨u.spelling ++ ascii '\'' :: rest, ?_, run_charBody_eq_ok_iff.mpr ⟨u, rfl, rfl⟩⟩
    simp [hs, Token.spelling]

theorem run_digits_eq_ok_iff {n : Int64} :
    digits.run s = .ok n rest ↔
      ∃ ds : Bytes, ds ≠ [] ∧ numeralValue ds = n ∧ s = ds ++ rest ∧
        (∀ b ∈ ds, isDigit b = true) ∧ ∀ b ∈ rest.head?, isDigit b = false := by
  constructor
  · intro h
    by_cases hnil : s.takeWhile isDigit = []
    · simp [EStateM.run, digits, hnil] at h
    · simp only [EStateM.run, digits, if_neg hnil, EStateM.Result.ok.injEq] at h
      exact ⟨_, hnil, h.1, Text.span_eq_iff.mp ⟨rfl, h.2⟩⟩
  · rintro ⟨ds, hnil, rfl, hs⟩
    obtain ⟨hrun, hrest⟩ := Text.span_eq_iff.mpr hs
    simp [EStateM.run, digits, hrun, hrest, hnil]

/-- The digits of a literal are read as its magnitude, whatever its sign is. -/
theorem run_digits_eq_ok_iff_magnitude (negative : Bool) {n : Int64} :
    digits.run s = .ok n rest ↔
      ∃ l : IntLiteral, l.negative = negative ∧ Int64.ofInt l.magnitude = n ∧
        s = l.digits ++ rest ∧ ∀ b ∈ rest.head?, ¬(Token.integer l).Extends b := by
  rw [run_digits_eq_ok_iff]
  constructor
  · rintro ⟨ds, hnil, rfl, hs, hdigits, hstop⟩
    refine ⟨⟨negative, ds, hnil, hdigits⟩, rfl, (numeralValue_eq_ofInt ds).symm, hs, ?_⟩
    intro b hb
    simpa [Token.Extends] using hstop b hb
  · rintro ⟨l, rfl, rfl, hs, hstop⟩
    refine ⟨l.digits, l.ne_nil, numeralValue_eq_ofInt l.digits, hs, l.isDigit_of_mem, ?_⟩
    intro b hb
    simpa [Token.Extends] using hstop b hb

/-- The low half of the word that a literal's digits leave is the literal's value. -/
theorem toInt32_of_magnitude {l : IntLiteral} {negative : Bool} (h : l.negative = negative) :
    (if negative then -Int64.ofInt l.magnitude else Int64.ofInt l.magnitude).toInt32 =
      l.value := by
  have hword : (if negative then -Int64.ofInt l.magnitude else Int64.ofInt l.magnitude) =
      Int64.ofInt l.number := by
    rw [IntLiteral.number, h]
    cases negative with
    | true => exact (Int64.ofInt_neg _).symm
    | false => rfl
  rw [hword, Int64.toInt32_ofInt, IntLiteral.value]

theorem run_integer_eq_ok_iff {n : Int32} :
    integer.run s = .ok n rest ↔
      ∃ l : IntLiteral, l.value = n ∧ (Token.integer l).Leads s rest := by
  rw [integer, run_bind_eq_ok_iff]
  constructor
  · rintro ⟨negative, t, heat, h⟩
    obtain ⟨m, u, hdigits, h⟩ := run_bind_eq_ok_iff.mp h
    cases h
    obtain ⟨l, hneg, rfl, rfl, hstop⟩ := (run_digits_eq_ok_iff_magnitude negative).mp hdigits
    refine ⟨l, (toInt32_of_magnitude hneg).symm, Token.leads_iff.mpr ⟨?_, hstop⟩⟩
    cases negative with
    | true =>
        rw [run_eat_eq_true_iff.mp heat]
        simp [Token.spelling, IntLiteral.spelling, hneg]
    | false =>
        obtain ⟨hs, -⟩ := run_eat_eq_false_iff.mp heat
        simp [← hs, Token.spelling, IntLiteral.spelling, hneg]
  · rintro ⟨l, rfl, hleads⟩
    obtain ⟨hs, hstop⟩ := Token.leads_iff.mp hleads
    have hdigits : digits.run (l.digits ++ rest) = .ok (Int64.ofInt l.magnitude) rest :=
      (run_digits_eq_ok_iff_magnitude l.negative).mpr ⟨l, rfl, rfl, rfl, hstop⟩
    have hread : (eat (ascii '-')).run s = .ok l.negative (l.digits ++ rest) := by
      cases hneg : l.negative with
      | true =>
          apply run_eat_eq_true_iff.mpr
          simp [hs, Token.spelling, IntLiteral.spelling, hneg]
      | false =>
          have hskip : s.skipTrivia = l.digits ++ rest := by
            simp [hs, Token.spelling, IntLiteral.spelling, hneg]
          obtain ⟨b, u, hl, hb⟩ := l.exists_cons
          refine run_eat_eq_false_iff.mpr ⟨hskip.symm, ?_⟩
          rw [hl, List.cons_append, List.head?_cons, ne_eq, Option.some.injEq]
          exact ne_of_class hb (by decide)
    refine ⟨l.negative, l.digits ++ rest, hread, ?_⟩
    refine run_bind_eq_ok_iff.mpr ⟨_, rest, hdigits, ?_⟩
    rw [toInt32_of_magnitude rfl]
    rfl

end Reader

end ConsoleScript
