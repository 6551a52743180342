import ConsoleScript.Source.Error

/-!
# Readers of a source

A reader takes what is left of a source and gives a result, or a fault, together
with what is left then. Tokens are read on demand; blanks and comments may stand
in front of each.

## Implementation notes

A reader that fails still says what is left, and reading may go on from there.
Facts about a reader are stated of what it gives when it is run on a text.
-/

namespace ConsoleScript

namespace Bytes

/-- What is left from the next line break on. -/
def skipLine (s : Bytes) : Bytes := s.dropWhile (· != ascii '\n')

theorem skipLine_suffix (s : Bytes) : skipLine s <:+ s := List.dropWhile_suffix _

/-- What is left behind blanks and comments. A comment starts with two slashes
and ends before the next line break. -/
def skipTrivia : Bytes → Bytes
  | [] => []
  | b :: s =>
    if isBlank b then skipTrivia s
    else if b = ascii '/' ∧ s.head? = some (ascii '/') then skipTrivia (skipLine s)
    else b :: s
termination_by s => s.length
decreasing_by
  · exact Nat.lt_succ_self _
  · exact Nat.lt_succ_of_le (skipLine_suffix _).length_le

theorem skipTrivia_suffix (s : Bytes) : skipTrivia s <:+ s := by
  fun_induction skipTrivia s with
  | case1 => exact List.suffix_rfl
  | case2 b s _ ih => exact ih.trans (List.suffix_cons b s)
  | case3 b s _ _ ih => exact (ih.trans (skipLine_suffix s)).trans (List.suffix_cons b s)
  | case4 => exact List.suffix_rfl

end Bytes

/-- Reads from the front of a source. -/
abbrev Reader := EStateM Fault Bytes

/-- What a reader gives: a result or a fault, and what is left. -/
abbrev Reading := EStateM.Result Fault Bytes

instance Reading.decidableEq {α : Type} [DecidableEq α] : DecidableEq (Reading α)
  | .ok a s, .ok b t => decidable_of_iff (a = b ∧ s = t) (by simp)
  | .error e s, .error e' t => decidable_of_iff (e = e' ∧ s = t) (by simp)
  | .ok _ _, .error _ _ => isFalse nofun
  | .error _ _, .ok _ _ => isFalse nofun

namespace Reader

variable {α β : Type}

/-- What is left after reading, also if reading fails. -/
def rest (r : Reader α) (s : Bytes) : Bytes :=
  match r.run s with
  | .ok _ t => t
  | .error _ t => t

/-- A reader that leaves an end of the text it was given. -/
def Forward (r : Reader α) : Prop := ∀ s, r.rest s <:+ s

/-- A reader that takes text away whenever it succeeds. -/
def Advances (r : Reader α) : Prop := ∀ s a t, r.run s = .ok a t → t.length < s.length

theorem Forward.suffix_of_ok {r : Reader α} (hr : Forward r) {s t : Bytes} {a : α}
    (h : r.run s = .ok a t) : t <:+ s := by
  simpa [rest, h] using hr s

theorem forward_pure (a : α) : Forward (pure a) := fun _ => List.suffix_rfl

theorem forward_throw (e : Fault) : Forward (throw e : Reader α) := fun _ => List.suffix_rfl

theorem forward_get : Forward (get : Reader Bytes) := fun _ => List.suffix_rfl

theorem run_bind_eq_ok_iff {r : Reader α} {f : α → Reader β} {s u : Bytes} {b : β} :
    (r >>= f).run s = .ok b u ↔ ∃ a t, r.run s = .ok a t ∧ (f a).run t = .ok b u := by
  rw [EStateM.run_bind]
  cases hs : r.run s with
  | error e t => simp
  | ok a t =>
      constructor
      · intro h
        exact ⟨a, t, rfl, h⟩
      · rintro ⟨a', t', heq, h⟩
        cases heq
        exact h

theorem Forward.bind {r : Reader α} {f : α → Reader β} (hr : Forward r)
    (hf : ∀ a, Forward (f a)) : Forward (r >>= f) := by
  intro s
  have h := hr s
  simp only [rest, EStateM.run_bind] at h ⊢
  cases hs : r.run s with
  | error e t => simpa [hs] using h
  | ok a t =>
      simp only [hs] at h ⊢
      exact (hf a t).trans h

theorem Advances.bind_forward {r : Reader α} {f : α → Reader β} (hr : Advances r)
    (hf : ∀ a, Forward (f a)) : Advances (r >>= f) := by
  intro s b u h
  obtain ⟨a, t, ha, h⟩ := run_bind_eq_ok_iff.mp h
  exact Nat.lt_of_le_of_lt ((hf a).suffix_of_ok h).length_le (hr s a t ha)

theorem Forward.bind_advances {r : Reader α} {f : α → Reader β} (hr : Forward r)
    (hf : ∀ a, Advances (f a)) : Advances (r >>= f) := by
  intro s b u h
  obtain ⟨a, t, ha, h⟩ := run_bind_eq_ok_iff.mp h
  exact Nat.lt_of_lt_of_le (hf a t b u h) (hr.suffix_of_ok ha).length_le

/-! ### Trivia, punctuation and names -/

/-- Skips blanks and comments. -/
def trivia : Reader Unit := fun s => .ok () s.skipTrivia

/-- Skips to the next line break. -/
def line : Reader Unit := fun s => .ok () s.skipLine

/-- The next byte, without taking it. -/
def peek : Reader (Option UInt8) := fun s => .ok s.head? s

/-- The next byte behind blanks and comments, without taking it. -/
def significant : Reader (Option UInt8) := do
  trivia
  peek

/-- Takes the next byte behind blanks and comments if it is the given one. -/
def eat (b : UInt8) : Reader Bool := fun s =>
  match s.skipTrivia with
  | [] => .ok false []
  | c :: t => if c = b then .ok true t else .ok false (c :: t)

/-- Fails here for want of what was expected. -/
def malformed (expectation : String) : Reader α := fun s =>
  .error (.malformed expectation s) s

/-- Takes the given byte or fails where the next token starts. -/
def expect (b : UInt8) (expectation : String) : Reader Unit := do
  unless ← eat b do malformed expectation

/-- The number of bytes by which names are told apart. -/
def nameLength : Nat := 63

/-- Takes the longest run of name bytes, of which only the first count. The name
is empty if no such byte follows. -/
def name : Reader String := fun s =>
  let t := s.skipTrivia
  .ok (Bytes.toText ((t.takeWhile Bytes.isNameByte).take nameLength))
    (t.dropWhile Bytes.isNameByte)

/-- Takes a name that is not empty. -/
def requiredName (expectation : String) : Reader String := do
  let n ← name
  if n.isEmpty then malformed expectation else return n

section Run

variable {s t : Bytes} {b c : UInt8}

@[simp] theorem run_trivia : trivia.run s = .ok () s.skipTrivia := rfl

@[simp] theorem run_line : line.run s = .ok () s.skipLine := rfl

@[simp] theorem run_significant :
    significant.run s = .ok s.skipTrivia.head? s.skipTrivia := rfl

theorem run_eat_of_nil (h : s.skipTrivia = []) : (eat b).run s = .ok false [] := by
  simp [EStateM.run, eat, h]

theorem run_eat_of_cons (h : s.skipTrivia = c :: t) :
    (eat b).run s = if c = b then .ok true t else .ok false (c :: t) := by
  simp [EStateM.run, eat, h]

@[simp] theorem run_malformed {expectation : String} :
    (malformed expectation : Reader α).run s = .error (.malformed expectation s) s := rfl

@[simp] theorem run_name :
    name.run s =
      .ok (Bytes.toText ((s.skipTrivia.takeWhile Bytes.isNameByte).take nameLength))
        (s.skipTrivia.dropWhile Bytes.isNameByte) := rfl

end Run

theorem forward_trivia : Forward trivia := Bytes.skipTrivia_suffix

theorem forward_line : Forward line := Bytes.skipLine_suffix

theorem forward_significant : Forward significant := Bytes.skipTrivia_suffix

theorem forward_malformed (expectation : String) :
    Forward (malformed expectation : Reader α) := fun _ => List.suffix_rfl

theorem forward_eat (b : UInt8) : Forward (eat b) := by
  intro s
  have h := Bytes.skipTrivia_suffix s
  cases ht : s.skipTrivia with
  | nil => simp [rest, run_eat_of_nil ht]
  | cons c t =>
      rw [ht] at h
      by_cases hc : c = b
      · simpa [rest, run_eat_of_cons ht, hc] using (List.suffix_cons c t).trans h
      · simpa [rest, run_eat_of_cons ht, hc] using h

theorem forward_expect (b : UInt8) (expectation : String) : Forward (expect b expectation) := by
  refine (forward_eat b).bind fun found => ?_
  cases found with
  | true => exact forward_pure ()
  | false => exact forward_malformed expectation

theorem forward_name : Forward name := fun s =>
  (List.dropWhile_suffix _).trans (Bytes.skipTrivia_suffix s)

theorem forward_requiredName (expectation : String) : Forward (requiredName expectation) := by
  refine forward_name.bind fun n => ?_
  split
  · exact forward_malformed expectation
  · exact forward_pure n

/-- A name that is not empty takes text away. -/
theorem length_lt_of_name {s t : Bytes} {n : String} (h : name.run s = .ok n t)
    (hn : n.isEmpty = false) : t.length < s.length := by
  have hle := (Bytes.skipTrivia_suffix s).length_le
  simp only [run_name, EStateM.Result.ok.injEq] at h
  obtain ⟨rfl, rfl⟩ := h
  generalize s.skipTrivia = u at hn hle
  cases u with
  | nil => simp [Bytes.toText] at hn
  | cons b u =>
      by_cases hb : Bytes.isNameByte b = true
      · rw [List.dropWhile_cons_of_pos hb]
        have := (List.dropWhile_suffix (l := u) Bytes.isNameByte).length_le
        simp only [List.length_cons] at hle
        omega
      · simp [hb, Bytes.toText] at hn

theorem advances_requiredName (expectation : String) : Advances (requiredName expectation) := by
  intro s a t h
  obtain ⟨n, u, hn, h⟩ := run_bind_eq_ok_iff.mp h
  split at h
  · cases h
  · cases h
    exact length_lt_of_name hn (Bool.eq_false_iff.mpr ‹_›)

end Reader

end ConsoleScript
