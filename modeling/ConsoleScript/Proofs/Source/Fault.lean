import ConsoleScript.Script.Item

/-!
# Faults of readers

The faults that a reader may meet are those of the readers that it is made of. Most readers
take tokens and only meet what is malformed or does not end.

## Implementation notes

A place may be handed on to a reader that is given less of the source. So the source is a
parameter, of which a reader is given an end.
-/

namespace ConsoleScript

open Bytes

namespace Reader

variable {α β : Type} {source : Bytes} {P : Fault → Prop} {r : Reader α} {f : α → Reader β}
  {e : Fault}

theorem run_bind_eq_error_iff {s u : Bytes} :
    (r >>= f).run s = .error e u ↔
      r.run s = .error e u ∨ ∃ a t, r.run s = .ok a t ∧ (f a).run t = .error e u := by
  rw [EStateM.run_bind]
  cases r.run s with
  | error e' t => simp
  | ok a t =>
      constructor
      · exact fun h => .inr ⟨a, t, rfl, h⟩
      · rintro (h | ⟨a', t', h, hf⟩)
        · cases h
        · cases h
          exact hf

/-- On an end of the source, the reader has no faults but these. -/
def FaultsIn (source : Bytes) (P : Fault → Prop) (r : Reader α) : Prop :=
  ∀ s, s <:+ source → ∀ e t, r.run s = .error e t → P e

theorem FaultsIn.bind (hr : FaultsIn source P r) (hforward : Forward r)
    (hf : ∀ a, FaultsIn source P (f a)) : FaultsIn source P (r >>= f) := by
  intro s hs e t h
  rcases run_bind_eq_error_iff.mp h with hrun | ⟨a, u, hrun, h⟩
  · exact hr s hs e t hrun
  · exact hf a u ((hforward.suffix_of_ok hrun).trans hs) e t h

theorem faultsIn_of_ok (h : ∀ s, ∃ a t, r.run s = .ok a t) : FaultsIn source P r := by
  intro s hs e t herror
  obtain ⟨a, u, hok⟩ := h s
  rw [hok] at herror
  cases herror

theorem faultsIn_pure (a : α) : FaultsIn source P (pure a : Reader α) :=
  faultsIn_of_ok fun s => ⟨a, s, rfl⟩

theorem faultsIn_throw (h : P e) :
    FaultsIn source P (throw e : Reader α) := by
  intro s hs e' t herror
  cases herror
  exact h

theorem FaultsIn.map (hr : FaultsIn source P r) (hforward : Forward r) (g : α → β) :
    FaultsIn source P (g <$> r) :=
  hr.bind hforward fun a => faultsIn_pure (g a)

/-- What is malformed and what does not end is among the faults. -/
structure IncludesTokens (source : Bytes) (P : Fault → Prop) : Prop where
  malformed {place : Bytes} (expectation : String) (h : place <:+ source) :
    P (.malformed expectation place)
  unterminated (literal : LiteralKind) : P (.unterminated literal [])

/-! ### Tokens -/

theorem faultsIn_significant : FaultsIn source P significant :=
  faultsIn_of_ok fun _ => ⟨_, _, run_significant⟩

theorem faultsIn_name : FaultsIn source P name :=
  faultsIn_of_ok fun _ => ⟨_, _, run_name⟩

theorem faultsIn_eat (b : UInt8) : FaultsIn source P (eat b) := by
  refine faultsIn_of_ok fun s => ?_
  cases hs : s.skipTrivia with
  | nil => exact ⟨false, [], run_eat_of_nil hs⟩
  | cons c t =>
      rw [run_eat_of_cons hs]
      split
      · exact ⟨true, t, rfl⟩
      · exact ⟨false, c :: t, rfl⟩

variable (hP : IncludesTokens source P)

include hP

theorem faultsIn_malformed (expectation : String) :
    FaultsIn source P (malformed expectation : Reader α) := by
  intro s hs e t h
  cases h
  exact hP.malformed _ hs

theorem faultsIn_expect (b : UInt8) (expectation : String) :
    FaultsIn source P (expect b expectation) := by
  refine (faultsIn_eat b).bind (forward_eat b) fun found => ?_
  cases found with
  | true => exact faultsIn_pure ()
  | false => exact faultsIn_malformed hP expectation

theorem faultsIn_requiredName (expectation : String) :
    FaultsIn source P (requiredName expectation) := by
  refine faultsIn_name.bind forward_name fun n => ?_
  split
  · exact faultsIn_malformed hP expectation
  · exact faultsIn_pure n

/-! ### Literals -/

theorem IncludesTokens.of_unterminated {literal : LiteralKind} {t : Bytes}
    (h : (Reader.unterminated literal : Reading α) = .error e t) : P e := by
  cases h
  exact hP.unterminated literal

theorem faultsIn_stringBody (value : Bytes) :
    FaultsIn source P (stringBody value : Reader Bytes) := by
  intro s hs e t h
  unfold EStateM.run at h
  fun_induction stringBody value s with
  | case1 => exact hP.of_unterminated h
  | case2 => cases h
  | case3 => exact hP.of_unterminated h
  | case4 value c s hq ih =>
      exact ih (((List.suffix_cons c s).trans (List.suffix_cons _ _)).trans hs) h
  | case5 value b s hq hb ih => exact ih ((List.suffix_cons b s).trans hs) h

theorem faultsIn_string : FaultsIn source P string := by
  refine faultsIn_significant.bind forward_significant fun b => ?_
  split
  · exact (faultsIn_eat _).bind (forward_eat _) fun _ => faultsIn_stringBody hP []
  · exact faultsIn_malformed hP _

theorem faultsIn_charUnit : FaultsIn source P (charUnit : Reader UInt8) := by
  intro s hs e t h
  unfold EStateM.run charUnit at h
  split at h
  · exact hP.of_unterminated h
  · split at h
    · split at h
      · exact hP.of_unterminated h
      · cases h
    · cases h

theorem faultsIn_charEnd : FaultsIn source P (charEnd : Reader Unit) := by
  intro s hs e t h
  unfold EStateM.run charEnd at h
  split at h
  · exact hP.of_unterminated h
  · split at h
    · cases h
    · cases h
      exact hP.malformed _ hs

theorem faultsIn_char : FaultsIn source P char := by
  refine faultsIn_significant.bind forward_significant fun b => ?_
  split
  · exact (faultsIn_eat _).bind (forward_eat _) fun _ =>
      (faultsIn_charUnit hP).bind forward_charUnit fun b =>
        (faultsIn_charEnd hP).bind forward_charEnd fun _ => faultsIn_pure b
  · exact faultsIn_malformed hP _

theorem faultsIn_digits : FaultsIn source P digits := by
  intro s hs e t h
  unfold EStateM.run digits at h
  split at h
  · cases h
    exact hP.malformed _ hs
  · cases h

theorem faultsIn_integer : FaultsIn source P integer :=
  (faultsIn_eat _).bind (forward_eat _) fun _ =>
    (faultsIn_digits hP).bind forward_digits fun _ => faultsIn_pure _

theorem faultsIn_value : FaultsIn source P value := by
  refine faultsIn_significant.bind forward_significant fun b => ?_
  split
  · exact (faultsIn_string hP).map forward_string _
  · split
    · exact (faultsIn_char hP).map forward_char _
    · exact (faultsIn_integer hP).map forward_integer _

end Reader

end ConsoleScript
