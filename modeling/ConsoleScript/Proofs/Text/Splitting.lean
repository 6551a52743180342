import Mathlib.Data.List.TakeWhile

/-!
# Where the parts of a text end

The parts of a text that are read one behind the other are known from the text if each shows
where it ends: the longest run of a class by the first member outside, a sequence of units by
the mark behind the last one.
-/

namespace ConsoleScript.Text

variable {α β : Type}

/-- The longest run of a class is the one that ends where no member of the class follows. -/
theorem span_eq_iff {p : β → Bool} {s run rest : List β} :
    s.takeWhile p = run ∧ s.dropWhile p = rest ↔
      s = run ++ rest ∧ (∀ b ∈ run, p b = true) ∧ ∀ b ∈ rest.head?, p b = false := by
  constructor
  · rintro ⟨rfl, rfl⟩
    refine ⟨List.takeWhile_append_dropWhile.symm, fun b hb => List.mem_takeWhile_imp hb, ?_⟩
    intro b hb
    have hstop := List.head?_dropWhile_not p s
    rw [Option.mem_def.mp hb] at hstop
    exact hstop
  · rintro ⟨rfl, hrun, hrest⟩
    rw [List.takeWhile_append_of_pos hrun, List.dropWhile_append_of_pos hrun]
    cases rest with
    | nil => exact ⟨List.append_nil run, rfl⟩
    | cons b rest =>
        have hb : ¬p b = true := by simp [hrest b rfl]
        rw [List.takeWhile_cons_of_neg hb, List.dropWhile_cons_of_neg hb, List.append_nil]
        exact ⟨rfl, rfl⟩

/-- A run of a class at the end of a list is known from the list if what is in front of it ends
outside the class. -/
theorem append_run_inj {p : β → Bool} {front front' run run' : List β}
    (hrun : ∀ b ∈ run, p b = true) (hrun' : ∀ b ∈ run', p b = true)
    (hfront : ∀ b ∈ front.getLast?, p b = false) (hfront' : ∀ b ∈ front'.getLast?, p b = false)
    (h : front ++ run = front' ++ run') : front = front' ∧ run = run' := by
  have hself : (front ++ run).reverse = run.reverse ++ front.reverse := List.reverse_append
  have hother : (front ++ run).reverse = run'.reverse ++ front'.reverse := by
    rw [h, List.reverse_append]
  obtain ⟨hleft, hleft'⟩ := span_eq_iff.mpr
    ⟨hself, fun b hb => hrun b (List.mem_reverse.mp hb), by rwa [List.head?_reverse]⟩
  obtain ⟨hright, hright'⟩ := span_eq_iff.mpr
    ⟨hother, fun b hb => hrun' b (List.mem_reverse.mp hb), by rwa [List.head?_reverse]⟩
  constructor
  · exact List.reverse_inj.mp (hleft'.symm.trans hright')
  · exact List.reverse_inj.mp (hleft.symm.trans hright)

/-- Units in front of a mark are known from the text if what a text starts with is one unit in
one way, and none of the units starts as the mark does. -/
theorem flatMap_append_cons_inj {spelling : α → List β} {mark : β}
    (hunit : ∀ {u v s t}, spelling u ++ s = spelling v ++ t → u = v ∧ s = t)
    {us vs : List α} {s t : List β} (hus : ∀ u ∈ us, ∀ s t, spelling u ++ s ≠ mark :: t)
    (hvs : ∀ v ∈ vs, ∀ s t, spelling v ++ s ≠ mark :: t)
    (h : us.flatMap spelling ++ mark :: s = vs.flatMap spelling ++ mark :: t) :
    us = vs ∧ s = t := by
  induction us generalizing vs with
  | nil =>
      cases vs with
      | nil => exact ⟨rfl, (List.cons.inj h).2⟩
      | cons v vs =>
          rw [List.flatMap_cons, List.append_assoc] at h
          exact absurd h.symm (hvs v List.mem_cons_self _ _)
  | cons u us ih =>
      cases vs with
      | nil =>
          rw [List.flatMap_cons, List.append_assoc] at h
          exact absurd h (hus u List.mem_cons_self _ _)
      | cons v vs =>
          rw [List.flatMap_cons, List.flatMap_cons, List.append_assoc, List.append_assoc] at h
          obtain ⟨rfl, htail⟩ := hunit h
          obtain ⟨rfl, hrest⟩ := ih (fun w hw => hus w (List.mem_cons_of_mem _ hw))
            (fun w hw => hvs w (List.mem_cons_of_mem _ hw)) htail
          exact ⟨rfl, hrest⟩

end ConsoleScript.Text
