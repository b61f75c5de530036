import FormConsole.Proofs.Console.State

/-!
# What is ever saved

Only one key writes what is saved, and it does so right after a check that finds nothing wrong.  So within one visit of a
panel, what is saved is either what the panel was opened with or what was entered when such a check was made, whatever was
edited, reset or refused in between.

* `Console.saved_press_save`, `Console.Pressed.saved_of_ne`: what the key that saves does, and what no other key does.
* `Console.saved_run`: what is saved after any keys of a visit.
-/

namespace FormConsole

namespace Console

section Saving

variable {c c' : Console} {around : Surroundings} {key : Key}

/-- The key that saves makes what is entered the saved values if nothing is wrong; it never changes what is entered. -/
theorem columns_press_save (c : Console) (around : Surroundings) :
    (c.press around .save).1.form.current = c.form.current ∧
      (c.press around .save).1.form.saved =
        if c.form.violations = [] then c.form.current else c.form.saved :=
  ⟨c.current_submit, c.saved_submit⟩

/-- No other key changes what is saved, unless it opens another panel. -/
theorem Pressed.saved_of_ne (h : c.Pressed around key c') (hreach : Reachable c)
    (hstays : ¬ c.Leaves around key) (hkey : key ≠ .save) : c'.form.saved = c.form.saved := by
  obtain ⟨s, hshows⟩ := hreach.shows
  have hof := hshows.inUse.isOf
  cases h with
  | switched htarget hopen => exact absurd ⟨_, _, htarget, hopen⟩ hstays
  | submitted => exact absurd rfl hkey
  | reset hfield =>
    rw [saved_finishEdit]
    exact Form.saved_call hof (c := .resetToBaseline _) (by simp) (by simp)
  | edited hfield hv _ =>
    rw [saved_finishEdit]
    exact Form.saved_call hof (c := .set _ _) (by simp) (by simp)
  | focused position => rfl
  | kept _ _ _ _ => rfl

/-- The saved values after keys that stay with the panel were saved before, or they were entered and found right when
they were saved. -/
theorem saved_run_of_reachable (h : Reachable c) {keys : List (Surroundings × Key)}
    (hstays : c.Stays keys) : (c.run keys).form.saved = c.form.saved ∨
      ∃ before around after, keys = before ++ (around, Key.save) :: after ∧
        (c.run before).form.violations = [] ∧
        (c.run keys).form.saved = (c.run before).form.current := by
  induction keys generalizing c with
  | nil => exact Or.inl rfl
  | cons k keys ih =>
    obtain ⟨around, key⟩ := k
    obtain ⟨hfirst, hrest⟩ := hstays
    rcases ih (h.pressed around key) hrest with hsame | ⟨before, later, after, rfl, hclean, hsaved⟩
    · -- nothing is saved after the first key, so it is that key that counts
      by_cases hkey : key = .save
      · subst hkey
        obtain ⟨-, hsave⟩ := c.columns_press_save around
        rw [run_cons, hsame, hsave]
        split
        · next hclean => exact Or.inr ⟨[], around, keys, rfl, hclean, rfl⟩
        · exact Or.inl rfl
      · left
        rw [run_cons, hsame]
        exact (c.pressed_press around key).saved_of_ne h hfirst hkey
    · exact Or.inr ⟨(around, key) :: before, later, after, rfl, hclean, hsaved⟩

/-- Only checked values are ever saved.  In every state of a visit, the saved values are those that the panel was opened
with, or what was entered in an earlier state of the visit in which the key that saves found nothing wrong.  Whether
anything is wrong is all that this key asks for: if not, what is entered is saved; else nothing is; and what is entered
is never changed by it.  No other key changes what is saved, unless it opens another panel. -/
theorem saved_run (ho : Opened c) {keys : List (Surroundings × Key)} (hstays : c.Stays keys) :
    ((c.run keys).form.saved = c.form.saved ∨
      ∃ before around after, keys = before ++ (around, Key.save) :: after ∧
        (c.run before).form.violations = [] ∧
        (c.run keys).form.saved = (c.run before).form.current) ∧
    (∀ around, ((c.run keys).press around .save).1.form.current = (c.run keys).form.current ∧
      ((c.run keys).form.violations = [] →
        ((c.run keys).press around .save).1.form.saved = (c.run keys).form.current) ∧
      ((c.run keys).form.violations ≠ [] →
        ((c.run keys).press around .save).1.form.saved = (c.run keys).form.saved)) ∧
    ∀ around key, key ≠ .save → ¬ (c.run keys).Leaves around key →
      ((c.run keys).press around key).1.form.saved = (c.run keys).form.saved := by
  refine ⟨saved_run_of_reachable ho.reachable hstays, fun around => ?_, fun around key hkey hleaves => ?_⟩
  · obtain ⟨hcurrent, hsaved⟩ := (c.run keys).columns_press_save around
    refine ⟨hcurrent, fun hclean => ?_, fun hwrong => ?_⟩
    · rw [hsaved, if_pos hclean]
    · rw [hsaved, if_neg hwrong]
  · exact ((c.run keys).pressed_press around key).saved_of_ne (ho.reachable.run keys) hleaves hkey

/-- A data layer that offers and stores nothing. -/
def emptySource : Source := .ofFixture ⟨.none, NameMap.ofList []⟩

/-- The form of a new ethernet interface. -/
def interfaceForm : Form :=
  ((Panel.interface .ethernet).definition ⟨false, "", .none, .midnight⟩).opened

/-- The console with a new ethernet interface open. -/
def interfaceConsole : Console :=
  fresh .none (.interface .ethernet) interfaceForm

/-- A comment of two letters, saved after the first one. -/
def commentKeys : List (Surroundings × Key) :=
  [Key.plain .down, .plain (.char 'a'), .save, .plain (.char 'b')].map fun key =>
    (⟨emptySource, .midnight⟩, key)

/-- What is saved of the comment is its first letter, which was entered when the form was saved. -/
theorem saved_run_comment : Opened interfaceConsole ∧ interfaceConsole.Stays commentKeys ∧
    ("comment", .text "ab") ∈ (interfaceConsole.run commentKeys).form.current ∧
    ("comment", .text "a") ∈ (interfaceConsole.run commentKeys).form.saved ∧
    ∃ before around after, commentKeys = before ++ (around, Key.save) :: after ∧
      (interfaceConsole.run before).form.violations = [] ∧
      (interfaceConsole.run commentKeys).form.saved = (interfaceConsole.run before).form.current := by
  have hopen : emptySource.openPanel .midnight (.interface .ethernet) = .ok interfaceForm :=
    Source.openPanel_eq_ok_iff.mpr ⟨.none, none, rfl, rfl, rfl⟩
  have ho : Opened interfaceConsole := opened_fresh ⟨emptySource, .midnight⟩ rfl hopen
  have hstays : interfaceConsole.Stays commentKeys := stays_of_codes (by decide)
  have hchanged : (interfaceConsole.run commentKeys).form.saved ≠ interfaceConsole.form.saved := by
    decide +kernel
  refine ⟨ho, hstays, by decide +kernel, by decide +kernel, ?_⟩
  exact (saved_run ho hstays).1.resolve_left hchanged

end Saving

end Console

end FormConsole
