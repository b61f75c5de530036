import FormConsole.Proofs.Console.Opening
import FormConsole.Proofs.Console.Saving

/-!
# What the console says is wrong

What the last check found is kept twice: as a list beside the form, and as a mark on each field of it.  Every key that
writes one of the two writes the other, so they always say the same.  If every edit is followed by a check, then the list
is also up to date as soon as a key worked on the form, and empty before.

* `Console.Worked`: some key worked on the form that is open.
* `Console.Pressed.marked`, `Console.Pressed.violations_of_works`: what one key does to the list and the marks.
* `Console.violations_run`: what they are after any keys.
-/

namespace FormConsole

theorem Source.marked_of_openPanel {s : Source} {now : TimeOfDay} {p : Panel} {f : Form}
    (h : s.openPanel now p = .ok f) : f.Marked [] := by
  obtain ⟨candidates, stored, -, -, rfl⟩ := openPanel_eq_ok_iff.mp h
  exact Definition.marked_filled (p.build_definition _) stored

namespace Console

/-! ## Since the panel was opened -/

section Worked

variable {c : Console} {around : Surroundings} {key : Key} {keys : List (Surroundings × Key)}
  {k : Surroundings × Key}

/-- Some key worked on the form, and no key after it opened another panel. -/
def Worked (c : Console) (keys : List (Surroundings × Key)) : Prop :=
  ∃ before k after, keys = before ++ k :: after ∧ (c.run before).Works k.2 ∧
    (c.run (before ++ [k])).Stays after

theorem not_worked_nil (c : Console) : ¬ c.Worked [] := by
  rintro ⟨before, k, after, heq, -⟩
  exact absurd heq (by simp)

theorem stays_concat : c.Stays (keys ++ [k]) ↔ c.Stays keys ∧ ¬ (c.run keys).Leaves k.1 k.2 := by
  induction keys generalizing c with
  | nil => simp [Stays]
  | cons first keys ih => simp only [List.cons_append, Stays, run_cons, ih, and_assoc]

/-- With one key more, that key worked on the form, or an earlier one did and the panel stays open. -/
theorem worked_concat : c.Worked (keys ++ [k]) ↔
    (c.run keys).Works k.2 ∨ c.Worked keys ∧ ¬ (c.run keys).Leaves k.1 k.2 := by
  constructor
  · rintro ⟨before, worker, after, heq, hworks, hstays⟩
    rcases List.eq_nil_or_concat' after with rfl | ⟨later, last, rfl⟩
    · obtain ⟨rfl, hlast⟩ := List.append_inj' heq rfl
      obtain rfl := List.singleton_inj.mp hlast
      exact Or.inl hworks
    · have hsplit : keys ++ [k] = (before ++ worker :: later) ++ [last] := by
        rw [heq, List.append_assoc, List.cons_append]
      obtain ⟨rfl, hlast⟩ := List.append_inj' hsplit rfl
      obtain rfl := List.singleton_inj.mp hlast
      obtain ⟨hlater, hleaves⟩ := stays_concat.mp hstays
      have hrun : (c.run (before ++ [worker])).run later = c.run (before ++ worker :: later) := by
        simp [run]
      exact Or.inr ⟨⟨before, worker, later, rfl, hworks, hlater⟩, hrun ▸ hleaves⟩
  · rintro (hworks | ⟨⟨before, worker, after, rfl, hworks, hstays⟩, hleaves⟩)
    · exact ⟨keys, k, [], rfl, hworks, trivial⟩
    · have hrun : (c.run (before ++ [worker])).run after = c.run (before ++ worker :: after) := by
        simp [run]
      refine ⟨before, worker, after ++ [k], by rw [List.append_assoc, List.cons_append], hworks, ?_⟩
      exact stays_concat.mpr ⟨hstays, hrun ▸ hleaves⟩

/-- A key that asks for a panel does not work on the form. -/
theorem not_works_of_leaves (h : c.Leaves around key) : ¬ c.Works key := by
  obtain ⟨p, form, htarget, -⟩ := h
  exact not_works_of_leaving (Or.inr (Key.exists_function_of_target? htarget))

theorem press_of_target? {p : Panel} (h : key.target? c.panel = some p) :
    c.press around key = c.switchPanel around p := by
  unfold Key.target? at h
  split at h
  · next hcode =>
    rw [← Option.some.inj h, press, hcode]
    rfl
  · next hcode =>
    rw [← Option.some.inj h, press, hcode]
    rfl
  · exact absurd h (by simp)

theorem violations_press_of_leaves (h : c.Leaves around key) :
    (c.press around key).1.violations = [] := by
  obtain ⟨p, form, htarget, hopen⟩ := h
  rw [press_of_target? htarget, switchPanel, hopen]
  rfl

end Worked

/-! ## One key -/

section Steps

variable {c c' : Console} {around : Surroundings} {key : Key}

theorem Pressed.config (h : c.Pressed around key c') : c'.config = c.config := by
  have hfinished : ∀ {α : Type} (r : Form × Except FormError α), (c.finishEdit r).1.config = c.config := by
    intro α r
    obtain ⟨form, status, vs, heq⟩ := c.exists_finishEdit r
    rw [heq]
  cases h with
  | submitted =>
    obtain ⟨form, status, vs, heq⟩ := c.exists_submit
    rw [heq]
  | reset _ => exact hfinished _
  | edited _ _ _ => exact hfinished _
  | _ => rfl

theorem marked_finishEdit {α : Type} {r : Form × Except FormError α} (h : r.1.Marked c.violations) :
    (c.finishEdit r).1.form.Marked (c.finishEdit r).1.violations := by
  obtain ⟨form, answer⟩ := r
  cases answer with
  | error e => exact h
  | ok a =>
    rw [finishEdit, done, afterEdit]
    split
    · exact form.marked_validate
    · exact h

/-- Whatever a key does, the marks stay those for the list. -/
theorem Pressed.marked (h : c.Pressed around key c') (hreach : Reachable c)
    (hmarked : c.form.Marked c.violations) : c'.form.Marked c'.violations := by
  obtain ⟨s, hshows⟩ := hreach.shows
  have hof := hshows.inUse.isOf
  cases h with
  | switched _ hopen => exact Source.marked_of_openPanel hopen
  | submitted =>
    rw [submit]
    dsimp only
    split
    · exact c.form.marked_validate.commit
    · exact c.form.marked_validate
  | reset _ => exact marked_finishEdit (hmarked.call hof (c := .resetToBaseline _) (by simp) (by simp) (by simp))
  | edited _ _ _ => exact marked_finishEdit (hmarked.call hof (c := .set _ _) (by simp) (by simp) (by simp))
  | focused position _ => exact hmarked.focus position
  | kept _ _ _ _ => exact hmarked

theorem violations_submit (c : Console) : c.submit.violations = c.submit.form.violations := by
  have hlist : c.submit.violations = c.form.violations := by
    rw [submit]
    dsimp only
    split
    · rfl
    · rfl
  rw [hlist, form_submit]
  split
  · rw [Form.violations_commit, Form.violations_validate]
  · rw [Form.violations_validate]

theorem violations_finishEdit_ok {α : Type} (hchecks : c.config.checksOnChange = true) (form : Form) (a : α) :
    (c.finishEdit (form, .ok a)).1.violations = (c.finishEdit (form, .ok a)).1.form.violations := by
  rw [finishEdit, done, afterEdit, if_pos hchecks]
  exact form.violations_validate.symm

/-- If every edit is followed by a check, then a key that works on the form brings the list up to date. -/
theorem Pressed.violations_of_works (h : c.Pressed around key c') (hreach : Reachable c)
    (hchecks : c.config.checksOnChange = true) (hworks : c.Works key) :
    c'.violations = c'.form.violations := by
  obtain ⟨s, hshows⟩ := hreach.shows
  have hof := hshows.inUse.isOf
  have hactive : ∀ {field}, c.form.activeField? = some field → field.name ∈ c.form.table.names :=
    fun hfield => List.mem_map_of_mem (Form.mem_fields_of_activeField? hfield)
  cases h with
  | switched htarget hopen => exact absurd hworks (not_works_of_leaves ⟨_, _, htarget, hopen⟩)
  | submitted => exact c.violations_submit
  | reset hfield =>
    rw [Form.resetToBaseline_of_mem hof (hactive hfield)]
    exact violations_finishEdit_ok hchecks _ _
  | edited hfield _ _ =>
    rw [Form.set_of_mem hof (hactive hfield)]
    exact violations_finishEdit_ok hchecks _ _
  | focused _ hidle => exact absurd hworks hidle
  | kept _ _ _ hidle => exact absurd hworks hidle

/-- A key that neither works on the form nor opens another panel changes neither the list nor what a check would find. -/
theorem Pressed.violations_of_idle (h : c.Pressed around key c') (hstays : ¬ c.Leaves around key)
    (hidle : ¬ c.Works key) :
    c'.violations = c.violations ∧ c'.form.violations = c.form.violations := by
  cases h with
  | switched htarget hopen => exact absurd ⟨_, _, htarget, hopen⟩ hstays
  | submitted => exact absurd (Or.inl rfl) hidle
  | reset hfield => exact absurd (Or.inr ⟨_, hfield, Or.inl rfl⟩) hidle
  | edited hfield hv hfree => exact absurd (Or.inr ⟨_, hfield, Or.inr ⟨_, hv, hfree⟩⟩) hidle
  | focused position _ => exact ⟨rfl, c.form.violations_focus position⟩
  | kept _ _ _ _ => exact ⟨rfl, rfl⟩

end Steps

/-! ## Any keys -/

section Run

variable {config : Config} {around : Surroundings} {c : Console}

theorem config_run (c : Console) (keys : List (Surroundings × Key)) : (c.run keys).config = c.config := by
  induction keys generalizing c with
  | nil => rfl
  | cons k keys ih => rw [run_cons, ih, (c.pressed_press k.1 k.2).config]

theorem Reachable.marked (h : Reachable c) : c.form.Marked c.violations := by
  induction h with
  | started hstart =>
    obtain ⟨form, hopen, rfl⟩ := start_eq_ok_iff.mp hstart
    exact Source.marked_of_openPanel hopen
  | @pressed c hreach around key ih => exact (c.pressed_press around key).marked hreach ih

/-- If every edit is followed by a check, then the list is what a check would find as soon as a key worked on the form,
and empty before. -/
theorem Reachable.violations_run_of_checks (h : Reachable c) (hempty : c.violations = [])
    (hchecks : c.config.checksOnChange = true) (keys : List (Surroundings × Key)) :
    (c.Worked keys → (c.run keys).violations = (c.run keys).form.violations) ∧
      (¬ c.Worked keys → (c.run keys).violations = []) := by
  induction keys using List.reverseRecOn with
  | nil => exact ⟨fun hworked => absurd hworked c.not_worked_nil, fun _ => hempty⟩
  | append_singleton keys k ih =>
    have hpressed := (c.run keys).pressed_press k.1 k.2
    rw [worked_concat, run_concat]
    by_cases hworks : (c.run keys).Works k.2
    · have hconfig : (c.run keys).config.checksOnChange = true := by rw [config_run, hchecks]
      have hnow := hpressed.violations_of_works (h.run keys) hconfig hworks
      exact ⟨fun _ => hnow, fun hnot => absurd (Or.inl hworks) hnot⟩
    · by_cases hleaves : (c.run keys).Leaves k.1 k.2
      · refine ⟨?_, fun _ => violations_press_of_leaves hleaves⟩
        rintro (hnow | ⟨-, hstays⟩)
        · exact absurd hnow hworks
        · exact absurd hleaves hstays
      · obtain ⟨hlist, hform⟩ := hpressed.violations_of_idle hleaves hworks
        rw [hlist, hform]
        refine ⟨?_, fun hnot => ih.2 fun hworked => hnot (Or.inr ⟨hworked, hleaves⟩)⟩
        rintro (hnow | ⟨hworked, -⟩)
        · exact absurd hnow hworks
        · exact ih.1 hworked

/-- The list and the marks never drift apart.  However the console was started and whatever was pressed since, with any
data layer, a field is marked with the first message about it in the list, and not marked if there is none.  If moreover
every edit is followed by a check, then the list is exactly what a check would find in this state once a key edited, reset
or saved the form after the panel was opened, and it is empty until then. -/
theorem violations_run (hstart : start config around = .ok c) (keys : List (Surroundings × Key)) :
    (∀ field ∈ (c.run keys).form.fields, field.violation =
      ((c.run keys).violations.find? fun v => v.field == field.name).map (·.message)) ∧
    (config.checksOnChange = true →
      (c.Worked keys → (c.run keys).violations = (c.run keys).form.violations) ∧
      (¬ c.Worked keys → (c.run keys).violations = [])) := by
  have hreach : Reachable c := .started hstart
  refine ⟨fun field hfield => (hreach.run keys).marked field hfield, fun hchecks => ?_⟩
  obtain ⟨form, -, rfl⟩ := start_eq_ok_iff.mp hstart
  exact hreach.violations_run_of_checks rfl hchecks keys

/-- A new account in a console that checks after every edit. -/
def checkedConsole : Console :=
  fresh { Config.none with initialPanel := some "user", validateOnChange := some true } .user
    (Panel.user.definition ⟨false, "", .none, .midnight⟩).opened

/-- A letter for the name, typed after the account could not be saved. -/
def nameKeys : List (Surroundings × Key) :=
  [Key.save, .plain (.char 'a')].map fun key => (⟨emptySource, .midnight⟩, key)

/-- The letter takes the name out of the list, and the mark off it. -/
theorem violations_run_name :
    start checkedConsole.config ⟨emptySource, .midnight⟩ = .ok checkedConsole ∧
    checkedConsole.config.checksOnChange = true ∧ checkedConsole.Worked nameKeys ∧
    "name" ∈ (checkedConsole.run (nameKeys.take 1)).violations.map (·.field) ∧
    (checkedConsole.run nameKeys).violations.map (·.field) = ["password", "passwordconf"] ∧
    (checkedConsole.run nameKeys).violations = (checkedConsole.run nameKeys).form.violations ∧
    ∀ field ∈ (checkedConsole.run nameKeys).form.fields, field.name = "name" → field.violation = none := by
  have hopen : emptySource.openPanel .midnight .user = .ok checkedConsole.form :=
    Source.openPanel_eq_ok_iff.mpr ⟨.none, none, rfl, rfl, rfl⟩
  have hpanel : checkedConsole.config.panel = .user := by decide +kernel
  have hstart : start checkedConsole.config ⟨emptySource, .midnight⟩ = .ok checkedConsole := by
    rw [start_eq_ok_iff, hpanel]
    exact ⟨_, hopen, rfl⟩
  have hworked : checkedConsole.Worked nameKeys :=
    ⟨[], (⟨emptySource, .midnight⟩, .save), _, rfl, Or.inl rfl, stays_of_codes (by decide)⟩
  have hlist : (checkedConsole.run nameKeys).violations.map (·.field) = ["password", "passwordconf"] := by
    decide +kernel
  obtain ⟨hmarks, hchecked⟩ := violations_run hstart nameKeys
  refine ⟨hstart, rfl, hworked, by decide +kernel, hlist, (hchecked rfl).1 hworked, fun field hfield hname => ?_⟩
  have hnone : ∀ v ∈ (checkedConsole.run nameKeys).violations, v.field ≠ "name" := by
    intro v hv heq
    have hmem := List.mem_map_of_mem (f := fun v : Violation => v.field) hv
    rw [hlist, heq] at hmem
    exact absurd hmem (by decide)
  rw [hmarks field hfield, hname, List.find?_eq_none.mpr fun v hv => by simpa using hnone v hv]
  rfl

end Run

end Console

end FormConsole
