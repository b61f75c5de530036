import FormConsole.Proofs.Console.State

/-!
# Read-only fields and the keyboard

While the active field is read-only, no key edits it; but the key that resets a field does not ask.  So what a stored
object must keep, such as the name of an account, can be lost by a reset, and by nothing else.

* `Console.current_press_of_readOnly`: what is entered after a key that finds the active field read-only.
* `Console.exists_locked_lost`: a stored name that a reset deletes.
-/

namespace FormConsole

namespace Console

section ReadOnly

variable {c c' : Console} {around : Surroundings} {key : Key} {field : Field}

/-- A key that opens no panel and resets nothing changes no value while the active field is read-only. -/
theorem Pressed.current_of_readOnly (h : c.Pressed around key c')
    (hfield : c.form.activeField? = some field) (hreadOnly : field.effective.readOnly = true)
    (htarget : key.target? c.panel = none) (hreset : key ≠ .reset) :
    c'.form.current = c.form.current := by
  cases h with
  | switched hsome _ =>
    rw [htarget] at hsome
    exact absurd hsome (by simp)
  | submitted => exact c.current_submit
  | reset _ => exact absurd rfl hreset
  | edited hother _ hfree =>
    rw [hfield] at hother
    obtain rfl := Option.some.inj hother
    rw [hreadOnly] at hfree
    exact absurd hfree (by decide)
  | focused position => rfl
  | kept _ _ _ _ => rfl

/-- A reset of a read-only field gives it its default and changes no other value: no panel has a cascade from or into
such a field. -/
theorem Reachable.current_reset_of_readOnly (h : Reachable c) (around : Surroundings)
    (hfield : c.form.activeField? = some field) (hreadOnly : field.effective.readOnly = true) :
    (c.press around .reset).1.form.current = c.form.fields.map fun f =>
      (f.name, if f.name = field.name then f.decl.default else f.value) := by
  obtain ⟨s, hshows⟩ := h.shows
  have hmem := Form.mem_fields_of_activeField? hfield
  have hpress : (c.press around .reset).1 = (c.finishEdit (c.form.resetToBaseline field.name)).1 := by
    show c.resetActive.1 = _
    rw [resetActive, hfield]
  rw [hpress, current_finishEdit]
  exact Form.current_reset_of_unlinked hshows.inUse.isOf hshows.consistent
    (List.mem_map.mpr ⟨field, hmem, rfl⟩)
    (hshows.inUse.not_linked_of_readOnly hshows.orderly hmem hreadOnly)

/-- While the active field is read-only, the key that resets it is the only one that changes a value without opening a
panel: it gives the field its default, and changes no other value.  So no value is changed exactly if another key is
pressed or the field has its default. -/
theorem current_press_of_readOnly (h : Reachable c) (hfield : c.form.activeField? = some field)
    (hreadOnly : field.effective.readOnly = true) (around : Surroundings) {key : Key}
    (hprev : key.code ≠ .function 2) (hnext : key.code ≠ .function 3) :
    (key ≠ .reset → (c.press around key).1.form.current = c.form.current) ∧
      (key = .reset → (c.press around key).1.form.current = c.form.fields.map fun f =>
        (f.name, if f.name = field.name then f.decl.default else f.value)) ∧
      ((c.press around key).1.form.current = c.form.current ↔
        key ≠ .reset ∨ field.value = field.decl.default) := by
  have htarget : key.target? c.panel = none := Key.target?_eq_none_iff.mpr ⟨hprev, hnext⟩
  by_cases hkey : key = .reset
  · subst hkey
    have hreset := h.current_reset_of_readOnly around hfield hreadOnly
    refine ⟨fun hne => absurd rfl hne, fun _ => hreset, ?_⟩
    have hmem := Form.mem_fields_of_activeField? hfield
    obtain ⟨s, hshows⟩ := h.shows
    rw [hreset, Form.current, List.map_inj_left]
    constructor
    · intro hsame
      have hself := hsame field hmem
      rw [if_pos rfl] at hself
      exact Or.inr (Prod.mk.inj hself).2.symm
    · rintro (hne | hdefault) f hf
      · exact absurd rfl hne
      · by_cases hname : f.name = field.name
        · -- names are distinct, so that this is the active field
          obtain rfl := List.inj_on_of_nodup_map hshows.inUse.isOf.nodup hf hmem hname
          rw [if_pos rfl, hdefault]
        · rw [if_neg hname]
  · have hsame := (c.pressed_press around key).current_of_readOnly hfield hreadOnly htarget hkey
    exact ⟨fun _ => hsame, fun heq => absurd heq hkey, ⟨fun _ => Or.inl hkey, fun _ => hsame⟩⟩

end ReadOnly

/-! ## A name that is lost -/

section Lost

/-- A data layer that stores one account. -/
def oneAccount : Source :=
  .ofFixture ⟨.none, NameMap.ofList [("user", ⟨⟨0⟩, NameMap.ofList [("name", .text "bob")]⟩)]⟩

/-- The form of the stored account. -/
def accountForm : Form :=
  (Panel.user.definition ⟨true, "", .none, .midnight⟩).opened.run
    [.load (NameMap.ofList [("name", .text "bob")])]

/-- The console with the stored account open. -/
def accountConsole : Console :=
  fresh { Config.none with initialPanel := some "user" } .user accountForm

theorem reachable_accountConsole : Reachable accountConsole := by
  have hopen : oneAccount.openPanel .midnight .user = .ok accountForm :=
    Source.openPanel_eq_ok_iff.mpr ⟨_, _, rfl, rfl, rfl⟩
  exact (opened_fresh ⟨oneAccount, .midnight⟩ (by decide +kernel) hopen).reachable

/-- The name of a stored account is read-only and has the focus. -/
theorem exists_activeField_accountConsole : ∃ field, accountConsole.form.activeField? = some field ∧
    field.effective.readOnly = true := by
  have hactive : accountConsole.form.activeField?.map (·.effective.readOnly) = some true := by
    decide +kernel
  exact Option.map_eq_some_iff.mp hactive

/-- A key that would edit the name of a stored account does not. -/
theorem current_press_of_readOnly_account :
    ∃ field, Reachable accountConsole ∧ accountConsole.form.activeField? = some field ∧
      field.effective.readOnly = true ∧
      (accountConsole.press ⟨oneAccount, .midnight⟩ (.plain .backspace)).1.form.current =
        accountConsole.form.current := by
  have hreach := reachable_accountConsole
  obtain ⟨field, hfield, hreadOnly⟩ := exists_activeField_accountConsole
  refine ⟨field, hreach, hfield, hreadOnly, ?_⟩
  exact (current_press_of_readOnly hreach hfield hreadOnly ⟨oneAccount, .midnight⟩ (by decide) (by decide)).1
    (by decide)

/-- A reset deletes the name of a stored account, although it is read-only. -/
theorem exists_locked_lost : ∃ c field around, Reachable c ∧ c.form.activeField? = some field ∧
    field.effective.readOnly = true ∧ (c.press around .reset).1.form.current ≠ c.form.current := by
  have hreach := reachable_accountConsole
  obtain ⟨field, hfield, hreadOnly⟩ := exists_activeField_accountConsole
  exact ⟨accountConsole, field, ⟨oneAccount, .midnight⟩, hreach, hfield, hreadOnly, by decide +kernel⟩

end Lost

end Console

end FormConsole
