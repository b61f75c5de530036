import FormConsole.Proofs.Form.Call

/-!
# What other choices leave of a selection

The choices of a field are replaced by a cascade that computes them and by the data layer that gives them.  Of
a value that is not a list the two leave the same.  Of a list they do not: a cascade asks whether the list as
a whole is one of the choices, the data layer asks it of every item.

* `Choice.offersItem`: whether an item of a list is still among the choices.
* `Form.surviving_eq_stillOffered_iff`: when the two leave the same of a value.
* `Form.selection_left`: what the two ways of replacing choices leave, and exactly when it is the same.
* `Form.exists_lost_items`: a form whose cascade clears what the data layer would have left.
-/

namespace FormConsole

namespace Choice

/-! ## Items that are offered -/

section Items

variable {choices : List Choice}

/-- Whether one of the choices reads as that item. -/
def offersItem (choices : List Choice) (item : String) : Bool :=
  choices.any fun c => c.value.asText == item

/-- Choices that store texts offer an item exactly if they offer the text. -/
theorem offersItem_of_texts (htexts : ∀ c ∈ choices, ∃ s, c.value = .text s) (item : String) :
    offersItem choices item = offers choices (.text item) := by
  rw [Bool.eq_iff_iff, offersItem, List.any_eq_true, offers_iff]
  refine exists_congr fun c => and_congr_right fun hc => ?_
  obtain ⟨s, hs⟩ := htexts c hc
  rw [hs, beq_iff_eq, Value.text.injEq, Value.asText]

/-- Choices that store texts offer no list. -/
theorem not_offers_list (htexts : ∀ c ∈ choices, ∃ s, c.value = .text s) (items : List String) :
    ¬ offers choices (.list items) = true := by
  rw [offers_iff]
  rintro ⟨c, hc, hvalue⟩
  obtain ⟨s, hs⟩ := htexts c hc
  rw [hs] at hvalue
  cases hvalue

end Items

end Choice

namespace Form

/-! ## The two ways, on a value -/

section Values

variable {choices : List Choice} {v : Value}

theorem stillOffered_list (choices : List Choice) (items : List String) :
    stillOffered choices (.list items) = .list (items.filter (Choice.offersItem choices)) := rfl

/-- Of a value that is not a list the two ways leave the same. -/
theorem stillOffered_of_scalar (hv : ∀ items, v ≠ .list items) :
    stillOffered choices v = Cascade.surviving choices v := by
  cases v with
  | list items => exact absurd rfl (hv items)
  | bool b => rfl
  | number n => rfl
  | text s => rfl

/-- Of a list the two ways leave the same exactly if all of it stays or nothing does. -/
theorem surviving_list_eq_iff (items : List String) :
    Cascade.surviving choices (.list items) = stillOffered choices (.list items) ↔
      (∀ item ∈ items, Choice.offersItem choices item =
        Choice.offers choices (.list items)) := by
  rw [stillOffered_list, Cascade.surviving]
  by_cases hoffers : Choice.offers choices (.list items) = true
  · rw [if_pos hoffers, hoffers, Value.list.injEq, eq_comm, List.filter_eq_self]
  · rw [if_neg hoffers, Bool.eq_false_of_not_eq_true hoffers, Value.cleared, Value.list.injEq,
      eq_comm, List.filter_eq_nil_iff]
    simp only [Bool.not_eq_true]

/-- The two ways leave the same of a value exactly if it is not a list, or all of the list stays, or nothing
does. -/
theorem surviving_eq_stillOffered_iff : Cascade.surviving choices v = stillOffered choices v ↔
    ∀ items, v = .list items → ∀ item ∈ items,
      Choice.offersItem choices item = Choice.offers choices v := by
  refine ⟨?_, ?_⟩
  · rintro heq items rfl
    exact (surviving_list_eq_iff items).mp heq
  · intro hitems
    by_cases hv : ∃ items, v = .list items
    · obtain ⟨items, rfl⟩ := hv
      exact (surviving_list_eq_iff items).mpr (hitems items rfl)
    · exact (stillOffered_of_scalar fun items hlist => hv ⟨items, hlist⟩).symm

end Values

/-! ## The two ways, on a form -/

section Tables

variable {f : Form} {c : Cascade} {name : String} {choices : List Choice}

theorem valueAt_offering {t : FieldTable} (hname : name ∈ t.names) :
    (offering t name choices).valueAt name = stillOffered choices (t.valueAt name) := by
  have hname' : name ∈ (t.putChoices name choices).names := by
    rwa [FieldTable.names_putChoices]
  rw [offering, FieldTable.valueAt_putValue _ _ hname', if_pos rfl]

theorem choicesAt_offering {t : FieldTable} (hname : name ∈ t.names) :
    (offering t name choices).choicesAt name = choices := by
  rw [offering, FieldTable.choicesAt_putValue, FieldTable.choicesAt_putChoices _ _ hname, if_pos rfl]

/-- What is left of a selection when a cascade computes the choices of its field, and when the data layer
gives the field the same choices.  Neither is refused, and both leave those choices.  A value that is not a
list stays if it is offered and is cleared otherwise, in both ways; of a list the cascade leaves all or
nothing, and the data layer the items that are offered.  So the two leave the same exactly if the list is
offered with all its items, or neither it nor any of its items; where choices store texts, exactly if no
chosen item is offered. -/
theorem selection_left (hfits : c.Fits f.table.names)
    (hcompute : c.compute (c.drivers.map f.table.valueAt) = choices) :
    (f.setChoices c.dependent choices =
      f.perform (offer c.dependent choices >>= fun _ => f.wiring.settle)) ∧
    ∃ prior computed given t₁ t₂,
      f.table.valueOf c.dependent = .ok prior ∧
      (c.recompute.run f.table = .ok () t₁ ∧ t₁.valueOf c.dependent = .ok computed ∧
        t₁.choicesAt c.dependent = choices) ∧
      ((offer c.dependent choices).run f.table = .ok () t₂ ∧ t₂.valueOf c.dependent = .ok given ∧
        t₂.choicesAt c.dependent = choices) ∧
      computed = (if Choice.offers choices prior then prior else prior.cleared) ∧
      (∀ items, prior = .list items →
        given = .list (items.filter (Choice.offersItem choices))) ∧
      ((∀ items, prior ≠ .list items) → given = computed) ∧
      (computed = given ↔ ∀ items, prior = .list items → ∀ item ∈ items,
        Choice.offersItem choices item = Choice.offers choices prior) ∧
      ((∀ o ∈ choices, ∃ s, o.value = .text s) → (computed = given ↔
        ∀ items, prior = .list items → ∀ item ∈ items, ¬ Choice.offers choices (.text item))) := by
  have hmem := hfits.dependent
  have hoffered : c.offered f.table = choices := hcompute
  have hagree : Cascade.surviving choices (f.table.valueAt c.dependent) =
      stillOffered choices (f.table.valueAt c.dependent) ↔ _ := surviving_eq_stillOffered_iff
  refine ⟨setChoices_eq_offer f _ _, f.table.valueAt c.dependent,
    Cascade.surviving choices (f.table.valueAt c.dependent),
    stillOffered choices (f.table.valueAt c.dependent), Cascade.recomputed f.table c,
    offering f.table c.dependent choices, FieldTable.valueOf_of_mem hmem, ⟨?_, ?_, ?_⟩, ⟨?_, ?_, ?_⟩,
    rfl, ?_, stillOffered_of_scalar, hagree, ?_⟩
  · exact Cascade.run_recompute hfits
  · rw [FieldTable.valueOf_of_mem (by rwa [Cascade.names_recomputed]),
      Cascade.valueAt_recomputed hmem, if_pos rfl, hoffered]
  · rw [Cascade.choicesAt_recomputed hmem, if_pos rfl, hoffered]
  · exact run_offer hmem choices
  · have hnames := FieldTable.names_congr (declarations_offering f.table c.dependent choices)
    rw [FieldTable.valueOf_of_mem (by rwa [hnames]), valueAt_offering hmem]
  · exact choicesAt_offering hmem
  · intro items hprior
    rw [hprior, stillOffered_list]
  · -- such choices offer no list, so that only nothing is left in both ways
    intro htexts
    rw [hagree]
    refine forall₂_congr fun items hprior => forall₂_congr fun item _ => ?_
    rw [hprior, Bool.eq_false_of_not_eq_true (Choice.not_offers_list htexts items),
      Choice.offersItem_of_texts htexts, Bool.not_eq_true]

end Tables

/-! ## Items that a cascade loses -/

section Lost

/-- The groups of an account that are offered while a box is ticked. -/
def groupsWhileOn : Cascade where
  drivers := ["on"]
  dependent := "groups"
  compute vs := if vs = [.bool true] then [.named "a", .named "b"] else []

/-- A box, and groups to pick while it is ticked. -/
def groupForm : Definition where
  title := "Groups"
  declarations := [.checkbox "on" "On" true, .multiSelect "groups" "Groups" []]
  rules := []
  cascades := [groupsWhileOn]
  checks := ⟨[], []⟩

theorem build_groupForm : build groupForm = .ok groupForm.opened :=
  build_of_checkParts (by decide +kernel) (by decide +kernel)

/-- The form after one of the groups was picked. -/
def groupPicked : Form :=
  groupForm.opened.run [.set "groups" (.list ["a"])]

theorem valueOf_groupPicked : groupPicked.table.valueOf "groups" = .ok (.list ["a"]) := by
  decide +kernel

theorem selection_left_groups : groupsWhileOn.Fits groupPicked.table.names ∧
    groupsWhileOn.compute (groupsWhileOn.drivers.map groupPicked.table.valueAt) =
      [.named "a", .named "b"] ∧
    ∃ given t₂, (offer "groups" [.named "a", .named "b"]).run groupPicked.table = .ok () t₂ ∧
      t₂.valueOf "groups" = .ok given ∧ given = .list ["a"] := by
  have hfits : groupsWhileOn.Fits groupPicked.table.names :=
    ⟨by decide +kernel, by decide +kernel⟩
  have hcompute : groupsWhileOn.compute (groupsWhileOn.drivers.map groupPicked.table.valueAt) =
      [.named "a", .named "b"] := by decide +kernel
  obtain ⟨-, prior, _, given, _, t₂, hprior, -, ⟨hrun, hgiven, -⟩, -, hlist, -⟩ :=
    selection_left hfits hcompute
  have hitems : prior = .list ["a"] := Except.ok.inj (hprior.symm.trans valueOf_groupPicked)
  exact ⟨hfits, hcompute, given, t₂, hrun, hgiven, hlist _ hitems⟩

/-- The group that was picked is offered by what the cascade computes.  The data layer would leave it, but the
cascade clears it. -/
theorem exists_lost_items : ∃ f t₁ t₂, Reachable groupForm f ∧
    groupsWhileOn ∈ groupForm.cascades ∧
    f.table.valueOf groupsWhileOn.dependent = .ok (.list ["a"]) ∧
    groupsWhileOn.recompute.run f.table = .ok () t₁ ∧
    t₁.valueOf groupsWhileOn.dependent = .ok (.list []) ∧
    (offer groupsWhileOn.dependent (groupsWhileOn.offered f.table)).run f.table = .ok () t₂ ∧
    t₂.valueOf groupsWhileOn.dependent = .ok (.list ["a"]) :=
  ⟨groupPicked, _, _, ⟨_, _, build_groupForm, rfl⟩, by simp [groupForm], valueOf_groupPicked,
    Cascade.run_recompute ⟨by decide +kernel, by decide +kernel⟩, by decide +kernel,
    run_offer (by decide +kernel) _, by decide +kernel⟩

end Lost

end Form

end FormConsole
