import FormConsole.Proofs.Console.State
import FormConsole.Proofs.Form.Marks
import FormConsole.Proofs.Form.Persistence

/-!
# Opening a panel

A panel opens on whatever is stored: any names, and values of any shape.  Nothing of it is refused, and rules and the one
cascade only ever change the primary slave of a bond.  What a panel does not declare is lost without a trace; only that
there is a stored object at all makes a difference.

* `Definition.filled`: a freshly opened form, filled with a stored object if there is one.
* `Panel.definition_congr`: the panels without a device name do not depend on it.
* `Source.openPanel_filled`: what a panel shows right after it was opened.
-/

namespace FormConsole

/-- What is stored under other names is not restored. -/
theorem FieldTable.restored_congr {t : FieldTable} {stored stored' : NameMap Value}
    (h : ∀ name ∈ t.names, stored'.get? name = stored.get? name) :
    t.restored stored' = t.restored stored := by
  have hfields : (t.restored stored').fields = (t.restored stored).fields := by
    refine List.map_congr_left fun field hfield => ?_
    rw [h field.name (List.mem_map.mpr ⟨field, hfield, rfl⟩)]
  exact eq_of_fields rfl rfl hfields

/-- The value of a name in a stored object, if there is one. -/
def Source.storedValue? (stored : Option StoredObject) (name : String) : Option Value :=
  stored.bind fun o => o.values.get? name

/-! ## Filled forms -/

namespace Definition

open Source (storedValue?)

section Filled

variable {d : Definition} {field : Field}

/-- A freshly opened form, filled with a stored object if there is one. -/
def filled (d : Definition) (stored : Option StoredObject) : Form :=
  d.opened.run (stored.toList.map fun o => .load o.values)

theorem filled_none : d.filled none = d.opened := rfl

theorem filled_some (o : StoredObject) : d.filled (some o) = (d.opened.load o.values).1 := rfl

/-- The first field has the focus. -/
theorem active_filled (stored : Option StoredObject) : (d.filled stored).active = 0 := by
  cases stored with
  | none => rfl
  | some o => exact (Form.call_static _ (.load o.values)).2.2.2

variable (hbuild : Form.build d = .ok d.opened) (stored : Option StoredObject)
include hbuild

theorem isOf_filled : Form.IsOf d (d.filled stored) :=
  (Form.isOf_of_build hbuild).run _

theorem marked_filled : (d.filled stored).Marked [] := by
  cases stored with
  | none => exact Form.marked_opened d
  | some o => exact (Form.marked_opened d).load (Form.isOf_of_build hbuild) o.values

theorem isDirty_filled : (d.filled stored).isDirty = false := by
  have hclean : ∀ field ∈ (d.filled stored).fields, field.isDirty = false := by
    cases stored with
    | none => exact FieldTable.isDirty_commit (d.wiring.refreshed d.declared)
    | some o =>
      rw [filled_some]
      exact Form.isDirty_load (Form.isOf_of_build hbuild) o.values
  exact List.any_eq_false.mpr fun field hfield => by simp [hclean field hfield]

/-- A field that no cascade leads into has the stored value of its name if there is one, and its default otherwise. -/
theorem value_of_mem_filled (hfield : field ∈ (d.filled stored).fields)
    (hname : field.name ∉ d.cascades.map (·.dependent)) :
    field.value = (storedValue? stored field.name).getD field.decl.default := by
  have hof := isOf_filled hbuild stored
  have hopened := Form.isOf_of_build hbuild
  have hlookup := FieldTable.field?_name_of_mem hof.nodup hfield
  have hdeclared : d.declared.valueAt field.name = field.decl.default := by
    have hnodup : d.declared.names.Nodup := by
      rw [names_declared, ← hof.names]
      exact hof.nodup
    have hmem : Field.ofDeclaration field.decl ∈ d.declared.fields :=
      List.mem_map.mpr ⟨field.decl, hof.decl_mem hfield, rfl⟩
    exact FieldTable.valueAt_of_field? (FieldTable.field?_name_of_mem hnodup hmem)
  rw [← FieldTable.valueAt_of_field? hlookup, ← hdeclared, ← Form.valueAt_build hname hbuild]
  cases stored with
  | none => rw [filled_none, storedValue?, Option.bind_none, Option.getD_none]
  | some o =>
    have hmem : field.name ∈ d.opened.table.names := by
      rw [hopened.names, ← hof.names]
      exact List.mem_map.mpr ⟨field, hfield, rfl⟩
    rw [filled_some, Form.valueAt_load hname hopened hmem o.values, storedValue?, Option.bind_some]

/-- What is stored under names that are not declared makes no difference. -/
theorem filled_congr {stored stored' : Option StoredObject} (hsome : stored'.isSome = stored.isSome)
    (hsame : ∀ name ∈ d.names, storedValue? stored' name = storedValue? stored name) :
    d.filled stored' = d.filled stored := by
  have hopened := Form.isOf_of_build hbuild
  cases stored with
  | none =>
    cases stored' with
    | none => rfl
    | some o' => exact absurd hsome (by simp)
  | some o =>
    cases stored' with
    | none => exact absurd hsome (by simp)
    | some o' =>
      have hrestored : d.opened.table.restored o'.values = d.opened.table.restored o.values := by
        refine FieldTable.restored_congr fun name hname => ?_
        rw [hopened.names] at hname
        exact hsame name hname
      rw [filled_some, filled_some, Form.load_eq hopened, Form.load_eq hopened, hrestored]

end Filled

end Definition

/-! ## The panels -/

namespace Panel

variable (p : Panel) {s s' : Setting}

/-- The only field of a panel into which a cascade leads is the primary slave. -/
theorem eq_of_mem_dependents {name : String}
    (h : name ∈ (p.definition s).cascades.map (·.dependent)) : name = "bondprimary" := by
  rw [cascades_definition] at h
  have hall : ∀ name ∈ (p.definition .blank).cascades.map (·.dependent), name = "bondprimary" := by
    rcases p with (_ | _ | _) | _ | _ | _ <;> decide
  exact hall name h

/-- A panel that shows no device name does not depend on it. -/
theorem definition_congr (hediting : s'.editing = s.editing) (hcandidates : s'.candidates = s.candidates)
    (hnow : s'.now = s.now) (hname : "devicename" ∈ (p.definition s).names → s'.devicename = s.devicename) :
    p.definition s' = p.definition s := by
  obtain ⟨editing, devicename, candidates, now⟩ := s
  obtain ⟨editing', devicename', candidates', now'⟩ := s'
  dsimp only at hediting hcandidates hnow hname
  subst hediting hcandidates hnow
  cases p with
  | interface kind =>
    have hmem : "devicename" ∈ ((Panel.interface kind).definition
        ⟨editing', devicename, candidates', now'⟩).names := by
      rw [names_definition]
      cases kind <;> decide
    rw [hname hmem]
  | powerSchedule => rfl
  | notification => rfl
  | user => rfl

/-- The default of a device name is the one of the setting. -/
theorem default_devicename {e : Declaration} (he : e ∈ (p.definition s).declarations)
    (hname : e.name = "devicename") : e.default = .text s.devicename := by
  cases p with
  | interface kind =>
    have hmem : ((Declaration.text "devicename" "Name").readOnly true).withDefault (.text s.devicename) ∈
        ((Panel.interface kind).definition s).declarations := by
      cases kind <;> exact List.mem_cons_self
    have hdistinct := ((Panel.interface kind).wellFormed s).distinct
    rw [List.inj_on_of_nodup_map hdistinct he hmem hname]
    rfl
  | _ =>
    -- the other panels declare no device name
    have hdeclared := List.mem_map_of_mem (f := fun e : Declaration => e.name) he
    rw [hname] at hdeclared
    exact absurd hdeclared (by rw [← Definition.names, names_definition]; decide)

end Panel

namespace Source

section Opening

/-- Every panel opens on any data, with exactly the stored values.  Whatever the candidates, the time of day and the
stored object are, if the data layer answers, then the panel opens.  Its form then differs in nothing from what is saved,
has no marks, and starts at its first field; it declares what the panel declares in this setting; every field but the
primary slave of a bond has the stored value of its name if there is one and its default otherwise, where the default of a
device name is the text of the stored one; and a stored object with the same values under the declared names opens as the
same form. -/
theorem openPanel_filled (s : Source) (now : TimeOfDay) (p : Panel) {candidates : Candidates}
    {stored : Option StoredObject} (hcandidates : s.fetchCandidates = .ok candidates)
    (hstored : s.stored p = .ok stored) :
    ∃ form, s.openPanel now p = .ok form ∧ form.isDirty = false ∧ form.active = 0 ∧
      (∀ field ∈ form.fields, field.violation = none) ∧
      form.fields.map (·.decl) = (p.definition ⟨stored.isSome,
        ((storedValue? stored "devicename").map Value.asText).getD "", candidates, now⟩).declarations ∧
      (∀ field ∈ form.fields, field.name ≠ "bondprimary" →
        field.value = (storedValue? stored field.name).getD field.decl.default) ∧
      (∀ field ∈ form.fields, field.name = "devicename" →
        field.decl.default = .text (((storedValue? stored "devicename").map Value.asText).getD "")) ∧
      ∀ (other : Source) (stored' : Option StoredObject), other.fetchCandidates = .ok candidates →
        other.stored p = .ok stored' → stored'.isSome = stored.isSome →
        (∀ field ∈ form.fields, storedValue? stored' field.name = storedValue? stored field.name) →
        other.openPanel now p = .ok form := by
  have hbuild := p.build_definition (setting candidates stored now)
  have hof := Definition.isOf_filled hbuild stored
  refine ⟨_, openPanel_eq_ok_iff.mpr ⟨candidates, stored, hcandidates, hstored, rfl⟩,
    Definition.isDirty_filled hbuild stored, Definition.active_filled stored, ?_, hof.declarations, ?_, ?_, ?_⟩
  · intro field hfield
    exact Definition.marked_filled hbuild stored field hfield
  · intro field hfield hname
    exact Definition.value_of_mem_filled hbuild stored hfield fun hdep =>
      hname (p.eq_of_mem_dependents hdep)
  · intro field hfield hname
    exact p.default_devicename (hof.decl_mem hfield) hname
  · intro other stored' hcandidates' hstored' hsome hsame
    have hdeclared : ∀ name ∈ (p.definition (setting candidates stored now)).names,
        storedValue? stored' name = storedValue? stored name := by
      intro name hname
      rw [← hof.names] at hname
      obtain ⟨field, hfield, rfl⟩ := List.mem_map.mp hname
      exact hsame field hfield
    have hdefinition : p.definition (setting candidates stored' now) =
        p.definition (setting candidates stored now) := by
      refine p.definition_congr hsome rfl rfl fun hname => ?_
      exact congrArg (fun v => (v.map Value.asText).getD "") (hdeclared _ hname)
    refine openPanel_eq_ok_iff.mpr ⟨candidates, stored', hcandidates', hstored', ?_⟩
    rw [hdefinition]
    exact (Definition.filled_congr hbuild hsome hdeclared).symm

/-- A data layer that stores one ethernet interface with these values. -/
def oneInterface (values : List (String × Value)) : Source :=
  .ofFixture ⟨.none, NameMap.ofList [("ethernet", ⟨⟨0⟩, NameMap.ofList values⟩)]⟩

theorem stored_oneInterface (values : List (String × Value)) :
    (oneInterface values).stored (.interface .ethernet) = .ok (some ⟨⟨0⟩, NameMap.ofList values⟩) := by
  rfl

/-- A device name that is a number is shown as it is stored, but it has no text to be the default; a name that the panel
does not declare is lost. -/
theorem openPanel_filled_number :
    ∃ form, (oneInterface [("devicename", .number 7), ("ghost", .list ["a"])]).openPanel .midnight
        (.interface .ethernet) = .ok form ∧ form.isDirty = false ∧
      (oneInterface [("devicename", .number 7)]).openPanel .midnight (.interface .ethernet) = .ok form ∧
      ∃ field ∈ form.fields, field.name = "devicename" ∧ field.value = .number 7 ∧
        field.decl.default = .text "" := by
  have hstored := stored_oneInterface [("devicename", .number 7), ("ghost", .list ["a"])]
  obtain ⟨form, hopen, hclean, -, -, hdeclared, hvalue, hdefault, hsame⟩ :=
    openPanel_filled _ .midnight (.interface .ethernet) rfl hstored
  have hnumber : storedValue? (some ⟨⟨0⟩, NameMap.ofList [("devicename", .number 7), ("ghost", .list ["a"])]⟩)
      "devicename" = some (.number 7) := by decide +kernel
  have hgenuine : ∀ e ∈ form.fields.map (·.decl), e.name ≠ "ghost" := by
    rw [hdeclared]
    decide +kernel
  have hfirst : (form.fields.map (·.decl)).head?.map (·.name) = some "devicename" := by
    rw [hdeclared]
    rfl
  obtain ⟨e, he, hname⟩ := Option.map_eq_some_iff.mp hfirst
  obtain ⟨field, hfield, rfl⟩ := List.mem_map.mp (List.mem_of_mem_head? he)
  refine ⟨form, hopen, hclean, ?_, field, hfield, hname, ?_, ?_⟩
  · refine hsame _ _ rfl (stored_oneInterface [("devicename", .number 7)]) rfl fun other hother => ?_
    have hghost : "ghost" ≠ other.name := fun heq =>
      hgenuine other.decl (List.mem_map.mpr ⟨other, hother, rfl⟩) heq.symm
    show (NameMap.ofList [("devicename", Value.number 7)]).get? other.name =
      ((NameMap.ofList [("devicename", Value.number 7)]).insert "ghost" (.list ["a"])).get? other.name
    rw [NameMap.get?_insert, if_neg hghost]
  · rw [hvalue field hfield (by rw [Field.name, hname]; decide), Field.name, hname, hnumber]
    rfl
  · rw [hdefault field hfield hname, hnumber]
    rfl

end Opening

end Source

end FormConsole
