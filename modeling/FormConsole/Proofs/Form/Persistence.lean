import FormConsole.Proofs.Form.Snapshot
import FormConsole.Proofs.Form.Termination

/-!
# What calls keep

After its own writes a call does nothing but react, so that what every reaction keeps is lost only by such a write.  No
reaction gives a field a value of its own: a cascade clears its dependent or leaves it alone.  So a property of values that
clearing keeps, such as being a text, is kept; and so is a property of choices that all have that are computed for the field.

* `Wiring.Keeps`: every reaction keeps a property; `Wiring.Keeps.call`: so does a call whose writes keep it.
* `Form.Gives`, `Form.persists_call`: a property of the value of a field.
* `Form.Offers`, `Form.choices_call`: a property of the choices of a field.
* `Form.valueAt_load`: a field that no cascade leads into has the stored value after loading, if there is one.
-/

namespace FormConsole

/-! ## What reactions keep -/

namespace Wiring

section Keeps

variable {w : Wiring} {P : FieldTable → Prop} {t u : FieldTable} {name : String}

/-- Every reaction keeps the property, and so does marking. -/
structure Keeps (w : Wiring) (P : FieldTable → Prop) : Prop where
  alike : ∀ {t u}, t.Alike u → P t → P u
  drain : ∀ {t}, P t → P t.drain
  evaluated : ∀ {t}, P t → P (w.rules.evaluated t)
  recomputed : ∀ {t c}, c ∈ w.cascades → c.dependent ∈ t.names → P t → P (Cascade.recomputed t c)

theorem Keeps.reacts {runs : List Cascade.Run} (h : w.Keeps P) (hreacts : w.Reacts t runs u)
    (hfits : w.Fits t.names) (ht : P t) : P u := by
  induction hreacts with
  | done t => exact ht
  | @rules t u v runs hrun _ ih =>
    obtain rfl := eq_evaluated_of_run hfits hrun
    exact ih (hfits.congr (RuleSet.declarations_evaluated _ t)) (h.evaluated ht)
  | @cascade t u v runs c hc hrun _ ih =>
    obtain rfl := eq_recomputed_of_run hfits hc hrun
    exact ih (hfits.congr Cascade.declarations_recomputed) (h.recomputed hc (hfits.dependent_mem hc) ht)
  | @take t u v runs changes hrun _ ih =>
    obtain rfl := eq_drain_of_run hrun
    exact ih hfits (h.drain ht)

/-- A cascade gives its dependent no value but the cleared one. -/
theorem keeps_value {Q : Value → Prop} (hQ : ∀ v, Q v → Q v.cleared) (name : String) :
    w.Keeps fun t => Q (t.valueAt name) where
  alike ha ht := by rwa [ha.valueAt]
  drain ht := ht
  evaluated ht := by rwa [RuleSet.valueAt_evaluated]
  recomputed := by
    intro t c _ hmem ht
    rw [Cascade.valueAt_recomputed hmem]
    split
    · next heq =>
      rw [← heq, Cascade.surviving]
      split
      · exact ht
      · exact hQ _ ht
    · exact ht

/-- A cascade gives its dependent no choices but those that it computes. -/
theorem keeps_choices {R : List Choice → Prop}
    (hR : ∀ c ∈ w.cascades, c.dependent = name → ∀ vs, R (c.compute vs)) :
    w.Keeps fun t => R (t.choicesAt name) where
  alike ha ht := by rwa [ha.choicesAt]
  drain ht := ht
  evaluated ht := by rwa [RuleSet.choicesAt_evaluated]
  recomputed := by
    intro t c hc hmem ht
    rw [Cascade.choicesAt_recomputed hmem]
    split
    · next heq => exact hR c hc heq.symm _
    · exact ht

/-- The value of a field that no cascade leads into stays. -/
theorem keeps_of_underived (hname : name ∉ w.cascades.map (·.dependent)) (v : Value) :
    w.Keeps fun t => t.valueAt name = v where
  alike ha ht := by rwa [ha.valueAt]
  drain ht := ht
  evaluated ht := by rwa [RuleSet.valueAt_evaluated]
  recomputed := by
    intro t c hc hmem ht
    rw [Cascade.valueAt_recomputed hmem, if_neg]
    · exact ht
    · rintro rfl
      exact hname (List.mem_map.mpr ⟨c, hc, rfl⟩)

variable {d : Definition} {f : Form}

/-- A call keeps what every reaction keeps if its own writes do. -/
theorem Keeps.call (h : f.wiring.Keeps P) (hof : Form.IsOf d f) {c : Call} (hwritten : P (f.written c)) :
    P (f.call c).1.table := by
  obtain ⟨runs, u, hreacts, halike⟩ := Form.exists_reacts_after hof c
  rw [Form.call_eq_after hof]
  exact h.alike halike (h.reacts hreacts (hof.fits.congr (Form.declarations_written f c)) hwritten)

/-- A freshly opened form has it if the declared fields have it. -/
theorem Keeps.build (h : d.wiring.Keeps P) (hbuild : Form.build d = .ok f) (hdeclared : P d.declared) :
    P f.table := by
  obtain ⟨hnodup, hparts, rfl⟩ := Form.build_eq_ok_iff.mp hbuild
  have hfits : d.wiring.Fits d.declared.names := (Form.isOf_initial hnodup hparts).fits
  obtain ⟨runs, hreacts⟩ := exists_reacts_refreshed hfits
  exact h.alike (FieldTable.alike_commit _) (h.reacts hreacts hfits hdeclared)

end Keeps

end Wiring

namespace Form

/-! ## Values -/

section Values

variable {Q : Value → Prop} {name : String} {d : Definition} {f : Form}

/-- The values that the call itself may write into the field have the property. -/
def Gives (Q : Value → Prop) (name : String) (f : Form) : Call → Prop
  | .set other v => name = other → Q v
  | .resetToBaseline other => name = other → ∀ field ∈ f.fields, field.name = name → Q field.decl.default
  | .load stored => ∀ v, stored.get? name = some v → Q v
  | .setChoices other choices => name = other → Q (stillOffered choices (f.table.valueAt name))
  | .refresh | .commit | .validate => True

/-- The field has the property after the writes of the call. -/
theorem gives_written (hf : Q (f.table.valueAt name)) {c : Call} (hgives : f.Gives Q name c) :
    Q ((f.written c).valueAt name) := by
  cases c with
  | set other v =>
    rw [written]
    split
    · next hmem =>
      rw [FieldTable.valueAt_putValue v name hmem]
      split
      · next heq => exact hgives heq
      · exact hf
    · exact hf
  | resetToBaseline other =>
    rw [written]
    split
    · next hmem =>
      by_cases heq : name = other
      · subst heq
        obtain ⟨field, hfield⟩ := FieldTable.mem_names_iff.mp hmem
        rw [FieldTable.valueAt_reset_self hfield]
        exact hgives rfl field (FieldTable.mem_of_field? hfield) (FieldTable.name_of_field? hfield)
      · rw [FieldTable.valueAt_reset_of_ne heq]
        exact hf
    · exact hf
  | load stored =>
    rw [written]
    by_cases hmem : name ∈ f.table.names
    · rw [FieldTable.valueAt_restored hmem]
      cases hstored : stored.get? name with
      | none => exact hf
      | some v => exact hgives v hstored
    · rw [FieldTable.valueAt, FieldTable.field?_restored, FieldTable.field?_eq_none_iff.mpr hmem]
      rw [FieldTable.valueAt, FieldTable.field?_eq_none_iff.mpr hmem] at hf
      exact hf
  | setChoices other choices =>
    rw [written]
    split
    · next hmem =>
      have hmem' : other ∈ (f.table.putChoices other choices).names := by
        rwa [FieldTable.names_putChoices]
      rw [offering, FieldTable.valueAt_putValue _ name hmem', FieldTable.valueAt_putChoices]
      split
      · next heq =>
        subst heq
        exact hgives rfl
      · exact hf
    · exact hf
  | refresh => exact hf
  | commit => exact hf
  | validate => exact hf

variable (hQ : ∀ v, Q v → Q v.cleared)
include hQ

/-- A field has the property after a call if it had it before, and what the call itself writes into the field has it. -/
theorem persists_call (h : IsOf d f) (hf : Q (f.table.valueAt name)) {c : Call}
    (hgives : f.Gives Q name c) : Q ((f.call c).1.table.valueAt name) :=
  (Wiring.keeps_value hQ name).call h (gives_written hf hgives)

theorem persists_build (hbuild : build d = .ok f) (h : Q (d.declared.valueAt name)) :
    Q (f.table.valueAt name) :=
  (Wiring.keeps_value (w := d.wiring) hQ name).build hbuild h

end Values

/-! ## Choices -/

section Choices

variable {R : List Choice → Prop} {name : String} {d : Definition} {f : Form}

/-- The choices that the call itself gives the field have the property. -/
def Offers (R : List Choice → Prop) (name : String) : Call → Prop
  | .setChoices other choices => name = other → R choices
  | _ => True

/-- The choices of the field have the property after the writes of the call. -/
theorem offers_written (hf : R (f.table.choicesAt name)) {c : Call} (hoffers : Offers R name c) :
    R ((f.written c).choicesAt name) := by
  cases c with
  | set other v =>
    rw [written]
    split
    · rwa [FieldTable.choicesAt_putValue]
    · exact hf
  | resetToBaseline other =>
    rw [written]
    split
    · rwa [FieldTable.choicesAt_reset]
    · exact hf
  | load stored => rwa [written, FieldTable.choicesAt_restored]
  | setChoices other choices =>
    rw [written]
    split
    · next hmem =>
      rw [offering, FieldTable.choicesAt_putValue, FieldTable.choicesAt_putChoices _ _ hmem]
      split
      · next heq => exact hoffers heq
      · exact hf
    · exact hf
  | refresh => exact hf
  | commit => exact hf
  | validate => exact hf

/-- The choices of a field have the property after a call if they had it before, and those that are computed for the field
or given by the call itself have it. -/
theorem choices_call (hR : ∀ c ∈ d.cascades, c.dependent = name → ∀ vs, R (c.compute vs)) (h : IsOf d f)
    (hf : R (f.table.choicesAt name)) {c : Call} (hoffers : Offers R name c) :
    R ((f.call c).1.table.choicesAt name) := by
  have hkeeps : f.wiring.Keeps fun t => R (t.choicesAt name) := by
    rw [h.wiring]
    exact Wiring.keeps_choices hR
  exact hkeeps.call h (offers_written hf hoffers)

theorem choices_build (hR : ∀ c ∈ d.cascades, c.dependent = name → ∀ vs, R (c.compute vs))
    (hbuild : build d = .ok f) (h : R (d.declared.choicesAt name)) : R (f.table.choicesAt name) :=
  (Wiring.keeps_choices (w := d.wiring) hR).build hbuild h

end Choices

/-! ## Fields that no cascade leads into -/

section Underived

variable {name : String} {d : Definition} {f : Form} (hname : name ∉ d.cascades.map (·.dependent))
include hname

/-- In a freshly opened form the field has its default. -/
theorem valueAt_build (hbuild : build d = .ok f) : f.table.valueAt name = d.declared.valueAt name :=
  (Wiring.keeps_of_underived (w := d.wiring) hname _).build hbuild rfl

/-- After loading, the field has the stored value if there is one. -/
theorem valueAt_load (h : IsOf d f) (hmem : name ∈ f.table.names) (stored : NameMap Value) :
    (f.load stored).1.table.valueAt name = (stored.get? name).getD (f.table.valueAt name) := by
  rw [← FieldTable.valueAt_restored hmem]
  have hunderived : name ∉ f.wiring.cascades.map (·.dependent) := by
    rw [h.wiring]
    exact hname
  exact (Wiring.keeps_of_underived hunderived _).call h (c := .load stored) rfl

end Underived

end Form

end FormConsole
