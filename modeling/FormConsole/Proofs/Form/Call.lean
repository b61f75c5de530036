import FormConsole.Form.Call
import FormConsole.Proofs.Form.Propagation

/-!
# Calls as functions on tables

A definition that was accepted mentions declared names only, so that a call on its form is refused for an
undeclared name and never for what reacts to it.  A call is then a function on the fields of the form.

* `Form.IsOf`: the forms of an accepted definition between two calls; `Form.isOf_of_reachable`.
* `Form.setWithin`: giving a field a value with a number of passes of one's own.
* `Form.after`, `Form.answer`: the fields that a call leaves, and what it answers; `Form.call_eq` says that it
does.
-/

namespace FormConsole

namespace Definition

variable (d : Definition)

/-- All that reacts in the forms of a definition. -/
def wiring : Wiring := ⟨d.rules, d.cascades⟩

/-- The fields as they are declared. -/
def declared : FieldTable := ⟨d.declarations.map Field.ofDeclaration, []⟩

/-- The form that opens if the definition is accepted. -/
def opened : Form :=
  { Form.initial d d.declared with table := (d.wiring.refreshed d.declared).commit }

@[simp] theorem declarations_declared : d.declared.declarations = d.declarations := by
  rw [declared, FieldTable.declarations, List.map_map]
  exact List.map_id _

end Definition

namespace FieldTable

/-! ## Fields at first -/

section Declared

theorem firstRepeated?_eq_none_iff {seen ns : List String} :
    firstRepeated? seen ns = none ↔ ns.Nodup ∧ ∀ n ∈ ns, n ∉ seen := by
  induction ns generalizing seen with
  | nil => simp [firstRepeated?]
  | cons n ns ih =>
    rw [firstRepeated?]
    by_cases hn : n ∈ seen
    · rw [if_pos hn]
      have hseen : ¬ ∀ m ∈ n :: ns, m ∉ seen := fun h => h n (by simp) hn
      simp only [reduceCtorEq, hseen, and_false]
    · rw [if_neg hn, ih, List.nodup_cons]
      refine ⟨?_, ?_⟩
      · rintro ⟨hnodup, hseen⟩
        refine ⟨⟨fun hmem => hseen n hmem (by simp), hnodup⟩, fun m hm => ?_⟩
        rcases List.mem_cons.mp hm with rfl | hm
        · exact hn
        · exact fun hmem => hseen m hm (by simp [hmem])
      · rintro ⟨⟨hmem, hnodup⟩, hseen⟩
        refine ⟨hnodup, fun m hm hm' => ?_⟩
        rcases List.mem_cons.mp hm' with rfl | hm'
        · exact hmem hm
        · exact hseen m (by simp [hm]) hm'

theorem ofDeclarations_eq_ok_iff {ds : List Declaration} {t : FieldTable} :
    ofDeclarations ds = .ok t ↔
      (ds.map (·.name)).Nodup ∧ t = ⟨ds.map Field.ofDeclaration, []⟩ := by
  unfold ofDeclarations
  split
  · next n hn =>
    have hnot : ¬ (ds.map (·.name)).Nodup := fun h => by
      have := firstRepeated?_eq_none_iff.mpr ⟨h, fun m _ => List.not_mem_nil (a := m)⟩
      rw [hn] at this
      simp at this
    simp [hnot]
  · next hn =>
    have hnodup := (firstRepeated?_eq_none_iff.mp hn).1
    refine ⟨?_, ?_⟩
    · intro h
      exact ⟨hnodup, (Except.ok.inj h).symm⟩
    · rintro ⟨-, rfl⟩
      rfl

end Declared

/-! ## What resetting and loading write -/

section Writes

/-- The table with the field at its default and its baseline. -/
def reset (t : FieldTable) (name : String) : FieldTable :=
  (t.write name .value fun f => { f with value := f.decl.default }).putConstraints name
    fun f => f.decl.baseline

/-- The table with the stored values, as if they had always been there. -/
def restored (t : FieldTable) (stored : NameMap Value) : FieldTable :=
  { t.store stored with pending := [] }

variable (t : FieldTable)

theorem declarations_reset (name : String) : (t.reset name).declarations = t.declarations := by
  rw [reset, declarations_putConstraints]
  exact declarations_write (by intro f; rfl)

theorem declarations_restored (stored : NameMap Value) :
    (t.restored stored).declarations = t.declarations := by
  simp [restored, store, declarations, Function.comp_def]

theorem field?_restored (stored : NameMap Value) (name : String) :
    (t.restored stored).field? name =
      (t.field? name).map fun f => { f with value := (stored.get? f.name).getD f.value } := by
  unfold field? restored store
  rw [List.find?_map]
  rfl

end Writes

end FieldTable

namespace Form

/-! ## Forms of an accepted definition -/

section Accepted

variable {d : Definition} {f : Form} {t : FieldTable}

/-- A form of an accepted definition, between two calls. -/
structure IsOf (d : Definition) (f : Form) : Prop where
  wiring : f.wiring = d.wiring
  declarations : f.table.declarations = d.declarations
  nodup : f.table.names.Nodup
  fits : f.wiring.Fits f.table.names
  apart : f.wiring.rules.Pairwise Rule.Apart
  pending : f.table.pending = []

theorem IsOf.news (h : IsOf d f) : f.table.news = [] := by
  rw [FieldTable.news, h.pending]
  rfl

theorem IsOf.decl_mem (h : IsOf d f) {field : Field} (hfield : field ∈ f.fields) :
    field.decl ∈ d.declarations := by
  rw [← h.declarations]
  exact List.mem_map.mpr ⟨field, hfield, rfl⟩

theorem IsOf.rules_apart (h : IsOf d f) : d.rules.Pairwise Rule.Apart := by
  have hapart := h.apart
  rwa [h.wiring] at hapart

/-- The news that a value of a field makes are of that field. -/
theorem IsOf.eq_of_mem_news_putValue (h : IsOf d f) {name : String}
    (hmem : name ∈ f.table.names) {v : Value}
    {other : String} (hother : other ∈ (f.table.putValue name v).news) : other = name := by
  rw [FieldTable.news_putValue v hmem, h.news, List.nil_append] at hother
  split at hother
  · simp at hother
  · exact List.mem_singleton.mp hother

/-- A form stays one of its definition if only its fields change, and they keep their declarations. -/
theorem IsOf.with_table (h : IsOf d f) (hdecl : t.declarations = f.table.declarations)
    (hpending : t.pending = []) : IsOf d { f with table := t } := by
  have hnames : t.names = f.table.names := FieldTable.names_congr hdecl
  refine ⟨?_, ?_, ?_, ?_, ?_, ?_⟩
  · exact h.wiring
  · exact hdecl.trans h.declarations
  · rw [hnames]
    exact h.nodup
  · show f.wiring.Fits t.names
    rw [hnames]
    exact h.fits
  · exact h.apart
  · exact hpending

theorem checkParts_eq_ok_iff : d.checkParts t = .ok () ↔ RuleSet.check d.rules t = .ok () ∧
    (∀ c ∈ d.cascades, c.check t = .ok ()) ∧ d.checks.check t = .ok () := by
  rw [Definition.checkParts, ← forM_eq_ok_iff]
  cases hrules : RuleSet.check d.rules t with
  | error e => simp [bind, Except.bind]
  | ok u =>
    cases hcascades : d.cascades.forM (fun c => c.check t) with
    | error e => simp [bind, Except.bind]
    | ok u => simp [bind, Except.bind]

theorem fits_of_checkParts (h : d.checkParts t = .ok ()) :
    d.wiring.Fits t.names ∧ d.rules.Pairwise Rule.Apart := by
  obtain ⟨hrules, hcascades, -⟩ := checkParts_eq_ok_iff.mp h
  have hfits : ∀ c ∈ d.cascades, c.Fits t.names := fun c hc =>
    Cascade.fits_of_check (hcascades c hc)
  exact ⟨⟨RuleSet.fits_of_check hrules, hfits⟩, RuleSet.pairwise_apart_of_check hrules⟩

end Accepted

/-! ## Performing an edit -/

section Perform

variable {α : Type} {f : Form} {t : FieldTable} {edit : Edit α}

theorem perform_of_ok {a : α} (h : edit.run f.table = .ok a t) :
    f.perform edit = ({ f with table := t }, .ok a) := by
  rw [perform, h]

/-- A refusal before anything was written leaves the form as it is. -/
theorem perform_of_error {e : FormError} (h : edit.run f.table = .error e f.table) :
    f.perform edit = (f, .error e) := by
  rw [perform, h]

end Perform

section Build

variable {d : Definition} {form : Form}

theorem isOf_initial (hnodup : (d.declarations.map (·.name)).Nodup)
    (hparts : d.checkParts d.declared = .ok ()) : IsOf d (initial d d.declared) := by
  obtain ⟨hfits, hapart⟩ := fits_of_checkParts hparts
  refine ⟨rfl, d.declarations_declared, ?_, hfits, hapart, rfl⟩
  show d.declared.names.Nodup
  rwa [FieldTable.names_eq_map, d.declarations_declared]

/-- A definition is accepted if no name is declared twice and its parts pass their checks; the form is then
opened by a reaction of everything to the declared values. -/
theorem build_eq_ok_iff : build d = .ok form ↔
    (d.declarations.map (·.name)).Nodup ∧ d.checkParts d.declared = .ok () ∧ form = d.opened := by
  unfold build
  cases hdecl : FieldTable.ofDeclarations d.declarations with
  | error e =>
    have hnot : ¬ (d.declarations.map (·.name)).Nodup := fun hnodup => by
      rw [FieldTable.ofDeclarations_eq_ok_iff.mpr ⟨hnodup, rfl⟩] at hdecl
      simp at hdecl
    simp [bind, Except.bind, hnot]
  | ok t =>
    obtain ⟨hnodup, rfl⟩ := FieldTable.ofDeclarations_eq_ok_iff.mp hdecl
    change (d.checkParts d.declared >>= _) = _ ↔ _
    cases hparts : d.checkParts d.declared with
    | error e => simp [bind, Except.bind]
    | ok u =>
      have hrun := perform_of_ok (f := initial d d.declared)
        (Wiring.run_refresh (isOf_initial hnodup hparts).fits)
      have hdeclared : (⟨d.declarations.map Field.ofDeclaration, []⟩ : FieldTable) = d.declared := rfl
      simp only [bind, Except.bind]
      rw [hdeclared, hrun]
      refine ⟨?_, ?_⟩
      · intro h
        exact ⟨hnodup, trivial, (Except.ok.inj h).symm⟩
      · rintro ⟨-, -, rfl⟩
        rfl

theorem build_of_checkParts (hnodup : (d.declarations.map (·.name)).Nodup)
    (hparts : d.checkParts d.declared = .ok ()) : build d = .ok d.opened :=
  build_eq_ok_iff.mpr ⟨hnodup, hparts, rfl⟩

theorem isOf_of_build (h : build d = .ok form) : IsOf d form := by
  obtain ⟨hnodup, hparts, rfl⟩ := build_eq_ok_iff.mp h
  refine (isOf_initial hnodup hparts).with_table ?_ ?_
  · rw [(FieldTable.alike_commit _).declarations, Wiring.declarations_refreshed]
    rfl
  · rw [(FieldTable.alike_commit _).pending]
    rfl

end Build

/-! ## The calls -/

section Calls

variable {d : Definition} {f : Form} {name : String}

/-- Gives a field a value and makes at most that many passes. -/
def setWithin (f : Form) (passes : Nat) (name : String) (v : Value) :
    Form × Except FormError ChangeSet :=
  f.perform do
    if ← Edit.setValue name v then f.wiring.settleWithin passes else pure []

theorem set_eq_setWithin (f : Form) (name : String) (v : Value) :
    f.set name v = f.setWithin Wiring.maxPasses name v := rfl

theorem setWithin_of_mem (h : IsOf d f) (hname : name ∈ f.table.names) (n : Nat) (v : Value) :
    f.setWithin n name v =
      ({ f with table := (f.wiring.pass^[n] (f.table.putValue name v)).drain },
        .ok (f.wiring.history n (f.table.putValue name v))) := by
  have hset := Edit.run_setValue_of_mem hname v
  refine perform_of_ok ((Edit.run_bind_of_ok hset).trans ?_)
  by_cases hv : f.table.valueAt name = v
  · -- the value is the one that the field has, so that there is no news to pass on
    subst hv
    rw [FieldTable.putValue_valueAt, Wiring.iterate_pass_of_quiet _ h.news,
      Wiring.history_of_quiet _ h.news, h.pending, FieldTable.drain_of_pending h.pending]
    simp only [ne_eq, not_true_eq_false, decide_false, Bool.false_eq_true, if_false]
    rfl
  · rw [if_pos (by simpa using hv)]
    exact Wiring.run_settleWithin (h.fits.congr (FieldTable.declarations_putValue v)) n

theorem setWithin_of_not_mem (hname : name ∉ f.table.names) (n : Nat) (v : Value) :
    f.setWithin n name v = (f, .error (.unknownField name .update)) := by
  refine perform_of_error ?_
  rw [EStateM.run_bind, Edit.setValue, Edit.run_put_of_not_mem hname]

theorem set_of_mem (h : IsOf d f) (hname : name ∈ f.table.names) (v : Value) :
    f.set name v = ({ f with table := f.wiring.settled (f.table.putValue name v) },
      .ok (f.wiring.history Wiring.maxPasses (f.table.putValue name v))) :=
  setWithin_of_mem h hname Wiring.maxPasses v

theorem run_reset {t : FieldTable} (hname : name ∈ t.names) :
    (Edit.resetToBaseline name).run t = .ok () (t.reset name) := by
  obtain ⟨b, hvalue⟩ := Edit.run_put_of_mem hname .value fun f => { f with value := f.decl.default }
  have hname' : name ∈
      (t.write name .value fun f => { f with value := f.decl.default }).names := by
    rwa [FieldTable.names_write (by intro f; rfl)]
  obtain ⟨b', hconstraints⟩ :=
    Edit.run_put_of_mem hname' .constraints fun f => { f with effective := f.decl.baseline }
  rw [Edit.resetToBaseline, Edit.run_bind_of_ok hvalue, Edit.run_bind_of_ok hconstraints]
  rfl

theorem resetToBaseline_of_mem (h : IsOf d f) (hname : name ∈ f.table.names) :
    f.resetToBaseline name =
      ({ f with table := f.wiring.refreshed (f.wiring.settled (f.table.reset name)) },
        .ok (f.wiring.history Wiring.maxPasses (f.table.reset name) ++
          f.wiring.history Wiring.maxPasses
            (f.wiring.reactedAll (f.wiring.settled (f.table.reset name))))) := by
  have hfits := h.fits.congr (FieldTable.declarations_reset f.table name)
  have hfits' : f.wiring.Fits (f.wiring.settled (f.table.reset name)).names :=
    hfits.congr (Wiring.declarations_settled _)
  refine perform_of_ok ?_
  exact (Edit.run_bind_of_ok (run_reset hname)).trans <|
    (Edit.run_bind_of_ok (Wiring.run_settleWithin hfits Wiring.maxPasses)).trans <|
      Edit.run_bind_of_ok (Wiring.run_refresh hfits')

theorem resetToBaseline_of_not_mem (hname : name ∉ f.table.names) :
    f.resetToBaseline name = (f, .error (.unknownField name .update)) := by
  refine perform_of_error ?_
  rw [EStateM.run_bind, Edit.resetToBaseline, EStateM.run_bind, Edit.run_put_of_not_mem hname]

/-- Loading is never refused: stored values of undeclared names are skipped. -/
theorem load_eq (h : IsOf d f) (stored : NameMap Value) :
    f.load stored =
      ({ f with table := (f.wiring.refreshed (f.table.restored stored)).commit }, .ok ()) := by
  have hfits := h.fits.congr (FieldTable.declarations_restored f.table stored)
  refine perform_of_ok ?_
  have hmodify : (modify fun t : FieldTable => { t.store stored with pending := [] } : Edit Unit).run
      f.table = .ok () (f.table.restored stored) := rfl
  exact (Edit.run_bind_of_ok hmodify).trans (Edit.run_bind_of_ok (Wiring.run_refresh hfits))

/-- Gives a field choices of the data layer, and what these leave of its value, before anything reacts. -/
def offer (name : String) (choices : List Choice) : Edit Unit := do
  let prior ← Edit.ask fun t => t.valueOf name
  let _ ← Edit.replaceChoices name choices
  let _ ← Edit.setValue name (stillOffered choices prior)

theorem setChoices_eq_offer (f : Form) (name : String) (choices : List Choice) :
    f.setChoices name choices = f.perform (offer name choices >>= fun _ => f.wiring.settle) := by
  rw [setChoices, offer]
  simp only [bind_assoc, pure_bind]

/-- The table after the data layer gave a field choices, before anything reacts. -/
def offering (t : FieldTable) (name : String) (choices : List Choice) : FieldTable :=
  (t.putChoices name choices).putValue name (stillOffered choices (t.valueAt name))

theorem run_offer {t : FieldTable} (hname : name ∈ t.names) (choices : List Choice) :
    (offer name choices).run t = .ok () (offering t name choices) := by
  have hprior : (fun t : FieldTable => t.valueOf name) t = .ok (t.valueAt name) :=
    FieldTable.valueOf_of_mem hname
  obtain ⟨b, hchoices⟩ := Edit.run_replaceChoices_of_mem hname choices
  have hname' : name ∈ (t.putChoices name choices).names := by
    rwa [FieldTable.names_putChoices]
  have hvalue := Edit.run_setValue_of_mem hname' (stillOffered choices (t.valueAt name))
  rw [offer, Edit.run_bind_of_ok (Edit.run_ask_of_ok hprior), Edit.run_bind_of_ok hchoices,
    Edit.run_bind_of_ok hvalue]
  rfl

theorem declarations_offering (t : FieldTable) (name : String) (choices : List Choice) :
    (offering t name choices).declarations = t.declarations := by
  rw [offering, FieldTable.declarations_putValue, FieldTable.declarations_putChoices]

theorem setChoices_of_mem (h : IsOf d f) (hname : name ∈ f.table.names) (choices : List Choice) :
    f.setChoices name choices =
      ({ f with table := f.wiring.settled (offering f.table name choices) },
        .ok (f.wiring.history Wiring.maxPasses (offering f.table name choices))) := by
  have hfits := h.fits.congr (declarations_offering f.table name choices)
  rw [setChoices_eq_offer]
  refine perform_of_ok ?_
  exact (Edit.run_bind_of_ok (run_offer hname choices)).trans
    (Wiring.run_settleWithin hfits Wiring.maxPasses)

theorem setChoices_of_not_mem (hname : name ∉ f.table.names) (choices : List Choice) :
    f.setChoices name choices = (f, .error (.unknownField name .lookup)) := by
  refine perform_of_error ?_
  rw [EStateM.run_bind, Edit.run_ask, FieldTable.valueOf, FieldTable.lookup,
    FieldTable.field?_eq_none_iff.mpr hname]
  rfl

theorem refresh_eq (h : IsOf d f) :
    f.refresh = ({ f with table := f.wiring.refreshed f.table },
      .ok (f.wiring.history Wiring.maxPasses (f.wiring.reactedAll f.table))) :=
  perform_of_ok (Wiring.run_refresh h.fits)

/-- A refresh does nothing exactly if all is in line. -/
theorem refresh_eq_self_iff (h : IsOf d f) :
    f.refresh = (f, .ok []) ↔ f.wiring.InLine f.table := by
  rw [← Wiring.run_refresh_eq_iff h.fits h.pending, Wiring.run_refresh h.fits, refresh_eq h]
  refine ⟨?_, ?_⟩
  · intro heq
    obtain ⟨hform, hanswer⟩ := Prod.mk.inj heq
    have htable := congrArg Form.table hform
    dsimp only at htable
    rw [htable, Except.ok.inj hanswer]
  · intro hrun
    injection hrun with hhistory htable
    rw [hhistory, htable]

end Calls

/-! ## Whole runs -/

section Runs

variable {d : Definition} {f : Form}

/-- The fields that a call leaves. -/
def after (f : Form) : Call → FieldTable
  | .set name v =>
    if name ∈ f.table.names then f.wiring.settled (f.table.putValue name v) else f.table
  | .resetToBaseline name =>
    if name ∈ f.table.names then f.wiring.refreshed (f.wiring.settled (f.table.reset name))
    else f.table
  | .load stored => (f.wiring.refreshed (f.table.restored stored)).commit
  | .setChoices name choices =>
    if name ∈ f.table.names then f.wiring.settled (offering f.table name choices) else f.table
  | .refresh => f.wiring.refreshed f.table
  | .commit => f.table.commit
  | .validate => Checks.mark f.table f.violations

/-- What a call answers. -/
def answer (f : Form) : Call → Except FormError Answer
  | .set name v =>
    if name ∈ f.table.names then
      .ok (.changes (f.wiring.history Wiring.maxPasses (f.table.putValue name v)))
    else .error (.unknownField name .update)
  | .resetToBaseline name =>
    if name ∈ f.table.names then
      .ok (.changes (f.wiring.history Wiring.maxPasses (f.table.reset name) ++
        f.wiring.history Wiring.maxPasses
          (f.wiring.reactedAll (f.wiring.settled (f.table.reset name)))))
    else .error (.unknownField name .update)
  | .load _ => .ok .done
  | .setChoices name choices =>
    if name ∈ f.table.names then
      .ok (.changes (f.wiring.history Wiring.maxPasses (offering f.table name choices)))
    else .error (.unknownField name .lookup)
  | .refresh => .ok (.changes (f.wiring.history Wiring.maxPasses (f.wiring.reactedAll f.table)))
  | .commit => .ok .done
  | .validate => .ok (.violations f.violations)

/-- A call changes nothing but the fields. -/
theorem call_eq (h : IsOf d f) (c : Call) :
    f.call c = ({ f with table := f.after c }, f.answer c) := by
  cases c with
  | set name v =>
    by_cases hname : name ∈ f.table.names
    · rw [call, set_of_mem h hname, after, if_pos hname, answer, if_pos hname]
      rfl
    · rw [call, set_eq_setWithin, setWithin_of_not_mem hname, after, if_neg hname, answer,
        if_neg hname]
      rfl
  | resetToBaseline name =>
    by_cases hname : name ∈ f.table.names
    · rw [call, resetToBaseline_of_mem h hname, after, if_pos hname, answer, if_pos hname]
      rfl
    · rw [call, resetToBaseline_of_not_mem hname, after, if_neg hname, answer, if_neg hname]
      rfl
  | load stored =>
    rw [call, load_eq h]
    rfl
  | setChoices name choices =>
    by_cases hname : name ∈ f.table.names
    · rw [call, setChoices_of_mem h hname, after, if_pos hname, answer, if_pos hname]
      rfl
    · rw [call, setChoices_of_not_mem hname, after, if_neg hname, answer, if_neg hname]
      rfl
  | refresh =>
    rw [call, refresh_eq h]
    rfl
  | commit => rfl
  | validate => rfl

theorem call_eq_after (h : IsOf d f) (c : Call) : (f.call c).1 = { f with table := f.after c } := by
  rw [call_eq h]

theorem declarations_after (f : Form) (c : Call) :
    (f.after c).declarations = f.table.declarations := by
  cases c with
  | set name v =>
    rw [after]
    split
    · rw [Wiring.declarations_settled, FieldTable.declarations_putValue]
    · rfl
  | resetToBaseline name =>
    rw [after]
    split
    · rw [Wiring.declarations_refreshed, Wiring.declarations_settled,
        FieldTable.declarations_reset]
    · rfl
  | load stored =>
    rw [after, (FieldTable.alike_commit _).declarations, Wiring.declarations_refreshed,
      FieldTable.declarations_restored]
  | setChoices name choices =>
    rw [after]
    split
    · rw [Wiring.declarations_settled, declarations_offering]
    · rfl
  | refresh => rw [after, Wiring.declarations_refreshed]
  | commit => rw [after, (FieldTable.alike_commit _).declarations]
  | validate => rw [after, (FieldTable.alike_mark _ _).declarations]

theorem pending_after (h : IsOf d f) (c : Call) : (f.after c).pending = [] := by
  cases c with
  | set name v =>
    rw [after]
    split
    · rfl
    · exact h.pending
  | resetToBaseline name =>
    rw [after]
    split
    · rfl
    · exact h.pending
  | load stored => rfl
  | setChoices name choices =>
    rw [after]
    split
    · rfl
    · exact h.pending
  | refresh => rfl
  | commit => exact h.pending
  | validate => exact (FieldTable.alike_mark _ _).pending.trans h.pending

theorem IsOf.call (h : IsOf d f) (c : Call) : IsOf d (f.call c).1 := by
  rw [call_eq_after h]
  exact h.with_table (declarations_after f c) (pending_after h c)

theorem IsOf.set (h : IsOf d f) (name : String) (v : Value) : IsOf d (f.set name v).1 :=
  h.call (.set name v)

/-- What every call keeps is kept by a whole run. -/
theorem run_induct {P : Form → Prop} (hstep : ∀ g, IsOf d g → P g → ∀ c, P (g.call c).1)
    (h : IsOf d f) (hf : P f) (calls : List Call) : P (f.run calls) := by
  induction calls generalizing f with
  | nil => exact hf
  | cons c calls ih =>
    rw [run_cons]
    exact ih (h.call c) (hstep f h hf c)

theorem IsOf.run (h : IsOf d f) (calls : List Call) : IsOf d (f.run calls) :=
  run_induct (fun _ hg _ => hg.call) h h calls

theorem isOf_of_reachable (h : Reachable d f) : IsOf d f := by
  obtain ⟨form, calls, hbuild, rfl⟩ := h
  exact (isOf_of_build hbuild).run calls

end Runs

end Form

end FormConsole
