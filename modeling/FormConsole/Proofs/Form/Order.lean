import FormConsole.Proofs.Form.Override
import FormConsole.Proofs.Rule.Order

/-!
# The order of rules cannot be observed

Two wirings with the same cascades whose rules watch the same fields and do the same to every table make the
same passes, so that every call leaves the same fields and answers the same. The rules of an accepted
definition in another order are such rules.

* `Wiring.Alike`: wirings that react in the same way; `Wiring.Alike.pass`, `Wiring.Alike.history`.
* `Form.call_of_alike`: forms that differ in such wirings only cannot be told apart by a call.
* `Form.run_of_reordered`: nor can they by a run of calls, if one definition is the other one with its rules in
  another order.
-/

namespace FormConsole

namespace Wiring

/-- The wirings react in the same way to every change of every table. -/
structure Alike (w w' : Wiring) : Prop where
  cascades : w'.cascades = w.cascades
  watches : ∀ name, w'.rules.watches name = w.rules.watches name
  evaluated : ∀ t, w'.rules.evaluated t = w.rules.evaluated t

namespace Alike

variable {w w' : Wiring}

theorem reacted (h : w.Alike w') (changed : List String) (t : FieldTable) :
    w'.reacted changed t = w.reacted changed t := by
  have hwatches : w'.rules.watches = w.rules.watches := funext h.watches
  simp only [Wiring.reacted, Wiring.awakened, Wiring.ruled, h.cascades, hwatches, h.evaluated]

theorem reactedAll (h : w.Alike w') (t : FieldTable) : w'.reactedAll t = w.reactedAll t := by
  rw [Wiring.reactedAll, Wiring.reactedAll, h.cascades, h.evaluated]

theorem pass (h : w.Alike w') : w'.pass = w.pass := by
  funext t
  rw [Wiring.pass, Wiring.pass, h.reacted]

theorem history (h : w.Alike w') (n : Nat) (t : FieldTable) : w'.history n t = w.history n t := by
  induction n generalizing t with
  | zero => rfl
  | succ n ih => rw [Wiring.history, Wiring.history, h.pass, ih]

theorem settled (h : w.Alike w') (t : FieldTable) : w'.settled t = w.settled t := by
  rw [Wiring.settled, Wiring.settled, h.pass]

theorem refreshed (h : w.Alike w') (t : FieldTable) : w'.refreshed t = w.refreshed t := by
  rw [Wiring.refreshed, Wiring.refreshed, h.reactedAll, h.settled]

end Alike

end Wiring

namespace Definition

/-- The same definition with its rules in another order, each of them with its targets and its conditions in
another order. -/
structure Reordered (d d' : Definition) : Prop where
  rules : d.rules.Reordered d'.rules
  rest : d' = { d with rules := d'.rules }

namespace Reordered

variable {d d' : Definition}

theorem alike (h : d.Reordered d') (hapart : d.rules.Pairwise Rule.Apart) :
    d.wiring.Alike d'.wiring := by
  refine ⟨?_, h.rules.watches_eq, h.rules.evaluated hapart⟩
  rw [h.rest]
  rfl

theorem checkParts (h : d.Reordered d') {t : FieldTable} (hparts : d.checkParts t = .ok ()) :
    d'.checkParts t = .ok () := by
  obtain ⟨hrules, hcascades, hchecks⟩ := Form.checkParts_eq_ok_iff.mp hparts
  refine Form.checkParts_eq_ok_iff.mpr ⟨h.rules.check hrules, ?_, ?_⟩
  · rw [h.rest]
    exact hcascades
  · rw [h.rest]
    exact hchecks

end Reordered

end Definition

namespace Form

/-! ## Calls on forms with alike wirings -/

section Alike

variable {d d' : Definition} {f : Form} {w : Wiring}

theorem after_of_alike (h : f.wiring.Alike w) (c : Call) :
    ({ f with wiring := w } : Form).after c = f.after c := by
  cases c with
  | set name v => simp only [after, h.settled]
  | resetToBaseline name => simp only [after, h.settled, h.refreshed]
  | load stored => simp only [after, h.refreshed]
  | setChoices name choices => simp only [after, h.settled]
  | refresh => simp only [after, h.refreshed]
  | commit => rfl
  | validate => rfl

theorem answer_of_alike (h : f.wiring.Alike w) (c : Call) :
    ({ f with wiring := w } : Form).answer c = f.answer c := by
  cases c with
  | set name v => simp only [answer, h.history]
  | resetToBaseline name => simp only [answer, h.history, h.reactedAll, h.settled]
  | load stored => rfl
  | setChoices name choices => simp only [answer, h.history]
  | refresh => simp only [answer, h.history, h.reactedAll]
  | commit => rfl
  | validate => rfl

/-- A call cannot tell alike wirings apart. -/
theorem call_of_alike (hf : IsOf d f) (hf' : IsOf d' { f with wiring := w })
    (h : f.wiring.Alike w) (c : Call) :
    ({ f with wiring := w } : Form).call c =
      ({ (f.call c).1 with wiring := w }, (f.call c).2) := by
  rw [call_eq hf', call_eq hf, after_of_alike h, answer_of_alike h]

theorem run_of_alike (hf : IsOf d f) (hf' : IsOf d' { f with wiring := w })
    (h : f.wiring.Alike w) (calls : List Call) :
    ({ f with wiring := w } : Form).run calls = { f.run calls with wiring := w } := by
  induction calls generalizing f with
  | nil => rfl
  | cons c calls ih =>
    have hcall := call_of_alike hf hf' h c
    have hnext : IsOf d' { (f.call c).1 with wiring := w } := by
      have := hf'.call c
      rwa [hcall] at this
    have hwiring : (f.call c).1.wiring.Alike w := by
      rwa [(call_static f c).2.1]
    rw [run_cons, run_cons, hcall]
    exact ih (hf.call c) hnext hwiring

end Alike

/-! ## Definitions with their rules in another order -/

section Reordered

variable {d d' : Definition} {form : Form}

theorem build_of_reordered (hbuild : build d = .ok form) (h : d.Reordered d') :
    build d' = .ok { form with wiring := d'.wiring } := by
  have hof := isOf_of_build hbuild
  obtain ⟨hnodup, hparts, rfl⟩ := build_eq_ok_iff.mp hbuild
  have hdeclared : d'.declared = d.declared := by
    rw [h.rest]
    rfl
  have halike : d.wiring.Alike d'.wiring := h.alike (fits_of_checkParts hparts).2
  refine build_eq_ok_iff.mpr ⟨?_, ?_, ?_⟩
  · rw [h.rest]
    exact hnodup
  · rw [hdeclared]
    exact h.checkParts hparts
  · rw [Definition.opened, Definition.opened, hdeclared, halike.refreshed, initial, initial, h.rest]
    rfl

/-- Rules are declarative.  A definition that is accepted is accepted with its rules, and within them the targets
and the conditions, in any other order.  After any calls the two forms agree on all but the order of their
rules, and every further call answers the same. -/
theorem run_of_reordered (hbuild : build d = .ok form) (h : d.Reordered d') :
    ∃ form', build d' = .ok form' ∧ ∀ calls : List Call,
      form'.run calls = { form.run calls with wiring := d'.wiring } ∧
      (form'.run calls).violations = (form.run calls).violations ∧
      ∀ c : Call, ((form'.run calls).call c).2 = ((form.run calls).call c).2 := by
  have hof := isOf_of_build hbuild
  have hbuild' := build_of_reordered hbuild h
  have hof' := isOf_of_build hbuild'
  have halike : ∀ f, IsOf d f → f.wiring.Alike d'.wiring := by
    intro f hf
    have hapart : d.rules.Pairwise Rule.Apart := by
      have := hf.apart
      rwa [hf.wiring] at this
    rw [hf.wiring]
    exact h.alike hapart
  refine ⟨_, hbuild', fun calls => ?_⟩
  have hrun := run_of_alike hof hof' (halike form hof) calls
  have hofrun : IsOf d' { form.run calls with wiring := d'.wiring } := by
    rw [← hrun]
    exact hof'.run calls
  refine ⟨hrun, ?_, fun c => ?_⟩
  · rw [hrun]
    rfl
  · rw [hrun, call_of_alike (hof.run calls) hofrun (halike _ (hof.run calls))]

/-- A small bond with its rules, their targets and their conditions backwards. -/
def backwardBond : Definition :=
  { smallBond with rules := smallBond.rules.reverse.map Rule.backward }

/-- After the method became static, a reset of it reports the same changes of the address fields. -/
theorem run_backwardBond : build smallBond = .ok smallBond.opened ∧
    smallBond.Reordered backwardBond ∧ ∃ form', build backwardBond = .ok form' ∧
      ((form'.run [.set "method" (.text "static")]).call (.resetToBaseline "method")).2 =
        ((smallBond.opened.run [.set "method" (.text "static")]).call
          (.resetToBaseline "method")).2 := by
  have hreordered : smallBond.Reordered backwardBond := ⟨RuleSet.reordered_backward _, rfl⟩
  obtain ⟨form', hbuild', hruns⟩ := run_of_reordered build_smallBond hreordered
  exact ⟨build_smallBond, hreordered, form', hbuild', (hruns _).2.2 _⟩

end Reordered

end Form

end FormConsole
