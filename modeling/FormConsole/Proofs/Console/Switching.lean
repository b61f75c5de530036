import FormConsole.Proofs.Console.Bond
import FormConsole.Proofs.Console.Marks

/-!
# Changing the panel

A key that asks for another panel makes five calls of the data layer.  If one of them fails, the key answers with the first
failure and the console is what it was, so that it could have been left out of whatever was pressed; if none fails, the
panel opens, since its definition is accepted and any stored values can be loaded.

* `Source.failures`: why the calls for a panel fail; `Source.failure?_openPanel` says that the panel fails to open for no
  other reason.
* `Console.trace`: the states that keys lead to, with the answers.
* `Console.answered`: the keys that the data layer does not fail; by `Console.trace_answered` and `Console.run_answered` the
  other ones make no difference.
* `Console.switch_atomic`: the change of the panel, made as a whole or not at all.
-/

namespace FormConsole

/-! ## Failures of the data layer -/

namespace Source

section Failures

/-- Why a call fails, if it does. -/
def failure? {α : Type} : Except SourceError α → Option SourceError
  | .ok _ => none
  | .error e => some e

variable (s : Source) (now : TimeOfDay) (p : Panel)

/-- Why the calls fail that opening a panel makes, in order. -/
def failures : List SourceError :=
  [failure? s.bondSlaves, failure? s.vlanDevices, failure? s.shells, failure? s.groups,
    failure? (s.stored p)].filterMap id

theorem head?_filterMap_cons (o : Option SourceError) (os : List (Option SourceError)) :
    ((o :: os).filterMap id).head? = o.or (os.filterMap id).head? := by
  cases o with
  | none => rfl
  | some e => rfl

/-- One call after another fails for the first failure. -/
theorem failure?_bind {α β : Type} {call : Except SourceError α} {rest : α → Except SourceError β}
    {o : Option SourceError} (h : ∀ a, failure? (rest a) = o) : failure? (call >>= rest) = (failure? call).or o := by
  cases call with
  | error e => rfl
  | ok a => exact h a

/-- A panel fails to open for the first failure of a call, and for no other reason. -/
theorem failure?_openPanel : failure? (s.openPanel now p) = (s.failures p).head? := by
  have hopen : ∀ candidates stored,
      failure? ((openForm (p.definition (setting candidates stored now)) stored).mapError SourceError.form) = none := by
    intro candidates stored
    rw [openForm_of_build (p.build_definition (setting candidates stored now)) stored]
    rfl
  have hstored : ∀ candidates, failure? (do
      let stored ← s.stored p
      (openForm (p.definition (setting candidates stored now)) stored).mapError SourceError.form) =
        failure? (s.stored p) := by
    intro candidates
    rw [failure?_bind (hopen candidates), Option.or_none]
  have hcandidates : failure? s.fetchCandidates = (failure? s.bondSlaves).or ((failure? s.vlanDevices).or
      ((failure? s.shells).or (failure? s.groups))) := by
    refine failure?_bind fun _ => failure?_bind fun _ => failure?_bind fun _ => ?_
    rw [failure?_bind (o := none) (by intro _; rfl), Option.or_none]
  rw [openPanel, failure?_bind hstored, hcandidates]
  simp only [failures, head?_filterMap_cons, List.filterMap_nil, List.head?_nil, Option.or_none, Option.or_assoc]

end Failures

end Source

/-! ## Keys that the data layer fails -/

namespace Console

section Trace

variable {c : Console} {around : Surroundings} {key : Key}

/-- The data layer failed a key. -/
def sourceFailed : Except ConsoleError Unit → Bool
  | .error (.source _) => true
  | _ => false

/-- The states that keys lead to, each with the answer to the key. -/
def trace (c : Console) : List (Surroundings × Key) → List (Console × Except ConsoleError Unit)
  | [] => []
  | k :: keys => c.press k.1 k.2 :: (c.press k.1 k.2).1.trace keys

/-- The keys that the data layer does not fail. -/
def answered (c : Console) : List (Surroundings × Key) → List (Surroundings × Key)
  | [] => []
  | k :: keys =>
    if sourceFailed (c.press k.1 k.2).2 then (c.press k.1 k.2).1.answered keys
    else k :: (c.press k.1 k.2).1.answered keys

theorem sourceFailed_finishEdit {α : Type} (r : Form × Except FormError α) :
    sourceFailed (c.finishEdit r).2 = false := by
  obtain ⟨form, answer⟩ := r
  cases answer with
  | ok a => rfl
  | error e => rfl

theorem sourceFailed_resetActive : sourceFailed c.resetActive.2 = false := by
  unfold resetActive
  split
  · rfl
  · exact sourceFailed_finishEdit _

theorem sourceFailed_editActive (code : KeyCode) : sourceFailed (c.editActive code).2 = false := by
  unfold editActive
  split
  · rfl
  · split
    · rfl
    · split
      · rfl
      · unfold editField
        split
        · rfl
        · exact sourceFailed_finishEdit _

/-- The data layer fails only keys that ask for another panel. -/
theorem exists_target?_of_sourceFailed (h : sourceFailed (c.press around key).2 = true) :
    ∃ p, key.target? c.panel = some p := by
  obtain ⟨code, control⟩ := key
  unfold press at h
  dsimp only at h
  split at h
  · cases h
  · exact ⟨_, rfl⟩
  · exact ⟨_, rfl⟩
  -- the keys that move the focus
  · cases h
  · cases h
  · cases h
  · cases h
  · split at h
    · cases h
    · rw [sourceFailed_editActive] at h
      cases h
  · split at h
    · rw [sourceFailed_resetActive] at h
      cases h
    · rw [sourceFailed_editActive] at h
      cases h
  · rw [sourceFailed_editActive] at h
    cases h

/-- A key that the data layer fails changes nothing. -/
theorem press_of_sourceFailed (h : sourceFailed (c.press around key).2 = true) :
    (c.press around key).1 = c := by
  obtain ⟨p, htarget⟩ := exists_target?_of_sourceFailed h
  rw [press_of_target? htarget, switchPanel] at h ⊢
  cases hopen : around.source.openPanel around.now p with
  | error e => rfl
  | ok form =>
    rw [hopen] at h
    cases h

/-- Keys that the data layer fails could as well not have been pressed: without them, the other keys lead to the same
states, and are answered alike. -/
theorem trace_answered (c : Console) (keys : List (Surroundings × Key)) :
    c.trace (c.answered keys) = (c.trace keys).filter fun seen => !sourceFailed seen.2 := by
  induction keys generalizing c with
  | nil => rfl
  | cons k keys ih =>
    rw [answered, trace]
    by_cases hfailed : sourceFailed (c.press k.1 k.2).2 = true
    · rw [if_pos hfailed, List.filter_cons_of_neg (by simpa using hfailed), ← ih,
        press_of_sourceFailed hfailed]
    · rw [if_neg hfailed, trace, List.filter_cons_of_pos (by simpa using hfailed), ih]

theorem run_answered (c : Console) (keys : List (Surroundings × Key)) : c.run (c.answered keys) = c.run keys := by
  induction keys generalizing c with
  | nil => rfl
  | cons k keys ih =>
    rw [answered, run_cons]
    by_cases hfailed : sourceFailed (c.press k.1 k.2).2 = true
    · rw [if_pos hfailed, ← ih, press_of_sourceFailed hfailed]
    · rw [if_neg hfailed, run_cons, ih]

end Trace

/-! ## The change of the panel -/

section Switch

variable {p : Panel}

/-- What a key that asks for a panel does. -/
theorem switchPanel_eq (c : Console) (around : Surroundings) (p : Panel) :
    (∃ e, (around.source.failures p).head? = some e ∧ c.switchPanel around p = (c, .error (.source e))) ∨
    (around.source.failures p = [] ∧ ∃ form, form.isDirty = false ∧ c.switchPanel around p =
      ({ c with form := form, panel := p, violations := [], cursor := 0, status := none }, .ok ())) := by
  have hfails := Source.failure?_openPanel around.source around.now p
  unfold switchPanel
  cases hopen : around.source.openPanel around.now p with
  | error e =>
    rw [hopen] at hfails
    exact Or.inl ⟨e, hfails.symm, rfl⟩
  | ok form =>
    rw [hopen] at hfails
    obtain ⟨candidates, stored, -, -, hform⟩ := Source.openPanel_eq_ok_iff.mp hopen
    have hclean : form.isDirty = false := by
      rw [hform]
      exact Definition.isDirty_filled (p.build_definition _) stored
    exact Or.inr ⟨List.head?_eq_none_iff.mp hfails.symm, form, hclean, rfl⟩

/-- A panel is changed as a whole or not at all, whatever the state is and whichever calls of the data layer fail.  The key
answers with the first failure if there is one.  Then the console is what it was, so that all later keys lead to the same
states and answers as without that key.  If there is none, then nothing is refused, and the other panel shows a form that
differs in nothing from what is saved, with no violations, no feedback and the cursor at the first choice. -/
theorem switch_atomic (c : Console) (around : Surroundings) (key : Key)
    (hcode : key.code = .function 2 ∧ p = c.panel.prev ∨ key.code = .function 3 ∧ p = c.panel.next) :
    (c.press around key).2 = (match (around.source.failures p).head? with
      | some e => .error (.source e)
      | none => .ok ()) ∧
    (∀ e, (c.press around key).2 = .error e → (c.press around key).1 = c ∧
      ∀ keys, (c.press around key).1.trace keys = c.trace keys ∧ (c.press around key).1.run keys = c.run keys) ∧
    ((c.press around key).2 = .ok () → (c.press around key).1.panel = p ∧
      (c.press around key).1.violations = [] ∧ (c.press around key).1.cursor = 0 ∧
      (c.press around key).1.status = none ∧ (c.press around key).1.form.isDirty = false ∧
      (c.press around key).1.quit = c.quit ∧ (c.press around key).1.config = c.config) := by
  have htarget : key.target? c.panel = some p := by
    rcases hcode with ⟨hcode, rfl⟩ | ⟨hcode, rfl⟩
    · rw [Key.target?, hcode]
      rfl
    · rw [Key.target?, hcode]
      rfl
  rw [press_of_target? htarget]
  rcases c.switchPanel_eq around p with ⟨e, hfailure, heq⟩ | ⟨hnone, form, hclean, heq⟩
  · rw [heq, hfailure]
    exact ⟨rfl, fun _ _ => ⟨rfl, fun _ => ⟨rfl, rfl⟩⟩, fun hok => absurd hok (by simp)⟩
  · rw [heq, hnone]
    exact ⟨rfl, fun _ herror => absurd herror (by simp), fun _ => ⟨rfl, rfl, rfl, rfl, hclean, rfl, rfl⟩⟩

/-- The data layer of the sample, without shells and groups. -/
def brokenSource : Source :=
  { Source.ofFixture .sample with shells := .error .malformed, groups := .error .unreadable }

/-- The stored bond of the sample, with another mode that is not saved. -/
def editedConsole : Console := sampleConsole.run modeKeys

/-- The change is kept as long as the next panel does not open, and given up when it does. -/
theorem switch_atomic_edited : editedConsole.form.isDirty = true ∧
    (editedConsole.press ⟨brokenSource, .midnight⟩ (.plain (.function 3))).2 = .error (.source .malformed) ∧
    (editedConsole.press ⟨brokenSource, .midnight⟩ (.plain (.function 3))).1 = editedConsole ∧
    (editedConsole.press ⟨.ofFixture .sample, .midnight⟩ (.plain (.function 3))).2 = .ok () ∧
    (editedConsole.press ⟨.ofFixture .sample, .midnight⟩ (.plain (.function 3))).1.form.isDirty = false := by
  have hpanel : editedConsole.panel.next = .interface .vlan := by decide +kernel
  have hbroken : (brokenSource.failures (.interface .vlan)).head? = some .malformed := by decide +kernel
  have hwhole : ((Source.ofFixture .sample).failures (.interface .vlan)).head? = none := by decide +kernel
  obtain ⟨hfails, hkept, -⟩ := switch_atomic editedConsole ⟨brokenSource, .midnight⟩ (.plain (.function 3))
    (Or.inr ⟨rfl, hpanel.symm⟩)
  obtain ⟨hopens, -, hopened⟩ := switch_atomic editedConsole ⟨.ofFixture .sample, .midnight⟩ (.plain (.function 3))
    (Or.inr ⟨rfl, hpanel.symm⟩)
  rw [hbroken] at hfails
  rw [hwhole] at hopens
  obtain ⟨hsame, -⟩ := hkept (.source .malformed) hfails
  obtain ⟨-, -, -, -, hclean, -⟩ := hopened hopens
  have hdirty : editedConsole.form.isDirty = true := by decide +kernel
  exact ⟨hdirty, hfails, hsame, hopens, hclean⟩

end Switch

end Console

end FormConsole
