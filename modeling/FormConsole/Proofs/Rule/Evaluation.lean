import FormConsole.Proofs.Rule.Ascending
import FormConsole.Proofs.Rule.Conflict

/-!
# What an evaluation of rules does

An evaluation gives every claim the state of the last write of the rules that hold, or the baseline of its
field. Among sound rules at most one that holds writes a claim, so that the last write is the last operation
of that rule.

* `lastWrite?_of_holds`, `lastWrite?_of_silent`: the last write for a claim.
* `RuleSet.evaluated`, `RuleSet.moved`: an evaluation as a function on tables, and the claims that it gives another
  state; `RuleSet.field?_foldl_putState` says what it does.
* `RuleSet.Aligned`: every claim has the state that the rules ask for; `RuleSet.aligned_evaluated`,
  `RuleSet.evaluated_of_aligned`.
* `RuleSet.Abreast`: the claims are aligned unless a watched value changed; values and choices may be written
  without breaking it.
-/

namespace FormConsole

/-! ## The last write for a claim -/

section LastWrite

variable {rules : RuleSet} {r : Rule} {t : FieldTable} {c : Claim}

theorem lastWrite?_append (ws vs : List (Claim × Bool)) (c : Claim) :
    lastWrite? (ws ++ vs) c = (lastWrite? vs c).or (lastWrite? ws c) := by
  simp only [lastWrite?, List.filter_append, List.getLast?_append]
  cases ((vs.filter fun w => w.1 == c).getLast?) <;> rfl

theorem lastWrite?_eq_none {ws : List (Claim × Bool)} (h : c ∉ ws.map (·.1)) :
    lastWrite? ws c = none := by
  rw [lastWrite?, List.filter_eq_nil_iff.mpr]
  · rfl
  · intro w hw hc
    exact h (List.mem_map.mpr ⟨w, hw, by simpa using hc⟩)

/-- The state that the last operation of a rule on a property asks for. -/
def Rule.lastState? (r : Rule) (p : Property) : Option Bool :=
  ((r.ops.filter fun op => op.property == p).getLast?).map (·.state)

theorem Rule.mem_claims {name : String} {p : Property} :
    (⟨name, p⟩ : Claim) ∈ r.claims ↔ name ∈ r.targets ∧ ∃ op ∈ r.ops, op.property = p := by
  simp only [Rule.claims, List.mem_flatMap, List.mem_map, Claim.mk.injEq]
  constructor
  · rintro ⟨target, htarget, op, hop, rfl, hp⟩
    exact ⟨htarget, op, hop, hp⟩
  · rintro ⟨htarget, op, hop, hp⟩
    exact ⟨name, htarget, op, hop, rfl, hp⟩

/-- A rule claims a property of its targets if it has an operation for the property. -/
theorem Rule.mem_claims_iff {name : String} {p : Property} :
    (⟨name, p⟩ : Claim) ∈ r.claims ↔ name ∈ r.targets ∧ ∃ b, r.lastState? p = some b := by
  have hops : (∃ op ∈ r.ops, op.property = p) ↔ ∃ b, r.lastState? p = some b := by
    rw [← Option.isSome_iff_exists, Rule.lastState?, Option.isSome_map, List.getLast?_isSome]
    constructor
    · rintro ⟨op, hop, hp⟩
      exact List.ne_nil_of_mem (List.mem_filter.mpr ⟨hop, by simpa using hp⟩)
    · intro hne
      obtain ⟨op, hop⟩ := List.exists_mem_of_ne_nil _ hne
      obtain ⟨hop, hp⟩ := List.mem_filter.mp hop
      exact ⟨op, hop, by simpa using hp⟩
  rw [Rule.mem_claims, hops]

/-- What a rule writes for one of its targets. -/
def Rule.writesFor (r : Rule) (target : String) : List (Claim × Bool) :=
  r.ops.map fun op => (⟨target, op.property⟩, op.state)

theorem lastWrite?_writesFor (target : String) (p : Property) :
    lastWrite? (r.writesFor target) ⟨target, p⟩ = r.lastState? p := by
  rw [lastWrite?, Rule.writesFor, List.filter_map, List.getLast?_map, Option.map_map,
    Rule.lastState?]
  have hp : ((fun w : Claim × Bool => w.1 == ⟨target, p⟩) ∘
      fun op : PropertyOp => ((⟨target, op.property⟩ : Claim), op.state)) =
      fun op => op.property == p := by
    funext op
    rw [Bool.eq_iff_iff]
    simp
  rw [hp]
  rfl

theorem lastWrite?_writesFor_of_ne {target other : String} (h : other ≠ target) (p : Property) :
    lastWrite? (r.writesFor other) ⟨target, p⟩ = none := by
  refine lastWrite?_eq_none ?_
  rw [Rule.writesFor, List.map_map, List.mem_map]
  rintro ⟨op, -, hop⟩
  exact h (Claim.mk.inj hop).1

/-- The last write of a rule for one of its targets is its last operation. -/
theorem lastWrite?_writes {target : String} (h : target ∈ r.targets) (p : Property) :
    lastWrite? r.writes ⟨target, p⟩ = r.lastState? p := by
  show lastWrite? (r.targets.flatMap r.writesFor) _ = _
  generalize r.targets = ns at h ⊢
  induction ns with
  | nil => simp at h
  | cons n ns ih =>
    rw [List.flatMap_cons, lastWrite?_append]
    by_cases hn : n = target
    · subst hn
      rw [lastWrite?_writesFor]
      by_cases htail : n ∈ ns
      · rw [ih htail, Option.or_self]
      · have hnone : lastWrite? (ns.flatMap r.writesFor) ⟨n, p⟩ = none := by
          refine lastWrite?_eq_none ?_
          simp only [List.mem_map, List.mem_flatMap, Rule.writesFor, not_exists, not_and]
          rintro w ⟨m, hm, op, -, rfl⟩ hw
          exact htail ((Claim.mk.inj hw).1 ▸ hm)
        rw [hnone, Option.none_or]
    · rw [lastWrite?_writesFor_of_ne hn, Option.or_none]
      exact ih ((List.mem_cons.mp h).resolve_left fun h => hn h.symm)

/-- All that the rules that hold write. -/
def RuleSet.applied (rules : RuleSet) (t : FieldTable) : List (Claim × Bool) :=
  (rules.filter fun r => r.Holds t).flatMap Rule.writes

/-- If no rule that claims a property holds, it is not written. -/
theorem lastWrite?_of_silent (h : ∀ r ∈ rules, r.Holds t → c ∉ r.claims) :
    lastWrite? (rules.applied t) c = none := by
  refine lastWrite?_eq_none ?_
  rw [RuleSet.applied, List.map_flatMap]
  simp only [Rule.map_fst_writes, List.mem_flatMap, List.mem_filter, decide_eq_true_eq, not_exists,
    not_and]
  rintro r ⟨hr, hholds⟩
  exact h r hr hholds

/-- Among rules that share no claim, the one that claims a property has the last word on it. -/
theorem lastWrite?_flatMap_writes {rs : List Rule}
    (hrs : rs.Pairwise fun r s => ∀ d ∈ r.claims, d ∉ s.claims) (hr : r ∈ rs) (hc : c ∈ r.claims) :
    lastWrite? (rs.flatMap Rule.writes) c = lastWrite? r.writes c := by
  induction rs with
  | nil => simp at hr
  | cons s rs ih =>
    obtain ⟨hs, hrest⟩ := List.pairwise_cons.mp hrs
    rw [List.flatMap_cons, lastWrite?_append]
    rcases List.mem_cons.mp hr with rfl | hr
    · have hnone : lastWrite? (rs.flatMap Rule.writes) c = none := by
        refine lastWrite?_eq_none ?_
        rw [List.map_flatMap]
        simp only [Rule.map_fst_writes, List.mem_flatMap, not_exists, not_and]
        exact fun s hsmem => hs s hsmem c hc
      rw [hnone, Option.none_or]
    · have hnone : lastWrite? s.writes c = none := by
        refine lastWrite?_eq_none ?_
        rw [Rule.map_fst_writes]
        exact fun h => hs r hr c h hc
      rw [ih hrest hr, hnone, Option.or_none]

/-- The rule that claims a property and holds has the last word on it. -/
theorem lastWrite?_of_holds (hrules : rules.Pairwise Rule.Apart) (hr : r ∈ rules)
    (hholds : r.Holds t) (hc : c ∈ r.claims) :
    lastWrite? (rules.applied t) c = lastWrite? r.writes c := by
  refine lastWrite?_flatMap_writes ?_ (List.mem_filter.mpr ⟨hr, by simpa using hholds⟩) hc
  refine (hrules.filter _).imp_of_mem ?_
  intro q s hq hs hapart d hd hd'
  have hqholds : q.Holds t := by simpa using (List.mem_filter.mp hq).2
  have hsholds : s.Holds t := by simpa using (List.mem_filter.mp hs).2
  have := canOverlap_of_holds hqholds hsholds
  rw [hapart d hd hd'] at this
  simp at this

end LastWrite

namespace RuleSet

/-! ## An evaluation as a function -/

section Evaluated

variable {rules : RuleSet} {t : FieldTable} {ws : List (Claim × Bool)}

/-- The state of a property of a field after these writes: that of the last one, or the baseline. -/
def stateAfter (ws : List (Claim × Bool)) (f : Field) (p : Property) : Bool :=
  (lastWrite? ws ⟨f.name, p⟩).getD (f.decl.baseline.get p)

/-- The state of a claim after these writes. -/
def claimState (ws : List (Claim × Bool)) (t : FieldTable) (c : Claim) : Bool :=
  (lastWrite? ws c).getD ((t.baselineAt c.field).get c.property)

theorem claimState_of_field? {c : Claim} {f : Field} (hf : t.field? c.field = some f) :
    claimState ws t c = stateAfter ws f c.property := by
  rw [claimState, stateAfter, FieldTable.name_of_field? hf, FieldTable.baselineAt_of_field? hf]

/-- Gives a claim its state after these writes. -/
def putState (ws : List (Claim × Bool)) (t : FieldTable) (c : Claim) : FieldTable :=
  t.putConstraints c.field fun f => f.effective.set c.property (claimState ws t c)

/-- The table after an evaluation. -/
def evaluated (rules : RuleSet) (t : FieldTable) : FieldTable :=
  rules.claims.foldl (putState (rules.applied t)) t

theorem names_foldl_putState (cs : List Claim) (t : FieldTable) :
    (cs.foldl (putState ws) t).names = t.names := by
  induction cs generalizing t with
  | nil => rfl
  | cons c cs ih => rw [List.foldl_cons, ih, putState, FieldTable.names_putConstraints]

theorem valueAt_foldl_putState (cs : List Claim) (t : FieldTable) (name : String) :
    (cs.foldl (putState ws) t).valueAt name = t.valueAt name := by
  induction cs generalizing t with
  | nil => rfl
  | cons c cs ih => rw [List.foldl_cons, ih, putState, FieldTable.valueAt_putConstraints]

/-! ### Claims that move -/

/-- Whether a claim gets another state by these writes. -/
def moves (ws : List (Claim × Bool)) (t : FieldTable) (c : Claim) : Bool :=
  (t.effectiveAt c.field).get c.property != claimState ws t c

/-- The claims that an evaluation gives another state, in order. -/
def moved (rules : RuleSet) (t : FieldTable) : List Claim :=
  rules.claims.filter (moves (rules.applied t) t)

theorem field?_putState (c : Claim) (t : FieldTable) (name : String) :
    (putState ws t c).field? name = (t.field? name).map fun f =>
      if name = c.field then
        { f with effective := f.effective.set c.property (claimState ws t c) }
      else f :=
  FieldTable.field?_write (by intro f; rfl) name

theorem baselineAt_putState (c : Claim) (t : FieldTable) (name : String) :
    (putState ws t c).baselineAt name = t.baselineAt name := by
  rw [FieldTable.baselineAt, field?_putState, Option.map_map, FieldTable.baselineAt]
  congr 2
  funext f
  simp only [Function.comp_apply]
  split
  · rfl
  · rfl

/-- Giving a claim its state does not move another one. -/
theorem moves_putState_of_ne {c d : Claim} (h : d ≠ c) :
    moves ws (putState ws t c) d = moves ws t d := by
  have hstate : claimState ws (putState ws t c) d = claimState ws t d := by
    rw [claimState, baselineAt_putState, claimState]
  have heff : ((putState ws t c).effectiveAt d.field).get d.property =
      (t.effectiveAt d.field).get d.property := by
    rw [FieldTable.effectiveAt, field?_putState, FieldTable.effectiveAt]
    cases t.field? d.field with
    | none => rfl
    | some f =>
      by_cases hfield : d.field = c.field
      · have hp : c.property ≠ d.property := fun hp => h (by
          cases c
          cases d
          simp_all)
        simpa [hfield] using Constraints.get_set_of_ne f.effective _ hp
      · simp [hfield]
  rw [moves, hstate, heff, moves]

theorem filter_moves_putState {c : Claim} {cs : List Claim} (hc : c ∉ cs) :
    cs.filter (moves ws (putState ws t c)) = cs.filter (moves ws t) :=
  List.filter_congr fun _ hd => moves_putState_of_ne fun h => hc (h ▸ hd)

variable (ws) in
/-- A claim that is settled says whether it moved. -/
theorem run_settle_of_mem {c : Claim} (h : c.field ∈ t.names) :
    (settle ws c).run t = .ok (moves ws t c) (putState ws t c) := by
  obtain ⟨f, hf⟩ := FieldTable.mem_names_iff.mp h
  have hstate : required t ws c = .ok (claimState ws t c) := by
    rw [required, FieldTable.lookup, hf, claimState, FieldTable.baselineAt_of_field? hf]
    rfl
  rw [settle, Edit.run_bind_of_ok (Edit.run_ask_of_ok hstate)]
  exact Edit.run_override_of_mem h c.property (claimState ws t c)

/-- Claims that are settled one after the other answer with the fields of those that moved. -/
theorem run_settleAll_of_mem {cs : List Claim} (hnodup : cs.Nodup)
    (h : ∀ c ∈ cs, c.field ∈ t.names) : (settleAll ws cs).run t =
      .ok (Names.ofList ((cs.filter (moves ws t)).map (·.field))) (cs.foldl (putState ws) t) := by
  induction cs generalizing t with
  | nil => rfl
  | cons c cs ih =>
    obtain ⟨hc, hcs⟩ := List.nodup_cons.mp hnodup
    have hnames : (putState ws t c).names = t.names := FieldTable.names_putConstraints _
    have hrest := ih hcs (t := putState ws t c) fun d hd => by
      rw [hnames]
      exact h d (by simp [hd])
    rw [filter_moves_putState hc] at hrest
    rw [settleAll, Edit.run_bind_of_ok (run_settle_of_mem ws (h c (by simp))),
      Edit.run_bind_of_ok hrest, List.filter_cons]
    cases moves ws t c with
    | false => rfl
    | true => rfl

/-- One change is recorded for each claim that moved. -/
theorem pending_foldl_putState {cs : List Claim} (hnodup : cs.Nodup)
    (h : ∀ c ∈ cs, c.field ∈ t.names) : (cs.foldl (putState ws) t).pending =
      t.pending ++ (cs.filter (moves ws t)).map fun c => ⟨c.field, .constraints⟩ := by
  induction cs generalizing t with
  | nil => simp
  | cons c cs ih =>
    obtain ⟨hc, hcs⟩ := List.nodup_cons.mp hnodup
    have hnames : (putState ws t c).names = t.names := FieldTable.names_putConstraints _
    have hrest := ih hcs (t := putState ws t c) fun d hd => by
      rw [hnames]
      exact h d (by simp [hd])
    rw [List.foldl_cons, hrest, filter_moves_putState hc, putState,
      FieldTable.pending_override (h c (by simp)), List.filter_cons, moves]
    by_cases hstate : (t.effectiveAt c.field).get c.property = claimState ws t c
    · simp [hstate]
    · simp [hstate]

theorem satisfied_of_fits (h : rules.Fits t.names) :
    satisfied t rules = .ok (rules.filter fun r => r.Holds t) := by
  obtain ⟨-, hconditions⟩ := h
  induction rules with
  | nil => rfl
  | cons r rs ih =>
    rw [satisfied, Rule.isSatisfied_of_mem (hconditions r (by simp)),
      ih fun s hs => hconditions s (by simp [hs])]
    by_cases hr : r.Holds t
    · simp [bind, Except.bind, pure, Except.pure, hr]
    · simp [bind, Except.bind, pure, Except.pure, hr]

theorem mem_claims {c : Claim} : c ∈ rules.claims ↔ ∃ r ∈ rules, c ∈ r.claims := by
  rw [claims, Claim.mem_sorted, List.mem_flatMap]

theorem field_mem_of_claim (h : rules.Fits t.names) {c : Claim} (hc : c ∈ rules.claims) :
    c.field ∈ t.names := by
  obtain ⟨r, hr, hc⟩ := mem_claims.mp hc
  exact h.targets r hr c.field (Rule.mem_claims.mp hc).1

theorem nodup_claims (rules : RuleSet) : rules.claims.Nodup :=
  (Claim.ascending_sorted _).nodup

/-- An evaluation is not refused if all names that the rules mention are declared, and it answers with the fields
of the claims that moved. -/
theorem run_evaluate_moved (h : rules.Fits t.names) :
    rules.evaluate.run t = .ok (Names.ofList ((rules.moved t).map (·.field))) (rules.evaluated t) := by
  have htargets : ((rules.flatMap (·.targets)).forM fun name =>
      (t.lookup name).map fun _ => ()) = .ok () := by
    refine forM_eq_ok_iff.mpr fun name hname => ?_
    obtain ⟨r, hr, hname⟩ := List.mem_flatMap.mp hname
    obtain ⟨f, hf⟩ := FieldTable.mem_names_iff.mp (h.targets r hr name hname)
    rw [FieldTable.lookup, hf]
    rfl
  rw [evaluate, Edit.run_bind_of_ok (Edit.run_ask_of_ok (satisfied_of_fits h)),
    Edit.run_bind_of_ok (Edit.run_ask_of_ok htargets)]
  exact run_settleAll_of_mem (nodup_claims rules) fun c hc => field_mem_of_claim h hc

/-- An evaluation records one change for each claim that moved. -/
theorem pending_evaluated (h : rules.Fits t.names) : (rules.evaluated t).pending =
    t.pending ++ (rules.moved t).map fun c => ⟨c.field, .constraints⟩ :=
  pending_foldl_putState (nodup_claims rules) fun _ hc => field_mem_of_claim h hc

theorem run_evaluate (h : rules.Fits t.names) :
    ∃ changed, rules.evaluate.run t = .ok changed (rules.evaluated t) :=
  ⟨_, run_evaluate_moved h⟩

end Evaluated

/-! ## What an evaluation changes -/

section Effect

variable {rules : RuleSet} {t : FieldTable} {ws : List (Claim × Bool)} {name : String}

/-- The given claims get their states, and nothing else changes. -/
theorem field?_foldl_putState {cs : List Claim} {f' : Field}
    (hf' : (cs.foldl (putState ws) t).field? name = some f') :
    ∃ f, t.field? name = some f ∧ f' = { f with effective := f'.effective } ∧
      ∀ p, f'.effective.get p =
        if ⟨name, p⟩ ∈ cs then stateAfter ws f p else f.effective.get p := by
  induction cs generalizing t with
  | nil => exact ⟨f', hf', rfl, fun p => by simp⟩
  | cons c cs ih =>
    obtain ⟨g, hg, hrest, hget⟩ := ih hf'
    rw [field?_putState] at hg
    obtain ⟨f, hf, rfl⟩ := Option.map_eq_some_iff.mp hg
    by_cases hname : name = c.field
    · rw [if_pos hname] at hrest hget
      refine ⟨f, hf, hrest, fun p => ?_⟩
      rw [hget p]
      have hstate : claimState ws t c = stateAfter ws f c.property := claimState_of_field? (hname ▸ hf)
      by_cases htail : (⟨name, p⟩ : Claim) ∈ cs
      · rw [if_pos htail, if_pos (List.mem_cons_of_mem c htail)]
        rfl
      · rw [if_neg htail]
        by_cases hp : c.property = p
        · subst hp
          rw [if_pos (by simp [hname]), Constraints.get_set_self, hstate]
        · rw [Constraints.get_set_of_ne _ _ hp, if_neg]
          intro h
          rcases List.mem_cons.mp h with h | h
          · exact hp (congrArg Claim.property h).symm
          · exact htail h
    · rw [if_neg hname] at hrest hget
      refine ⟨f, hf, hrest, fun p => ?_⟩
      have hne : (⟨name, p⟩ : Claim) ≠ c := fun h => hname (congrArg Claim.field h)
      rw [hget p]
      simp only [List.mem_cons, hne, false_or]

theorem names_evaluated (rules : RuleSet) (t : FieldTable) :
    (rules.evaluated t).names = t.names :=
  names_foldl_putState rules.claims t

theorem declarations_evaluated (rules : RuleSet) (t : FieldTable) :
    (rules.evaluated t).declarations = t.declarations := by
  unfold evaluated
  generalize rules.applied t = ws
  induction rules.claims generalizing t with
  | nil => rfl
  | cons c cs ih => rw [List.foldl_cons, ih, putState, FieldTable.declarations_putConstraints]

theorem valueAt_evaluated (rules : RuleSet) (t : FieldTable) (name : String) :
    (rules.evaluated t).valueAt name = t.valueAt name :=
  valueAt_foldl_putState rules.claims t name

theorem choicesAt_evaluated (rules : RuleSet) (t : FieldTable) (name : String) :
    (rules.evaluated t).choicesAt name = t.choicesAt name := by
  unfold evaluated
  generalize rules.applied t = ws
  induction rules.claims generalizing t with
  | nil => rfl
  | cons c cs ih => rw [List.foldl_cons, ih, putState, FieldTable.choicesAt_putConstraints]

theorem news_evaluated (rules : RuleSet) (t : FieldTable) :
    (rules.evaluated t).news = t.news := by
  unfold evaluated
  generalize rules.applied t = ws
  induction rules.claims generalizing t with
  | nil => rfl
  | cons c cs ih => rw [List.foldl_cons, ih, putState, FieldTable.news_putConstraints]

theorem extends_putState (t : FieldTable) (c : Claim) : t.Extends (putState ws t c) :=
  FieldTable.extends_write ..

theorem extends_evaluated (rules : RuleSet) (t : FieldTable) : t.Extends (rules.evaluated t) :=
  FieldTable.extends_foldl extends_putState rules.claims t

end Effect

/-! ## Aligned constraints -/

section Aligned

variable {rules : RuleSet} {t t' : FieldTable}

theorem watches_iff {name : String} :
    rules.watches name = true ↔ ∃ r ∈ rules, ∃ c ∈ r.conditions, c.field = name := by
  rw [watches, List.contains_iff_mem, watched, Names.mem_ofList, List.mem_flatMap]
  simp only [List.mem_map]

/-- The rules that hold are the same for tables that agree on all watched values. -/
theorem applied_congr (h : ∀ n, rules.watches n = true → t'.valueAt n = t.valueAt n) :
    rules.applied t' = rules.applied t := by
  have hfilter : (rules.filter fun r => r.Holds t') = rules.filter fun r => r.Holds t := by
    refine List.filter_congr fun r hr => ?_
    have hholds : r.Holds t' ↔ r.Holds t :=
      Rule.holds_congr fun c hc => h c.field (watches_iff.mpr ⟨r, hr, c, hc, rfl⟩)
    simp only [hholds]
  rw [applied, applied, hfilter]

/-- Every claim has the state that the rules ask for under the values of the table. -/
def Aligned (rules : RuleSet) (t : FieldTable) : Prop :=
  ∀ c ∈ rules.claims, ∀ f, t.field? c.field = some f →
    f.effective.get c.property = stateAfter (rules.applied t) f c.property

/-- What no rule claims has the state of its baseline. -/
def Bare (rules : RuleSet) (t : FieldTable) : Prop :=
  ∀ name f, t.field? name = some f → ∀ p, ⟨name, p⟩ ∉ rules.claims →
    f.effective.get p = f.decl.baseline.get p

theorem aligned_evaluated (rules : RuleSet) (t : FieldTable) :
    rules.Aligned (rules.evaluated t) := by
  intro c hc f' hf'
  obtain ⟨f, hf, heq, hget⟩ := field?_foldl_putState hf'
  rw [hget, if_pos hc, applied_congr fun n _ => valueAt_evaluated rules t n, heq]
  rfl

/-- A rule that holds has its way with every property that it has an operation for. -/
theorem Aligned.effective_of_holds (h : rules.Aligned t) (hapart : rules.Pairwise Rule.Apart)
    {name : String} {f : Field} (hf : t.field? name = some f) {r : Rule} (hr : r ∈ rules)
    (htarget : name ∈ r.targets) {p : Property} {b : Bool} (hb : r.lastState? p = some b)
    (hholds : r.Holds t) : f.effective.get p = b := by
  have hclaim : (⟨name, p⟩ : Claim) ∈ r.claims := Rule.mem_claims_iff.mpr ⟨htarget, b, hb⟩
  have hstate := h ⟨name, p⟩ (mem_claims.mpr ⟨r, hr, hclaim⟩) f hf
  rw [stateAfter, FieldTable.name_of_field? hf, lastWrite?_of_holds hapart hr hholds hclaim,
    lastWrite?_writes htarget, hb] at hstate
  exact hstate

/-- If all claims have their states, an evaluation changes nothing. -/
theorem evaluated_of_aligned (h : rules.Aligned t) : rules.evaluated t = t := by
  refine FieldTable.foldl_eq_self fun c hc => ?_
  cases hf : t.field? c.field with
  | none => simp [putState, FieldTable.putConstraints, FieldTable.write, hf]
  | some f =>
    refine FieldTable.write_of_same hf (Edit.with_effective_eq_self_iff.mpr ?_)
    rw [h c hc f hf, claimState_of_field? hf]

theorem aligned_iff_evaluated_eq : rules.Aligned t ↔ rules.evaluated t = t :=
  ⟨evaluated_of_aligned, fun h => h ▸ aligned_evaluated rules t⟩

theorem Aligned.congr (h : rules.Aligned t) (hc : t.SameConstraints t')
    (hv : ∀ n, rules.watches n = true → t'.valueAt n = t.valueAt n) : rules.Aligned t' := by
  intro c hmem f' hf'
  obtain ⟨f, hf, hdecl, heff⟩ := hc.exists_field? hf'
  have := h c hmem f hf
  rw [← heff, this, applied_congr hv, stateAfter, stateAfter, Field.name, Field.name, hdecl]

theorem Aligned.drain (h : rules.Aligned t) : rules.Aligned t.drain := h

theorem Bare.drain (h : rules.Bare t) : rules.Bare t.drain := h

theorem Bare.congr (h : rules.Bare t) (hc : t.SameConstraints t') : rules.Bare t' := by
  intro name f' hf' p hp
  obtain ⟨f, hf, hdecl, heff⟩ := hc.exists_field? hf'
  rw [← heff, ← hdecl, h name f hf p hp]

theorem bare_evaluated (h : rules.Bare t) : rules.Bare (rules.evaluated t) := by
  intro name f' hf' p hp
  obtain ⟨f, hf, heq, hget⟩ := field?_foldl_putState hf'
  rw [hget, if_neg hp, heq]
  exact h name f hf p hp

end Aligned

/-! ## Aligned unless something watched changed -/

section Abreast

variable {rules : RuleSet} {t t' : FieldTable} {name : String}

/-- The constraints are aligned unless a watched value changed and was not dealt with. -/
def Abreast (rules : RuleSet) (t : FieldTable) : Prop :=
  (∀ n ∈ t.news, rules.watches n = false) → rules.Aligned t

theorem Aligned.abreast (h : rules.Aligned t) : rules.Abreast t := fun _ => h

theorem Abreast.aligned (h : rules.Abreast t) (hquiet : t.news = []) : rules.Aligned t := by
  refine h fun n hn => ?_
  rw [hquiet] at hn
  exact absurd hn List.not_mem_nil

theorem Abreast.putValue (h : rules.Abreast t) (hmem : name ∈ t.names) (v : Value) :
    rules.Abreast (t.putValue name v) := by
  intro hnews
  rw [FieldTable.news_putValue v hmem] at hnews
  have hold : ∀ n ∈ t.news, rules.watches n = false :=
    fun n hn => hnews n (List.mem_append_left _ hn)
  refine (h hold).congr (FieldTable.sameConstraints_putValue v) fun n hn => ?_
  rw [FieldTable.valueAt_putValue v n hmem]
  split
  · next heq =>
    -- a watched value that changed would be among the news
    by_contra hne
    subst heq
    have := hnews n (by rw [if_neg fun h => hne h.symm]; simp)
    rw [hn] at this
    simp at this
  · rfl

theorem Abreast.putChoices (h : rules.Abreast t) (choices : List Choice) :
    rules.Abreast (t.putChoices name choices) := by
  intro hnews
  rw [FieldTable.news_putChoices] at hnews
  refine (h hnews).congr (FieldTable.sameConstraints_putChoices choices) fun n _ => ?_
  exact FieldTable.valueAt_putChoices choices n

end Abreast

end RuleSet

end FormConsole
