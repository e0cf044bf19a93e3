import DatalogDafsa.Eval.Batch

/-!
# Evaluating non-recursive rules

`evalNonrecursive` sorts its rules by stratum and sweeps over them until a sweep
adds nothing, at most once more than there are rules.  Facts are only added, so a
rule that reads a relation strictly must not run before that relation is complete:
the sweeps reach the intended contents when the rules are `InOrder`, which a `Scheduled`
order is whatever the facts.

## Main definitions

* `evalPass`, `evalPasses`, `evalNonrecursive` — one sweep, the sweeps, the driver.
* `nonrecRuleSettled` — the rules later sweeps skip.
* `evalPass_spec` — a sweep of the evaluator is a sweep of the operators.
* `FiresEarly` — the first sweep fires a rule whose strict reads are not complete.
* `evalPasses_model` — when no strict read comes early, the sweeps reach the model.
* `firesEarly_of_not_inOrder` — else the first sweep fires a rule early.
-/

namespace DatalogDafsa

open Backtrack Operators

/-! ## The loops -/

/-- One sweep over the rules that are not skipped. -/
def evalPass (skip : CompiledRule → Bool) :
    List CompiledRule → Db → Bool → Final (Db × Bool) VmErr
  | [], db, changed => .done (db, changed)
  | cr :: rules, db, changed =>
    if skip cr then evalPass skip rules db changed
    else
      match execRuleBatched db cr with
      | .failed err r => .failed err r
      | .done (db', false) => evalPass skip rules db' changed
      | .done (db', true) => evalPass skip rules (db'.markBuild cr.headRelId) true

/-- The sweeps, while they change something; all but the first skip settled rules. -/
def evalPasses (order : List CompiledRule) (settled : CompiledRule → Bool) :
    ℕ → Bool → Db → Final Db VmErr
  | 0, _, db => .done db
  | left + 1, first, db =>
    match evalPass (fun cr => !first && settled cr) order db false with
    | .failed err r => .failed err r.1
    | .done (db', false) => .done db'
    | .done (db', true) => evalPasses order settled left false db'

/-- The relations a program may name: `MAX_RELS`. -/
def maxRels : ℕ := 64

/-- `nonrecWrittenMask`: the relations the rules may write. -/
def nonrecWrittenMask (rules : List CompiledRule) : List ℕ :=
  (rules.flatMap fun cr =>
    cr.headRelId :: (cr.instrs.filter fun i => i.op = .project).map VmInstr.a).filter (· < maxRels)

/-- `nonrecRuleSettled`: the rule reads nothing the rules write. -/
def nonrecRuleSettled (written : List ℕ) (cr : CompiledRule) : Bool :=
  cr.instrs.all fun i =>
    match i.op with
    | .scan | .lookup | .negCheck | .walk | .lookupPerm | .hashJoin => !written.contains i.a
    | .aggAcc | .aggEmit | .matBegin | .matJoin | .openRel | .range => false
    | _ => true

/-- `ruleStratumOrder`: the rules by stratum, in source order inside a stratum. -/
def ruleStratumOrder (rules : List CompiledRule) : List CompiledRule :=
  rules.insertionSort fun a b => a.stratum ≤ b.stratum

/-- **`evalNonrecursive`.** -/
def evalNonrecursive (db : Db) (rules : List CompiledRule) : Final Db VmErr :=
  if rules.isEmpty then .done db
  else
    evalPasses (ruleStratumOrder rules) (nonrecRuleSettled (nonrecWrittenMask rules))
      (rules.length + 1) true db

/-! ## Sweeps of operators -/

section Sweeps

variable {σ : Schema} {ms : CompiledRule → RuleMeaning}

/-- The operators of rules. -/
def opers (σ : Schema) (ms : CompiledRule → RuleMeaning) (rules : List CompiledRule) :
    List (Oper ℕ Row) := rules.map fun cr => (ms cr).oper σ cr

/-- What a sweep does. -/
structure Swept (σ : Schema) (ms : CompiledRule → RuleMeaning) (rules : List CompiledRule)
    (db db' : Db) : Prop where
  /-- Only heads change. -/
  evolves : Db.Evolves {id | ∃ cr ∈ rules, cr.headRelId = id} db db'
  /-- The database is ready again. -/
  ok : db'.Ok
  /-- The contents are swept. -/
  contents : db'.contents = pass (opers σ ms rules) db.contents

/-- **A sweep of the evaluator is a sweep of the operators**, over the rules it does
not skip. -/
theorem evalPass_spec (skip : CompiledRule → Bool) (rules : List CompiledRule)
    (hwf : ∀ cr ∈ rules, RuleWf σ cr (ms cr)) {db db' : Db} {changed changed' : Bool}
    (hdb : db.Ok) (hσ : db.schema = σ)
    (hrun : evalPass skip rules db changed = .done (db', changed')) :
    Swept σ ms (rules.filter fun cr => !skip cr) db db' ∧
      (changed' = false → changed = false ∧ db'.contents = db.contents) := by
  induction rules generalizing db changed with
  | nil =>
    simp only [evalPass, Final.done.injEq, Prod.mk.injEq] at hrun
    obtain ⟨rfl, rfl⟩ := hrun
    exact ⟨⟨Db.Evolves.refl _ _, hdb, rfl⟩, fun h => ⟨h, rfl⟩⟩
  | cons cr rules ih =>
    have hrest : ∀ cr ∈ rules, RuleWf σ cr (ms cr) := fun cr hcr => hwf cr (by simp [hcr])
    simp only [evalPass] at hrun
    by_cases hskip : skip cr = true
    · rw [if_pos hskip] at hrun
      simpa [hskip] using ih hrest hdb hσ hrun
    · rw [if_neg hskip] at hrun
      have hfilter : (cr :: rules).filter (fun cr => !skip cr) =
          cr :: rules.filter fun cr => !skip cr := by
        simp [hskip]
      rw [hfilter]
      cases hb : execRuleBatched db cr with
      | failed err r => rw [hb] at hrun; cases hrun
      | done r =>
        obtain ⟨db₁, grew⟩ := r
        rw [hb] at hrun
        subst hσ
        obtain ⟨hfired, hsame⟩ := execRuleBatched_fired hdb (hwf cr (by simp)) hb
        have hhead : {((ms cr).oper db.schema cr).head} ⊆
            {id | ∃ c ∈ cr :: rules.filter (fun cr => !skip cr), c.headRelId = id} := by
          rintro id hid
          exact ⟨cr, by simp, by simpa using hid.symm⟩
        have hsub : {id | ∃ c ∈ rules.filter (fun cr => !skip cr), c.headRelId = id} ⊆
            {id | ∃ c ∈ cr :: rules.filter (fun cr => !skip cr), c.headRelId = id} :=
          fun id ⟨c, hc, hid⟩ => ⟨c, List.mem_cons_of_mem _ hc, hid⟩
        have hev := hfired.evolves.mono hhead
        cases grew with
        | false =>
          have heq := hsame rfl
          obtain ⟨⟨hev', hok', hcont⟩, hch⟩ :=
            ih hrest (hfired.ok_of_eq hdb heq) hfired.evolves.schema hrun
          refine ⟨⟨hev.trans (hev'.mono hsub), hok', ?_⟩, fun h => ?_⟩
          · rw [hcont, hfired.contents]
            rfl
          · exact ⟨(hch h).1, (hch h).2.trans heq⟩
        | true =>
          have hok := hfired.ok hdb
          rw [RuleMeaning.head_oper] at hok
          obtain ⟨⟨hev', hok', hcont⟩, hch⟩ :=
            ih hrest hok (by simpa using hfired.evolves.schema) hrun
          refine ⟨⟨(hev.trans (Db.Evolves.markBuild _ _ _)).trans (hev'.mono hsub), hok', ?_⟩,
            fun h => absurd (hch h).1 (by simp)⟩
          rw [hcont, Db.contents_markBuild, hfired.contents]
          rfl

/-- What is assumed of the rules of a sweep. -/
structure Order (σ : Schema) (ms : CompiledRule → RuleMeaning) (order : List CompiledRule)
    (settled : CompiledRule → Bool) (rk : ℕ → ℕ) (B M : ℕ → Set Row) : Prop where
  /-- The bytecode has a meaning. -/
  wf : ∀ cr ∈ order, RuleWf σ cr (ms cr)
  /-- The program is acyclic. -/
  ranked : Ranked (opers σ ms order) rk
  /-- Ranks are small. -/
  bound : ∀ s, rk s ≤ order.length
  /-- The intended contents. -/
  model : IsModel (opers σ ms order) B M
  /-- Strict reads are complete at their place. -/
  inOrder : InOrder (opers σ ms order) B M
  /-- Settled rules read nothing the rules write. -/
  settled : ∀ cr ∈ order, settled cr = true → ∀ s ∈ ((ms cr).oper σ cr).reads,
    ∀ cr' ∈ order, cr'.headRelId ≠ s

variable {order : List CompiledRule} {settled : CompiledRule → Bool} {rk : ℕ → ℕ}
  {B M : ℕ → Set Row}

theorem Order.no_rule (h : Order σ ms order settled rk B M) {cr : CompiledRule}
    (hcr : cr ∈ order) (hs : settled cr = true) {s : ℕ}
    (hread : s ∈ ((ms cr).oper σ cr).reads) : ∀ r ∈ opers σ ms order, r.head ≠ s := by
  intro r hr
  obtain ⟨cr', hcr', rfl⟩ := List.mem_map.mp hr
  rw [RuleMeaning.head_oper]
  exact h.settled cr hcr hs s hread cr' hcr'

/-- A settled rule has nothing to give after the first sweep. -/
theorem Order.out_le (h : Order σ ms order settled rk B M) {V : ℕ → Set Row}
    (hV : SweepInv (opers σ ms order) B M (opers σ ms order).length V) {r : Oper ℕ Row}
    (hr : r ∈ opers σ ms order)
    (hskip : r ∉ opers σ ms (order.filter fun cr => !settled cr)) : r.out M ⊆ V r.head := by
  obtain ⟨cr, hcr, rfl⟩ := List.mem_map.mp hr
  have hs : settled cr = true := by
    by_contra hno
    exact hskip (List.mem_map.mpr ⟨cr, List.mem_filter.mpr ⟨hcr, by simpa using hno⟩, rfl⟩)
  obtain ⟨j, hj⟩ := List.mem_iff_getElem?.mp hr
  exact hV.out_le_of_no_rule h.model hj (List.getElem?_eq_some_iff.mp hj).1 fun s hread =>
    h.no_rule hcr hs hread

/-- The later sweeps: each settles one more rank. -/
theorem evalPasses_later (h : Order σ ms order settled rk B M) (left k : ℕ)
    (hk : order.length + 1 ≤ k + left) {db db' : Db} (hdb : db.Ok) (hσ : db.schema = σ)
    (hV : SweepInv (opers σ ms order) B M (opers σ ms order).length db.contents)
    (hupto : Upto M rk k db.contents)
    (hrun : evalPasses order settled left false db = .done db') :
    Db.Evolves {id | ∃ cr ∈ order, cr.headRelId = id} db db' ∧ db'.Ok ∧ db'.contents = M := by
  induction left generalizing k db with
  | zero =>
    simp only [evalPasses, Final.done.injEq] at hrun
    subst hrun
    refine ⟨Db.Evolves.refl _ _, hdb, funext fun s => hupto s ?_⟩
    have := h.bound s
    omega
  | succ left ih =>
    simp only [evalPasses] at hrun
    cases hp : evalPass (fun cr => !false && settled cr) order db false with
    | failed err r => rw [hp] at hrun; cases hrun
    | done r =>
      obtain ⟨db₁, changed⟩ := r
      rw [hp] at hrun
      simp only [Bool.not_false, Bool.true_and] at hp
      obtain ⟨⟨hev, hok, hcont⟩, hch⟩ := evalPass_spec settled order h.wf hdb hσ hp
      have hfilter : ∀ r ∈ opers σ ms (order.filter fun cr => !settled cr), r ∈ opers σ ms order := by
        intro r hr
        obtain ⟨cr, hcr, rfl⟩ := List.mem_map.mp hr
        exact List.mem_map_of_mem (List.mem_filter.mp hcr).1
      have hev' : Db.Evolves {id | ∃ cr ∈ order, cr.headRelId = id} db db₁ :=
        hev.mono fun id ⟨cr, hcr, hid⟩ => ⟨cr, (List.mem_filter.mp hcr).1, hid⟩
      cases changed with
      | false =>
        simp only [Final.done.injEq] at hrun
        subst hrun
        have heq := (hch rfl).2
        refine ⟨hev', hok, heq.trans ?_⟩
        refine eq_of_stable h.ranked h.model hV (hcont.symm.trans heq) fun r hr hskip => ?_
        obtain ⟨cr, hcr, rfl⟩ := List.mem_map.mp hr
        have hs : settled cr = true := by
          by_contra hno
          exact hskip (List.mem_map.mpr ⟨cr, List.mem_filter.mpr ⟨hcr, by simpa using hno⟩, rfl⟩)
        refine Set.Subset.trans (Eq.subset ?_) (h.out_le hV hr hskip)
        refine Oper.out_congr _ fun s hread => ?_
        exact hV.eq_of_no_rule h.model (h.no_rule hcr hs hread)
      | true =>
        have hσ₁ : db₁.schema = σ := hev.schema.trans hσ
        have hV₁ := SweepInv.pass h.model h.inOrder _ hfilter hV
        have hupto₁ := Upto.pass h.ranked h.model h.inOrder hfilter hV
          (fun r hr hskip => h.out_le hV hr hskip) hupto
        rw [← hcont] at hV₁ hupto₁
        obtain ⟨hev₂, hok₂, hM⟩ := ih (k + 1) (by omega) hok hσ₁ hV₁ hupto₁ hrun
        exact ⟨hev'.trans hev₂, hok₂, hM⟩

/-- **When no strict read comes early, the sweeps reach the model.** -/
theorem evalPasses_model (h : Order σ ms order settled rk B M) {left : ℕ}
    (hleft : order.length ≤ left) {db db' : Db} (hdb : db.Ok) (hσ : db.schema = σ)
    (hB : db.contents = B)
    (hrun : evalPasses order settled (left + 1) true db = .done db') :
    Db.Evolves {id | ∃ cr ∈ order, cr.headRelId = id} db db' ∧ db'.Ok ∧ db'.contents = M := by
  simp only [evalPasses] at hrun
  cases hp : evalPass (fun cr => !true && settled cr) order db false with
  | failed err r => rw [hp] at hrun; cases hrun
  | done r =>
    obtain ⟨db₁, changed⟩ := r
    rw [hp] at hrun
    simp only [Bool.not_true, Bool.false_and] at hp
    obtain ⟨⟨hev, hok, hcont⟩, hch⟩ := evalPass_spec (fun _ => false) order h.wf hdb hσ hp
    have hall : order.filter (fun _ => !false) = order := List.filter_eq_self.mpr fun _ _ => rfl
    rw [hall, hB] at hcont
    rw [hall] at hev
    have hV₁ := SweepInv.first h.model h.inOrder
    have hupto₁ := Upto.first h.ranked h.model h.inOrder
    rw [← hcont] at hV₁ hupto₁
    cases changed with
    | false =>
      simp only [Final.done.injEq] at hrun
      subst hrun
      have heq := (hch rfl).2
      refine ⟨hev, hok, ?_⟩
      have hstable : pass (opers σ ms order) db₁.contents = db₁.contents := by
        rw [heq, hB, ← hcont, heq, hB]
      exact eq_of_stable h.ranked h.model hV₁ hstable fun r hr hno => absurd hr hno
    | true =>
      obtain ⟨hev₂, hok₂, hM⟩ := evalPasses_later h left 1 (by omega) hok
        (hev.schema.trans hσ) hV₁ hupto₁ hrun
      exact ⟨hev.trans hev₂, hok₂, hM⟩

end Sweeps

/-! ## Firing early -/

section Early

variable {σ : Schema} {ms : CompiledRule → RuleMeaning}

/-- In the first sweep a rule fires while a relation it reads strictly differs from the
intended contents. -/
def FiresEarly (σ : Schema) (ms : CompiledRule → RuleMeaning) (order : List CompiledRule)
    (M : ℕ → Set Row) (db : Db) : Prop :=
  ∃ (i : ℕ) (cr : CompiledRule) (db' : Db) (changed : Bool), order[i]? = some cr ∧
    evalPass (fun _ => false) (order.take i) db false = .done (db', changed) ∧
    ∃ s ∈ ((ms cr).oper σ cr).strict, db'.contents s ≠ M s

/-- A sweep that succeeds has succeeded up to each place. -/
theorem evalPass_take {skip : CompiledRule → Bool} {rules : List CompiledRule} {db : Db}
    {changed : Bool} {res : Db × Bool} (h : evalPass skip rules db changed = .done res) (i : ℕ) :
    ∃ res', evalPass skip (rules.take i) db changed = .done res' := by
  induction rules generalizing i db changed with
  | nil => exact ⟨res, by simpa using h⟩
  | cons cr rules ih =>
    cases i with
    | zero => exact ⟨(db, changed), rfl⟩
    | succ i =>
      simp only [evalPass, List.take_succ_cons] at h ⊢
      by_cases hskip : skip cr = true
      · rw [if_pos hskip] at h ⊢
        exact ih h i
      · rw [if_neg hskip] at h ⊢
        cases hb : execRuleBatched db cr with
        | failed err r => rw [hb] at h; cases h
        | done r =>
          obtain ⟨db₁, grew⟩ := r
          rw [hb] at h
          cases grew with
          | false => exact ih h i
          | true => exact ih h i

/-- **Rules that are not in order fire early.** -/
theorem firesEarly_of_not_inOrder {order : List CompiledRule}
    (hwf : ∀ cr ∈ order, RuleWf σ cr (ms cr)) {M : ℕ → Set Row} {db : Db} (hdb : db.Ok)
    (hσ : db.schema = σ) (hM : IsModel (opers σ ms order) db.contents M) {res : Db × Bool}
    (hrun : evalPass (fun _ => false) order db false = .done res)
    (hord : ¬ InOrder (opers σ ms order) db.contents M) : FiresEarly σ ms order M db := by
  rw [inOrder_iff hM] at hord
  push Not at hord
  obtain ⟨i, r, hr, s, hs, hne⟩ := hord
  obtain ⟨cr, hcr, rfl⟩ : ∃ cr, order[i]? = some cr ∧ (ms cr).oper σ cr = r := by
    simpa [opers] using hr
  obtain ⟨⟨db', changed⟩, htake⟩ := evalPass_take hrun i
  refine ⟨i, cr, db', changed, hcr, htake, s, hs, ?_⟩
  have hwf' : ∀ c ∈ order.take i, RuleWf σ c (ms c) := fun c hc => hwf c (List.mem_of_mem_take hc)
  obtain ⟨⟨-, -, hcont⟩, -⟩ := evalPass_spec (fun _ => false) _ hwf' hdb hσ htake
  rw [hcont]
  simpa [opers, List.map_take] using hne

end Early

/-! ## The driver -/

theorem Plan.Codes.mem {p : List VmInstr} {P : Plan} {start stop : ℕ} (h : P.Codes p start stop)
    (hshape : P.Shape) {i : VmInstr} (hi : i ∈ P.instrs) (hop : i.op ≠ .matBegin) : i ∈ p := by
  induction P generalizing start stop with
  | flat body leaf => exact h.1.mem hi
  | join mbL l mbR r mj body leaf ihl ihr =>
    obtain ⟨-, hl, -, hr, hat, -⟩ := h
    obtain ⟨hopL, hshl, hopR, hshr, -⟩ := hshape
    simp only [instrs, List.cons_append, List.mem_cons, List.mem_append] at hi
    rcases hi with rfl | (hi | rfl | hi) | hi
    · exact absurd hopL hop
    · exact ihl hl hshl hi
    · exact absurd hopR hop
    · exact ihr hr hshr hi
    · refine hat.mem ?_
      simpa using hi

/-- A settled rule reads no relation the rules write. -/
theorem not_mem_written {σ : Schema} {cr : CompiledRule} {m : RuleMeaning} (h : RuleWf σ cr m)
    {written : List ℕ} (hs : nonrecRuleSettled written cr = true) {s : ℕ}
    (hread : s ∈ (m.oper σ cr).reads) : s ∉ written := by
  have hall := List.all_eq_true.mp hs
  cases m with
  | agg body acc emit =>
    obtain ⟨halt, -, hcode⟩ := AggOk.code h
    have hacc := hall acc (by simp [hcode])
    simp [AggOk.accOp h] at hacc
  | plan P =>
    obtain ⟨stop, -, hcodes⟩ := RuleOk.codes h
    have hshape := RuleOk.shape h
    rcases hread with ⟨i, hi, rfl⟩ | ⟨i, hi, ⟨hop, rfl⟩ | ⟨hop, rfl⟩⟩
    · obtain ⟨hin, hf⟩ := Plan.mem_instrs_of_atoms hi
      have hmem := hcodes.mem hshape hin (by rintro hop; rw [hop] at hf; cases hf)
      have hi' := hall i hmem
      cases hop : i.op <;> rw [hop] at hf hi' <;> simp_all [driverFeeds]
    · have hi' := hall i (hcodes.mem hshape hi (by simp [hop]))
      simpa [hop] using hi'
    · have hi' := hall i (hcodes.mem hshape hi (by simp [hop]))
      simp [hop] at hi'

theorem head_mem_written {rules : List CompiledRule} {cr : CompiledRule} (hcr : cr ∈ rules)
    (hlt : cr.headRelId < maxRels) : cr.headRelId ∈ nonrecWrittenMask rules :=
  List.mem_filter.mpr ⟨List.mem_flatMap.mpr ⟨cr, hcr, by simp⟩, by simpa using hlt⟩

theorem ruleStratumOrder_perm (rules : List CompiledRule) :
    (ruleStratumOrder rules).Perm rules := List.perm_insertionSort _ _

/-- **`evalNonrecursive` computes the model** of an acyclic program whose rules, in
stratum order, complete what a rule reads strictly before that rule. -/
theorem evalNonrecursive_model {σ : Schema} {ms : CompiledRule → RuleMeaning}
    {rules : List CompiledRule} (hwf : ∀ cr ∈ rules, RuleWf σ cr (ms cr))
    (hlt : ∀ cr ∈ rules, cr.headRelId < maxRels)
    (hacyc : ∀ s, ¬ Relation.TransGen (Dep (opers σ ms rules)) s s)
    {db db' : Db} (hdb : db.Ok) (hσ : db.schema = σ)
    (hord : ∀ M, IsModel (opers σ ms (ruleStratumOrder rules)) db.contents M →
      InOrder (opers σ ms (ruleStratumOrder rules)) db.contents M)
    (hrun : evalNonrecursive db rules = .done db') :
    Db.Evolves {id | ∃ cr ∈ rules, cr.headRelId = id} db db' ∧ db'.Ok ∧
      IsModel (opers σ ms rules) db.contents db'.contents := by
  have hmem : ∀ cr, cr ∈ ruleStratumOrder rules ↔ cr ∈ rules := fun cr =>
    (ruleStratumOrder_perm rules).mem_iff
  have hops : ∀ r, r ∈ opers σ ms (ruleStratumOrder rules) ↔ r ∈ opers σ ms rules := fun r => by
    simp only [opers, List.mem_map, hmem]
  obtain ⟨rk, hrk, hbound⟩ := exists_rank hacyc
  obtain ⟨M, hM⟩ := exists_model hrk db.contents
  have hlen : (opers σ ms rules).length = (ruleStratumOrder rules).length := by
    rw [opers, List.length_map, (ruleStratumOrder_perm rules).length_eq]
  have hM' : IsModel (opers σ ms (ruleStratumOrder rules)) db.contents M := fun s => by
    rw [hM s]
    simp only [hops]
  have horder : Order σ ms (ruleStratumOrder rules) (nonrecRuleSettled (nonrecWrittenMask rules))
      rk db.contents M :=
    { wf := fun cr hcr => hwf cr ((hmem cr).mp hcr)
      ranked := fun r hr => hrk r ((hops r).mp hr)
      bound := fun s => hlen ▸ hbound s
      model := hM'
      inOrder := hord M hM'
      settled := fun cr hcr hs s hread cr' hcr' heq => by
        have hin := (hmem cr').mp hcr'
        refine not_mem_written (hwf cr ((hmem cr).mp hcr)) hs hread ?_
        rw [← heq]
        exact head_mem_written hin (hlt cr' hin) }
  unfold evalNonrecursive at hrun
  by_cases hempty : rules.isEmpty = true
  · rw [if_pos hempty] at hrun
    cases hrun
    obtain rfl := List.isEmpty_iff.mp hempty
    exact ⟨Db.Evolves.refl _ _, hdb, fun s => by simp [opers]⟩
  · rw [if_neg hempty, ← (ruleStratumOrder_perm rules).length_eq] at hrun
    obtain ⟨hev, hok, hcont⟩ := evalPasses_model horder le_rfl hdb hσ rfl hrun
    exact ⟨hev.mono fun id ⟨cr, hcr, hid⟩ => ⟨cr, (hmem cr).mp hcr, hid⟩, hok, hcont ▸ hM⟩

/-- **When the rules are not in order, `evalNonrecursive` fires one early.** -/
theorem evalNonrecursive_early {σ : Schema} {ms : CompiledRule → RuleMeaning}
    {rules : List CompiledRule} (hwf : ∀ cr ∈ rules, RuleWf σ cr (ms cr)) {M : ℕ → Set Row}
    {db db' : Db} (hdb : db.Ok) (hσ : db.schema = σ)
    (hM : IsModel (opers σ ms (ruleStratumOrder rules)) db.contents M)
    (hrun : evalNonrecursive db rules = .done db')
    (hord : ¬ InOrder (opers σ ms (ruleStratumOrder rules)) db.contents M) :
    FiresEarly σ ms (ruleStratumOrder rules) M db := by
  have hwf' : ∀ cr ∈ ruleStratumOrder rules, RuleWf σ cr (ms cr) := fun cr hcr =>
    hwf cr ((ruleStratumOrder_perm rules).mem_iff.mp hcr)
  unfold evalNonrecursive at hrun
  by_cases hempty : rules.isEmpty = true
  · obtain rfl := List.isEmpty_iff.mp hempty
    exact absurd (fun i r hr => by simp [opers, ruleStratumOrder] at hr) hord
  · rw [if_neg hempty] at hrun
    simp only [evalPasses, Bool.not_true, Bool.false_and] at hrun
    cases hp : evalPass (fun _ => false) (ruleStratumOrder rules) db false with
    | failed err r => rw [hp] at hrun; cases hrun
    | done r => exact firesEarly_of_not_inOrder hwf' hdb hσ hM hp hord

end DatalogDafsa
