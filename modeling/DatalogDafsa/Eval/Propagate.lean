import DatalogDafsa.Eval.Commit
import DatalogDafsa.Eval.Joins
import DatalogDafsa.Eval.Perfect

/-!
# Propagating insertions

`vm_propagate_deltas` brings the views up to date after insertions, for rules that
only ever add.  A work item is a set of rows that were added to one relation.  For
each item, each rule is fired once for each body atom over that relation, with that
atom reading the item and the others the views; what is new in the head becomes an
item of its own.

## Main definitions

* `vmIvmEligible` — the rule sets the code accepts.
* `fireWork`, `propagateWork`, `vmPropagateDeltas` — one firing, one item, the queue.
* `Tidy`, `Inserted` — what is asked of the compiler and of the insertions.
* `vmPropagateDeltas_scratch` — the queue drains and the views are those of a
  from-scratch evaluation.
-/

namespace DatalogDafsa

open Backtrack Operators Worklist

/-! ## Eligible rule sets -/

/-- `db_has_list_builtin`. -/
def hasListBuiltin (rules : List CompiledRule) : Bool :=
  rules.any fun cr => cr.instrs.any fun i =>
    i.op = .listCons || i.op = .listCar || i.op = .listCdr || i.op = .listAppend ||
      i.op = .listMember

/-- `db_has_range_builtin`. -/
def hasRangeBuiltin (rules : List CompiledRule) : Bool :=
  rules.any fun cr => cr.instrs.any fun i => i.op = .range

/-- `is_rule_head`. -/
def isRuleHead (rules : List CompiledRule) (id : ℕ) : Bool :=
  rules.any fun cr => cr.headRelId = id

/-- `is_rec_head`, `rec_stratum`: the stratum of the last recursive rule for a head. -/
def recStratum (rules : List CompiledRule) (id : ℕ) : Option ℕ :=
  ((rules.filter fun cr => cr.isRecursive && cr.headRelId = id).getLast?).map
    CompiledRule.stratum

/-- The check of one instruction in `vm_ivm_eligible`. -/
def ivmInstrOk (rules : List CompiledRule) (cr : CompiledRule) (i : VmInstr) : Bool :=
  match i.op with
  | .negCheck | .walk | .hashJoin | .matBegin | .matJoin => false
  | .lookupPerm => i.a < maxRels && recStratum rules i.a == some cr.stratum
  | .scan | .lookup =>
    !cr.isRecursive || maxRels ≤ i.a || !isRuleHead rules i.a ||
      recStratum rules i.a == some cr.stratum
  | _ => true

/-- **`vm_ivm_eligible`**, over relations of fixed arity. -/
def vmIvmEligible (rules : List CompiledRule) : Bool :=
  !hasListBuiltin rules && !hasRangeBuiltin rules &&
    rules.all fun cr => !cr.hasAggregate && cr.instrs.all (ivmInstrOk rules cr)

/-! ## The queue -/

/-- `IvmWork`: rows added to one relation. -/
structure IvmWork where
  /-- The relation. -/
  relId : ℕ
  /-- The rows, in key order. -/
  ts : TupleSet

/-- The items the pending insertions make. -/
def ivmQueue (db : Db) (pend : Pending) : List IvmWork :=
  (List.range db.rels.length).filterMap fun id =>
    if (pend id).rows.isEmpty then none else some ⟨id, (pend id).sort⟩

/-- Fire a rule with the atom of one instruction reading an item. -/
def fireWork (w : IvmWork) (f : CompiledRule × VmInstr) (s : Db × List IvmWork) :
    Final (Db × List IvmWork) VmErr :=
  if f.2.op ≠ .scan ∧ f.2.op ≠ .lookup ∨ f.2.a ≠ w.relId then .done s
  else
    match s.1.rels[f.1.headRelId]? with
    | none => .failed .internal s
    | some e =>
      match execRule s.1 f.1 [⟨f.2.bodyIdx, w.ts⟩] false with
      | .failed err s' => .failed err (s'.db, s.2)
      | .done s' =>
        let hts := (TupleSet.init e.arity).addAll s'.out
        if hts.rows.isEmpty then .done (s'.db, s.2)
        else .done (s'.db.markBuild f.1.headRelId, s.2 ++ [⟨f.1.headRelId, hts.sort⟩])

/-- The firings of an item: rules in order, instructions in order. -/
def workFirings (rules : List CompiledRule) : List (CompiledRule × VmInstr) :=
  (rules.filter fun cr => !cr.hasAggregate).flatMap fun cr => cr.instrs.map fun i => (cr, i)

/-- One item: the views after it, and the items it makes. -/
def propagateWork (rules : List CompiledRule) (w : IvmWork) (db : Db) :
    Final (Db × List IvmWork) VmErr := runAll (fireWork w) (workFirings rules) (db, [])

/-- **`vm_propagate_deltas`**; the first argument bounds the items. -/
def vmPropagateDeltas (fuel : ℕ) (db : Db) (pend : Pending) (rules : List CompiledRule) :
    Option (Final Db VmErr) := drain (propagateWork rules) fuel (ivmQueue db pend) db

/-! ## One firing, as a case split -/

theorem mem_workFirings {rules : List CompiledRule} {f : CompiledRule × VmInstr} :
    f ∈ workFirings rules ↔ f.1 ∈ rules ∧ f.1.hasAggregate = false ∧ f.2 ∈ f.1.instrs := by
  obtain ⟨cr, i⟩ := f
  simp only [workFirings, List.mem_flatMap, List.mem_filter, List.mem_map, Prod.mk.injEq,
    Bool.not_eq_true']
  constructor
  · rintro ⟨c, ⟨hc, hagg⟩, j, hj, rfl, rfl⟩
    exact ⟨hc, hagg, hj⟩
  · rintro ⟨hc, hagg, hi⟩
    exact ⟨cr, ⟨hc, hagg⟩, i, hi, rfl, rfl⟩

/-- The outcomes of one firing. -/
theorem fireWork_cases {w : IvmWork} {f : CompiledRule × VmInstr} {s s' : Db × List IvmWork}
    (h : fireWork w f s = .done s') :
    (¬ ((f.2.op = .scan ∨ f.2.op = .lookup) ∧ f.2.a = w.relId) ∧ s' = s) ∨
      ((f.2.op = .scan ∨ f.2.op = .lookup) ∧ f.2.a = w.relId ∧
        ∃ e r, s.1.rels[f.1.headRelId]? = some e ∧
          execRule s.1 f.1 [⟨f.2.bodyIdx, w.ts⟩] false = .done r ∧
          ((r.out = [] ∧ s' = (r.db, s.2)) ∨
            (r.out ≠ [] ∧ s' = (r.db.markBuild f.1.headRelId,
              s.2 ++ [⟨f.1.headRelId, ((TupleSet.init e.arity).addAll r.out).sort⟩])))) := by
  unfold fireWork at h
  by_cases hskip : f.2.op ≠ .scan ∧ f.2.op ≠ .lookup ∨ f.2.a ≠ w.relId
  · rw [if_pos hskip] at h
    cases h
    exact .inl ⟨by tauto, rfl⟩
  · rw [if_neg hskip] at h
    refine .inr ⟨by tauto, by tauto, ?_⟩
    cases he : s.1.rels[f.1.headRelId]? with
    | none =>
      rw [he] at h
      cases h
    | some e =>
      rw [he] at h
      dsimp only at h
      cases hr : execRule s.1 f.1 [⟨f.2.bodyIdx, w.ts⟩] false with
      | failed err r =>
        rw [hr] at h
        cases h
      | done r =>
        rw [hr] at h
        dsimp only at h
        refine ⟨e, r, rfl, rfl, ?_⟩
        have hempty : ((TupleSet.init e.arity).addAll r.out).rows = [] ↔ r.out = [] := by
          simp only [List.eq_nil_iff_forall_not_mem, TupleSet.mem_rows_addAll,
            TupleSet.rows_init, List.not_mem_nil, false_or]
        by_cases hout : r.out = []
        · rw [if_pos (List.isEmpty_iff.mpr (hempty.mpr hout))] at h
          cases h
          exact .inl ⟨hout, rfl⟩
        · rw [if_neg (fun he => hout (hempty.mp (List.isEmpty_iff.mp he)))] at h
          cases h
          exact .inr ⟨hout, rfl⟩

/-! ## Plans of eligible rules -/

/-- What an eligible rule without recursion looks like. -/
structure Positive (σ : Schema) (cr : CompiledRule) (body : List VmInstr) (leaf : VmInstr) :
    Prop where
  /-- The bytecode spells one pipeline. -/
  ok : RuleOk σ cr (.flat body leaf)
  /-- Its atoms are scans and lookups. -/
  atoms : ∀ i ∈ Plan.bodyAtoms body, i.op = .scan ∨ i.op = .lookup
  /-- They are in the code. -/
  mem : ∀ i ∈ Plan.bodyAtoms body, i ∈ cr.instrs
  /-- The code has no others. -/
  tidy : ∀ i ∈ cr.instrs, driverFeeds i.op = true → i ∈ Plan.bodyAtoms body
  /-- Nothing is negated or ranged over. -/
  strict : Plan.strictReads (body ++ [leaf]) = ∅

/-- What the check says of the instructions of a rule. -/
theorem eligible_instrs {rules : List CompiledRule} (helig : vmIvmEligible rules = true)
    {cr : CompiledRule} (hcr : cr ∈ rules) : cr.hasAggregate = false ∧
      ∀ i ∈ cr.instrs, ivmInstrOk rules cr i = true ∧ i.op ≠ .range := by
  simp only [vmIvmEligible, Bool.and_eq_true, Bool.not_eq_true', List.all_eq_true] at helig
  obtain ⟨⟨-, hrange⟩, hall⟩ := helig
  obtain ⟨hagg, hinstr⟩ := hall cr hcr
  refine ⟨hagg, fun i hi => ⟨hinstr i hi, fun hop => ?_⟩⟩
  have hin : hasRangeBuiltin rules = true :=
    List.any_eq_true.mpr ⟨cr, hcr, List.any_eq_true.mpr ⟨i, hi, by simpa using hop⟩⟩
  rw [hin] at hrange
  cases hrange

/-- **An eligible rule is one pipeline**, and nothing is negated or ranged over. -/
theorem flat_of_eligible {σ : Schema} {rules : List CompiledRule} {cr : CompiledRule}
    {m : RuleMeaning} (hwf : RuleWf σ cr m) (htidy : Tidy cr m)
    (helig : vmIvmEligible rules = true) (hcr : cr ∈ rules) :
    ∃ body leaf, m = .plan (.flat body leaf) ∧ Plan.strictReads (body ++ [leaf]) = ∅ := by
  obtain ⟨hagg, hinstr⟩ := eligible_instrs helig hcr
  have hops : ∀ i ∈ cr.instrs, i.op ≠ .negCheck ∧ i.op ≠ .matBegin := by
    intro i hi
    have hok := (hinstr i hi).1
    refine ⟨?_, ?_⟩ <;> intro hop <;> simp [ivmInstrOk, hop] at hok
  cases m with
  | agg body acc emit =>
    rw [show cr.hasAggregate = true from htidy] at hagg
    cases hagg
  | plan P =>
    obtain ⟨body, leaf, rfl⟩ := RuleOk.flat hwf fun i hi => (hops i hi).2
    obtain ⟨stop, -, hcodes⟩ := RuleOk.codes hwf
    have hshape := RuleOk.shape hwf
    refine ⟨body, leaf, rfl, Set.eq_empty_of_forall_notMem ?_⟩
    rintro id ⟨i, hi, ⟨hop, -⟩ | ⟨hop, -⟩⟩
    · exact (hops i (hcodes.mem hshape hi (by simp [hop]))).1 hop
    · exact (hinstr i (hcodes.mem hshape hi (by simp [hop]))).2 hop

/-- **An eligible rule without recursion is a positive pipeline.** -/
theorem positive_of_eligible {σ : Schema} {rules : List CompiledRule}
    {ms : CompiledRule → RuleMeaning} (hwf : ∀ cr ∈ rules, RuleWf σ cr (ms cr))
    (htidy : ∀ cr ∈ rules, Tidy cr (ms cr)) (helig : vmIvmEligible rules = true)
    (hnonrec : ∀ cr ∈ rules, cr.isRecursive = false) {cr : CompiledRule} (hcr : cr ∈ rules) :
    cr.hasAggregate = false ∧ ∃ body leaf, ms cr = .plan (.flat body leaf) ∧
      Positive σ cr body leaf := by
  obtain ⟨hagg, hinstr⟩ := eligible_instrs helig hcr
  have hrec : ∀ id, recStratum rules id = none := by
    intro id
    have hnone : (rules.filter fun cr => cr.isRecursive && cr.headRelId = id) = [] := by
      rw [List.filter_eq_nil_iff]
      intro c hc
      simp [hnonrec c hc]
    rw [recStratum, hnone]
    rfl
  have hops : ∀ i ∈ cr.instrs, i.op ≠ .walk ∧ i.op ≠ .hashJoin ∧ i.op ≠ .lookupPerm := by
    intro i hi
    have hok := (hinstr i hi).1
    refine ⟨?_, ?_, ?_⟩ <;> intro hop <;> simp [ivmInstrOk, hop, hrec] at hok
  obtain ⟨body, leaf, hm, hstrict⟩ := flat_of_eligible (hwf cr hcr) (htidy cr hcr) helig hcr
  have hwf' := hwf cr hcr
  have htidy' := htidy cr hcr
  rw [hm] at hwf' htidy'
  have hmem : ∀ i ∈ Plan.bodyAtoms body, i ∈ cr.instrs := fun i hi => RuleOk.mem_instrs hwf' hi
  refine ⟨hagg, body, leaf, hm, hwf', fun i hi => ?_, hmem, htidy', hstrict⟩
  obtain ⟨hwalk, hhash, hperm⟩ := hops i (hmem i hi)
  have hf := (List.mem_filter.mp hi).2
  cases hop : i.op <;> simp_all [driverFeeds]

/-- A positive pipeline as a rule that joins rows. -/
def pipelineJoin (σ : Schema) (cr : CompiledRule) (body : List VmInstr) (leaf : VmInstr) :
    Join ℕ Row := planJoin σ cr (.flat body leaf) fun _ => ∅

section Positive

variable {σ : Schema} {cr : CompiledRule} {body : List VmInstr} {leaf : VmInstr}

theorem Positive.inst (h : Positive σ cr body leaf) (V : ℕ → Set Row) (ρ : ℕ → Row) :
    Inst σ cr (.flat body leaf) V ρ = (pipelineJoin σ cr body leaf).inst ρ := by
  refine inst_congr (fun id hid => ?_) ρ
  have hin : id ∈ Plan.strictReads (body ++ [leaf]) := hid
  rw [h.strict] at hin
  exact absurd hin (Set.notMem_empty id)

theorem reads_pipelineJoin {V : ℕ → Set Row} {ρ : ℕ → Row} :
    (pipelineJoin σ cr body leaf).Reads V ρ ↔ ∀ i ∈ Plan.bodyAtoms body, ρ i.bodyIdx ∈ V i.a :=
  reads_planJoin

/-- The rows a positive pipeline derives. -/
theorem Positive.out (h : Positive σ cr body leaf) (V : ℕ → Set Row) :
    ((RuleMeaning.plan (.flat body leaf)).oper σ cr).out V = (pipelineJoin σ cr body leaf).out V := by
  refine out_planJoin h.ok.shape h.ok.oneEach fun id hid => ?_
  have hin : id ∈ Plan.strictReads (body ++ [leaf]) := hid
  rw [h.strict] at hin
  exact absurd hin (Set.notMem_empty id)

theorem Positive.strict_oper (h : Positive σ cr body leaf) :
    ((RuleMeaning.plan (.flat body leaf)).oper σ cr).strict = ∅ := h.strict

/-- A pipeline that does not read its head. -/
theorem Positive.head_notMem (h : Positive σ cr body leaf)
    (hhead : ∀ i ∈ Plan.bodyAtoms body, i.a ≠ cr.headRelId) :
    cr.headRelId ∉ Plan.reads body := by
  rintro ⟨i, hi, ⟨hf | hop, hid⟩ | ⟨hop, hid⟩⟩
  · exact hhead i (List.mem_filter.mpr ⟨hi, hf⟩) hid.symm
  · have hin : i.a ∈ Plan.strictReads (body ++ [leaf]) := ⟨i, by simp [hi], .inl ⟨hop, rfl⟩⟩
    rw [h.strict] at hin
    exact hin
  · have hin : i.imm.toNat ∈ Plan.strictReads (body ++ [leaf]) := ⟨i, by simp [hi], .inr ⟨hop, rfl⟩⟩
    rw [h.strict] at hin
    exact hin

/-- What one atom reads an item for, the others the views. -/
def workSrc (body : List VmInstr) (n : ℕ) (D : Set Row) (V : ℕ → Set Row) (k : ℕ) : Set Row :=
  if k = n then D else {x | ∃ i ∈ Plan.bodyAtoms body, i.bodyIdx = k ∧ x ∈ V i.a}

/-- **Firing with one atom reading an item** stores what the rule derives from it and
no more than it derives from the views. -/
theorem Positive.fireAt {db : Db} (h : Positive db.schema cr body leaf) (hrows : db.RowsOk)
    (hhead : ∀ i ∈ Plan.bodyAtoms body, i.a ≠ cr.headRelId) {i : VmInstr}
    (hi : i ∈ Plan.bodyAtoms body) {ts : TupleSet} (hsorted : ts.Sorted)
    (har : db.schema.arities[i.a]? = some ts.arity) (hne : ts.rows ≠ [])
    (hin : ∀ x ∈ ts.rows, x ∈ db.contents i.a) {s : ExecSt}
    (hrun : execRule db cr [⟨i.bodyIdx, ts⟩] false = .done s) :
    ∃ new : Set Row,
      Stored cr.headRelId ⟨db, List.replicate (nMat cr) (TupleSet.init 0), [], []⟩ s new ∧
      (pipelineJoin db.schema cr body leaf).outAt (i.bodyIdx, i.a) {x | x ∈ ts.rows} db.contents ⊆
        new ∧
      new ⊆ (pipelineJoin db.schema cr body leaf).out db.contents ∧
      ∀ x ∈ new, db.schema.arities[cr.headRelId]? = some x.length := by
  set ov : List VmOverride := [⟨i.bodyIdx, ts⟩] with hov
  set S := workSrc body i.bodyIdx {x | x ∈ ts.rows} db.contents with hS
  have hsrc : ∀ j ∈ Plan.bodyAtoms body, j.bodyIdx ≠ i.bodyIdx → S j.bodyIdx = db.contents j.a :=
    fun j hj hidx => by
      rw [hS, workSrc, if_neg hidx]
      exact relSrc_eq (P := .flat body leaf) h.ok.oneEach db.contents hj
  have hself : S i.bodyIdx = {x | x ∈ ts.rows} := by rw [hS, workSrc, if_pos rfl]
  have hinj : ∀ j ∈ Plan.bodyAtoms body, j.bodyIdx = i.bodyIdx → j = i := fun j hj hidx =>
    List.inj_on_of_nodup_map h.ok.oneEach hj hi hidx
  have hok : ∀ j ∈ Plan.bodyAtoms body, SrcOk db ov (S j.bodyIdx) j := by
    intro j hj
    obtain ⟨hjin, hf⟩ := Plan.mem_instrs_of_atoms (P := .flat body leaf) hj
    have hperm : j.op ≠ .lookupPerm := by
      rcases h.atoms j hj with hop | hop <;> simp [hop]
    by_cases hidx : j.bodyIdx = i.bodyIdx
    · obtain rfl := hinj j hj hidx
      have hlive : liveOv ov j.bodyIdx = some ts := by
        simp [hov, liveOv, findOv, hne]
      unfold SrcOk
      rw [if_neg hperm, hlive, hself]
      refine ⟨?_, fun _ => hsorted, fun x => Iff.rfl⟩
      exact Option.some.inj (har.symm.trans (h.ok.reads.atoms j hjin hf))
    · have hlive : liveOv ov j.bodyIdx = none := by
        simp [hov, liveOv, findOv, Ne.symm hidx]
      rw [hsrc j hj hidx]
      exact srcOk_rel h.ok.reads hjin hf hperm hlive
  refine ⟨_, execRule_store hrows h.ok (h.head_notMem hhead) hok hrun, ?_, ?_, fun x hx => ?_⟩
  · rintro t ⟨ρ, hρ, hx, ht⟩
    refine (mem_fire_iff h.ok.shape h.ok.oneEach).mpr ⟨ρ, fun j hj => ?_, h.inst _ ρ ▸ ht⟩
    by_cases hidx : j.bodyIdx = i.bodyIdx
    · rw [hidx, hself]
      exact hx
    · rw [hsrc j hj hidx]
      exact reads_pipelineJoin.mp hρ j hj
  · intro t ht
    obtain ⟨ρ, hρ, ht⟩ := (mem_fire_iff h.ok.shape h.ok.oneEach).mp ht
    refine ⟨ρ, reads_pipelineJoin.mpr fun j hj => ?_, h.inst _ ρ ▸ ht⟩
    have hx := hρ j hj
    by_cases hidx : j.bodyIdx = i.bodyIdx
    · obtain rfl := hinj j hj hidx
      rw [hself] at hx
      exact hin _ hx
    · rwa [hsrc j hj hidx] at hx
  · rw [h.ok.head.2, Plan.length_of_mem_sol hx]

end Positive

/-! ## The invariant of the queue -/

section Run

variable {σ : Schema} {rules : List CompiledRule} {ms : CompiledRule → RuleMeaning}

/-- The rules as joins. -/
def joins (σ : Schema) (rules : List CompiledRule) (ms : CompiledRule → RuleMeaning) :
    Set (Join ℕ Row) :=
  {r | ∃ cr ∈ rules, ∃ body leaf, ms cr = .plan (.flat body leaf) ∧
    r = pipelineJoin σ cr body leaf}

/-- A row of an item waits to be joined. -/
def waitsIn (q : List IvmWork) (a : ℕ × ℕ) (x : Row) : Prop :=
  ∃ w ∈ q, w.relId = a.2 ∧ x ∈ w.ts.rows

/-- A row of the item at hand waits for a firing that is still to come. -/
def waitsFor (ms : CompiledRule → RuleMeaning) (σ : Schema) (w : IvmWork)
    (todo : List (CompiledRule × VmInstr)) (r : Join ℕ Row) (a : ℕ × ℕ) (x : Row) : Prop :=
  w.relId = a.2 ∧ x ∈ w.ts.rows ∧ ∃ f ∈ todo, ∃ body leaf, ms f.1 = .plan (.flat body leaf) ∧
    r = pipelineJoin σ f.1 body leaf ∧ f.2 ∈ Plan.bodyAtoms body ∧ a = (f.2.bodyIdx, f.2.a)

/-- A set of rows that an item may hold. -/
structure IvmWork.Ok (σ : Schema) (V : ℕ → Set Row) (w : IvmWork) : Prop where
  /-- In key order. -/
  sorted : w.ts.Sorted
  /-- Of the arity of the relation. -/
  arity : σ.arities[w.relId]? = some w.ts.arity
  /-- Not empty. -/
  ne_nil : w.ts.rows ≠ []
  /-- In the view. -/
  mem : ∀ x ∈ w.ts.rows, x ∈ V w.relId

theorem IvmWork.Ok.mono {V V' : ℕ → Set Row} {w : IvmWork} (h : w.Ok σ V)
    (hle : ∀ s, V s ⊆ V' s) : w.Ok σ V' :=
  ⟨h.sorted, h.arity, h.ne_nil, fun x hx => hle _ (h.mem x hx)⟩

/-- What is assumed of the rules and the contents they are to reach. -/
structure Setting (σ : Schema) (rules : List CompiledRule) (ms : CompiledRule → RuleMeaning)
    (M : ℕ → Set Row) : Prop where
  /-- The rules are positive pipelines. -/
  positive : ∀ cr ∈ rules, cr.hasAggregate = false ∧ ∃ body leaf,
    ms cr = .plan (.flat body leaf) ∧ Positive σ cr body leaf
  /-- No rule reads its head. -/
  head : ∀ cr ∈ rules, ∀ body leaf, ms cr = .plan (.flat body leaf) →
    ∀ i ∈ Plan.bodyAtoms body, i.a ≠ cr.headRelId
  /-- The contents are closed. -/
  closed : ∀ r ∈ joins σ rules ms, r.out M ⊆ M r.head

/-- What holds while items are processed: `new` are the items made so far. -/
structure Propagating (σ : Schema) (rules : List CompiledRule) (ms : CompiledRule → RuleMeaning)
    (M : ℕ → Set Row) (db₀ : Db) (waits : Join ℕ Row → ℕ × ℕ → Row → Prop) (new : List IvmWork)
    (db : Db) : Prop where
  /-- The schema stays. -/
  schema : db.schema = σ
  /-- Only the views of heads change. -/
  evolves : Db.Evolves {id | ∃ cr ∈ rules, cr.headRelId = id} db₀ db
  /-- Rows keep their arity. -/
  rows : db.RowsOk
  /-- Indices that are not marked dirty are up to date. -/
  perms : db.PermsOk
  /-- Nothing is lost. -/
  ge : ∀ s, db₀.contents s ⊆ db.contents s
  /-- Nothing is derived wrongly. -/
  le : ∀ s, db.contents s ⊆ M s
  /-- What is missing reads a row that waits. -/
  covered : Covered (joins σ rules ms) waits db.contents
  /-- The items hold rows of the views. -/
  items : ∀ w ∈ new, w.Ok σ db.contents

variable {M : ℕ → Set Row} {db₀ : Db}

/-- **One firing.** -/
theorem fireWork_propagating (hset : Setting σ rules ms M) {w : IvmWork} {q : List IvmWork}
    {f : CompiledRule × VmInstr} (hf : f ∈ workFirings rules)
    {todo : List (CompiledRule × VmInstr)} {s s' : Db × List IvmWork} (hw : w.Ok σ s.1.contents)
    (h : Propagating σ rules ms M db₀ (fun r a x => waitsIn (q ++ s.2) a x ∨
      waitsFor ms σ w (f :: todo) r a x) (q ++ s.2) s.1)
    (hrun : fireWork w f s = .done s') :
    w.Ok σ s'.1.contents ∧ Propagating σ rules ms M db₀ (fun r a x => waitsIn (q ++ s'.2) a x ∨
      waitsFor ms σ w todo r a x) (q ++ s'.2) s'.1 := by
  obtain ⟨hcr, -, hi⟩ := mem_workFirings.mp hf
  obtain ⟨-, body, leaf, hm, hpos⟩ := hset.positive f.1 hcr
  have hrest : ∀ r a x, waitsFor ms σ w (f :: todo) r a x → waitsFor ms σ w todo r a x ∨
      ((f.2 ∈ Plan.bodyAtoms body ∧ f.2.a = w.relId) ∧ r = pipelineJoin σ f.1 body leaf ∧
        a = (f.2.bodyIdx, f.2.a) ∧ x ∈ w.ts.rows) := by
    rintro r a x ⟨hrel, hx, g, hg, body', leaf', hm', hr, hatom, ha⟩
    rcases List.mem_cons.mp hg with rfl | hg
    · rw [hm] at hm'
      cases hm'
      exact .inr ⟨⟨hatom, by rw [hrel, ha]⟩, hr, ha, hx⟩
    · exact .inl ⟨hrel, hx, g, hg, body', leaf', hm', hr, hatom, ha⟩
  rcases fireWork_cases hrun with ⟨hskip, rfl⟩ | ⟨hop, hrel, e, r, he, hexec, hcase⟩
  · -- the instruction is not an atom over the relation of the item
    refine ⟨hw, { h with covered := h.covered.imp fun r hr a ha x hx => ?_ }⟩
    refine hx.imp_right fun hx => ?_
    rcases hrest r a x hx with hx | ⟨⟨hatom, hrel⟩, -⟩
    · exact hx
    · exact absurd ⟨hpos.atoms f.2 hatom, hrel⟩ hskip
  · have hfeeds : driverFeeds f.2.op = true := by
      rcases hop with hop | hop <;> rw [hop] <;> rfl
    have hatom : f.2 ∈ Plan.bodyAtoms body := hpos.tidy f.2 hi hfeeds
    have hσ := h.schema
    obtain ⟨new, hst, hnew, hout, hlen⟩ := Positive.fireAt (hσ ▸ hpos) h.rows
      (hset.head f.1 hcr body leaf hm) hatom hw.sorted (by rw [hσ, hrel]; exact hw.arity) hw.ne_nil
      (fun x hx => by rw [hrel]; exact hw.mem x hx) hexec
    rw [hσ] at hnew hout hlen
    have hjoin : pipelineJoin σ f.1 body leaf ∈ joins σ rules ms := ⟨f.1, hcr, body, leaf, hm, rfl⟩
    have hmem : ∀ n x, x ∈ r.db.contents n ↔ x ∈ s.1.contents n ∨ (n = f.1.headRelId ∧ x ∈ new) :=
      hst.contents
    have hadd : ∀ n, s.1.contents n ⊆ r.db.contents n := fun n x hx => (hmem n x).mpr (.inl hx)
    have hhead : new ⊆ r.db.contents f.1.headRelId := fun x hx => (hmem _ x).mpr (.inr ⟨rfl, hx⟩)
    have hnewM : new ⊆ M f.1.headRelId := by
      exact hout.trans ((Join.out_mono _ h.le).trans (hset.closed _ hjoin))
    have hle : ∀ n, r.db.contents n ⊆ M n := by
      intro n x hx
      rcases (hmem n x).mp hx with hold | ⟨hn, hnew⟩
      · exact h.le n hold
      · exact hn ▸ hnewM hnew
    have hrows : r.db.RowsOk := hst.rowsOk h.rows fun ar har x hx =>
      Option.some.inj ((hlen x hx).symm.trans (hσ ▸ har))
    have houts : ∀ x, x ∈ r.out ↔ x ∈ new ∧ x ∉ s.1.contents f.1.headRelId := fun x => by
      rw [hst.out]
      simp
    have hschema : r.db.schema = σ := hst.evolves.schema.trans hσ
    have hev : Db.Evolves {id | ∃ cr ∈ rules, cr.headRelId = id} db₀ r.db :=
      h.evolves.trans (hst.evolves.mono fun id hid => ⟨f.1, hcr, hid.symm⟩)
    rcases hcase with ⟨hnil, rfl⟩ | ⟨hne, rfl⟩
    · -- nothing new
      have hsame : ∀ n, r.db.contents n = s.1.contents n := by
        intro n
        refine Set.Subset.antisymm (fun x hx => ?_) (hadd n)
        rcases (hmem n x).mp hx with hold | ⟨hn, hnew⟩
        · exact hold
        · by_contra hno
          have hin := (houts x).mpr ⟨hnew, hn ▸ hno⟩
          rw [hnil] at hin
          cases hin
      refine ⟨hw.mono hadd, hschema, hev, hrows, fun pe hpe hclean => ?_,
        fun n => (h.ge n).trans (hadd n), hle, ?_, fun v hv => (h.items v hv).mono hadd⟩
      · rw [hst.perms] at hpe
        exact Db.fresh_congr hst.evolves.schema (view_eq_of_contents (hsame _))
          (h.perms pe hpe hclean)
      · refine h.covered.fire hadd (hnew.trans hhead) (fun r' a x hx hno => ?_) fun r' a x hx => ?_
        · rw [hsame] at hx
          exact absurd hx hno
        · rcases hx with hx | hx
          · exact .inl (.inl hx)
          · rcases hrest r' a x hx with hx | ⟨-, hr, ha, hx⟩
            · exact .inl (.inr hx)
            · exact .inr ⟨hr, ha, hx⟩
    · -- the new rows make an item
      set item : IvmWork := ⟨f.1.headRelId, ((TupleSet.init e.arity).addAll r.out).sort⟩
      have hitem : ∀ x, x ∈ item.ts.rows ↔ x ∈ r.out := fun x => by simp [item]
      have harity : σ.arities[f.1.headRelId]? = some e.arity := by
        rw [← hσ, Db.arities_getElem?, he]
        rfl
      have hok : item.Ok σ r.db.contents := by
        refine ⟨TupleSet.sorted_sort _, by simpa [item] using harity, fun hnil => hne ?_,
          fun x hx => hhead ((houts x).mp ((hitem x).mp hx)).1⟩
        refine List.eq_nil_iff_forall_not_mem.mpr fun x hx => ?_
        have hin := (hitem x).mpr hx
        rw [hnil] at hin
        cases hin
      have hsplit : ∀ a x, waitsIn (q ++ (s.2 ++ [item])) a x ↔
          waitsIn (q ++ s.2) a x ∨ (item.relId = a.2 ∧ x ∈ item.ts.rows) := by
        intro a x
        simp only [waitsIn, List.mem_append, List.mem_singleton]
        constructor
        · rintro ⟨v, hv | hv | rfl, hx⟩
          · exact .inl ⟨v, .inl hv, hx⟩
          · exact .inl ⟨v, .inr hv, hx⟩
          · exact .inr hx
        · rintro (⟨v, hv | hv, hx⟩ | hx)
          · exact ⟨v, .inl hv, hx⟩
          · exact ⟨v, .inr (.inl hv), hx⟩
          · exact ⟨item, .inr (.inr rfl), hx⟩
      have hdirty := Db.permsOk_markDirty hst.evolves.schema hst.perms
        (fun n hn => hst.evolves.view_eq (by simpa using hn)) h.perms
      refine ⟨hw.mono hadd, by simpa using hschema, hev.trans (Db.Evolves.markBuild _ _ _),
        fun id ar har => hrows id ar (by simpa using har), (Db.permBuildDirty_ok hdirty).1,
        fun n => (h.ge n).trans (hadd n), hle, ?_, fun v hv => ?_⟩
      · refine h.covered.fire hadd (hnew.trans hhead) (fun r' a x hx hno => ?_) fun r' a x hx => ?_
        · rcases (hmem a.2 x).mp hx with hx | ⟨hn, hx⟩
          · exact absurd hx hno
          · refine .inl ((hsplit a x).mpr (.inr ⟨hn.symm, (hitem x).mpr ?_⟩))
            exact (houts x).mpr ⟨hx, hn ▸ hno⟩
        · rcases hx with hx | hx
          · exact .inl (.inl ((hsplit a x).mpr (.inl hx)))
          · rcases hrest r' a x hx with hx | ⟨-, hr, ha, hx⟩
            · exact .inl (.inr hx)
            · exact .inr ⟨hr, ha, hx⟩
      · rw [← List.append_assoc, List.mem_append, List.mem_singleton] at hv
        rcases hv with hv | rfl
        · exact (h.items v hv).mono hadd
        · exact hok

/-- **One item.** -/
theorem propagateWork_propagating (hset : Setting σ rules ms M) {w : IvmWork} {q : List IvmWork}
    {db : Db} {r : Db × List IvmWork}
    (h : Propagating σ rules ms M db₀ (fun _ a x => waitsIn (w :: q) a x) (w :: q) db)
    (hrun : propagateWork rules w db = .done r) :
    Propagating σ rules ms M db₀ (fun _ a x => waitsIn (q ++ r.2) a x) (q ++ r.2) r.1 := by
  have hstart : Propagating σ rules ms M db₀ (fun r a x => waitsIn (q ++ ([] : List IvmWork)) a x ∨
      waitsFor ms σ w (workFirings rules) r a x) (q ++ []) db := by
    refine { h with
      covered := h.covered.imp fun r hr a ha x hx => ?_
      items := fun v hv => h.items v (by rw [List.append_nil] at hv; simp [hv]) }
    obtain ⟨v, hv, hrel, hx⟩ := hx
    rcases List.mem_cons.mp hv with rfl | hv
    · obtain ⟨cr, hcr, body, leaf, hm, rfl⟩ := hr
      obtain ⟨hagg, body', leaf', hm', hpos⟩ := hset.positive cr hcr
      rw [hm] at hm'
      cases hm'
      obtain ⟨i, hi, rfl⟩ := List.mem_map.mp ha
      exact .inr ⟨hrel, hx, (cr, i), mem_workFirings.mpr ⟨hcr, hagg, hpos.mem i hi⟩, body, leaf, hm,
        rfl, hi, rfl⟩
    · exact .inl ⟨v, by simpa using hv, hrel, hx⟩
  -- the induction is on the firings still to come
  have hend := runAll_inv (I := fun todo s => (∀ f ∈ todo, f ∈ workFirings rules) ∧
      w.Ok σ s.1.contents ∧ Propagating σ rules ms M db₀ (fun r a x => waitsIn (q ++ s.2) a x ∨
        waitsFor ms σ w todo r a x) (q ++ s.2) s.1)
    (fun f todo s s' ⟨hin, hw, hp⟩ hf =>
      ⟨fun g hg => hin g (by simp [hg]), fireWork_propagating hset (hin f (by simp)) hw hp hf⟩)
    (workFirings rules) ⟨fun f hf => hf, h.items w (by simp), hstart⟩ hrun
  obtain ⟨-, -, hp⟩ := hend
  refine { hp with covered := hp.covered.imp fun r _ a _ x hx => ?_ }
  rcases hx with hx | ⟨-, -, f, hf, -⟩
  · exact hx
  · cases hf

/-- **The queue**: at its end the views are the contents to reach. -/
theorem drain_propagating (hset : Setting σ rules ms M) {fuel : ℕ} {q : List IvmWork} {db db' : Db}
    (h : Propagating σ rules ms M db₀ (fun _ a x => waitsIn q a x) q db)
    (hrun : drain (propagateWork rules) fuel q db = some (.done db')) :
    Propagating σ rules ms M db₀ (fun _ _ _ => False) [] db' := by
  have hend := drain_inv (I := fun q db =>
    Propagating σ rules ms M db₀ (fun _ a x => waitsIn q a x) q db)
    (fun w q db r hp hr => propagateWork_propagating hset hp hr) fuel q db h hrun
  refine { hend with covered := hend.covered.imp fun r _ a _ x hx => ?_ }
  obtain ⟨w, hw, -⟩ := hx
  cases hw

/-! ## The queue drains -/

/-- An item makes at most one item for each firing, each for the head of a rule that
reads the relation of the item. -/
theorem propagateWork_new {w : IvmWork} {db : Db} {r : Db × List IvmWork}
    (hrun : propagateWork rules w db = .done r) :
    r.2.length ≤ (workFirings rules).length ∧ ∀ v ∈ r.2, ∃ f ∈ workFirings rules,
      (f.2.op = .scan ∨ f.2.op = .lookup) ∧ f.2.a = w.relId ∧ v.relId = f.1.headRelId := by
  let I : List (CompiledRule × VmInstr) → Db × List IvmWork → Prop := fun todo s =>
    (∀ f ∈ todo, f ∈ workFirings rules) ∧ s.2.length + todo.length ≤ (workFirings rules).length ∧
      ∀ v ∈ s.2, ∃ f ∈ workFirings rules,
        (f.2.op = .scan ∨ f.2.op = .lookup) ∧ f.2.a = w.relId ∧ v.relId = f.1.headRelId
  have hstep : ∀ f todo s s', I (f :: todo) s → fireWork w f s = .done s' → I todo s' := by
    rintro f todo s s' ⟨hin, hlen, hv⟩ hf
    rw [List.length_cons] at hlen
    refine ⟨fun g hg => hin g (by simp [hg]), ?_⟩
    rcases fireWork_cases hf with ⟨-, rfl⟩ | ⟨hop, hrel, e, r, -, -, ⟨-, rfl⟩ | ⟨-, rfl⟩⟩
    · exact ⟨by omega, hv⟩
    · exact ⟨by dsimp only; omega, hv⟩
    · refine ⟨by simp only [List.length_append, List.length_singleton]; omega, fun v hmem => ?_⟩
      rcases List.mem_append.mp hmem with hmem | hmem
      · exact hv v hmem
      · rw [List.mem_singleton.mp hmem]
        exact ⟨f, hin f (by simp), hop, hrel, rfl⟩
  obtain ⟨-, hlen, hv⟩ := runAll_inv hstep (workFirings rules)
    ⟨fun f hf => hf, by simp, fun v hv => by cases hv⟩ hrun
  exact ⟨by simpa using hlen, hv⟩

/-- **The queue drains** when the rules have a rank. -/
theorem vmPropagateDeltas_settles {rk : ℕ → ℕ} {N : ℕ} (hN : ∀ s, rk s ≤ N)
    (hrk : ∀ cr ∈ rules, ∀ i ∈ cr.instrs, (i.op = .scan ∨ i.op = .lookup) →
      rk i.a < rk cr.headRelId) (db : Db) (pend : Pending) :
    ∃ n r, ∀ m, n ≤ m → vmPropagateDeltas m db pend rules = some r := by
  set K := (workFirings rules).length
  refine drain_settles (fun w => (K + 1) ^ (N - rk w.relId)) (fun w s r hr => ?_) (ivmQueue db pend) db
  obtain ⟨hlen, hv⟩ := propagateWork_new hr
  refine sum_weight_lt (fun w : IvmWork => rk w.relId) hlen fun v hmem => ⟨?_, hN _⟩
  obtain ⟨f, hf, hop, hrel, hhead⟩ := hv v hmem
  obtain ⟨hcr, -, hi⟩ := mem_workFirings.mp hf
  rw [hhead, ← hrel]
  exact hrk f.1 hcr f.2 hi hop

end Run

/-! ## Insertions -/

/-- Rows added to relations that are no heads, and recorded. -/
structure Inserted (rules : List CompiledRule) (pend : Pending) (db₀ db : Db) : Prop where
  /-- The schema stays. -/
  schema : db.schema = db₀.schema
  /-- The heads are left alone, and no insertion is recorded for them. -/
  head : ∀ cr ∈ rules, db.rels[cr.headRelId]? = db₀.rels[cr.headRelId]? ∧
    (pend cr.headRelId).rows = []
  /-- The other relations get the recorded rows. -/
  view : ∀ id, (∀ cr ∈ rules, cr.headRelId ≠ id) →
    ∀ x, x ∈ db.view id ↔ x ∈ db₀.view id ∨ x ∈ (pend id).rows
  /-- The recorded rows have the arity of their relation. -/
  arity : ∀ id ar, db.schema.arities[id]? = some ar → (pend id).arity = ar

section Inserted

variable {rules : List CompiledRule} {pend : Pending} {db₀ db : Db}

theorem Inserted.mem (h : Inserted rules pend db₀ db) (id : ℕ) (x : Row) :
    x ∈ db.contents id ↔ x ∈ db₀.contents id ∨ x ∈ (pend id).rows := by
  by_cases hid : ∀ cr ∈ rules, cr.headRelId ≠ id
  · exact h.view id hid x
  · push Not at hid
    obtain ⟨cr, hcr, rfl⟩ := hid
    obtain ⟨hrel, hpend⟩ := h.head cr hcr
    show x ∈ db.view cr.headRelId ↔ x ∈ db₀.view cr.headRelId ∨ _
    unfold Db.view
    rw [hrel, hpend]
    simp

/-- Recorded insertions over stored facts `B₀` and views `V₀`. -/
structure Grown (rules : List CompiledRule) (pend : Pending) (B₀ V₀ : ℕ → Set Row) (db : Db) :
    Prop where
  /-- The views get the recorded rows. -/
  mem : ∀ id x, x ∈ db.contents id ↔ x ∈ V₀ id ∨ x ∈ (pend id).rows
  /-- So do the stored facts. -/
  base : ∀ id x, x ∈ resetContents db rules id ↔ x ∈ B₀ id ∨ x ∈ (pend id).rows
  /-- The recorded rows have the arity of their relation. -/
  arity : ∀ id ar, db.schema.arities[id]? = some ar → (pend id).arity = ar

theorem Inserted.grown (h : Inserted rules pend db₀ db) :
    Grown rules pend (DatalogDafsa.resetContents db₀ rules) db₀.contents db where
  mem := h.mem
  base id x := by
    by_cases hid : ∀ cr ∈ rules, cr.headRelId ≠ id
    · rw [resetContents_other hid, resetContents_other hid]
      exact h.mem id x
    · push Not at hid
      obtain ⟨cr, hcr, rfl⟩ := hid
      obtain ⟨hrel, hpend⟩ := h.head cr hcr
      rw [resetContents_head hcr, resetContents_head hcr, hpend]
      unfold Db.base
      rw [hrel]
      simp
  arity := h.arity

/-- The items of the queue are the recorded rows. -/
theorem mem_ivmQueue {w : IvmWork} : w ∈ ivmQueue db pend ↔
    ∃ id < db.rels.length, (pend id).rows ≠ [] ∧ w = ⟨id, (pend id).sort⟩ := by
  simp only [ivmQueue, List.mem_filterMap, List.mem_range]
  refine exists_congr fun id => and_congr_right fun _ => ?_
  by_cases hnil : (pend id).rows = []
  · simp [hnil]
  · rw [if_neg (by simpa using hnil), Option.some.injEq]
    exact ⟨fun h => ⟨hnil, h.symm⟩, fun h => h.2.symm⟩

end Inserted

/-! ## Against a from-scratch evaluation -/

section Scratch

variable {d : Decls} {prog : List Rule} {seeds : List ℕ} {comp₀ : ℕ → ℕ} {σ : Schema}
  {rules : List CompiledRule} {ms : CompiledRule → RuleMeaning}

/-- A rule reads its atoms from relations of a lower rank. -/
theorem positive_rank {rk : ℕ → ℕ} (hrk : Ranked (opers σ ms rules) rk) {cr : CompiledRule}
    (hcr : cr ∈ rules) {body : List VmInstr} {leaf : VmInstr} (hm : ms cr = .plan (.flat body leaf))
    (hp : Positive σ cr body leaf) {i : VmInstr} (hi : i ∈ cr.instrs)
    (hop : i.op = .scan ∨ i.op = .lookup) : rk i.a < rk cr.headRelId := by
  have hatom := hp.tidy i hi (by rcases hop with hop | hop <;> rw [hop] <;> rfl)
  have hlt := hrk _ (List.mem_map_of_mem hcr) i.a (.inl (by rw [hm]; exact ⟨i, hatom, rfl⟩))
  rwa [RuleMeaning.head_oper] at hlt

/-- **Propagating insertions gives the model of the enlarged facts**: for positive rules
without recursion, from views that are the model of the old ones. -/
theorem vmPropagateDeltas_model (h : Program d prog seeds comp₀ σ rules ms)
    (hpos : ∀ cr ∈ rules, cr.hasAggregate = false ∧ ∃ body leaf, ms cr = .plan (.flat body leaf) ∧
      Positive σ cr body leaf)
    (hnonrec : ∀ cr ∈ rules, cr.isRecursive = false) {B₀ V₀ : ℕ → Set Row} {db : Db}
    {pend : Pending} (hσ : db.schema = σ) (hM₀ : IsModel (opers σ ms rules) B₀ V₀)
    (hins : Grown rules pend B₀ V₀ db) (hrows : db.RowsOk) (hperms : db.PermsOk) :
    ∃ n r, (∀ m, n ≤ m → vmPropagateDeltas m db pend rules = some r) ∧
      ∀ db', r = .done db' → db'.RowsOk ∧ db'.PermsOk ∧
        Db.Evolves {id | ∃ cr ∈ rules, cr.headRelId = id} db db' ∧
        IsModel (opers σ ms rules) (resetContents db rules) db'.contents := by
  obtain ⟨rk, hrk, hN⟩ := exists_rank (h.acyclic hnonrec)
  have hstrict : ∀ r ∈ opers σ ms rules, r.strict = ∅ := by
    intro r hr
    obtain ⟨cr, hcr, rfl⟩ := List.mem_map.mp hr
    obtain ⟨-, body, leaf, hm, hp⟩ := hpos cr hcr
    rw [hm]
    exact hp.strict_oper
  have hdep : ∀ cr ∈ rules, ∀ i ∈ cr.instrs, (i.op = .scan ∨ i.op = .lookup) →
      rk i.a < rk cr.headRelId := by
    intro cr hcr i hi hop
    obtain ⟨-, body, leaf, hm, hp⟩ := hpos cr hcr
    exact positive_rank hrk hcr hm hp hi hop
  obtain ⟨n, r, hr⟩ := vmPropagateDeltas_settles hN hdep db pend
  refine ⟨n, r, hr, fun db' hdone => ?_⟩
  subst hdone
  obtain ⟨M, hM⟩ := exists_model hrk (resetContents db rules)
  have hclosed : ∀ V B, IsModel (opers σ ms rules) B V → ∀ j ∈ joins σ rules ms,
      j.out V ⊆ V j.head := by
    rintro V B hV j ⟨cr, hcr, body, leaf, hm, rfl⟩
    obtain ⟨-, body', leaf', hm', hp⟩ := hpos cr hcr
    rw [hm] at hm'
    cases hm'
    rw [← hp.out]
    intro t ht
    show t ∈ V cr.headRelId
    rw [hV]
    exact .inr ⟨_, List.mem_map_of_mem hcr, RuleMeaning.head_oper _ _ _, by rw [hm]; exact ht⟩
  have hset : Setting σ rules ms M := by
    refine ⟨hpos, fun cr hcr body leaf hm i hi heq => ?_, hclosed M _ hM⟩
    obtain ⟨-, body', leaf', hm', hp⟩ := hpos cr hcr
    rw [hm] at hm'
    cases hm'
    have hlt := hdep cr hcr i (hp.mem i hi) (hp.atoms i hi)
    rw [heq] at hlt
    exact absurd hlt (lt_irrefl _)
  have hle₀ : ∀ s, V₀ s ⊆ M s :=
    model_mono hrk hstrict hM₀ hM fun s x hx => (hins.base s x).mpr (.inl hx)
  have hstart : Propagating σ rules ms M db (fun _ a x => waitsIn (ivmQueue db pend) a x)
      (ivmQueue db pend) db := by
    have hdecl : ∀ id x, x ∈ db.contents id → id < db.rels.length := by
      intro id x hx
      by_contra hno
      have hnone : db.rels[id]? = none := List.getElem?_eq_none (by omega)
      simp [Db.contents, Db.view, hnone] at hx
    refine ⟨hσ, Db.Evolves.refl _ _, hrows, hperms, fun _ => subset_rfl, fun s x hx => ?_, ?_,
      fun w hw => ?_⟩
    · rcases (hins.mem s x).mp hx with hx | hp
      · exact hle₀ s hx
      · rw [hM s]
        exact .inl ((hins.base s x).mpr (.inr hp))
    · refine Covered.start (hclosed V₀ _ hM₀)
        (fun s x hx => (hins.mem s x).mpr (.inl hx)) fun r a x hx hno => ?_
      have hp : x ∈ (pend a.2).rows := ((hins.mem a.2 x).mp hx).resolve_left hno
      exact ⟨_, mem_ivmQueue.mpr ⟨a.2, hdecl a.2 x hx, List.ne_nil_of_mem hp, rfl⟩, rfl,
        TupleSet.mem_rows_sort.mpr hp⟩
    · obtain ⟨id, hid, hne, rfl⟩ := mem_ivmQueue.mp hw
      obtain ⟨x, hx⟩ := List.exists_mem_of_ne_nil _ hne
      have har : db.schema.arities[id]? = some db.rels[id].arity := by
        rw [Db.arities_getElem?, List.getElem?_eq_getElem hid]
        rfl
      refine ⟨TupleSet.sorted_sort _, ?_, List.ne_nil_of_mem (TupleSet.mem_rows_sort.mpr hx),
        fun x hx => (hins.mem id x).mpr (.inr (TupleSet.mem_rows_sort.mp hx))⟩
      rw [← hσ, har, TupleSet.arity_sort, hins.arity id _ har]
  have hend := drain_propagating hset hstart (hr n le_rfl)
  have hB : ∀ s, resetContents db rules s ⊆ db'.contents s := fun s x hx => by
    refine hend.ge s ((hins.mem s x).mpr (((hins.base s x).mp hx).imp_left fun hx => ?_))
    rw [hM₀ s]
    exact .inl hx
  have hreach : db'.contents = M := by
    refine eq_of_closed hrk hM hB hend.le fun o ho => ?_
    obtain ⟨cr, hcr, rfl⟩ := List.mem_map.mp ho
    obtain ⟨-, body, leaf, hm, hp⟩ := hpos cr hcr
    rw [hm, hp.out, RuleMeaning.head_oper]
    exact hend.covered.closed (fun _ _ _ hno => hno) ⟨cr, hcr, body, leaf, hm, rfl⟩
  refine ⟨hend.rows, hend.perms, hend.evolves, ?_⟩
  rw [hreach]
  exact hM

/-- **Propagating insertions gives the views of a from-scratch evaluation**: for an
eligible rule set without recursion, from views that a from-scratch evaluation would
leave as they are, after any insertions into relations that are no heads, the queue
drains, and if nothing fails every view is the one `vm_execute` computes from the
enlarged facts; a permutation index that is not marked dirty is up to date. -/
theorem vmPropagateDeltas_scratch (h : Program d prog seeds comp₀ σ rules ms)
    (htidy : ∀ cr ∈ rules, Tidy cr (ms cr)) (helig : vmIvmEligible rules = true)
    (hnonrec : ∀ cr ∈ rules, cr.isRecursive = false) {db₀ db s₀ : Db} {pend pend₀ : Pending}
    (hσ : db₀.schema = σ) (hrows₀ : db₀.RowsOk) (hperms₀ : db₀.PermsOk)
    (hscratch : vmExecute db₀ pend₀ rules = .done s₀) (hviews : s₀.contents = db₀.contents)
    (hins : Inserted rules pend db₀ db) (hrows : db.RowsOk) (hperms : db.PermsOk) :
    ∃ n r, (∀ m, n ≤ m → vmPropagateDeltas m db pend rules = some r) ∧
      ∀ db', r = .done db' → db'.RowsOk ∧ db'.PermsOk ∧
        ∀ pend' s, vmExecute db pend' rules = .done s → db'.contents = s.contents := by
  have hpos : ∀ cr ∈ rules, _ := fun cr hcr =>
    positive_of_eligible h.wf htidy helig hnonrec hcr
  have hsched : Scheduled (opers σ ms (ruleStratumOrder rules)) := by
    intro i r hr s hs
    obtain ⟨cr, hcr, rfl⟩ := List.mem_map.mp (List.mem_of_getElem? hr)
    obtain ⟨-, body, leaf, hm, hp⟩ := hpos cr ((ruleStratumOrder_perm rules).mem_iff.mp hcr)
    rw [hm] at hs
    rw [hp.strict_oper] at hs
    exact absurd hs (Set.notMem_empty s)
  have hM₀ := h.vmExecute_model hnonrec (fun _ => hsched.inOrder) hσ hrows₀ hperms₀ hscratch
  rw [hviews] at hM₀
  have hσ' : db.schema = σ := hins.schema.trans hσ
  obtain ⟨n, r, hr, hspec⟩ := vmPropagateDeltas_model h hpos hnonrec hσ' hM₀ hins.grown hrows
    hperms
  refine ⟨n, r, hr, fun db' hdone => ?_⟩
  obtain ⟨hrows', hperms', -, hM⟩ := hspec db' hdone
  obtain ⟨rk, hrk, -⟩ := exists_rank (h.acyclic hnonrec)
  exact ⟨hrows', hperms', fun pend' s hs =>
    hM.unique hrk (h.vmExecute_model hnonrec (fun _ => hsched.inOrder) hσ' hrows hperms hs)⟩

end Scratch

theorem Db.contents_eq_of_views {db db' : Db}
    (h : db'.rels.map (fun e => e.store.view) = db.rels.map fun e => e.store.view) :
    db'.contents = db.contents := by
  have hview : ∀ (db : Db) (id : ℕ),
      db.view id = ((db.rels.map fun e => e.store.view)[id]?).getD .create := by
    intro db id
    rw [List.getElem?_map]
    unfold Db.view
    cases db.rels[id]? <;> rfl
  ext id x
  show x ∈ db'.view id ↔ x ∈ db.view id
  rw [hview, hview, h]

namespace Hops

/-- Relations `e`, `q`, `r`. -/
def decls : Decls := ["e", "q", "r"]

/-- `q(X, Z) :- e(X, Y), e(Y, Z).  r(X) :- q(X, Y).` -/
def source : List Rule :=
  [⟨{ pred := "q", args := [.var "X", .var "Z"] },
      [{ pred := "e", args := [.var "X", .var "Y"] }, { pred := "e", args := [.var "Y", .var "Z"] }]⟩,
    ⟨{ pred := "r", args := [.var "X"] }, [{ pred := "q", args := [.var "X", .var "Y"] }]⟩]

/-- Its bytecode. -/
def rules : List CompiledRule :=
  [{ headRelId := 1
     instrs := [⟨.scan, 0, 2, 0, 0, [0, 1], 0⟩, ⟨.lookup, 0, 1, 2, 0, [1, 2], 1⟩,
       ⟨.project, 1, 2, 0, 0, [0, 2], 0⟩, ⟨.halt, 0, 0, 0, 0, [], 0⟩] },
    { headRelId := 2
      instrs := [⟨.scan, 1, 2, 0, 0, [0, 1], 0⟩, ⟨.project, 2, 1, 0, 0, [0], 0⟩,
        ⟨.halt, 0, 0, 0, 0, [], 0⟩] }]

/-- `e` holds the given rows. -/
def dbOf (rows : List Row) : Db :=
  { rels := [⟨2, .aliased (Dafsa.ofRows rows)⟩, ⟨2, .aliased .create⟩, ⟨1, .aliased .create⟩]
    perms := []
    tbl := ⟨.empty, .empty⟩ }

/-- `e(2, 3)` and `e(3, 3)` are pending. -/
def pend : Pending := fun id =>
  if id = 0 then (TupleSet.init 2).addAll [[2, 3], [3, 3]]
  else TupleSet.init (if id = 1 then 2 else 1)

theorem rowsOk {rows : List Row} (h : ∀ x ∈ rows, x.length = 2) : (dbOf rows).RowsOk := by
  have hmem : ∀ x ∈ Dafsa.ofRows rows, x.length = 2 := fun x hx => h x (Dafsa.mem_ofRows.mp hx)
  intro id ar har
  rw [Db.arities_getElem?] at har
  match id with
  | 0 =>
    cases har
    exact ⟨hmem, hmem⟩
  | 1 | 2 =>
    cases har
    exact ⟨fun x hx => absurd hx (Dafsa.not_mem_create x),
      fun x hx => absurd hx (Dafsa.not_mem_create x)⟩
  | id + 3 => cases har

theorem permsOk (rows : List Row) : (dbOf rows).PermsOk := fun pe hpe => by cases hpe

theorem program (rows : List Row) :
    Program decls source [] (fun _ => 0) (dbOf rows).schema rules flatMeaning :=
  show Program decls source [] (fun _ => 0) (dbOf []).schema rules flatMeaning from
    Program.of_plain (by decide +kernel) (by decide +kernel)

theorem tidy : ∀ cr ∈ rules, Tidy cr (flatMeaning cr) := by
  intro cr hcr
  rcases List.mem_pair.mp hcr with rfl | rfl
  · show ∀ i ∈ CompiledRule.instrs _, _
    decide
  · show ∀ i ∈ CompiledRule.instrs _, _
    decide

/-- From scratch, one edge gives no hops. -/
theorem scratch : ∃ s₀, vmExecute (dbOf [[1, 2]]) pend rules = .done s₀ ∧
    s₀.contents = (dbOf [[1, 2]]).contents := by
  have hrun : (vmExecute (dbOf [[1, 2]]) pend rules).check (fun s =>
      decide (s.rels.map (fun e => e.store.view) =
        (dbOf [[1, 2]]).rels.map fun e => e.store.view)) = true := by
    decide +kernel
  obtain ⟨s, hs, hviews⟩ := Final.exists_of_check hrun
  exact ⟨s, hs, Db.contents_eq_of_views (of_decide_eq_true hviews)⟩

theorem inserted : Inserted rules pend (dbOf [[1, 2]]) (dbOf [[1, 2], [2, 3], [3, 3]]) where
  schema := rfl
  head cr hcr := by
    rcases List.mem_pair.mp hcr with rfl | rfl <;> exact ⟨rfl, rfl⟩
  view id hid x := by
    match id with
    | 0 =>
      show x ∈ Dafsa.ofRows _ ↔ x ∈ Dafsa.ofRows _ ∨ _
      simp [pend, Dafsa.mem_ofRows]
    | 1 => exact absurd rfl (hid _ (List.mem_cons_self ..))
    | 2 => exact absurd rfl (hid _ (List.mem_cons_of_mem _ (List.mem_cons_self ..)))
    | id + 3 => simp [pend, dbOf, Db.view]
  arity id ar har := by
    rw [Db.arities_getElem?] at har
    match id with
    | 0 | 1 | 2 =>
      cases har
      rfl
    | id + 3 => cases har

end Hops

/-- Two edges at once into a relation that is joined with itself: the queue drains, and the
new hops are there. -/
theorem vmPropagateDeltas_scratch_hops :
    ∃ db', (∀ m, 8 ≤ m → vmPropagateDeltas m (Hops.dbOf [[1, 2], [2, 3], [3, 3]]) Hops.pend
        Hops.rules = some (.done db')) ∧
      [1, 3] ∈ db'.contents 1 ∧ [2] ∈ db'.contents 2 ∧ db'.RowsOk ∧ db'.PermsOk ∧ ∀ pend' s,
        vmExecute (Hops.dbOf [[1, 2], [2, 3], [3, 3]]) pend' Hops.rules = .done s →
          db'.contents = s.contents := by
  have hrun : (vmPropagateDeltas 8 (Hops.dbOf [[1, 2], [2, 3], [3, 3]]) Hops.pend Hops.rules).any
      (Final.check fun s => (s.view 1).lookup [1, 3] && (s.view 2).lookup [2]) = true := by
    decide +kernel
  obtain ⟨s₀, hs₀, hviews⟩ := Hops.scratch
  obtain ⟨n, r, hr, hspec⟩ := vmPropagateDeltas_scratch (Hops.program _) Hops.tidy (by decide)
    (by decide) rfl (Hops.rowsOk (by decide)) (Hops.permsOk _) hs₀ hviews Hops.inserted
    (Hops.rowsOk (by decide)) (Hops.permsOk _)
  obtain ⟨r', hs, hcheck⟩ := (Option.any_eq_true _ _).mp hrun
  have hrr : r' = r :=
    Option.some.inj ((drain_mono (le_max_left 8 n) hs).symm.trans (hr _ (le_max_right 8 n)))
  obtain ⟨db', rfl, hrows⟩ := Final.exists_of_check hcheck
  simp only [Bool.and_eq_true, Dafsa.lookup_iff] at hrows
  exact ⟨db', fun m hm => drain_mono hm hs, hrows.1, hrows.2, hspec db' hrr.symm⟩

end DatalogDafsa
