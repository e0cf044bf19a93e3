import DatalogDafsa.Eval.Layers
import DatalogDafsa.Eval.Propagate

/-!
# Insertions into a program with recursion

`vm_execute_ivm` brings the views up to date after insertions: it keeps the views,
sweeps the rules without recursion again, and seeds the rounds of each stratum with
what the insertions give.  Only eligible rule sets come here: nothing is negated, and a
recursive rule reads the heads of its own stratum and relations without rules, so what
it finds new was inserted.

## Main definitions

* `reads_of_eligible` — what an atom of an eligible recursive rule reads.
* `before_of_eligible` — what a recursive rule finds new was inserted.
* `vmExecuteIvm_scratch` — the views are those of a from-scratch evaluation.
-/

namespace DatalogDafsa

open Backtrack Operators Worklist

section

variable {d : Decls} {prog : List Rule} {seeds : List ℕ} {comp₀ : ℕ → ℕ} {σ : Schema}
  {rules : List CompiledRule} {ms : CompiledRule → RuleMeaning}

theorem recStratum_eq_some {id n : ℕ} (h : recStratum rules id = some n) :
    ∃ cr ∈ rules, cr.isRecursive = true ∧ cr.headRelId = id ∧ cr.stratum = n := by
  obtain ⟨cr, hcr, rfl⟩ := Option.map_eq_some_iff.mp h
  obtain ⟨hin, hprop⟩ := List.mem_filter.mp (List.mem_of_getLast? hcr)
  simp only [Bool.and_eq_true, decide_eq_true_eq] at hprop
  exact ⟨cr, hin, hprop.1, hprop.2, rfl⟩

/-- **What an atom of an eligible recursive rule reads**: a recursive head of the stratum,
or a relation without rules, and that by a scan or a lookup. -/
theorem reads_of_eligible (hwf : ∀ cr ∈ rules, RuleWf σ cr (ms cr))
    (helig : vmIvmEligible rules = true) (hrels : σ.arities.length ≤ maxRels) {cr : CompiledRule}
    (hcr : cr ∈ rules) (hrec : cr.isRecursive = true) {P : Plan} (hm : ms cr = .plan P)
    {i : VmInstr} (hi : i ∈ P.atoms) :
    i.a < maxRels ∧ ((∃ cr' ∈ rules, cr'.isRecursive = true ∧ cr'.headRelId = i.a ∧
        cr'.stratum = cr.stratum) ∨
      (i.op = .scan ∨ i.op = .lookup) ∧ ∀ cr' ∈ rules, cr'.headRelId ≠ i.a) := by
  have hok := hwf cr hcr
  rw [hm] at hok
  obtain ⟨hin, hf⟩ := Plan.mem_instrs_of_atoms hi
  have hlt : i.a < maxRels := by
    have har := (RuleOk.reads hok).atoms i hin hf
    exact (List.getElem?_eq_some_iff.mp har).1.trans_le hrels
  refine ⟨hlt, ?_⟩
  have hinstr := ((eligible_instrs helig hcr).2 i (RuleOk.mem_instrs hok hi)).1
  have hhead : isRuleHead rules i.a = false → ∀ cr' ∈ rules, cr'.headRelId ≠ i.a := by
    intro hno cr' hcr' heq
    have hyes : isRuleHead rules i.a = true := List.any_eq_true.mpr ⟨cr', hcr', by simpa using heq⟩
    rw [hno] at hyes
    cases hyes
  have hscan : (i.op = .scan ∨ i.op = .lookup) → (!cr.isRecursive || decide (maxRels ≤ i.a) ||
      !isRuleHead rules i.a || recStratum rules i.a == some cr.stratum) = true →
      (∃ cr' ∈ rules, cr'.isRecursive = true ∧ cr'.headRelId = i.a ∧ cr'.stratum = cr.stratum) ∨
        (i.op = .scan ∨ i.op = .lookup) ∧ ∀ cr' ∈ rules, cr'.headRelId ≠ i.a := by
    intro hop hcheck
    rw [hrec, decide_eq_false (Nat.not_le.mpr hlt)] at hcheck
    simp only [Bool.not_true, Bool.false_or, Bool.or_eq_true, Bool.not_eq_true', beq_iff_eq]
      at hcheck
    rcases hcheck with hno | hst
    · exact .inr ⟨hop, hhead hno⟩
    · exact .inl (recStratum_eq_some hst)
  cases hop : i.op with
  | scan =>
    refine (hscan (.inl hop) ?_).imp_right fun h => ⟨.inl rfl, h.2⟩
    simpa only [ivmInstrOk, hop] using hinstr
  | lookup =>
    refine (hscan (.inr hop) ?_).imp_right fun h => ⟨.inr rfl, h.2⟩
    simpa only [ivmInstrOk, hop] using hinstr
  | lookupPerm =>
    simp only [ivmInstrOk, hop, Bool.and_eq_true, beq_iff_eq] at hinstr
    exact .inl (recStratum_eq_some hinstr.2)
  | walk => simp [ivmInstrOk, hop] at hinstr
  | hashJoin => simp [ivmInstrOk, hop] at hinstr
  | _ => rw [hop] at hf; cases hf

/-- Insertions in key order, over contents that hold them. -/
theorem Inserted.pendOk {pend : Pending} {db₀ db : Db} (h : Inserted rules pend db₀ db)
    {V : ℕ → Set Row} (hV : ∀ s, db.contents s ⊆ V s) : pend.sorted.Ok db.schema V where
  sorted id hid := by
    unfold Pending.sorted
    rw [if_pos hid]
    exact TupleSet.sorted_sort _
  arity id ar har := by
    unfold Pending.sorted
    split
    · exact h.arity id ar har
    · exact h.arity id ar har
  mem id x hx := by
    refine hV id ((h.mem id x).mpr (.inr ?_))
    unfold Pending.sorted at hx
    split at hx
    · simpa using hx
    · exact hx

/-- **What a recursive rule finds new was inserted.** -/
theorem before_of_eligible (h : RecProgram d prog seeds comp₀ σ rules ms)
    (htidy : ∀ cr ∈ rules, Tidy cr (ms cr)) (helig : vmIvmEligible rules = true)
    (hrels : σ.arities.length ≤ maxRels)
    {pend : Pending} {db₀ db db₁ db₂ db₄ : Db}
    (hins : Inserted rules pend db₀ db) (hcont : db₁.contents = db.contents)
    {lv : ℕ → ℕ} {k : ℕ} (hdone : StrataDone σ rules ms lv db₁ k db₂) (hσ₄ : db₄.schema = σ)
    (hheads : ∀ id ∈ recHeads (stratumRules rules k), db₄.contents id = db₂.contents id)
    (hev : Db.Evolves
      {id | ∃ cr ∈ stratumRules rules k, cr.isRecursive = false ∧ cr.headRelId = id} db₂ db₄)
    (hge : ∀ n, db₂.contents n ⊆ db₄.contents n)
    (hclosed : ∀ r ∈ opers σ ms rules, r.out db₀.contents ⊆ db₀.contents r.head) :
    Before (stratumRules rules k) ms pend.sorted db₄ db₀.contents where
  le s := by
    intro x hx
    refine hge s (hdone.perfect.base s ?_)
    rw [hcont]
    exact (hins.mem s x).mpr (.inl hx)
  closed r hr := by
    obtain ⟨cr, hcr, hrec, P, hm, rfl⟩ := hr
    have hin := (mem_stratumRules.mp hcr).1
    obtain ⟨body, leaf, hm', hstrict⟩ :=
      flat_of_eligible (h.program.wf cr hin) (htidy cr hin) helig hin
    rw [hm] at hm'
    cases hm'
    have hok := h.program.wf cr hin
    rw [hm] at hok
    have hout : ((RuleMeaning.plan (.flat body leaf)).oper σ cr).out db₀.contents =
        (planJoin σ cr (.flat body leaf) db₄.contents).out db₀.contents :=
      out_planJoin (RuleOk.shape hok) (RuleOk.oneEach hok) fun id hid => by
        have hid' : id ∈ Plan.strictReads (body ++ [leaf]) := hid
        rw [hstrict] at hid'
        exact absurd hid' (Set.notMem_empty id)
    have hcl := hclosed _ (List.mem_map_of_mem hin)
    rw [hm, hout] at hcl
    rw [hσ₄]
    exact hcl
  new cr hcr hrec P hm i hi x hx hno := by
    obtain ⟨hin, rfl⟩ := mem_stratumRules.mp hcr
    obtain ⟨st, recursive, hlev⟩ := h.levels
    obtain ⟨hlt', hcase⟩ := reads_of_eligible h.program.wf helig hrels hin hrec hm hi
    rcases hcase with ⟨cr', hcr', hrec', heq, hst⟩ | ⟨hop, hnone⟩
    · -- the views of the recursive heads are those of before
      have hrh : i.a ∈ recHeads (stratumRules rules cr.stratum) :=
        mem_recHeads.mpr ⟨⟨cr', mem_stratumRules.mpr ⟨hcr', hst⟩, hrec', heq⟩, hlt'⟩
      have hsame : db₂.contents i.a = db₁.contents i.a := by
        refine contents_eq_of_evolves hdone.evolves ?_
        rintro ⟨cr'', hcr'', hless, heq'⟩
        have h₁ := hlev.stratum cr'' hcr''
        have h₂ := hlev.stratum cr' hcr'
        rw [heq'] at h₁
        rw [heq] at h₂
        omega
      rw [hheads _ hrh, hsame, hcont] at hx
      refine absurd hx fun hx => hno ?_
      rcases (hins.mem i.a x).mp hx with hx | hx
      · exact hx
      · rw [← heq, (hins.head cr' hcr').2] at hx
        cases hx
    · -- the relation has no rules
      have hnrh : i.a ∉ recHeads (stratumRules rules cr.stratum) := by
        intro hrh
        obtain ⟨⟨cr', hcr', -, heq⟩, -⟩ := mem_recHeads.mp hrh
        exact hnone cr' (mem_stratumRules.mp hcr').1 heq
      have hsame : db₄.contents i.a = db.contents i.a := by
        rw [contents_eq_of_evolves hev, contents_eq_of_evolves hdone.evolves, hcont]
        · rintro ⟨cr', hcr', -, heq⟩
          exact hnone cr' hcr' heq
        · rintro ⟨cr', hcr', -, heq⟩
          exact hnone cr' (mem_stratumRules.mp hcr').1 heq
      rw [hsame] at hx
      refine ⟨hop, hlt', hnrh, ?_⟩
      have hrow := ((hins.mem i.a x).mp hx).resolve_left hno
      unfold Pending.sorted
      rw [if_pos hlt']
      simpa using hrow

/-- Eligible rules read nothing strictly. -/
theorem strict_of_eligible (hwf : ∀ cr ∈ rules, RuleWf σ cr (ms cr))
    (htidy : ∀ cr ∈ rules, Tidy cr (ms cr)) (helig : vmIvmEligible rules = true) :
    ∀ r ∈ opers σ ms rules, r.strict = ∅ := by
  intro r hr
  obtain ⟨cr, hcr, rfl⟩ := List.mem_map.mp hr
  obtain ⟨body, leaf, hm, hnone⟩ := flat_of_eligible (hwf cr hcr) (htidy cr hcr) helig hcr
  rw [hm]
  exact hnone

/-- Without strict reads one level is enough. -/
theorem stratified_zero {rs : List (Oper ℕ Row)} (hstrict : ∀ r ∈ rs, r.strict = ∅) :
    Stratified rs fun _ => 0 := fun r hr => ⟨fun _ _ => le_rfl, fun s hs => by
  rw [hstrict r hr] at hs
  exact absurd hs (Set.notMem_empty s)⟩

/-- An eligible rule set with recursion is in strata. -/
theorem inStrata_of_eligible (h : RecProgram d prog seeds comp₀ σ rules ms)
    (hrec : ∃ cr ∈ rules, cr.isRecursive = true)
    (hfew : ∀ n, (stratumRules rules n).length ≤ maxStratumRules)
    (htidy : ∀ cr ∈ rules, Tidy cr (ms cr)) (helig : vmIvmEligible rules = true)
    (hlt : ∀ cr ∈ rules, cr.headRelId < maxRels) : InStrata d prog seeds comp₀ σ rules ms := by
  refine ⟨h, hlt, hrec, fun n i r hr s hs => ?_, hfew⟩
  obtain ⟨cr, hcr, rfl⟩ := List.mem_map.mp (List.mem_of_getElem? hr)
  have hin := (mem_stratumRules.mp (List.mem_filter.mp hcr).1).1
  rw [strict_of_eligible h.program.wf htidy helig _ (List.mem_map_of_mem hin)] at hs
  exact absurd hs (Set.notMem_empty s)

/-- **Incremental evaluation of insertions gives the model of the enlarged facts**, from
views that are the model of the old ones. -/
theorem vmExecuteIvm_model (hstrata : InStrata d prog seeds comp₀ σ rules ms)
    (htidy : ∀ cr ∈ rules, Tidy cr (ms cr)) (helig : vmIvmEligible rules = true)
    (hrels : σ.arities.length ≤ maxRels) {db₀ db : Db} {pend : Pending} (hσ : db.schema = σ)
    (hV : PerfectModel (opers σ ms rules) (fun _ => 0) (resetContents db₀ rules) db₀.contents)
    (hins : Inserted rules pend db₀ db) (hrows : db.RowsOk) (hperms : db.PermsOk) {db' : Db}
    (hrun : vmExecuteIvm db pend rules = .done db') :
    db'.Ok ∧ Db.Evolves {id | ∃ cr ∈ rules, cr.headRelId = id} db db' ∧
      PerfectModel (opers σ ms rules) (fun _ => 0) (resetContents db rules) db'.contents := by
  have h := hstrata.program
  have hlv := stratified_zero (strict_of_eligible h.program.wf htidy helig)
  have hne : rules ≠ [] := by
    obtain ⟨cr, hcr, -⟩ := hstrata.some_rec
    exact List.ne_nil_of_mem hcr
  obtain ⟨hbuilt, hclean⟩ := Db.permBuildDirty_ok hperms
  have hok₁ : db.permBuildDirty.Ok :=
    ⟨fun id ar har => hrows id ar (by simpa using har), hbuilt, hclean⟩
  have hcont : db.permBuildDirty.contents = db.contents := rfl
  unfold vmExecuteIvm vmExecuteMode at hrun
  have hempty : rules.isEmpty = false := by simpa using hne
  simp only [hempty, Bool.false_eq_true, if_false, if_true] at hrun
  obtain ⟨hev, hok', hperf⟩ := evalRules_perfect hstrata hlv hok₁ (fun k db₂ db₃ hdone hrun₂ => by
    have hσ₂ : db₂.schema = σ := hdone.evolves.schema.trans (by simpa using hσ)
    have hset := h.stratum hstrata.heads (hstrata.scheduled k)
    refine evalStratum_done hstrata hdone.ok hσ₂ ?_ (fun hivm => by cases hivm) hlv hrun₂
    intro db₄ s hok₄ hσ₄ hheads hev hclosed hge hseed hruns
    have hσ₄' : db₄.schema = σ := hσ₄.trans hσ₂
    rw [← hσ₄'] at hset
    have hbefore := before_of_eligible h htidy helig hrels hins hcont hdone hσ₄' hheads hev
      hge hV.closed
    have hpend : pend.sorted.Ok db.schema db₄.contents := hins.pendOk fun n x hx =>
      hge n (hdone.perfect.base n hx)
    rw [hσ, ← hσ₄'] at hpend
    exact seedRules_ivm hset.recs hset.wf hclosed hpend hbefore hseed hruns) hrun
  have hbuild : Db.Evolves {id | ∃ cr ∈ rules, cr.headRelId = id} db db.permBuildDirty :=
    Db.Evolves.of_rels (by simp) rfl
  refine ⟨hok', hbuild.trans hev, ?_⟩
  -- the model of the enlarged facts, which lies between the facts and the old views
  have hM : PerfectModel (opers σ ms rules) (fun _ => 0) (resetContents db rules) _ :=
    hlv.perfectModel
  rw [← hM.eq_of_between hperf (fun id => ?_) fun id x hx => ?_]
  · exact hM
  · intro x hx
    exact (hins.mem id x).mpr (((hins.grown.base id x).mp hx).imp_left (hV.base id ·))
  · -- old views follow from the old facts, insertions are facts
    rcases (hins.mem id x).mp hx with hx | hx
    · exact hV.least 0 _ (fun _ hlt => absurd hlt (Nat.not_lt_zero _))
        (fun n y hy => hM.base n ((hins.grown.base n y).mpr (.inl hy)))
        (fun r hr _ => hM.closed r hr) id rfl hx
    · exact hM.base id ((hins.grown.base id x).mpr (.inr hx))

/-- **Incremental evaluation of insertions is from-scratch evaluation**: for an eligible
rule set with recursion, from views that a from-scratch evaluation would leave as they
are, after any insertions into relations that are no heads, the views that
`vm_execute_ivm` leaves are those `vm_execute` computes from the enlarged facts. -/
theorem vmExecuteIvm_scratch (h : RecProgram d prog seeds comp₀ σ rules ms)
    (hrec : ∃ cr ∈ rules, cr.isRecursive = true)
    (hfew : ∀ n, (stratumRules rules n).length ≤ maxStratumRules)
    (htidy : ∀ cr ∈ rules, Tidy cr (ms cr)) (helig : vmIvmEligible rules = true)
    (hrels : σ.arities.length ≤ maxRels) {db₀ db s₀ : Db} {pend pend₀ : Pending}
    (hσ : db₀.schema = σ) (hrows₀ : db₀.RowsOk) (hperms₀ : db₀.PermsOk)
    (hfacts : ∀ n id, ReadTwice rules ms n id → ∀ x, x ∉ db₀.base id)
    (hscratch : vmExecute db₀ pend₀ rules = .done s₀) (hviews : s₀.contents = db₀.contents)
    (hins : Inserted rules pend db₀ db) (hrows : db.RowsOk) (hperms : db.PermsOk) {db' : Db}
    (hrun : vmExecuteIvm db pend rules = .done db') :
    db'.Ok ∧ ∀ pend' s, vmExecute db pend' rules = .done s → db'.contents = s.contents := by
  obtain ⟨cr₀, hcr₀, hrec₀⟩ := hrec
  obtain ⟨-, -, -, -, hlt, -⟩ :=
    vmExecute_reset (List.ne_nil_of_mem hcr₀) hrows₀ hperms₀ hscratch
  have hstrata := inStrata_of_eligible h ⟨cr₀, hcr₀, hrec₀⟩ hfew htidy helig hlt
  have hlv := stratified_zero (strict_of_eligible h.program.wf htidy helig)
  have hσdb : db.schema = σ := hins.schema.trans hσ
  have hV := (vmExecute_layers hstrata hlv hσ hrows₀ hperms₀ hfacts hscratch).2
  rw [hviews] at hV
  obtain ⟨hok', -, hperf⟩ := vmExecuteIvm_model hstrata htidy helig hrels hσdb hV hins hrows hperms
    hrun
  refine ⟨hok', fun pend' s hs => ?_⟩
  have hfacts' : ∀ n id, ReadTwice rules ms n id → ∀ x, x ∉ db.base id := by
    intro n id htwice x hx
    refine hfacts n id htwice x ?_
    obtain ⟨-, -, -, P, -, i, -, j, -, -, -, hja, rfl⟩ := htwice
    obtain ⟨⟨cr, hcr, -, heq⟩, -⟩ := mem_recHeads.mp hja
    rw [← heq] at hx ⊢
    unfold Db.base at hx ⊢
    rwa [← (hins.head cr (mem_stratumRules.mp hcr).1).1]
  exact hperf.unique (vmExecute_layers hstrata hlv hσdb hrows hperms hfacts' hs).2

end

namespace Paths

/-- Relations `e`, `t`, `u`. -/
def decls : Decls := ["e", "t", "u"]

/-- `t(X, Y) :- e(X, Y).  t(X, Z) :- t(X, Y), e(Y, Z).  u(Y) :- t(X, Y).` -/
def source : List Rule :=
  [⟨{ pred := "t", args := [.var "X", .var "Y"] }, [{ pred := "e", args := [.var "X", .var "Y"] }]⟩,
    ⟨{ pred := "t", args := [.var "X", .var "Z"] },
      [{ pred := "t", args := [.var "X", .var "Y"] }, { pred := "e", args := [.var "Y", .var "Z"] }]⟩,
    ⟨{ pred := "u", args := [.var "Y"] }, [{ pred := "t", args := [.var "X", .var "Y"] }]⟩]

/-- Its bytecode. -/
def rules : List CompiledRule :=
  [{ headRelId := 1
     instrs := [⟨.scan, 0, 2, 0, 0, [0, 1], 0⟩, ⟨.project, 1, 2, 0, 0, [0, 1], 0⟩,
       ⟨.halt, 0, 0, 0, 0, [], 0⟩]
     isRecursive := true },
    { headRelId := 1
      instrs := [⟨.scan, 1, 2, 0, 0, [0, 1], 0⟩, ⟨.lookup, 0, 1, 2, 0, [1, 2], 1⟩,
        ⟨.project, 1, 2, 0, 0, [0, 2], 0⟩, ⟨.halt, 0, 0, 0, 0, [], 0⟩]
      isRecursive := true },
    { headRelId := 2
      instrs := [⟨.scan, 1, 2, 0, 0, [0, 1], 0⟩, ⟨.project, 2, 1, 0, 0, [1], 0⟩,
        ⟨.halt, 0, 0, 0, 0, [], 0⟩]
      stratum := 1 }]

/-- The edges, and the views of `t` and `u`. -/
def dbOf (e t u : List Row) : Db :=
  { rels := [⟨2, .aliased (Dafsa.ofRows e)⟩, ⟨2, .split .create (Dafsa.ofRows t)⟩,
      ⟨1, .split .create (Dafsa.ofRows u)⟩]
    perms := []
    tbl := ⟨.empty, .empty⟩ }

/-- Two edges in a row, evaluated. -/
def before : Db := dbOf [[1, 2], [2, 3]] [[1, 2], [1, 3], [2, 3]] [[2], [3]]

/-- A third edge is inserted. -/
def after : Db := dbOf [[1, 2], [2, 3], [3, 4]] [[1, 2], [1, 3], [2, 3]] [[2], [3]]

/-- The third edge is pending. -/
def pend : Pending := fun id =>
  if id = 0 then (TupleSet.init 2).addAll [[3, 4]] else TupleSet.init (if id = 1 then 2 else 1)

theorem rowsOk {e t u : List Row} (he : ∀ x ∈ e, x.length = 2) (ht : ∀ x ∈ t, x.length = 2)
    (hu : ∀ x ∈ u, x.length = 1) : (dbOf e t u).RowsOk := by
  intro id ar har
  rw [Db.arities_getElem?] at har
  match id with
  | 0 =>
    cases har
    exact ⟨fun x hx => he x (Dafsa.mem_ofRows.mp hx), fun x hx => he x (Dafsa.mem_ofRows.mp hx)⟩
  | 1 =>
    cases har
    exact ⟨fun x hx => ht x (Dafsa.mem_ofRows.mp hx),
      fun x hx => absurd hx (Dafsa.not_mem_create x)⟩
  | 2 =>
    cases har
    exact ⟨fun x hx => hu x (Dafsa.mem_ofRows.mp hx),
      fun x hx => absurd hx (Dafsa.not_mem_create x)⟩
  | id + 3 => cases har

theorem permsOk (e t u : List Row) : (dbOf e t u).PermsOk := fun pe hpe => by cases hpe

theorem program : Program decls source [] (fun _ => 0) before.schema rules flatMeaning :=
  Program.of_plain (by decide +kernel) (by decide +kernel)

theorem tidy : ∀ cr ∈ rules, Tidy cr (flatMeaning cr) := by
  show ∀ cr ∈ rules, ∀ i ∈ cr.instrs, driverFeeds i.op = true →
    i ∈ Plan.bodyAtoms (flatBody cr)
  decide

theorem plain : ∀ cr ∈ rules, Plain before.schema cr (flatBody cr) (flatLeaf cr) := by
  decide

/-- The rules are as the compiler promises: they read nothing strictly. -/
theorem recProgram : RecProgram decls source [] (fun _ => 0) before.schema rules flatMeaning where
  program := program
  decls := by decide
  plans cr hcr _ := ⟨_, rfl, tidy cr hcr⟩
  neg cr hcr _ s hs := by
    have hs' : s ∈ ((flatMeaning cr).oper before.schema cr).strict := hs
    rw [flatMeaning, (plain cr hcr).strict_oper] at hs'
    obtain ⟨i, hi, hop, -⟩ := hs'
    have hno : ∀ cr ∈ rules, ∀ i ∈ flatBody cr, i.op ≠ .negCheck := by decide
    exact absurd hop (hno cr hcr i hi)

/-- From scratch, the two edges give the views. -/
theorem scratch : ∃ s₀, vmExecute before pend rules = .done s₀ ∧
    s₀.contents = before.contents := by
  have hrun : (vmExecute before pend rules).check (fun s =>
      decide (s.rels.map (fun e => e.store.view) = before.rels.map fun e => e.store.view)) =
        true := by
    decide +kernel
  obtain ⟨s, hs, hviews⟩ := Final.exists_of_check hrun
  exact ⟨s, hs, Db.contents_eq_of_views (of_decide_eq_true hviews)⟩

theorem facts (n id : ℕ) (h : ReadTwice rules flatMeaning n id) (x : Row) : x ∉ before.base id := by
  obtain ⟨-, -, -, P, -, i, -, j, -, -, -, hja, rfl⟩ := h
  obtain ⟨⟨cr, hcr, hrec, heq⟩, -⟩ := mem_recHeads.mp hja
  have hone : ∀ cr ∈ rules, cr.isRecursive = true → cr.headRelId = 1 := by decide
  rw [← heq, hone cr (mem_stratumRules.mp hcr).1 hrec]
  exact Dafsa.not_mem_create x

theorem inserted : Inserted rules pend before after where
  schema := rfl
  head cr hcr := by
    rcases List.mem_cons.mp hcr with rfl | hcr
    · exact ⟨rfl, rfl⟩
    · rcases List.mem_pair.mp hcr with rfl | rfl <;> exact ⟨rfl, rfl⟩
  view id hid x := by
    match id with
    | 0 =>
      show x ∈ Dafsa.ofRows _ ↔ x ∈ Dafsa.ofRows _ ∨ _
      simp [pend, Dafsa.mem_ofRows, or_assoc]
    | 1 => exact absurd rfl (hid _ (List.mem_cons_self ..))
    | 2 => exact absurd rfl (hid _ (List.mem_cons_of_mem _ (List.mem_cons_of_mem _
        (List.mem_cons_self ..))))
    | id + 3 => simp [pend, before, after, dbOf, Db.view]
  arity id ar har := by
    rw [Db.arities_getElem?] at har
    match id with
    | 0 | 1 | 2 =>
      cases har
      rfl
    | id + 3 => cases har

end Paths

/-- A third edge in a row: every path into it is found, as from scratch. -/
theorem vmExecuteIvm_scratch_paths :
    ∃ db', vmExecuteIvm Paths.after Paths.pend Paths.rules = .done db' ∧
      [1, 4] ∈ db'.contents 1 ∧ [4] ∈ db'.contents 2 ∧ db'.Ok ∧
      ∀ pend' s, vmExecute Paths.after pend' Paths.rules = .done s → db'.contents = s.contents := by
  have hrun : (vmExecuteIvm Paths.after Paths.pend Paths.rules).check
      (fun s => (s.view 1).lookup [1, 4] && (s.view 2).lookup [4]) = true := by decide +kernel
  obtain ⟨s₀, hs₀, hviews⟩ := Paths.scratch
  obtain ⟨s, hs, hrows⟩ := Final.exists_of_check hrun
  simp only [Bool.and_eq_true, Dafsa.lookup_iff] at hrows
  have hall := vmExecuteIvm_scratch Paths.recProgram ⟨_, List.mem_cons_self .., rfl⟩
    (fun n => (List.length_filter_le _ _).trans (by decide)) Paths.tidy (by decide) (by decide)
    rfl (Paths.rowsOk (by decide) (by decide) (by decide)) (Paths.permsOk _ _ _) Paths.facts hs₀
    hviews Paths.inserted (Paths.rowsOk (by decide) (by decide) (by decide)) (Paths.permsOk _ _ _)
    hs
  exact ⟨s, hs, hrows.1, hrows.2, hall⟩

end DatalogDafsa
