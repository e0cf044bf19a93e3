import DatalogDafsa.Eval.Stratum
import DatalogDafsa.Eval.Perfect
import DatalogDafsa.Compile.StrataExact

/-!
# Programs with recursion

`vm_execute` takes the strata of a program with recursive rules in order.  What the
stratifier promises is what a stratum needs: rules without recursion do not read the
recursive heads of their own stratum, and what a recursive rule negates or ranges over
is complete.  So the views end as the perfect model of the program, along every level
mapping that stratifies it.

A recursive rule that joins two recursive atoms needs more: the rounds join derived
rows only, so stored facts of such a head would be left out.  Neither does the driver
take more than `maxStratumRules` rules of a stratum.

## Main definitions

* `RecProgram` — what the compiler promises of a program with recursive rules.
* `RecProgram.stratum` — the rules of a stratum are as the rounds need them.
* `ReadTwice` — the heads that must not hold stored facts.
* `StrataDone`, `evalStratum_done` — the invariant of the strata.
* `vmExecute_layers`, `vmExecute_stratified` — a program is evaluated to its perfect model.
-/

namespace DatalogDafsa

open Backtrack Operators Worklist

/-! ## What the compiler promises -/

/-- Compiled rules whose strata come from `compute_strata`, some of them recursive. -/
structure RecProgram (d : Decls) (prog : List Rule) (seeds : List ℕ) (comp₀ : ℕ → ℕ) (σ : Schema)
    (rules : List CompiledRule) (ms : CompiledRule → RuleMeaning) : Prop where
  /-- The rules come from the source rules. -/
  program : Program d prog seeds comp₀ σ rules ms
  /-- There are no more relations than the tables hold. -/
  decls : d.length ≤ maxRels
  /-- Recursive rules are plans. -/
  plans : ∀ cr ∈ rules, cr.isRecursive = true → ∃ P, ms cr = .plan P ∧ Tidy cr (.plan P)
  /-- What they negate or range over is a negative edge. -/
  neg : ∀ cr ∈ rules, cr.isRecursive = true → ∀ s ∈ ((ms cr).oper σ cr).strict,
    ∃ e ∈ progEdges d prog, e.isNeg = true ∧ e.src = s ∧ e.dst = cr.headRelId

/-- The rules of a stratum. -/
def stratumRules (rules : List CompiledRule) (n : ℕ) : List CompiledRule :=
  rules.filter fun cr => cr.stratum = n

theorem mem_stratumRules {rules : List CompiledRule} {n : ℕ} {cr : CompiledRule} :
    cr ∈ stratumRules rules n ↔ cr ∈ rules ∧ cr.stratum = n := by
  simp [stratumRules]

section

variable {d : Decls} {prog : List Rule} {seeds : List ℕ} {comp₀ : ℕ → ℕ} {σ : Schema}
  {rules : List CompiledRule} {ms : CompiledRule → RuleMeaning}

/-- Some of the rules are a program, too. -/
theorem Program.sub (h : Program d prog seeds comp₀ σ rules ms) {rules' : List CompiledRule}
    (hsub : ∀ cr ∈ rules', cr ∈ rules) : Program d prog seeds comp₀ σ rules' ms where
  wf cr hcr := h.wf cr (hsub cr hcr)
  strata := by
    obtain ⟨st, recursive, hok, hfrom⟩ := h.strata
    exact ⟨st, recursive, hok, fun cr hcr => hfrom cr (hsub cr hcr)⟩

/-- What the strata say of the rules. -/
structure Levels (σ : Schema) (rules : List CompiledRule) (ms : CompiledRule → RuleMeaning)
    (st : ℕ → ℕ) (recursive : ℕ → Bool) : Prop where
  /-- The stratum of a rule is that of its head. -/
  stratum : ∀ cr ∈ rules, cr.stratum = st cr.headRelId
  /-- It is recursive when its head is. -/
  isRecursive : ∀ cr ∈ rules, cr.isRecursive = recursive cr.headRelId
  /-- Reads are not from higher strata. -/
  mono : ∀ cr ∈ rules, ∀ s ∈ ((ms cr).oper σ cr).reads, st s ≤ st cr.headRelId
  /-- A rule without recursion reads recursive heads from lower strata. -/
  leave : ∀ cr ∈ rules, cr.isRecursive = false → ∀ s ∈ ((ms cr).oper σ cr).reads,
    recursive s = true → st s < st cr.headRelId
  /-- A recursive rule reads strictly from lower strata. -/
  strict : ∀ cr ∈ rules, cr.isRecursive = true → ∀ s ∈ ((ms cr).oper σ cr).strict,
    st s < st cr.headRelId

/-- **The strata of a program.** -/
theorem RecProgram.levels (h : RecProgram d prog seeds comp₀ σ rules ms) :
    ∃ st recursive, Levels σ rules ms st recursive := by
  obtain ⟨st, recursive, hok, hfrom⟩ := h.program.strata
  have hst := computeStrata_stratification hok
  have hisOk : (computeStrata d prog seeds comp₀).isOk = true := by rw [hok]; rfl
  have hneg := noNegCycle_of_ok hisOk
  have hedge : ∀ cr ∈ rules, ∀ s ∈ ((ms cr).oper σ cr).reads,
      ∃ e ∈ progEdges d prog, e.src = s ∧ e.dst = cr.headRelId := by
    intro cr hcr s hs
    obtain ⟨r, hr, hf⟩ := hfrom cr hcr
    obtain ⟨e, he, rfl⟩ := hf.reads s hs
    exact ⟨e, List.mem_flatMap.mpr ⟨r, hr, he⟩, rfl, ruleEdges_dst hf.head he⟩
  refine ⟨st, recursive, fun cr hcr => ?_, fun cr hcr => ?_, fun cr hcr s hs => ?_,
    fun cr hcr hnon s hs hrec => ?_, fun cr hcr hrec s hs => ?_⟩
  · obtain ⟨r, -, hf⟩ := hfrom cr hcr
    exact hf.stratum
  · obtain ⟨r, -, hf⟩ := hfrom cr hcr
    exact hf.isRecursive
  · obtain ⟨e, he, rfl, hdst⟩ := hedge cr hcr s hs
    rw [← hdst]
    exact hst.mono e he
  · obtain ⟨e, he, rfl, hdst⟩ := hedge cr hcr s hs
    have hhead : recursive cr.headRelId = false := by
      obtain ⟨r, -, hf⟩ := hfrom cr hcr
      rw [← hf.isRecursive, hnon]
    rw [← hdst] at hhead ⊢
    by_cases hsign : e.isNeg = true
    · exact hst.strict e he hsign
    · -- an edge back would make the head recursive
      have hpos : PosEdge (progEdges d prog) e.src e.dst := by
        have hsign' : e.isNeg = false := by simpa using hsign
        obtain ⟨src, dst, isNeg⟩ := e
        cases hsign'
        exact he
      have hback : ¬ Relation.ReflTransGen (PosEdge (progEdges d prog)) e.dst e.src := by
        intro hpath
        have hcycle := hst.cycle e.dst (Relation.TransGen.tail' hpath hpos)
        rw [hhead] at hcycle
        cases hcycle
      have hmark : (computeStrata d prog seeds comp₀).recursive e.src = true := by
        rw [hok]
        exact hrec
      have hraise := strata_leave h.decls hneg he hmark hback
      rw [hok] at hraise
      exact hraise
  · obtain ⟨e, he, hsign, rfl, hdst⟩ := h.neg cr hcr hrec s hs
    rw [← hdst]
    exact hst.strict e he hsign

theorem RecProgram.acyclic (h : RecProgram d prog seeds comp₀ σ rules ms)
    {rules' : List CompiledRule} (hsub : ∀ cr ∈ rules', cr ∈ rules ∧ cr.isRecursive = false)
    (s : ℕ) : ¬ Relation.TransGen (Dep (opers σ ms rules')) s s :=
  (h.program.sub fun cr hcr => (hsub cr hcr).1).acyclic (fun cr hcr => (hsub cr hcr).2) s

/-- **The rules of a stratum are as its evaluation needs them.** -/
theorem RecProgram.stratum (h : RecProgram d prog seeds comp₀ σ rules ms)
    (hlt : ∀ cr ∈ rules, cr.headRelId < maxRels) {n : ℕ}
    (hsched : Scheduled (opers σ ms ((stratumRules rules n).filter fun cr => !cr.isRecursive))) :
    RecStratum σ (stratumRules rules n) ms := by
  obtain ⟨st, recursive, hlev⟩ := h.levels
  have hheads : ∀ id, id ∈ recHeads (stratumRules rules n) → st id = n ∧ recursive id = true := by
    intro id hid
    obtain ⟨⟨cr, hcr, hrec, rfl⟩, -⟩ := mem_recHeads.mp hid
    obtain ⟨hin, rfl⟩ := mem_stratumRules.mp hcr
    exact ⟨(hlev.stratum cr hin).symm, (hlev.isRecursive cr hin).symm.trans hrec⟩
  refine ⟨fun cr hcr => h.program.wf cr (mem_stratumRules.mp hcr).1, fun cr hcr hrec => ?_,
    fun cr hcr hnon => ?_, h.acyclic fun cr hcr => ?_, hsched⟩
  · obtain ⟨hin, rfl⟩ := mem_stratumRules.mp hcr
    obtain ⟨P, hm, htidy⟩ := h.plans cr hin hrec
    have hwf := h.program.wf cr hin
    rw [hm] at hwf
    refine ⟨P, hm, hwf, htidy, fun id hid hhead => ?_, ?_⟩
    · have hlow := hlev.strict cr hin hrec id (by rw [hm]; exact hid)
      have hsame := (hheads id hhead).1
      rw [hlev.stratum cr hin] at hsame
      omega
    · exact mem_recHeads.mpr ⟨⟨cr, hcr, hrec, rfl⟩, hlt cr hin⟩
  · obtain ⟨hin, rfl⟩ := mem_stratumRules.mp hcr
    refine ⟨fun hhead => ?_, fun s hs hhead => ?_⟩
    · have hrec := (hheads _ hhead).2
      rw [← hlev.isRecursive cr hin, hnon] at hrec
      cases hrec
    · obtain ⟨hsame, hrec⟩ := hheads s hhead
      have hlow := hlev.leave cr hin hnon s hs hrec
      rw [hlev.stratum cr hin] at hsame
      omega
  · obtain ⟨hcr, hnon⟩ := List.mem_filter.mp hcr
    exact ⟨(mem_stratumRules.mp hcr).1, by simpa using hnon⟩

/-- **A program with recursion has a level mapping**: strata first, within a stratum the
rank of the rules without recursion, and its recursive heads last. -/
theorem RecProgram.stratified (h : RecProgram d prog seeds comp₀ σ rules ms) :
    ∃ lv, Stratified (opers σ ms rules) lv := by
  obtain ⟨st, recursive, hlev⟩ := h.levels
  set plain := rules.filter fun cr => !cr.isRecursive with hplain
  have hmem : ∀ cr, cr ∈ plain ↔ cr ∈ rules ∧ cr.isRecursive = false := by
    intro cr
    rw [hplain, List.mem_filter]
    simp
  obtain ⟨rk, hrk, hbound⟩ := exists_rank (h.acyclic fun cr hcr => (hmem cr).mp hcr)
  set K := (opers σ ms plain).length with hK
  set top : ℕ → ℕ := fun s => if recursive s then K + 1 else rk s with htop
  have htop_le : ∀ s, top s ≤ K + 1 := by
    intro s
    rw [htop]
    dsimp only
    split
    · exact le_rfl
    · exact (hbound s).trans (Nat.le_succ K)
  have hlow : ∀ s s', st s < st s' → st s * (K + 2) + top s < st s' * (K + 2) + top s' := by
    intro s s' hlt
    have hmul : (st s + 1) * (K + 2) ≤ st s' * (K + 2) := Nat.mul_le_mul_right _ hlt
    have := htop_le s
    rw [Nat.add_mul, Nat.one_mul] at hmul
    omega
  refine ⟨fun s => st s * (K + 2) + top s, fun r hr => ?_⟩
  obtain ⟨cr, hcr, rfl⟩ := List.mem_map.mp hr
  rw [RuleMeaning.head_oper]
  by_cases hrec : cr.isRecursive = true
  · have hhead : top cr.headRelId = K + 1 := by
      rw [htop]
      dsimp only
      rw [← hlev.isRecursive cr hcr, if_pos hrec]
    refine ⟨fun s hs => ?_, fun s hs => hlow _ _ (hlev.strict cr hcr hrec s hs)⟩
    rcases (hlev.mono cr hcr s (.inl hs)).lt_or_eq with hlt | heq
    · exact (hlow _ _ hlt).le
    · have := htop_le s
      dsimp only
      rw [heq, hhead]
      omega
  · have hnon : cr.isRecursive = false := by simpa using hrec
    have hhead : top cr.headRelId = rk cr.headRelId := by
      rw [htop]
      dsimp only
      rw [← hlev.isRecursive cr hcr, hnon]
      rfl
    have hall : ∀ s ∈ ((ms cr).oper σ cr).reads,
        st s * (K + 2) + top s < st cr.headRelId * (K + 2) + top cr.headRelId := by
      intro s hs
      rcases (hlev.mono cr hcr s hs).lt_or_eq with hlt | heq
      · exact hlow _ _ hlt
      · have hs' : recursive s = false := by
          by_contra hsrec
          have := hlev.leave cr hcr hnon s hs (by simpa using hsrec)
          omega
        have hrank := hrk _ (List.mem_map_of_mem ((hmem cr).mpr ⟨hcr, hnon⟩)) s hs
        rw [RuleMeaning.head_oper] at hrank
        have hts : top s = rk s := by
          rw [htop]
          dsimp only
          rw [hs']
          rfl
        rw [heq, hhead, hts]
        omega
    exact ⟨fun s hs => (hall s (.inl hs)).le, fun s hs => hall s (.inr hs)⟩

/-! ## One stratum -/

/-- A head of stratum `n` that some recursive rule of the stratum reads next to another
recursive atom. -/
def ReadTwice (rules : List CompiledRule) (ms : CompiledRule → RuleMeaning) (n id : ℕ) : Prop :=
  ∃ cr ∈ stratumRules rules n, cr.isRecursive = true ∧ ∃ P, ms cr = .plan P ∧ ∃ i ∈ P.atoms,
    ∃ j ∈ P.atoms, i ≠ j ∧ i.a ∈ recHeads (stratumRules rules n) ∧
      j.a ∈ recHeads (stratumRules rules n) ∧ j.a = id

/-- What is asked of the rules and their order. -/
structure InStrata (d : Decls) (prog : List Rule) (seeds : List ℕ) (comp₀ : ℕ → ℕ) (σ : Schema)
    (rules : List CompiledRule) (ms : CompiledRule → RuleMeaning) : Prop where
  /-- The compiler's promise. -/
  program : RecProgram d prog seeds comp₀ σ rules ms
  /-- Heads are in the tables. -/
  heads : ∀ cr ∈ rules, cr.headRelId < maxRels
  /-- Some rule is recursive. -/
  some_rec : ∃ cr ∈ rules, cr.isRecursive = true
  /-- Rules without recursion are scheduled. -/
  scheduled : ∀ n, Scheduled (opers σ ms ((stratumRules rules n).filter fun cr => !cr.isRecursive))
  /-- No stratum has too many rules. -/
  few : ∀ n, (stratumRules rules n).length ≤ maxStratumRules

/-- What the evaluation of a stratum does. -/
structure StratumDone (σ : Schema) (rules : List CompiledRule) (ms : CompiledRule → RuleMeaning)
    (lv : ℕ → ℕ) (n : ℕ) (db db' : Db) : Prop where
  /-- Only the views of its heads change. -/
  evolves : Db.Evolves {id | ∃ cr ∈ stratumRules rules n, cr.headRelId = id} db db'
  /-- The database is ready again. -/
  ok : db'.Ok
  /-- The views are perfect for its rules. -/
  perfect : PerfectModel (opers σ ms (stratumRules rules n)) lv db.contents db'.contents

theorem ruleStratumOrder_stratumRules (n : ℕ) :
    ruleStratumOrder (stratumRules rules n) = stratumRules rules n := by
  refine List.Pairwise.insertionSort_eq ?_
  refine List.pairwise_of_forall_mem_list fun a ha b hb => ?_
  rw [(mem_stratumRules.mp ha).2, (mem_stratumRules.mp hb).2]

theorem perfectModel_nil (σ : Schema) (ms : CompiledRule → RuleMeaning) (lv : ℕ → ℕ)
    (V : ℕ → Set Row) : PerfectModel (opers σ ms []) lv V V where
  base _ := subset_rfl
  closed r hr := by cases hr
  least _ _ _ hB _ s _ := hB s

theorem Stratified.of_subset {rules rules' : List CompiledRule} {lv : ℕ → ℕ}
    (h : Stratified (opers σ ms rules) lv) (hsub : ∀ cr ∈ rules', cr ∈ rules) :
    Stratified (opers σ ms rules') lv := by
  intro r hr
  obtain ⟨cr, hcr, rfl⟩ := List.mem_map.mp hr
  exact h _ (List.mem_map_of_mem (hsub cr hcr))

/-- **One stratum**, from scratch or from insertions; `hseeds` is what the first firing
of its recursive rules must give. -/
theorem evalStratum_done (h : InStrata d prog seeds comp₀ σ rules ms) {ivm : Bool}
    {pend : Pending} {n : ℕ} {db db' : Db} (hdb : db.Ok) (hσ : db.schema = σ)
    (hseeds : ∀ db₁ s, db₁.Ok → db₁.schema = db.schema →
      (∀ id ∈ recHeads (stratumRules rules n), db₁.contents id = db.contents id) →
      Db.Evolves {id | ∃ cr ∈ stratumRules rules n, cr.isRecursive = false ∧ cr.headRelId = id}
        db db₁ →
      (∀ cr ∈ stratumRules rules n, cr.isRecursive = false →
        ((ms cr).oper db₁.schema cr).out db₁.contents ⊆ db₁.contents cr.headRelId) →
      (∀ n, db.contents n ⊆ db₁.contents n) →
      Seeding (stratumRules rules n) ms ivm db₁
        (db₁, (recHeads (stratumRules rules n)).map (rdInit db ivm)) →
      runAll (seedRule pend ivm) (stratumRules rules n)
        (db₁, (recHeads (stratumRules rules n)).map (rdInit db ivm)) = .done s →
      SeededAll (stratumRules rules n) ms ivm db₁ s)
    (hfacts : ivm = false → ∀ id, ReadTwice rules ms n id → db.contents id = ∅) {lv : ℕ → ℕ}
    (hlv : Stratified (opers σ ms rules) lv)
    (hrun : evalStratum pend rules ivm n db = .done db') : StratumDone σ rules ms lv n db db' := by
  have hlvn : Stratified (opers σ ms (stratumRules rules n)) lv :=
    Stratified.of_subset hlv fun cr hcr => (mem_stratumRules.mp hcr).1
  have hset := h.program.stratum h.heads (h.scheduled n)
  have htake : (rules.filter fun cr => cr.stratum = n).take maxStratumRules = stratumRules rules n :=
    List.take_of_length_le (h.few n)
  unfold evalStratum at hrun
  simp only [htake] at hrun
  by_cases hempty : (stratumRules rules n).isEmpty = true
  · rw [if_pos hempty] at hrun
    cases hrun
    refine ⟨Db.Evolves.refl _ _, hdb, ?_⟩
    rw [List.isEmpty_iff.mp hempty]
    exact perfectModel_nil σ ms lv _
  · rw [if_neg hempty] at hrun
    by_cases hany : (stratumRules rules n).any CompiledRule.isRecursive = true
    · rw [show (rules.filter fun cr => cr.stratum = n) = stratumRules rules n from rfl,
        if_pos hany] at hrun
      obtain ⟨cr, hcr, hrec⟩ := List.any_eq_true.mp hany
      have hne : recHeads (stratumRules rules n) ≠ [] :=
        List.ne_nil_of_mem (mem_recHeads.mpr ⟨⟨cr, hcr, hrec, rfl⟩,
          h.heads cr (mem_stratumRules.mp hcr).1⟩)
      obtain ⟨hev, hok, hperf⟩ := evalStratumRecursive_perfect hdb (hσ ▸ hset) hne hseeds
        (fun hivm cr hcr hrec P hm i hi j hj hij hia hja =>
          hfacts hivm j.a ⟨cr, hcr, hrec, P, hm, i, hi, j, hj, hij, hia, hja, rfl⟩) hrun
      refine ⟨hev, hok, ?_⟩
      rw [hσ] at hperf
      exact hperf lv hlvn
    · rw [show (rules.filter fun cr => cr.stratum = n) = stratumRules rules n from rfl,
        if_neg hany] at hrun
      have hnon : ∀ cr ∈ stratumRules rules n, cr.isRecursive = false := by
        intro cr hcr
        by_contra hrec
        exact hany (List.any_eq_true.mpr ⟨cr, hcr, by simpa using hrec⟩)
      have hfilter : ((stratumRules rules n).filter fun cr => !cr.isRecursive) =
          stratumRules rules n := List.filter_eq_self.mpr fun cr hcr => by rw [hnon cr hcr]; rfl
      have hacyc := hset.acyclic
      have hsched := h.scheduled n
      rw [hfilter] at hacyc hsched
      obtain ⟨hev, hok, hmodel⟩ := evalNonrecursive_model hset.wf
        (fun cr hcr => h.heads cr (mem_stratumRules.mp hcr).1) hacyc hdb hσ
        (by rw [ruleStratumOrder_stratumRules]; exact fun _ => hsched.inOrder) hrun
      obtain ⟨rk, hrk, -⟩ := exists_rank hacyc
      exact ⟨hev, hok, hmodel.perfect hrk hlvn⟩

/-! ## All strata -/

/-- What holds after the strata below `k`. -/
structure StrataDone (σ : Schema) (rules : List CompiledRule) (ms : CompiledRule → RuleMeaning)
    (lv : ℕ → ℕ) (db₁ : Db) (k : ℕ) (db : Db) : Prop where
  /-- Only the views of their heads changed. -/
  evolves : Db.Evolves {id | ∃ cr ∈ rules, cr.stratum < k ∧ cr.headRelId = id} db₁ db
  /-- The database is ready. -/
  ok : db.Ok
  /-- The views are perfect for their rules. -/
  perfect : PerfectModel (opers σ ms (rules.filter fun cr => cr.stratum < k)) lv db₁.contents
    db.contents

theorem contents_eq_of_evolves {heads : Set ℕ} {db db' : Db} (h : Db.Evolves heads db db') {id : ℕ}
    (hid : id ∉ heads) : db'.contents id = db.contents id := by
  ext x
  show x ∈ db'.view id ↔ x ∈ db.view id
  rw [h.view_eq hid]

/-- **The next stratum.** -/
theorem StrataDone.next (h : RecProgram d prog seeds comp₀ σ rules ms) {lv : ℕ → ℕ}
    (hlv : Stratified (opers σ ms rules) lv) {db₁ db db' : Db} {k : ℕ}
    (hdone : StrataDone σ rules ms lv db₁ k db) (hstep : StratumDone σ rules ms lv k db db') :
    StrataDone σ rules ms lv db₁ (k + 1) db' := by
  obtain ⟨st, recursive, hlev⟩ := h.levels
  have hmem : ∀ {k : ℕ} {r : Oper ℕ Row},
      r ∈ opers σ ms (rules.filter fun cr => cr.stratum < k) ↔
        ∃ cr ∈ rules, cr.stratum < k ∧ (ms cr).oper σ cr = r := by
    intro k r
    simp only [opers, List.mem_map, List.mem_filter, decide_eq_true_eq, and_assoc]
  have hmemk : ∀ {r : Oper ℕ Row}, r ∈ opers σ ms (stratumRules rules k) ↔
      ∃ cr ∈ rules, cr.stratum = k ∧ (ms cr).oper σ cr = r := by
    intro r
    simp only [opers, List.mem_map, mem_stratumRules, and_assoc]
  refine ⟨?_, hstep.ok, ?_⟩
  · refine (hdone.evolves.mono ?_).trans (hstep.evolves.mono ?_)
    · rintro id ⟨cr, hcr, hlt, heq⟩
      exact ⟨cr, hcr, by omega, heq⟩
    · rintro id ⟨cr, hcr, heq⟩
      obtain ⟨hin, hk⟩ := mem_stratumRules.mp hcr
      exact ⟨cr, hin, by omega, heq⟩
  · refine hdone.perfect.append hstep.perfect (Stratified.of_subset hlv fun cr hcr =>
      (List.mem_filter.mp hcr).1) (fun r => ?_) (fun r hr r' hr' => ?_) (fun r hr => ?_)
      fun s hs => ?_
    · rw [hmem, hmem, hmemk]
      constructor
      · rintro ⟨cr, hcr, hlt, rfl⟩
        rcases Nat.lt_succ_iff_lt_or_eq.mp hlt with hlt | heq
        · exact .inl ⟨cr, hcr, hlt, rfl⟩
        · exact .inr ⟨cr, hcr, heq, rfl⟩
      · rintro (⟨cr, hcr, hlt, rfl⟩ | ⟨cr, hcr, heq, rfl⟩)
        · exact ⟨cr, hcr, by omega, rfl⟩
        · exact ⟨cr, hcr, by omega, rfl⟩
    · obtain ⟨cr, hcr, hlt, rfl⟩ := hmem.mp hr
      obtain ⟨cr', hcr', hk, rfl⟩ := hmemk.mp hr'
      have hst := hlev.stratum cr hcr
      have hst' := hlev.stratum cr' hcr'
      simp only [RuleMeaning.head_oper]
      refine ⟨fun heq => ?_, fun hread => ?_⟩
      · rw [heq] at hst
        omega
      · have := hlev.mono cr hcr _ hread
        omega
    · obtain ⟨cr, hcr, hk, rfl⟩ := hmemk.mp hr
      rw [RuleMeaning.head_oper]
      refine contents_eq_of_evolves hdone.evolves ?_
      rintro ⟨cr', hcr', hlt, heq⟩
      have hst := hlev.stratum cr hcr
      have hst' := hlev.stratum cr' hcr'
      rw [heq] at hst'
      omega
    · refine contents_eq_of_evolves hstep.evolves ?_
      rintro ⟨cr, hcr, heq⟩
      exact hs _ (List.mem_map_of_mem hcr) ((RuleMeaning.head_oper _ _ _).trans heq)

theorem le_maxStratum {cr : CompiledRule} (hcr : cr ∈ rules) : cr.stratum ≤ maxStratum rules := by
  have hmono : ∀ (l : List ℕ) (m : ℕ), m ≤ l.foldl max m := by
    intro l
    induction l with
    | nil => exact fun m => le_rfl
    | cons a l ih => exact fun m => (le_max_left m a).trans (ih _)
  have key : ∀ (l : List ℕ) (m x : ℕ), x ∈ l → x ≤ l.foldl max m := by
    intro l
    induction l with
    | nil => intro m x hx; cases hx
    | cons a l ih =>
      intro m x hx
      rcases List.mem_cons.mp hx with rfl | hx
      · exact (le_max_right m x).trans (hmono l _)
      · exact ih _ x hx
  exact key _ _ _ (List.mem_map_of_mem hcr)

/-- **The strata in order** reach the perfect model over what they start from. -/
theorem evalRules_perfect (h : InStrata d prog seeds comp₀ σ rules ms) {ivm : Bool}
    {pend : Pending} {lv : ℕ → ℕ} (hlv : Stratified (opers σ ms rules) lv) {db₁ db' : Db}
    (hdb : db₁.Ok)
    (hstep : ∀ k db db', StrataDone σ rules ms lv db₁ k db →
      evalStratum pend rules ivm k db = .done db' → StratumDone σ rules ms lv k db db')
    (hrun : evalRules db₁ pend rules ivm = .done db') :
    Db.Evolves {id | ∃ cr ∈ rules, cr.headRelId = id} db₁ db' ∧ db'.Ok ∧
      PerfectModel (opers σ ms rules) lv db₁.contents db'.contents := by
  obtain ⟨cr, hcr, hrec⟩ := h.some_rec
  have hany : rules.any CompiledRule.isRecursive = true := List.any_eq_true.mpr ⟨cr, hcr, hrec⟩
  unfold evalRules at hrun
  rw [hany, if_neg (by simp), List.range_eq_range'] at hrun
  have hinit : StrataDone σ rules ms lv db₁ 0 db₁ := by
    have hnil : (rules.filter fun cr => cr.stratum < 0) = [] :=
      List.filter_eq_nil_iff.mpr fun cr _ => by simp
    refine ⟨Db.Evolves.refl _ _, hdb, ?_⟩
    rw [hnil]
    exact perfectModel_nil σ ms lv _
  -- the induction is on the strata still to come
  have hend := runAll_inv (I := fun todo db => ∃ k m, todo = List.range' k m ∧
      k + m = maxStratum rules + 1 ∧ StrataDone σ rules ms lv db₁ k db) ?_ _
    ⟨0, maxStratum rules + 1, rfl, by omega, hinit⟩ hrun
  · obtain ⟨k, m, hnil, hk, hdone⟩ := hend
    have hm : m = 0 := by
      cases m with
      | zero => rfl
      | succ m => cases hnil
    have hall : (rules.filter fun cr => cr.stratum < k) = rules :=
      List.filter_eq_self.mpr fun cr hcr => by
        have := le_maxStratum hcr
        simp only [decide_eq_true_eq]
        omega
    have hperf := hdone.perfect
    rw [hall] at hperf
    refine ⟨hdone.evolves.mono ?_, hdone.ok, hperf⟩
    rintro id ⟨cr, hcr, -, heq⟩
    exact ⟨cr, hcr, heq⟩
  · rintro k₀ todo db db₂ ⟨k, m, hcons, hk, hdone⟩ hrun₀
    cases m with
    | zero => cases hcons
    | succ m =>
      rw [List.range'_succ] at hcons
      obtain ⟨rfl, rfl⟩ := List.cons.inj hcons
      exact ⟨k₀ + 1, m, rfl, by omega, hdone.next h.program hlv (hstep k₀ db db₂ hdone hrun₀)⟩

/-- What `vm_execute` leaves, along one level mapping. -/
theorem vmExecute_layers (h : InStrata d prog seeds comp₀ σ rules ms) {lv : ℕ → ℕ}
    (hlv : Stratified (opers σ ms rules) lv) {db db' : Db}
    {pend : Pending} (hσ : db.schema = σ) (hrows : db.RowsOk) (hperms : db.PermsOk)
    (hfacts : ∀ n id, ReadTwice rules ms n id → ∀ x, x ∉ db.base id)
    (hrun : vmExecute db pend rules = .done db') :
    db'.Ok ∧ PerfectModel (opers σ ms rules) lv (resetContents db rules) db'.contents := by
  obtain ⟨cr, hcr, hrec⟩ := h.some_rec
  obtain ⟨db₁, hreset, hok, hcont, -, heval⟩ :=
    vmExecute_reset (List.ne_nil_of_mem hcr) hrows hperms hrun
  have hσ₁ : db₁.schema = σ := hreset.schema.trans hσ
  have key : Db.Evolves {id | ∃ cr ∈ rules, cr.headRelId = id} db₁ db' ∧ db'.Ok ∧
      PerfectModel (opers σ ms rules) lv db₁.contents db'.contents := by
    refine evalRules_perfect h hlv hok (fun k db₂ db₃ hdone hrun₂ => ?_) heval
    have hσ₂ : db₂.schema = σ := hdone.evolves.schema.trans hσ₁
    have hset := h.program.stratum h.heads (h.scheduled k)
    refine evalStratum_done h hdone.ok hσ₂ ?_ (fun _ id htwice => ?_) hlv hrun₂
    · intro db₄ s hok₄ hσ₄ _ _ hclosed _ hseed hruns
      rw [← hσ₂, ← hσ₄] at hset
      exact seedRules_scratch hset.recs hset.wf hclosed hseed hruns
    · -- the head is not reached yet and holds its stored facts
      obtain ⟨cr', hcr', hrec', P, hm, i, hi, j, hj, hij, hia, hja, rfl⟩ := htwice
      obtain ⟨⟨crj, hcrj, -, hheadj⟩, -⟩ := mem_recHeads.mp hja
      obtain ⟨hinj, hkj⟩ := mem_stratumRules.mp hcrj
      have hsame : db₂.contents j.a = db₁.contents j.a := by
        refine contents_eq_of_evolves hdone.evolves ?_
        rintro ⟨cr'', hcr'', hlt, heq⟩
        obtain ⟨st, recursive, hlev⟩ := h.program.levels
        have h₁ := hlev.stratum cr'' hcr''
        have h₂ := hlev.stratum crj hinj
        rw [heq] at h₁
        rw [hheadj] at h₂
        omega
      rw [hsame, hcont]
      refine Set.eq_empty_of_forall_notMem fun x hx => ?_
      rw [← hheadj, resetContents_head hinj] at hx
      refine hfacts k j.a ⟨cr', hcr', hrec', P, hm, i, hi, j, hj, hij, hia, hja, rfl⟩ x ?_
      rw [← hheadj]
      exact hx
  refine ⟨key.2.1, ?_⟩
  rw [← hcont]
  exact key.2.2

/-- **`vm_execute` evaluates a program with recursion to its perfect model**, along every
level mapping that stratifies it: when its rules without recursion are scheduled, no
stratum has too many rules and the heads that a rule joins twice hold no stored facts. -/
theorem vmExecute_stratified (h : InStrata d prog seeds comp₀ σ rules ms) {db db' : Db}
    {pend : Pending} (hσ : db.schema = σ) (hrows : db.RowsOk) (hperms : db.PermsOk)
    (hfacts : ∀ n id, ReadTwice rules ms n id → ∀ x, x ∉ db.base id)
    (hrun : vmExecute db pend rules = .done db') :
    db'.Ok ∧ (∃ lv, Stratified (opers σ ms rules) lv) ∧
      ∀ lv, Stratified (opers σ ms rules) lv →
        PerfectModel (opers σ ms rules) lv (resetContents db rules) db'.contents := by
  obtain ⟨lv, hlv⟩ := h.program.stratified
  exact ⟨(vmExecute_layers h hlv hσ hrows hperms hfacts hrun).1, ⟨lv, hlv⟩, fun lv' hlv' =>
    (vmExecute_layers h hlv' hσ hrows hperms hfacts hrun).2⟩

end

namespace Closure

/-- Relations `e`, `t`, `u`. -/
def decls : Decls := ["e", "t", "u"]

/-- `t(X, Y) :- e(X, Y).  t(X, Z) :- t(X, Y), e(Y, Z).  u(X, Y) :- e(X, Y), !t(Y, X).` -/
def source : List Rule :=
  [⟨{ pred := "t", args := [.var "X", .var "Y"] }, [{ pred := "e", args := [.var "X", .var "Y"] }]⟩,
    ⟨{ pred := "t", args := [.var "X", .var "Z"] },
      [{ pred := "t", args := [.var "X", .var "Y"] }, { pred := "e", args := [.var "Y", .var "Z"] }]⟩,
    ⟨{ pred := "u", args := [.var "X", .var "Y"] },
      [{ pred := "e", args := [.var "X", .var "Y"] },
        { pred := "t", args := [.var "Y", .var "X"], negated := true }]⟩]

/-- Its bytecode. -/
def rules : List CompiledRule :=
  [{ headRelId := 1
     instrs := [⟨.scan, 0, 2, 0, 0, [0, 1], 0⟩, ⟨.project, 1, 2, 0, 0, [0, 1], 0⟩,
       ⟨.halt, 0, 0, 0, 0, [], 0⟩]
     isRecursive := true },
    { headRelId := 1
      instrs := [⟨.scan, 1, 2, 0, 0, [0, 1], 0⟩, ⟨.lookup, 0, 1, 2, 0, [1, 2], 1⟩,
        ⟨.project, 1, 2, 0, 0, [0, 2], 0⟩, ⟨.halt, 0, 0, 0, 0, [], 0⟩]
      isRecursive := true },
    { headRelId := 2
      instrs := [⟨.scan, 0, 2, 0, 0, [0, 1], 0⟩, ⟨.negCheck, 1, 2, 0, 0, [1, 0], 1⟩,
        ⟨.project, 2, 2, 0, 0, [0, 1], 0⟩, ⟨.halt, 0, 0, 0, 0, [], 0⟩]
      stratum := 1 }]

/-- `e` holds the given rows. -/
def dbOf (rows : List Row) : Db :=
  { rels := [⟨2, .aliased (Dafsa.ofRows rows)⟩, ⟨2, .aliased .create⟩, ⟨2, .aliased .create⟩]
    perms := []
    tbl := ⟨.empty, .empty⟩ }

/-- No insertion is pending. -/
def noPending : Pending := fun _ => TupleSet.init 2

theorem rowsOk {rows : List Row} (h : ∀ x ∈ rows, x.length = 2) : (dbOf rows).RowsOk := by
  have hmem : ∀ x ∈ Dafsa.ofRows rows, x.length = 2 := fun x hx => h x (Dafsa.mem_ofRows.mp hx)
  intro id ar har
  rw [Db.arities_getElem?] at har
  match id with
  | 0 =>
    cases har
    exact ⟨hmem, hmem⟩
  | 1 | 2 =>
    cases har
    exact ⟨fun x hx => absurd hx (Dafsa.not_mem_create x),
      fun x hx => absurd hx (Dafsa.not_mem_create x)⟩
  | id + 3 => cases har

theorem permsOk (rows : List Row) : (dbOf rows).PermsOk := fun pe hpe => by cases hpe

theorem program (rows : List Row) :
    Program decls source [] (fun _ => 0) (dbOf rows).schema rules flatMeaning :=
  show Program decls source [] (fun _ => 0) (dbOf []).schema rules flatMeaning from
    Program.of_plain (by decide +kernel) (by decide +kernel)

theorem plain : ∀ cr ∈ rules, Plain (dbOf []).schema cr (flatBody cr) (flatLeaf cr) := by
  decide

/-- The rules are in strata, as the evaluation needs them. -/
theorem inStrata (rows : List Row) :
    InStrata decls source [] (fun _ => 0) (dbOf rows).schema rules flatMeaning where
  program :=
    { program := program rows
      decls := by decide
      plans := fun cr hcr hrec => ⟨_, rfl, by
        revert cr
        show ∀ cr ∈ rules, cr.isRecursive = true → ∀ i ∈ cr.instrs, driverFeeds i.op = true →
          i ∈ Plan.bodyAtoms (flatBody cr)
        decide⟩
      neg := fun cr hcr hrec s hs => by
        have hs' : s ∈ ((flatMeaning cr).oper (dbOf []).schema cr).strict := hs
        rw [flatMeaning, (plain cr hcr).strict_oper] at hs'
        obtain ⟨i, hi, hop, -⟩ := hs'
        have hno : ∀ cr ∈ rules, cr.isRecursive = true → ∀ i ∈ flatBody cr, i.op ≠ .negCheck := by
          decide
        exact absurd hop (hno cr hcr hrec i hi) }
  heads := by decide
  some_rec := ⟨_, List.mem_cons_self .., rfl⟩
  scheduled n i r hr s hs := by
    obtain ⟨cr, hcr, rfl⟩ := List.mem_map.mp (List.mem_of_getElem? hr)
    obtain ⟨hin, hnon⟩ := List.mem_filter.mp hcr
    have hs' : s ∈ ((flatMeaning cr).oper (dbOf []).schema cr).strict := hs
    rw [flatMeaning, (plain cr (mem_stratumRules.mp hin).1).strict_oper] at hs'
    obtain ⟨j, hj, hop, rfl⟩ := hs'
    refine Settled.of_no_rule (fun r' hr' => ?_) i
    obtain ⟨cr', hcr', rfl⟩ := List.mem_map.mp hr'
    obtain ⟨hin', hnon'⟩ := List.mem_filter.mp hcr'
    rw [RuleMeaning.head_oper]
    have hno : ∀ cr ∈ rules, ∀ j ∈ flatBody cr, j.op = .negCheck → ∀ cr' ∈ rules,
        cr'.isRecursive = false → cr'.headRelId ≠ j.a := by
      decide
    exact hno cr (mem_stratumRules.mp hin).1 j hj hop cr' (mem_stratumRules.mp hin').1
      (by simpa using hnon')
  few n := (List.length_filter_le _ _).trans (by decide)

theorem facts (rows : List Row) (n id : ℕ) (h : ReadTwice rules flatMeaning n id) (x : Row) :
    x ∉ (dbOf rows).base id := by
  obtain ⟨-, -, -, P, -, i, -, j, -, -, -, hja, rfl⟩ := h
  obtain ⟨⟨cr, hcr, hrec, heq⟩, -⟩ := mem_recHeads.mp hja
  have hone : ∀ cr ∈ rules, cr.isRecursive = true → cr.headRelId = 1 := by decide
  rw [← heq, hone cr (mem_stratumRules.mp hcr).1 hrec]
  exact Dafsa.not_mem_create x

end Closure

/-- Two edges in a row: the closure has the long one, and no edge is on a cycle. -/
theorem vmExecute_stratified_closure :
    ∃ db', vmExecute (Closure.dbOf [[1, 2], [2, 3]]) Closure.noPending Closure.rules = .done db' ∧
      [1, 3] ∈ db'.contents 1 ∧ [1, 2] ∈ db'.contents 2 ∧
      ∀ lv, Stratified (opers (Closure.dbOf [[1, 2], [2, 3]]).schema flatMeaning Closure.rules) lv →
        PerfectModel (opers (Closure.dbOf [[1, 2], [2, 3]]).schema flatMeaning Closure.rules) lv
          (resetContents (Closure.dbOf [[1, 2], [2, 3]]) Closure.rules) db'.contents := by
  have hrun : (vmExecute (Closure.dbOf [[1, 2], [2, 3]]) Closure.noPending Closure.rules).check
      (fun s => (s.view 1).lookup [1, 3] && (s.view 2).lookup [1, 2]) = true := by decide +kernel
  obtain ⟨s, hs, hrows⟩ := Final.exists_of_check hrun
  simp only [Bool.and_eq_true, Dafsa.lookup_iff] at hrows
  exact ⟨s, hs, hrows.1, hrows.2, (vmExecute_stratified (Closure.inStrata _) rfl
    (Closure.rowsOk (by decide)) (Closure.permsOk _) (Closure.facts _) hs).2.2⟩

end DatalogDafsa
