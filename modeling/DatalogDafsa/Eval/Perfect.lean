import DatalogDafsa.Eval.Execute
import DatalogDafsa.Compile.Strata

/-!
# Programs without recursion

The strata of a compiled program come from `compute_strata`, run on the edges of the
source rules.  Without recursive heads the program is then acyclic, so it has one
intended content; `vm_execute` reaches it when it is timely: what a rule reads strictly
has been derived, in stratum order, by the rules before it.

Being timely is not something the compiler promises: positive and aggregated reads
do not raise the stratum, so inside a stratum the source order decides, and a rule
whose input is not complete yet lets a later negation or aggregate fire too early.
An order in which all rules for a relation come before those that read it strictly is
timely whatever the facts; a late rule that has nothing new to give does no harm either.

## Main definitions

* `FromRule`, `Program` — what the compiler promises of a rule set.
* `Program.acyclic` — without recursive heads, nothing depends on itself.
* `Timely` — the rows of strict reads have derivations before the place of the read.
* `vmExecute_perfect` — a timely program is evaluated to its perfect model, and a program
  that is not fires a rule early.
-/

namespace DatalogDafsa

open Backtrack Operators

/-! ## Programs -/

/-- A compiled rule with its meaning, and the source rule it comes from. -/
structure FromRule (d : Decls) (σ : Schema) (st : ℕ → ℕ) (recursive : ℕ → Bool) (r : Rule)
    (cr : CompiledRule) (m : RuleMeaning) : Prop where
  /-- The head is the head's. -/
  head : d.find r.head.pred = some cr.headRelId
  /-- It reads what its body atoms name. -/
  reads : ∀ s ∈ (m.oper σ cr).reads, ∃ e ∈ ruleEdges d r, e.src = s
  /-- The stratum is the head's. -/
  stratum : cr.stratum = st cr.headRelId
  /-- It is recursive when its head is. -/
  isRecursive : cr.isRecursive = recursive cr.headRelId

/-- Compiled rules whose strata come from `compute_strata`. -/
structure Program (d : Decls) (prog : List Rule) (seeds : List ℕ) (comp₀ : ℕ → ℕ) (σ : Schema)
    (rules : List CompiledRule) (ms : CompiledRule → RuleMeaning) : Prop where
  /-- The bytecode has a meaning. -/
  wf : ∀ cr ∈ rules, RuleWf σ cr (ms cr)
  /-- The strata are those of the source rules. -/
  strata : ∃ st recursive, computeStrata d prog seeds comp₀ = .ok st recursive ∧
    ∀ cr ∈ rules, ∃ r ∈ prog, FromRule d σ st recursive r cr (ms cr)

theorem ruleEdges_dst {d : Decls} {r : Rule} {head : ℕ} (hhead : d.find r.head.pred = some head)
    {e : Edge} (he : e ∈ ruleEdges d r) : e.dst = head := by
  unfold ruleEdges at he
  rw [hhead] at he
  obtain ⟨a, -, ha⟩ := List.mem_filterMap.mp he
  exact (atomEdge_lt ha).2

/-- Along a path of edges the stratum rises, or all edges are positive. -/
theorem Stratification.path {edges : List Edge} {st : ℕ → ℕ} {recursive : ℕ → Bool}
    (h : Stratification edges st recursive) {u v : ℕ}
    (huv : Relation.TransGen (fun s s' => ∃ e ∈ edges, e.src = s ∧ e.dst = s') u v) :
    st u < st v ∨ st u ≤ st v ∧ Relation.TransGen (PosEdge edges) u v := by
  have hone : ∀ s s', (∃ e ∈ edges, e.src = s ∧ e.dst = s') →
      st s < st s' ∨ st s ≤ st s' ∧ PosEdge edges s s' := by
    rintro s s' ⟨⟨src, dst, isNeg⟩, he, rfl, rfl⟩
    cases isNeg with
    | true => exact .inl (h.strict _ he rfl)
    | false => exact .inr ⟨h.mono _ he, he⟩
  induction huv with
  | single hstep =>
    exact (hone _ _ hstep).imp_right fun ⟨hle, hpos⟩ => ⟨hle, .single hpos⟩
  | tail _ hstep ih =>
    rcases ih with hlt | ⟨hle, hpath⟩ <;> rcases hone _ _ hstep with hlt' | ⟨hle', hpos⟩
    · exact .inl (hlt.trans hlt')
    · exact .inl (hlt.trans_le hle')
    · exact .inl (hle.trans_lt hlt')
    · exact .inr ⟨hle.trans hle', hpath.tail hpos⟩

section

variable {d : Decls} {prog : List Rule} {seeds : List ℕ} {comp₀ : ℕ → ℕ} {σ : Schema}
  {rules : List CompiledRule} {ms : CompiledRule → RuleMeaning}

/-- **Without recursive heads, nothing depends on itself.** -/
theorem Program.acyclic (h : Program d prog seeds comp₀ σ rules ms)
    (hnonrec : ∀ cr ∈ rules, cr.isRecursive = false) (s : ℕ) :
    ¬ Relation.TransGen (Dep (opers σ ms rules)) s s := by
  obtain ⟨st, recursive, hok, hfrom⟩ := h.strata
  have hst := computeStrata_stratification hok
  have hedge : ∀ u v, Dep (opers σ ms rules) u v →
      ∃ e ∈ progEdges d prog, e.src = u ∧ e.dst = v := by
    rintro u v ⟨r, hr, rfl, hread⟩
    obtain ⟨cr, hcr, rfl⟩ := List.mem_map.mp hr
    obtain ⟨rule, hrule, hf⟩ := hfrom cr hcr
    obtain ⟨e, he, rfl⟩ := hf.reads u hread
    refine ⟨e, List.mem_flatMap.mpr ⟨rule, hrule, he⟩, rfl, ?_⟩
    rw [ruleEdges_dst hf.head he, RuleMeaning.head_oper]
  intro hcycle
  rcases hst.path (Relation.TransGen.mono hedge _ _ hcycle) with hlt | ⟨-, hpath⟩
  · exact absurd hlt (lt_irrefl _)
  · -- the last step comes from a rule whose head is on the cycle
    obtain ⟨u, -, r, hr, rfl, -⟩ := Relation.TransGen.tail'_iff.mp hcycle
    obtain ⟨cr, hcr, rfl⟩ := List.mem_map.mp hr
    obtain ⟨rule, hrule, hf⟩ := hfrom cr hcr
    rw [RuleMeaning.head_oper] at hpath
    have hrec := hst.cycle _ hpath
    rw [← hf.isRecursive, hnonrec cr hcr] at hrec
    cases hrec

/-- An acyclic program has a level mapping. -/
theorem Program.stratified (h : Program d prog seeds comp₀ σ rules ms)
    (hnonrec : ∀ cr ∈ rules, cr.isRecursive = false) : ∃ lv, Stratified (opers σ ms rules) lv := by
  obtain ⟨rk, hrk, -⟩ := exists_rank (h.acyclic hnonrec)
  exact ⟨rk, fun r hr => ⟨fun s hs => (hrk r hr s (.inl hs)).le, fun s hs => hrk r hr s (.inr hs)⟩⟩

theorem evalRules_nonrecursive {db : Db} {pend : Pending} {ivm : Bool}
    (hnonrec : ∀ cr ∈ rules, cr.isRecursive = false) :
    evalRules db pend rules ivm = evalNonrecursive db rules := by
  have hany : rules.any CompiledRule.isRecursive = false := by
    simpa using hnonrec
  unfold evalRules
  rw [hany]
  rfl

/-- A model of the rules is one of the rules in stratum order. -/
theorem isModel_ruleStratumOrder {B M : ℕ → Set Row} (h : IsModel (opers σ ms rules) B M) :
    IsModel (opers σ ms (ruleStratumOrder rules)) B M := by
  intro s
  rw [h s]
  simp only [opers, List.mem_map, (ruleStratumOrder_perm rules).mem_iff]

/-- **`vm_execute` computes the model of a program without recursion** whose strict reads are
complete in time, and touches no view but those of the heads. -/
theorem Program.vmExecute_model (h : Program d prog seeds comp₀ σ rules ms)
    (hnonrec : ∀ cr ∈ rules, cr.isRecursive = false) {db db' : Db} {pend : Pending}
    (hord : ∀ M, IsModel (opers σ ms (ruleStratumOrder rules)) (resetContents db rules) M →
      InOrder (opers σ ms (ruleStratumOrder rules)) (resetContents db rules) M)
    (hσ : db.schema = σ) (hrows : db.RowsOk) (hperms : db.PermsOk)
    (hrun : vmExecute db pend rules = .done db') :
    IsModel (opers σ ms rules) (resetContents db rules) db'.contents := by
  by_cases hne : rules = []
  · subst hne
    cases hrun
    intro s
    ext x
    simp [opers, resetContents, Db.contents]
  · obtain ⟨db₁, hreset, hok, hcont, hlt, heval⟩ := vmExecute_reset hne hrows hperms hrun
    rw [evalRules_nonrecursive hnonrec] at heval
    rw [← hcont] at hord ⊢
    exact (evalNonrecursive_model h.wf hlt (h.acyclic hnonrec) hok (hreset.schema.trans hσ)
      hord heval).2.2

/-- The rows that the perfect model gives to a relation read strictly have derivations from the
reset contents, by rules at ascending places in stratum order before that of the reader. -/
def Timely (σ : Schema) (ms : CompiledRule → RuleMeaning) (rules : List CompiledRule)
    (lv : ℕ → ℕ) (db : Db) : Prop :=
  InOrder (opers σ ms (ruleStratumOrder rules)) (resetContents db rules)
    (perfect (opers σ ms rules) lv (resetContents db rules))

/-- The perfect model of a program without recursion is its one model. -/
theorem Program.isModel_perfect (h : Program d prog seeds comp₀ σ rules ms)
    (hnonrec : ∀ cr ∈ rules, cr.isRecursive = false) {lv : ℕ → ℕ}
    (hlv : Stratified (opers σ ms rules) lv) (B : ℕ → Set Row) :
    IsModel (opers σ ms rules) B (perfect (opers σ ms rules) lv B) := by
  obtain ⟨rk, hrk, -⟩ := exists_rank (h.acyclic hnonrec)
  obtain ⟨M, hM⟩ := exists_model hrk B
  rwa [hlv.perfectModel.unique (hM.perfect hrk hlv)]

/-- **`vm_execute` evaluates a timely program without recursion to its perfect model**, along
every level mapping that stratifies it; when the program is not timely, a rule of the first
sweep fires while a relation it reads strictly is not complete. -/
theorem vmExecute_perfect (h : Program d prog seeds comp₀ σ rules ms)
    (hnonrec : ∀ cr ∈ rules, cr.isRecursive = false) {db db' : Db} {pend : Pending}
    (hσ : db.schema = σ) (hrows : db.RowsOk) (hperms : db.PermsOk)
    (hrun : vmExecute db pend rules = .done db') :
    (∃ lv, Stratified (opers σ ms rules) lv) ∧
      ∀ lv, Stratified (opers σ ms rules) lv →
        (Timely σ ms rules lv db →
          PerfectModel (opers σ ms rules) lv (resetContents db rules) db'.contents) ∧
        (¬ Timely σ ms rules lv db → ∃ db₀, resetHeads rules [] db = .done db₀ ∧
          FiresEarly σ ms (ruleStratumOrder rules)
            (perfect (opers σ ms rules) lv (resetContents db rules)) db₀.permBuildDirty) := by
  refine ⟨h.stratified hnonrec, fun lv hlv => ?_⟩
  obtain ⟨rk, hrk, -⟩ := exists_rank (h.acyclic hnonrec)
  have hM := h.isModel_perfect hnonrec hlv (resetContents db rules)
  have hM' := isModel_ruleStratumOrder hM
  constructor
  · intro htimely
    refine (h.vmExecute_model hnonrec (fun M hmodel => ?_) hσ hrows hperms hrun).perfect hrk hlv
    have hrk' : Ranked (opers σ ms (ruleStratumOrder rules)) rk := by
      intro r hr
      obtain ⟨cr, hcr, rfl⟩ := List.mem_map.mp hr
      exact hrk _ (List.mem_map_of_mem ((ruleStratumOrder_perm rules).mem_iff.mp hcr))
    rw [hmodel.unique hrk' hM']
    exact htimely
  · intro hlate
    by_cases hne : rules = []
    · subst hne
      exact absurd (fun i r hr => by simp [opers, ruleStratumOrder] at hr) hlate
    · obtain ⟨db₀, hr, heval⟩ := vmExecute_started hne hrun
      obtain ⟨hreset, hok, hcont, -⟩ := resetHeads_ready hrows hperms hr
      rw [evalRules_nonrecursive hnonrec] at heval
      rw [Timely, ← hcont] at hlate
      rw [← hcont] at hM' ⊢
      exact ⟨db₀, hr, evalNonrecursive_early h.wf hok (hreset.schema.trans hσ) hM' heval hlate⟩

end

/-! ## Plain programs -/

/-- The pipeline of a plain rule. -/
def flatBody (cr : CompiledRule) : List VmInstr := cr.instrs.take (cr.instrs.length - 2)

/-- The leaf of a plain rule. -/
def flatLeaf (cr : CompiledRule) : VmInstr := instrAt cr.instrs (cr.instrs.length - 2)

/-- The meaning of a plain rule. -/
def flatMeaning (cr : CompiledRule) : RuleMeaning := .plan (.flat (flatBody cr) (flatLeaf cr))

/-- A plain rule reads strictly what it negates. -/
theorem Plain.strict_oper {σ : Schema} {cr : CompiledRule} {body : List VmInstr} {leaf : VmInstr}
    (h : Plain σ cr body leaf) : ((RuleMeaning.plan (.flat body leaf)).oper σ cr).strict =
      {id | ∃ i ∈ body, i.op = .negCheck ∧ i.a = id} := by
  ext id
  constructor
  · rintro ⟨i, hi, hread⟩
    rcases List.mem_append.mp hi with hi | hi
    · rcases hread with ⟨hop, rfl⟩ | ⟨hop, -⟩
      · exact ⟨i, hi, hop, rfl⟩
      · have := List.all_eq_true.mp h.ops i hi
        rw [hop] at this
        cases this
    · rw [List.mem_singleton.mp hi, h.project.1] at hread
      simp at hread
  · rintro ⟨i, hi, hop, rfl⟩
    exact ⟨i, List.mem_append_left _ hi, .inl ⟨hop, rfl⟩⟩

/-- A plain rule reads what its atoms and negated atoms name. -/
theorem Plain.reads_oper {σ : Schema} {cr : CompiledRule} {body : List VmInstr} {leaf : VmInstr}
    (h : Plain σ cr body leaf) : ((RuleMeaning.plan (.flat body leaf)).oper σ cr).reads =
      {id | ∃ i ∈ body, (driverFeeds i.op || i.op == .negCheck) = true ∧ i.a = id} := by
  ext id
  rw [Oper.reads, h.strict_oper]
  constructor
  · rintro (⟨i, hi, rfl⟩ | ⟨i, hi, hop, rfl⟩)
    · obtain ⟨hin, hf⟩ := List.mem_filter.mp hi
      exact ⟨i, hin, by simp [hf], rfl⟩
    · exact ⟨i, hi, by simp [hop], rfl⟩
  · rintro ⟨i, hi, hop, rfl⟩
    rw [Bool.or_eq_true, beq_iff_eq] at hop
    rcases hop with hf | hop
    · exact .inl ⟨i, List.mem_filter.mpr ⟨hi, hf⟩, rfl⟩
    · exact .inr ⟨i, hi, hop, rfl⟩

/-- A plain rule comes from a source rule, by checks on both. -/
def PlainFrom (d : Decls) (σ : Schema) (res : StrataResult) (r : Rule) (cr : CompiledRule) : Prop :=
  Plain σ cr (flatBody cr) (flatLeaf cr) ∧ d.find r.head.pred = some cr.headRelId ∧
    (∀ i ∈ flatBody cr, (driverFeeds i.op || i.op == .negCheck) = true →
      ∃ e ∈ ruleEdges d r, e.src = i.a) ∧
    cr.stratum = res.strata cr.headRelId ∧ cr.isRecursive = res.recursive cr.headRelId

instance (d : Decls) (σ : Schema) (res : StrataResult) (r : Rule) (cr : CompiledRule) :
    Decidable (PlainFrom d σ res r cr) := by
  unfold PlainFrom
  infer_instance

/-- A program of plain rules. -/
theorem Program.of_plain {d : Decls} {prog : List Rule} {seeds : List ℕ} {comp₀ : ℕ → ℕ}
    {σ : Schema} {rules : List CompiledRule}
    (hok : (computeStrata d prog seeds comp₀).isOk = true)
    (hfrom : ∀ cr ∈ rules, ∃ r ∈ prog, PlainFrom d σ (computeStrata d prog seeds comp₀) r cr) :
    Program d prog seeds comp₀ σ rules flatMeaning where
  wf cr hcr := by
    obtain ⟨r, -, hplain, -⟩ := hfrom cr hcr
    exact hplain.ruleOk
  strata := by
    refine ⟨_, _, StrataResult.eq_ok hok, fun cr hcr => ?_⟩
    obtain ⟨r, hr, hplain, hhead, hedges, hst, hrec⟩ := hfrom cr hcr
    refine ⟨r, hr, hhead, fun s hs => ?_, hst, hrec⟩
    have hs' : s ∈ {id | ∃ i ∈ flatBody cr, (driverFeeds i.op || i.op == .negCheck) = true ∧
        i.a = id} := hplain.reads_oper ▸ hs
    obtain ⟨i, hi, hread, rfl⟩ := hs'
    exact hedges i hi hread

/-! ## A negation that fires too early -/

/-- `head(X) :- src(X).` -/
def copyRule (head src stratum : ℕ) : CompiledRule :=
  { headRelId := head
    instrs := [⟨.scan, src, 1, 0, 0, [0], 0⟩, ⟨.project, head, 1, 0, 0, [0], 0⟩,
      ⟨.halt, 0, 0, 0, 0, [], 0⟩]
    stratum }

/-- `head(X) :- src(X), !neg(X).` -/
def exceptRule (head src neg stratum : ℕ) : CompiledRule :=
  { headRelId := head
    instrs := [⟨.scan, src, 1, 0, 0, [0], 0⟩, ⟨.negCheck, neg, 1, 0, 0, [0], 1⟩,
      ⟨.project, head, 1, 0, 0, [0], 0⟩, ⟨.halt, 0, 0, 0, 0, [], 0⟩]
    stratum }

section Samples

variable {σ : Schema} {head src neg stratum : ℕ}

/-- The operator of a sample rule. -/
def sampleOper (σ : Schema) (cr : CompiledRule) : Oper ℕ Row := (flatMeaning cr).oper σ cr

@[simp] theorem head_copyRule : (sampleOper σ (copyRule head src stratum)).head = head := rfl

@[simp] theorem head_exceptRule : (sampleOper σ (exceptRule head src neg stratum)).head = head := rfl

@[simp] theorem pos_copyRule : (sampleOper σ (copyRule head src stratum)).pos = {src} := by
  ext id
  simp [sampleOper, RuleMeaning.oper, flatMeaning, flatBody, copyRule, Plan.atoms, Plan.bodyAtoms,
    driverFeeds]

@[simp] theorem strict_copyRule : (sampleOper σ (copyRule head src stratum)).strict = ∅ := by
  ext id
  simp [sampleOper, RuleMeaning.oper, flatMeaning, flatBody, flatLeaf, copyRule, instrAt,
    Plan.strictReads, Plan.instrs]

@[simp] theorem pos_exceptRule : (sampleOper σ (exceptRule head src neg stratum)).pos = {src} := by
  ext id
  simp [sampleOper, RuleMeaning.oper, flatMeaning, flatBody, exceptRule, Plan.atoms, Plan.bodyAtoms,
    driverFeeds]

@[simp] theorem strict_exceptRule :
    (sampleOper σ (exceptRule head src neg stratum)).strict = {neg} := by
  ext id
  simp [sampleOper, RuleMeaning.oper, flatMeaning, flatBody, flatLeaf, exceptRule, instrAt,
    Plan.strictReads, Plan.instrs]

/-- `head(X) :- src(X)` adds the first columns of `src`. -/
theorem mem_out_copyRule {V : ℕ → Set Row} {t : Row} :
    t ∈ (sampleOper σ (copyRule head src stratum)).out V ↔ ∃ x ∈ V src, t = [x.getD 0 0] := by
  have hbind : ∀ x : Row, bindRowPerm ⟨.scan, src, 1, 0, 0, [0], 0⟩ x 0 1 none bInit =
      some (Function.update bInit 0 (some (x.getD 0 0))) := by
    intro x
    simp [bindRowPerm, origCol, VmInstr.slot, noSlot, bTry, maxVars, bInit]
  have hleaf : ∀ v : Val, leafRow ⟨.project, head, 1, 0, 0, [0], 0⟩
      (Function.update bInit 0 (some v)) = [v] := by
    intro v
    simp [leafRow, VmInstr.slot, bGet, maxVars]
  simp [sampleOper, RuleMeaning.oper, flatMeaning, flatBody, flatLeaf, copyRule, instrAt, fire,
    Plan.sol, Reach, Succ, driverFeeds, rowMatch, Schema.env, relSrc, Plan.atoms, Plan.bodyAtoms,
    hbind, hleaf]

/-- What a copy rule derives from rows that are there before its place. -/
theorem early_copyRule {ops : List (Oper ℕ Row)} {B M : ℕ → Set Row} {i j : ℕ}
    (hj : ops[j]? = some (sampleOper σ (copyRule head src stratum))) (hji : j < i)
    {C : ℕ → Set Row} (hC : ∀ t ∈ C src, Early ops B M j src t) {t : Row}
    (ht : t ∈ (sampleOper σ (copyRule head src stratum)).out C) : Early ops B M i head t :=
  .rule hj hji C (by simpa using hC) (by simp) ht

end Samples

namespace Chain

/-- Relations `s`, `a`, `r`, `q`, `p`. -/
def decls : Decls := ["s", "a", "r", "q", "p"]

/-- An atom over `X`. -/
def atomX (pred : String) (negated : Bool) : Atom := { pred, args := [.var "X"], negated }

/-- `r(X) :- s(X).  q(X) :- r(X).  p(X) :- a(X), !q(X).` -/
def source : List Rule :=
  [⟨atomX "r" false, [atomX "s" false]⟩, ⟨atomX "q" false, [atomX "r" false]⟩,
    ⟨atomX "p" false, [atomX "a" false, atomX "q" true]⟩]

/-- Its bytecode. -/
def rules : List CompiledRule := [copyRule 2 0 0, copyRule 3 2 0, exceptRule 4 1 3 1]

/-- The first two rules the other way round. -/
def swappedSource : List Rule :=
  [⟨atomX "q" false, [atomX "r" false]⟩, ⟨atomX "r" false, [atomX "s" false]⟩,
    ⟨atomX "p" false, [atomX "a" false, atomX "q" true]⟩]

/-- Its bytecode. -/
def swapped : List CompiledRule := [copyRule 3 2 0, copyRule 2 0 0, exceptRule 4 1 3 1]

/-- `q(X) :- s(X).` before the swapped rules: what `r` passes on late, `q` has by then. -/
def lateSource : List Rule := ⟨atomX "q" false, [atomX "s" false]⟩ :: swappedSource

/-- Its bytecode. -/
def late : List CompiledRule := copyRule 3 0 0 :: swapped

/-- Facts of `s`, `a` and `r`. -/
def dbOf (s a r : List Row) : Db :=
  { rels := [⟨1, .aliased (Dafsa.ofRows s)⟩, ⟨1, .aliased (Dafsa.ofRows a)⟩,
      ⟨1, .aliased (Dafsa.ofRows r)⟩, ⟨1, .aliased .create⟩, ⟨1, .aliased .create⟩]
    perms := []
    tbl := ⟨.empty, .empty⟩ }

/-- `s(1)` and `a(1)`. -/
def db : Db := dbOf [[1]] [[1]] []

/-- Some rows of `a` are in `q`, by way of `s` and of `r`, and some are not. -/
def lateDb : Db := dbOf [[1], [2]] [[2], [3], [5]] [[5]]

/-- No insertion is pending. -/
def noPending : Pending := fun _ => TupleSet.init 1

theorem program : Program decls source [] (fun _ => 0) db.schema rules flatMeaning :=
  Program.of_plain (by decide +kernel) (by decide +kernel)

theorem program_swapped :
    Program decls swappedSource [] (fun _ => 0) db.schema swapped flatMeaning :=
  Program.of_plain (by decide +kernel) (by decide +kernel)

theorem program_late : Program decls lateSource [] (fun _ => 0) lateDb.schema late flatMeaning :=
  Program.of_plain (by decide +kernel) (by decide +kernel)

theorem rowsOk {s a r : List Row} (hs : ∀ x ∈ s, x.length = 1) (ha : ∀ x ∈ a, x.length = 1)
    (hr : ∀ x ∈ r, x.length = 1) : (dbOf s a r).RowsOk := by
  have hrows : ∀ {rows : List Row}, (∀ x ∈ rows, x.length = 1) →
      ∀ x ∈ Dafsa.ofRows rows, x.length = 1 := fun h x hx => h x (Dafsa.mem_ofRows.mp hx)
  intro id ar har
  rw [Db.arities_getElem?] at har
  rcases id with _ | _ | _ | _ | _ | id <;> cases har
  · exact ⟨hrows hs, hrows hs⟩
  · exact ⟨hrows ha, hrows ha⟩
  · exact ⟨hrows hr, hrows hr⟩
  · exact ⟨List.forall_mem_nil _, List.forall_mem_nil _⟩
  · exact ⟨List.forall_mem_nil _, List.forall_mem_nil _⟩

theorem permsOk (s a r : List Row) : (dbOf s a r).PermsOk := fun pe hpe => by cases hpe

/-- The reset contents do not depend on the order of the rules. -/
theorem resetContents_perm {db : Db} {rules rules' : List CompiledRule} (h : rules.Perm rules') :
    resetContents db rules = resetContents db rules' := by
  funext id
  have hany : rules.any (fun cr => cr.headRelId = id) = rules'.any fun cr => cr.headRelId = id := by
    rw [Bool.eq_iff_iff, List.any_eq_true, List.any_eq_true]
    simp only [h.mem_iff]
  unfold resetContents
  rw [hany]

section Order

variable {σ : Schema} {B M : ℕ → Set Row}

/-- In source order the rules are in order, whatever the facts: `q` after `r`, `p` after `q`. -/
theorem inOrder_rules (hM : IsModel (opers σ flatMeaning (ruleStratumOrder rules)) B M) :
    InOrder (opers σ flatMeaning (ruleStratumOrder rules)) B M := by
  have hops : opers σ flatMeaning (ruleStratumOrder rules) =
    [sampleOper σ (copyRule 2 0 0), sampleOper σ (copyRule 3 2 0),
      sampleOper σ (exceptRule 4 1 3 1)] := rfl
  rw [hops] at hM ⊢
  have hs : M 0 = B 0 := by simpa using hM 0
  have hr : ∀ t ∈ M 2, t ∈ B 2 ∨ t ∈ (sampleOper σ (copyRule 2 0 0)).out M := by
    intro t ht
    simpa [hM 2] using ht
  have hq : ∀ t ∈ M 3, t ∈ B 3 ∨ t ∈ (sampleOper σ (copyRule 3 2 0)).out M := by
    intro t ht
    simpa [hM 3] using ht
  intro i r hi id hid t ht
  -- only the last rule reads strictly, and it reads `q`
  rcases i with _ | _ | _ | i <;> simp at hi <;> subst hi <;> simp at hid
  subst hid
  rcases hq t ht with ht | ht
  · exact .base ht
  · refine early_copyRule (j := 1) rfl (by decide) (fun t ht => ?_) ht
    rcases hr t ht with ht | ht
    · exact .base ht
    · exact early_copyRule (j := 0) rfl (by decide) (fun t ht => .base (hs ▸ ht)) ht

/-- With the redundant rule in front the rules are in order too, whatever the facts: what
`q(X) :- r(X)` misses at its place, `q(X) :- s(X)` has derived. -/
theorem inOrder_late (hM : IsModel (opers σ flatMeaning (ruleStratumOrder late)) B M) :
    InOrder (opers σ flatMeaning (ruleStratumOrder late)) B M := by
  have hops : opers σ flatMeaning (ruleStratumOrder late) =
    [sampleOper σ (copyRule 3 0 0), sampleOper σ (copyRule 3 2 0),
      sampleOper σ (copyRule 2 0 0), sampleOper σ (exceptRule 4 1 3 1)] := rfl
  rw [hops] at hM ⊢
  have hs : M 0 = B 0 := by simpa using hM 0
  have hr : ∀ t ∈ M 2, t ∈ B 2 ∨ t ∈ (sampleOper σ (copyRule 2 0 0)).out M := by
    intro t ht
    simpa [hM 2] using ht
  have hq : ∀ t ∈ M 3, t ∈ B 3 ∨ t ∈ (sampleOper σ (copyRule 3 0 0)).out M ∨
      t ∈ (sampleOper σ (copyRule 3 2 0)).out M := by
    intro t ht
    simpa [hM 3] using ht
  intro i r hi id hid t ht
  rcases i with _ | _ | _ | _ | i <;> simp at hi <;> subst hi <;> simp at hid
  subst hid
  rcases hq t ht with ht | ht | ht
  · exact .base ht
  · exact early_copyRule (j := 0) rfl (by decide) (fun t ht => .base (hs ▸ ht)) ht
  · obtain ⟨x, hx, rfl⟩ := mem_out_copyRule.mp ht
    rcases hr x hx with hx | hx
    · -- a fact of `r` is there when the second rule fires
      exact early_copyRule (j := 1) rfl (by decide) (fun t ht => .base ht)
        (mem_out_copyRule.mpr ⟨x, hx, rfl⟩)
    · -- what `r` gets from `s`, the first rule has given to `q`
      obtain ⟨y, hy, rfl⟩ := mem_out_copyRule.mp hx
      exact early_copyRule (j := 0) rfl (by decide) (fun t ht => .base ht)
        (mem_out_copyRule.mpr ⟨y, hs ▸ hy, rfl⟩)

end Order

end Chain

/-- The first two rules of a chain the other way round: `q` is swept before `r`, so
`p` is fired before `q` holds what it will hold, and keeps `p(1)`. -/
theorem vmExecute_premature : ∃ db', vmExecute Chain.db Chain.noPending Chain.swapped = .done db' ∧
    Program Chain.decls Chain.swappedSource [] (fun _ => 0) Chain.db.schema Chain.swapped
      flatMeaning ∧
    (∀ cr ∈ Chain.swapped, cr.isRecursive = false) ∧ Chain.db.RowsOk ∧ Chain.db.PermsOk ∧
    ∃ lv, Stratified (opers Chain.db.schema flatMeaning Chain.swapped) lv ∧
      ¬ PerfectModel (opers Chain.db.schema flatMeaning Chain.swapped) lv
        (resetContents Chain.db Chain.swapped) db'.contents := by
  have hrun : (vmExecute Chain.db Chain.noPending Chain.swapped).check
      (fun db' => decide ([1] ∈ db'.view 4)) = true := by decide +kernel
  have hgood : (vmExecute Chain.db Chain.noPending Chain.rules).check
      (fun db' => decide ([1] ∉ db'.view 4)) = true := by decide +kernel
  have hnonrec : ∀ cr ∈ Chain.swapped, cr.isRecursive = false := by decide
  obtain ⟨db', hdb, hin⟩ := Final.exists_of_check hrun
  obtain ⟨db'', hdb', hout⟩ := Final.exists_of_check hgood
  obtain ⟨lv, hlv⟩ := Chain.program_swapped.stratified hnonrec
  refine ⟨db', hdb, Chain.program_swapped, hnonrec,
    Chain.rowsOk (by decide) (by decide) (by decide), Chain.permsOk _ _ _, lv, hlv,
    fun hperfect => ?_⟩
  -- the rules in source order reach the perfect model, which has no `p(1)`
  have hperm : Chain.swapped.Perm Chain.rules := List.Perm.swap _ _ _
  have hopers := hperm.map fun cr => (flatMeaning cr).oper Chain.db.schema cr
  have hmodel := Chain.program.vmExecute_model (by decide) (fun _ => Chain.inOrder_rules) rfl
    (Chain.rowsOk (by decide) (by decide) (by decide)) (Chain.permsOk _ _ _) hdb'
  have hmodel' : IsModel (opers Chain.db.schema flatMeaning Chain.swapped)
      (resetContents Chain.db Chain.swapped) db''.contents := fun s => by
    rw [hmodel s, Chain.resetContents_perm hperm]
    simp only [opers, hopers.mem_iff]
  obtain ⟨rk, hrk, -⟩ := exists_rank (Chain.program_swapped.acyclic hnonrec)
  have heq := hperfect.unique (hmodel'.perfect hrk hlv)
  have hview : [1] ∈ db'.view 4 := of_decide_eq_true hin
  have hin' : [1] ∈ db'.contents 4 := hview
  rw [heq] at hin'
  have hview' : [1] ∉ db''.view 4 := of_decide_eq_true hout
  exact hview' hin'

/-- A redundant rule that comes late does no harm: `p` gets what is not in `q`, which has the
facts of `s` and of `r`. -/
theorem vmExecute_perfect_late :
    ∃ db', vmExecute Chain.lateDb Chain.noPending Chain.late = .done db' ∧
      (db'.view 3).keys = [[1], [2], [5]] ∧ (db'.view 4).keys = [[3]] ∧
      ∃ lv, Stratified (opers Chain.lateDb.schema flatMeaning Chain.late) lv ∧
        PerfectModel (opers Chain.lateDb.schema flatMeaning Chain.late) lv
          (resetContents Chain.lateDb Chain.late) db'.contents := by
  have hrun : (vmExecute Chain.lateDb Chain.noPending Chain.late).check
      (fun db' => decide ((db'.view 3).keys = [[1], [2], [5]] ∧ (db'.view 4).keys = [[3]])) =
        true := by
    decide +kernel
  have hnonrec : ∀ cr ∈ Chain.late, cr.isRecursive = false := by decide
  obtain ⟨db', hdb, hkeys⟩ := Final.exists_of_check hrun
  obtain ⟨hq, hp⟩ := of_decide_eq_true hkeys
  obtain ⟨⟨lv, hlv⟩, hperfect⟩ := vmExecute_perfect Chain.program_late hnonrec rfl
    (Chain.rowsOk (by decide) (by decide) (by decide)) (Chain.permsOk _ _ _) hdb
  have hM := Chain.program_late.isModel_perfect hnonrec hlv (resetContents Chain.lateDb Chain.late)
  exact ⟨db', hdb, hq, hp, lv, hlv,
    (hperfect lv hlv).1 (Chain.inOrder_late (isModel_ruleStratumOrder hM))⟩

end DatalogDafsa
