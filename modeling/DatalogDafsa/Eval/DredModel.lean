import DatalogDafsa.Eval.DredSound

/-!
# Deletions give the new model

What is left in the views after the overdeletion is stored, or is derived from what is
left; and the sweeps over the affected heads, stratum by stratum, bring the views to the
model of what is stored now.  This needs that no derivation lost two stored rows at once:
the deleted facts are gone before the pass starts, so such a derivation is found at
neither of its atoms, and what it gave stays in the view.

## Main definitions

* `DredProgram` — what the pass is run on.
* `rederive_strata` — the strata are derived again.
* `Changed`, `Apart` — the batch, and the derivations that lost two rows.
* `vmDredDelete_model`, `vmDredDelete_perfect` — the views end as the model of what is
  stored.
-/

namespace DatalogDafsa

open Backtrack Operators Worklist

/-! ## Deriving again -/

/-- What the pass is run on: rules without recursion whose strict reads are negative edges
of the source rules. -/
structure DredProgram (d : Decls) (prog : List Rule) (seeds : List ℕ) (comp₀ : ℕ → ℕ) (σ : Schema)
    (rules : List CompiledRule) (ms : CompiledRule → RuleMeaning) : Prop where
  /-- The rules come from the source rules. -/
  program : Program d prog seeds comp₀ σ rules ms
  /-- There are no more relations than the tables hold. -/
  rels : σ.arities.length ≤ maxRels
  /-- Every rule is a pipeline of scans and lookups. -/
  simple : ∀ cr ∈ rules, cr.isRecursive = false ∧ cr.hasAggregate = false ∧
    ∃ body leaf, ms cr = .plan (.flat body leaf) ∧ Simple σ cr body leaf
  /-- What is negated is a negative edge. -/
  neg : ∀ cr ∈ rules, ∀ s ∈ ((ms cr).oper σ cr).strict,
    ∃ e ∈ progEdges d prog, e.isNeg = true ∧ e.src = s ∧ e.dst = cr.headRelId
  /-- No stratum has too many rules. -/
  few : ∀ n, (stratumRules rules n).length ≤ maxStratumRules

/-- What has been derived again before stratum `k`. -/
structure Rederived (σ : Schema) (ms : CompiledRule → RuleMeaning) (rules : List CompiledRule)
    (affected : List ℕ) (db₁ : Db) (k : ℕ) (db : Db) : Prop where
  /-- Only the views of heads changed. -/
  evolves : Db.Evolves {id | ∃ cr ∈ rules, cr.headRelId = id} db₁ db
  /-- The database is ready. -/
  ok : db.Ok
  /-- The views are a model of the affected rules of the strata below. -/
  model : IsModel (opers σ ms (rules.filter fun cr =>
    cr.stratum < k && affected.contains cr.headRelId)) db₁.contents db.contents

section Rederive

variable {d : Decls} {prog : List Rule} {seeds : List ℕ} {comp₀ : ℕ → ℕ} {σ : Schema}
  {rules : List CompiledRule} {ms : CompiledRule → RuleMeaning}

theorem DredProgram.head_lt (h : DredProgram d prog seeds comp₀ σ rules ms) {cr : CompiledRule}
    (hcr : cr ∈ rules) : cr.headRelId < maxRels := by
  obtain ⟨ar, har⟩ := (h.program.wf cr hcr).head
  exact (List.getElem?_eq_some_iff.mp har).1.trans_le h.rels

theorem DredProgram.nonrec (h : DredProgram d prog seeds comp₀ σ rules ms) :
    ∀ cr ∈ rules, cr.isRecursive = false := fun cr hcr => (h.simple cr hcr).1

/-- The strata of the rules: strict reads come from lower ones. -/
theorem DredProgram.strata (h : DredProgram d prog seeds comp₀ σ rules ms) :
    ∃ st : ℕ → ℕ, (∀ cr ∈ rules, cr.stratum = st cr.headRelId) ∧
      ∀ cr ∈ rules, (∀ s ∈ ((ms cr).oper σ cr).reads, st s ≤ st cr.headRelId) ∧
        ∀ s ∈ ((ms cr).oper σ cr).strict, st s < st cr.headRelId := by
  obtain ⟨st, recursive, hok, hfrom⟩ := h.program.strata
  have hst := computeStrata_stratification hok
  refine ⟨st, fun cr hcr => ?_, fun cr hcr => ⟨fun s hs => ?_, fun s hs => ?_⟩⟩
  · obtain ⟨r, -, hf⟩ := hfrom cr hcr
    exact hf.stratum
  · obtain ⟨r, hr, hf⟩ := hfrom cr hcr
    obtain ⟨e, he, rfl⟩ := hf.reads s hs
    rw [← ruleEdges_dst hf.head he]
    exact hst.mono e (List.mem_flatMap.mpr ⟨r, hr, he⟩)
  · obtain ⟨e, he, hsign, rfl, hdst⟩ := h.neg cr hcr s hs
    rw [← hdst]
    exact hst.strict e he hsign

/-- The swept rules of a stratum are those whose head is affected, all of them. -/
theorem mem_rederive (h : DredProgram d prog seeds comp₀ σ rules ms) (affected : List ℕ) (k : ℕ)
    (cr : CompiledRule) :
    cr ∈ (rules.filter fun cr => cr.stratum = k &&
      !(cr.headRelId < maxRels && !affected.contains cr.headRelId)).take maxStratumRules ↔
      cr ∈ rules ∧ cr.stratum = k ∧ cr.headRelId ∈ affected := by
  have hfew : (rules.filter fun cr => cr.stratum = k &&
      !(cr.headRelId < maxRels && !affected.contains cr.headRelId)).length ≤ maxStratumRules := by
    refine le_trans (List.Sublist.length_le ?_) (h.few k)
    refine List.monotone_filter_right rules fun c hc => ?_
    simp only [Bool.and_eq_true] at hc
    exact hc.1
  rw [List.take_of_length_le hfew, List.mem_filter]
  constructor
  · intro hc
    have hlt := h.head_lt hc.1
    simpa [hlt, hc.1] using hc.2
  · rintro ⟨hcr, hk, hin⟩
    exact ⟨hcr, by simp [hk, hin]⟩

/-- **One stratum is derived again.** -/
theorem rederive_spec (h : DredProgram d prog seeds comp₀ σ rules ms) (affected : List ℕ) {k : ℕ}
    {db₁ db db' : Db} (hσ : db₁.schema = σ) (hdone : Rederived σ ms rules affected db₁ k db)
    (hrun : rederive rules affected k db = .done db') :
    Rederived σ ms rules affected db₁ (k + 1) db' := by
  set srules := (rules.filter fun cr => cr.stratum = k &&
    !(cr.headRelId < maxRels && !affected.contains cr.headRelId)).take maxStratumRules with hsr
  have hmem : ∀ cr, cr ∈ srules ↔ cr ∈ rules ∧ cr.stratum = k ∧ cr.headRelId ∈ affected :=
    mem_rederive h affected k
  obtain ⟨st, hstr, hlev⟩ := h.strata
  have heval : evalNonrecursive db srules = .done db' := by
    unfold rederive at hrun
    dsimp only at hrun
    rw [← hsr] at hrun
    by_cases hempty : srules.isEmpty = true
    · rw [if_pos hempty] at hrun
      unfold evalNonrecursive
      rw [if_pos hempty]
      exact hrun
    · rw [if_neg hempty] at hrun
      exact hrun
  -- what is negated has no rule in the stratum
  have hsched : Scheduled (opers σ ms (ruleStratumOrder srules)) := by
    intro i r hr s hs
    obtain ⟨cr, hcr, rfl⟩ := List.mem_map.mp (List.mem_of_getElem? hr)
    obtain ⟨hcr', hk, -⟩ := (hmem cr).mp ((ruleStratumOrder_perm srules).mem_iff.mp hcr)
    refine Settled.of_no_rule (fun r' hr' heq => ?_) i
    obtain ⟨c, hc, rfl⟩ := List.mem_map.mp hr'
    obtain ⟨hc', hkc, -⟩ := (hmem c).mp ((ruleStratumOrder_perm srules).mem_iff.mp hc)
    rw [RuleMeaning.head_oper] at heq
    have hlow := (hlev cr hcr').2 s hs
    have h₁ := hstr cr hcr'
    have h₂ := hstr c hc'
    rw [heq] at h₂
    omega
  have hsub : ∀ cr ∈ srules, cr ∈ rules := fun cr hcr => ((hmem cr).mp hcr).1
  obtain ⟨hev, hok, hmodel⟩ := evalNonrecursive_model (fun cr hcr => h.program.wf cr (hsub cr hcr))
    (fun cr hcr => h.head_lt (hsub cr hcr))
    ((h.program.sub hsub).acyclic fun cr hcr => h.nonrec cr (hsub cr hcr)) hdone.ok
    (hdone.evolves.schema.trans hσ) (fun _ => hsched.inOrder) heval
  refine ⟨hdone.evolves.trans (hev.mono ?_), hok, hdone.model.append hmodel (fun r => ?_)
    fun r hr r' hr' hread => ?_⟩
  · rintro id ⟨cr, hcr, heq⟩
    exact ⟨cr, hsub cr hcr, heq⟩
  · simp only [opers, List.mem_map, List.mem_filter, Bool.and_eq_true, decide_eq_true_eq,
      List.contains_eq_mem, hmem]
    constructor
    · rintro ⟨cr, ⟨hcr, hlt, hin⟩, rfl⟩
      rcases Nat.lt_succ_iff_lt_or_eq.mp hlt with hlt | heq
      · exact .inl ⟨cr, ⟨hcr, hlt, hin⟩, rfl⟩
      · exact .inr ⟨cr, ⟨hcr, heq, hin⟩, rfl⟩
    · rintro (⟨cr, ⟨hcr, hlt, hin⟩, rfl⟩ | ⟨cr, ⟨hcr, heq, hin⟩, rfl⟩)
      · exact ⟨cr, ⟨hcr, by omega, hin⟩, rfl⟩
      · exact ⟨cr, ⟨hcr, by omega, hin⟩, rfl⟩
  · -- a rule of a lower stratum reads none of the heads
    obtain ⟨cr, hcr, rfl⟩ := List.mem_map.mp hr
    obtain ⟨c, hc, rfl⟩ := List.mem_map.mp hr'
    obtain ⟨hin, hprop⟩ := List.mem_filter.mp hcr
    simp only [Bool.and_eq_true, decide_eq_true_eq] at hprop
    obtain ⟨hc', hkc, -⟩ := (hmem c).mp hc
    rw [RuleMeaning.head_oper] at hread
    have hle := (hlev cr hin).1 _ hread
    have h₁ := hstr cr hin
    have h₂ := hstr c hc'
    omega

/-- **The strata are derived again, one after the other.** -/
theorem rederive_strata (h : DredProgram d prog seeds comp₀ σ rules ms) (affected : List ℕ)
    {db₁ db' : Db} (hσ : db₁.schema = σ) (hok : db₁.Ok)
    (hrun : runAll (rederive rules affected) (List.range (maxStratum rules + 1)) db₁ = .done db') :
    Db.Evolves {id | ∃ cr ∈ rules, cr.headRelId = id} db₁ db' ∧ db'.Ok ∧
      IsModel (opers σ ms (rules.filter fun cr => affected.contains cr.headRelId)) db₁.contents
        db'.contents := by
  have hinit : Rederived σ ms rules affected db₁ 0 db₁ := by
    have hnil : (rules.filter fun cr => cr.stratum < 0 && affected.contains cr.headRelId) = [] :=
      List.filter_eq_nil_iff.mpr fun cr _ => by simp
    refine ⟨Db.Evolves.refl _ _, hok, ?_⟩
    rw [hnil]
    intro s
    simp [opers]
  rw [List.range_eq_range'] at hrun
  -- the induction is on the strata still to come
  have hend := runAll_inv (I := fun todo db => ∃ k m, todo = List.range' k m ∧
      k + m = maxStratum rules + 1 ∧ Rederived σ ms rules affected db₁ k db) ?_ _
    ⟨0, maxStratum rules + 1, rfl, by omega, hinit⟩ hrun
  · obtain ⟨k, m, hnil, hk, hdone⟩ := hend
    have hm : m = 0 := by
      cases m with
      | zero => rfl
      | succ m => cases hnil
    have hall : (rules.filter fun cr => cr.stratum < k && affected.contains cr.headRelId) =
        rules.filter fun cr => affected.contains cr.headRelId :=
      List.filter_congr fun cr hcr => by
        have := le_maxStratum hcr
        have hlt : cr.stratum < k := by omega
        simp [hlt]
    have hmodel := hdone.model
    rw [hall] at hmodel
    exact ⟨hdone.evolves, hdone.ok, hmodel⟩
  · rintro k₀ todo db db₂ ⟨k, m, hcons, hk, hdone⟩ hrun₀
    cases m with
    | zero => cases hcons
    | succ m =>
      rw [List.range'_succ] at hcons
      obtain ⟨rfl, rfl⟩ := List.cons.inj hcons
      exact ⟨k₀ + 1, m, rfl, by omega, rederive_spec h affected hσ hdone hrun₀⟩

end Rederive

/-! ## The batch -/

/-- A batch of deletions and insertions over stored facts `B₀` and views `V₀`.  The views
of the heads are those of before. -/
structure Changed (rules : List CompiledRule) (ins del : Pending) (B₀ V₀ : ℕ → Set Row) (db : Db) :
    Prop where
  /-- Undeclared relations held nothing. -/
  declared : ∀ id, db.rels.length ≤ id → B₀ id = ∅
  /-- The views of the heads stay. -/
  view : ∀ cr ∈ rules, db.contents cr.headRelId = V₀ cr.headRelId
  /-- Base and view of a head are separate. -/
  split : ∀ cr ∈ rules, db.Split cr.headRelId
  /-- Nothing is stored for a head. -/
  head : ∀ cr ∈ rules, resetContents db rules cr.headRelId ⊆ B₀ cr.headRelId
  /-- Deletions are recorded. -/
  gone : ∀ id, ∀ x ∈ B₀ id, x ∈ resetContents db rules id ∨ x ∈ (del id).rows
  /-- Insertions are recorded. -/
  new : ∀ id, ∀ x ∈ resetContents db rules id, x ∈ B₀ id ∨ x ∈ (ins id).rows
  /-- A deleted row that is there was stored again. -/
  again : ∀ id, (∀ cr ∈ rules, cr.headRelId ≠ id) →
    ∀ x ∈ db.contents id, x ∈ (del id).rows → x ∈ db.base id

/-- No derivation of a rule without negation lost two stored rows. -/
def Apart (σ : Schema) (rules : List CompiledRule) (ms : CompiledRule → RuleMeaning)
    (V₀ : ℕ → Set Row) (db : Db) : Prop :=
  ∀ r ∈ joins σ (rules.filter fun cr => !negates cr) ms, LosesOne r V₀ db.contents

/-! ## The overdeletion -/

theorem recorded_iff {ins del : Pending} {id : ℕ} :
    recorded ins del id = true ↔ (ins id).rows ≠ [] ∨ (del id).rows ≠ [] := by
  simp [recorded]

theorem mem_rowsOf_goneStart {db : Db} {del : Pending} {id : ℕ} {x : Row} :
    x ∈ (goneStart db del).rowsOf id ↔ id < db.rels.length ∧ x ∈ (del id).rows := by
  show x ∈ (goneStart db del id).rows ↔ _
  unfold goneStart
  cases he : db.rels[id]? with
  | none =>
    have := List.getElem?_eq_none_iff.mp he
    simp only [TupleSet.rows_init, List.not_mem_nil, false_iff, not_and]
    intro hlt
    omega
  | some e =>
    have := (List.getElem?_eq_some_iff.mp he).1
    simp [this]

theorem goneOk_goneStart (db : Db) (del : Pending) : GoneOk db.schema (goneStart db del) := by
  intro id
  unfold goneStart
  rw [Db.arities_getElem?]
  cases db.rels[id]? with
  | none => exact ⟨TupleSet.sorted_init 0, fun ar har => by cases har⟩
  | some e =>
    refine ⟨TupleSet.sorted_sort _, fun ar har => ?_⟩
    cases har
    simp

/-- When nothing is out, nothing comes out. -/
theorem goneStrata_nothing {db : Db} {rules : List CompiledRule} {reset : List ℕ} {gone : Pending}
    (hnone : ∀ id, (gone id).rows = []) (n : ℕ) (ks : List ℕ) :
    goneStrata (n + 1) db rules reset ks gone = some (.done gone) := by
  have hfire : ∀ f, goneFire db reset f (gone, false) = .done (gone, false) := by
    intro f
    unfold goneFire
    rw [if_pos (.inr (.inr (.inl (hnone _))))]
  have hrun : ∀ fs, runAll (goneFire db reset) fs (gone, false) = .done (gone, false) := by
    intro fs
    induction fs with
    | nil => rfl
    | cons f fs ih =>
      simp only [runAll, hfire f]
      exact ih
  induction ks with
  | nil => rfl
  | cons k ks ih =>
    have hpass : gonePass db rules reset k gone = .done (gone, false) := hrun _
    simp only [goneStrata, saturate_same hpass n]
    exact ih

section Whole

variable {d : Decls} {prog : List Rule} {seeds : List ℕ} {comp₀ : ℕ → ℕ} {σ : Schema}
  {rules : List CompiledRule} {ms : CompiledRule → RuleMeaning} {B₀ V₀ : ℕ → Set Row} {db : Db}
  {ins del : Pending}

/-- What an atom reads in the code, the rule reads. -/
theorem DredProgram.reads_of_feeds (h : DredProgram d prog seeds comp₀ σ rules ms)
    {cr : CompiledRule} (hcr : cr ∈ rules) {i : VmInstr} (hi : i ∈ cr.instrs)
    (hf : driverFeeds i.op = true) : i.a < maxRels ∧ i.a ∈ ((ms cr).oper σ cr).reads := by
  obtain ⟨-, -, body, leaf, hm, hs⟩ := h.simple cr hcr
  have hatom := hs.tidy i hi hf
  have har := hs.ok.reads.atoms i (List.mem_append_left _ (List.mem_filter.mp hatom).1) hf
  refine ⟨(List.getElem?_eq_some_iff.mp har).1.trans_le h.rels, ?_⟩
  rw [hm]
  exact .inl ⟨i, hatom, rfl⟩

/-- What a rule reads, some instruction of its code reads. -/
theorem DredProgram.feeds_of_reads (h : DredProgram d prog seeds comp₀ σ rules ms)
    {cr : CompiledRule} (hcr : cr ∈ rules) {s : ℕ} (hs : s ∈ ((ms cr).oper σ cr).reads) :
    dredRuleReads cr s = true := by
  obtain ⟨-, -, body, leaf, hm, hsimple⟩ := h.simple cr hcr
  rw [hm] at hs
  rcases hs with ⟨i, hi, rfl⟩ | hstrict
  · refine List.any_eq_true.mpr ⟨i, hsimple.mem i hi, ?_⟩
    rcases hsimple.atoms i hi with hop | hop <;> simp [hop, readsRel]
  · obtain ⟨i, hi, hop, rfl⟩ := hsimple.strict s hstrict
    exact List.any_eq_true.mpr ⟨i, hi, by simp [hop, readsRel]⟩

/-- A rule whose head is not reset is a positive pipeline, when something is recorded. -/
theorem DredProgram.overdeleting (h : DredProgram d prog seeds comp₀ σ rules ms)
    (hσ : db.schema = σ) (hrows : db.RowsOk) {reset : List ℕ} (hreset : ResetOk rules ins del reset)
    (hany : ∃ id < maxRels, recorded ins del id = true) {rk : ℕ → ℕ}
    (hrk : Ranked (opers σ ms rules) rk) : Overdeleting db rules ms reset rk where
  rows := hrows
  positive cr hcr hno := by
    obtain ⟨-, -, body, leaf, hm, hs⟩ := h.simple cr hcr
    refine ⟨body, leaf, hm, ?_⟩
    rw [hσ]
    refine hs.positive ?_
    rw [← Bool.not_eq_true]
    exact fun hneg => hno (hreset.negates hany cr hcr hneg (h.head_lt hcr))
  head cr hcr := h.head_lt hcr
  reads cr hcr hno i hi hf := by
    refine ⟨(h.reads_of_feeds hcr hi hf).1, fun hin => hno ?_⟩
    refine hreset.closed cr hcr (h.head_lt hcr) ⟨i, hi, ?_, (h.reads_of_feeds hcr hi hf).1, hin⟩
    cases hop : i.op <;> rw [hop] at hf <;> first | rfl | cases hf
  rank cr hcr i hi hf := by
    have hlt := hrk _ (List.mem_map_of_mem hcr) _ (h.reads_of_feeds hcr hi hf).2
    rwa [RuleMeaning.head_oper] at hlt

/-- **The overdeletion** ends with rows that are closed under losing one. -/
theorem goneStrata_overdeleted (h : DredProgram d prog seeds comp₀ σ rules ms)
    (hσ : db.schema = σ) (hrows : db.RowsOk) {reset : List ℕ}
    (hreset : ResetOk rules ins del reset) :
    ∃ n r, (∀ m, n ≤ m → goneStrata m db rules reset (List.range (maxStratum rules + 1))
        (goneStart db del) = some r) ∧
      ∀ gone, r = .done gone → (∀ id, (goneStart db del).rowsOf id ⊆ gone.rowsOf id) ∧
        (∀ id, (∀ cr ∈ rules, cr.headRelId ≠ id) →
          gone.rowsOf id = (goneStart db del).rowsOf id) ∧
        Overdeleted (joins σ (rules.filter fun cr => !reset.contains cr.headRelId) ms) db.contents
          gone.rowsOf := by
  by_cases hany : ∃ id < maxRels, recorded ins del id = true
  · obtain ⟨rk, hrk, hN⟩ := exists_rank (h.program.acyclic h.nonrec)
    obtain ⟨st, hstr, hlev⟩ := h.strata
    have hset := h.overdeleting hσ hrows hreset hany hrk
    obtain ⟨n, r, hr, hspec⟩ := goneStrata_spec hset hN hstr
      (fun cr hcr i hi hf => (hlev cr hcr).1 _ (h.reads_of_feeds hcr hi hf).2)
      (List.range (maxStratum rules + 1)) List.pairwise_lt_range (goneOk_goneStart db del)
      (fun _ => False) fun _ hf => hf.elim
    refine ⟨n, r, hr, fun gone hgone => ?_⟩
    obtain ⟨-, hge, hoff, hclosed⟩ := hspec gone hgone
    refine ⟨hge, hoff, ?_⟩
    rintro j ⟨cr, hcr, body, leaf, hm, rfl⟩ a ha t ht
    obtain ⟨hin, hno⟩ := List.mem_filter.mp hcr
    have hno' : cr.headRelId ∉ reset := by simpa using hno
    obtain ⟨i, hi, rfl⟩ := List.mem_map.mp ha
    obtain ⟨body', leaf', hm', hpos⟩ := hset.positive cr hin hno'
    rw [hm] at hm'
    cases hm'
    have hk : cr.stratum ∈ List.range (maxStratum rules + 1) :=
      List.mem_range.mpr (Nat.lt_succ_of_le (le_maxStratum hin))
    refine hclosed cr.stratum (.inr hk) (cr, i)
      (mem_goneFirings.mpr ⟨⟨hin, rfl, h.head_lt hin, hno'⟩, hpos.mem i hi⟩) ?_
    show t ∈ lossOf db gone (cr, i) (ms cr)
    rw [hm]
    refine ⟨hi, ?_⟩
    rw [hσ]
    exact ht
  · -- nothing is recorded
    have hnone : ∀ id, (goneStart db del id).rows = [] := by
      intro id
      refine List.eq_nil_iff_forall_not_mem.mpr fun x hx => hany ?_
      obtain ⟨hlt, hin⟩ := mem_rowsOf_goneStart.mp hx
      have hlen : db.rels.length = σ.arities.length := by
        rw [← hσ]
        simp [Db.schema]
      exact ⟨id, (hlen ▸ hlt).trans_le h.rels, recorded_iff.mpr (.inr (List.ne_nil_of_mem hin))⟩
    refine ⟨1, .done (goneStart db del), fun m hm => ?_, ?_⟩
    · obtain ⟨m, rfl⟩ : ∃ k, m = k + 1 := ⟨m - 1, by omega⟩
      exact goneStrata_nothing hnone m _
    · rintro gone ⟨⟩
      refine ⟨fun _ => subset_rfl, fun _ _ => rfl, ?_⟩
      rintro j - a - t ⟨ρ, hx, -⟩
      have hx' : ρ a.1 ∈ (goneStart db del a.2).rows := hx
      rw [hnone] at hx'
      cases hx'

/-! ## The whole pass -/

/-- A relation without rules holds its stored facts. -/
theorem model_other (hM₀ : IsModel (opers σ ms rules) B₀ V₀) {id : ℕ}
    (hid : ∀ cr ∈ rules, cr.headRelId ≠ id) : V₀ id = B₀ id := by
  rw [hM₀ id]
  refine Set.union_eq_self_of_subset_right ?_
  rintro t ⟨r, hr, heq, -⟩
  obtain ⟨cr, hcr, rfl⟩ := List.mem_map.mp hr
  rw [RuleMeaning.head_oper] at heq
  exact absurd heq (hid cr hcr)

/-- Undeclared relations hold nothing. -/
theorem resetContents_undeclared {db : Db} {id : ℕ} (hid : db.rels.length ≤ id)
    (rules : List CompiledRule) : resetContents db rules id = ∅ := by
  have hnone : db.rels[id]? = none := List.getElem?_eq_none hid
  have hview : db.view id = Dafsa.create := by
    unfold Db.view
    rw [hnone]
  have hbase : db.base id = Dafsa.create := by
    unfold Db.base
    rw [hnone]
  refine Set.eq_empty_of_forall_notMem fun x hx => ?_
  unfold resetContents at hx
  rw [hview, hbase, ite_self] at hx
  exact Dafsa.not_mem_create x hx

/-- Where nothing is recorded nothing changed. -/
theorem Changed.still (hM₀ : IsModel (opers σ ms rules) B₀ V₀)
    (hch : Changed rules ins del B₀ V₀ db) {id : ℕ}
    (hnone : id < db.rels.length → recorded ins del id = false) :
    db.contents id = V₀ id ∧ resetContents db rules id = B₀ id := by
  have hbase : resetContents db rules id = B₀ id := by
    by_cases hlt : id < db.rels.length
    · have hno : (ins id).rows = [] ∧ (del id).rows = [] := by
        simpa [recorded] using hnone hlt
      refine Set.Subset.antisymm (fun x hx => ?_) fun x hx => ?_
      · refine (hch.new id x hx).resolve_right fun hin => ?_
        rw [hno.1] at hin
        cases hin
      · refine (hch.gone id x hx).resolve_right fun hin => ?_
        rw [hno.2] at hin
        cases hin
    · rw [hch.declared id (by omega), resetContents_undeclared (by omega)]
  refine ⟨?_, hbase⟩
  by_cases hid : ∀ cr ∈ rules, cr.headRelId ≠ id
  · rw [model_other hM₀ hid, ← hbase, resetContents_other hid]
  · push Not at hid
    obtain ⟨cr, hcr, rfl⟩ := hid
    exact hch.view cr hcr

/-- A row of the old views is there, stored facts that were deleted apart. -/
theorem Changed.lost (hM₀ : IsModel (opers σ ms rules) B₀ V₀)
    (hch : Changed rules ins del B₀ V₀ db) {id : ℕ} {x : Row} (hx : x ∈ V₀ id)
    (hno : x ∉ db.contents id) : x ∈ (goneStart db del).rowsOf id := by
  by_cases hid : ∀ cr ∈ rules, cr.headRelId ≠ id
  · rw [model_other hM₀ hid] at hx
    have hlt : id < db.rels.length := by
      by_contra hge
      rw [hch.declared id (by omega)] at hx
      exact Set.notMem_empty x hx
    have hgone := hch.gone id x hx
    rw [resetContents_other hid] at hgone
    exact mem_rowsOf_goneStart.mpr ⟨hlt, hgone.resolve_left hno⟩
  · push Not at hid
    obtain ⟨cr, hcr, rfl⟩ := hid
    rw [hch.view cr hcr] at hno
    exact absurd hx hno

/-- **What is left is stored, or derived from what is left.** -/
theorem left_derived (h : DredProgram d prog seeds comp₀ σ rules ms) (hσ : db.schema = σ)
    (hch : Changed rules ins del B₀ V₀ db) (hapart : Apart σ rules ms V₀ db)
    (hM₀ : IsModel (opers σ ms rules) B₀ V₀) {reset : List ℕ}
    (hreset : ResetOk rules ins del reset) {gone : Pending}
    (hstart : ∀ id, (goneStart db del).rowsOf id ⊆ gone.rowsOf id)
    (hout : Overdeleted (joins σ (rules.filter fun cr => !reset.contains cr.headRelId) ms)
      db.contents gone.rowsOf) {db₁ : Db} (hleft : Left reset gone db db₁)
    (hany : ∃ id < maxRels, recorded ins del id = true) {s : ℕ} {t : Row}
    (ht : t ∈ db₁.contents s) : t ∈ resetContents db rules s ∨
      ∃ r ∈ opers σ ms rules, r.head = s ∧ r.strict = ∅ ∧ t ∈ r.out db₁.contents := by
  by_cases hid : ∀ cr ∈ rules, cr.headRelId ≠ s
  · -- not a head
    have hno : s ∉ reset := fun hin => by
      obtain ⟨-, cr, hcr, heq⟩ := hreset.head s hin
      exact hid cr hcr heq
    refine .inl ?_
    rw [resetContents_other hid]
    exact ((hleft.view s hno t).mp ht).1
  · push Not at hid
    obtain ⟨cr₀, hcr₀, rfl⟩ := hid
    have hreset₀ := resetContents_head hcr₀ db
    by_cases hin : cr₀.headRelId ∈ reset
    · refine .inl ?_
      have ht' : t ∈ db₁.view cr₀.headRelId := ht
      rw [hleft.heads _ hin] at ht'
      rw [hreset₀]
      exact ht'
    · obtain ⟨hview, hstay⟩ := (hleft.view _ hin t).mp ht
      by_cases hbase : t ∈ resetContents db rules cr₀.headRelId
      · exact .inl hbase
      · have hnot : t ∉ gone.rowsOf cr₀.headRelId :=
          hstay.resolve_right fun hin => hbase (by rw [hreset₀]; exact hin)
        have hold : t ∈ V₀ cr₀.headRelId := by
          rw [← hch.view cr₀ hcr₀]
          exact hview
        rw [hM₀] at hold
        rcases hold with hold | ⟨r, hr, heq, hold⟩
        · -- a stored fact that was deleted is out
          have hdel := (hch.gone _ t hold).resolve_left hbase
          have hlt : cr₀.headRelId < db.rels.length := by
            obtain ⟨ar, har⟩ := (h.program.wf cr₀ hcr₀).head
            rw [← hσ, Db.arities_getElem?, Option.map_eq_some_iff] at har
            obtain ⟨e, he, -⟩ := har
            exact (List.getElem?_eq_some_iff.mp he).1
          exact absurd (hstart _ (mem_rowsOf_goneStart.mpr ⟨hlt, hdel⟩)) hnot
        · obtain ⟨cr, hcr, rfl⟩ := List.mem_map.mp hr
          rw [RuleMeaning.head_oper] at heq
          obtain ⟨-, -, body, leaf, hm, hs⟩ := h.simple cr hcr
          have hneg : negates cr = false := by
            rw [← Bool.not_eq_true]
            intro hneg
            refine hin ?_
            rw [← heq]
            exact hreset.negates hany cr hcr hneg (h.head_lt hcr)
          have hpos := hs.positive hneg
          have hno : cr.headRelId ∉ reset := heq ▸ hin
          refine .inr ⟨_, hr, (RuleMeaning.head_oper _ _ _).trans heq, by rw [hm]; exact hpos.strict_oper, ?_⟩
          rw [hm, hpos.out] at hold ⊢
          obtain ⟨ρ, hρ, hinst⟩ := hold
          refine ⟨ρ, fun a ha => ?_, hinst⟩
          have hkeep := hout.reads (fun id x hx hlost => hstart id (hch.lost hM₀ hx hlost))
            (r := pipelineJoin σ cr body leaf)
            ⟨cr, List.mem_filter.mpr ⟨hcr, by simpa using hno⟩, body, leaf, hm, rfl⟩
            (hapart _ ⟨cr, List.mem_filter.mpr ⟨hcr, by simp [hneg]⟩, body, leaf, hm, rfl⟩) hρ hinst
            (by rw [← heq] at hnot; exact hnot) a ha
          obtain ⟨i, hi, rfl⟩ := List.mem_map.mp ha
          have hnr : i.a ∉ reset := fun hir => hno (hreset.closed cr hcr (h.head_lt hcr)
            ⟨i, hs.mem i hi, by rcases hs.atoms i hi with hop | hop <;> rw [hop] <;> rfl,
              (h.reads_of_feeds hcr (hs.mem i hi) (List.mem_filter.mp hi).2).1, hir⟩)
          refine (hleft.view i.a hnr _).mpr ⟨?_, .inl hkeep⟩
          by_contra hlost
          exact hkeep (hstart i.a (hch.lost hM₀ (hρ _ ha) hlost))

theorem lt_length_of_mem {db : Db} {id : ℕ} {x : Row} (hx : x ∈ db.view id) :
    id < db.rels.length := by
  by_contra hge
  unfold Db.view at hx
  rw [List.getElem?_eq_none (by omega)] at hx
  exact Dafsa.not_mem_create x hx

/-- What is not affected from the start. -/
theorem not_mem_affectedStart (hlen : db.rels.length ≤ maxRels) {reset : List ℕ} {gone : Pending}
    {id : ℕ} (hid : id ∉ affectedStart db reset gone ins del) :
    (id < db.rels.length → recorded ins del id = false) ∧ (id < maxRels → id ∉ reset) ∧
      (id < maxRels → (gone id).rows = []) := by
  have hprop : id < maxRels → (id < db.rels.length → recorded ins del id = false) ∧
      id ∉ reset ∧ (gone id).rows = [] := by
    intro hlt
    have hno : ((id < db.rels.length && recorded ins del id) || reset.contains id ||
        !(gone id).rows.isEmpty) = false := by
      rw [← Bool.not_eq_true]
      exact fun hyes => hid (List.mem_filter.mpr ⟨List.mem_range.mpr hlt, hyes⟩)
    simp only [Bool.or_eq_false_iff, Bool.and_eq_false_iff, decide_eq_false_iff_not,
      List.contains_eq_mem, Bool.not_eq_false', List.isEmpty_iff] at hno
    exact ⟨fun h => hno.1.1.resolve_left (fun hge => hge h), hno.1.2, hno.2⟩
  exact ⟨fun hlt => (hprop (hlt.trans_le hlen)).1 hlt, fun hlt => (hprop hlt).2.1,
    fun hlt => (hprop hlt).2.2⟩

/-- Stored facts are left. -/
theorem left_of_stored (hM₀ : IsModel (opers σ ms rules) B₀ V₀)
    (hch : Changed rules ins del B₀ V₀ db) {reset : List ℕ} {gone : Pending}
    (hreset : ∀ id ∈ reset, ∃ cr ∈ rules, cr.headRelId = id)
    (hoff : ∀ id, (∀ cr ∈ rules, cr.headRelId ≠ id) →
      gone.rowsOf id = (goneStart db del).rowsOf id) {db₁ : Db} (hleft : Left reset gone db db₁)
    {s : ℕ} {t : Row} (ht : t ∈ resetContents db rules s) : t ∈ db₁.contents s := by
  show t ∈ db₁.view s
  by_cases hid : ∀ cr ∈ rules, cr.headRelId ≠ s
  · rw [resetContents_other hid] at ht
    have hno : s ∉ reset := fun hin => by
      obtain ⟨cr, hcr, heq⟩ := hreset s hin
      exact hid cr hcr heq
    refine (hleft.view s hno t).mpr ⟨ht, ?_⟩
    by_cases hout : t ∈ gone.rowsOf s
    · rw [hoff s hid, mem_rowsOf_goneStart] at hout
      exact .inr (hch.again s hid t ht hout.2)
    · exact .inl hout
  · push Not at hid
    obtain ⟨cr, hcr, rfl⟩ := hid
    have hold : t ∈ db.contents cr.headRelId := by
      rw [hch.view cr hcr, hM₀]
      exact .inl (hch.head cr hcr ht)
    rw [resetContents_head hcr] at ht
    by_cases hin : cr.headRelId ∈ reset
    · rw [hleft.heads _ hin]
      exact ht
    · exact (hleft.view _ hin t).mpr ⟨hold, .inr ht⟩

theorem DredProgram.plain_eq (h : DredProgram d prog seeds comp₀ σ rules ms) :
    rules.filter (fun cr => !cr.hasAggregate) = rules :=
  List.filter_eq_self.mpr fun cr hcr => by simp [(h.simple cr hcr).2.1]

/-- The pass, when its steps have ended. -/
theorem vmDredDelete_eq (hplain : rules.filter (fun cr => !cr.hasAggregate) = rules) {m : ℕ}
    (reset affected : List ℕ) (gone : Pending)
    (h₁ : resetHeadsOf m rules ins del = some (.done reset))
    (h₂ : goneStrata m db rules reset (List.range (maxStratum rules + 1)) (goneStart db del) =
      some (.done gone))
    (h₃ : affectedOf m rules (affectedStart db reset gone ins del) = some (.done affected)) :
    vmDredDelete m db ins del rules = some (runAll (rederive rules affected)
      (List.range (maxStratum rules + 1)) (dropGone reset gone db)) := by
  unfold vmDredDelete
  dsimp only
  rw [hplain, h₁]
  dsimp only
  rw [h₂]
  dsimp only
  rw [h₃]

theorem nodup_affectedStart (reset : List ℕ) (gone : Pending) :
    (affectedStart db reset gone ins del).Nodup := List.nodup_range.filter _

theorem affectedStart_lt {reset : List ℕ} {gone : Pending} :
    ∀ id ∈ affectedStart db reset gone ins del, id < maxRels := fun _ hid =>
  List.mem_range.mp (List.mem_filter.mp hid).1

/-- The pass keeps what every evaluation keeps. -/
theorem kept_of_left (hch : Changed rules ins del B₀ V₀ db) {reset : List ℕ} {gone : Pending}
    (hreset : ∀ id ∈ reset, ∃ cr ∈ rules, cr.headRelId = id) {db₁ db' : Db}
    (hleft : Left reset gone db db₁)
    (hev : Db.Evolves {id | ∃ cr ∈ rules, cr.headRelId = id} db₁ db') : Db.Kept rules db db' := by
  have hkept : Db.Kept rules db db₁ := by
    refine ⟨hleft.schema, hleft.base, fun cr hcr => hleft.split _ (hch.split cr hcr),
      fun id hid hal => hleft.aliased id (fun hin => ?_) hal⟩
    obtain ⟨cr, hcr, heq⟩ := hreset id hin
    exact hid cr hcr heq
  exact hkept.trans (hev.kept hkept.split)

/-- Without anything recorded the pass changes nothing. -/
theorem vmDredDelete_nothing (h : DredProgram d prog seeds comp₀ σ rules ms) (hσ : db.schema = σ)
    (hrows : db.RowsOk) (hperms : db.PermsOk) (hch : Changed rules ins del B₀ V₀ db)
    (hnone : ∀ id < maxRels, recorded ins del id = false) :
    ∃ r, (∀ m, 1 ≤ m → vmDredDelete m db ins del rules = some r) ∧
      ∀ db', r = .done db' → db'.Ok ∧ Db.Kept rules db db' ∧ db'.contents = db.contents := by
  have hlen : db.rels.length ≤ maxRels := by
    have hrels := h.rels
    rw [← hσ] at hrels
    simpa [Db.schema] using hrels
  have hgone : ∀ id, (goneStart db del id).rows = [] := by
    intro id
    refine List.eq_nil_iff_forall_not_mem.mpr fun x hx => ?_
    obtain ⟨hlt, hin⟩ := mem_rowsOf_goneStart.mp hx
    have hrec := recorded_iff.mpr (.inr (List.ne_nil_of_mem hin) : (ins id).rows ≠ [] ∨ _)
    rw [hnone id (hlt.trans_le hlen)] at hrec
    cases hrec
  have hstart : affectedStart db [] (goneStart db del) ins del = [] := by
    refine List.filter_eq_nil_iff.mpr fun id hid => ?_
    simp [hnone id (List.mem_range.mp hid), hgone]
  have hany : ¬ (rules.any negates && (List.range maxRels).any (recorded ins del)) = true := by
    rw [Bool.and_eq_true]
    rintro ⟨-, hrec⟩
    obtain ⟨id, hid, hrec⟩ := List.any_eq_true.mp hrec
    rw [hnone id (List.mem_range.mp hid)] at hrec
    cases hrec
  refine ⟨_, fun m hm => vmDredDelete_eq h.plain_eq [] [] (goneStart db del) ?_ ?_ ?_,
    fun db' hrun => ?_⟩
  · unfold resetHeadsOf
    rw [if_neg hany]
  · obtain ⟨m, rfl⟩ : ∃ k, m = k + 1 := ⟨m - 1, by omega⟩
    exact goneStrata_nothing hgone m _
  · rw [hstart]
    exact drain_nil m _
  · have hleft : Left [] (goneStart db del) db (dropGone [] (goneStart db del) db) :=
      dropGone_spec hrows hperms
    obtain ⟨hev, hok, hmodel⟩ := rederive_strata h [] (hleft.schema.trans hσ) hleft.ok hrun
    refine ⟨hok, kept_of_left hch (fun id hid => absurd hid List.not_mem_nil) hleft hev, ?_⟩
    funext id
    ext x
    rw [hmodel id]
    have hview := hleft.view id List.not_mem_nil x
    rw [hgone] at hview
    simp only [List.not_mem_nil, not_false_eq_true, true_or, and_true] at hview
    constructor
    · rintro (hx | ⟨r, hr, -, -⟩)
      · exact hview.mp hx
      · obtain ⟨cr, hcr, -⟩ := List.mem_map.mp hr
        simp at hcr
    · exact fun hx => .inl (hview.mpr hx)

/-- **Deletions give the model of what is stored.** -/
theorem vmDredDelete_model (h : DredProgram d prog seeds comp₀ σ rules ms) (hσ : db.schema = σ)
    (hrows : db.RowsOk) (hperms : db.PermsOk) (hch : Changed rules ins del B₀ V₀ db)
    (hapart : Apart σ rules ms V₀ db)
    (hM₀ : IsModel (opers σ ms rules) B₀ V₀) :
    ∃ n r, (∀ m, n ≤ m → vmDredDelete m db ins del rules = some r) ∧
      ∀ db', r = .done db' → db'.Ok ∧ Db.Kept rules db db' ∧
        IsModel (opers σ ms rules) (resetContents db rules) db'.contents := by
  have hlen : db.rels.length ≤ maxRels := by
    have hrels := h.rels
    rw [← hσ] at hrels
    simpa [Db.schema] using hrels
  by_cases hany : ∃ id < maxRels, recorded ins del id = true
  · obtain ⟨n₁, reset, hr₁, hreset⟩ := resetHeadsOf_spec rules ins del
    obtain ⟨n₂, r₂, hr₂, hspec₂⟩ := goneStrata_overdeleted h hσ hrows hreset
    cases r₂ with
    | failed err gone =>
      refine ⟨max n₁ n₂, .failed err db, fun m hm => ?_, fun db' hdone => by cases hdone⟩
      unfold vmDredDelete
      dsimp only
      rw [h.plain_eq, hr₁ m (le_of_max_le_left hm)]
      dsimp only
      rw [hr₂ m (le_of_max_le_right hm)]
    | done gone =>
      obtain ⟨hstart, hoff, hout⟩ := hspec₂ gone rfl
      have hlt : ∀ id ∈ affectedStart db reset gone ins del, id < maxRels := affectedStart_lt
      obtain ⟨n₃, affected, hr₃, haff⟩ :=
        affectedOf_spec rules (nodup_affectedStart reset gone) hlt
      refine ⟨max n₁ (max n₂ n₃), _, fun m hm => vmDredDelete_eq h.plain_eq reset affected gone
        (hr₁ m (le_of_max_le_left hm)) (hr₂ m (le_of_max_le_left (le_of_max_le_right hm)))
        (hr₃ m (le_of_max_le_right (le_of_max_le_right hm))), fun db' hrun => ?_⟩
      have hleft : Left reset gone db (dropGone reset gone db) := dropGone_spec hrows hperms
      obtain ⟨hev, hok, hF⟩ := rederive_strata h affected (hleft.schema.trans hσ) hleft.ok hrun
      have hderived : ∀ r, r ∈ opers σ ms (rules.filter fun cr => affected.contains cr.headRelId) ↔
          r ∈ opers σ ms rules ∧ r.head ∈ {id | id ∈ affected} := by
        intro r
        simp only [opers, List.mem_map, List.mem_filter, List.contains_eq_mem, decide_eq_true_eq]
        constructor
        · rintro ⟨cr, ⟨hcr, hin⟩, rfl⟩
          exact ⟨⟨cr, hcr, rfl⟩, by rwa [RuleMeaning.head_oper]⟩
        · rintro ⟨⟨cr, hcr, rfl⟩, hin⟩
          rw [RuleMeaning.head_oper] at hin
          exact ⟨cr, ⟨hcr, hin⟩, rfl⟩
      have hstill : ∀ s ∉ {id | id ∈ affected}, (dropGone reset gone db).contents s = V₀ s ∧
          resetContents db rules s = B₀ s := by
        intro s hs
        obtain ⟨hrec, hnr, hnil⟩ := not_mem_affectedStart hlen fun hin => hs (haff.start s hin)
        obtain ⟨h₁, h₂⟩ := hch.still hM₀ hrec
        refine ⟨h₁ ▸ ?_, h₂⟩
        ext x
        show x ∈ (dropGone reset gone db).view s ↔ x ∈ db.view s
        rw [hleft.view s fun hin => hnr (hreset.head s hin).1 hin]
        refine and_iff_left_of_imp fun hx => .inl fun hin => ?_
        rw [hnil ((lt_length_of_mem hx).trans_le hlen)] at hin
        cases hin
      refine ⟨hok, kept_of_left hch (fun id hid => (hreset.head id hid).2) hleft hev,
        hM₀.rederive hF hderived hstill (fun r hr hhead s hs hin => ?_)
          (fun s t ht => left_of_stored hM₀ hch (fun id hid => (hreset.head id hid).2) hoff hleft ht)
          fun s _ t ht => left_derived h hσ hch hapart hM₀ hreset hstart hout hleft hany ht⟩
      obtain ⟨cr, hcr, rfl⟩ := List.mem_map.mp hr
      rw [RuleMeaning.head_oper] at hhead
      exact hhead (haff.closed s hin cr hcr (h.head_lt hcr) (h.feeds_of_reads hcr hs))
  · push Not at hany
    obtain ⟨r, hr, hspec⟩ := vmDredDelete_nothing h hσ hrows hperms hch fun id hid => by
      simpa using hany id hid
    refine ⟨1, r, hr, fun db' hdone => ?_⟩
    obtain ⟨hok, hkept, hcont⟩ := hspec db' hdone
    refine ⟨hok, hkept, ?_⟩
    have hsame : ∀ id, db.contents id = V₀ id ∧ resetContents db rules id = B₀ id := fun id =>
      hch.still hM₀ fun hlt => by simpa using hany id (hlt.trans_le hlen)
    rw [hcont, funext fun id => (hsame id).1, funext fun id => (hsame id).2]
    exact hM₀

/-- **Deletions and insertions together give the perfect model**: for an eligible rule set,
from views that are the model of the old facts, after any batch in which no derivation
lost two stored rows at once, the passes and the queue come to an end, and if nothing fails
the views are the perfect model of what is stored now, along every level mapping that
stratifies the rules. -/
theorem vmDredDelete_perfect (h : Program d prog seeds comp₀ σ rules ms)
    (hneg : ∀ cr ∈ rules, ∀ s ∈ ((ms cr).oper σ cr).strict,
      ∃ e ∈ progEdges d prog, e.isNeg = true ∧ e.src = s ∧ e.dst = cr.headRelId)
    (hfew : ∀ n, (stratumRules rules n).length ≤ maxStratumRules)
    (htidy : ∀ cr ∈ rules, Tidy cr (ms cr)) (helig : vmDredEligible rules = true)
    (hrels : σ.arities.length ≤ maxRels) (hσ : db.schema = σ)
    (hviews : IsModel (opers σ ms rules) B₀ V₀)
    (hch : Changed rules ins del B₀ V₀ db) (hapart : Apart σ rules ms V₀ db) (hrows : db.RowsOk)
    (hperms : db.PermsOk) :
    ∃ n r, (∀ m, n ≤ m → vmDredDelete m db ins del rules = some r) ∧
      ∀ db', r = .done db' → db'.Ok ∧ (∃ lv, Stratified (opers σ ms rules) lv) ∧
        ∀ lv, Stratified (opers σ ms rules) lv →
          PerfectModel (opers σ ms rules) lv (resetContents db rules) db'.contents := by
  have hprog : DredProgram d prog seeds comp₀ σ rules ms :=
    ⟨h, hrels, fun cr hcr => simple_of_eligible h.wf htidy helig hcr, hneg, hfew⟩
  obtain ⟨n, r, hr, hspec⟩ := vmDredDelete_model hprog hσ hrows hperms hch hapart hviews
  refine ⟨n, r, hr, fun db' hdone => ?_⟩
  obtain ⟨hok, -, hmodel⟩ := hspec db' hdone
  obtain ⟨rk, hrk, -⟩ := exists_rank (h.acyclic hprog.nonrec)
  exact ⟨hok, h.stratified hprog.nonrec, fun lv hlv => hmodel.perfect hrk hlv⟩

end Whole

namespace Links

/-- Relations `e`, `f`, `n`, `p`, `u`. -/
def decls : Decls := ["e", "f", "n", "p", "u"]

/-- `p(X, Z) :- e(X, Y), f(Y, Z).  u(X, Y) :- n(X, Y), !p(X, Y).` -/
def source : List Rule :=
  [⟨{ pred := "p", args := [.var "X", .var "Z"] },
      [{ pred := "e", args := [.var "X", .var "Y"] }, { pred := "f", args := [.var "Y", .var "Z"] }]⟩,
    ⟨{ pred := "u", args := [.var "X", .var "Y"] },
      [{ pred := "n", args := [.var "X", .var "Y"] },
        { pred := "p", args := [.var "X", .var "Y"], negated := true }]⟩]

/-- The first rule. -/
def joined : CompiledRule :=
  { headRelId := 3
    instrs := [⟨.scan, 0, 2, 0, 0, [0, 1], 0⟩, ⟨.lookup, 1, 1, 2, 0, [1, 2], 1⟩,
      ⟨.project, 3, 2, 0, 0, [0, 2], 0⟩, ⟨.halt, 0, 0, 0, 0, [], 0⟩] }

/-- The second rule. -/
def unlinked : CompiledRule :=
  { headRelId := 4
    instrs := [⟨.scan, 2, 2, 0, 0, [0, 1], 0⟩, ⟨.negCheck, 3, 2, 0, 0, [0, 1], 1⟩,
      ⟨.project, 4, 2, 0, 0, [0, 1], 0⟩, ⟨.halt, 0, 0, 0, 0, [], 0⟩]
    stratum := 1 }

/-- The bytecode. -/
def rules : List CompiledRule := [joined, unlinked]

/-- Given rows of `e` and `f`, one of `n`, and the views of before. -/
def dbOf (e f : List Row) : Db :=
  { rels := [⟨2, .aliased (Dafsa.ofRows e)⟩, ⟨2, .aliased (Dafsa.ofRows f)⟩,
      ⟨2, .aliased (Dafsa.ofRows [[1, 3]])⟩, ⟨2, .split .create (Dafsa.ofRows [[1, 3]])⟩,
      ⟨2, .split .create .create⟩]
    perms := []
    tbl := ⟨.empty, .empty⟩ }

/-- Nothing is inserted. -/
def ins : Pending := fun _ => TupleSet.init 2

/-- `f(2, 3)` is deleted. -/
def del : Pending := fun id => if id = 1 then (TupleSet.init 2).addAll [[2, 3]] else TupleSet.init 2

theorem rowsOk {e f : List Row} (he : ∀ x ∈ e, x.length = 2) (hf : ∀ x ∈ f, x.length = 2) :
    (dbOf e f).RowsOk := by
  have hrow : ∀ rows : List Row, (∀ x ∈ rows, x.length = 2) → ∀ x ∈ Dafsa.ofRows rows, x.length = 2 :=
    fun rows h x hx => h x (Dafsa.mem_ofRows.mp hx)
  have hnil : ∀ x ∈ Dafsa.create, x.length = 2 := fun x hx => absurd hx (Dafsa.not_mem_create x)
  intro id ar har
  rw [Db.arities_getElem?] at har
  match id with
  | 0 =>
    cases har
    exact ⟨hrow e he, hrow e he⟩
  | 1 =>
    cases har
    exact ⟨hrow f hf, hrow f hf⟩
  | 2 =>
    cases har
    exact ⟨hrow [[1, 3]] (by decide), hrow [[1, 3]] (by decide)⟩
  | 3 =>
    cases har
    exact ⟨hrow [[1, 3]] (by decide), hnil⟩
  | 4 =>
    cases har
    exact ⟨hnil, hnil⟩
  | id + 5 => cases har

theorem permsOk (e f : List Row) : (dbOf e f).PermsOk := fun pe hpe => by cases hpe

theorem program (e f : List Row) :
    Program decls source [] (fun _ => 0) (dbOf e f).schema rules flatMeaning :=
  show Program decls source [] (fun _ => 0) (dbOf [[1, 2]] []).schema rules flatMeaning from
    Program.of_plain (by decide +kernel) (by decide +kernel)

theorem plain : ∀ cr ∈ rules, Plain (dbOf [[1, 2]] []).schema cr (flatBody cr) (flatLeaf cr) := by
  decide

theorem tidy : ∀ cr ∈ rules, Tidy cr (flatMeaning cr) := by
  intro cr hcr
  rcases List.mem_pair.mp hcr with rfl | rfl
  · show ∀ i ∈ CompiledRule.instrs _, _
    decide
  · show ∀ i ∈ CompiledRule.instrs _, _
    decide

/-- What the rules negate. -/
theorem strict {cr : CompiledRule} (hcr : cr ∈ rules) {s : ℕ}
    (hs : s ∈ ((flatMeaning cr).oper (dbOf [[1, 2]] []).schema cr).strict) : cr.headRelId = 4 ∧ s = 3 := by
  rw [flatMeaning, (plain cr hcr).strict_oper] at hs
  obtain ⟨i, hi, hop, rfl⟩ := hs
  have hall : ∀ cr ∈ rules, ∀ i ∈ flatBody cr, i.op = .negCheck →
      cr.headRelId = 4 ∧ i.a = 3 := by
    decide
  exact hall cr hcr i hi hop

/-- `p` is complete before `u` is swept. -/
theorem scheduled :
    Scheduled (opers (dbOf [[1, 2]] []).schema flatMeaning (ruleStratumOrder rules)) := by
  have horder : ruleStratumOrder rules = rules := rfl
  rw [horder]
  have hat : ∀ (j : ℕ) r, (opers (dbOf [[1, 2]] []).schema flatMeaning rules)[j]? = some r →
      ∃ cr, rules[j]? = some cr ∧ r = (flatMeaning cr).oper (dbOf [[1, 2]] []).schema cr := by
    intro j r hr
    rw [opers, List.getElem?_map, Option.map_eq_some_iff] at hr
    obtain ⟨cr, hcr, rfl⟩ := hr
    exact ⟨cr, hcr, rfl⟩
  have hfirst : ∀ (j : ℕ) cr, rules[j]? = some cr → cr.headRelId = 3 → j = 0 ∧ cr = joined := by
    intro j cr hcr hhead
    rcases j with _ | _ | j
    · exact ⟨rfl, (Option.some.inj hcr).symm⟩
    · obtain rfl := Option.some.inj hcr
      cases hhead
    · cases hcr
  intro i r hr s hs
  obtain ⟨cr, hcr, rfl⟩ := hat i r hr
  obtain ⟨hhead, rfl⟩ := strict (List.mem_of_getElem? hcr) hs
  have hi : i = 1 := by
    rcases i with _ | _ | i
    · obtain rfl := Option.some.inj hcr
      cases hhead
    · rfl
    · cases hcr
  subst hi
  refine ⟨fun j r hj hhead => ?_, fun j r hj hhead s hread => ?_⟩
  · obtain ⟨c, hc, rfl⟩ := hat j r hj
    rw [RuleMeaning.head_oper] at hhead
    rw [(hfirst j c hc hhead).1]
    exact Nat.zero_lt_one
  · obtain ⟨c, hc, rfl⟩ := hat j r hj
    rw [RuleMeaning.head_oper] at hhead
    obtain ⟨-, rfl⟩ := hfirst j c hc hhead
    rw [flatMeaning, (plain joined (List.mem_cons_self ..)).reads_oper] at hread
    obtain ⟨k, hk, hop, rfl⟩ := hread
    have hlow : ∀ k ∈ flatBody joined, ∀ c ∈ rules, c.headRelId ≠ k.a := by decide
    refine Settled.of_no_rule (fun r hr => ?_) j
    obtain ⟨c, hc, rfl⟩ := List.mem_map.mp hr
    rw [RuleMeaning.head_oper]
    exact hlow k hk c hc

/-- The views of before are the model of the facts of before. -/
theorem model : IsModel (opers (dbOf [[1, 2]] [[2, 3]]).schema flatMeaning rules)
    (resetContents (dbOf [[1, 2]] [[2, 3]]) rules) (dbOf [[1, 2]] [[2, 3]]).contents := by
  have hrun : (vmExecute (dbOf [[1, 2]] [[2, 3]]) ins rules).check (fun s =>
      decide (s.rels.map (fun e => e.store.view) =
        (dbOf [[1, 2]] [[2, 3]]).rels.map fun e => e.store.view)) = true := by
    decide +kernel
  obtain ⟨s, hs, hviews⟩ := Final.exists_of_check hrun
  rw [← Db.contents_eq_of_views (of_decide_eq_true hviews)]
  exact (program _ _).vmExecute_model (by decide) (fun _ => scheduled.inOrder) rfl
    (rowsOk (by decide) (by decide)) (permsOk _ _) hs

theorem changed : Changed rules ins del (resetContents (dbOf [[1, 2]] [[2, 3]]) rules)
    (dbOf [[1, 2]] [[2, 3]]).contents (dbOf [[1, 2]] []) where
  declared id hid := by
    have hid' : (dbOf [[1, 2]] [[2, 3]]).rels.length ≤ id := hid
    exact resetContents_undeclared hid' rules
  view cr hcr := by
    rcases List.mem_pair.mp hcr with rfl | rfl <;> rfl
  split cr hcr := by
    rcases List.mem_pair.mp hcr with rfl | rfl
    all_goals
      rintro e ⟨⟩
      rfl
  head cr hcr := by
    rcases List.mem_pair.mp hcr with rfl | rfl <;> exact subset_rfl
  gone id x hx := by
    match id with
    | 1 =>
      refine .inr ?_
      have hx' : x ∈ Dafsa.ofRows [[2, 3]] := hx
      rw [Dafsa.mem_ofRows] at hx'
      simpa [del] using hx'
    | 0 | 2 | 3 | 4 => exact .inl hx
    | id + 5 => exact .inl hx
  new id x hx := by
    match id with
    | 1 =>
      have hx' : x ∈ Dafsa.ofRows [] := hx
      rw [Dafsa.mem_ofRows] at hx'
      cases hx'
    | 0 | 2 | 3 | 4 => exact .inl hx
    | id + 5 => exact .inl hx
  again id hid x hx _ := by
    match id with
    | 0 | 1 | 2 => exact hx
    | 3 => exact absurd rfl (hid joined (List.mem_cons_self ..))
    | 4 => exact absurd rfl (hid unlinked (List.mem_cons_of_mem _ (List.mem_cons_self ..)))
    | id + 5 => exact hx

/-- Only one atom of the join reads what was deleted. -/
theorem apart : Apart (dbOf [[1, 2]] []).schema rules flatMeaning (dbOf [[1, 2]] [[2, 3]]).contents
    (dbOf [[1, 2]] []) := by
  rintro r ⟨cr, hcr, body, leaf, hm, rfl⟩ ρ hρ - a ha b hb hlost hlost'
  have hcr' : cr ∈ [joined] := hcr
  obtain rfl := List.mem_singleton.mp hcr'
  cases hm
  have hone : ∀ c ∈ (pipelineJoin (dbOf [[1, 2]] []).schema joined (flatBody joined) (flatLeaf joined)).atoms,
      ρ c.1 ∉ (dbOf [[1, 2]] []).contents c.2 → c = (1, 1) := by
    intro c hc hgone
    have hc' : c ∈ [((0, 0) : ℕ × ℕ), (1, 1)] := hc
    rcases List.mem_pair.mp hc' with rfl | rfl
    · exact absurd (hρ _ hc) hgone
    · rfl
  rw [hone a ha hlost, hone b hb hlost']

theorem neg : ∀ cr ∈ rules, ∀ s ∈ ((flatMeaning cr).oper (dbOf [[1, 2]] []).schema cr).strict,
    ∃ e ∈ progEdges decls source, e.isNeg = true ∧ e.src = s ∧ e.dst = cr.headRelId := by
  intro cr hcr s hs
  obtain ⟨hhead, rfl⟩ := strict hcr hs
  rw [hhead]
  decide

end Links

/-- A link is cut: what was joined over it goes, and what negates that comes. -/
theorem vmDredDelete_perfect_links :
    ∃ n r, (∀ m, n ≤ m → vmDredDelete m (Links.dbOf [[1, 2]] []) Links.ins Links.del Links.rules = some r) ∧
      ∀ db', r = .done db' → db'.Ok ∧
        (∃ lv, Stratified (opers (Links.dbOf [[1, 2]] []).schema flatMeaning Links.rules) lv) ∧
        ∀ lv, Stratified (opers (Links.dbOf [[1, 2]] []).schema flatMeaning Links.rules) lv →
          PerfectModel (opers (Links.dbOf [[1, 2]] []).schema flatMeaning Links.rules) lv
            (resetContents (Links.dbOf [[1, 2]] []) Links.rules) db'.contents :=
  vmDredDelete_perfect (Links.program _ []) Links.neg
    (fun n => (List.length_filter_le _ _).trans (by decide)) Links.tidy (by decide) (by decide)
    rfl Links.model Links.changed Links.apart (Links.rowsOk (by decide) (by decide)) (Links.permsOk _ _)

example : (vmDredDelete 4 (Links.dbOf [[1, 2]] []) Links.ins Links.del Links.rules).any
    (Final.check fun s => !(s.view 3).lookup [1, 3] && (s.view 4).lookup [1, 3]) = true := by
  decide +kernel

-- both rows of the derivation are deleted at once: it is found at neither atom, and what it
-- gave stays
example : (vmDredDelete 4 (Links.dbOf [] []) Links.ins
    (fun id => if id = 0 then (TupleSet.init 2).addAll [[1, 2]] else Links.del id) Links.rules).any
      (Final.check fun s => (s.view 3).lookup [1, 3]) = true := by
  decide +kernel

end DatalogDafsa
