import DatalogDafsa.Eval.Dred

/-!
# The overdeletion is closed

The firings of `vm_dred_delete` take out what some derivation lost.  Each pass over a
stratum settles the rules of one more rank, so the passes come to an end, and then a
derivation that reads a row that is out, next to rows that are there, gives a row that is
out.

## Main definitions

* `Simple`, `simple_of_eligible` — what an eligible rule looks like.
* `Overdeleting`, `goneFire_spec` — one firing.
* `gonePass_spec`, `gonePass_climbs` — one pass.
* `goneStrata_spec` — the strata in order end, and are closed.
-/

namespace DatalogDafsa

open Backtrack Operators Worklist

/-! ## Eligible rules -/

/-- What an eligible rule looks like. -/
structure Simple (σ : Schema) (cr : CompiledRule) (body : List VmInstr) (leaf : VmInstr) :
    Prop where
  /-- The bytecode spells one pipeline. -/
  ok : RuleOk σ cr (.flat body leaf)
  /-- Its atoms are scans and lookups. -/
  atoms : ∀ i ∈ Plan.bodyAtoms body, i.op = .scan ∨ i.op = .lookup
  /-- They are in the code. -/
  mem : ∀ i ∈ Plan.bodyAtoms body, i ∈ cr.instrs
  /-- The code has no others. -/
  tidy : ∀ i ∈ cr.instrs, driverFeeds i.op = true → i ∈ Plan.bodyAtoms body
  /-- What it reads strictly it negates. -/
  strict : ∀ id ∈ Plan.strictReads (body ++ [leaf]), ∃ i ∈ cr.instrs, i.op = .negCheck ∧ i.a = id

theorem Simple.positive {σ : Schema} {cr : CompiledRule} {body : List VmInstr} {leaf : VmInstr}
    (h : Simple σ cr body leaf) (hneg : negates cr = false) : Positive σ cr body leaf where
  ok := h.ok
  atoms := h.atoms
  mem := h.mem
  tidy := h.tidy
  strict := by
    refine Set.eq_empty_of_forall_notMem fun id hid => ?_
    obtain ⟨i, hi, hop, -⟩ := h.strict id hid
    have hyes : negates cr = true := List.any_eq_true.mpr ⟨i, hi, by simpa using hop⟩
    rw [hneg] at hyes
    cases hyes

/-- **An eligible rule is a pipeline of scans and lookups.** -/
theorem simple_of_eligible {σ : Schema} {rules : List CompiledRule}
    {ms : CompiledRule → RuleMeaning} (hwf : ∀ cr ∈ rules, RuleWf σ cr (ms cr))
    (htidy : ∀ cr ∈ rules, Tidy cr (ms cr)) (helig : vmDredEligible rules = true)
    {cr : CompiledRule} (hcr : cr ∈ rules) : cr.isRecursive = false ∧ cr.hasAggregate = false ∧
      ∃ body leaf, ms cr = .plan (.flat body leaf) ∧ Simple σ cr body leaf := by
  simp only [vmDredEligible, Bool.and_eq_true, Bool.not_eq_true', List.all_eq_true] at helig
  obtain ⟨⟨-, hrange⟩, hall⟩ := helig
  obtain ⟨⟨hrec, hagg⟩, hinstr⟩ := hall cr hcr
  refine ⟨hrec, hagg, ?_⟩
  have hops : ∀ i ∈ cr.instrs, i.op ≠ .walk ∧ i.op ≠ .lookupPerm ∧ i.op ≠ .hashJoin ∧
      i.op ≠ .matBegin ∧ i.op ≠ .range := by
    intro i hi
    have hok := hinstr i hi
    refine ⟨?_, ?_, ?_, ?_, fun hop => ?_⟩
    iterate 4
      intro hop
      rw [hop] at hok
      cases hok
    have hin : hasRangeBuiltin rules = true :=
      List.any_eq_true.mpr ⟨cr, hcr, List.any_eq_true.mpr ⟨i, hi, by simpa using hop⟩⟩
    rw [hin] at hrange
    cases hrange
  have hwf' := hwf cr hcr
  have htidy' := htidy cr hcr
  cases hm : ms cr with
  | agg body acc emit =>
    rw [hm] at htidy'
    rw [show cr.hasAggregate = true from htidy'] at hagg
    cases hagg
  | plan P =>
    rw [hm] at hwf' htidy'
    obtain ⟨body, leaf, rfl⟩ := RuleOk.flat hwf' fun i hi => (hops i hi).2.2.2.1
    have hmem : ∀ i ∈ Plan.bodyAtoms body, i ∈ cr.instrs := fun i hi => RuleOk.mem_instrs hwf' hi
    obtain ⟨stop, -, hcodes⟩ := RuleOk.codes hwf'
    have hshape := RuleOk.shape hwf'
    refine ⟨body, leaf, rfl, hwf', fun i hi => ?_, hmem, htidy', ?_⟩
    · obtain ⟨hwalk, hperm, hhash, -, -⟩ := hops i (hmem i hi)
      have hf := (List.mem_filter.mp hi).2
      cases hop : i.op <;> simp_all [driverFeeds]
    · rintro id ⟨i, hi, ⟨hop, rfl⟩ | ⟨hop, -⟩⟩
      · exact ⟨i, hcodes.mem hshape hi (by simp [hop]), hop, rfl⟩
      · exact absurd hop (hops i (hcodes.mem hshape hi (by simp [hop]))).2.2.2.2

/-! ## One firing -/

/-- The rows of tuple sets. -/
def Pending.rowsOf (gone : Pending) (id : ℕ) : Set Row := {x | x ∈ (gone id).rows}

/-- Tuple sets that an atom may read. -/
def GoneOk (σ : Schema) (gone : Pending) : Prop :=
  ∀ id, (gone id).Sorted ∧ ∀ ar, σ.arities[id]? = some ar → (gone id).arity = ar

/-- What is assumed of the rules that are fired. -/
structure Overdeleting (db : Db) (rules : List CompiledRule) (ms : CompiledRule → RuleMeaning)
    (reset : List ℕ) (rk : ℕ → ℕ) : Prop where
  /-- Rows have the arity of their relation. -/
  rows : db.RowsOk
  /-- A rule whose head is not reset is a positive pipeline. -/
  positive : ∀ cr ∈ rules, cr.headRelId ∉ reset → ∃ body leaf,
    ms cr = .plan (.flat body leaf) ∧ Positive db.schema cr body leaf
  /-- Heads are in the tables. -/
  head : ∀ cr ∈ rules, cr.headRelId < maxRels
  /-- A rule whose head is not reset reads no head that is. -/
  reads : ∀ cr ∈ rules, cr.headRelId ∉ reset → ∀ i ∈ cr.instrs, driverFeeds i.op = true →
    i.a < maxRels ∧ i.a ∉ reset
  /-- What a rule reads has a lower rank than its head. -/
  rank : ∀ cr ∈ rules, ∀ i ∈ cr.instrs, driverFeeds i.op = true → rk i.a < rk cr.headRelId

section Overdelete

variable {db : Db} {rules : List CompiledRule} {ms : CompiledRule → RuleMeaning} {reset : List ℕ}
  {rk : ℕ → ℕ}

/-- What a firing derives from the rows that are out. -/
def lossOf (db : Db) (gone : Pending) (f : CompiledRule × VmInstr) : RuleMeaning → Set Row
  | .plan (.flat body leaf) => {t | f.2 ∈ Plan.bodyAtoms body ∧
      t ∈ (pipelineJoin db.schema f.1 body leaf).outWith (f.2.bodyIdx, f.2.a) (gone.rowsOf f.2.a)
        db.contents}
  | _ => ∅

theorem mem_goneFirings {k : ℕ} {f : CompiledRule × VmInstr} : f ∈ goneFirings rules reset k ↔
    (f.1 ∈ rules ∧ f.1.stratum = k ∧ f.1.headRelId < maxRels ∧ f.1.headRelId ∉ reset) ∧
      f.2 ∈ f.1.instrs := by
  obtain ⟨cr, i⟩ := f
  simp only [goneFirings, List.mem_flatMap, List.mem_filter, List.mem_map, Prod.mk.injEq,
    Bool.and_eq_true, decide_eq_true_eq, Bool.not_eq_true', Bool.or_eq_false_iff,
    decide_eq_false_iff_not, not_le, List.contains_eq_mem]
  constructor
  · rintro ⟨c, ⟨hc, hk, hlt, hno⟩, j, hj, rfl, rfl⟩
    exact ⟨⟨hc, hk, hlt, hno⟩, hj⟩
  · rintro ⟨⟨hc, hk, hlt, hno⟩, hi⟩
    exact ⟨cr, ⟨hc, hk, hlt, hno⟩, i, hi, rfl, rfl⟩

/-- The outcomes of one firing. -/
theorem goneFire_cases {f : CompiledRule × VmInstr} {s s' : Pending × Bool}
    (h : goneFire db reset f s = .done s') :
    ((f.2.op ≠ .scan ∧ f.2.op ≠ .lookup ∨ maxRels ≤ f.2.a ∨ (s.1 f.2.a).rows = [] ∨ f.2.a ∈ reset) ∧
      s' = s) ∨
      ((f.2.op = .scan ∨ f.2.op = .lookup) ∧ (s.1 f.2.a).rows ≠ [] ∧ ∃ e r,
        db.rels[f.1.headRelId]? = some e ∧
        execRule db f.1 [⟨f.2.bodyIdx, s.1 f.2.a⟩] true = .done r ∧
        s'.1 = Function.update s.1 f.1.headRelId
          ((s.1 f.1.headRelId).addAll ((TupleSet.init e.arity).addAll r.out).rows).sort ∧
        (s'.2 = true ↔ s.2 = true ∨ ∃ t ∈ r.out, t ∉ (s.1 f.1.headRelId).rows)) := by
  unfold goneFire at h
  split at h
  · rename_i hskip
    cases h
    exact .inl ⟨hskip, rfl⟩
  · rename_i hskip
    simp only [not_or, not_and_or, not_not, not_le] at hskip
    cases he : db.rels[f.1.headRelId]? with
    | none =>
      rw [he] at h
      cases h
    | some e =>
      rw [he] at h
      dsimp only at h
      cases hr : execRule db f.1 [⟨f.2.bodyIdx, s.1 f.2.a⟩] true with
      | failed err r =>
        rw [hr] at h
        cases h
      | done r =>
        rw [hr] at h
        cases h
        refine .inr ⟨hskip.1, hskip.2.2.1, e, r, rfl, rfl, rfl, ?_⟩
        simp [Bool.or_eq_true, List.any_eq_true, TupleSet.contains]

/-- **One firing** adds what it derives to the head, and says whether any of it is new. -/
theorem goneFire_spec (hset : Overdeleting db rules ms reset rk) {k : ℕ}
    {f : CompiledRule × VmInstr} (hf : f ∈ goneFirings rules reset k) {s s' : Pending × Bool}
    (hok : GoneOk db.schema s.1) (hrun : goneFire db reset f s = .done s') :
    GoneOk db.schema s'.1 ∧
      (∀ id x, x ∈ s'.1.rowsOf id ↔
        x ∈ s.1.rowsOf id ∨ (id = f.1.headRelId ∧ x ∈ lossOf db s.1 f (ms f.1))) ∧
      (s'.2 = true ↔ s.2 = true ∨ ¬ lossOf db s.1 f (ms f.1) ⊆ s.1.rowsOf f.1.headRelId) := by
  obtain ⟨⟨hcr, -, -, hno⟩, hi⟩ := mem_goneFirings.mp hf
  obtain ⟨body, leaf, hm, hpos⟩ := hset.positive f.1 hcr hno
  rw [hm]
  rcases goneFire_cases hrun with ⟨hskip, rfl⟩ | ⟨hop, hne, e, r, he, hexec, hs', hb⟩
  · -- nothing is derived
    have hnone : lossOf db s'.1 f (.plan (.flat body leaf)) = ∅ := by
      refine Set.eq_empty_of_forall_notMem ?_
      rintro t ⟨hatom, ρ, hx, -⟩
      have hfeeds := (List.mem_filter.mp hatom).2
      obtain ⟨hlt, hnr⟩ := hset.reads f.1 hcr hno f.2 hi hfeeds
      rcases hskip with ⟨h₁, h₂⟩ | hge | hnil | hin
      · exact (hpos.atoms f.2 hatom).elim h₁ h₂
      · omega
      · have hx' : ρ f.2.bodyIdx ∈ (s'.1 f.2.a).rows := hx
        rw [hnil] at hx'
        cases hx'
      · exact hnr hin
    rw [hnone]
    refine ⟨hok, fun id x => ?_, ?_⟩
    · simp
    · simp
  · have hfeeds : driverFeeds f.2.op = true := by
      rcases hop with hop | hop <;> rw [hop] <;> rfl
    have hatom : f.2 ∈ Plan.bodyAtoms body := hpos.tidy f.2 hi hfeeds
    set src : VmInstr → Set Row := fun j =>
      if j.bodyIdx = f.2.bodyIdx then s.1.rowsOf f.2.a else db.contents j.a with hsrc
    have hinj : ∀ j ∈ Plan.bodyAtoms body, j.bodyIdx = f.2.bodyIdx → j = f.2 := fun j hj hidx =>
      List.inj_on_of_nodup_map hpos.ok.oneEach hj hatom hidx
    have hsrcOk : ∀ j ∈ Plan.atoms (.flat body leaf),
        SrcOk db [⟨f.2.bodyIdx, s.1 f.2.a⟩] (src j) j := by
      intro j hj
      obtain ⟨hjin, hjf⟩ := Plan.mem_instrs_of_atoms (P := .flat body leaf) hj
      have hperm : j.op ≠ .lookupPerm := by
        rcases hpos.atoms j hj with hop | hop <;> simp [hop]
      by_cases hidx : j.bodyIdx = f.2.bodyIdx
      · obtain rfl := hinj j hj hidx
        have hlive : liveOv [⟨f.2.bodyIdx, s.1 f.2.a⟩] f.2.bodyIdx = some (s.1 f.2.a) := by
          simp [liveOv, findOv, hne]
        unfold SrcOk
        rw [if_neg hperm, hlive]
        simp only [hsrc, if_pos]
        exact ⟨((hok f.2.a).2 _ (hpos.ok.reads.atoms f.2 hjin hjf)), fun _ => (hok f.2.a).1,
          fun x => Iff.rfl⟩
      · have hlive : liveOv [⟨f.2.bodyIdx, s.1 f.2.a⟩] j.bodyIdx = none := by
          simp [liveOv, findOv, Ne.symm hidx]
        simp only [hsrc, if_neg hidx]
        exact srcOk_rel hpos.ok.reads hjin hjf hperm hlive
    obtain ⟨-, hout⟩ := execRule_join hset.rows hpos.ok hsrcOk hexec
    have hloss : ∀ t, t ∈ r.out ↔ t ∈ lossOf db s.1 f (.plan (.flat body leaf)) := by
      intro t
      have hinst : (planJoin db.schema f.1 (.flat body leaf) db.contents).inst =
          (pipelineJoin db.schema f.1 body leaf).inst := funext fun ρ => hpos.inst db.contents ρ
      rw [hout, hinst]
      constructor
      · rintro ⟨ρ, hρ, ht⟩
        have hself := hρ f.2 hatom
        simp only [hsrc, if_pos] at hself
        refine ⟨hatom, ρ, hself, fun b hb hne => ?_, ht⟩
        obtain ⟨j, hj, rfl⟩ := List.mem_map.mp hb
        have hidx : j.bodyIdx ≠ f.2.bodyIdx := fun hidx => hne (by rw [hinj j hj hidx])
        have hx := hρ j hj
        simp only [hsrc, if_neg hidx] at hx
        exact hx
      · rintro ⟨-, ρ, hself, hρ, ht⟩
        refine ⟨ρ, fun j hj => ?_, ht⟩
        by_cases hidx : j.bodyIdx = f.2.bodyIdx
        · obtain rfl := hinj j hj hidx
          simp only [hsrc, if_pos]
          exact hself
        · simp only [hsrc, if_neg hidx]
          exact hρ _ (List.mem_map_of_mem hj) fun heq => hidx (congrArg Prod.fst heq)
    have harity : db.schema.arities[f.1.headRelId]? = some e.arity := by
      rw [Db.arities_getElem?, he]
      rfl
    refine ⟨fun id => ?_, fun id x => ?_, ?_⟩
    · rw [hs']
      by_cases hid : id = f.1.headRelId
      · subst hid
        rw [Function.update_self]
        exact ⟨TupleSet.sorted_sort _, fun ar har => by simpa using (hok f.1.headRelId).2 ar har⟩
      · rw [Function.update_of_ne hid]
        exact hok id
    · show x ∈ (s'.1 id).rows ↔ x ∈ (s.1 id).rows ∨ _
      rw [hs']
      by_cases hid : id = f.1.headRelId
      · subst hid
        simp [Function.update_self, hloss]
      · simp [hid]
    · rw [hb]
      refine or_congr_right ?_
      rw [Set.not_subset]
      simp only [hloss]
      rfl

/-! ## Passes -/

/-- Fewer rows that are out derive less. -/
theorem lossOf_subset {gone gone' : Pending} {f : CompiledRule × VmInstr} {m : RuleMeaning}
    (h : driverFeeds f.2.op = true → gone.rowsOf f.2.a ⊆ gone'.rowsOf f.2.a) :
    lossOf db gone f m ⊆ lossOf db gone' f m := by
  intro t ht
  cases m with
  | agg body acc emit => exact absurd ht (Set.notMem_empty t)
  | plan P =>
    cases P with
    | flat body leaf =>
      exact ⟨ht.1, Join.outWith_mono _ _ (h (List.mem_filter.mp ht.1).2) _ ht.2⟩
    | join mbL l mbR r mj body leaf => exact absurd ht (Set.notMem_empty t)

/-- What the rules of a stratum derive from the rows that are out is out. -/
def ClosedAt (db : Db) (rules : List CompiledRule) (ms : CompiledRule → RuleMeaning)
    (reset : List ℕ) (k : ℕ) (gone : Pending) : Prop :=
  ∀ f ∈ goneFirings rules reset k, lossOf db gone f (ms f.1) ⊆ gone.rowsOf f.1.headRelId

/-- What passes over a stratum keep. -/
structure Passed (db : Db) (rules : List CompiledRule) (k : ℕ) (gone gone' : Pending) : Prop where
  /-- The tuple sets may be read. -/
  ok : GoneOk db.schema gone'
  /-- Nothing comes back. -/
  ge : ∀ id, gone.rowsOf id ⊆ gone'.rowsOf id
  /-- Only rows of the heads come out. -/
  off : ∀ id, (∀ cr ∈ rules, cr.stratum = k → cr.headRelId ≠ id) → gone'.rowsOf id = gone.rowsOf id

theorem Passed.trans {k : ℕ} {gone gone' gone'' : Pending} (h : Passed db rules k gone gone')
    (h' : Passed db rules k gone' gone'') : Passed db rules k gone gone'' :=
  ⟨h'.ok, fun id => (h.ge id).trans (h'.ge id), fun id hid => (h'.off id hid).trans (h.off id hid)⟩

/-- **One pass**: when it adds nothing, the rows that are out are closed. -/
theorem gonePass_spec (hset : Overdeleting db rules ms reset rk) {k : ℕ} {gone gone' : Pending}
    {b : Bool} (hok : GoneOk db.schema gone)
    (hrun : gonePass db rules reset k gone = .done (gone', b)) :
    Passed db rules k gone gone' ∧ (b = false → ClosedAt db rules ms reset k gone') := by
  let I : List (CompiledRule × VmInstr) → Pending × Bool → Prop := fun todo s =>
    (∀ f ∈ todo, f ∈ goneFirings rules reset k) ∧ Passed db rules k gone s.1 ∧
      (s.2 = false → s.1.rowsOf = gone.rowsOf ∧ ∀ f ∈ goneFirings rules reset k,
        f ∈ todo ∨ lossOf db gone f (ms f.1) ⊆ gone.rowsOf f.1.headRelId)
  have hstep : ∀ f todo s s', I (f :: todo) s → goneFire db reset f s = .done s' → I todo s' := by
    rintro f todo s s' ⟨hin, hp, hstill⟩ hf
    have hmem := hin f (List.mem_cons_self ..)
    obtain ⟨⟨hcr, hk, -, -⟩, -⟩ := mem_goneFirings.mp hmem
    obtain ⟨hok', hrows, hflag⟩ := goneFire_spec hset hmem hp.ok hf
    refine ⟨fun g hg => hin g (List.mem_cons_of_mem _ hg),
      ⟨hok', fun id x hx => (hrows id x).mpr (.inl (hp.ge id hx)), fun id hid => ?_⟩, fun hb => ?_⟩
    · rw [← hp.off id hid]
      ext x
      rw [hrows]
      refine or_iff_left ?_
      rintro ⟨rfl, -⟩
      exact hid f.1 hcr hk rfl
    · have hboth : s.2 = false ∧ lossOf db s.1 f (ms f.1) ⊆ s.1.rowsOf f.1.headRelId := by
        rw [← Bool.not_eq_true, hflag, not_or, not_not, Bool.not_eq_true] at hb
        exact hb
      obtain ⟨hsame, hdone⟩ := hstill hboth.1
      have hloss : lossOf db gone f (ms f.1) ⊆ gone.rowsOf f.1.headRelId := by
        rw [← hsame]
        exact (lossOf_subset fun _ => by rw [hsame]).trans hboth.2
      refine ⟨?_, fun g hg => ?_⟩
      · rw [← hsame]
        funext id
        ext x
        rw [hrows]
        refine or_iff_left_of_imp ?_
        rintro ⟨rfl, hx⟩
        exact hboth.2 hx
      · rcases hdone g hg with hg' | hg'
        · rcases List.mem_cons.mp hg' with rfl | hg'
          · exact .inr hloss
          · exact .inl hg'
        · exact .inr hg'
  have hstart : I (goneFirings rules reset k) (gone, false) :=
    ⟨fun f hf => hf, ⟨hok, fun _ => subset_rfl, fun _ _ => rfl⟩, fun _ => ⟨rfl, fun f hf => .inl hf⟩⟩
  obtain ⟨-, hp, hstill⟩ := runAll_inv hstep _ hstart hrun
  refine ⟨hp, fun hb f hf => ?_⟩
  obtain ⟨hsame, hdone⟩ := hstill hb
  have hloss := (hdone f hf).resolve_left List.not_mem_nil
  rw [hsame]
  exact (lossOf_subset fun _ => by rw [hsame]).trans hloss

/-- The rules whose heads have a rank below `j` have nothing to add. -/
def StillBelow (db : Db) (rules : List CompiledRule) (ms : CompiledRule → RuleMeaning)
    (reset : List ℕ) (rk : ℕ → ℕ) (k j : ℕ) (gone : Pending) : Prop :=
  ∀ f ∈ goneFirings rules reset k, rk f.1.headRelId < j →
    lossOf db gone f (ms f.1) ⊆ gone.rowsOf f.1.headRelId

/-- **Each pass settles one more rank.** -/
theorem gonePass_climbs (hset : Overdeleting db rules ms reset rk) {k j : ℕ} {gone gone' : Pending}
    {b : Bool} (hok : GoneOk db.schema gone) (hstill : StillBelow db rules ms reset rk k j gone)
    (hrun : gonePass db rules reset k gone = .done (gone', b)) :
    StillBelow db rules ms reset rk k (j + 1) gone' ∧
      (b = true → ∃ f ∈ goneFirings rules reset k, j ≤ rk f.1.headRelId) := by
  let I : List (CompiledRule × VmInstr) → Pending × Bool → Prop := fun todo s =>
    (∀ f ∈ todo, f ∈ goneFirings rules reset k) ∧ GoneOk db.schema s.1 ∧
      (∀ id, rk id < j → s.1.rowsOf id = gone.rowsOf id) ∧
      (∀ f ∈ goneFirings rules reset k, rk f.1.headRelId < j + 1 →
        f ∈ todo ∨ lossOf db s.1 f (ms f.1) ⊆ s.1.rowsOf f.1.headRelId) ∧
      (s.2 = true → ∃ f ∈ goneFirings rules reset k, j ≤ rk f.1.headRelId)
  have hstep : ∀ f todo s s', I (f :: todo) s → goneFire db reset f s = .done s' → I todo s' := by
    rintro f todo s s' ⟨hin, hok₁, hsame, hdone, hflag₁⟩ hf
    have hmem := hin f (List.mem_cons_self ..)
    obtain ⟨hok', hrows, hflag⟩ := goneFire_spec hset hmem hok₁ hf
    have hlow : ∀ g ∈ goneFirings rules reset k, rk g.1.headRelId < j + 1 →
        driverFeeds g.2.op = true → rk g.2.a < j := by
      intro g hg hlt hfeeds
      obtain ⟨⟨hcr, -, -, -⟩, hi⟩ := mem_goneFirings.mp hg
      have := hset.rank g.1 hcr g.2 hi hfeeds
      omega
    have hnew : rk f.1.headRelId < j → lossOf db s.1 f (ms f.1) ⊆ s.1.rowsOf f.1.headRelId := by
      intro hlt
      rw [hsame _ hlt]
      refine (lossOf_subset fun hfeeds => ?_).trans (hstill f hmem hlt)
      rw [hsame _ (hlow f hmem (by omega) hfeeds)]
    have hsame' : ∀ id, rk id < j → s'.1.rowsOf id = gone.rowsOf id := by
      intro id hlt
      rw [← hsame id hlt]
      ext x
      rw [hrows]
      refine or_iff_left_of_imp ?_
      rintro ⟨rfl, hx⟩
      exact hnew hlt hx
    refine ⟨fun g hg => hin g (List.mem_cons_of_mem _ hg), hok', hsame', fun g hg hlt => ?_,
      fun hb => ?_⟩
    · have hloss : lossOf db s'.1 g (ms g.1) ⊆ lossOf db s.1 g (ms g.1) := by
        refine lossOf_subset fun hfeeds => ?_
        have hrank := hlow g hg hlt hfeeds
        rw [hsame' _ hrank, hsame _ hrank]
      rcases hdone g hg hlt with hg' | hg'
      · rcases List.mem_cons.mp hg' with rfl | hg'
        · exact .inr fun x hx => (hrows _ x).mpr (.inr ⟨rfl, hloss hx⟩)
        · exact .inl hg'
      · exact .inr fun x hx => (hrows _ x).mpr (.inl (hg' (hloss hx)))
    · rcases hflag.mp hb with hb | hno
      · exact hflag₁ hb
      · refine ⟨f, hmem, ?_⟩
        by_contra hlt
        exact hno (hnew (by omega))
  have hstart : I (goneFirings rules reset k) (gone, false) :=
    ⟨fun f hf => hf, hok, fun _ _ => rfl, fun f hf _ => .inl hf, fun h => by cases h⟩
  obtain ⟨-, -, -, hdone, hflag⟩ := runAll_inv hstep _ hstart hrun
  exact ⟨fun f hf hlt => (hdone f hf hlt).resolve_left List.not_mem_nil, hflag⟩

/-- **One stratum** comes to an end, and then its rules have nothing to add. -/
theorem saturate_gone (hset : Overdeleting db rules ms reset rk) {N : ℕ} (hN : ∀ id, rk id ≤ N)
    (k : ℕ) {gone : Pending} (hok : GoneOk db.schema gone) :
    ∃ n r, (∀ m, n ≤ m → saturate (gonePass db rules reset k) m gone = some r) ∧
      ∀ gone', r = .done gone' →
        Passed db rules k gone gone' ∧ ClosedAt db rules ms reset k gone' := by
  have hstep : ∀ j s s', (GoneOk db.schema s ∧ StillBelow db rules ms reset rk k j s) →
      gonePass db rules reset k s = .done (s', true) →
      j < N + 1 ∧ GoneOk db.schema s' ∧ StillBelow db rules ms reset rk k (j + 1) s' := by
    rintro j s s' ⟨hs, hstill⟩ hp
    obtain ⟨hstill', hflag⟩ := gonePass_climbs hset hs hstill hp
    obtain ⟨f, -, hle⟩ := hflag rfl
    have := hN f.1.headRelId
    exact ⟨by omega, (gonePass_spec hset hs hp).1.ok, hstill'⟩
  have hinit : StillBelow db rules ms reset rk k 0 gone := fun f _ h => absurd h (Nat.not_lt_zero _)
  obtain ⟨r, hr⟩ := saturate_settles hstep (N + 2) 0 (Nat.zero_le _) (by omega) gone ⟨hok, hinit⟩
  refine ⟨N + 2, r, hr, ?_⟩
  rintro gone' rfl
  obtain ⟨hend, s₀, hs₀, hlast⟩ := saturate_inv (I := Passed db rules k gone)
    (fun s s' b hs hp => hs.trans (gonePass_spec hset hs.ok hp).1) _ _
    ⟨hok, fun _ => subset_rfl, fun _ _ => rfl⟩ (hr _ le_rfl)
  exact ⟨hend, (gonePass_spec hset hs₀.ok hlast).2 rfl⟩

/-- **The strata in order** come to an end, and then no rule has anything to add. -/
theorem goneStrata_spec (hset : Overdeleting db rules ms reset rk) {N : ℕ} (hN : ∀ id, rk id ≤ N)
    {st : ℕ → ℕ} (hhead : ∀ cr ∈ rules, cr.stratum = st cr.headRelId)
    (hreads : ∀ cr ∈ rules, ∀ i ∈ cr.instrs, driverFeeds i.op = true → st i.a ≤ st cr.headRelId)
    (ks : List ℕ) (hks : ks.Pairwise (· < ·)) {gone : Pending} (hok : GoneOk db.schema gone)
    (below : ℕ → Prop) (hbelow : ∀ k, below k → ClosedAt db rules ms reset k gone ∧ ∀ k' ∈ ks, k < k') :
    ∃ n r, (∀ m, n ≤ m → goneStrata m db rules reset ks gone = some r) ∧
      ∀ gone', r = .done gone' → GoneOk db.schema gone' ∧ (∀ id, gone.rowsOf id ⊆ gone'.rowsOf id) ∧
        (∀ id, (∀ cr ∈ rules, cr.headRelId ≠ id) → gone'.rowsOf id = gone.rowsOf id) ∧
        ∀ k, below k ∨ k ∈ ks → ClosedAt db rules ms reset k gone' := by
  induction ks generalizing gone below with
  | nil =>
    refine ⟨0, .done gone, fun m _ => rfl, ?_⟩
    rintro gone' ⟨⟩
    refine ⟨hok, fun _ => subset_rfl, fun _ _ => rfl, fun k hk => ?_⟩
    exact (hbelow k (hk.resolve_right List.not_mem_nil)).1
  | cons k ks ih =>
    obtain ⟨hlt, hks'⟩ := List.pairwise_cons.mp hks
    obtain ⟨n, r, hr, hspec⟩ := saturate_gone hset hN k hok
    cases r with
    | failed err s =>
      refine ⟨n, .failed err s, fun m hm => ?_, fun gone' h => by cases h⟩
      simp only [goneStrata, hr m hm]
    | done gone₁ =>
      obtain ⟨hp, hclosed⟩ := hspec gone₁ rfl
      obtain ⟨n', r', hr', hspec'⟩ := ih hks' hp.ok (fun j => below j ∨ j = k) (fun j hj => by
        rcases hj with hj | rfl
        · -- the rules of a stratum below read and derive nothing that came out now
          obtain ⟨hcl, hless⟩ := hbelow j hj
          refine ⟨fun f hf => ?_, fun k' hk' => hless k' (List.mem_cons_of_mem _ hk')⟩
          obtain ⟨⟨hcr, hstr, -, -⟩, hi⟩ := mem_goneFirings.mp hf
          refine Set.Subset.trans (lossOf_subset fun hfeeds => (hp.off _ ?_).le)
            ((hcl f hf).trans (hp.ge _))
          intro cr hcr' hk' heq
          have h₁ := hreads f.1 hcr f.2 hi hfeeds
          have h₂ := hhead cr hcr'
          have h₃ := hhead f.1 hcr
          have h₄ := hless k (List.mem_cons_self ..)
          rw [heq] at h₂
          omega
        · exact ⟨hclosed, hlt⟩)
      refine ⟨max n n', r', fun m hm => ?_, fun gone' h => ?_⟩
      · simp only [goneStrata, hr m (le_of_max_le_left hm)]
        exact hr' m (le_of_max_le_right hm)
      · obtain ⟨hok', hge, hoff, hcl⟩ := hspec' gone' h
        refine ⟨hok', fun id => (hp.ge id).trans (hge id), fun id hid => ?_, fun j hj => hcl j ?_⟩
        · rw [hoff id hid, hp.off id fun cr hcr _ => hid cr hcr]
        · rcases hj with hj | hj
          · exact .inl (.inl hj)
          · rcases List.mem_cons.mp hj with rfl | hj
            · exact .inl (.inr rfl)
            · exact .inr hj

end Overdelete

end DatalogDafsa
