import DatalogDafsa.Eval.Recursive
import DatalogDafsa.Lib.Worklist

/-!
# Rules as joins

A rule derives a head row from one row for each of its body atoms.  Seen so, it is a
rule of `DatalogDafsa.Lib.Worklist`, once the contents it negates or ranges over are
fixed; this is how the incremental evaluations are about the operators of the rules.

## Main definitions

* `planJoin`, `out_planJoin` — a plan as a rule that joins rows.
* `execRule_join` — a dry run hands out what the rule derives from what its atoms read.
* `Tidy` — the bytecode has no atoms but those of its meaning.
* `runAll_inv` — what every step of a run keeps.
-/

namespace DatalogDafsa

open Backtrack Operators Worklist

/-! ## Plans as joins -/

/-- A plan as a rule that joins rows, over the contents `N` of what it negates. -/
def planJoin (σ : Schema) (cr : CompiledRule) (P : Plan) (N : ℕ → Set Row) : Join ℕ Row where
  head := cr.headRelId
  atoms := P.atoms.map fun i => (i.bodyIdx, i.a)
  inst := Inst σ cr P N

section

variable {σ : Schema} {cr : CompiledRule} {P : Plan} {N V : ℕ → Set Row}

theorem reads_planJoin {ρ : ℕ → Row} :
    (planJoin σ cr P N).Reads V ρ ↔ ∀ i ∈ P.atoms, ρ i.bodyIdx ∈ V i.a := by
  simp only [Join.Reads, planJoin, List.forall_mem_map]

/-- A plan derives what its operator adds. -/
theorem out_planJoin (hshape : P.Shape) (hone : P.OneEach)
    (hN : ∀ id ∈ Plan.strictReads P.instrs, V id = N id) :
    ((RuleMeaning.plan P).oper σ cr).out V = (planJoin σ cr P N).out V := by
  ext t
  show t ∈ fire σ cr P V (relSrc P V) ↔ _
  rw [mem_fire_iff hshape hone]
  refine exists_congr fun ρ => ?_
  rw [inst_congr hN, reads_planJoin]
  refine and_congr_left fun _ => forall₂_congr fun i hi => ?_
  rw [relSrc_eq hone V hi]

/-- What the atoms of a plan read, by their names. -/
def atomSrc (P : Plan) (f : VmInstr → Set Row) (n : ℕ) : Set Row :=
  {x | ∃ i ∈ P.atoms, i.bodyIdx = n ∧ x ∈ f i}

theorem atomSrc_eq (hone : P.OneEach) (f : VmInstr → Set Row) {i : VmInstr} (hi : i ∈ P.atoms) :
    atomSrc P f i.bodyIdx = f i := by
  ext x
  constructor
  · rintro ⟨j, hj, hidx, hx⟩
    obtain rfl : j = i := List.inj_on_of_nodup_map hone hj hi hidx
    exact hx
  · exact fun hx => ⟨i, hi, rfl, hx⟩

/-- **A dry run hands out what the rule derives** from a row for each atom, wherever
the atoms read. -/
theorem execRule_join {db : Db} (hdb : db.RowsOk) (h : RuleOk db.schema cr P) {ov : List VmOverride}
    {f : VmInstr → Set Row} (hf : ∀ i ∈ P.atoms, SrcOk db ov (f i) i) {s : ExecSt}
    (hrun : execRule db cr ov true = .done s) :
    s.db = db ∧ ∀ t, t ∈ s.out ↔
      ∃ ρ, (∀ i ∈ P.atoms, ρ i.bodyIdx ∈ f i) ∧ t ∈ (planJoin db.schema cr P db.contents).inst ρ := by
  have hS : ∀ i ∈ P.atoms, SrcOk db ov (atomSrc P f i.bodyIdx) i := by
    intro i hi
    rw [atomSrc_eq h.oneEach f hi]
    exact hf i hi
  obtain ⟨hs, hout⟩ := execRule_dry hdb h hS hrun
  refine ⟨hs, fun t => ?_⟩
  rw [hout, mem_fire_iff h.shape h.oneEach]
  refine exists_congr fun ρ => and_congr_left fun _ => forall₂_congr fun i hi => ?_
  rw [atomSrc_eq h.oneEach f hi]

/-- Rows a rule derives have the arity of its head. -/
theorem length_of_mem_inst (h : RuleOk σ cr P) {ρ : ℕ → Row} {t : Row}
    (ht : t ∈ (planJoin σ cr P N).inst ρ) : σ.arities[cr.headRelId]? = some t.length := by
  rw [h.head.2, Plan.length_of_mem_sol ht]

end

/-! ## Bytecode -/

/-- The bytecode has no body atoms but those of its meaning, and is marked as an
aggregate when it is one. -/
def Tidy (cr : CompiledRule) : RuleMeaning → Prop
  | .plan P => ∀ i ∈ cr.instrs, driverFeeds i.op = true → i ∈ P.atoms
  | .agg _ _ _ => cr.hasAggregate = true

theorem instrAt_mem {p : List VmInstr} {ip : ℕ} {i : VmInstr} (h : instrAt p ip = i)
    (hop : i.op ≠ .halt) : i ∈ p := by
  unfold instrAt at h
  rw [List.getD_eq_getElem?_getD] at h
  cases hget : p[ip]? with
  | none =>
    rw [hget] at h
    exact absurd (h ▸ rfl) hop
  | some j =>
    rw [hget] at h
    exact h ▸ List.mem_of_getElem? hget

/-- Bytecode without materialized joins is one pipeline. -/
theorem RuleOk.flat {σ : Schema} {cr : CompiledRule} {P : Plan} (h : RuleOk σ cr P)
    (hmat : ∀ i ∈ cr.instrs, i.op ≠ .matBegin) : ∃ body leaf, P = .flat body leaf := by
  cases P with
  | flat body leaf => exact ⟨body, leaf, rfl⟩
  | join mbL l mbR r mj body leaf =>
    obtain ⟨stop, -, hcode, -⟩ := h.codes
    have hop : mbL.op = .matBegin := h.shape.1
    exact absurd hop (hmat mbL (instrAt_mem hcode (by simp [hop])))

/-- The atoms of a plan are in the code. -/
theorem RuleOk.mem_instrs {σ : Schema} {cr : CompiledRule} {P : Plan} (h : RuleOk σ cr P)
    {i : VmInstr} (hi : i ∈ P.atoms) : i ∈ cr.instrs := by
  obtain ⟨stop, -, hcodes⟩ := h.codes
  obtain ⟨hin, hf⟩ := Plan.mem_instrs_of_atoms hi
  exact hcodes.mem h.shape hin (by rintro hop; rw [hop] at hf; cases hf)

/-! ## Runs of steps -/

/-- What every step keeps holds at the end. -/
theorem runAll_inv {α S : Type} {f : α → S → Final S VmErr} {I : List α → S → Prop}
    (hstep : ∀ a as s s', I (a :: as) s → f a s = .done s' → I as s') (as : List α) {s s' : S}
    (hI : I as s) (hrun : runAll f as s = .done s') : I [] s' := by
  induction as generalizing s with
  | nil =>
    cases hrun
    exact hI
  | cons a as ih =>
    simp only [runAll] at hrun
    cases hf : f a s with
    | failed err s₁ =>
      rw [hf] at hrun
      cases hrun
    | done s₁ =>
      rw [hf] at hrun
      exact ih (hstep a as s s₁ hI hf) hrun

end DatalogDafsa
