import DatalogDafsa.Vm.Aggregate
import DatalogDafsa.Lib.Operators

/-!
# Firing one rule against the database

The evaluator fires a rule in dry mode, collects its head rows in a tuple set, and
commits them in one bulk insert.  Seen on the contents of the views, that is one
step of an operator: the rule reads its positive atoms monotonically, and what is
negated, ranged over or aggregated strictly.

## Main definitions

* `execRuleBatched`, `Db.markBuild` — one firing, and the rebuild after it.
* `RuleMeaning`, `RuleWf`, `RuleMeaning.oper` — a rule as an operator.
* `Fired`, `execRuleBatched_fired` — a firing is a step of the operator.
-/

namespace DatalogDafsa

open Backtrack Operators

/-! ## Firing -/

/-- `execRuleBatched`: fire a rule and commit its head rows; did the view grow? -/
def execRuleBatched (db : Db) (cr : CompiledRule) : Final (Db × Bool) VmErr :=
  match db.rels[cr.headRelId]? with
  | none =>
    match execRule db cr [] false with
    | .failed err s => .failed err (s.db, false)
    | .done s => .done (s.db, !s.out.isEmpty)
  | some e =>
    match execRule db cr [] true with
    | .failed err s => .failed err (s.db, false)
    | .done s =>
      let cand := (TupleSet.init e.arity).addAll s.out
      if cand.rows.isEmpty then .done (s.db, false)
      else
        .done (s.db.updStore cr.headRelId (Store.addRows cand.sort.rows),
          cand.sort.rows.any fun r => !e.store.view.lookup r)

/-- Mark the permutation indices of a relation and rebuild them. -/
def Db.markBuild (db : Db) (id : ℕ) : Db := (db.permMarkDirty id).permBuildDirty

@[simp] theorem Db.schema_markBuild (db : Db) (id : ℕ) : (db.markBuild id).schema = db.schema := by
  simp [markBuild]

@[simp] theorem Db.view_markBuild (db : Db) (id n : ℕ) : (db.markBuild id).view n = db.view n :=
  rfl

@[simp] theorem Db.base_markBuild (db : Db) (id n : ℕ) : (db.markBuild id).base n = db.base n :=
  rfl

@[simp] theorem Db.contents_markBuild (db : Db) (id : ℕ) :
    (db.markBuild id).contents = db.contents := rfl

@[simp] theorem Db.rels_markBuild (db : Db) (id : ℕ) : (db.markBuild id).rels = db.rels := rfl

/-! ## What evaluation leaves alone -/

/-- Base and view of a relation are separate automata. -/
def Db.Split (db : Db) (id : ℕ) : Prop := ∀ e, db.rels[id]? = some e → e.store.isIdb = true

/-- Evaluation changes the views of some relations and no split base. -/
structure Db.Evolves (heads : Set ℕ) (db db' : Db) : Prop where
  /-- The schema stays. -/
  schema : db'.schema = db.schema
  /-- So do the facts of split relations. -/
  base : ∀ id, db.Split id → db'.base id = db.base id
  /-- Split relations stay split. -/
  split : ∀ id, db.Split id → db'.Split id
  /-- Other relations stay as they are. -/
  other : ∀ id ∉ heads, db'.rels[id]? = db.rels[id]?

namespace Db.Evolves

variable {heads heads' : Set ℕ} {db db' db'' : Db}

theorem refl (heads : Set ℕ) (db : Db) : Db.Evolves heads db db :=
  ⟨rfl, fun _ _ => rfl, fun _ h => h, fun _ _ => rfl⟩

theorem trans (h : Db.Evolves heads db db') (h' : Db.Evolves heads db' db'') :
    Db.Evolves heads db db'' where
  schema := h'.schema.trans h.schema
  base id hid := (h'.base id (h.split id hid)).trans (h.base id hid)
  split id hid := h'.split id (h.split id hid)
  other id hid := (h'.other id hid).trans (h.other id hid)

theorem mono (h : Db.Evolves heads db db') (hsub : heads ⊆ heads') : Db.Evolves heads' db db' :=
  ⟨h.schema, h.base, h.split, fun id hid => h.other id fun hin => hid (hsub hin)⟩

theorem view_eq (h : Db.Evolves heads db db') {id : ℕ} (hid : id ∉ heads) :
    db'.view id = db.view id := by
  simp only [Db.view, h.other id hid]

theorem of_rels (hs : db'.schema = db.schema) (hr : db'.rels = db.rels) :
    Db.Evolves heads db db' :=
  ⟨hs, fun _ _ => by simp only [Db.base, hr], fun _ hid e he => hid e (hr ▸ he),
    fun _ _ => by rw [hr]⟩

theorem markBuild (heads : Set ℕ) (db : Db) (id : ℕ) : Db.Evolves heads db (db.markBuild id) :=
  of_rels (by simp) rfl

/-- Changing the view of one relation. -/
theorem updStore {id : ℕ} (hid : id ∈ heads) {f : Store → Store}
    (hidb : ∀ s, s.isIdb = true → (f s).isIdb = true ∧ (f s).base = s.base) :
    Db.Evolves heads db (db.updStore id f) where
  schema := db.schema_updStore id f
  base n hn := by
    rw [Db.base_updStore]
    unfold Db.base
    cases he : db.rels[n]? with
    | none => rfl
    | some e =>
      by_cases hidn : id = n
      · simp only [hidn, if_true]
        exact (hidb e.store (hn e he)).2
      · simp only [hidn, if_false]
  split n hn e he := by
    simp only [Db.updStore, List.getElem?_modify, Option.map_eq_map, Option.map_eq_some_iff] at he
    obtain ⟨e₀, he₀, rfl⟩ := he
    by_cases hidn : id = n
    · simp only [hidn, if_true]
      exact (hidb e₀.store (hn e₀ he₀)).1
    · simp only [hidn, if_false]
      exact hn e₀ he₀
  other n hn := by
    have hne : id ≠ n := fun he => hn (he ▸ hid)
    simp only [Db.updStore, List.getElem?_modify, if_neg hne]
    cases db.rels[n]? <;> rfl

end Db.Evolves

/-- Base and view of a relation are one automaton. -/
def Db.Aliased (db : Db) (id : ℕ) : Prop := ∀ e, db.rels[id]? = some e → e.store.isIdb = false

/-- What an evaluation of rules leaves alone. -/
structure Db.Kept (rules : List CompiledRule) (db db' : Db) : Prop where
  /-- The schema stays. -/
  schema : db'.schema = db.schema
  /-- Stored facts stay. -/
  base : ∀ id, db'.base id = db.base id
  /-- Base and view of a head are separate. -/
  split : ∀ cr ∈ rules, db'.Split cr.headRelId
  /-- Those of other relations are not separated. -/
  aliased : ∀ id, (∀ cr ∈ rules, cr.headRelId ≠ id) → db.Aliased id → db'.Aliased id

theorem Db.Evolves.kept {rules : List CompiledRule} {db db' : Db}
    (h : Db.Evolves {id | ∃ cr ∈ rules, cr.headRelId = id} db db')
    (hsplit : ∀ cr ∈ rules, db.Split cr.headRelId) : Db.Kept rules db db' where
  schema := h.schema
  base id := by
    by_cases hid : ∃ cr ∈ rules, cr.headRelId = id
    · obtain ⟨cr, hcr, rfl⟩ := hid
      exact h.base _ (hsplit cr hcr)
    · unfold Db.base
      rw [h.other id hid]
  split cr hcr := h.split _ (hsplit cr hcr)
  aliased id hid hal e he := by
    refine hal e ?_
    rw [← he, h.other id]
    rintro ⟨cr, hcr, heq⟩
    exact hid cr hcr heq

theorem Db.Kept.trans {rules : List CompiledRule} {db db' db'' : Db} (h : Db.Kept rules db db')
    (h' : Db.Kept rules db' db'') : Db.Kept rules db db'' where
  schema := h'.schema.trans h.schema
  base id := (h'.base id).trans (h.base id)
  split := h'.split
  aliased id hid hal := h'.aliased id hid (h.aliased id hid hal)

theorem addRows_idb {rows : List Row} (s : Store) (h : s.isIdb = true) :
    (s.addRows rows).isIdb = true ∧ (s.addRows rows).base = s.base := by
  cases s with
  | aliased d => cases h
  | split b d => exact ⟨rfl, rfl⟩

/-! ## Rules as operators -/

/-- How the bytecode of a rule is read. -/
inductive RuleMeaning
  /-- As a plan. -/
  | plan (P : Plan)
  /-- As an aggregate over a pipeline. -/
  | agg (body : List VmInstr) (acc emit : VmInstr)

/-- The bytecode spells the meaning. -/
def RuleWf (σ : Schema) (cr : CompiledRule) : RuleMeaning → Prop
  | .plan P => RuleOk σ cr P
  | .agg body acc emit => AggOk σ cr body acc emit

theorem relSrc_mono {P : Plan} {V V' : ℕ → Set Row} (h : ∀ i ∈ P.atoms, V i.a ⊆ V' i.a) (n : ℕ) :
    relSrc P V n ⊆ relSrc P V' n := fun _ ⟨i, hi, hn, hx⟩ => ⟨i, hi, hn, h i hi hx⟩

theorem fire_mono {σ : Schema} {cr : CompiledRule} {P : Plan} {V V' S S' : ℕ → Set Row}
    (hV : ∀ id ∈ Plan.strictReads P.instrs, V id = V' id) (hS : ∀ n, S n ⊆ S' n) :
    fire σ cr P V S ⊆ fire σ cr P V' S' :=
  Plan.sol_mono _ _ P ⟨rfl, fun id hid => (hV id hid).symm, fun _ _ _ => hS _⟩ ⟨subset_rfl, rfl⟩

/-- The operator of a rule. -/
def RuleMeaning.oper (σ : Schema) (cr : CompiledRule) : RuleMeaning → Oper ℕ Row
  | .plan P =>
    { head := cr.headRelId
      pos := {id | ∃ i ∈ P.atoms, id = i.a}
      strict := Plan.strictReads P.instrs
      out := fun V => fire σ cr P V (relSrc P V)
      mono := fun _ _ hpos hstrict => fire_mono hstrict fun n =>
        relSrc_mono (fun i hi => hpos _ ⟨i, hi, rfl⟩) n }
  | .agg body acc emit =>
    { head := cr.headRelId
      pos := ∅
      strict := Plan.reads body
      out := aggOut σ cr body acc emit
      mono := fun _ _ _ hstrict => aggOut_congr hstrict }

@[simp] theorem RuleMeaning.head_oper (σ : Schema) (cr : CompiledRule) (m : RuleMeaning) :
    (m.oper σ cr).head = cr.headRelId := by
  cases m <;> rfl

theorem RuleWf.head {σ : Schema} {cr : CompiledRule} {m : RuleMeaning} (h : RuleWf σ cr m) :
    ∃ ar, σ.arities[cr.headRelId]? = some ar := by
  cases m with
  | plan P => exact ⟨_, RuleOk.head h |>.2⟩
  | agg body acc emit => exact ⟨_, AggOk.head h |>.2⟩

/-- **A dry run hands out what the operator adds.** -/
theorem execRule_oper {db : Db} (hdb : db.Ok) {cr : CompiledRule} {m : RuleMeaning}
    (h : RuleWf db.schema cr m) {s : ExecSt} (hrun : execRule db cr [] true = .done s) :
    s.db = db ∧ ∀ t, t ∈ s.out ↔ t ∈ (m.oper db.schema cr).out db.contents := by
  cases m with
  | plan P =>
    refine execRule_dry hdb.rows h (fun i hi => ?_) hrun
    rw [relSrc_eq h.oneEach db.contents hi]
    obtain ⟨hin, hf⟩ := Plan.mem_instrs_of_atoms hi
    exact srcOk_view hdb h.reads hin hf rfl
  | agg body acc emit =>
    obtain ⟨hs, hout⟩ := execRule_agg hdb h hrun
    refine ⟨hs, fun t => ?_⟩
    show _ ↔ t ∈ aggOut db.schema cr body acc emit db.contents
    rw [hout, aggOut_contents hdb h]

theorem length_of_mem_oper {σ : Schema} {cr : CompiledRule} {m : RuleMeaning} (h : RuleWf σ cr m)
    {V : ℕ → Set Row} {t : Row} (ht : t ∈ (m.oper σ cr).out V) :
    σ.arities[cr.headRelId]? = some t.length := by
  cases m with
  | plan P =>
    rw [(RuleOk.head h).2, Plan.length_of_mem_sol ht]
  | agg body acc emit =>
    obtain ⟨db, -, -, -, key, -, hrow⟩ := ht
    rw [(AggOk.head h).2, length_aggRow hrow]

/-! ## A firing is a step -/

/-- What one firing does. -/
structure Fired (db db' : Db) (r : Oper ℕ Row) : Prop where
  /-- Only the head's view changes. -/
  evolves : Db.Evolves {r.head} db db'
  /-- The indices are not rebuilt. -/
  perms : db'.perms = db.perms
  /-- Rows keep their arity. -/
  rows : db'.RowsOk
  /-- The head's view gets what the operator adds. -/
  contents : db'.contents = r.step db.contents

/-- The rebuild after a firing makes the database ready again. -/
theorem Fired.ok {db db' : Db} {r : Oper ℕ Row} (h : Fired db db' r) (hdb : db.Ok) :
    (db'.markBuild r.head).Ok := by
  have hperms : (db'.permMarkDirty r.head).PermsOk :=
    Db.permsOk_markDirty h.evolves.schema h.perms
      (fun n hn => h.evolves.view_eq (by simpa using hn)) hdb.perms
  obtain ⟨hbuilt, hclean⟩ := Db.permBuildDirty_ok hperms
  exact ⟨fun id ar har => h.rows id ar (by simpa using har), hbuilt, hclean⟩

/-- When nothing was added, no rebuild is needed. -/
theorem Fired.ok_of_eq {db db' : Db} {r : Oper ℕ Row} (h : Fired db db' r) (hdb : db.Ok)
    (heq : db'.contents = db.contents) : db'.Ok := by
  refine ⟨h.rows, fun pe hpe hclean => ?_, fun pe hpe => hdb.clean pe (h.perms ▸ hpe)⟩
  refine Db.fresh_congr h.evolves.schema ?_ (hdb.perms pe (h.perms ▸ hpe) hclean)
  exact view_eq_of_contents (congrFun heq _)

theorem contents_addRows (db : Db) (id : ℕ) (rows : List Row) {ar : ℕ}
    (har : db.schema.arities[id]? = some ar) (n : ℕ) (x : Row) :
    x ∈ (db.updStore id (Store.addRows rows)).contents n ↔
      x ∈ db.contents n ∨ (n = id ∧ x ∈ rows) := by
  rw [Db.arities_getElem?, Option.map_eq_some_iff] at har
  obtain ⟨e, he, -⟩ := har
  show x ∈ (db.updStore id (Store.addRows rows)).view n ↔ x ∈ db.view n ∨ _
  rw [Db.view_updStore]
  by_cases hid : id = n
  · subst hid
    simp only [he, if_true, Store.mem_view_addRows, Db.view, true_and]
    exact or_comm
  · have hne : ¬ n = id := fun h => hid h.symm
    simp only [if_neg hid, hne, false_and, or_false]
    unfold Db.view
    cases db.rels[n]? <;> rfl

theorem rowsOk_addRows {db : Db} (hdb : db.RowsOk) {id ar : ℕ} {rows : List Row}
    (har : db.schema.arities[id]? = some ar) (hrows : ∀ x ∈ rows, x.length = ar) :
    (db.updStore id (Store.addRows rows)).RowsOk := by
  intro n ar' har'
  rw [Db.schema_updStore] at har'
  obtain ⟨hview, hbase⟩ := hdb n ar' har'
  have hmem : ∀ x, x ∈ db.view n ∨ (n = id ∧ x ∈ rows) → x.length = ar' := by
    rintro x (hx | ⟨rfl, hx⟩)
    · exact hview x hx
    · rw [hrows x hx]
      exact Option.some.inj (har.symm.trans har')
  refine ⟨fun x hx => hmem x ((contents_addRows db id rows har n x).mp hx), fun x hx => ?_⟩
  rw [Db.base_updStore] at hx
  unfold Db.base Db.view at *
  cases he : db.rels[n]? with
  | none => rw [he] at hx; simp at hx
  | some e =>
    simp only [he] at hx hbase hmem
    by_cases hid : id = n
    · simp only [if_pos hid] at hx
      cases hst : e.store with
      | aliased d =>
        refine hmem x ?_
        simp only [hst, Store.addRows, Store.base_aliased, Dafsa.mem_foldl_add] at hx
        simp only [hst, Store.view_aliased]
        exact hx.symm.imp_right fun hx => ⟨hid.symm, hx⟩
      | split b d =>
        simp only [hst, Store.addRows, Store.base_split] at hx
        exact hbase x (by rw [hst]; exact hx)
    · simp only [if_neg hid] at hx
      exact hbase x hx

/-- **A firing is one step of the rule's operator**; it reports whether it added
anything. -/
theorem execRuleBatched_fired {db db' : Db} (hdb : db.Ok) {cr : CompiledRule} {m : RuleMeaning}
    (h : RuleWf db.schema cr m) {grew : Bool}
    (hrun : execRuleBatched db cr = .done (db', grew)) :
    Fired db db' (m.oper db.schema cr) ∧ (grew = false → db'.contents = db.contents) := by
  obtain ⟨ar, har⟩ := h.head
  have har' := har
  rw [Db.arities_getElem?, Option.map_eq_some_iff] at har'
  obtain ⟨e, he, -⟩ := har'
  unfold execRuleBatched at hrun
  rw [he] at hrun
  dsimp only at hrun
  cases hexec : execRule db cr [] true with
  | failed err s => rw [hexec] at hrun; cases hrun
  | done s =>
    rw [hexec] at hrun
    obtain ⟨hsdb, hout⟩ := execRule_oper hdb h hexec
    have hcand : ∀ x, x ∈ ((TupleSet.init e.arity).addAll s.out).rows ↔
        x ∈ (m.oper db.schema cr).out db.contents := fun x => by simp [hout]
    dsimp only at hrun
    by_cases hempty : ((TupleSet.init e.arity).addAll s.out).rows.isEmpty = true
    · -- nothing derived
      rw [if_pos hempty, hsdb] at hrun
      cases hrun
      have hnone : ∀ x, x ∉ (m.oper db.schema cr).out db.contents := fun x hx => by
        have := (hcand x).mpr hx
        rw [List.isEmpty_iff.mp hempty] at this
        cases this
      refine ⟨⟨Db.Evolves.refl _ _, rfl, hdb.rows, ?_⟩, fun _ => rfl⟩
      funext n
      refine (Oper.le_step _ _ n).antisymm ?_
      rintro x (hx | ⟨-, hx⟩)
      · exact hx
      · exact absurd hx (hnone x)
    · -- commit the batch
      rw [if_neg hempty, hsdb] at hrun
      simp only [Final.done.injEq, Prod.mk.injEq] at hrun
      obtain ⟨rfl, hgrew⟩ := hrun
      have hrows : ∀ x, x ∈ ((TupleSet.init e.arity).addAll s.out).sort.rows ↔
          x ∈ (m.oper db.schema cr).out db.contents := fun x => by
        rw [TupleSet.mem_rows_sort, hcand]
      have hcontents : ∀ n x, x ∈ (db.updStore cr.headRelId
          (Store.addRows ((TupleSet.init e.arity).addAll s.out).sort.rows)).contents n ↔
          x ∈ (m.oper db.schema cr).step db.contents n := fun n x => by
        rw [contents_addRows db _ _ har, hrows]
        simp [Oper.step]
      refine ⟨⟨Db.Evolves.updStore (by simp) fun s hs => addRows_idb s hs, rfl, ?_, ?_⟩, ?_⟩
      · refine rowsOk_addRows hdb.rows har fun x hx => ?_
        have hlen := length_of_mem_oper h ((hrows x).mp hx)
        exact Option.some.inj (hlen.symm.trans har)
      · funext n
        exact Set.ext (hcontents n)
      · rintro rfl
        funext n
        ext x
        rw [contents_addRows db _ _ har]
        refine or_iff_left_of_imp ?_
        rintro ⟨rfl, hx⟩
        have hin : e.store.view.lookup x = true := by
          simpa using List.any_eq_false.mp hgrew x hx
        show x ∈ db.view cr.headRelId
        simp only [Db.view, he]
        exact Dafsa.lookup_iff.mp hin

end DatalogDafsa
