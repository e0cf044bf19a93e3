import DatalogDafsa.Vm.Rule

/-!
# Aggregate rules

An aggregate rule runs its body like any other, but its leaf accounts each solution
in the bucket of its group, and the head rows are read off the buckets at the end.
The meaning of such a rule is stated over the list of its solutions: for each group
with a solution, one row with the summary of the group.

## Main definitions

* `AggOk` — the bytecode of an aggregate rule.
* `solutions`, `groupVals`, `aggRows` — the solutions of a body and their summary.
* `execRule_agg` — what a dry run hands out.
* `aggOut` — the head rows of an aggregate rule on given contents.
-/

namespace DatalogDafsa

open Backtrack

/-! ## The rule -/

/-- The bytecode of an aggregate rule: a pipeline, `AGG_ACC`, `AGG_EMIT`, `HALT`. -/
structure AggOk (σ : Schema) (cr : CompiledRule) (body : List VmInstr) (acc emit : VmInstr) :
    Prop where
  /-- The code. -/
  code : ∃ halt : VmInstr, halt.op = .halt ∧ cr.instrs = body ++ [acc, emit, halt]
  /-- Keys of hash joins are bound. -/
  keys : KeysOk (σ.sig cr.patterns) [] body
  /-- Each body atom is read by one instruction. -/
  oneEach : ((Plan.bodyAtoms body).map VmInstr.bodyIdx).Nodup
  /-- What it reads is declared. -/
  reads : ReadsOk σ cr.patterns body
  /-- The body has no leaf of its own. -/
  shape : ∀ i ∈ body, bodyOp i.op = true
  /-- The leaf accounts solutions. -/
  accOp : acc.op = .aggAcc
  /-- The rows are emitted after it. -/
  emitOp : emit.op = .aggEmit
  /-- The head row goes to the head relation. -/
  head : emit.a = cr.headRelId ∧ σ.arities[cr.headRelId]? = some emit.b

/-! ## Groups -/

/-- The group of a solution, when all its columns are bound. -/
def aggKey (acc : VmInstr) (b : Bindings) : Option (List Val) :=
  if (List.range acc.a).all fun g => bOk b (acc.slot g) then
    some ((List.range acc.a).map fun g => bGet b (acc.slot g))
  else none

/-- The source values of a group, in the order of the solutions. -/
def groupVals (acc : VmInstr) (L : List Bindings) (key : List Val) : List Val :=
  (L.filter fun b => aggKey acc b = some key).map fun b => bGet b (acc.slot acc.a)

/-- The bucket of a group with these source values. -/
def groupBucket (op : ℕ) (key : List Val) (vs : List Val) : AggBucket :=
  vs.foldl (AggBucket.step op) { key }

/-- The head rows: one for each group with a solution. -/
def aggRows (acc emit : VmInstr) (L : List Bindings) : Set Row :=
  {t | ∃ key, groupVals acc L key ≠ [] ∧
    aggRow acc emit (groupBucket acc.b key (groupVals acc L key)) = some t}

@[simp] theorem key_step (op : ℕ) (bk : AggBucket) (v : Val) :
    (AggBucket.step op bk v).key = bk.key := by
  unfold AggBucket.step
  dsimp only
  split <;> rfl

@[simp] theorem key_foldl_step (op : ℕ) (bk : AggBucket) (vs : List Val) :
    (vs.foldl (AggBucket.step op) bk).key = bk.key := by
  induction vs generalizing bk with
  | nil => rfl
  | cons v vs ih => rw [List.foldl_cons, ih, key_step]

/-- The bucket of a group. -/
def bucketOf (bks : List AggBucket) (k : List Val) : Option AggBucket :=
  bks.find? fun bk => bk.key = k

theorem bucketOf_accumulate (op : ℕ) (key : List Val) (v : Val) (bks : List AggBucket)
    (k : List Val) : bucketOf (accumulate op key v bks) k =
      if k = key then some (AggBucket.step op ((bucketOf bks key).getD { key }) v)
      else bucketOf bks k := by
  induction bks with
  | nil =>
    by_cases hk : k = key
    · simp [accumulate, bucketOf, hk]
    · simp [accumulate, bucketOf, hk, Ne.symm hk]
  | cons bk bks ih =>
    unfold accumulate
    by_cases hbk : bk.key = key
    · rw [if_pos hbk]
      by_cases hk : k = key
      · subst hk
        simp [bucketOf, hbk]
      · have hne : bk.key ≠ k := fun h => hk (h.symm.trans hbk)
        simp [bucketOf, hne, hk]
    · rw [if_neg hbk]
      by_cases hk : k = key
      · subst hk
        rw [if_pos rfl] at ih ⊢
        simp only [bucketOf, List.find?_cons, hbk, decide_false] at ih ⊢
        exact ih
      · rw [if_neg hk] at ih ⊢
        unfold bucketOf at ih ⊢
        simp only [List.find?_cons]
        rw [ih]

theorem nodup_accumulate (op : ℕ) (key : List Val) (v : Val) {bks : List AggBucket}
    (h : (bks.map AggBucket.key).Nodup) : ((accumulate op key v bks).map AggBucket.key).Nodup := by
  have hmem : ∀ bks k, k ∈ (accumulate op key v bks).map AggBucket.key →
      k = key ∨ k ∈ bks.map AggBucket.key := by
    intro bks k
    induction bks with
    | nil => simp [accumulate]
    | cons bk bks ih =>
      unfold accumulate
      split
      · rw [List.map_cons, List.map_cons, key_step]
        exact .inr
      · intro hk
        rcases List.mem_cons.mp hk with rfl | hk
        · simp
        · exact (ih hk).imp_right (List.mem_cons_of_mem _)
  induction bks with
  | nil => simp [accumulate]
  | cons bk bks ih =>
    obtain ⟨hnot, hnd⟩ := List.nodup_cons.mp h
    unfold accumulate
    by_cases hbk : bk.key = key
    · rw [if_pos hbk, List.map_cons, key_step]
      exact h
    · rw [if_neg hbk, List.map_cons]
      refine List.nodup_cons.mpr ⟨fun hin => ?_, ih hnd⟩
      rcases hmem bks bk.key hin with hk | hk
      · exact hbk hk
      · exact hnot hk

/-- Account one solution. -/
def accStep (acc : VmInstr) (bks : List AggBucket) (b : Bindings) : List AggBucket :=
  match aggKey acc b with
  | some key => accumulate acc.b key (bGet b (acc.slot acc.a)) bks
  | none => bks

theorem execAggAcc_eq (acc : VmInstr) (s : ExecSt) (b : Bindings) :
    execAggAcc acc s b = ({ s with buckets := accStep acc s.buckets b }, .fail) := by
  unfold execAggAcc accStep aggKey
  split <;> rfl

/-- **The buckets summarise the solutions**: the bucket of a group has seen the
source values of the group, in order. -/
theorem bucketOf_foldl (acc : VmInstr) (L : List Bindings) (bks : List AggBucket) (k : List Val) :
    bucketOf (L.foldl (accStep acc) bks) k =
      if groupVals acc L k = [] then bucketOf bks k
      else some ((groupVals acc L k).foldl (AggBucket.step acc.b)
        ((bucketOf bks k).getD { key := k })) := by
  induction L generalizing bks with
  | nil => rfl
  | cons b L ih =>
    rw [List.foldl_cons, ih]
    by_cases hk : aggKey acc b = some k
    · have hcons : groupVals acc (b :: L) k = bGet b (acc.slot acc.a) :: groupVals acc L k := by
        simp [groupVals, hk]
      have hb : bucketOf (accStep acc bks b) k =
          some (AggBucket.step acc.b ((bucketOf bks k).getD { key := k })
            (bGet b (acc.slot acc.a))) := by
        simp only [accStep, hk, bucketOf_accumulate, if_true]
      rw [hcons, hb, if_neg (List.cons_ne_nil _ _), List.foldl_cons, Option.getD_some]
      by_cases hnil : groupVals acc L k = []
      · rw [if_pos hnil, hnil]
        rfl
      · rw [if_neg hnil]
    · have hcons : groupVals acc (b :: L) k = groupVals acc L k := by
        simp [groupVals, hk]
      have hb : bucketOf (accStep acc bks b) k = bucketOf bks k := by
        unfold accStep
        cases hkey : aggKey acc b with
        | none => rfl
        | some key =>
          have hne : k ≠ key := by
            rintro rfl
            exact hk hkey
          simp only [bucketOf_accumulate, if_neg hne]
      rw [hcons, hb]

theorem nodup_foldl_accStep (acc : VmInstr) (L : List Bindings) {bks : List AggBucket}
    (h : (bks.map AggBucket.key).Nodup) :
    ((L.foldl (accStep acc) bks).map AggBucket.key).Nodup := by
  induction L generalizing bks with
  | nil => exact h
  | cons b L ih =>
    refine ih ?_
    unfold accStep
    split
    · exact nodup_accumulate _ _ _ h
    · exact h

theorem mem_iff_bucketOf {bks : List AggBucket} (h : (bks.map AggBucket.key).Nodup)
    (bk : AggBucket) : bk ∈ bks ↔ bucketOf bks bk.key = some bk := by
  constructor
  · intro hbk
    induction bks with
    | nil => cases hbk
    | cons bk' bks ih =>
      obtain ⟨hnot, hnd⟩ := List.nodup_cons.mp h
      unfold bucketOf
      rw [List.find?_cons]
      rcases List.mem_cons.mp hbk with rfl | hbk
      · simp
      · have hne : bk'.key ≠ bk.key := fun he => hnot (he ▸ List.mem_map_of_mem hbk)
        simp only [hne, decide_false]
        exact ih hnd hbk
  · exact fun hf => List.mem_of_find?_eq_some hf

/-- The rows read off the buckets. -/
theorem mem_filterMap_buckets (acc emit : VmInstr) (L : List Bindings) (t : Row) :
    t ∈ (L.foldl (accStep acc) []).filterMap (aggRow acc emit) ↔ t ∈ aggRows acc emit L := by
  have hnd : ((L.foldl (accStep acc) []).map AggBucket.key).Nodup :=
    nodup_foldl_accStep acc L List.nodup_nil
  have hbucket : ∀ k, bucketOf (L.foldl (accStep acc) []) k =
      if groupVals acc L k = [] then none
      else some (groupBucket acc.b k (groupVals acc L k)) := fun k => bucketOf_foldl acc L [] k
  simp only [List.mem_filterMap]
  constructor
  · rintro ⟨bk, hbk, ht⟩
    have hf := (mem_iff_bucketOf hnd bk).mp hbk
    rw [hbucket] at hf
    split at hf
    · cases hf
    · rename_i hne
      exact ⟨bk.key, hne, by rw [Option.some.inj hf]; exact ht⟩
  · rintro ⟨key, hne, ht⟩
    refine ⟨_, (mem_iff_bucketOf hnd _).mpr ?_, ht⟩
    rw [groupBucket, key_foldl_step]
    show bucketOf _ key = _
    rw [hbucket, if_neg hne]
    rfl

theorem length_aggRow {ai ei : VmInstr} {bk : AggBucket} {t : Row} (h : aggRow ai ei bk = some t) :
    t.length = ei.b := by
  have key : ∀ (f : ℕ → Option Val) (cols : List ℕ) (t : Row), cols.mapM f = some t →
      t.length = cols.length := by
    intro f cols
    induction cols with
    | nil => intro t ht; cases ht; rfl
    | cons c cols ih =>
      intro t ht
      rw [List.mapM_cons] at ht
      obtain ⟨v, -, hrest⟩ := Option.bind_eq_some_iff.mp ht
      obtain ⟨t', ht', heq⟩ := Option.bind_eq_some_iff.mp hrest
      cases heq
      simp [ih t' ht']
  rw [key _ _ t h, List.length_range]

/-! ## A run -/

/-- The solutions of the body of an aggregate rule, in the order of the nested loops. -/
def solutions (cr : CompiledRule) (body : List VmInstr) (db : Db) : List Bindings :=
  Machine.sols (stepList cr [] db []) body.length 0 bInit

theorem nMat_agg {σ : Schema} {cr : CompiledRule} {body : List VmInstr} {acc emit : VmInstr}
    (h : AggOk σ cr body acc emit) : nMat cr = 0 := by
  obtain ⟨halt, hhalt, hcode⟩ := h.code
  have hbody : body.filter (fun i => decide (i.op = .matBegin)) = [] := by
    rw [List.filter_eq_nil_iff]
    intro i hi hop
    have hb := h.shape i hi
    rw [of_decide_eq_true hop] at hb
    cases hb
  simp [nMat, hcode, hbody, h.accOp, h.emitOp, hhalt]

theorem foldl_emitRow_dry {md : Mode} (hdry : md.dry = true) (ei : VmInstr) (rows : List Row)
    (s : ExecSt) : rows.foldl (emitRow md ei) s = { s with out := s.out ++ rows } := by
  induction rows generalizing s with
  | nil => simp
  | cons r rows ih =>
    rw [List.foldl_cons, ih]
    simp [emitRow, hdry]

/-- The end of an aggregate rule hands out the rows of its buckets. -/
theorem emitBuckets_agg {σ : Schema} {cr : CompiledRule} {body : List VmInstr}
    {acc emit : VmInstr} (h : AggOk σ cr body acc emit) {md : Mode} (hdry : md.dry = true)
    (s : ExecSt) : emitBuckets md cr.instrs 0 cr.instrs.length s =
      { s with out := s.out ++ s.buckets.filterMap (aggRow acc emit) } := by
  obtain ⟨halt, hhalt, hcode⟩ := h.code
  have hacc : (((cr.instrs.take cr.instrs.length).drop 0).reverse.find? fun i =>
      decide (i.op = .aggAcc)) = some acc := by
    rw [List.take_length, List.drop_zero, hcode]
    simp [hhalt, h.accOp, h.emitOp]
  have hemit : (((cr.instrs.take cr.instrs.length).drop 0).reverse.find? fun i =>
      decide (i.op = .aggEmit)) = some emit := by
    rw [List.take_length, List.drop_zero, hcode]
    simp [hhalt, h.emitOp]
  simp only [emitBuckets, hacc, hemit, foldl_emitRow_dry hdry]

/-- The environment of the body of an aggregate rule. -/
theorem envOk_agg {db : Db} (hdb : db.Ok) {cr : CompiledRule} {body : List VmInstr}
    {acc emit : VmInstr} (h : AggOk db.schema cr body acc emit) :
    EnvOk cr db [] body (db.schema.env cr.patterns db.contents
      (relSrc (.flat body acc) db.contents)) := by
  refine envOk hdb.rows h.reads fun i hi hf => ?_
  have hatom : i ∈ (Plan.flat body acc).atoms := List.mem_filter.mpr ⟨hi, hf⟩
  rw [relSrc_eq (P := .flat body acc) h.oneEach db.contents hatom]
  exact srcOk_view hdb h.reads hi hf rfl

/-- **A dry run of an aggregate rule hands out the summary of its solutions**, and
leaves the database alone. -/
theorem execRule_agg {db : Db} (hdb : db.Ok) {cr : CompiledRule} {body : List VmInstr}
    {acc emit : VmInstr} (h : AggOk db.schema cr body acc emit) {s : ExecSt}
    (hrun : execRule db cr [] true = .done s) :
    s.db = db ∧ ∀ t, t ∈ s.out ↔ t ∈ aggRows acc emit (solutions cr body db) := by
  obtain ⟨halt, hhalt, hcode⟩ := h.code
  set md : Mode := { dry := true } with hmd
  set s₀ : ExecSt := ⟨db, [], [], []⟩ with hs₀
  set sub := subRun cr md cr.instrs.length with hsub
  have hlen : cr.instrs.length = body.length + 3 := by simp [hcode]
  have hrun' : finish md cr.instrs 0 cr.instrs.length
      ((machine cr md sub cr.instrs.length).search cr.instrs.length
        (cr.instrs.length - 0 + 1) 0 0 s₀ bInit).final = .done s := by
    rw [← hrun, execRule, nMat_agg h]
    rfl
  have hleafAt : instrAt cr.instrs (0 + body.length) = acc := by
    simp [instrAt, hcode]
  have hat : At cr.instrs 0 (body ++ [acc]) := ⟨[emit, halt], by simp [hcode]⟩
  have hlt : 0 + body.length < cr.instrs.length := by omega
  have hfuel : body.length < cr.instrs.length - 0 + 1 := by omega
  have hE : EnvOk cr s₀.db md.ov body _ := envOk_agg hdb h
  have hpipe := search_pipeline sub hE hat
    (fun i hi => hi) (fun i hi => .inl (h.shape i hi))
    (fun i hi hm => absurd hm (matJoin_of_bodyOp (h.shape i hi))) hlt
    (fun s => s.db = db ∧ s.pool = [] ∧ s.out = [])
    (fun s b => { s with buckets := accStep acc s.buckets b }) ?_ ?_ hfuel 0 s₀ bInit
    ⟨rfl, rfl, rfl⟩
  · have hfold : ∀ (L : List Bindings) (s : ExecSt),
        L.foldl (fun s b => { s with buckets := accStep acc s.buckets b }) s =
          { s with buckets := L.foldl (accStep acc) s.buckets } := by
      intro L
      induction L with
      | nil => intro s; rfl
      | cons b L ih => intro s; rw [List.foldl_cons, ih]; rfl
    rcases hpipe with ⟨hsearch, -⟩ | ⟨err, s', hgave⟩
    · rw [hsearch, hfold] at hrun'
      simp only [Branch.final, finish, emitBuckets_agg h (rfl : md.dry = true),
        Final.done.injEq] at hrun'
      subst hrun'
      exact ⟨rfl, fun t => by
        rw [List.nil_append]
        exact mem_filterMap_buckets acc emit _ t⟩
    · rw [hgave] at hrun'
      cases hrun'
  · rintro s ⟨hsdb, hspool, -⟩ i hi sp b
    rw [hsdb, hspool]
  · rintro d s b ⟨hsdb, hspool, hsout⟩
    have hexec : exec cr md sub cr.instrs.length (0 + body.length) d s b =
        execAggAcc acc s b := by
      unfold exec
      simp only [instrAt] at hleafAt
      simp only [hleafAt, h.accOp]
    rw [hexec, execAggAcc_eq]
    exact ⟨rfl, hsdb, hspool, hsout⟩

/-! ## The operator -/

/-- The relations instructions read. -/
def Plan.reads (is : List VmInstr) : Set ℕ :=
  {id | ∃ i ∈ is, ((driverFeeds i.op = true ∨ i.op = .negCheck) ∧ id = i.a) ∨
    (i.op = .range ∧ id = i.imm.toNat)}

theorem view_eq_of_contents {db db' : Db} {id : ℕ} (h : db.contents id = db'.contents id) :
    db.view id = db'.view id :=
  Dafsa.ext_mem fun x => by
    have : x ∈ db.contents id ↔ x ∈ db'.contents id := by rw [h]
    exact this

/-- **An instruction behaves alike on databases that agree on what it reads.** -/
theorem bodyOutcome_congr {db db' : Db} (hdb : db.Ok) (hdb' : db'.Ok)
    (hσ : db'.schema = db.schema) {cr : CompiledRule} {is : List VmInstr}
    (h : ReadsOk db.schema cr.patterns is)
    (hV : ∀ id ∈ Plan.reads is, db.contents id = db'.contents id) {i : VmInstr} (hi : i ∈ is)
    (pool : List TupleSet) (sp : ℕ) (b : Bindings) :
    bodyOutcome cr [] db pool i sp b = bodyOutcome cr [] db' pool i sp b := by
  have hatom : driverFeeds i.op = true → ∃ s s', db.relAtArityRo i.a (atomArity i) = some s ∧
      db'.relAtArityRo i.a (atomArity i) = some s' ∧ s.view = s'.view := by
    intro hf
    have har := h.atoms i hi hf
    obtain ⟨s, hs, hview, -⟩ := db.relAtArityRo_of_arity har
    obtain ⟨s', hs', hview', -⟩ := db'.relAtArityRo_of_arity (hσ ▸ har)
    refine ⟨s, s', hs, hs', ?_⟩
    rw [hview, hview']
    exact view_eq_of_contents (hV _ ⟨i, hi, .inl ⟨.inl hf, rfl⟩⟩)
  have htbl : db'.tbl = db.tbl := congrArg Schema.tbl hσ
  have hlive : liveOv [] i.bodyIdx = none := rfl
  unfold bodyOutcome
  split
  · rename_i hop
    obtain ⟨s, s', hs, hs', hview⟩ := hatom (by rw [hop]; rfl)
    simp only [atomArity, hop, true_or, if_true] at hs hs'
    simp only [execScan, hlive, hs, hs', hview]
  · rename_i hop
    obtain ⟨s, s', hs, hs', hview⟩ := hatom (by rw [hop]; rfl)
    simp only [atomArity, hop, or_true, if_true] at hs hs'
    simp only [execWalk, hlive, hs, hs', hview]
  · rename_i hop
    obtain ⟨s, s', hs, hs', hview⟩ := hatom (by rw [hop]; rfl)
    simp only [atomArity, hop, reduceCtorEq, or_self, if_false] at hs hs'
    simp only [execLookup, hlive, hs, hs', hview]
  · rename_i hop
    obtain ⟨perm, hperm⟩ := h.perms i hi hop
    have hperm' := hσ ▸ hperm
    rw [Db.schema_getPerm, Option.map_eq_some_iff] at hperm hperm'
    obtain ⟨pe, hpe, hp⟩ := hperm
    obtain ⟨pe', hpe', hp'⟩ := hperm'
    simp only [Prod.mk.injEq] at hp hp'
    have hv : db.view i.a = db'.view i.a :=
      view_eq_of_contents (hV _ ⟨i, hi, .inl ⟨.inl (by rw [hop]; rfl), rfl⟩⟩)
    have hidx : pe.pidx = pe'.pidx := by
      obtain ⟨hmem, hrel⟩ := Db.getPerm_eq_some hpe
      obtain ⟨hmem', hrel'⟩ := Db.getPerm_eq_some hpe'
      refine Dafsa.ext_mem fun x => ?_
      rw [hdb.perms pe hmem (hdb.clean pe hmem) x, hdb'.perms pe' hmem' (hdb'.clean pe' hmem') x,
        hrel, hrel', hσ, hv, hp.1, hp.2, hp'.1, hp'.2]
    simp only [execLookupPerm, hlive, hpe, hpe', hp.2, hp'.2, hidx]
  · rename_i hop
    obtain ⟨s, s', hs, hs', hview⟩ := hatom (by rw [hop]; rfl)
    simp only [atomArity, hop, reduceCtorEq, or_self, if_false] at hs hs'
    simp only [execHashJoin, hlive, hs, hs', hview]
  · rfl
  · rename_i hop
    have har := h.negs i hi hop
    obtain ⟨s, hs, hview, -⟩ := db.relAtArityRo_of_arity har
    obtain ⟨s', hs', hview', -⟩ := db'.relAtArityRo_of_arity (hσ ▸ har)
    have hv : s.view = s'.view := by
      rw [hview, hview']
      exact view_eq_of_contents (hV _ ⟨i, hi, .inl ⟨.inr hop, rfl⟩⟩)
    simp only [hs, hs', negHit, hv]
  · rw [htbl]
  · rename_i hop
    obtain ⟨ar, har⟩ := h.ranges i hi hop
    have hv := view_eq_of_contents (hV _ ⟨i, hi, .inr ⟨hop, rfl⟩⟩)
    have har' := hσ ▸ har
    rw [Db.arities_getElem?, Option.map_eq_some_iff] at har har'
    obtain ⟨e, he, -⟩ := har
    obtain ⟨e', he', -⟩ := har'
    simp only [Db.view, he, he'] at hv
    simp only [execRangeOp, he, he', hv]
  · rw [htbl]

theorem sols_congr {C C' : ℕ → Bindings → List Bindings} (k ip : ℕ)
    (h : ∀ j, ip ≤ j → j < ip + k → ∀ b, C j b = C' j b) (b : Bindings) :
    Machine.sols C k ip b = Machine.sols C' k ip b := by
  induction k generalizing ip b with
  | zero => rfl
  | succ k ih =>
    simp only [Machine.sols, h ip le_rfl (by omega) b]
    congr 1
    funext b'
    exact ih (ip + 1) (fun j hge hlt => h j (by omega) (by omega)) b'

/-- The solutions of a body depend on what it reads only. -/
theorem solutions_congr {db db' : Db} (hdb : db.Ok) (hdb' : db'.Ok)
    (hσ : db'.schema = db.schema) {cr : CompiledRule} {body : List VmInstr} {acc emit : VmInstr}
    (h : AggOk db.schema cr body acc emit)
    (hV : ∀ id ∈ Plan.reads body, db.contents id = db'.contents id) :
    solutions cr body db = solutions cr body db' := by
  obtain ⟨halt, -, hcode⟩ := h.code
  refine sols_congr _ _ (fun j _ hlt b => ?_) bInit
  have hi : instrAt cr.instrs j ∈ body := by
    have hlt' : j < body.length := by omega
    have hget : instrAt cr.instrs j = body[j] := by
      simp [instrAt, hcode, List.getElem?_append_left hlt', hlt']
    rw [hget]
    exact List.getElem_mem hlt'
  unfold stepList
  rw [bodyOutcome_congr hdb hdb' hσ h.reads hV hi]

/-- The head rows of an aggregate rule on contents `V`: those on any database that
holds them. -/
def aggOut (σ : Schema) (cr : CompiledRule) (body : List VmInstr) (acc emit : VmInstr)
    (V : ℕ → Set Row) : Set Row :=
  {t | ∃ db : Db, db.Ok ∧ db.schema = σ ∧ (∀ id ∈ Plan.reads body, db.contents id = V id) ∧
    t ∈ aggRows acc emit (solutions cr body db)}

theorem aggOut_contents {db : Db} (hdb : db.Ok) {cr : CompiledRule} {body : List VmInstr}
    {acc emit : VmInstr} (h : AggOk db.schema cr body acc emit) :
    aggOut db.schema cr body acc emit db.contents = aggRows acc emit (solutions cr body db) := by
  ext t
  constructor
  · rintro ⟨db', hdb', hσ, hV, ht⟩
    rwa [solutions_congr hdb hdb' hσ h fun id hid => (hV id hid).symm]
  · exact fun ht => ⟨db, hdb, rfl, fun _ _ => rfl, ht⟩

theorem aggOut_congr {σ : Schema} {cr : CompiledRule} {body : List VmInstr} {acc emit : VmInstr}
    {V V' : ℕ → Set Row} (h : ∀ id ∈ Plan.reads body, V id = V' id) :
    aggOut σ cr body acc emit V ⊆ aggOut σ cr body acc emit V' := by
  rintro t ⟨db, hdb, hσ, hV, ht⟩
  exact ⟨db, hdb, hσ, fun id hid => (hV id hid).trans (h id hid), ht⟩

end DatalogDafsa
