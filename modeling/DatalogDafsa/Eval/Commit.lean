import DatalogDafsa.Eval.Batch

/-!
# Firing a rule that stores as it goes

A run that is not dry adds each head row to the view of the head as soon as it is
derived, and hands out those that were new.  When the rule does not read its own
head the rest of the run does not notice, so the run adds what a dry run would have
handed out.

## Main definitions

* `Db.Agree`, `bodyOutcome_agree` — an instruction sees the relations it reads.
* `storeRow`, `Stored` — storing one head row, and what a run has stored.
* `execRule_store` — a run that stores.
-/

namespace DatalogDafsa

open Backtrack Operators

/-! ## What an instruction sees -/

/-- Databases that agree on some relations, the indices and the tables. -/
structure Db.Agree (ids : Set ℕ) (db db' : Db) : Prop where
  /-- The relations. -/
  rels : ∀ id ∈ ids, db'.rels[id]? = db.rels[id]?
  /-- The indices. -/
  perms : db'.perms = db.perms
  /-- Symbols and list terms. -/
  tbl : db'.tbl = db.tbl

theorem Db.Agree.relAtArityRo {ids : Set ℕ} {db db' : Db} (h : Db.Agree ids db db') {id : ℕ}
    (hid : id ∈ ids) (ar : ℕ) : db'.relAtArityRo id ar = db.relAtArityRo id ar := by
  unfold Db.relAtArityRo
  rw [h.rels id hid]

theorem Db.Agree.getPerm {ids : Set ℕ} {db db' : Db} (h : Db.Agree ids db db') (id n : ℕ) :
    db'.getPerm id n = db.getPerm id n := by
  unfold Db.getPerm
  rw [h.perms]

/-- **An instruction sees the relations it reads**, whatever its overrides. -/
theorem bodyOutcome_agree {is : List VmInstr} {db db' : Db}
    (h : Db.Agree (Plan.reads is) db db') {i : VmInstr} (hi : i ∈ is) (cr : CompiledRule)
    (ov : List VmOverride) (pool : List TupleSet) (sp : ℕ) (b : Bindings) :
    bodyOutcome cr ov db' pool i sp b = bodyOutcome cr ov db pool i sp b := by
  have hatom : driverFeeds i.op = true → ∀ ar, db'.relAtArityRo i.a ar = db.relAtArityRo i.a ar :=
    fun hf ar => h.relAtArityRo ⟨i, hi, .inl ⟨.inl hf, rfl⟩⟩ ar
  unfold bodyOutcome
  split
  · rename_i hop
    simp only [execScan, hatom (by rw [hop]; rfl)]
  · rename_i hop
    simp only [execWalk, hatom (by rw [hop]; rfl)]
  · rename_i hop
    simp only [execLookup, hatom (by rw [hop]; rfl)]
  · simp only [execLookupPerm, h.getPerm]
  · rename_i hop
    simp only [execHashJoin, hatom (by rw [hop]; rfl)]
  · rfl
  · rename_i hop
    rw [h.relAtArityRo ⟨i, hi, .inl ⟨.inr hop, rfl⟩⟩]
  · rw [h.tbl]
  · rename_i hop
    simp only [execRangeOp, h.rels _ ⟨i, hi, .inr ⟨hop, rfl⟩⟩]
  · rw [h.tbl]

/-! ## Storing head rows -/

/-- Store a head row, and hand it out when the view does not have it. -/
def storeRow (id : ℕ) (s : ExecSt) (row : Row) : ExecSt :=
  if (s.db.view id).lookup row then s
  else { s with db := s.db.addTuple id row, out := s.out ++ [row] }

theorem addTuple_eq (db : Db) (id : ℕ) (row : Row) :
    db.addTuple id row = db.updStore id (Store.addRows [row]) := by
  have hadd : Store.add row = Store.addRows [row] := funext fun s => by cases s <;> rfl
  unfold Db.addTuple
  rw [hadd]

/-- What a run that stores `rows` has done since `s`. -/
structure Stored (id : ℕ) (s s' : ExecSt) (rows : Set Row) : Prop where
  /-- The buffers are left alone. -/
  pool : s'.pool = s.pool
  /-- Only the view of the head changes. -/
  evolves : Db.Evolves {id} s.db s'.db
  /-- The indices are not rebuilt. -/
  perms : s'.db.perms = s.db.perms
  /-- Rows keep their arity. -/
  rowsOk : s.db.RowsOk → (∀ ar, s.db.schema.arities[id]? = some ar → ∀ x ∈ rows, x.length = ar) →
    s'.db.RowsOk
  /-- The view gets the rows. -/
  contents : ∀ n x, x ∈ s'.db.contents n ↔ x ∈ s.db.contents n ∨ (n = id ∧ x ∈ rows)
  /-- Those that are new are handed out. -/
  out : ∀ x, x ∈ s'.out ↔ x ∈ s.out ∨ (x ∈ rows ∧ x ∉ s.db.contents id)

namespace Stored

variable {id : ℕ} {s s' s'' : ExecSt} {rows rows' : Set Row}

theorem refl (id : ℕ) (s : ExecSt) : Stored id s s ∅ where
  pool := rfl
  evolves := Db.Evolves.refl _ _
  perms := rfl
  rowsOk h _ := h
  contents n x := by simp
  out x := by simp

theorem trans (h : Stored id s s' rows) (h' : Stored id s' s'' rows') :
    Stored id s s'' (rows ∪ rows') where
  pool := h'.pool.trans h.pool
  evolves := h.evolves.trans h'.evolves
  perms := h'.perms.trans h.perms
  rowsOk hrows hlen := by
    refine h'.rowsOk (h.rowsOk hrows fun ar har x hx => hlen ar har x (.inl hx)) fun ar har x hx => ?_
    rw [h.evolves.schema] at har
    exact hlen ar har x (.inr hx)
  contents n x := by
    rw [h'.contents, h.contents]
    simp only [Set.mem_union]
    tauto
  out x := by
    rw [h'.out, h.out, h.contents]
    simp only [Set.mem_union]
    tauto

/-- The relations other than the head's are left alone. -/
theorem agree (h : Stored id s s' rows) {ids : Set ℕ} (hid : id ∉ ids) :
    Db.Agree ids s.db s'.db where
  rels n hn := h.evolves.other n fun hin => hid (hin ▸ hn)
  perms := h.perms
  tbl := congrArg Schema.tbl h.evolves.schema

/-- Storing one row. -/
theorem one {ar : ℕ} (har : s.db.schema.arities[id]? = some ar) (row : Row) :
    Stored id s (storeRow id s row) {row} := by
  have hmem : (s.db.view id).lookup row = true ↔ row ∈ s.db.contents id := Dafsa.lookup_iff
  unfold storeRow
  by_cases hin : (s.db.view id).lookup row = true
  · rw [if_pos hin]
    have hrow := hmem.mp hin
    refine ⟨rfl, Db.Evolves.refl _ _, rfl, fun h _ => h, fun n x => ?_, fun x => ?_⟩
    · refine (or_iff_left_of_imp ?_).symm
      rintro ⟨rfl, rfl⟩
      exact hrow
    · refine (or_iff_left_of_imp ?_).symm
      rintro ⟨rfl, hno⟩
      exact absurd hrow hno
  · rw [if_neg hin]
    have hrow : row ∉ s.db.contents id := fun h => hin (hmem.mpr h)
    simp only [addTuple_eq]
    refine ⟨rfl, Db.Evolves.updStore (by simp) fun st hst => addRows_idb st hst, rfl,
      fun hrows hlen => ?_, fun n x => ?_, fun x => ?_⟩
    · exact rowsOk_addRows hrows har fun x hx => hlen ar har x (List.mem_singleton.mp hx)
    · rw [contents_addRows s.db id [row] har, List.mem_singleton, Set.mem_singleton_iff]
    · rw [List.mem_append, List.mem_singleton, Set.mem_singleton_iff]
      refine or_congr_right ⟨?_, fun h => h.1⟩
      rintro rfl
      exact ⟨rfl, hrow⟩

/-- **Storing several rows.** -/
theorem foldl {ar : ℕ} (har : s.db.schema.arities[id]? = some ar) (rows : List Row) :
    Stored id s (rows.foldl (storeRow id) s) {x | x ∈ rows} := by
  induction rows generalizing s with
  | nil => simpa using refl id s
  | cons row rows ih =>
    have hone := one har row
    have hrest := hone.trans (ih (by rw [hone.evolves.schema]; exact har))
    rw [List.foldl_cons]
    have hset : ({row} : Set Row) ∪ {x | x ∈ rows} = {x | x ∈ row :: rows} := by
      ext x
      simp
    rwa [hset] at hrest

end Stored

/-- Without a buffer to capture it and without a dry run, a head row is stored. -/
theorem execProject_store {md : Mode} (hcap : md.capture = none) (hdry : md.dry = false)
    {leaf : VmInstr} {s : ExecSt} (har : s.db.schema.arities[leaf.a]? = some leaf.b)
    (hslots : ∀ j < leaf.b, leaf.slot j ≠ noSlot) (b : Bindings) :
    execProject md leaf s b = (storeRow leaf.a s (leafRow leaf b), .fail) := by
  obtain ⟨r, hr, hview, -⟩ := s.db.relAtArityRo_of_arity har
  have hno : ((List.range leaf.b).any fun j => leaf.slot j == noSlot) = false := by
    simpa using hslots
  unfold execProject storeRow leafRow
  simp only [hcap, hr, hno, hdry, hview, Bool.false_eq_true, if_false]
  split <;> rfl

/-! ## A run that stores -/

/-- **A run that stores adds the head rows of the pipeline to the head**, and hands
out the new ones; the pipeline must not read the head. -/
theorem execRule_store {db : Db} (hrows : db.RowsOk) {cr : CompiledRule} {body : List VmInstr}
    {leaf : VmInstr} (h : RuleOk db.schema cr (.flat body leaf))
    (hhead : cr.headRelId ∉ Plan.reads body) {ov : List VmOverride} {S : ℕ → Set Row}
    (hS : ∀ i ∈ Plan.bodyAtoms body, SrcOk db ov (S i.bodyIdx) i) {s : ExecSt}
    (hrun : execRule db cr ov false = .done s) :
    Stored cr.headRelId ⟨db, List.replicate (nMat cr) (TupleSet.init 0), [], []⟩ s
      (fire db.schema cr (.flat body leaf) db.contents S) := by
  obtain ⟨stop, hstop, hat, hlen⟩ := h.codes
  set s₀ : ExecSt := ⟨db, List.replicate (nMat cr) (TupleSet.init 0), [], []⟩ with hs₀
  set md : Mode := { ov, dry := false } with hmd
  have hbody := h.shape.1
  have hne : ∀ i ∈ body, i.op ≠ .matJoin := fun i hi => matJoin_of_bodyOp (hbody i hi)
  have hE : EnvOk cr db ov body (db.schema.env cr.patterns db.contents S) :=
    (envOk hrows h.reads fun i hi hf => hS i (Plan.mem_atoms_of_instrs h.shape hi hf)).of_subset
      fun i hi => by simp [Plan.instrs, hi]
  have hleafAt : instrAt cr.instrs (0 + body.length) = leaf := hat.right.head
  obtain ⟨hdst, har⟩ : leaf.a = cr.headRelId ∧ db.schema.arities[cr.headRelId]? = some leaf.b :=
    h.head
  have hstored : ∀ rows : List Row,
      Stored cr.headRelId s₀ (rows.foldl (storeRow cr.headRelId) s₀) {x | x ∈ rows} :=
    fun rows => Stored.foldl har rows
  have hpipe := @search_pipeline cr md (subRun cr md cr.instrs.length) cr.instrs.length s₀ _ _ hE
    _ _ _ hat (fun i hi => hi) (fun i hi => .inl (hbody i hi))
    (fun i hi hm => absurd hm (hne i hi)) (by omega)
    (fun s => ∃ rows : List Row, s = rows.foldl (storeRow cr.headRelId) s₀)
    (fun s b => storeRow cr.headRelId s (leafRow leaf b)) ?_ ?_
    (cr.instrs.length - 0 + 1) (by omega) 0 s₀ bInit ⟨[], rfl⟩
  · have hfin : execRule db cr ov false =
        ((machine cr md (subRun cr md cr.instrs.length) cr.instrs.length).search
          cr.instrs.length (cr.instrs.length - 0 + 1) 0 0 s₀ bInit).final :=
      finish_eq h.noAgg _ _ _
    rcases hpipe with ⟨hsearch, -⟩ | ⟨err, s₁, hg⟩
    · rw [hfin, hsearch, ← List.foldl_map] at hrun
      simp only [Branch.final, Final.done.injEq] at hrun
      subst hrun
      have hset : fire db.schema cr (.flat body leaf) db.contents S = {x | x ∈
          (Machine.sols (stepList cr md.ov s₀.db s₀.pool) body.length 0 bInit).map
            (leafRow leaf)} := by
        ext t
        rw [Set.mem_ofPred_eq, List.mem_map]
        refine exists_congr fun b => ?_
        rw [mem_sols_iff hE body hat.left (fun i hi => hi) (fun i hi => .inl (hbody i hi))
          (fun i hi hm => absurd hm (hne i hi)) h.keys (by simp)]
        exact and_congr_right fun _ => eq_comm
      rw [hset]
      exact hstored _
    · rw [hfin, hg] at hrun
      cases hrun
  · -- the pipeline does not see the head
    rintro s ⟨rows, rfl⟩ i hi sp b
    rw [(hstored rows).pool]
    exact bodyOutcome_agree ((hstored rows).agree hhead) hi cr ov s₀.pool sp b
  · rintro d s b ⟨rows, rfl⟩
    have hexec : exec cr md (subRun cr md cr.instrs.length) cr.instrs.length (0 + body.length) d
        (rows.foldl (storeRow cr.headRelId) s₀) b =
          execProject md leaf (rows.foldl (storeRow cr.headRelId) s₀) b := by
      unfold exec
      simp only [instrAt] at hleafAt
      simp only [hleafAt, h.shape.2]
    have har' : (rows.foldl (storeRow cr.headRelId) s₀).db.schema.arities[leaf.a]? =
        some leaf.b := by
      rw [(hstored rows).evolves.schema, hdst]
      exact har
    rw [hexec, execProject_store rfl rfl har' h.headSlots, hdst]
    exact ⟨rfl, rows ++ [leafRow leaf b], by rw [List.foldl_append]; rfl⟩

end DatalogDafsa
