import DatalogDafsa.Vm.Sound

/-!
# Firing a compiled rule

The compiler emits bytecode that spells a plan over declared relations and
permutation indices.  `RuleOk` is that promise, stated over the *schema* of the
database: the part no evaluation changes.  Under it, and with every permutation
index up to date, a dry run of a rule hands out exactly the head rows of its plan.

## Main definitions

* `Schema`, `Db.schema` — arities, permutation indices and tables.
* `RuleOk` — the bytecode of a rule spells a plan over a schema.
* `Plain` — the rules whose plan is one pipeline without indices, by checks on the code.
* `Db.Ok` — rows have the arity of their relation, indices are up to date.
* `execRule_dry` — what a dry run hands out.
* `fire`, `Inst` — the head rows of a rule, and of one instance of it.
-/

namespace DatalogDafsa

open Backtrack

/-! ## Schemas -/

/-- What an evaluation never changes. -/
structure Schema where
  /-- Arities of the relations. -/
  arities : List ℕ
  /-- Relation, arity and column order of each permutation index. -/
  perms : List (ℕ × ℕ × List ℕ)
  /-- Symbols and list terms. -/
  tbl : SymTables

/-- The schema of a database. -/
def Db.schema (db : Db) : Schema :=
  ⟨db.rels.map RelEntry.arity, db.perms.map fun pe => (pe.relId, pe.arity, pe.perm), db.tbl⟩

namespace Schema

/-- The permutation index of a relation with this id, with its arity. -/
def getPerm (σ : Schema) (relId permId : ℕ) : Option (ℕ × List ℕ) :=
  match σ.perms[permId]? with
  | some (r, ar, perm) => if r = relId then some (ar, perm) else none
  | none => none

/-- What the meaning of a rule takes from a schema. -/
def sig (σ : Schema) (pats : List (Val → Bool)) : Sig :=
  ⟨fun r p => (σ.getPerm r p).map Prod.snd, σ.tbl, pats⟩

end Schema

namespace Db

variable (db : Db)

theorem schema_getPerm (relId permId : ℕ) :
    db.schema.getPerm relId permId =
      (db.getPerm relId permId).map fun pe => (pe.arity, pe.perm) := by
  unfold Schema.getPerm Db.getPerm schema
  simp only [List.getElem?_map]
  cases db.perms[permId]? with
  | none => rfl
  | some pe =>
    simp only [Option.map_some]
    split <;> rfl

theorem schema_sig (pats : List (Val → Bool)) : db.schema.sig pats = db.sig pats := by
  unfold Schema.sig sig
  simp only [schema_getPerm, Option.map_map]
  rfl

theorem arities_getElem? (id : ℕ) : db.schema.arities[id]? = (db.rels[id]?).map RelEntry.arity := by
  simp [schema]

theorem relAtArityRo_eq_some {id ar : ℕ} {s : Store} :
    db.relAtArityRo id ar = some s ↔
      ∃ e, db.rels[id]? = some e ∧ e.arity = ar ∧ e.store = s := by
  unfold relAtArityRo
  cases db.rels[id]? with
  | none => simp
  | some e => simp

theorem relAtArityRo_of_arity {id ar : ℕ} (h : db.schema.arities[id]? = some ar) :
    ∃ s, db.relAtArityRo id ar = some s ∧ s.view = db.view id ∧ s.base = db.base id := by
  rw [arities_getElem?, Option.map_eq_some_iff] at h
  obtain ⟨e, he, har⟩ := h
  exact ⟨e.store, (db.relAtArityRo_eq_some).mpr ⟨e, he, har, rfl⟩, by simp [view, he],
    by simp [base, he]⟩

@[simp] theorem schema_updStore (id : ℕ) (f : Store → Store) :
    (db.updStore id f).schema = db.schema := by
  simp only [schema, updStore, Schema.mk.injEq, and_true]
  refine List.ext_getElem? fun n => ?_
  simp only [List.getElem?_map, List.getElem?_modify]
  cases db.rels[n]? with
  | none => rfl
  | some e => by_cases h : id = n <;> simp [h]

theorem getPerm_eq_some {db : Db} {relId permId : ℕ} {pe : PermIndexEntry}
    (h : db.getPerm relId permId = some pe) : pe ∈ db.perms ∧ pe.relId = relId := by
  unfold getPerm at h
  split at h
  · rename_i pe' hget
    split at h
    · rename_i hrel
      cases h
      exact ⟨List.mem_of_getElem? hget, hrel⟩
    · cases h
  · cases h

@[simp] theorem schema_permMarkDirty (id : ℕ) : (db.permMarkDirty id).schema = db.schema := by
  simp only [schema, permMarkDirty, List.map_map, Schema.mk.injEq, and_true, true_and]
  refine List.map_congr_left fun pe _ => ?_
  simp only [Function.comp_apply]
  split <;> rfl

@[simp] theorem schema_permBuildDirty : db.permBuildDirty.schema = db.schema := by
  simp only [schema, permBuildDirty, List.map_map, Schema.mk.injEq, and_true, true_and]
  refine List.map_congr_left fun pe _ => ?_
  simp only [Function.comp_apply]
  split
  · unfold permBuild; split <;> rfl
  · rfl

/-! ## Contents -/

/-- Rows have the arity of their relation. -/
def RowsOk : Prop := ∀ id ar, db.schema.arities[id]? = some ar →
  (∀ x ∈ db.view id, x.length = ar) ∧ ∀ x ∈ db.base id, x.length = ar

/-- A permutation index holds the permuted rows of its relation's view. -/
def Fresh (pe : PermIndexEntry) : Prop :=
  ∀ x, x ∈ pe.pidx ↔ db.schema.arities[pe.relId]? = some pe.arity ∧
    ∃ r ∈ db.view pe.relId, permRow pe.perm pe.arity r = x

/-- Indices that are not marked dirty are up to date. -/
def PermsOk : Prop := ∀ pe ∈ db.perms, pe.dirty = false → db.Fresh pe

/-- No index is marked dirty. -/
def Clean : Prop := ∀ pe ∈ db.perms, pe.dirty = false

/-- A database ready to fire rules. -/
structure Ok : Prop where
  /-- Rows have the arity of their relation. -/
  rows : db.RowsOk
  /-- Indices are up to date. -/
  perms : db.PermsOk
  /-- No index is marked dirty. -/
  clean : db.Clean

@[simp] theorem view_permMarkDirty (id n : ℕ) : (db.permMarkDirty id).view n = db.view n := rfl
@[simp] theorem base_permMarkDirty (id n : ℕ) : (db.permMarkDirty id).base n = db.base n := rfl
@[simp] theorem view_permBuildDirty (n : ℕ) : db.permBuildDirty.view n = db.view n := rfl
@[simp] theorem base_permBuildDirty (n : ℕ) : db.permBuildDirty.base n = db.base n := rfl

theorem view_updStore (id n : ℕ) (f : Store → Store) :
    (db.updStore id f).view n =
      match db.rels[n]? with
      | some e => if id = n then (f e.store).view else e.store.view
      | none => Dafsa.create := by
  unfold view updStore
  simp only [List.getElem?_modify]
  cases db.rels[n]? with
  | none => rfl
  | some e => by_cases h : id = n <;> simp [h]

theorem base_updStore (id n : ℕ) (f : Store → Store) :
    (db.updStore id f).base n =
      match db.rels[n]? with
      | some e => if id = n then (f e.store).base else e.store.base
      | none => Dafsa.create := by
  unfold base updStore
  simp only [List.getElem?_modify]
  cases db.rels[n]? with
  | none => rfl
  | some e => by_cases h : id = n <;> simp [h]

theorem view_updStore_of_ne {id n : ℕ} (h : id ≠ n) (f : Store → Store) :
    (db.updStore id f).view n = db.view n := by
  rw [view_updStore]
  unfold view
  cases db.rels[n]? with
  | none => rfl
  | some e => simp [h]

theorem base_updStore_of_ne {id n : ℕ} (h : id ≠ n) (f : Store → Store) :
    (db.updStore id f).base n = db.base n := by
  rw [base_updStore]
  unfold base
  cases db.rels[n]? with
  | none => rfl
  | some e => simp [h]

theorem permBuild_fresh (pe : PermIndexEntry) : db.Fresh (db.permBuild pe) := by
  intro x
  unfold permBuild
  cases hr : db.relAtArityRo pe.relId pe.arity with
  | none =>
    have hno : ¬ db.schema.arities[pe.relId]? = some pe.arity := fun h => by
      obtain ⟨s, hs, -⟩ := db.relAtArityRo_of_arity h
      rw [hr] at hs
      cases hs
    simp [hno]
  | some s =>
    obtain ⟨e, he, har, hs⟩ := (db.relAtArityRo_eq_some).mp hr
    have hview : db.view pe.relId = s.view := by simp [view, he, hs]
    have harity : db.schema.arities[pe.relId]? = some pe.arity := by
      rw [arities_getElem?, he]; simp [har]
    simp only [Dafsa.mem_ofRows, List.mem_map, Dafsa.scan_nil, ← Dafsa.mem_def, harity, hview,
      true_and]

theorem fresh_congr {db db' : Db} {pe : PermIndexEntry} (hs : db'.schema = db.schema)
    (hv : db'.view pe.relId = db.view pe.relId) (h : db.Fresh pe) : db'.Fresh pe := by
  intro x
  rw [hs, hv]
  exact h x

/-- Rebuilding brings every index up to date. -/
theorem permBuildDirty_ok {db : Db} (h : db.PermsOk) :
    db.permBuildDirty.PermsOk ∧ db.permBuildDirty.Clean := by
  have hmem : ∀ pe ∈ db.permBuildDirty.perms, ∃ pe₀ ∈ db.perms,
      pe = if pe₀.dirty then db.permBuild pe₀ else pe₀ := by
    intro pe hpe
    simp only [permBuildDirty, List.mem_map] at hpe
    obtain ⟨pe₀, hpe₀, rfl⟩ := hpe
    exact ⟨pe₀, hpe₀, rfl⟩
  refine ⟨fun pe hpe _ => ?_, fun pe hpe => ?_⟩
  · obtain ⟨pe₀, hpe₀, rfl⟩ := hmem pe hpe
    by_cases hd : pe₀.dirty = true
    · simp only [hd, if_true]
      exact fresh_congr (schema_permBuildDirty db) rfl (db.permBuild_fresh pe₀)
    · simp only [hd]
      exact fresh_congr (schema_permBuildDirty db) rfl (h pe₀ hpe₀ (by simpa using hd))
  · obtain ⟨pe₀, hpe₀, rfl⟩ := hmem pe hpe
    by_cases hd : pe₀.dirty = true
    · simp only [hd, if_true]
      unfold permBuild
      split <;> rfl
    · simp only [hd]
      simpa using hd

/-- Changing one relation and marking its indices keeps the others up to date. -/
theorem permsOk_markDirty {db db' : Db} {id : ℕ} (hs : db'.schema = db.schema)
    (hp : db'.perms = db.perms) (hv : ∀ n, n ≠ id → db'.view n = db.view n) (h : db.PermsOk) :
    (db'.permMarkDirty id).PermsOk := by
  intro pe hpe hclean
  simp only [permMarkDirty, List.mem_map] at hpe
  obtain ⟨pe₀, hpe₀, rfl⟩ := hpe
  by_cases hid : pe₀.relId = id
  · simp [hid] at hclean
  · simp only [hid, if_false] at hclean ⊢
    exact fresh_congr (by simpa using hs) (by simpa using hv _ hid) (h pe₀ (hp ▸ hpe₀) hclean)

end Db

/-! ## Rules over a schema -/

/-- What instructions name is declared, at the arity they use it at. -/
structure ReadsOk (σ : Schema) (pats : List (Val → Bool)) (is : List VmInstr) : Prop where
  /-- Relations of body atoms. -/
  atoms : ∀ i ∈ is, driverFeeds i.op = true → σ.arities[i.a]? = some (atomArity i)
  /-- Relations of negated atoms. -/
  negs : ∀ i ∈ is, i.op = .negCheck → σ.arities[i.a]? = some i.b
  /-- Relations of ranges. -/
  ranges : ∀ i ∈ is, i.op = .range → ∃ ar, σ.arities[i.imm.toNat]? = some ar
  /-- Permutation indices are those of the relations they are used for. -/
  perms : ∀ i ∈ is, i.op = .lookupPerm → ∃ perm, σ.getPerm i.a i.imm.toNat = some (i.c, perm)
  /-- Patterns. -/
  pats : ∀ i ∈ is, i.op = .walk → ∃ m, pats[i.imm.toNat]? = some m

/-- The bytecode of a rule spells a plan over a schema. -/
structure RuleOk (σ : Schema) (cr : CompiledRule) (P : Plan) : Prop where
  /-- The code is the plan's, from the start. -/
  codes : ∃ stop ≤ cr.instrs.length, P.Codes cr.instrs 0 stop
  /-- It has no aggregate. -/
  noAgg : ∀ i ∈ cr.instrs, i.op ≠ .aggAcc
  /-- Instructions are of the right kinds. -/
  shape : P.Shape
  /-- Joins fit their buffers. -/
  fits : P.Fits
  /-- Keys of hash joins are bound. -/
  keys : P.Keys (σ.sig cr.patterns)
  /-- Each body atom is read by one instruction. -/
  oneEach : P.OneEach
  /-- No buffer is used twice. -/
  nodup : P.bufs.Nodup
  /-- The buffers are allocated. -/
  bufs : ∀ n ∈ P.bufs, n < nMat cr
  /-- Ranges nest no deeper than there are instructions. -/
  height : P.height ≤ cr.instrs.length
  /-- The head row goes to the head relation. -/
  head : P.leaf.a = cr.headRelId ∧ σ.arities[cr.headRelId]? = some P.leaf.b
  /-- Every head column has a slot. -/
  headSlots : ∀ j < P.leaf.b, P.leaf.slot j ≠ noSlot
  /-- What it reads is declared. -/
  reads : ReadsOk σ cr.patterns P.instrs

/-- The opcodes of a body without indices, hash joins, patterns and ranges. -/
def plainOp : Op → Bool
  | .lookupPerm | .hashJoin | .walk | .range => false
  | op => bodyOp op

/-- What a one-pipeline rule without indices must meet. -/
structure Plain (σ : Schema) (cr : CompiledRule) (body : List VmInstr) (leaf : VmInstr) :
    Prop where
  /-- The code is the pipeline and its leaf. -/
  code : cr.instrs = body ++ [leaf, ⟨.halt, 0, 0, 0, 0, [], 0⟩]
  /-- Opcodes. -/
  ops : (body.all fun i => plainOp i.op) = true
  /-- Atoms and negated atoms are over declared relations. -/
  reads : (body.all fun i => (!driverFeeds i.op || σ.arities[i.a]? == some (atomArity i)) &&
    (i.op != .negCheck || σ.arities[i.a]? == some i.b)) = true
  /-- Body atoms have their own indices. -/
  nodup : ((Plan.bodyAtoms body).map VmInstr.bodyIdx).Nodup
  /-- The leaf is the head. -/
  project : leaf.op = .project ∧ leaf.a = cr.headRelId ∧ σ.arities[cr.headRelId]? = some leaf.b
  /-- Every head column has a slot. -/
  slots : ∀ j < leaf.b, leaf.slot j ≠ noSlot

instance (σ : Schema) (cr : CompiledRule) (body : List VmInstr) (leaf : VmInstr) :
    Decidable (Plain σ cr body leaf) :=
  decidable_of_iff (_ ∧ _ ∧ _ ∧ _ ∧ _ ∧ _)
    ⟨fun ⟨h₁, h₂, h₃, h₄, h₅, h₆⟩ => ⟨h₁, h₂, h₃, h₄, h₅, h₆⟩,
      fun ⟨h₁, h₂, h₃, h₄, h₅, h₆⟩ => ⟨h₁, h₂, h₃, h₄, h₅, h₆⟩⟩

theorem keysOk_of_no_hashJoin (G : Sig) {body : List VmInstr} (h : ∀ i ∈ body, i.op ≠ .hashJoin)
    (D : List ℕ) : KeysOk G D body := by
  induction body generalizing D with
  | nil => trivial
  | cons i is ih =>
    exact ⟨fun hop => absurd hop (h i (by simp)), ih (fun j hj => h j (by simp [hj])) _⟩

/-- A plain rule spells its pipeline. -/
theorem Plain.ruleOk {σ : Schema} {cr : CompiledRule} {body : List VmInstr} {leaf : VmInstr}
    (h : Plain σ cr body leaf) : RuleOk σ cr (.flat body leaf) := by
  have hops : ∀ i ∈ body, plainOp i.op = true := fun i hi => List.all_eq_true.mp h.ops i hi
  have hbody : ∀ i ∈ body, bodyOp i.op = true := fun i hi => by
    have := hops i hi
    cases hop : i.op <;> rw [hop] at this <;> simp_all [plainOp, bodyOp]
  have hne : ∀ i ∈ body ++ [leaf], ∀ op, plainOp op = false → op ≠ .project → i.op ≠ op := by
    intro i hi op hop hproj heq
    rcases List.mem_append.mp hi with hi | hi
    · have := hops i hi
      rw [heq, hop] at this
      cases this
    · rw [List.mem_singleton.mp hi, h.project.1] at heq
      exact hproj heq.symm
  have hread := List.all_eq_true.mp h.reads
  refine
    { codes := ⟨body.length + 1, by simp [h.code], ⟨⟨[⟨.halt, 0, 0, 0, 0, [], 0⟩], ?_⟩, by omega⟩⟩
      noAgg := ?_
      shape := ⟨hbody, h.project.1⟩
      fits := trivial
      keys := keysOk_of_no_hashJoin _ (fun i hi => hne i (by simp [hi]) _ rfl (by simp)) _
      oneEach := h.nodup
      nodup := List.nodup_nil
      bufs := fun n hn => by cases hn
      height := Nat.zero_le _
      head := h.project.2
      headSlots := h.slots
      reads := ⟨fun i hi hf => ?_, fun i hi hop => ?_, fun i hi hop => ?_, fun i hi hop => ?_,
        fun i hi hop => ?_⟩ }
  · simp [h.code]
  · intro i hi hop
    rw [h.code] at hi
    rcases List.mem_append.mp hi with hi | hi
    · exact hne i (by simp [hi]) .aggAcc rfl (by simp) hop
    · rcases List.mem_pair.mp hi with rfl | rfl
      · rw [h.project.1] at hop; cases hop
      · cases hop
  · rcases List.mem_append.mp hi with hi | hi
    · have := hread i hi
      simp only [hf, Bool.not_true, Bool.false_or, Bool.and_eq_true, beq_iff_eq] at this
      exact this.1
    · rw [List.mem_singleton.mp hi, h.project.1] at hf; cases hf
  · rcases List.mem_append.mp hi with hi | hi
    · have := hread i hi
      simp only [hop, bne_self_eq_false, Bool.false_or, Bool.and_eq_true, beq_iff_eq] at this
      exact this.2
    · rw [List.mem_singleton.mp hi, h.project.1] at hop; cases hop
  · exact absurd hop (hne i hi _ rfl (by simp))
  · exact absurd hop (hne i hi _ rfl (by simp))
  · exact absurd hop (hne i hi _ rfl (by simp))

/-- The environment of contents `V` and sources `S`. -/
def Schema.env (σ : Schema) (pats : List (Val → Bool)) (V : ℕ → Set Row) (S : ℕ → Set Row) : Env :=
  ⟨σ.sig pats, V, S, ∅, 0⟩

/-- The contents of the views. -/
def Db.contents (db : Db) (id : ℕ) : Set Row := {x | x ∈ db.view id}

/-- The head rows of a rule when its atoms read the sources `S` and its negated
atoms the contents `V`. -/
def fire (σ : Schema) (cr : CompiledRule) (P : Plan) (V : ℕ → Set Row) (S : ℕ → Set Row) :
    Set Row := P.sol (σ.env cr.patterns V S)

/-- Every atom reads its relation. -/
def relSrc (P : Plan) (V : ℕ → Set Row) (n : ℕ) : Set Row :=
  {x | ∃ i ∈ P.atoms, i.bodyIdx = n ∧ x ∈ V i.a}

theorem relSrc_eq {P : Plan} (h : P.OneEach) (V : ℕ → Set Row) {i : VmInstr} (hi : i ∈ P.atoms) :
    relSrc P V i.bodyIdx = V i.a := by
  ext x
  constructor
  · rintro ⟨j, hj, hidx, hx⟩
    have hij : j = i := by
      have := List.inj_on_of_nodup_map h hj hi hidx
      exact this
    exact hij ▸ hx
  · exact fun hx => ⟨i, hi, rfl, hx⟩

/-- Without an override, an atom reads the view of its relation; only a lookup in an
index asks more of the database. -/
theorem srcOk_rel {db : Db} {pats : List (Val → Bool)} {is : List VmInstr}
    (h : ReadsOk db.schema pats is) {i : VmInstr} (hi : i ∈ is) (hf : driverFeeds i.op = true)
    (hop : i.op ≠ .lookupPerm) {ov : List VmOverride} (hov : liveOv ov i.bodyIdx = none) :
    SrcOk db ov (db.contents i.a) i := by
  unfold SrcOk
  rw [if_neg hop, hov]
  obtain ⟨s, hs, hview, -⟩ := db.relAtArityRo_of_arity (h.atoms i hi hf)
  exact ⟨s, hs, fun x => by rw [hview]; rfl⟩

/-- Without an override, an atom reads the view of its relation. -/
theorem srcOk_view {db : Db} (hdb : db.Ok) {pats : List (Val → Bool)} {is : List VmInstr}
    (h : ReadsOk db.schema pats is) {i : VmInstr} (hi : i ∈ is) (hf : driverFeeds i.op = true)
    {ov : List VmOverride} (hov : liveOv ov i.bodyIdx = none) :
    SrcOk db ov (db.contents i.a) i := by
  by_cases hop : i.op = .lookupPerm
  · have har := h.atoms i hi hf
    unfold SrcOk
    rw [if_pos hop]
    obtain ⟨perm, hperm⟩ := h.perms i hi hop
    rw [Db.schema_getPerm, Option.map_eq_some_iff] at hperm
    obtain ⟨pe, hpe, heq⟩ := hperm
    simp only [Prod.mk.injEq] at heq
    obtain ⟨harity, -⟩ := heq
    refine ⟨pe, hpe, ?_⟩
    rw [hov]
    obtain ⟨hmem, hrel⟩ := Db.getPerm_eq_some hpe
    intro x
    rw [hdb.perms pe hmem (hdb.clean pe hmem) x, hrel, harity]
    simp only [atomArity, hop, reduceCtorEq, or_self, if_false] at har
    simp only [har, true_and]
    rfl
  · exact srcOk_rel h hi hf hop hov

/-- **The environment of a database with its overrides.** -/
theorem envOk {db : Db} (hrows : db.RowsOk) {cr : CompiledRule} {is : List VmInstr}
    (h : ReadsOk db.schema cr.patterns is) {ov : List VmOverride} {S : ℕ → Set Row}
    (hS : ∀ i ∈ is, driverFeeds i.op = true → SrcOk db ov (S i.bodyIdx) i) :
    EnvOk cr db ov is (db.schema.env cr.patterns db.contents S) where
  sig := db.schema_sig cr.patterns
  neg i hi hop := by
    have har := h.negs i hi hop
    obtain ⟨s, hs, hview, -⟩ := db.relAtArityRo_of_arity har
    exact ⟨s, hs, fun x => by rw [hview]; rfl, fun x hx => (hrows _ _ har).1 x (hview ▸ hx)⟩
  range i hi hop := by
    obtain ⟨ar, har⟩ := h.ranges i hi hop
    rw [Db.arities_getElem?, Option.map_eq_some_iff] at har
    obtain ⟨e, he, -⟩ := har
    exact ⟨e, he, fun x => by simp [Schema.env, Db.contents, Db.view, he]⟩
  src := hS
  pats i hi hop := h.pats i hi hop

/-- **A dry run hands out the head rows of the plan**, and leaves the database alone. -/
theorem execRule_dry {db : Db} (hrows : db.RowsOk) {cr : CompiledRule} {P : Plan}
    (h : RuleOk db.schema cr P) {ov : List VmOverride} {S : ℕ → Set Row}
    (hS : ∀ i ∈ P.atoms, SrcOk db ov (S i.bodyIdx) i) {s : ExecSt}
    (hrun : execRule db cr ov true = .done s) :
    s.db = db ∧ ∀ t, t ∈ s.out ↔ t ∈ fire db.schema cr P db.contents S := by
  obtain ⟨stop, hstop, hcodes⟩ := h.codes
  set s₀ : ExecSt := ⟨db, List.replicate (nMat cr) (TupleSet.init 0), [], []⟩ with hs₀
  have hat : PlanAt cr ov (db.schema.env cr.patterns db.contents S) P 0 stop s₀ :=
    ⟨hcodes, envOk hrows h.reads fun i hi hf => hS i (Plan.mem_atoms_of_instrs h.shape hi hf),
      h.shape, h.fits, h.keys, h.nodup, fun n hn =>
      ⟨TupleSet.init 0, by simp [hs₀, h.bufs n hn], rfl⟩⟩
  obtain ⟨st, hst, -⟩ := db.relAtArityRo_of_arity h.head.2
  have hrec : Records s₀.db { ov, dry := true } P.leaf := by
    refine .inr ⟨rfl, rfl, ?_, h.headSlots⟩
    rw [h.head.1]
    show db.relAtArityRo cr.headRelId P.leaf.b ≠ none
    rw [hst]
    simp
  have hfin : execRule db cr ov true =
      ((machine cr { ov, dry := true } (subRun cr { ov, dry := true } cr.instrs.length)
        cr.instrs.length).search cr.instrs.length (cr.instrs.length - 0 + 1) 0 0 s₀ bInit).final :=
    finish_eq h.noAgg _ _ _
  rcases runsPlan h.noAgg P { ov, dry := true } (cr.instrs.length - 0 + 1) 0 hat
    hrec hstop h.height (by simp) (by omega) with ⟨rows, s₁, hsearch, hsame, hmem⟩ | ⟨err, s₁, hg⟩
  · rw [hfin, hsearch] at hrun
    simp only [Branch.final, Final.done.injEq] at hrun
    subst hrun
    refine ⟨(db_record _ _ _).trans hsame.db, fun t => ?_⟩
    have hout : (record { ov, dry := true } s₁ rows).out = rows := by
      simp [record, hsame.out, hs₀]
    rw [hout, hmem]
    rfl
  · rw [hfin, hg] at hrun
    cases hrun

/-! ## Instances of a rule -/

/-- The head rows of one instance: each atom reads one row. -/
def Inst (σ : Schema) (cr : CompiledRule) (P : Plan) (V : ℕ → Set Row) (ρ : ℕ → Row) : Set Row :=
  fire σ cr P V fun n => {ρ n}

/-- A head row is derived from one row of each source. -/
theorem mem_fire_iff {σ : Schema} {cr : CompiledRule} {P : Plan} (hshape : P.Shape)
    (hone : P.OneEach) {V S : ℕ → Set Row} {t : Row} :
    t ∈ fire σ cr P V S ↔
      ∃ ρ, (∀ i ∈ P.atoms, ρ i.bodyIdx ∈ S i.bodyIdx) ∧ t ∈ Inst σ cr P V ρ :=
  Plan.mem_sol_iff hshape hone

/-- An instance looks at the contents of negated and range relations only. -/
theorem inst_congr {σ : Schema} {cr : CompiledRule} {P : Plan} {V V' : ℕ → Set Row}
    (h : ∀ id ∈ Plan.strictReads P.instrs, V id = V' id) (ρ : ℕ → Row) :
    Inst σ cr P V ρ = Inst σ cr P V' ρ := by
  refine Set.Subset.antisymm ?_ ?_
  · exact Plan.sol_mono _ _ P ⟨rfl, fun id hid => (h id hid).symm, fun _ _ _ => subset_rfl⟩
      ⟨subset_rfl, rfl⟩
  · exact Plan.sol_mono _ _ P ⟨rfl, fun id hid => h id hid, fun _ _ _ => subset_rfl⟩
      ⟨subset_rfl, rfl⟩

end DatalogDafsa
