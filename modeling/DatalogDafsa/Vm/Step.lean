import DatalogDafsa.Vm.Plan

/-!
# One instruction against its meaning

Each instruction before the leaf goes on with a list of bindings: the one it
passes on, or one for each alternative of the frame it opens.  This file shows that
the list holds exactly the bindings `Succ` allows, for every opcode: scans, prefix
lookups in sorted sets and in permutation indices, hash joins with their permuted
and re-sorted rows, pattern walks, negation probes and ranges.

## Main definitions

* `bodyOutcome` — an instruction before the leaf, which leaves the state alone.
* `SrcOk`, `EnvOk` — the environment is what the database and the overrides hold.
* `mem_succs_iff` — an instruction goes on with what `Succ` allows.
-/

namespace DatalogDafsa

open Backtrack

/-! ## Instructions before the leaf -/

/-- An instruction that leaves the state alone. -/
def bodyOutcome (cr : CompiledRule) (ov : List VmOverride) (db : Db) (pool : List TupleSet)
    (i : VmInstr) (sp : ℕ) (b : Bindings) : VmOutcome :=
  match i.op with
  | .scan => guardFrame sp (execScan db ov i b)
  | .walk => guardFrame sp (execWalk db cr.patterns ov i b)
  | .lookup => guardFrame sp (execLookup db ov i b)
  | .lookupPerm => guardFrame sp (execLookupPerm db ov i b)
  | .hashJoin => guardFrame sp (execHashJoin db ov i b)
  | .matJoin => execMatJoin pool i sp b
  | .negCheck =>
    match db.relAtArityRo i.a i.b with
    | none => .next b
    | some r => passIf (!negHit r i b) b
  | .listMember => execListMember db.tbl i sp b
  | .range => execRangeOp db i sp b
  | _ => execBuiltin db.tbl i b

/-- An instruction of the code. -/
def instrAt (p : List VmInstr) (ip : ℕ) : VmInstr := p.getD ip ⟨.halt, 0, 0, 0, 0, [], 0⟩

theorem exec_body {cr : CompiledRule} {md : Mode} {sub : SubRun} {stop ip sp : ℕ} {s : ExecSt}
    {b : Bindings} {i : VmInstr} (hi : instrAt cr.instrs ip = i)
    (hop : bodyOp i.op = true ∨ i.op = .matJoin) :
    exec cr md sub stop ip sp s b = (s, bodyOutcome cr md.ov s.db s.pool i sp b) := by
  subst hi
  unfold exec bodyOutcome
  simp only [instrAt] at hop ⊢
  generalize cr.instrs.getD ip _ = i at hop
  obtain ⟨op, a, b', c, imm, slots, bi⟩ := i
  cases op <;> simp_all [bodyOp]
  cases s.db.relAtArityRo a b' <;> rfl

/-- The frame limit is the only thing the open frames decide. -/
theorem guardFrame_cases (sp : ℕ) (o : VmOutcome) :
    guardFrame sp o = o ∨ guardFrame sp o = .error .frameLimit := by
  unfold guardFrame
  split <;> simp

theorem guardFrame_zero (o : VmOutcome) : guardFrame 0 o = o := rfl

theorem bodyOutcome_cases (cr : CompiledRule) (ov : List VmOverride) (db : Db)
    (pool : List TupleSet) (i : VmInstr) (sp : ℕ) (b : Bindings) :
    bodyOutcome cr ov db pool i sp b = bodyOutcome cr ov db pool i 0 b ∨
      bodyOutcome cr ov db pool i sp b = .error .frameLimit := by
  unfold bodyOutcome
  split
  all_goals first
    | exact guardFrame_cases _ _
    | exact .inl rfl
    | skip
  · unfold execMatJoin
    split
    · dsimp only
      split
      · exact .inl rfl
      · split
        · exact .inl rfl
        · exact guardFrame_cases _ _
    · exact .inl rfl
  · unfold execListMember
    dsimp only
    split
    · exact .inl rfl
    · split
      · exact .inl rfl
      · exact guardFrame_cases _ _
  · unfold execRangeOp
    split
    · exact .inl rfl
    · dsimp only
      split
      · exact .inl rfl
      · exact guardFrame_cases _ _

/-- The bindings an outcome goes on with. -/
def succsVm (p : List VmInstr) (ip : ℕ) : VmOutcome → Option (List Bindings)
  | .next b => some [b]
  | .fail => some []
  | .push b f => some (b :: frameAlts p ip f)
  | _ => none

theorem succs_machine (cr : CompiledRule) (md : Mode) (sub : SubRun) (stop ip : ℕ)
    (o : VmOutcome) : (machine cr md sub stop).succs ip o = succsVm cr.instrs ip o := by
  cases o <;> rfl

theorem succsVm_passIf (p : List VmInstr) (ip : ℕ) (t : Bool) (b : Bindings) :
    succsVm p ip (passIf t b) = some (if t then [b] else []) := by
  cases t <;> rfl

/-- A frame whose first row is bound like the later ones. -/
theorem succsVm_openFrame {p : List VmInstr} {ip : ℕ} {i : VmInstr} (hi : instrAt p ip = i)
    {sc ar : ℕ} {b : Bindings} {f : VmFrame} (hop : f.op ≠ .range)
    (hbind : ∀ row ∈ f.tuples, bindRowPerm i row (f.startCol i) f.arity f.perm b =
      bindRowPerm i row sc ar f.perm b) :
    succsVm p ip (openFrame i sc ar b f) =
      some (f.tuples.filterMap fun row => bindRowPerm i row sc ar f.perm b) := by
  rw [filterMap_bind_eq]
  have hsub : ∀ {rows : List Row} {b' : Bindings} {rest : List Row},
      seekValidPerm i sc ar f.perm b rows = some (b', rest) → ∀ row ∈ rest, row ∈ rows := by
    intro rows
    induction rows with
    | nil => intro b' rest h; cases h
    | cons r rows ih =>
      intro b' rest h row hrow
      unfold seekValidPerm at h
      split at h
      · cases h; exact List.mem_cons_of_mem _ hrow
      · exact List.mem_cons_of_mem _ (ih h row hrow)
  unfold openFrame
  cases hs : seekValidPerm i sc ar f.perm b f.tuples with
  | none => rfl
  | some r =>
    obtain ⟨b', rest⟩ := r
    simp only [succsVm, frameAlts, hop, if_false, Option.some.injEq, List.cons.injEq, true_and]
    refine List.filterMap_congr fun row hrow => ?_
    have hinstr : p.getD ip ⟨.halt, 0, 0, 0, 0, [], 0⟩ = i := hi
    rw [hinstr]
    exact hbind row (hsub hs row hrow)

/-! ## The environment the database holds -/

/-- Width of the rows an atom reads. -/
def atomArity (i : VmInstr) : ℕ := if i.op = .scan ∨ i.op = .walk then i.b else i.c

/-- The source of an atom is what it reads: its override when that has rows, else
the view of its relation; a lookup in a permutation index reads either permuted. -/
def SrcOk (db : Db) (ov : List VmOverride) (S : Set Row) (i : VmInstr) : Prop :=
  if i.op = .lookupPerm then
    ∃ pe, db.getPerm i.a i.imm.toNat = some pe ∧
      match liveOv ov i.bodyIdx with
      | some ts => ts.Sorted ∧ ts.arity = i.c ∧
          ∀ x, x ∈ ts.rows ↔ ∃ r ∈ S, permRow pe.perm i.c r = x
      | none => ∀ x, x ∈ pe.pidx ↔ ∃ r ∈ S, permRow pe.perm i.c r = x
  else
    match liveOv ov i.bodyIdx with
    | some ts => ts.arity = atomArity i ∧ (i.op = .lookup → ts.Sorted) ∧ ∀ x, x ∈ ts.rows ↔ x ∈ S
    | none => ∃ r, db.relAtArityRo i.a (atomArity i) = some r ∧ ∀ x, x ∈ r.view ↔ x ∈ S

/-- What the meaning of a rule takes from a database. -/
def Db.sig (db : Db) (pats : List (Val → Bool)) : Sig :=
  ⟨fun r p => (db.getPerm r p).map PermIndexEntry.perm, db.tbl, pats⟩

/-- An environment is what a database and overrides hold, as far as the
instructions look. -/
structure EnvOk (cr : CompiledRule) (db : Db) (ov : List VmOverride) (is : List VmInstr)
    (E : Env) : Prop where
  /-- Column orders, tables and patterns. -/
  sig : E.sig = db.sig cr.patterns
  /-- Views that negated atoms probe. -/
  neg : ∀ i ∈ is, i.op = .negCheck → ∃ r, db.relAtArityRo i.a i.b = some r ∧
    (∀ x, x ∈ r.view ↔ x ∈ E.view i.a) ∧ ∀ x ∈ r.view, x.length = i.b
  /-- Views that ranges run through. -/
  range : ∀ i ∈ is, i.op = .range → ∃ e, db.rels[i.imm.toNat]? = some e ∧
    ∀ x, x ∈ e.store.view ↔ x ∈ E.view i.imm.toNat
  /-- Sources of atoms. -/
  src : ∀ i ∈ is, driverFeeds i.op = true → SrcOk db ov (E.src i.bodyIdx) i
  /-- Patterns are there. -/
  pats : ∀ i ∈ is, i.op = .walk → ∃ m, cr.patterns[i.imm.toNat]? = some m

/-! ## Atoms -/

variable {cr : CompiledRule} {db : Db} {ov : List VmOverride} {p : List VmInstr} {ip : ℕ}
  {i : VmInstr} {S : Set Row} {G : Sig}

theorem succs_scan (hi : instrAt p ip = i) (hop : i.op = .scan) (hS : SrcOk db ov S i)
    (b : Bindings) : ∃ L, succsVm p ip (execScan db ov i b) = some L ∧
      ∀ b', b' ∈ L ↔ ∃ row ∈ S, rowMatch G i b row = some b' := by
  have hsc : ∀ rows ar, VmFrame.startCol ⟨.scan, rows, ar, b, none, 0, 0, none⟩ i = 0 :=
    fun _ _ => by simp [VmFrame.startCol]
  simp only [SrcOk, hop, reduceCtorEq, if_false, atomArity, true_or, if_true] at hS
  unfold execScan
  cases hov : liveOv ov i.bodyIdx with
  | some ts =>
    rw [hov] at hS
    obtain ⟨har, -, hmem⟩ := hS
    simp only [har]
    refine ⟨_, succsVm_openFrame hi (by simp) (fun row _ => by rw [hsc]), fun b' => ?_⟩
    simp only [List.mem_filterMap, rowMatch, hop, hmem]
  | none =>
    rw [hov] at hS
    obtain ⟨r, hr, hmem⟩ := hS
    simp only [hr]
    refine ⟨_, succsVm_openFrame hi (by simp) (fun row _ => by rw [hsc]), fun b' => ?_⟩
    simp only [List.mem_filterMap, rowMatch, hop, Dafsa.scan_nil, ← Dafsa.mem_def, hmem]

theorem succs_walk (hi : instrAt p ip = i) (hop : i.op = .walk) (hS : SrcOk db ov S i)
    {m : Val → Bool} (hm : cr.patterns[i.imm.toNat]? = some m) (hG : G.pats = cr.patterns)
    (b : Bindings) : ∃ L, succsVm p ip (execWalk db cr.patterns ov i b) = some L ∧
      ∀ b', b' ∈ L ↔ ∃ row ∈ S, rowMatch G i b row = some b' := by
  have hsc : ∀ rows ar, VmFrame.startCol ⟨.scan, rows, ar, b, none, 0, 0, none⟩ i = 0 :=
    fun _ _ => by simp [VmFrame.startCol]
  have hmatch : ∀ row b', rowMatch G i b row = some b' ↔
      walkTest i m row = true ∧ bindRowPerm i row 0 i.b none b = some b' := fun row b' => by
    simp only [rowMatch, hop, hG, hm]
    cases walkTest i m row <;> simp
  simp only [SrcOk, hop, reduceCtorEq, if_false, atomArity, or_true, if_true] at hS
  unfold execWalk
  simp only [hm]
  cases hov : liveOv ov i.bodyIdx with
  | some ts =>
    rw [hov] at hS
    obtain ⟨har, -, hmem⟩ := hS
    refine ⟨_, succsVm_openFrame hi (by simp) (fun row _ => by rw [hsc]), fun b' => ?_⟩
    simp only [List.mem_filterMap, List.mem_filter, har, hmem, hmatch, walkTest, and_assoc]
  | none =>
    rw [hov] at hS
    obtain ⟨r, hr, hmem⟩ := hS
    simp only [hr]
    refine ⟨_, succsVm_openFrame hi (by simp) (fun row _ => by rw [hsc]), fun b' => ?_⟩
    simp only [List.mem_filterMap, List.mem_filter, Dafsa.scan_nil, ← Dafsa.mem_def, hmem, hmatch,
      walkTest, and_assoc]

theorem succs_lookup (hi : instrAt p ip = i) (hop : i.op = .lookup) (hS : SrcOk db ov S i)
    (b : Bindings) : ∃ L, succsVm p ip (execLookup db ov i b) = some L ∧
      ∀ b', b' ∈ L ↔ ∃ row ∈ S, rowMatch G i b row = some b' := by
  have hsc : ∀ rows ar, VmFrame.startCol ⟨.lookup, rows, ar, b, none, 0, 0, none⟩ i = i.b :=
    fun _ _ => by simp [VmFrame.startCol]
  have hmatch : ∀ row b', rowMatch G i b row = some b' ↔
      (lookupKey i none b <+: row) ∧ bindRowPerm i row i.b i.c none b = some b' := fun row b' => by
    simp only [rowMatch, hop, ← List.isPrefixOf_iff_prefix]
    cases (lookupKey i none b).isPrefixOf row <;> simp
  have hkey : ((List.range i.b).map fun pk => bGet b (i.slot pk)) = lookupKey i none b := rfl
  simp only [SrcOk, hop, reduceCtorEq, if_false, atomArity, or_self, true_imp_iff] at hS
  unfold execLookup
  simp only [hkey]
  cases hov : liveOv ov i.bodyIdx with
  | some ts =>
    rw [hov] at hS
    obtain ⟨har, hsorted, hmem⟩ := hS
    simp only [har]
    refine ⟨_, succsVm_openFrame hi (by simp) (fun row _ => by rw [hsc]), fun b' => ?_⟩
    rw [tsPrefix_eq_filter _ hsorted]
    simp only [List.mem_filterMap, List.mem_filter, List.isPrefixOf_iff_prefix, hmem, hmatch,
      and_assoc]
  | none =>
    rw [hov] at hS
    obtain ⟨r, hr, hmem⟩ := hS
    simp only [hr]
    refine ⟨_, succsVm_openFrame hi (by simp) (fun row _ => by rw [hsc]), fun b' => ?_⟩
    simp only [List.mem_filterMap, Dafsa.mem_scan, hmem, hmatch, and_assoc]

theorem succs_lookupPerm (hi : instrAt p ip = i) (hop : i.op = .lookupPerm)
    (hS : SrcOk db ov S i)
    (hG : G.perm i.a i.imm.toNat = (db.getPerm i.a i.imm.toNat).map PermIndexEntry.perm)
    (b : Bindings) : ∃ L, succsVm p ip (execLookupPerm db ov i b) = some L ∧
      ∀ b', b' ∈ L ↔ ∃ row ∈ S, rowMatch G i b row = some b' := by
  simp only [SrcOk, hop, if_true] at hS
  obtain ⟨pe, hpe, hS⟩ := hS
  have hsc : ∀ rows ar, VmFrame.startCol ⟨.lookupPerm, rows, ar, b, some pe.perm, 0, 0, none⟩ i =
      i.b := fun _ _ => by simp [VmFrame.startCol]
  have hmatch : ∀ row b', rowMatch G i b row = some b' ↔
      (lookupKey i (some pe.perm) b <+: permRow pe.perm i.c row) ∧
        bindRowPerm i (permRow pe.perm i.c row) i.b i.c (some pe.perm) b = some b' :=
      fun row b' => by
    simp only [rowMatch, hop, hG, hpe, Option.map_some, ← List.isPrefixOf_iff_prefix]
    cases (lookupKey i (some pe.perm) b).isPrefixOf (permRow pe.perm i.c row) <;> simp
  have hkey : ((List.range i.b).map fun pk => bGet b (i.slot (pe.perm.getD pk 0))) =
      lookupKey i (some pe.perm) b := rfl
  unfold execLookupPerm
  simp only [hpe, hkey]
  cases hov : liveOv ov i.bodyIdx with
  | some ts =>
    rw [hov] at hS
    obtain ⟨hsorted, har, hmem⟩ := hS
    refine ⟨_, succsVm_openFrame hi (by simp) (fun row _ => by rw [hsc, har]), fun b' => ?_⟩
    rw [tsPrefix_eq_filter _ hsorted]
    simp only [List.mem_filterMap, List.mem_filter, List.isPrefixOf_iff_prefix, hmem, hmatch]
    constructor
    · rintro ⟨_, ⟨⟨row, hrow, rfl⟩, hpre⟩, hb⟩
      exact ⟨row, hrow, hpre, hb⟩
    · rintro ⟨row, hrow, hpre, hb⟩
      exact ⟨_, ⟨⟨row, hrow, rfl⟩, hpre⟩, hb⟩
  | none =>
    rw [hov] at hS
    refine ⟨_, succsVm_openFrame hi (by simp) (fun row _ => by rw [hsc]), fun b' => ?_⟩
    simp only [List.mem_filterMap, Dafsa.mem_scan, hS, hmatch]
    constructor
    · rintro ⟨_, ⟨⟨row, hrow, rfl⟩, hpre⟩, hb⟩
      exact ⟨row, hrow, hpre, hb⟩
    · rintro ⟨row, hrow, hpre, hb⟩
      exact ⟨_, ⟨⟨row, hrow, rfl⟩, hpre⟩, hb⟩

/-- The slots a hash join probes with are bound. -/
def KeysBound (i : VmInstr) (b : Bindings) : Prop :=
  i.b ≤ i.c ∧ ∀ pk < i.b, bOk b (i.slot ((unpackPerm i.imm i.c).getD pk 0)) = true

theorem getD_permRow {perm : List ℕ} {ar j : ℕ} (h : j < ar) (row : Row) :
    (permRow perm ar row).getD j 0 = row.getD (perm.getD j 0) 0 := by
  simp [permRow, h]

/-- A row that passed the test of a hash join binds its key columns again to what
they are bound to. -/
theorem bindRowPerm_hashJoin {b : Bindings} (hk : KeysBound i b) {row : Row}
    (ht : hashTest i b row = true) :
    bindRowPerm i (permRow (unpackPerm i.imm i.c) i.c row) 0 i.c (some (unpackPerm i.imm i.c)) b =
      bindRowPerm i (permRow (unpackPerm i.imm i.c) i.c row) i.b i.c
        (some (unpackPerm i.imm i.c)) b := by
  obtain ⟨hle, hbound⟩ := hk
  simp only [hashTest, List.all_eq_true, List.mem_range, beq_iff_eq] at ht
  have hkeys : ∀ cols : List ℕ, (∀ pp ∈ cols, pp < i.b) →
      cols.foldlM (bindCol i (permRow (unpackPerm i.imm i.c) i.c row)
        (some (unpackPerm i.imm i.c))) b = some b := by
    intro cols
    induction cols with
    | nil => intro _; rfl
    | cons pp cols ih =>
      intro hcols
      have hpp : pp < i.b := hcols pp (by simp)
      have hcol : bindCol i (permRow (unpackPerm i.imm i.c) i.c row)
          (some (unpackPerm i.imm i.c)) b pp = some b := by
        unfold bindCol
        split
        · rfl
        · rw [getD_permRow (by omega), ← ht pp hpp]
          exact bTry_self (hbound pp hpp)
      rw [List.foldlM_cons, hcol]
      exact ih fun q hq => hcols q (by simp [hq])
  have hsplit : List.range' 0 (i.c - 0) = List.range' 0 i.b ++ List.range' i.b (i.c - i.b) := by
    have h := @List.range'_append 0 i.b (i.c - i.b) 1
    simp only [one_mul, zero_add] at h
    rw [h]
    congr 1
    omega
  rw [bindRowPerm_eq, bindRowPerm_eq, hsplit, List.foldlM_append,
    hkeys _ (fun pp hpp => by simp only [List.mem_range'_1] at hpp; omega)]
  rfl

theorem succs_hashJoin (hi : instrAt p ip = i) (hop : i.op = .hashJoin) (hS : SrcOk db ov S i)
    {b : Bindings} (hk : KeysBound i b) :
    ∃ L, succsVm p ip (execHashJoin db ov i b) = some L ∧
      ∀ b', b' ∈ L ↔ ∃ row ∈ S, rowMatch G i b row = some b' := by
  have hmatch : ∀ row b', rowMatch G i b row = some b' ↔ hashTest i b row = true ∧
      bindRowPerm i (permRow (unpackPerm i.imm i.c) i.c row) i.b i.c
        (some (unpackPerm i.imm i.c)) b = some b' := fun row b' => by
    simp only [rowMatch, hop]
    cases hashTest i b row <;> simp
  have hgo : ∀ all : TupleSet, (∀ x, x ∈ all.rows ↔ x ∈ S) →
      ∃ L, succsVm p ip (openFrame i i.b i.c b ⟨.hashJoin, ((TupleSet.init i.c).addAll
        (hashMatches i (unpackPerm i.imm i.c) i.b i.c b all.rows)).sort.rows, i.c, b,
        some (unpackPerm i.imm i.c), 0, 0, none⟩) = some L ∧
      ∀ b', b' ∈ L ↔ ∃ row ∈ S, rowMatch G i b row = some b' := by
    intro all hall
    have hrows : ∀ x, x ∈ ((TupleSet.init i.c).addAll
        (hashMatches i (unpackPerm i.imm i.c) i.b i.c b all.rows)).sort.rows ↔
        ∃ row ∈ S, hashTest i b row = true ∧ permRow (unpackPerm i.imm i.c) i.c row = x := by
      intro x
      simp only [TupleSet.mem_rows_sort, TupleSet.mem_rows_addAll, TupleSet.rows_init,
        List.not_mem_nil, false_or, hashMatches, List.mem_map, List.mem_filter, hall, hashTest,
        and_assoc]
    refine ⟨_, succsVm_openFrame hi (by simp) (fun x hx => ?_), fun b' => ?_⟩
    · obtain ⟨row, -, ht, rfl⟩ := (hrows x).mp hx
      exact bindRowPerm_hashJoin hk ht
    · simp only [List.mem_filterMap, hrows, hmatch]
      constructor
      · rintro ⟨_, ⟨row, hrow, ht, rfl⟩, hb⟩
        exact ⟨row, hrow, ht, hb⟩
      · rintro ⟨row, hrow, ht, hb⟩
        exact ⟨_, ⟨row, hrow, ht, rfl⟩, hb⟩
  simp only [SrcOk, hop, reduceCtorEq, if_false, atomArity, or_self] at hS
  unfold execHashJoin
  dsimp only
  cases hov : liveOv ov i.bodyIdx with
  | some ts =>
    rw [hov] at hS
    exact hgo _ fun x => by simp [hS.2.2]
  | none =>
    rw [hov] at hS
    obtain ⟨r, hr, hmem⟩ := hS
    simp only [hr]
    exact hgo _ fun x => by simp [← Dafsa.mem_def, hmem]

/-! ## Tests and builtins -/

/-- A column a negated atom tests. -/
def negCol (i : VmInstr) (b : Bindings) (j : ℕ) : Option Val :=
  if bOk b (i.slot j) then some (bGet b (i.slot j)) else none

theorem agree_iff {i : VmInstr} {b : Bindings} {row : Row} :
    ((List.range i.b).all fun j =>
        colOk (((List.range i.b).map (negCol i b)).getD j none) (row.getD j 0)) = true ↔
      ∀ j < i.b, bOk b (i.slot j) = true → row.getD j 0 = bGet b (i.slot j) := by
  simp only [List.all_eq_true, List.mem_range]
  refine forall₂_congr fun j hj => ?_
  have hget : ((List.range i.b).map (negCol i b)).getD j none = negCol i b j := by
    simp [hj]
  rw [hget]
  unfold negCol colOk
  cases bOk b (i.slot j) <;> simp

/-- A row that agrees with the tested columns starts with the leading ones. -/
theorem lead_prefix {cols : List (Option Val)} {row : Row} (hlen : row.length = cols.length)
    (h : ∀ j v, cols[j]? = some (some v) → row.getD j 0 = v) :
    ((cols.takeWhile Option.isSome).map fun v => v.getD 0) <+: row := by
  induction cols generalizing row with
  | nil => simp
  | cons c cols ih =>
    cases row with
    | nil => simp at hlen
    | cons x xs =>
      cases c with
      | none => simp
      | some v =>
        have hx : x = v := by simpa using h 0 v (by simp)
        have hrest := @ih xs (by simpa using hlen) fun j v hj => by
          simpa using h (j + 1) v (by simpa using hj)
        simpa [hx] using hrest

/-- When every column is tested, the row that agrees is the tested one. -/
theorem eq_of_agree {cols : List (Option Val)} {row : Row} (hlen : row.length = cols.length)
    (hall : ∀ c ∈ cols, c.isSome = true) :
    (∀ j v, cols[j]? = some (some v) → row.getD j 0 = v) ↔ row = cols.map fun v => v.getD 0 := by
  induction cols generalizing row with
  | nil => simp at hlen; simp [hlen]
  | cons c cols ih =>
    cases row with
    | nil => simp at hlen
    | cons x xs =>
      have hc := hall c (by simp)
      obtain ⟨v, rfl⟩ := Option.isSome_iff_exists.mp hc
      have ih' := @ih xs (by simpa using hlen) fun c hc => hall c (by simp [hc])
      simp only [List.map_cons, Option.getD_some, List.cons.injEq, ← ih']
      constructor
      · intro h
        exact ⟨by simpa using h 0 v (by simp), fun j w hj => by
          simpa using h (j + 1) w (by simpa using hj)⟩
      · rintro ⟨rfl, h⟩ j w hj
        cases j with
        | zero => simpa using hj
        | succ j => simpa using h j w (by simpa using hj)

/-- **The negation probe finds a row exactly when one agrees with the bound columns.** -/
theorem negHit_iff {r : Store} {V : Set Row} (hV : ∀ x, x ∈ r.view ↔ x ∈ V)
    (hlen : ∀ x ∈ r.view, x.length = i.b) (b : Bindings) :
    negHit r i b = true ↔ ¬ NegHolds V i b := by
  have hcols : ∀ row : Row,
      (∀ j < i.b, bOk b (i.slot j) = true → row.getD j 0 = bGet b (i.slot j)) ↔
        ∀ j v, ((List.range i.b).map (negCol i b))[j]? = some (some v) → row.getD j 0 = v := by
    intro row
    constructor
    · intro h j v hj
      obtain ⟨hlt, hv⟩ : j < i.b ∧ negCol i b j = some v := by
        rw [List.getElem?_map] at hj
        rcases Nat.lt_or_ge j i.b with hlt | hge
        · simp only [List.getElem?_range hlt, Option.map_some, Option.some.injEq] at hj
          exact ⟨hlt, hj⟩
        · simp [hge] at hj
      unfold negCol at hv
      split at hv
      · rename_i hok
        cases hv
        exact h j hlt hok
      · cases hv
    · intro h j hj hok
      refine h j _ ?_
      simp [hj, negCol, hok]
  unfold NegHolds
  rw [not_not]
  unfold negHit
  simp only [show ((List.range i.b).map fun j =>
    if bOk b (i.slot j) then some (bGet b (i.slot j)) else none) =
      (List.range i.b).map (negCol i b) from rfl]
  split
  · rename_i hall
    rw [List.all_eq_true] at hall
    rw [Dafsa.lookup_iff]
    constructor
    · intro hmem
      refine ⟨_, (hV _).mp hmem, (hcols _).mpr ?_⟩
      exact (eq_of_agree (by simp) hall).mpr rfl
    · rintro ⟨row, hrow, hagree⟩
      have hrow' := (hV row).mpr hrow
      rw [hcols, eq_of_agree (by simp [hlen row hrow']) hall] at hagree
      rw [← hagree]
      exact hrow'
  · simp only [List.any_eq_true, agree_iff, Dafsa.mem_scan]
    constructor
    · rintro ⟨row, ⟨hrow, -⟩, hagree⟩
      exact ⟨row, (hV row).mp hrow, hagree⟩
    · rintro ⟨row, hrow, hagree⟩
      have hrow' := (hV row).mpr hrow
      exact ⟨row, ⟨hrow', lead_prefix (by simp [hlen row hrow']) ((hcols row).mp hagree)⟩, hagree⟩

theorem execBuiltin_cases (tbl : SymTables) (i : VmInstr) (b : Bindings) :
    execBuiltin tbl i b = .fail ∨ ∃ b', execBuiltin tbl i b = .next b' := by
  have hpass : ∀ t, passIf t b = .fail ∨ ∃ b', passIf t b = .next b' := fun t => by
    cases t
    · exact .inl rfl
    · exact .inr ⟨b, rfl⟩
  have hbind : ∀ s v, bindResult b s v = .fail ∨ ∃ b', bindResult b s v = .next b' := by
    intro s v
    unfold bindResult
    cases v with
    | none => exact .inl rfl
    | some v =>
      simp only
      cases bTry b s v with
      | none => exact .inl rfl
      | some b' => exact .inr ⟨b', rfl⟩
  unfold execBuiltin
  split
  · split
    · exact hpass _
    all_goals exact .inr ⟨_, rfl⟩
  · split
    · exact hpass _
    · exact .inr ⟨_, rfl⟩
  all_goals first
    | exact hpass _
    | exact hbind _ _
    | exact .inr ⟨_, rfl⟩

theorem succs_builtin (p : List VmInstr) (ip : ℕ) (tbl : SymTables) (i : VmInstr) (b : Bindings) :
    ∃ L, succsVm p ip (execBuiltin tbl i b) = some L ∧
      ∀ b', b' ∈ L ↔ execBuiltin tbl i b = .next b' := by
  rcases execBuiltin_cases tbl i b with h | ⟨b₁, h⟩
  · exact ⟨[], by rw [h]; rfl, fun b' => by simp [h]⟩
  · exact ⟨[b₁], by rw [h]; rfl, fun b' => by simp [h, eq_comm]⟩

theorem succs_negCheck {r : Store} {V : Set Row} (hV : ∀ x, x ∈ r.view ↔ x ∈ V)
    (hlen : ∀ x ∈ r.view, x.length = i.b) (p : List VmInstr) (ip : ℕ) (b : Bindings) :
    ∃ L, succsVm p ip (passIf (!negHit r i b) b) = some L ∧
      ∀ b', b' ∈ L ↔ b' = b ∧ NegHolds V i b := by
  refine ⟨_, succsVm_passIf p ip _ b, fun b' => ?_⟩
  have h := negHit_iff hV hlen b
  cases hn : negHit r i b with
  | true => simp [h.mp hn]
  | false =>
    have hh : NegHolds V i b := by
      by_contra hcon
      rw [h.mpr hcon] at hn
      cases hn
    simp [hh]

theorem succs_listMember (hi : instrAt p ip = i) (tbl : SymTables)
    (b : Bindings) : ∃ L, succsVm p ip (execListMember tbl i 0 b) = some L ∧
      ∀ b', b' ∈ L ↔ MemberSucc tbl i b b' := by
  unfold execListMember MemberSucc
  dsimp only
  by_cases hno : bOk b i.a = false ∨ tbl.terms.isList (bGet b i.a) = false
  · rw [if_pos hno]
    refine ⟨[], rfl, fun b' => ?_⟩
    simp only [List.not_mem_nil, false_iff]
    rintro ⟨h₁, h₂, -⟩
    rcases hno with h | h
    · rw [h] at h₁; cases h₁
    · rw [h] at h₂; cases h₂
  · rw [if_neg hno]
    simp only [not_or, Bool.not_eq_false] at hno
    by_cases hb : bOk b i.b = true
    · simp only [hb, if_true, hno.1, hno.2, true_and]
      refine ⟨_, succsVm_passIf p ip _ b, fun b' => ?_⟩
      by_cases hc : bGet b i.b ∈ tbl.terms.elems (bGet b i.a)
      · simp [hc]
      · simp [hc]
    · simp only [hb, hno.1, hno.2, true_and, guardFrame_zero]
      refine ⟨_, succsVm_openFrame hi (by simp) (fun row _ => ?_), fun b' => ?_⟩
      · simp [VmFrame.startCol]
      · simp

/-- The first columns of sorted rows do not decrease. -/
theorem col0_le_of_rowLt {x y : Row} (h : rowLt x y = true) : x.getD 0 0 ≤ y.getD 0 0 := by
  cases x with
  | nil => simp
  | cons a as =>
    cases y with
    | nil => simp at h
    | cons b bs =>
      rw [rowLt_cons] at h
      split at h
      · rename_i hab; simp [hab]
      · simpa using UInt32.le_of_lt (by simpa using h)

/-- A range over sorted rows yields the values of the first column in `[lo, hi)`. -/
theorem mem_rangeAlts (s : ℕ) (b : Bindings) (lo hi : Val) {rows : List Row}
    (hs : rows.Pairwise fun x y => rowLt x y = true) (last : Option Val) (b' : Bindings) :
    (b' ∈ rangeAlts s b lo hi last rows → ∃ row ∈ rows, lo ≤ row.getD 0 0 ∧ row.getD 0 0 < hi ∧
      b' = (bTry b s (row.getD 0 0)).getD b) ∧
    (∀ row ∈ rows, lo ≤ row.getD 0 0 → row.getD 0 0 < hi → last ≠ some (row.getD 0 0) →
      (bTry b s (row.getD 0 0)).getD b ∈ rangeAlts s b lo hi last rows) := by
  induction rows generalizing last with
  | nil => simp [rangeAlts]
  | cons row rows ih =>
    obtain ⟨hrow, hs'⟩ := List.pairwise_cons.mp hs
    unfold rangeAlts
    by_cases hlo : row.getD 0 0 < lo
    · simp only [hlo, if_true]
      refine ⟨fun h => ?_, fun x hx hlx hxh hne => ?_⟩
      · obtain ⟨x, hx, h⟩ := (ih hs' last).1 h
        exact ⟨x, by simp [hx], h⟩
      · rcases List.mem_cons.mp hx with rfl | hx
        · exact absurd hlo (UInt32.not_lt.mpr hlx)
        · exact (ih hs' last).2 x hx hlx hxh hne
    · simp only [hlo, if_false]
      by_cases hhi : hi ≤ row.getD 0 0
      · simp only [hhi, if_true, List.not_mem_nil, false_imp_iff, true_and]
        intro x hx hlx hxh
        have hle : row.getD 0 0 ≤ x.getD 0 0 := by
          rcases List.mem_cons.mp hx with rfl | hx
          · exact UInt32.le_refl _
          · exact col0_le_of_rowLt (hrow x hx)
        exact absurd hxh (UInt32.not_lt.mpr (UInt32.le_trans hhi hle))
      · simp only [hhi, if_false]
        by_cases hlast : last = some (row.getD 0 0)
        · simp only [hlast, if_true]
          refine ⟨fun h => ?_, fun x hx hlx hxh hne => ?_⟩
          · obtain ⟨x, hx, h⟩ := (ih hs' _).1 h
            exact ⟨x, by simp [hx], h⟩
          · rcases List.mem_cons.mp hx with rfl | hx
            · exact absurd rfl hne
            · exact (ih hs' _).2 x hx hlx hxh hne
        · simp only [hlast, if_false]
          refine ⟨fun h => ?_, fun x hx hlx hxh _ => ?_⟩
          · rcases List.mem_cons.mp h with rfl | h
            · exact ⟨row, by simp, UInt32.not_lt.mp hlo, UInt32.not_le.mp hhi, rfl⟩
            · obtain ⟨x, hx, h⟩ := (ih hs' _).1 h
              exact ⟨x, by simp [hx], h⟩
          · rcases List.mem_cons.mp hx with rfl | hx
            · simp
            · by_cases heq : row.getD 0 0 = x.getD 0 0
              · rw [← heq]; simp
              · exact List.mem_cons_of_mem _
                  ((ih hs' _).2 x hx hlx hxh fun h => heq (Option.some.inj h))

theorem succs_range (hi : instrAt p ip = i) {e : RelEntry}
    (he : db.rels[i.imm.toNat]? = some e) {V : Set Row} (hV : ∀ x, x ∈ e.store.view ↔ x ∈ V)
    (b : Bindings) : ∃ L, succsVm p ip (execRangeOp db i 0 b) = some L ∧
      ∀ b', b' ∈ L ↔ RangeSucc V i b b' := by
  unfold execRangeOp RangeSucc
  simp only [he]
  by_cases hc : bOk b i.c = true
  · simp only [hc, if_true]
    refine ⟨_, succsVm_passIf p ip _ b, fun b' => ?_⟩
    have hne : (!(e.store.view.scan [bGet b i.c]).isEmpty) = true ↔
        ∃ row ∈ V, [bGet b i.c] <+: row := by
      rw [Bool.not_eq_true', List.isEmpty_eq_false_iff_exists_mem]
      simp only [Dafsa.mem_scan, hV]
    by_cases h : bGet b i.a ≤ bGet b i.c ∧ bGet b i.c < bGet b i.b ∧ ∃ row ∈ V,
        [bGet b i.c] <+: row
    · simp [h, hne.mpr h.2.2]
    · have hfalse : (decide (bGet b i.a ≤ bGet b i.c) && decide (bGet b i.c < bGet b i.b) &&
          !(e.store.view.scan [bGet b i.c]).isEmpty) = false := by
        by_contra hcon
        simp only [Bool.not_eq_false, Bool.and_eq_true, decide_eq_true_eq] at hcon
        exact h ⟨hcon.1.1, hcon.1.2, hne.mp hcon.2⟩
      simp [hfalse, h]
  · simp only [hc, guardFrame_zero]
    refine ⟨rangeAlts (i.slot 0) b (bGet b i.a) (bGet b i.b) none (e.store.view.scan []), ?_,
      fun b' => ?_⟩
    · rw [rangeAlts_eq]
      cases rangeResume (i.slot 0) b (bGet b i.a) (bGet b i.b) none (e.store.view.scan []) with
      | none => rfl
      | some r =>
        obtain ⟨b', v, rest⟩ := r
        have hinstr : p.getD ip ⟨.halt, 0, 0, 0, 0, [], 0⟩ = i := hi
        simp only [succsVm, frameAlts, hinstr, if_true, Bool.false_eq_true, if_false]
    have hsorted : (e.store.view.scan []).Pairwise fun x y => rowLt x y = true := by
      rw [Dafsa.scan_nil]; exact e.store.view.sorted
    have hmem : ∀ x, x ∈ e.store.view.scan [] ↔ x ∈ V := fun x => by
      rw [Dafsa.scan_nil, ← Dafsa.mem_def, hV]
    have h := mem_rangeAlts (i.slot 0) b (bGet b i.a) (bGet b i.b)
      hsorted none b'
    constructor
    · intro hb
      obtain ⟨row, hrow, hrest⟩ := h.1 hb
      exact ⟨row, (hmem row).mp hrow, hrest⟩
    · rintro ⟨row, hrow, hlo, hhi, rfl⟩
      exact h.2 row ((hmem row).mpr hrow) hlo hhi (by simp)

/-- The buffers of a join hold these rows. -/
structure PoolOk (pool : List TupleSet) (i : VmInstr) (L R : Set Row) (arL arR : ℕ) : Prop where
  /-- The buffers are filled, and wide enough for the shared columns. -/
  bufs : ∃ l r, pool[i.a]? = some l ∧ pool[i.b]? = some r ∧ l.arity = arL ∧ r.arity = arR ∧
    (∀ x, x ∈ l.rows ↔ x ∈ L) ∧ ∀ x, x ∈ r.rows ↔ x ∈ R
  /-- The widths a join accepts. -/
  widths : 0 < arL ∧ 0 < arR ∧ i.c ≤ arL ∧ i.c ≤ arR ∧ i.c + (arL - i.c) + (arR - i.c) ≤ maxArity

theorem succs_matJoin (hi : instrAt p ip = i) {pool : List TupleSet} {L R : Set Row}
    {arL arR : ℕ} (hpool : PoolOk pool i L R arL arR) (b : Bindings) :
    ∃ L', succsVm p ip (execMatJoin pool i 0 b) = some L' ∧
      ∀ b', b' ∈ L' ↔ ∃ row ∈ Plan.joinSet i.c L R,
        bindRowPerm i row 0 (i.c + (arL - i.c) + (arR - i.c)) none b = some b' := by
  obtain ⟨⟨l, r, hl, hr, harL, harR, hmemL, hmemR⟩, hw⟩ := hpool
  subst harL harR
  have hrows : ∀ x, x ∈ matJoinBuild l r i.c ↔ x ∈ Plan.joinSet i.c L R := by
    intro x
    simp only [matJoinBuild, List.mem_flatMap, List.mem_map, List.mem_filter, List.mem_reverse,
      beq_iff_eq, hmemL, hmemR, Plan.joinSet, Set.mem_ofPred_eq]
    constructor
    · rintro ⟨lrow, hlrow, rrow, ⟨hrrow, ht⟩, rfl⟩
      exact ⟨lrow, hlrow, rrow, hrrow, ht, rfl⟩
    · rintro ⟨lrow, hlrow, rrow, hrrow, ht, rfl⟩
      exact ⟨lrow, hlrow, rrow, ⟨hrrow, ht⟩, rfl⟩
  unfold execMatJoin
  simp only [hl, hr]
  rw [if_neg (by omega), if_neg (by omega), guardFrame_zero]
  refine ⟨_, succsVm_openFrame hi (by simp) (fun row _ => by simp [VmFrame.startCol]), fun b' => ?_⟩
  simp only [List.mem_filterMap, hrows]

end DatalogDafsa
