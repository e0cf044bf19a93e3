import DatalogDafsa.Eval.Joins

/-!
# The rounds of a recursive stratum

Each round fires every recursive rule once for each body atom over a recursive head,
with that atom reading the rows of the last round and the other recursive atoms all
rows derived so far.  A set without rows is no override: the atom then falls back to
the view of its relation, which during the rounds holds what it held before.

What carries the rounds is that a derivable row that is still missing reads a row of
the last round.  It needs that a rule with two recursive atoms finds in the derived
rows all the rows of the view.

## Main definitions

* `rdRows`, `full` — the rows of the tuple sets, and what is known to hold.
* `roundSrc`, `srcOk_round` — what the atoms of a rule read in a round.
* `Rounds` — the invariant; `fixRound_spec` and `fixLoop_spec` are one round and all.
-/

namespace DatalogDafsa

open Backtrack Operators Worklist

/-! ## Tuple sets by relation -/

/-- The rows that one of the tuple sets of the heads holds. -/
def rdRows (g : RdT → TupleSet) (rd : List RdT) (s : ℕ) : Set Row :=
  {x | ∃ r ∈ rd, r.relId = s ∧ x ∈ (g r).rows}

theorem rdFind_eq_some {rd : List RdT} (hnd : (rd.map RdT.relId).Nodup) {id : ℕ} {r : RdT} :
    rdFind rd id = some r ↔ r ∈ rd ∧ r.relId = id := by
  constructor
  · intro h
    have hid := List.find?_some h
    exact ⟨List.mem_of_find?_eq_some h, by simpa using hid⟩
  · rintro ⟨hr, rfl⟩
    cases hf : rdFind rd r.relId with
    | none =>
      have hno := List.find?_eq_none.mp hf r hr
      simp at hno
    | some r' =>
      have hid : r'.relId = r.relId := by simpa using List.find?_some hf
      have hmem := List.mem_of_find?_eq_some hf
      exact congrArg some (List.inj_on_of_nodup_map hnd hmem hr hid)

theorem rdFind_eq_none {rd : List RdT} {id : ℕ} :
    rdFind rd id = none ↔ id ∉ rd.map RdT.relId := by
  unfold rdFind
  simp only [List.find?_eq_none, decide_eq_true_eq, List.mem_map, not_exists, not_and]

theorem rdRows_of_find {rd : List RdT} (hnd : (rd.map RdT.relId).Nodup) {id : ℕ} {r : RdT}
    (h : rdFind rd id = some r) (g : RdT → TupleSet) : rdRows g rd id = {x | x ∈ (g r).rows} := by
  ext x
  constructor
  · rintro ⟨r', hr', hid, hx⟩
    have heq := (rdFind_eq_some hnd).mpr ⟨hr', hid⟩
    rw [h] at heq
    cases heq
    exact hx
  · intro hx
    obtain ⟨hr, hid⟩ := (rdFind_eq_some hnd).mp h
    exact ⟨r, hr, hid, hx⟩

theorem rdRows_of_none {rd : List RdT} {id : ℕ} (h : id ∉ rd.map RdT.relId) (g : RdT → TupleSet) :
    rdRows g rd id = ∅ := by
  refine Set.eq_empty_of_forall_notMem ?_
  rintro x ⟨r, hr, rfl, -⟩
  exact h (List.mem_map_of_mem hr)

theorem mem_rdModify {rd : List RdT} {id : ℕ} {f : RdT → RdT} {r' : RdT} :
    r' ∈ rdModify rd id f ↔ ∃ r ∈ rd, (if r.relId = id then f r else r) = r' := List.mem_map

theorem rdRows_congr {rd : List RdT} {g g' : RdT → TupleSet}
    (h : ∀ r ∈ rd, ∀ x, x ∈ (g r).rows ↔ x ∈ (g' r).rows) (s : ℕ) :
    rdRows g rd s = rdRows g' rd s := by
  ext x
  exact exists_congr fun r => and_congr_right fun hr => and_congr_right fun _ => h r hr x

theorem rdRows_map {rd : List RdT} {f : RdT → RdT} (hf : ∀ r, (f r).relId = r.relId)
    (g : RdT → TupleSet) (s : ℕ) : rdRows g (rd.map f) s = rdRows (fun r => g (f r)) rd s := by
  ext x
  constructor
  · rintro ⟨r', hr', hid, hx⟩
    obtain ⟨r, hr, rfl⟩ := List.mem_map.mp hr'
    exact ⟨r, hr, (hf r).symm.trans hid, hx⟩
  · rintro ⟨r, hr, hid, hx⟩
    exact ⟨f r, List.mem_map_of_mem hr, (hf r).trans hid, hx⟩

theorem rdFind_map {rd : List RdT} {f : RdT → RdT} (hf : ∀ r, (f r).relId = r.relId) (id : ℕ) :
    rdFind (rd.map f) id = (rdFind rd id).map f := by
  unfold rdFind
  rw [List.find?_map]
  congr 2
  funext r
  simp [hf]

theorem relId_map {rd : List RdT} {f : RdT → RdT} (hf : ∀ r, (f r).relId = r.relId) :
    (rd.map f).map RdT.relId = rd.map RdT.relId := by
  rw [List.map_map]
  exact List.map_congr_left fun r _ => hf r

/-! ## What the atoms of a rule read -/

/-- What holds of the tuple sets of a head. -/
structure RdT.Ok (σ : Schema) (r : RdT) : Prop where
  /-- The arity is that of the relation. -/
  arity : σ.arities[r.relId]? = some r.arity
  /-- So are those of the sets. -/
  arities : r.idb.arity = r.arity ∧ r.delta.arity = r.arity ∧ r.nextDelta.arity = r.arity
  /-- Rows have this arity. -/
  width : ∀ x ∈ r.idb.rows, x.length = r.arity
  /-- The rows of the last round are in key order. -/
  sorted : r.delta.Sorted
  /-- They are among the rows derived so far. -/
  sub : ∀ x ∈ r.delta.rows, x ∈ r.idb.rows
  /-- So are the rows to add. -/
  added : ∀ x ∈ r.added.rows, x ∈ r.idb.rows

/-- The permuted rows are those of the rows derived so far. -/
def ShadowsOk (db : Db) (rd : List RdT) (shadows : List PermShadow) : Prop :=
  ∀ id n pe r, db.getPerm id n = some pe → rdFind rd id = some r →
    ∃ sh, (shadows.find? fun s => s.relId = id ∧ s.permId = n) = some sh ∧ sh.ts.Sorted ∧
      sh.ts.arity = pe.arity ∧
      ∀ x, x ∈ sh.ts.rows ↔ ∃ y ∈ r.idb.rows, permRow pe.perm pe.arity y = x

theorem rebuildPermShadows_ok (db : Db) (rd : List RdT) :
    ShadowsOk db rd (rebuildPermShadows db rd) := by
  intro id n pe r hpe hr
  have hpn : db.perms[n]? = some pe ∧ pe.relId = id := by
    unfold Db.getPerm at hpe
    cases hp : db.perms[n]? with
    | none => rw [hp] at hpe; cases hpe
    | some pe' =>
      rw [hp] at hpe
      dsimp only at hpe
      split at hpe
      · rename_i hid
        cases hpe
        exact ⟨rfl, hid⟩
      · cases hpe
  obtain ⟨hget, rfl⟩ := hpn
  have hmem : ∀ sh, sh ∈ rebuildPermShadows db rd ↔ ∃ pe' k, db.perms[k]? = some pe' ∧
      ∃ r', rdFind rd pe'.relId = some r' ∧ sh = ⟨pe'.relId, k, ((TupleSet.init pe'.arity).addAll
        (r'.idb.rows.map (permRow pe'.perm pe'.arity))).sort⟩ := by
    intro sh
    simp only [rebuildPermShadows, List.mem_filterMap, Option.map_eq_some_iff]
    constructor
    · rintro ⟨⟨pe', k⟩, hk, r', hr', rfl⟩
      exact ⟨pe', k, List.mem_zipIdx_iff_getElem?.mp hk, r', hr', rfl⟩
    · rintro ⟨pe', k, hk, r', hr', rfl⟩
      exact ⟨(pe', k), List.mem_zipIdx_iff_getElem?.mpr hk, r', hr', rfl⟩
  cases hf : (rebuildPermShadows db rd).find? fun s => s.relId = pe.relId ∧ s.permId = n with
  | none =>
    have hin := (hmem _).mpr ⟨pe, n, hget, r, hr, rfl⟩
    have hno := List.find?_eq_none.mp hf _ hin
    simp at hno
  | some sh =>
    have hkey := List.find?_some hf
    obtain ⟨pe', k, hk, r', hr', rfl⟩ := (hmem sh).mp (List.mem_of_find?_eq_some hf)
    simp only [decide_eq_true_eq] at hkey
    obtain ⟨hrel, rfl⟩ := hkey
    rw [hget] at hk
    cases hk
    rw [hr] at hr'
    cases hr'
    exact ⟨_, rfl, TupleSet.sorted_sort _, by simp, fun x => by simp⟩

/-- The tuple set of an atom in a round where `i` reads the rows of the last round. -/
def roundSet (i j : VmInstr) (r : RdT) : TupleSet :=
  if j.op ≠ .lookupPerm ∧ j.bodyIdx = i.bodyIdx ∧ j.a = i.a then r.delta else r.idb

/-- What the atom reads. -/
def roundSrc (V : ℕ → Set Row) (rd : List RdT) (i j : VmInstr) : Set Row :=
  match rdFind rd j.a with
  | none => V j.a
  | some r => if (roundSet i j r).rows = [] then V j.a else {x | x ∈ (roundSet i j r).rows}

/-- The overrides hold for each atom what `overrideFor` says. -/
theorem findOv_overridesFor {cr : CompiledRule} {P : Plan} (hone : P.OneEach)
    (htidy : Tidy cr (.plan P)) (hmem : ∀ j ∈ P.atoms, j ∈ cr.instrs) (rd : List RdT)
    (shadows : List PermShadow) (i : VmInstr) {j : VmInstr} (hj : j ∈ P.atoms) :
    findOv (overridesFor rd shadows cr i) j.bodyIdx =
      (overrideFor rd shadows i j).map VmOverride.ts := by
  have hidx : ∀ k o, overrideFor rd shadows i k = some o →
      driverFeeds k.op = true ∧ o.bodyIdx = k.bodyIdx := by
    intro k o ho
    unfold overrideFor at ho
    split at ho
    · cases ho
    · rename_i hf
      refine ⟨by simpa using hf, ?_⟩
      obtain ⟨r, -, rfl⟩ := Option.map_eq_some_iff.mp ho
      split
      · rfl
      · split <;> rfl
  unfold findOv
  congr 1
  cases hf : (overridesFor rd shadows cr i).find? fun o => o.bodyIdx = j.bodyIdx with
  | none =>
    cases ho : overrideFor rd shadows i j with
    | none => rfl
    | some o =>
      have hin : o ∈ overridesFor rd shadows cr i :=
        List.mem_filterMap.mpr ⟨j, hmem j hj, ho⟩
      have hno := List.find?_eq_none.mp hf o hin
      simp [(hidx j o ho).2] at hno
  | some o =>
    have hkey : o.bodyIdx = j.bodyIdx := by simpa using List.find?_some hf
    obtain ⟨k, hk, ho⟩ := List.mem_filterMap.mp (List.mem_of_find?_eq_some hf)
    obtain ⟨hfeeds, hb⟩ := hidx k o ho
    obtain rfl := List.inj_on_of_nodup_map hone (htidy k hk hfeeds) hj (hb.symm.trans hkey)
    exact ho.symm

section Round

variable {db : Db} {cr : CompiledRule} {P : Plan}

/-- **What the atoms read in a round.** -/
theorem srcOk_round (hdb : db.Ok) (h : RuleOk db.schema cr P) (htidy : Tidy cr (.plan P))
    {rd : List RdT} (hnd : (rd.map RdT.relId).Nodup) (hok : ∀ r ∈ rd, r.Ok db.schema)
    {shadows : List PermShadow} (hsh : ShadowsOk db rd shadows) {i j : VmInstr}
    (hj : j ∈ P.atoms)
    (hsort : j.op = .lookup → ¬ (j.bodyIdx = i.bodyIdx ∧ j.a = i.a) →
      ∀ r, rdFind rd j.a = some r → r.idb.Sorted) :
    SrcOk db (overridesFor rd shadows cr i) (roundSrc db.contents rd i j) j := by
  obtain ⟨hjin, hf⟩ := Plan.mem_instrs_of_atoms hj
  have hfind := findOv_overridesFor h.oneEach htidy (fun k hk => h.mem_instrs hk) rd shadows i hj
  have har := h.reads.atoms j hjin hf
  have hnone : liveOv (overridesFor rd shadows cr i) j.bodyIdx = none →
      SrcOk db (overridesFor rd shadows cr i) (db.contents j.a) j :=
    fun hl => srcOk_view hdb h.reads hjin hf hl
  unfold roundSrc
  cases hr : rdFind rd j.a with
  | none =>
    refine hnone ?_
    unfold liveOv
    rw [hfind, overrideFor, hr]
    simp
  | some r =>
    obtain ⟨hrin, hrel⟩ := (rdFind_eq_some hnd).mp hr
    have hrok := hok r hrin
    have harity : r.arity = atomArity j := by
      have hra := hrok.arity
      rw [hrel, har] at hra
      exact (Option.some.inj hra).symm
    dsimp only
    by_cases hop : j.op = .lookupPerm
    · -- an atom that reads the permuted rows, of the delta position or not
      obtain ⟨perm, hperm⟩ := h.reads.perms j hjin hop
      rw [Db.schema_getPerm, Option.map_eq_some_iff] at hperm
      obtain ⟨pe, hpe, heq⟩ := hperm
      simp only [Prod.mk.injEq] at heq
      obtain ⟨sh, hshf, hssort, hsar, hsrows⟩ := hsh j.a j.imm.toNat pe r hpe hr
      have hov : findOv (overridesFor rd shadows cr i) j.bodyIdx = some sh.ts := by
        rw [hfind, overrideFor, hr, hf]
        simp only [Bool.not_true, Bool.false_eq_true, if_false, Option.map_some, hop, if_true, hshf]
      have hidb : roundSet i j r = r.idb := if_neg fun hc => hc.1 hop
      rw [hidb]
      have hempty : sh.ts.rows = [] ↔ r.idb.rows = [] := by
        simp only [List.eq_nil_iff_forall_not_mem, hsrows]
        constructor
        · exact fun hno y hy => hno _ ⟨y, hy, rfl⟩
        · rintro hno x ⟨y, hy, -⟩
          exact hno y hy
      by_cases hnil : r.idb.rows = []
      · rw [if_pos hnil]
        refine hnone ?_
        unfold liveOv
        rw [hov]
        simp [hempty.mpr hnil]
      · rw [if_neg hnil]
        unfold SrcOk
        rw [if_pos hop]
        have hlive : liveOv (overridesFor rd shadows cr i) j.bodyIdx = some sh.ts := by
          unfold liveOv
          rw [hov]
          simp [mt hempty.mp hnil]
        refine ⟨pe, hpe, ?_⟩
        rw [hlive]
        refine ⟨hssort, hsar.trans heq.1, fun x => ?_⟩
        rw [hsrows, heq.1]
        rfl
    · -- an atom that reads the rows of the last round, or all derived rows
      set ts := roundSet i j r with hts
      have hov : findOv (overridesFor rd shadows cr i) j.bodyIdx = some ts := by
        rw [hfind, overrideFor, hr, hf]
        simp only [Bool.not_true, Bool.false_eq_true, if_false, Option.map_some, hop, hts,
          roundSet, ne_eq, not_false_eq_true, true_and]
        split <;> rfl
      have htsar : ts.arity = atomArity j := by
        rw [hts, ← harity, roundSet]
        split
        · exact hrok.arities.2.1
        · exact hrok.arities.1
      have htssort : j.op = .lookup → ts.Sorted := by
        intro hl
        rw [hts, roundSet]
        by_cases hpos : j.bodyIdx = i.bodyIdx ∧ j.a = i.a
        · rw [if_pos ⟨hop, hpos⟩]
          exact hrok.sorted
        · rw [if_neg (fun hc => hpos hc.2)]
          exact hsort hl hpos r hr
      by_cases hnil : ts.rows = []
      · rw [if_pos hnil]
        refine hnone ?_
        unfold liveOv
        rw [hov]
        simp [hnil]
      · rw [if_neg hnil]
        unfold SrcOk
        have hlive : liveOv (overridesFor rd shadows cr i) j.bodyIdx = some ts := by
          unfold liveOv
          rw [hov]
          simp [hnil]
        rw [if_neg hop, hlive]
        exact ⟨htsar, htssort, fun x => Iff.rfl⟩

end Round

/-! ## The invariant of the rounds -/

/-- What is known to hold: the views and the rows derived so far. -/
def full (db : Db) (rd : List RdT) (s : ℕ) : Set Row := db.contents s ∪ rdRows RdT.idb rd s

/-- The recursive rules as joins. -/
def recJoins (σ : Schema) (rules : List CompiledRule) (ms : CompiledRule → RuleMeaning)
    (N : ℕ → Set Row) : Set (Join ℕ Row) :=
  {r | ∃ cr ∈ rules, cr.isRecursive = true ∧ ∃ P, ms cr = .plan P ∧ r = planJoin σ cr P N}

/-- What is asked of a recursive rule. -/
structure RecRule (σ : Schema) (heads : List ℕ) (cr : CompiledRule) (P : Plan) : Prop where
  /-- The bytecode spells the plan. -/
  ok : RuleOk σ cr P
  /-- It has no atoms but those of the plan. -/
  tidy : Tidy cr (.plan P)
  /-- Recursive heads are neither negated nor ranged over. -/
  strict : ∀ id ∈ Plan.strictReads P.instrs, id ∉ heads
  /-- The head is one of the recursive heads. -/
  head : cr.headRelId ∈ heads

section Rounds

variable {rules : List CompiledRule} {ms : CompiledRule → RuleMeaning}

/-- Contents that hold the views and are closed under the recursive rules. -/
def Above (rules : List CompiledRule) (ms : CompiledRule → RuleMeaning) (db : Db)
    (M : ℕ → Set Row) : Prop :=
  (∀ s, db.contents s ⊆ M s) ∧
    ∀ r ∈ recJoins db.schema rules ms db.contents, r.out M ⊆ M r.head

/-- What holds between two rounds. -/
structure Rounds (rules : List CompiledRule) (ms : CompiledRule → RuleMeaning) (ivm : Bool)
    (db : Db) (rd : List RdT) : Prop where
  /-- There are tuple sets for each recursive head. -/
  heads : rd.map RdT.relId = recHeads rules
  /-- They are sound. -/
  ok : ∀ r ∈ rd, r.Ok db.schema
  /-- Nothing is derived wrongly. -/
  le : ∀ M, Above rules ms db M → ∀ s, full db rd s ⊆ M s
  /-- What is missing reads a row of the last round. -/
  covered : Covered (recJoins db.schema rules ms db.contents)
    (fun _ a x => x ∈ rdRows RdT.delta rd a.2) (full db rd)
  /-- A rule with two recursive atoms finds the rows of the views in the derived rows. -/
  seen : ∀ cr ∈ rules, cr.isRecursive = true → ∀ P, ms cr = .plan P → ∀ i ∈ P.atoms,
    ∀ j ∈ P.atoms, i ≠ j → i.a ∈ recHeads rules → j.a ∈ recHeads rules →
      db.contents j.a ⊆ rdRows RdT.idb rd j.a
  /-- An incremental run lists what it adds to the views. -/
  kept : ivm = true → ∀ s, rdRows RdT.idb rd s ⊆ db.contents s ∪ rdRows RdT.added rd s

theorem nodup_recHeads (rules : List CompiledRule) : (recHeads rules).Nodup :=
  List.nodup_reverse.mpr (List.nodup_dedup _)

theorem mem_recHeads {id : ℕ} : id ∈ recHeads rules ↔
    (∃ cr ∈ rules, cr.isRecursive = true ∧ cr.headRelId = id) ∧ id < maxRels := by
  simp only [recHeads, List.mem_reverse, List.mem_dedup, List.mem_filter, List.mem_map,
    decide_eq_true_eq, and_assoc]

theorem Rounds.nodup {ivm : Bool} {db : Db} {rd : List RdT} (h : Rounds rules ms ivm db rd) :
    (rd.map RdT.relId).Nodup := h.heads ▸ nodup_recHeads rules

/-- The invariant is about the heads and the rows. -/
theorem Rounds.congr {ivm : Bool} {db : Db} {rd rd' : List RdT} (h : Rounds rules ms ivm db rd)
    (hheads : rd'.map RdT.relId = rd.map RdT.relId) (hok : ∀ r ∈ rd', r.Ok db.schema)
    (hidb : ∀ s, rdRows RdT.idb rd' s = rdRows RdT.idb rd s)
    (hdelta : ∀ s, rdRows RdT.delta rd' s = rdRows RdT.delta rd s)
    (hadded : ∀ s, rdRows RdT.added rd' s = rdRows RdT.added rd s) :
    Rounds rules ms ivm db rd' := by
  have hfull : full db rd' = full db rd := by
    funext s
    rw [full, full, hidb]
  exact
    { heads := hheads.trans h.heads
      ok := hok
      le := fun M hM s => by
        rw [hfull]
        exact h.le M hM s
      covered := by
        rw [hfull]
        simp only [hdelta]
        exact h.covered
      seen := fun cr hcr hrec P hm i hi j hj hij hia hja => by
        rw [hidb]
        exact h.seen cr hcr hrec P hm i hi j hj hij hia hja
      kept := fun hivm s => by
        rw [hidb, hadded]
        exact h.kept hivm s }

/-! ## One firing -/

/-- A round never reads more than is known to hold. -/
theorem roundSrc_subset {db : Db} {rd : List RdT} (hnd : (rd.map RdT.relId).Nodup)
    (hok : ∀ r ∈ rd, r.Ok db.schema) (i j : VmInstr) :
    roundSrc db.contents rd i j ⊆ full db rd j.a := by
  unfold roundSrc
  cases hr : rdFind rd j.a with
  | none => exact Set.subset_union_left
  | some r =>
    obtain ⟨hrin, hrel⟩ := (rdFind_eq_some hnd).mp hr
    have hsub : ∀ x ∈ (roundSet i j r).rows, x ∈ r.idb.rows := by
      unfold roundSet
      split
      · exact (hok r hrin).sub
      · exact fun x hx => hx
    dsimp only
    intro x hx
    split at hx
    · exact .inl hx
    · exact .inr ⟨r, hrin, hrel, hsub x hx⟩

/-- **A round reads what is known to hold**, when one atom reads a row of the last
round. -/
theorem mem_roundSrc {ivm : Bool} {db : Db} {rd : List RdT} (h : Rounds rules ms ivm db rd)
    {cr : CompiledRule} (hcr : cr ∈ rules) (hrec : cr.isRecursive = true) {P : Plan}
    (hm : ms cr = .plan P) {i j : VmInstr} (hi : i ∈ P.atoms) (hj : j ∈ P.atoms)
    (hone : P.OneEach) {ρ : ℕ → Row} (hdelta : ρ i.bodyIdx ∈ rdRows RdT.delta rd i.a)
    (hread : ρ j.bodyIdx ∈ full db rd j.a) :
    ρ j.bodyIdx ∈ roundSrc db.contents rd i j := by
  unfold roundSrc
  cases hr : rdFind rd j.a with
  | none =>
    rcases hread with hview | ⟨r, hrin, hrel, -⟩
    · exact hview
    · have hin := List.mem_map_of_mem (f := RdT.relId) hrin
      rw [hrel] at hin
      exact absurd hin (rdFind_eq_none.mp hr)
  | some r =>
    obtain ⟨hrin, hrel⟩ := (rdFind_eq_some h.nodup).mp hr
    have hset : ρ j.bodyIdx ∈ (roundSet i j r).rows := by
      by_cases hij : i = j
      · -- the atom that reads the last round
        subst hij
        rw [rdRows_of_find h.nodup hr] at hdelta
        unfold roundSet
        split
        · exact hdelta
        · exact (h.ok r hrin).sub _ hdelta
      · have hpos : ¬ (j.op ≠ .lookupPerm ∧ j.bodyIdx = i.bodyIdx ∧ j.a = i.a) := fun hc =>
          hij (List.inj_on_of_nodup_map hone hi hj hc.2.1.symm)
        obtain ⟨r', hr', hrel', -⟩ := hdelta
        have hiin : i.a ∈ recHeads rules := by
          rw [← h.heads, ← hrel']
          exact List.mem_map_of_mem hr'
        have hjin : j.a ∈ recHeads rules := by
          rw [← h.heads, ← hrel]
          exact List.mem_map_of_mem hrin
        have hidb : ρ j.bodyIdx ∈ rdRows RdT.idb rd j.a := by
          rcases hread with hview | hidb
          · exact h.seen cr hcr hrec P hm i hi j hj hij hiin hjin hview
          · exact hidb
        rw [rdRows_of_find h.nodup hr] at hidb
        rw [roundSet, if_neg hpos]
        exact hidb
    dsimp only
    rw [if_neg (List.ne_nil_of_mem hset)]
    exact hset

/-- A rule that looks up one recursive head while another of its atoms reads the last
round has its derived rows sorted. -/
theorem needIdbSort_of_lookup {rd : List RdT} (hheads : rd.map RdT.relId = recHeads rules)
    {cr : CompiledRule} (hcr : cr ∈ rules) (hrec : cr.isRecursive = true) {i j : VmInstr}
    (hi : i ∈ cr.instrs) (hj : j ∈ cr.instrs) (hij : i ≠ j) (hfi : driverFeeds i.op = true)
    (hia : i.a ∈ recHeads rules) (hja : j.a ∈ recHeads rules) (hop : j.op = .lookup) :
    needIdbSort rules rd = true := by
  have hsome : ∀ k : VmInstr, k.a ∈ recHeads rules → (rdFind rd k.a).isSome = true := by
    intro k hk
    rw [Option.isSome_iff_ne_none]
    intro hnone
    exact rdFind_eq_none.mp hnone (hheads ▸ hk)
  have hfj : driverFeeds j.op = true := by rw [hop]; rfl
  refine List.any_eq_true.mpr ⟨cr, List.mem_filter.mpr ⟨hcr, hrec⟩, ?_⟩
  set atoms := cr.instrs.filter fun i => driverFeeds i.op && (rdFind rd i.a).isSome
  have hii : i ∈ atoms := List.mem_filter.mpr ⟨hi, by rw [hfi, hsome i hia]; rfl⟩
  have hjj : j ∈ atoms := List.mem_filter.mpr ⟨hj, by rw [hfj, hsome j hja]; rfl⟩
  have hlen : 2 ≤ atoms.length := by
    by_contra hlt
    rcases hatoms : atoms with _ | ⟨k, _ | ⟨l, rest⟩⟩
    · rw [hatoms] at hii
      cases hii
    · rw [hatoms] at hii hjj
      exact hij ((List.mem_singleton.mp hii).trans (List.mem_singleton.mp hjj).symm)
    · rw [hatoms] at hlt
      simp at hlt
  simp only [hlen, decide_true, Bool.true_and]
  exact List.any_eq_true.mpr ⟨j, hjj, by simpa using hop⟩

/-- **One firing of a round** hands out what the rule derives when one atom reads the
last round, and no more than it derives from what is known to hold. -/
theorem Rounds.fire {ivm : Bool} {db : Db} (hdb : db.Ok) {rd : List RdT}
    (h : Rounds rules ms ivm db rd) {cr : CompiledRule} (hcr : cr ∈ rules)
    (hrec : cr.isRecursive = true) {P : Plan} (hm : ms cr = .plan P)
    (hrule : RecRule db.schema (recHeads rules) cr P) {i : VmInstr} (hi : i ∈ P.atoms)
    (hia : i.a ∈ recHeads rules) {shadows : List PermShadow} (hsh : ShadowsOk db rd shadows)
    (hsort : needIdbSort rules rd = true → ∀ r ∈ rd, r.idb.Sorted) {s : ExecSt}
    (hrun : execRule db cr (overridesFor rd shadows cr i) true = .done s) :
    s.db = db ∧
      (planJoin db.schema cr P db.contents).outAt (i.bodyIdx, i.a) (rdRows RdT.delta rd i.a)
        (full db rd) ⊆ {t | t ∈ s.out} ∧
      ∀ t ∈ s.out, t ∈ (planJoin db.schema cr P db.contents).out (full db rd) := by
  have hmem : ∀ k ∈ P.atoms, k ∈ cr.instrs := fun k hk => hrule.ok.mem_instrs hk
  have hfi : driverFeeds i.op = true := (Plan.mem_instrs_of_atoms hi).2
  have hsrc : ∀ j ∈ P.atoms,
      SrcOk db (overridesFor rd shadows cr i) (roundSrc db.contents rd i j) j := by
    intro j hj
    refine srcOk_round hdb hrule.ok hrule.tidy h.nodup h.ok hsh hj fun hop hpos r hr => ?_
    obtain ⟨hrin, hrel⟩ := (rdFind_eq_some h.nodup).mp hr
    have hja : j.a ∈ recHeads rules := by
      rw [← h.heads, ← hrel]
      exact List.mem_map_of_mem hrin
    have hij : i ≠ j := by
      rintro rfl
      exact hpos ⟨rfl, rfl⟩
    exact hsort (needIdbSort_of_lookup h.heads hcr hrec (hmem i hi) (hmem j hj) hij hfi hia hja hop)
      r hrin
  obtain ⟨hs, hout⟩ := execRule_join hdb.rows hrule.ok hsrc hrun
  refine ⟨hs, ?_, fun t ht => ?_⟩
  · rintro t ⟨ρ, hρ, hx, ht⟩
    refine (hout t).mpr ⟨ρ, fun j hj => ?_, ht⟩
    exact mem_roundSrc h hcr hrec hm hi hj hrule.ok.oneEach hx (reads_planJoin.mp hρ j hj)
  · obtain ⟨ρ, hρ, ht⟩ := (hout t).mp ht
    exact ⟨ρ, reads_planJoin.mpr fun j hj => roundSrc_subset h.nodup h.ok i j (hρ j hj), ht⟩

/-! ## One round -/

/-- The tuple sets a firing does not change. -/
def RdT.still (r : RdT) : RdT := { r with nextDelta := .init r.arity }

theorem rdRows_still {rd rd' : List RdT} (h : rd'.map RdT.still = rd.map RdT.still)
    {g : RdT → TupleSet} (hg : ∀ r, g r.still = g r) (s : ℕ) : rdRows g rd' s = rdRows g rd s := by
  have hone : ∀ rd : List RdT, rdRows g (rd.map RdT.still) s = rdRows g rd s := by
    intro rd
    rw [rdRows_map (f := RdT.still) (fun _ => rfl)]
    exact rdRows_congr (fun r _ x => by rw [hg]) s
  rw [← hone rd', h, hone rd]

theorem rdFind_still {rd rd' : List RdT} (h : rd'.map RdT.still = rd.map RdT.still) (id : ℕ) :
    (rdFind rd' id).map RdT.still = (rdFind rd id).map RdT.still := by
  rw [← rdFind_map (f := RdT.still) (fun _ => rfl), h, rdFind_map (f := RdT.still) (fun _ => rfl)]

theorem relId_still {rd rd' : List RdT} (h : rd'.map RdT.still = rd.map RdT.still) :
    rd'.map RdT.relId = rd.map RdT.relId := by
  rw [← relId_map (f := RdT.still) (fun _ => rfl), h, relId_map (f := RdT.still) (fun _ => rfl)]

/-- What the atoms of a rule read does not depend on the rows of the next round. -/
theorem overridesFor_still {rd rd' : List RdT} (h : rd'.map RdT.still = rd.map RdT.still)
    (shadows : List PermShadow) (cr : CompiledRule) (i : VmInstr) :
    overridesFor rd' shadows cr i = overridesFor rd shadows cr i := by
  have hone : ∀ (rd : List RdT) (j : VmInstr),
      overrideFor (rd.map RdT.still) shadows i j = overrideFor rd shadows i j := by
    intro rd j
    unfold overrideFor
    rw [rdFind_map (f := RdT.still) (fun _ => rfl), Option.map_map]
    rfl
  unfold overridesFor
  congr 1
  funext j
  rw [← hone rd', h, hone rd]

theorem still_rdModify (rd : List RdT) (id : ℕ) {f : RdT → RdT} (hf : ∀ r, (f r).still = r.still) :
    (rdModify rd id f).map RdT.still = rd.map RdT.still := by
  unfold rdModify
  rw [List.map_map]
  refine List.map_congr_left fun r _ => ?_
  simp only [Function.comp_apply]
  split
  · exact hf r
  · rfl

/-- Rows added to the next round of a head. -/
theorem rdRows_rdModify {rd : List RdT} {id : ℕ} (hid : id ∈ rd.map RdT.relId) {f : RdT → RdT}
    {g : RdT → TupleSet} {new : Set Row} (hrel : ∀ r, (f r).relId = r.relId)
    (hg : ∀ r ∈ rd, r.relId = id → ∀ x, x ∈ (g (f r)).rows ↔ x ∈ (g r).rows ∨ x ∈ new) (s : ℕ) :
    rdRows g (rdModify rd id f) s = rdRows g rd s ∪ {x | s = id ∧ x ∈ new} := by
  ext x
  constructor
  · rintro ⟨r', hr', rfl, hx⟩
    obtain ⟨r, hr, rfl⟩ := mem_rdModify.mp hr'
    by_cases hrid : r.relId = id
    · rw [if_pos hrid] at hx ⊢
      rcases (hg r hr hrid x).mp hx with hx | hx
      · exact .inl ⟨r, hr, (hrel r).symm, hx⟩
      · exact .inr ⟨(hrel r).trans hrid, hx⟩
    · rw [if_neg hrid] at hx ⊢
      exact .inl ⟨r, hr, rfl, hx⟩
  · rintro (⟨r, hr, rfl, hx⟩ | ⟨rfl, hx⟩)
    · refine ⟨_, mem_rdModify.mpr ⟨r, hr, rfl⟩, ?_, ?_⟩
      · split
        · exact hrel r
        · rfl
      · split
        · rename_i hrid
          exact (hg r hr hrid x).mpr (.inl hx)
        · exact hx
    · obtain ⟨r, hr, rfl⟩ := List.mem_map.mp hid
      refine ⟨_, mem_rdModify.mpr ⟨r, hr, rfl⟩, ?_, ?_⟩
      · rw [if_pos rfl]
        exact hrel r
      · rw [if_pos rfl]
        exact (hg r hr rfl x).mpr (.inr hx)

theorem mem_roundFirings {f : CompiledRule × VmInstr} :
    f ∈ roundFirings rules ↔ f.1 ∈ rules ∧ f.1.isRecursive = true ∧ f.2 ∈ f.1.instrs := by
  obtain ⟨cr, i⟩ := f
  simp only [roundFirings, List.mem_flatMap, List.mem_filter, List.mem_map, Prod.mk.injEq]
  constructor
  · rintro ⟨c, ⟨hc, hrec⟩, j, hj, rfl, rfl⟩
    exact ⟨hc, hrec, hj⟩
  · rintro ⟨hc, hrec, hi⟩
    exact ⟨cr, ⟨hc, hrec⟩, i, hi, rfl, rfl⟩

/-- The rows a firing adds to the next round. -/
def RdT.addNext (rows : List Row) (r : RdT) : RdT :=
  { r with nextDelta := r.nextDelta.addAll (rows.filter fun t => !r.idb.contains t) }

/-- The outcomes of one firing. -/
theorem fireDelta_cases {shadows : List PermShadow} {f : CompiledRule × VmInstr}
    {s s' : Db × List RdT} (h : fireDelta shadows f s = .done s') :
    ((driverFeeds f.2.op = true → ∀ r, rdFind s.2 f.2.a = some r → r.delta.rows = []) ∧ s' = s) ∨
      (driverFeeds f.2.op = true ∧ (rdFind s.2 f.2.a).isSome = true ∧
        ∃ e, execRule s.1 f.1 (overridesFor s.2 shadows f.1 f.2) true = .done e ∧
          s' = (e.db, rdModify s.2 f.1.headRelId (RdT.addNext
            ((TupleSet.init (s.1.relArity f.1.headRelId)).addAll e.out).rows))) := by
  unfold fireDelta at h
  cases hf : driverFeeds f.2.op with
  | false =>
    rw [hf] at h
    cases h
    exact .inl ⟨fun hc => absurd hc (by simp), rfl⟩
  | true =>
    rw [hf] at h
    simp only [Bool.not_true, Bool.false_eq_true, if_false] at h
    cases hr : rdFind s.2 f.2.a with
    | none =>
      rw [hr] at h
      cases h
      exact .inl ⟨fun _ r hr => absurd hr (by simp), rfl⟩
    | some r =>
      rw [hr] at h
      dsimp only at h
      by_cases hnil : r.delta.rows.isEmpty = true
      · rw [if_pos hnil] at h
        cases h
        refine .inl ⟨fun _ r' hr' => ?_, rfl⟩
        cases hr'
        exact List.isEmpty_iff.mp hnil
      · rw [if_neg hnil] at h
        cases he : execRule s.1 f.1 (overridesFor s.2 shadows f.1 f.2) true with
        | failed err e =>
          rw [he] at h
          cases h
        | done e =>
          rw [he] at h
          cases h
          exact .inr ⟨rfl, rfl, e, rfl, rfl⟩

/-- What holds within a round that started from `rd`, while `todo` are still to fire. -/
structure InRound (rules : List CompiledRule) (ms : CompiledRule → RuleMeaning) (db : Db)
    (rd : List RdT) (todo : List (CompiledRule × VmInstr)) (s : Db × List RdT) : Prop where
  /-- The database stays. -/
  same : s.1 = db
  /-- Only the rows of the next round change. -/
  still : s.2.map RdT.still = rd.map RdT.still
  /-- They have the arity of the head. -/
  next : ∀ r ∈ s.2, r.nextDelta.arity = r.arity ∧ ∀ x ∈ r.nextDelta.rows, x.length = r.arity
  /-- They are derived. -/
  sound : ∀ n, ∀ x ∈ rdRows RdT.nextDelta s.2 n,
    ∃ r ∈ recJoins db.schema rules ms db.contents, r.head = n ∧ x ∈ r.out (full db rd)
  /-- What has fired has given all it has. -/
  fired : ∀ f ∈ roundFirings rules, f ∉ todo → ∀ P, ms f.1 = .plan P → f.2 ∈ P.atoms →
    (planJoin db.schema f.1 P db.contents).outAt (f.2.bodyIdx, f.2.a)
      (rdRows RdT.delta rd f.2.a) (full db rd) ⊆
        full db rd f.1.headRelId ∪ rdRows RdT.nextDelta s.2 f.1.headRelId

/-- Recursive rules are as asked. -/
def RecRules (σ : Schema) (rules : List CompiledRule) (ms : CompiledRule → RuleMeaning) : Prop :=
  ∀ cr ∈ rules, cr.isRecursive = true → ∃ P, ms cr = .plan P ∧ RecRule σ (recHeads rules) cr P

/-- **The firings of a round.** -/
theorem fireDelta_inRound {ivm : Bool} {db : Db} (hdb : db.Ok)
    (hrules : RecRules db.schema rules ms) {rd : List RdT} (h : Rounds rules ms ivm db rd)
    {shadows : List PermShadow} (hsh : ShadowsOk db rd shadows)
    (hsort : needIdbSort rules rd = true → ∀ r ∈ rd, r.idb.Sorted)
    {f : CompiledRule × VmInstr} (hf : f ∈ roundFirings rules)
    {todo : List (CompiledRule × VmInstr)} {s s' : Db × List RdT}
    (hin : InRound rules ms db rd (f :: todo) s) (hrun : fireDelta shadows f s = .done s') :
    InRound rules ms db rd todo s' := by
  obtain ⟨hcr, hrec, hfin⟩ := mem_roundFirings.mp hf
  obtain ⟨P, hm, hrule⟩ := hrules f.1 hcr hrec
  rcases fireDelta_cases hrun with ⟨hskip, rfl⟩ | ⟨hfeeds, hsome, e, hexec, rfl⟩
  · -- nothing to read at this instruction
    refine { hin with fired := fun g hg hgt P' hm' hatom => ?_ }
    by_cases hgf : g = f
    · subst hgf
      rintro t ⟨ρ, -, ⟨r, hr, hrel, hx⟩, -⟩
      have hfeeds := (Plan.mem_instrs_of_atoms hatom).2
      have hfind : rdFind rd g.2.a = some r := (rdFind_eq_some h.nodup).mpr ⟨hr, hrel⟩
      have hst := rdFind_still hin.still g.2.a
      rw [hfind, Option.map_some, Option.map_eq_some_iff] at hst
      obtain ⟨r', hr', heq⟩ := hst
      have hnil := hskip hfeeds r' hr'
      have hdelta : r'.delta = r.delta := (congrArg RdT.delta heq :)
      rw [← hdelta, hnil] at hx
      cases hx
    · exact hin.fired g hg (by simpa [hgf] using hgt) P' hm' hatom
  · have hatom : f.2 ∈ P.atoms := hrule.tidy f.2 hfin hfeeds
    have hheads : s.2.map RdT.relId = recHeads rules := (relId_still hin.still).trans h.heads
    have hia : f.2.a ∈ recHeads rules := by
      rw [← hheads]
      by_contra hno
      rw [rdFind_eq_none.mpr hno] at hsome
      cases hsome
    rw [hin.same, overridesFor_still hin.still] at hexec
    obtain ⟨hdbe, hnew, hout⟩ := h.fire hdb hcr hrec hm hrule hatom hia hsh hsort hexec
    set cand := ((TupleSet.init (s.1.relArity f.1.headRelId)).addAll e.out).rows with hcand
    have hmem : ∀ x, x ∈ cand ↔ x ∈ e.out := fun x => by simp [hcand]
    have hhead : f.1.headRelId ∈ s.2.map RdT.relId := by
      rw [hheads]
      exact hrule.head
    have hidb : ∀ n, rdRows RdT.idb s.2 n = rdRows RdT.idb rd n :=
      rdRows_still hin.still fun _ => rfl
    have hrows : ∀ n, rdRows RdT.nextDelta (rdModify s.2 f.1.headRelId (RdT.addNext cand)) n =
        rdRows RdT.nextDelta s.2 n ∪
          {x | n = f.1.headRelId ∧ x ∈ {x | x ∈ e.out ∧ x ∉ rdRows RdT.idb rd f.1.headRelId}} := by
      refine rdRows_rdModify hhead (fun _ => rfl) fun r hr hrid x => ?_
      have hnd : (s.2.map RdT.relId).Nodup := hheads ▸ nodup_recHeads rules
      have hfind := (rdFind_eq_some hnd).mpr ⟨hr, hrid⟩
      have hset := rdRows_of_find hnd hfind RdT.idb
      rw [hidb] at hset
      simp only [RdT.addNext, TupleSet.mem_rows_addAll, List.mem_filter, hmem, Bool.not_eq_true',
        Set.mem_ofPred_eq, hset]
      rw [← Bool.not_eq_true, TupleSet.contains_iff]
    refine ⟨hdbe, ?_, ?_, fun n x hx => ?_, fun g hg hgt P' hm' hatom' => ?_⟩
    · rw [still_rdModify s.2 f.1.headRelId (f := RdT.addNext cand) fun _ => rfl]
      exact hin.still
    · intro r' hr'
      obtain ⟨r, hr, rfl⟩ := mem_rdModify.mp hr'
      obtain ⟨har, hlen⟩ := hin.next r hr
      by_cases hrid : r.relId = f.1.headRelId
      · rw [if_pos hrid]
        refine ⟨by simpa [RdT.addNext] using har, fun x hx => ?_⟩
        simp only [RdT.addNext, TupleSet.mem_rows_addAll, List.mem_filter, hmem] at hx
        rcases hx with hx | ⟨hx, -⟩
        · exact hlen x hx
        · obtain ⟨ρ, -, ht⟩ := hout x hx
          have hlenx := length_of_mem_inst hrule.ok ht
          obtain ⟨r₀, hr₀, heq⟩ : ∃ r₀ ∈ rd, r₀.still = r.still := by
            have hin' := List.mem_map_of_mem (f := RdT.still) hr
            rw [hin.still] at hin'
            exact List.mem_map.mp hin'
          have hrel₀ : r₀.relId = r.relId := (congrArg RdT.relId heq :)
          have har₀ : r₀.arity = r.arity := (congrArg RdT.arity heq :)
          have hσ := (h.ok r₀ hr₀).arity
          rw [hrel₀, hrid, hlenx] at hσ
          exact (Option.some.inj hσ).trans har₀
      · rw [if_neg hrid]
        exact ⟨har, hlen⟩
    · rw [hrows] at hx
      rcases hx with hx | ⟨rfl, hx, -⟩
      · exact hin.sound n x hx
      · exact ⟨_, ⟨f.1, hcr, hrec, P, hm, rfl⟩, rfl, hout x hx⟩
    · rw [hrows]
      by_cases hgf : g = f
      · subst hgf
        rw [hm] at hm'
        cases hm'
        intro t ht
        have hte := hnew ht
        by_cases hold : t ∈ rdRows RdT.idb rd g.1.headRelId
        · exact .inl (.inr hold)
        · exact .inr (.inr ⟨rfl, hte, hold⟩)
      · refine (hin.fired g hg (by simpa [hgf] using hgt) P' hm' hatom').trans ?_
        exact Set.union_subset_union_right _ Set.subset_union_left

theorem needIdbSort_map (rd : List RdT) {f : RdT → RdT} (hf : ∀ r, (f r).relId = r.relId) :
    needIdbSort rules (rd.map f) = needIdbSort rules rd := by
  unfold needIdbSort
  simp only [rdFind_map hf, Option.isSome_map]

theorem ShadowsOk.start {db : Db} {rd : List RdT} {shadows : List PermShadow}
    (h : ShadowsOk db rd shadows) (b : Bool) : ShadowsOk db (rd.map (RdT.start b)) shadows := by
  intro id n pe r' hpe hr'
  rw [rdFind_map (f := RdT.start b) (fun _ => rfl), Option.map_eq_some_iff] at hr'
  obtain ⟨r, hr, rfl⟩ := hr'
  obtain ⟨sh, hf, hsorted, har, hrows⟩ := h id n pe r hpe hr
  refine ⟨sh, hf, hsorted, har, fun x => ?_⟩
  rw [hrows]
  cases b <;> simp [RdT.start]

theorem mem_idb_start (b : Bool) (r : RdT) (x : Row) :
    x ∈ (r.start b).idb.rows ↔ x ∈ r.idb.rows := by
  cases b <;> simp [RdT.start]

theorem RdT.Ok.start {σ : Schema} {r : RdT} (h : r.Ok σ) (b : Bool) : (r.start b).Ok σ where
  arity := h.arity
  arities := by
    obtain ⟨hidb, hdelta, hnext⟩ := h.arities
    refine ⟨?_, hdelta, hnext⟩
    cases b
    · exact hidb
    · exact hidb
  width x hx := h.width x ((mem_idb_start b r x).mp hx)
  sorted := h.sorted
  sub x hx := (mem_idb_start b r x).mpr (h.sub x hx)
  added x hx := (mem_idb_start b r x).mpr (h.added x hx)

theorem Rounds.start {ivm : Bool} {db : Db} {rd : List RdT} (h : Rounds rules ms ivm db rd)
    (b : Bool) : Rounds rules ms ivm db (rd.map (RdT.start b)) := by
  refine h.congr (relId_map (f := RdT.start b) fun _ => rfl) (fun r' hr' => ?_) (fun s => ?_)
    (fun s => ?_) fun s => ?_
  · obtain ⟨r, hr, rfl⟩ := List.mem_map.mp hr'
    exact (h.ok r hr).start b
  · rw [rdRows_map (f := RdT.start b) fun _ => rfl]
    exact rdRows_congr (fun r _ x => mem_idb_start b r x) s
  · rw [rdRows_map (f := RdT.start b) fun _ => rfl]
    rfl
  · rw [rdRows_map (f := RdT.start b) fun _ => rfl]
    rfl

/-- **The firings of one round**, all done. -/
theorem fixRound_inRound {ivm : Bool} {db : Db} (hdb : db.Ok)
    (hrules : RecRules db.schema rules ms) {rd : List RdT} (h : Rounds rules ms ivm db rd)
    {s : Db × List RdT} (hrun : fixRound rules (db, rd) = .done s) :
    InRound rules ms db (rd.map (RdT.start (needIdbSort rules rd))) [] s := by
  set b := needIdbSort rules rd with hb
  have hstart := h.start b
  have hsort : needIdbSort rules (rd.map (RdT.start b)) = true →
      ∀ r ∈ rd.map (RdT.start b), r.idb.Sorted := by
    intro hneed r' hr'
    rw [needIdbSort_map rd (f := RdT.start b) fun _ => rfl] at hneed
    obtain ⟨r, -, rfl⟩ := List.mem_map.mp hr'
    rw [hb, hneed]
    exact TupleSet.sorted_sort _
  have hinit : InRound rules ms db (rd.map (RdT.start b)) (roundFirings rules)
      (db, rd.map (RdT.start b)) := by
    refine ⟨rfl, rfl, fun r' hr' => ?_, fun n x hx => ?_, fun f hf hno => absurd hf hno⟩
    · obtain ⟨r, hr, rfl⟩ := List.mem_map.mp hr'
      refine ⟨(h.ok r hr).arities.2.2, fun x hx => ?_⟩
      cases hx
    · obtain ⟨r', hr', -, hx⟩ := hx
      obtain ⟨r, -, rfl⟩ := List.mem_map.mp hr'
      cases hx
  -- the induction is on the firings still to come
  have hend := runAll_inv (I := fun todo s => (∀ f ∈ todo, f ∈ roundFirings rules) ∧
      InRound rules ms db (rd.map (RdT.start b)) todo s)
    (fun f todo s s' ⟨hin, hi⟩ hf => ⟨fun g hg => hin g (by simp [hg]),
      fireDelta_inRound hdb hrules hstart ((rebuildPermShadows_ok db rd).start b) hsort
        (hin f (by simp)) hi hf⟩)
    (roundFirings rules) ⟨fun f hf => hf, hinit⟩ hrun
  exact hend.2

/-- The sets of a head after the firings of a round. -/
theorem InRound.ok {ivm : Bool} {db : Db} {rd : List RdT} (h : Rounds rules ms ivm db rd)
    {todo : List (CompiledRule × VmInstr)} {s : Db × List RdT}
    (hin : InRound rules ms db rd todo s) {r : RdT} (hr : r ∈ s.2) : r.Ok db.schema := by
  obtain ⟨r₀, hr₀, heq⟩ : ∃ r₀ ∈ rd, r₀.still = r.still := by
    have hmem := List.mem_map_of_mem (f := RdT.still) hr
    rw [hin.still] at hmem
    exact List.mem_map.mp hmem
  have hok := h.ok r₀ hr₀
  have hrel : r₀.relId = r.relId := (congrArg RdT.relId heq :)
  have har : r₀.arity = r.arity := (congrArg RdT.arity heq :)
  have hidb : r₀.idb = r.idb := (congrArg RdT.idb heq :)
  have hdelta : r₀.delta = r.delta := (congrArg RdT.delta heq :)
  have hadded : r₀.added = r.added := (congrArg RdT.added heq :)
  refine ⟨?_, ⟨?_, ?_, (hin.next r hr).1⟩, ?_, ?_, ?_, ?_⟩
  · rw [← hrel, ← har]
    exact hok.arity
  · rw [← hidb, ← har]
    exact hok.arities.1
  · rw [← hdelta, ← har]
    exact hok.arities.2.1
  · rw [← hidb, ← har]
    exact hok.width
  · rw [← hdelta]
    exact hok.sorted
  · rw [← hdelta, ← hidb]
    exact hok.sub
  · rw [← hadded, ← hidb]
    exact hok.added

/-- What waits after a round are its new rows. -/
theorem InRound.covered {ivm : Bool} {db : Db} (hrules : RecRules db.schema rules ms)
    {rd : List RdT} (h : Rounds rules ms ivm db rd) {s : Db × List RdT}
    (hin : InRound rules ms db rd [] s) :
    Covered (recJoins db.schema rules ms db.contents)
      (fun _ a x => x ∈ rdRows RdT.nextDelta s.2 a.2)
      fun n => full db rd n ∪ rdRows RdT.nextDelta s.2 n := by
  refine h.covered.advance (fun n => Set.subset_union_left) (fun r hr a ha => ?_)
    fun r a x hx hno => hx.resolve_left hno
  obtain ⟨cr, hcr, hrec, P, hm, rfl⟩ := hr
  obtain ⟨i, hi, rfl⟩ := List.mem_map.mp ha
  obtain ⟨P', hm', hrule⟩ := hrules cr hcr hrec
  rw [hm] at hm'
  cases hm'
  have hmem : (cr, i) ∈ roundFirings rules :=
    mem_roundFirings.mpr ⟨hcr, hrec, hrule.ok.mem_instrs hi⟩
  refine Set.Subset.trans ?_ (hin.fired _ hmem List.not_mem_nil P hm hi)
  exact Join.outAt_mono _ _ (fun x hx => hx.1) _

theorem idb_advance (r : RdT) (x : Row) :
    x ∈ r.advance.idb.rows ↔ x ∈ r.idb.rows ∨ x ∈ r.nextDelta.rows := by
  unfold RdT.advance
  split
  · rename_i hnil
    rw [List.isEmpty_iff.mp hnil]
    simp
  · simp

theorem delta_advance (r : RdT) (x : Row) :
    x ∈ r.advance.delta.rows ↔ x ∈ r.nextDelta.rows := by
  unfold RdT.advance
  split
  · rename_i hnil
    rw [List.isEmpty_iff.mp hnil]
    simp
  · simp

theorem added_advance (r : RdT) (x : Row) :
    x ∈ r.advance.added.rows ↔ x ∈ r.added.rows ∨ x ∈ r.nextDelta.rows := by
  unfold RdT.advance
  split
  · rename_i hnil
    rw [List.isEmpty_iff.mp hnil]
    simp
  · simp

theorem relId_advance (r : RdT) : r.advance.relId = r.relId := by
  unfold RdT.advance
  split <;> rfl

theorem arity_advance (r : RdT) : r.advance.arity = r.arity := by
  unfold RdT.advance
  split <;> rfl

theorem RdT.Ok.advance {σ : Schema} {r : RdT} (h : r.Ok σ)
    (hnext : ∀ x ∈ r.nextDelta.rows, x.length = r.arity) : r.advance.Ok σ where
  arity := by
    rw [relId_advance, arity_advance]
    exact h.arity
  arities := by
    obtain ⟨hidb, hdelta, hnx⟩ := h.arities
    unfold RdT.advance
    split
    · exact ⟨hidb, rfl, hnx⟩
    · exact ⟨by simpa using hidb, hnx, hdelta⟩
  width x hx := by
    rw [arity_advance]
    rcases (idb_advance r x).mp hx with hx | hx
    · exact h.width x hx
    · exact hnext x hx
  sorted := by
    unfold RdT.advance
    split
    · exact TupleSet.sorted_init _
    · exact TupleSet.sorted_sort _
  sub x hx := (idb_advance r x).mpr (.inr ((delta_advance r x).mp hx))
  added x hx := (idb_advance r x).mpr (((added_advance r x).mp hx).imp_left (h.added x))

/-- Rows for a union of tuple sets. -/
theorem rdRows_union {rd : List RdT} {g g₁ g₂ : RdT → TupleSet}
    (h : ∀ r x, x ∈ (g r).rows ↔ x ∈ (g₁ r).rows ∨ x ∈ (g₂ r).rows) (s : ℕ) :
    rdRows g rd s = rdRows g₁ rd s ∪ rdRows g₂ rd s := by
  ext x
  constructor
  · rintro ⟨r, hr, hid, hx⟩
    exact ((h r x).mp hx).imp (fun hx => ⟨r, hr, hid, hx⟩) fun hx => ⟨r, hr, hid, hx⟩
  · rintro (⟨r, hr, hid, hx⟩ | ⟨r, hr, hid, hx⟩)
    · exact ⟨r, hr, hid, (h r x).mpr (.inl hx)⟩
    · exact ⟨r, hr, hid, (h r x).mpr (.inr hx)⟩

/-- **A round that derives something new keeps the invariant.** -/
theorem InRound.advance {ivm : Bool} {db : Db} (hrules : RecRules db.schema rules ms)
    {rd : List RdT} (h : Rounds rules ms ivm db rd) {s : Db × List RdT}
    (hin : InRound rules ms db rd [] s) :
    Rounds rules ms ivm db (s.2.map RdT.advance) := by
  have hidb₀ : ∀ n, rdRows RdT.idb s.2 n = rdRows RdT.idb rd n :=
    rdRows_still hin.still fun _ => rfl
  have hadded₀ : ∀ n, rdRows RdT.added s.2 n = rdRows RdT.added rd n :=
    rdRows_still hin.still fun _ => rfl
  have hidb : ∀ n, rdRows RdT.idb (s.2.map RdT.advance) n =
      rdRows RdT.idb rd n ∪ rdRows RdT.nextDelta s.2 n := by
    intro n
    rw [rdRows_map relId_advance, rdRows_union idb_advance, hidb₀]
  have hdelta : ∀ n, rdRows RdT.delta (s.2.map RdT.advance) n = rdRows RdT.nextDelta s.2 n := by
    intro n
    rw [rdRows_map relId_advance]
    exact rdRows_congr (fun r _ x => delta_advance r x) n
  have hadded : ∀ n, rdRows RdT.added (s.2.map RdT.advance) n =
      rdRows RdT.added rd n ∪ rdRows RdT.nextDelta s.2 n := by
    intro n
    rw [rdRows_map relId_advance, rdRows_union added_advance, hadded₀]
  have hfull : full db (s.2.map RdT.advance) =
      fun n => full db rd n ∪ rdRows RdT.nextDelta s.2 n := by
    funext n
    rw [full, full, hidb, Set.union_assoc]
  refine ⟨?_, fun r' hr' => ?_, fun M hM n x hx => ?_, ?_, ?_, fun hivm n => ?_⟩
  · rw [relId_map relId_advance, relId_still hin.still]
    exact h.heads
  · obtain ⟨r, hr, rfl⟩ := List.mem_map.mp hr'
    exact (hin.ok h hr).advance (hin.next r hr).2
  · rw [hfull] at hx
    rcases hx with hx | hx
    · exact h.le M hM n hx
    · obtain ⟨r, hr, rfl, hout⟩ := hin.sound n x hx
      exact hM.2 r hr (r.out_mono (h.le M hM) hout)
  · rw [hfull]
    simp only [hdelta]
    exact hin.covered hrules h
  · intro cr hcr hrec P hm i hi j hj hij hia hja
    rw [hidb]
    exact (h.seen cr hcr hrec P hm i hi j hj hij hia hja).trans Set.subset_union_left
  · rw [hidb, hadded, ← Set.union_assoc]
    exact Set.union_subset_union_left _ (h.kept hivm n)

/-- **A round that derives nothing new ends the rounds**: nothing is missing. -/
theorem InRound.closed {ivm : Bool} {db : Db} (hrules : RecRules db.schema rules ms)
    {rd : List RdT} (h : Rounds rules ms ivm db rd) {s : Db × List RdT}
    (hin : InRound rules ms db rd [] s) (hnone : ∀ r ∈ s.2, r.nextDelta.rows = []) :
    Rounds rules ms ivm db s.2 ∧ ∀ r ∈ recJoins db.schema rules ms db.contents,
      r.out (full db s.2) ⊆ full db s.2 r.head := by
  have hnext : ∀ n, rdRows RdT.nextDelta s.2 n = ∅ := by
    intro n
    refine Set.eq_empty_of_forall_notMem ?_
    rintro x ⟨r, hr, -, hx⟩
    rw [hnone r hr] at hx
    cases hx
  have hidb : ∀ n, rdRows RdT.idb s.2 n = rdRows RdT.idb rd n :=
    rdRows_still hin.still fun _ => rfl
  have hfull : full db s.2 = full db rd := by
    funext n
    rw [full, full, hidb]
  refine ⟨h.congr (relId_still hin.still) (fun r hr => hin.ok h hr) hidb
    (rdRows_still hin.still fun _ => rfl) (rdRows_still hin.still fun _ => rfl), fun r hr => ?_⟩
  have hcov := hin.covered hrules h
  simp only [hnext, Set.union_empty] at hcov
  rw [hfull]
  exact hcov.closed (fun r a x hx => hx) hr

/-- **The rounds** end with all that can be derived, and no more. -/
theorem fixLoop_spec {ivm : Bool} {db : Db} (hdb : db.Ok) (hrules : RecRules db.schema rules ms)
    (fuel : ℕ) {rd : List RdT} (h : Rounds rules ms ivm db rd) {s : Db × List RdT}
    (hrun : fixLoop rules fuel (db, rd) = .done s) :
    s.1 = db ∧ Rounds rules ms ivm db s.2 ∧ ∀ r ∈ recJoins db.schema rules ms db.contents,
      r.out (full db s.2) ⊆ full db s.2 r.head := by
  induction fuel generalizing rd with
  | zero => cases hrun
  | succ fuel ih =>
    simp only [fixLoop] at hrun
    cases hr : fixRound rules (db, rd) with
    | failed err s' =>
      rw [hr] at hrun
      cases hrun
    | done s' =>
      rw [hr] at hrun
      dsimp only at hrun
      have hin := fixRound_inRound hdb hrules h hr
      have hstart := h.start (needIdbSort rules rd)
      split at hrun
      · rename_i hnone
        cases hrun
        simp only [List.all_eq_true, List.isEmpty_iff] at hnone
        exact ⟨hin.same, hin.closed hrules hstart hnone⟩
      · rw [hin.same] at hrun
        exact ih (hin.advance hrules hstart) hrun

end Rounds

end DatalogDafsa
