import DatalogDafsa.Eval.SemiNaive

/-!
# A recursive stratum

The stratum sweeps its rules without recursion, fires each recursive rule once, runs
the rounds and stores the results.  The first firing gives every row that the rules
derive from the views; from then on, what is missing reads a row of the last round.

## Main definitions

* `Seeding`, `Seeding.rounds` — what holds while the rules are first fired.
* `seedRule_scratch`, `seedRule_ivm` — one rule, from scratch and from insertions.
* `writeBack_spec` — storing the results.
* `RecStratum`, `evalStratumRecursive_perfect` — a stratum is evaluated to the perfect
  model of its rules over what it starts from.
-/

namespace DatalogDafsa

open Backtrack Operators Worklist

/-! ## Sets of rows before the rounds -/

/-- Bring the sets of a head into key order. -/
def RdT.inOrder (r : RdT) : RdT := { r with idb := r.idb.sort, delta := r.delta.sort }

/-- What a first firing does to the sets of a head: `new` are the rows derived. -/
structure SeedsRows (ivm : Bool) (f : RdT → RdT) (new : List Row) : Prop where
  /-- The relation stays. -/
  relId : ∀ r, (f r).relId = r.relId
  /-- So does its arity. -/
  arity : ∀ r, (f r).arity = r.arity
  /-- And those of the sets. -/
  arities : ∀ r, (f r).idb.arity = r.idb.arity ∧ (f r).delta.arity = r.delta.arity ∧
    (f r).nextDelta.arity = r.nextDelta.arity
  /-- The rows are among those derived so far. -/
  idb : ∀ r x, x ∈ (f r).idb.rows ↔ x ∈ r.idb.rows ∨ x ∈ new
  /-- No others are joined in the first round. -/
  delta : ∀ r x, x ∈ (f r).delta.rows → x ∈ r.delta.rows ∨ x ∈ new
  /-- Those to be joined are kept. -/
  delta_ge : ∀ r x, x ∈ r.delta.rows → x ∈ (f r).delta.rows
  /-- A row derived for the first time is to be joined. -/
  fresh : ∀ r, ∀ x ∈ new, x ∈ r.idb.rows ∨ x ∈ (f r).delta.rows
  /-- No other rows are to be stored. -/
  added : ∀ r x, x ∈ (f r).added.rows → x ∈ r.added.rows ∨ x ∈ new
  /-- Those to be stored are kept. -/
  added_ge : ∀ r x, x ∈ r.added.rows → x ∈ (f r).added.rows
  /-- In an incremental run, a row derived for the first time is to be stored. -/
  kept : ivm = true → ∀ r, ∀ x ∈ new, x ∈ r.idb.rows ∨ x ∈ (f r).added.rows

/-- From scratch, all rows are derived and joined. -/
theorem seedsRows_scratch (rows : List Row) : SeedsRows false (fun r =>
    { r with idb := r.idb.addAll rows, delta := r.delta.addAll rows }) rows where
  relId _ := rfl
  arity _ := rfl
  arities r := ⟨by simp, by simp, rfl⟩
  idb r x := by simp
  delta r x hx := by simpa using hx
  delta_ge r x hx := by simp [hx]
  fresh r x hx := .inr (by simp [hx])
  added r x hx := .inl hx
  added_ge r x hx := hx
  kept h := by cases h

/-- The sets after some rows were added unless they were there. -/
theorem mem_seedNew (rows : List Row) (r : RdT) :
    (r.seedNew rows).relId = r.relId ∧ (r.seedNew rows).arity = r.arity ∧
      (r.seedNew rows).idb.arity = r.idb.arity ∧ (r.seedNew rows).delta.arity = r.delta.arity ∧
      (r.seedNew rows).nextDelta.arity = r.nextDelta.arity ∧
      (∀ x, x ∈ (r.seedNew rows).idb.rows ↔ x ∈ r.idb.rows ∨ x ∈ rows) ∧
      (∀ x, x ∈ (r.seedNew rows).delta.rows ↔ x ∈ r.delta.rows ∨ (x ∈ rows ∧ x ∉ r.idb.rows)) ∧
      ∀ x, x ∈ (r.seedNew rows).added.rows ↔ x ∈ r.added.rows ∨ (x ∈ rows ∧ x ∉ r.idb.rows) := by
  induction rows generalizing r with
  | nil => simp [RdT.seedNew]
  | cons t rows ih =>
    have hstep : r.seedNew (t :: rows) = (if r.idb.contains t then r else
        { r with idb := r.idb.add t, delta := r.delta.add t, added := r.added.add t }).seedNew rows :=
      rfl
    rw [hstep]
    by_cases hin : r.idb.contains t = true
    · rw [if_pos hin]
      have ht : t ∈ r.idb.rows := TupleSet.contains_iff.mp hin
      obtain ⟨h₁, h₂, h₃, h₄, h₅, hidb, hdelta, hadded⟩ := ih r
      refine ⟨h₁, h₂, h₃, h₄, h₅, fun x => ?_, fun x => ?_, fun x => ?_⟩
      · rw [hidb, List.mem_cons]
        grind
      · rw [hdelta, List.mem_cons]
        grind
      · rw [hadded, List.mem_cons]
        grind
    · rw [if_neg hin]
      have ht : t ∉ r.idb.rows := fun h => hin (TupleSet.contains_iff.mpr h)
      obtain ⟨h₁, h₂, h₃, h₄, h₅, hidb, hdelta, hadded⟩ :=
        ih { r with idb := r.idb.add t, delta := r.delta.add t, added := r.added.add t }
      refine ⟨h₁, h₂, by simpa using h₃, by simpa using h₄, h₅, fun x => ?_, fun x => ?_, fun x => ?_⟩
      · rw [hidb, List.mem_cons, TupleSet.mem_rows_add]
        grind
      · rw [hdelta, List.mem_cons, TupleSet.mem_rows_add, TupleSet.mem_rows_add]
        grind
      · rw [hadded, List.mem_cons, TupleSet.mem_rows_add, TupleSet.mem_rows_add]
        grind

/-- In an incremental run, only rows that are new are joined and stored. -/
theorem seedsRows_ivm (rows : List Row) : SeedsRows true (fun r => r.seedNew rows) rows where
  relId r := (mem_seedNew rows r).1
  arity r := (mem_seedNew rows r).2.1
  arities r := by
    obtain ⟨-, -, hidb, hdelta, hnext, -⟩ := mem_seedNew rows r
    exact ⟨hidb, hdelta, hnext⟩
  idb r := (mem_seedNew rows r).2.2.2.2.2.1
  delta r x hx := (((mem_seedNew rows r).2.2.2.2.2.2.1 x).mp hx).imp_right And.left
  delta_ge r x hx := ((mem_seedNew rows r).2.2.2.2.2.2.1 x).mpr (.inl hx)
  fresh r x hx := by
    by_cases hold : x ∈ r.idb.rows
    · exact .inl hold
    · exact .inr (((mem_seedNew rows r).2.2.2.2.2.2.1 x).mpr (.inr ⟨hx, hold⟩))
  added r x hx := (((mem_seedNew rows r).2.2.2.2.2.2.2 x).mp hx).imp_right And.left
  added_ge r x hx := ((mem_seedNew rows r).2.2.2.2.2.2.2 x).mpr (.inl hx)
  kept _ r x hx := by
    by_cases hold : x ∈ r.idb.rows
    · exact .inl hold
    · exact .inr (((mem_seedNew rows r).2.2.2.2.2.2.2 x).mpr (.inr ⟨hx, hold⟩))

theorem subset_rdModify {rd : List RdT} {id : ℕ} {f : RdT → RdT} {g : RdT → TupleSet}
    (hrel : ∀ r, (f r).relId = r.relId) (hg : ∀ r x, x ∈ (g r).rows → x ∈ (g (f r)).rows) (n : ℕ) :
    rdRows g rd n ⊆ rdRows g (rdModify rd id f) n := by
  rintro x ⟨r, hr, rfl, hx⟩
  refine ⟨_, mem_rdModify.mpr ⟨r, hr, rfl⟩, ?_, ?_⟩
  · split
    · exact hrel r
    · rfl
  · split
    · exact hg r x hx
    · exact hx

/-! ## The first firing -/

section

variable {rules : List CompiledRule} {ms : CompiledRule → RuleMeaning} {ivm : Bool}

/-- What holds while the rules are first fired over the views of `db₁`. -/
structure Seeding (rules : List CompiledRule) (ms : CompiledRule → RuleMeaning) (ivm : Bool)
    (db₁ : Db) (s : Db × List RdT) : Prop where
  /-- The database is ready. -/
  ok : s.1.Ok
  /-- Nothing but the views of the heads changes. -/
  evolves : Db.Evolves {id | ∃ cr ∈ rules, cr.headRelId = id} db₁ s.1
  /-- Not even these hold other rows. -/
  contents : s.1.contents = db₁.contents
  /-- There are tuple sets for each recursive head. -/
  heads : s.2.map RdT.relId = recHeads rules
  /-- They are sound once in order. -/
  sets : ∀ r ∈ s.2, r.inOrder.Ok db₁.schema
  /-- What is derived is in the views or follows from them. -/
  sound : ∀ n, ∀ x ∈ rdRows RdT.idb s.2 n, x ∈ db₁.contents n ∨
    ∃ r ∈ recJoins db₁.schema rules ms db₁.contents, r.head = n ∧ x ∈ r.out db₁.contents
  /-- What is not in the views waits. -/
  fresh : ∀ n, rdRows RdT.idb s.2 n ⊆ db₁.contents n ∪ rdRows RdT.delta s.2 n
  /-- An incremental run lists what it adds to the views. -/
  kept : ivm = true → ∀ n, rdRows RdT.idb s.2 n ⊆ db₁.contents n ∪ rdRows RdT.added s.2 n
  /-- It starts from the views. -/
  seen : ivm = true → ∀ n ∈ recHeads rules, db₁.contents n ⊆ rdRows RdT.idb s.2 n

/-- Rows derived for a head are added to its sets. -/
theorem Seeding.add {db₁ : Db} {s : Db × List RdT} (h : Seeding rules ms ivm db₁ s)
    {cr : CompiledRule} (hcr : cr ∈ rules) (hrec : cr.isRecursive = true) {P : Plan}
    (hm : ms cr = .plan P) (hrule : RecRule db₁.schema (recHeads rules) cr P) {new : List Row}
    (hnew : ∀ x ∈ new, x ∈ (planJoin db₁.schema cr P db₁.contents).out db₁.contents)
    {f : RdT → RdT} (hf : SeedsRows ivm f new) :
    Seeding rules ms ivm db₁ (s.1, rdModify s.2 cr.headRelId f) := by
  have hjoin : planJoin db₁.schema cr P db₁.contents ∈
      recJoins db₁.schema rules ms db₁.contents := ⟨cr, hcr, hrec, P, hm, rfl⟩
  have hhead : cr.headRelId ∈ s.2.map RdT.relId := by
    rw [h.heads]
    exact hrule.head
  have hidb : ∀ n, rdRows RdT.idb (rdModify s.2 cr.headRelId f) n =
      rdRows RdT.idb s.2 n ∪ {x | n = cr.headRelId ∧ x ∈ {x | x ∈ new}} :=
    rdRows_rdModify hhead hf.relId fun r _ _ x => hf.idb r x
  have hdelta : ∀ n, rdRows RdT.delta s.2 n ⊆
      rdRows RdT.delta (rdModify s.2 cr.headRelId f) n := subset_rdModify hf.relId hf.delta_ge
  have hadded : ∀ n, rdRows RdT.added s.2 n ⊆
      rdRows RdT.added (rdModify s.2 cr.headRelId f) n := subset_rdModify hf.relId hf.added_ge
  obtain ⟨r₀, hr₀, hrel₀⟩ := List.mem_map.mp hhead
  have hin : ∀ g : RdT → TupleSet, ∀ x ∈ (g (f r₀)).rows,
      x ∈ rdRows g (rdModify s.2 cr.headRelId f) cr.headRelId := by
    intro g x hx
    refine ⟨f r₀, mem_rdModify.mpr ⟨r₀, hr₀, if_pos hrel₀⟩, ?_, hx⟩
    rw [hf.relId, hrel₀]
  refine ⟨h.ok, h.evolves, h.contents, ?_, fun r' hr' => ?_, fun n x hx => ?_, fun n x hx => ?_,
    fun hivm n x hx => ?_, fun hivm n hn => ?_⟩
  · rw [← h.heads]
    unfold rdModify
    rw [List.map_map]
    refine List.map_congr_left fun r _ => ?_
    simp only [Function.comp_apply]
    split
    · exact hf.relId r
    · rfl
  · obtain ⟨r, hr, rfl⟩ := mem_rdModify.mp hr'
    have hok := h.sets r hr
    by_cases hrid : r.relId = cr.headRelId
    · rw [if_pos hrid]
      have harity : ∀ x ∈ new, x.length = r.arity := by
        intro x hx
        obtain ⟨ρ, -, ht⟩ := hnew x hx
        have hlen := length_of_mem_inst hrule.ok ht
        have har := hok.arity
        have hrid' : r.inOrder.relId = cr.headRelId := hrid
        rw [hrid', hlen] at har
        exact Option.some.inj har
      obtain ⟨hidb', hdelta', hnext'⟩ := hf.arities r
      obtain ⟨hidb₀, hdelta₀, hnext₀⟩ := hok.arities
      have hsub : ∀ x ∈ r.delta.rows, x ∈ r.idb.rows := fun x hx => by
        have := hok.sub x (by simpa [RdT.inOrder] using hx)
        simpa [RdT.inOrder] using this
      refine ⟨?_, ⟨?_, ?_, ?_⟩, fun x hx => ?_, TupleSet.sorted_sort _, fun x hx => ?_, fun x hx => ?_⟩
      · show db₁.schema.arities[(f r).relId]? = some (f r).arity
        rw [hf.relId, hf.arity]
        exact hok.arity
      · show (f r).idb.arity = (f r).arity
        rw [hidb', hf.arity]
        exact hidb₀
      · show (f r).delta.arity = (f r).arity
        rw [hdelta', hf.arity]
        exact hdelta₀
      · show (f r).nextDelta.arity = (f r).arity
        rw [hnext', hf.arity]
        exact hnext₀
      · show x.length = (f r).arity
        rw [hf.arity]
        simp only [RdT.inOrder, TupleSet.mem_rows_sort] at hx
        rcases (hf.idb r x).mp hx with hx | hx
        · exact hok.width x (by simpa [RdT.inOrder] using hx)
        · exact harity x hx
      · simp only [RdT.inOrder, TupleSet.mem_rows_sort] at hx ⊢
        exact (hf.idb r x).mpr ((hf.delta r x hx).imp_left (hsub x))
      · simp only [RdT.inOrder, TupleSet.mem_rows_sort] at hx ⊢
        refine (hf.idb r x).mpr ((hf.added r x hx).imp_left fun hx => ?_)
        have := hok.added x hx
        simpa [RdT.inOrder] using this
    · rw [if_neg hrid]
      exact hok
  · rw [hidb] at hx
    rcases hx with hx | ⟨rfl, hx⟩
    · exact h.sound n x hx
    · exact .inr ⟨_, hjoin, rfl, hnew x hx⟩
  · rw [hidb] at hx
    rcases hx with hx | ⟨rfl, hx⟩
    · exact (h.fresh n hx).imp_right fun hx => hdelta n hx
    · rcases hf.fresh r₀ x hx with hold | hx
      · exact (h.fresh _ ⟨r₀, hr₀, hrel₀, hold⟩).imp_right fun hx => hdelta _ hx
      · exact .inr (hin RdT.delta x hx)
  · rw [hidb] at hx
    rcases hx with hx | ⟨rfl, hx⟩
    · exact (h.kept hivm n hx).imp_right fun hx => hadded n hx
    · rcases hf.kept hivm r₀ x hx with hold | hx
      · exact (h.kept hivm _ ⟨r₀, hr₀, hrel₀, hold⟩).imp_right fun hx => hadded _ hx
      · exact .inr (hin RdT.added x hx)
  · rw [hidb]
    exact (h.seen hivm n hn).trans Set.subset_union_left

/-- **After the first firing the rounds can start**: every row derived from the views is
known, and what is not in the views waits. -/
theorem Seeding.rounds {db₁ : Db} {s : Db × List RdT} (h : Seeding rules ms ivm db₁ s)
    (hseeded : ∀ r ∈ recJoins db₁.schema rules ms db₁.contents,
      r.out db₁.contents ⊆ db₁.contents r.head ∪ rdRows RdT.idb s.2 r.head)
    (hseen : ivm = false → ∀ cr ∈ rules, cr.isRecursive = true → ∀ P, ms cr = .plan P →
      ∀ i ∈ P.atoms, ∀ j ∈ P.atoms, i ≠ j → i.a ∈ recHeads rules → j.a ∈ recHeads rules →
        db₁.contents j.a = ∅) :
    Rounds rules ms ivm s.1 (s.2.map RdT.inOrder) := by
  have hidb : ∀ n, rdRows RdT.idb (s.2.map RdT.inOrder) n = rdRows RdT.idb s.2 n := by
    intro n
    rw [rdRows_map (f := RdT.inOrder) fun _ => rfl]
    exact rdRows_congr (fun r _ x => by simp [RdT.inOrder]) n
  have hdelta : ∀ n, rdRows RdT.delta (s.2.map RdT.inOrder) n = rdRows RdT.delta s.2 n := by
    intro n
    rw [rdRows_map (f := RdT.inOrder) fun _ => rfl]
    exact rdRows_congr (fun r _ x => by simp [RdT.inOrder]) n
  have hadded : ∀ n, rdRows RdT.added (s.2.map RdT.inOrder) n = rdRows RdT.added s.2 n := by
    intro n
    rw [rdRows_map (f := RdT.inOrder) fun _ => rfl]
    rfl
  have hσ := h.evolves.schema
  have hfull : ∀ n, full s.1 (s.2.map RdT.inOrder) n =
      db₁.contents n ∪ rdRows RdT.idb s.2 n := by
    intro n
    rw [full, hidb, h.contents]
  refine ⟨?_, fun r' hr' => ?_, fun M hM n x hx => ?_, fun r hr ρ hρ t ht => ?_, ?_, ?_⟩
  · rw [relId_map (f := RdT.inOrder) fun _ => rfl]
    exact h.heads
  · obtain ⟨r, hr, rfl⟩ := List.mem_map.mp hr'
    rw [hσ]
    exact h.sets r hr
  · unfold Above at hM
    rw [hσ, h.contents] at hM
    have hout : ∀ n, db₁.contents n ⊆ M n := hM.1
    rw [hfull] at hx
    rcases hx with hx | hx
    · exact hout n hx
    · rcases h.sound n x hx with hx | ⟨r, hr, rfl, hd⟩
      · exact hout n hx
      · exact hM.2 r hr (r.out_mono hout hd)
  · rw [hσ, h.contents] at hr
    rw [hfull]
    by_cases hold : r.Reads db₁.contents ρ
    · exact .inl (hseeded r hr ⟨ρ, hold, ht⟩)
    · obtain ⟨a, ha, hin, hno⟩ := hρ.new hold
      refine .inr ⟨a, ha, ?_⟩
      rw [hfull] at hin
      show ρ a.1 ∈ rdRows RdT.delta (s.2.map RdT.inOrder) a.2
      rw [hdelta]
      exact (h.fresh a.2 (hin.resolve_left hno)).resolve_left hno
  · intro cr hcr hrec P hm i hi j hj hij hia hja
    rw [hidb, h.contents]
    by_cases hivm : ivm = true
    · exact h.seen hivm j.a hja
    · rw [hseen (by simpa using hivm) cr hcr hrec P hm i hi j hj hij hia hja]
      exact Set.empty_subset _
  · intro hivm n
    rw [hidb, hadded, h.contents]
    exact h.kept hivm n

/-- The sets a stratum starts from. -/
theorem Seeding.init {db db₁ : Db} (hok : db₁.Ok) (hσ : db.schema = db₁.schema)
    (hheads : ∀ id ∈ recHeads rules, db.view id = db₁.view id)
    (hrules : RecRules db₁.schema rules ms) :
    Seeding rules ms ivm db₁ (db₁, (recHeads rules).map (rdInit db ivm)) := by
  have hmem : ∀ (g : RdT → TupleSet) n x, x ∈ rdRows g ((recHeads rules).map (rdInit db ivm)) n ↔
      n ∈ recHeads rules ∧ x ∈ (g (rdInit db ivm n)).rows := by
    intro g n x
    constructor
    · rintro ⟨r, hr, hrel, hx⟩
      obtain ⟨id, hid, rfl⟩ := List.mem_map.mp hr
      obtain rfl : id = n := hrel
      exact ⟨hid, hx⟩
    · intro h
      exact ⟨_, List.mem_map_of_mem h.1, rfl, h.2⟩
  have hidb : ∀ id x, x ∈ (rdInit db ivm id).idb.rows ↔ ivm = true ∧ x ∈ db.view id := by
    intro id x
    unfold rdInit
    cases ivm <;> simp [Dafsa.scan_nil, ← Dafsa.mem_def]
  have hview : ∀ n, ∀ x ∈ rdRows RdT.idb ((recHeads rules).map (rdInit db ivm)) n,
      x ∈ db₁.contents n := by
    intro n x hx
    obtain ⟨hn, hx⟩ := (hmem RdT.idb n x).mp hx
    have hx' := ((hidb n x).mp hx).2
    rw [hheads n hn] at hx'
    exact hx'
  have har : ∀ id ∈ recHeads rules, db₁.schema.arities[id]? = some (db.relArity id) := by
    intro id hid
    obtain ⟨⟨cr, hcr, hrec, rfl⟩, -⟩ := mem_recHeads.mp hid
    obtain ⟨P, -, hrule⟩ := hrules cr hcr hrec
    have hhead := hrule.ok.head.2
    rw [hhead]
    rw [← hσ, Db.arities_getElem?, Option.map_eq_some_iff] at hhead
    obtain ⟨e, he, hea⟩ := hhead
    simp only [Db.relArity, he, hea]
  refine ⟨hok, Db.Evolves.refl _ _, rfl, ?_, fun r hr => ?_, fun n x hx => .inl (hview n x hx),
    fun n x hx => .inl (hview n x hx), fun _ n x hx => .inl (hview n x hx), fun hivm n hn x hx => ?_⟩
  · rw [List.map_map]
    exact List.map_id _
  · obtain ⟨id, hid, rfl⟩ := List.mem_map.mp hr
    refine ⟨har id hid, ⟨?_, rfl, rfl⟩, fun x hx => ?_, TupleSet.sorted_sort _, fun x hx => ?_,
      fun x hx => ?_⟩
    · unfold rdInit
      cases ivm <;> simp [RdT.inOrder]
    · simp only [RdT.inOrder, TupleSet.mem_rows_sort, hidb] at hx
      rw [hheads id hid] at hx
      exact (hok.rows id _ (har id hid)).1 x hx.2
    · simp [RdT.inOrder, rdInit] at hx
    · simp [RdT.inOrder, rdInit] at hx
  · refine (hmem RdT.idb n x).mpr ⟨hn, (hidb n x).mpr ⟨hivm, ?_⟩⟩
    rw [hheads n hn]
    exact hx

/-- A rule without recursion has nothing to add any more. -/
theorem seedRule_nonrec {pend : Pending} {db₁ : Db} {s s' : Db × List RdT}
    (h : Seeding rules ms ivm db₁ s) {cr : CompiledRule} (hcr : cr ∈ rules)
    (hnon : cr.isRecursive = false) (hwf : RuleWf db₁.schema cr (ms cr))
    (hclosed : ((ms cr).oper db₁.schema cr).out db₁.contents ⊆ db₁.contents cr.headRelId)
    (hrun : seedRule pend ivm cr s = .done s') : Seeding rules ms ivm db₁ s' ∧ s'.2 = s.2 := by
  unfold seedRule at hrun
  rw [hnon] at hrun
  simp only [Bool.not_false, if_true] at hrun
  cases hb : execRuleBatched s.1 cr with
  | failed err r =>
    rw [hb] at hrun
    cases hrun
  | done r =>
    obtain ⟨db₂, grew⟩ := r
    rw [hb] at hrun
    cases hrun
    have hσ := h.evolves.schema
    obtain ⟨hfired, -⟩ := execRuleBatched_fired h.ok (hσ ▸ hwf) hb
    have hready := hfired.ok h.ok
    rw [RuleMeaning.head_oper] at hready
    have hev := hfired.evolves
    rw [RuleMeaning.head_oper] at hev
    have hcont : db₂.contents = s.1.contents := by
      rw [hfired.contents]
      funext n
      refine Set.Subset.antisymm ?_ (Oper.le_step _ _ n)
      rintro x (hx | ⟨rfl, hx⟩)
      · exact hx
      · rw [hσ, h.contents] at hx
        rw [h.contents, RuleMeaning.head_oper]
        exact hclosed hx
    have hin : ({cr.headRelId} : Set ℕ) ⊆ {id | ∃ c ∈ rules, c.headRelId = id} := by
      rintro id rfl
      exact ⟨cr, hcr, rfl⟩
    refine ⟨{ h with
      ok := hready
      evolves := (h.evolves.trans (hev.mono hin)).trans (Db.Evolves.markBuild _ _ _)
      contents := ?_ }, rfl⟩
    rw [Db.contents_markBuild, hcont, h.contents]

/-- What a first firing gives a rule. -/
structure Seeded (ms : CompiledRule → RuleMeaning) (rules : List CompiledRule) (ivm : Bool)
    (db₁ : Db) (s s' : Db × List RdT) (head : ℕ) (rows : Set Row) : Prop where
  /-- The invariant is kept. -/
  seeding : Seeding rules ms ivm db₁ s'
  /-- No derived row is lost. -/
  mono : ∀ n, rdRows RdT.idb s.2 n ⊆ rdRows RdT.idb s'.2 n
  /-- The rows are derived. -/
  derived : rows ⊆ rdRows RdT.idb s'.2 head

/-- **From scratch a recursive rule is first fired over the views.** -/
theorem seedRule_scratch {pend : Pending} {db₁ : Db} {s s' : Db × List RdT}
    (h : Seeding rules ms false db₁ s) {cr : CompiledRule} (hcr : cr ∈ rules)
    (hrec : cr.isRecursive = true) {P : Plan} (hm : ms cr = .plan P)
    (hrule : RecRule db₁.schema (recHeads rules) cr P)
    (hrun : seedRule pend false cr s = .done s') :
    Seeded ms rules false db₁ s s' cr.headRelId
      ((planJoin db₁.schema cr P db₁.contents).out db₁.contents) := by
  unfold seedRule at hrun
  rw [hrec] at hrun
  simp only [Bool.not_true, Bool.false_eq_true, if_false] at hrun
  cases he : execRule s.1 cr [] true with
  | failed err e =>
    rw [he] at hrun
    cases hrun
  | done e =>
    rw [he] at hrun
    dsimp only at hrun
    have hσ := h.evolves.schema
    have hok : RuleOk s.1.schema cr P := hσ ▸ hrule.ok
    obtain ⟨hdb, hout⟩ := execRule_join h.ok.rows hok (f := fun i => s.1.contents i.a) (fun i hi => by
      obtain ⟨hin, hfeeds⟩ := Plan.mem_instrs_of_atoms hi
      exact srcOk_view h.ok hok.reads hin hfeeds rfl) he
    simp only [hσ, h.contents] at hout
    set seed := ((TupleSet.init (s.1.relArity cr.headRelId)).addAll e.out).rows with hseed
    have hmem : ∀ x, x ∈ seed ↔ x ∈ (planJoin db₁.schema cr P db₁.contents).out db₁.contents := by
      intro x
      rw [hseed, TupleSet.mem_rows_addAll, TupleSet.rows_init, hout]
      simp only [List.not_mem_nil, false_or]
      exact exists_congr fun ρ => and_congr_left fun _ => reads_planJoin.symm
    have hadd := h.add hcr hrec hm hrule (fun x hx => (hmem x).mp hx) (seedsRows_scratch seed)
    rw [hdb] at hrun
    cases hrun
    have hhead : cr.headRelId ∈ s.2.map RdT.relId := by
      rw [h.heads]
      exact hrule.head
    have hidb : ∀ n, rdRows RdT.idb (rdModify s.2 cr.headRelId fun r =>
        { r with idb := r.idb.addAll seed, delta := r.delta.addAll seed }) n =
        rdRows RdT.idb s.2 n ∪ {x | n = cr.headRelId ∧ x ∈ {x | x ∈ seed}} :=
      rdRows_rdModify hhead (fun _ => rfl) fun r _ _ x => by simp
    refine ⟨hadd, fun n => ?_, fun x hx => ?_⟩
    · rw [hidb]
      exact Set.subset_union_left
    · rw [hidb]
      exact .inr ⟨rfl, (hmem x).mpr hx⟩

/-- Pending insertions that were stored. -/
structure Pending.Ok (pend : Pending) (σ : Schema) (V : ℕ → Set Row) : Prop where
  /-- They are in key order. -/
  sorted : ∀ id < maxRels, (pend id).Sorted
  /-- Their arity is that of the relation. -/
  arity : ∀ id ar, σ.arities[id]? = some ar → (pend id).arity = ar
  /-- They are in the view. -/
  mem : ∀ id, ∀ x ∈ (pend id).rows, x ∈ V id

/-- The outcomes of a first firing with one atom reading insertions. -/
theorem seedAtom_cases {pend : Pending} {cr : CompiledRule} {i : VmInstr} {s s' : Db × List RdT}
    (h : seedAtom pend cr i s = .done s') :
    ((i.op = .scan ∨ i.op = .lookup → i.a < maxRels → rdFind s.2 i.a = none →
        i.a < s.1.rels.length → (pend i.a).rows = []) ∧ s' = s) ∨
      ((i.op = .scan ∨ i.op = .lookup) ∧ i.a < maxRels ∧ (pend i.a).rows ≠ [] ∧
        ∃ e, execRule s.1 cr [⟨i.bodyIdx, pend i.a⟩] true = .done e ∧
          s' = (e.db, rdModify s.2 cr.headRelId fun r => r.seedNew
            ((TupleSet.init (s.1.relArity cr.headRelId)).addAll e.out).rows)) := by
  unfold seedAtom at h
  by_cases hop : i.op ≠ .scan ∧ i.op ≠ .lookup
  · rw [if_pos hop] at h
    cases h
    exact .inl ⟨fun hc => by tauto, rfl⟩
  · rw [if_neg hop] at h
    by_cases hrel : maxRels ≤ i.a ∨ (rdFind s.2 i.a).isSome = true ∨ s.1.rels.length ≤ i.a
    · rw [if_pos hrel] at h
      cases h
      refine .inl ⟨fun _ hlt hnone hlen => ?_, rfl⟩
      rcases hrel with hrel | hrel | hrel
      · omega
      · rw [hnone] at hrel
        cases hrel
      · omega
    · rw [if_neg hrel] at h
      by_cases hnil : (pend i.a).rows.isEmpty = true
      · rw [if_pos hnil] at h
        cases h
        exact .inl ⟨fun _ _ _ _ => List.isEmpty_iff.mp hnil, rfl⟩
      · rw [if_neg hnil] at h
        refine .inr ⟨by tauto, Nat.lt_of_not_le fun hle => hrel (.inl hle),
          fun he => hnil (List.isEmpty_iff.mpr he), ?_⟩
        cases he : execRule s.1 cr [⟨i.bodyIdx, pend i.a⟩] true with
        | failed err e =>
          rw [he] at h
          cases h
        | done e =>
          rw [he] at h
          cases h
          exact ⟨e, rfl, rfl⟩

/-- **An incremental run first fires a recursive rule** once for each atom over a
relation with insertions, that atom reading these. -/
theorem seedAtom_ivm {pend : Pending} {db₁ : Db} {s s' : Db × List RdT}
    (hpend : pend.Ok db₁.schema db₁.contents) (h : Seeding rules ms true db₁ s)
    {cr : CompiledRule} (hcr : cr ∈ rules) (hrec : cr.isRecursive = true) {P : Plan}
    (hm : ms cr = .plan P) (hrule : RecRule db₁.schema (recHeads rules) cr P) {i : VmInstr}
    (hi : i ∈ cr.instrs) (hrun : seedAtom pend cr i s = .done s') :
    Seeded ms rules true db₁ s s' cr.headRelId {t | (i.op = .scan ∨ i.op = .lookup) ∧
      i.a < maxRels ∧ i.a ∉ recHeads rules ∧ t ∈ (planJoin db₁.schema cr P db₁.contents).outAt
        (i.bodyIdx, i.a) {x | x ∈ (pend i.a).rows} db₁.contents} := by
  have hσ := h.evolves.schema
  have hok : RuleOk s.1.schema cr P := hσ ▸ hrule.ok
  rcases seedAtom_cases hrun with ⟨hskip, rfl⟩ | ⟨hop, hlt, hne, e, he, rfl⟩
  · -- nothing was inserted there
    refine ⟨h, fun n => subset_rfl, ?_⟩
    rintro t ⟨hop, hlt, hno, ρ, -, hx, -⟩
    have hfeeds : driverFeeds i.op = true := by rcases hop with hop | hop <;> rw [hop] <;> rfl
    have hnone := rdFind_eq_none.mpr (h.heads ▸ hno)
    have hatom := hrule.tidy i hi hfeeds
    have har := hok.reads.atoms i (Plan.mem_instrs_of_atoms hatom).1 hfeeds
    rw [Db.arities_getElem?, Option.map_eq_some_iff] at har
    obtain ⟨e, he, -⟩ := har
    have hnil := hskip hop hlt hnone (List.getElem?_eq_some_iff.mp he).1
    rw [Set.mem_ofPred_eq, hnil] at hx
    cases hx
  · have hfeeds : driverFeeds i.op = true := by rcases hop with hop | hop <;> rw [hop] <;> rfl
    have hatom : i ∈ P.atoms := hrule.tidy i hi hfeeds
    have hperm : i.op ≠ .lookupPerm := by rcases hop with hop | hop <;> rw [hop] <;> simp
    set src : VmInstr → Set Row := fun j =>
      if j.bodyIdx = i.bodyIdx then {x | x ∈ (pend i.a).rows} else s.1.contents j.a with hsrc
    have hself : ∀ j ∈ P.atoms, j.bodyIdx = i.bodyIdx → j = i := fun j hj hidx =>
      List.inj_on_of_nodup_map hok.oneEach hj hatom hidx
    have hread : ∀ j ∈ P.atoms, src j ⊆ db₁.contents j.a := by
      intro j hj x hx
      simp only [hsrc] at hx
      split at hx
      · rename_i hidx
        obtain rfl := hself j hj hidx
        exact hpend.mem j.a x hx
      · rw [← h.contents]
        exact hx
    obtain ⟨hdb, hout⟩ := execRule_join h.ok.rows hok (f := src) (fun j hj => by
      obtain ⟨hin, hf⟩ := Plan.mem_instrs_of_atoms hj
      by_cases hidx : j.bodyIdx = i.bodyIdx
      · obtain rfl := hself j hj hidx
        have hlive : liveOv [⟨j.bodyIdx, pend j.a⟩] j.bodyIdx = some (pend j.a) := by
          simp [liveOv, findOv, hne]
        unfold SrcOk
        rw [if_neg hperm, hlive]
        refine ⟨hpend.arity j.a _ (hσ ▸ hok.reads.atoms j hin hf), fun _ => hpend.sorted j.a hlt,
          fun x => ?_⟩
        simp [hsrc]
      · have hlive : liveOv [⟨i.bodyIdx, pend i.a⟩] j.bodyIdx = none := by
          simp [liveOv, findOv, Ne.symm hidx]
        simp only [hsrc, if_neg hidx]
        exact srcOk_view h.ok hok.reads hin hf hlive) he
    simp only [hσ, h.contents] at hout
    set cand := ((TupleSet.init (s.1.relArity cr.headRelId)).addAll e.out).rows with hcand
    have hmem : ∀ x, x ∈ cand ↔ x ∈ e.out := fun x => by simp [hcand]
    have hnew : ∀ x ∈ cand, x ∈ (planJoin db₁.schema cr P db₁.contents).out db₁.contents := by
      intro x hx
      obtain ⟨ρ, hρ, ht⟩ := (hout x).mp ((hmem x).mp hx)
      exact ⟨ρ, reads_planJoin.mpr fun j hj => hread j hj (hρ j hj), ht⟩
    have hadd := h.add hcr hrec hm hrule hnew (seedsRows_ivm cand)
    have hhead : cr.headRelId ∈ s.2.map RdT.relId := by
      rw [h.heads]
      exact hrule.head
    have hidb : ∀ n, rdRows RdT.idb (rdModify s.2 cr.headRelId fun r => r.seedNew cand) n =
        rdRows RdT.idb s.2 n ∪ {x | n = cr.headRelId ∧ x ∈ {x | x ∈ cand}} :=
      rdRows_rdModify hhead (seedsRows_ivm cand).relId fun r _ _ x => (seedsRows_ivm cand).idb r x
    rw [hdb]
    refine ⟨hadd, fun n => ?_, ?_⟩
    · rw [hidb]
      exact Set.subset_union_left
    · rintro t ⟨-, -, -, ρ, hρ, hx, ht⟩
      rw [hidb]
      refine .inr ⟨rfl, (hmem t).mpr ((hout t).mpr ⟨ρ, fun j hj => ?_, ht⟩)⟩
      simp only [hsrc]
      split
      · rename_i hidx
        rw [hidx]
        exact hx
      · rw [h.contents]
        exact reads_planJoin.mp hρ j hj

/-- What holds after the first firing of all rules. -/
structure SeededAll (rules : List CompiledRule) (ms : CompiledRule → RuleMeaning) (ivm : Bool)
    (db₁ : Db) (s : Db × List RdT) : Prop where
  /-- The invariant. -/
  seeding : Seeding rules ms ivm db₁ s
  /-- Every row derived from the views is known. -/
  derived : ∀ r ∈ recJoins db₁.schema rules ms db₁.contents,
    r.out db₁.contents ⊆ db₁.contents r.head ∪ rdRows RdT.idb s.2 r.head

/-- **The first firing of all rules, from scratch.** -/
theorem seedRules_scratch {pend : Pending} {db₁ : Db} (hrules : RecRules db₁.schema rules ms)
    (hwf : ∀ cr ∈ rules, RuleWf db₁.schema cr (ms cr))
    (hclosed : ∀ cr ∈ rules, cr.isRecursive = false →
      ((ms cr).oper db₁.schema cr).out db₁.contents ⊆ db₁.contents cr.headRelId)
    {s s' : Db × List RdT} (h : Seeding rules ms false db₁ s)
    (hrun : runAll (seedRule pend false) rules s = .done s') :
    SeededAll rules ms false db₁ s' := by
  -- the induction is on the rules still to fire
  have hend := runAll_inv (I := fun todo s => (∀ cr ∈ todo, cr ∈ rules) ∧
      Seeding rules ms false db₁ s ∧ ∀ cr ∈ rules, cr.isRecursive = true → cr ∉ todo →
        ∀ P, ms cr = .plan P → (planJoin db₁.schema cr P db₁.contents).out db₁.contents ⊆
          rdRows RdT.idb s.2 cr.headRelId) ?_ rules
    ⟨fun cr hcr => hcr, h, fun cr hcr _ hno => absurd hcr hno⟩ hrun
  · obtain ⟨-, hseeding, hdone⟩ := hend
    refine ⟨hseeding, fun r hr => ?_⟩
    obtain ⟨cr, hcr, hrec, P, hm, rfl⟩ := hr
    exact (hdone cr hcr hrec List.not_mem_nil P hm).trans Set.subset_union_right
  · rintro cr todo s s' ⟨hsub, hs, hdone⟩ hstep
    have hcr := hsub cr (by simp)
    by_cases hrec : cr.isRecursive = true
    · obtain ⟨P, hm, hrule⟩ := hrules cr hcr hrec
      obtain ⟨hs', hmono, hout⟩ := seedRule_scratch hs hcr hrec hm hrule hstep
      refine ⟨fun c hc => hsub c (by simp [hc]), hs', fun c hc hcrec hno P' hm' => ?_⟩
      by_cases heq : c = cr
      · subst heq
        rw [hm] at hm'
        cases hm'
        exact hout
      · exact (hdone c hc hcrec (by simp [heq, hno]) P' hm').trans (hmono _)
    · have hnon : cr.isRecursive = false := by simpa using hrec
      obtain ⟨hs', hsame⟩ := seedRule_nonrec hs hcr hnon (hwf cr hcr) (hclosed cr hcr hnon) hstep
      refine ⟨fun c hc => hsub c (by simp [hc]), hs', fun c hc hcrec hno P' hm' => ?_⟩
      rw [hsame]
      refine hdone c hc hcrec ?_ P' hm'
      rintro hin
      rcases List.mem_cons.mp hin with rfl | hin
      · exact hrec hcrec
      · exact hno hin

/-- What an incremental run assumes of the views before the insertions. -/
structure Before (rules : List CompiledRule) (ms : CompiledRule → RuleMeaning) (pend : Pending)
    (db₁ : Db) (V₀ : ℕ → Set Row) : Prop where
  /-- Nothing was removed since. -/
  le : ∀ s, V₀ s ⊆ db₁.contents s
  /-- They were closed under the recursive rules. -/
  closed : ∀ r ∈ recJoins db₁.schema rules ms db₁.contents, r.out V₀ ⊆ V₀ r.head
  /-- What an atom of such a rule finds new was inserted. -/
  new : ∀ cr ∈ rules, cr.isRecursive = true → ∀ P, ms cr = .plan P → ∀ i ∈ P.atoms,
    ∀ x ∈ db₁.contents i.a, x ∉ V₀ i.a → (i.op = .scan ∨ i.op = .lookup) ∧ i.a < maxRels ∧
      i.a ∉ recHeads rules ∧ x ∈ (pend i.a).rows

/-- The first firing of one recursive rule, from insertions. -/
theorem seedRule_ivm {pend : Pending} {db₁ : Db} {s s' : Db × List RdT}
    (hpend : pend.Ok db₁.schema db₁.contents) {V₀ : ℕ → Set Row}
    (hbefore : Before rules ms pend db₁ V₀) (h : Seeding rules ms true db₁ s)
    {cr : CompiledRule} (hcr : cr ∈ rules) (hrec : cr.isRecursive = true) {P : Plan}
    (hm : ms cr = .plan P) (hrule : RecRule db₁.schema (recHeads rules) cr P)
    (hrun : seedRule pend true cr s = .done s') :
    Seeded ms rules true db₁ s s' cr.headRelId
      ((planJoin db₁.schema cr P db₁.contents).out db₁.contents \ db₁.contents cr.headRelId) := by
  unfold seedRule at hrun
  rw [hrec] at hrun
  simp only [Bool.not_true, Bool.false_eq_true, if_false, if_true] at hrun
  -- the induction is on the instructions still to fire
  have hend := runAll_inv (I := fun todo s₁ => (∀ i ∈ todo, i ∈ cr.instrs) ∧
      Seeding rules ms true db₁ s₁ ∧ (∀ n, rdRows RdT.idb s.2 n ⊆ rdRows RdT.idb s₁.2 n) ∧
      ∀ i ∈ cr.instrs, i ∉ todo → {t | (i.op = .scan ∨ i.op = .lookup) ∧ i.a < maxRels ∧
        i.a ∉ recHeads rules ∧ t ∈ (planJoin db₁.schema cr P db₁.contents).outAt (i.bodyIdx, i.a)
          {x | x ∈ (pend i.a).rows} db₁.contents} ⊆ rdRows RdT.idb s₁.2 cr.headRelId) ?_ cr.instrs
    ⟨fun i hi => hi, h, fun n => subset_rfl, fun i hi hno => absurd hi hno⟩ hrun
  · obtain ⟨-, hs', hmono, hdone⟩ := hend
    refine ⟨hs', hmono, ?_⟩
    rintro t ⟨⟨ρ, hρ, ht⟩, hnew⟩
    by_cases hold : (planJoin db₁.schema cr P db₁.contents).Reads V₀ ρ
    · refine absurd (hbefore.le _ (hbefore.closed _ ⟨cr, hcr, hrec, P, hm, rfl⟩ ⟨ρ, hold, ht⟩)) hnew
    · -- some atom reads a row that was inserted
      obtain ⟨a, ha, hin, hno⟩ := hρ.new hold
      obtain ⟨i, hi, rfl⟩ := List.mem_map.mp ha
      obtain ⟨hop, hlt, hnh, hx⟩ := hbefore.new cr hcr hrec P hm i hi _ hin hno
      exact hdone i (hrule.ok.mem_instrs hi) List.not_mem_nil ⟨hop, hlt, hnh, ρ, hρ, hx, ht⟩
  · rintro i todo s₁ s₂ ⟨hsub, hs₁, hmono, hdone⟩ hstep
    obtain ⟨hs₂, hmono', hout⟩ := seedAtom_ivm hpend hs₁ hcr hrec hm hrule (hsub i (by simp)) hstep
    refine ⟨fun j hj => hsub j (by simp [hj]), hs₂, fun n => (hmono n).trans (hmono' n),
      fun j hj hno => ?_⟩
    by_cases heq : j = i
    · subst heq
      exact hout
    · exact (hdone j hj (by simp [heq, hno])).trans (hmono' _)

/-- **The first firing of all rules, from insertions.** -/
theorem seedRules_ivm {pend : Pending} {db₁ : Db} (hrules : RecRules db₁.schema rules ms)
    (hwf : ∀ cr ∈ rules, RuleWf db₁.schema cr (ms cr))
    (hclosed : ∀ cr ∈ rules, cr.isRecursive = false →
      ((ms cr).oper db₁.schema cr).out db₁.contents ⊆ db₁.contents cr.headRelId)
    (hpend : pend.Ok db₁.schema db₁.contents) {V₀ : ℕ → Set Row}
    (hbefore : Before rules ms pend db₁ V₀) {s s' : Db × List RdT}
    (h : Seeding rules ms true db₁ s)
    (hrun : runAll (seedRule pend true) rules s = .done s') :
    SeededAll rules ms true db₁ s' := by
  have hend := runAll_inv (I := fun todo s => (∀ cr ∈ todo, cr ∈ rules) ∧
      Seeding rules ms true db₁ s ∧ ∀ cr ∈ rules, cr.isRecursive = true → cr ∉ todo →
        ∀ P, ms cr = .plan P → (planJoin db₁.schema cr P db₁.contents).out db₁.contents ⊆
          db₁.contents cr.headRelId ∪ rdRows RdT.idb s.2 cr.headRelId) ?_ rules
    ⟨fun cr hcr => hcr, h, fun cr hcr _ hno => absurd hcr hno⟩ hrun
  · obtain ⟨-, hseeding, hdone⟩ := hend
    refine ⟨hseeding, fun r hr => ?_⟩
    obtain ⟨cr, hcr, hrec, P, hm, rfl⟩ := hr
    exact hdone cr hcr hrec List.not_mem_nil P hm
  · rintro cr todo s s' ⟨hsub, hs, hdone⟩ hstep
    have hcr := hsub cr (by simp)
    by_cases hrec : cr.isRecursive = true
    · obtain ⟨P, hm, hrule⟩ := hrules cr hcr hrec
      obtain ⟨hs', hmono, hout⟩ := seedRule_ivm hpend hbefore hs hcr hrec hm hrule hstep
      refine ⟨fun c hc => hsub c (by simp [hc]), hs', fun c hc hcrec hno P' hm' => ?_⟩
      by_cases heq : c = cr
      · subst heq
        rw [hm] at hm'
        cases hm'
        intro t ht
        by_cases hold : t ∈ db₁.contents c.headRelId
        · exact .inl hold
        · exact .inr (hout ⟨ht, hold⟩)
      · refine (hdone c hc hcrec (by simp [heq, hno]) P' hm').trans ?_
        exact Set.union_subset_union_right _ (hmono _)
    · have hnon : cr.isRecursive = false := by simpa using hrec
      obtain ⟨hs', hsame⟩ := seedRule_nonrec hs hcr hnon (hwf cr hcr) (hclosed cr hcr hnon) hstep
      refine ⟨fun c hc => hsub c (by simp [hc]), hs', fun c hc hcrec hno P' hm' => ?_⟩
      rw [hsame]
      refine hdone c hc hcrec ?_ P' hm'
      rintro hin
      rcases List.mem_cons.mp hin with rfl | hin
      · exact hrec hcrec
      · exact hno hin

end

/-! ## Storing the results -/

theorem contents_buildView (db : Db) (id : ℕ) (rows : List Row) {ar : ℕ}
    (har : db.schema.arities[id]? = some ar) (n : ℕ) (x : Row) :
    x ∈ (db.updStore id (Store.buildView rows)).contents n ↔
      (n ≠ id ∧ x ∈ db.contents n) ∨ (n = id ∧ x ∈ rows) := by
  rw [Db.arities_getElem?, Option.map_eq_some_iff] at har
  obtain ⟨e, he, -⟩ := har
  by_cases hid : n = id
  · subst hid
    simp only [ne_eq, not_true_eq_false, false_and, true_and, false_or]
    show x ∈ (db.updStore n (Store.buildView rows)).view n ↔ _
    rw [Db.view_updStore, he]
    cases hs : e.store <;> simp [Store.buildView, hs, Dafsa.mem_ofRows]
  · have hview := db.view_updStore_of_ne (Ne.symm hid) (Store.buildView rows)
    simp only [ne_eq, hid, not_false_eq_true, true_and, false_and, or_false]
    show x ∈ (db.updStore id (Store.buildView rows)).view n ↔ x ∈ db.view n
    rw [hview]

theorem rowsOk_buildView {db : Db} (hdb : db.RowsOk) {id ar : ℕ} {rows : List Row}
    (har : db.schema.arities[id]? = some ar) (hrows : ∀ x ∈ rows, x.length = ar) :
    (db.updStore id (Store.buildView rows)).RowsOk := by
  intro n ar' har'
  rw [Db.schema_updStore] at har'
  obtain ⟨hview, hbase⟩ := hdb n ar' har'
  by_cases hid : id = n
  · subst hid
    rw [har] at har'
    cases har'
    rw [Db.arities_getElem?, Option.map_eq_some_iff] at har
    obtain ⟨e, he, -⟩ := har
    rw [Db.view_updStore, Db.base_updStore, he]
    simp only [if_true]
    cases hs : e.store with
    | aliased d =>
      have hnew : ∀ x ∈ Dafsa.ofRows rows, x.length = ar := fun x hx =>
        hrows x (Dafsa.mem_ofRows.mp hx)
      exact ⟨hnew, hnew⟩
    | split b d =>
      refine ⟨fun x hx => hrows x (Dafsa.mem_ofRows.mp hx), fun x hx => hbase x ?_⟩
      simp only [Db.base, he, hs]
      exact hx
  · rw [db.view_updStore_of_ne hid, db.base_updStore_of_ne hid]
    exact ⟨hview, hbase⟩

/-- What storing the rows of some heads does: `new` are the rows. -/
structure Written (ids : Set ℕ) (db db' : Db) (new : ℕ → Set Row) : Prop where
  /-- Only the views of these heads change. -/
  evolves : Db.Evolves ids db db'
  /-- The indices are not rebuilt. -/
  perms : db'.perms = db.perms
  /-- Rows keep their arity. -/
  rows : db'.RowsOk
  /-- The views get the rows. -/
  contents : ∀ n, db'.contents n = db.contents n ∪ new n

/-- The rows that are stored. -/
def RdT.stored (ivm : Bool) (r : RdT) : TupleSet := if ivm then r.added else r.idb

theorem writeRd_written (ivm : Bool) {db : Db} (hrows : db.RowsOk) {r : RdT}
    (hr : r.Ok db.schema) :
    Written {r.relId} db (writeRd ivm db r) (rdRows (RdT.stored ivm) [r]) := by
  have hmem : ∀ n x, x ∈ rdRows (RdT.stored ivm) [r] n ↔ n = r.relId ∧ x ∈ (r.stored ivm).rows := by
    intro n x
    constructor
    · rintro ⟨r', hr', rfl, hx⟩
      obtain rfl := List.mem_singleton.mp hr'
      exact ⟨rfl, hx⟩
    · rintro ⟨rfl, hx⟩
      exact ⟨r, List.mem_singleton_self r, rfl, hx⟩
  cases ivm with
  | true =>
    have heq : writeRd true db r = db.updStore r.relId (Store.addRows r.added.rows) := rfl
    rw [heq]
    refine ⟨Db.Evolves.updStore (Set.mem_singleton _) fun st hst => addRows_idb st hst, rfl, ?_,
      fun n => ?_⟩
    · exact rowsOk_addRows hrows hr.arity fun x hx => hr.width x (hr.added x hx)
    · ext x
      rw [contents_addRows db r.relId _ hr.arity, Set.mem_union, hmem]
      rfl
  | false =>
    have hall : ∀ x, x ∈ (r.idb.addAll ((db.view r.relId).scan [])).sort.rows ↔
        x ∈ r.idb.rows ∨ x ∈ db.contents r.relId := by
      intro x
      rw [TupleSet.mem_rows_sort, TupleSet.mem_rows_addAll, Dafsa.scan_nil, ← Dafsa.mem_def]
      rfl
    have heq : writeRd false db r = db.updStore r.relId
        (Store.buildView (r.idb.addAll ((db.view r.relId).scan [])).sort.rows) := rfl
    rw [heq]
    refine ⟨Db.Evolves.updStore (Set.mem_singleton _) fun st hst => ?_, rfl, ?_, fun n => ?_⟩
    · cases st with
      | aliased d => cases hst
      | split b d => exact ⟨rfl, rfl⟩
    · refine rowsOk_buildView hrows hr.arity fun x hx => ?_
      rcases (hall x).mp hx with hx | hx
      · exact hr.width x hx
      · exact (hrows _ _ hr.arity).1 x hx
    · ext x
      rw [contents_buildView db r.relId _ hr.arity, hall, Set.mem_union, hmem]
      simp only [RdT.stored, Bool.false_eq_true, if_false]
      by_cases hn : n = r.relId
      · subst hn
        simp only [ne_eq, not_true_eq_false, false_and, true_and, false_or]
        exact or_comm
      · simp [hn]

theorem writeRds_written (ivm : Bool) (rd : List RdT) {db : Db} (hrows : db.RowsOk)
    (hrd : ∀ r ∈ rd, r.Ok db.schema) :
    Written {id | id ∈ rd.map RdT.relId} db (rd.foldl (writeRd ivm) db)
      (rdRows (RdT.stored ivm) rd) := by
  induction rd generalizing db with
  | nil =>
    refine ⟨Db.Evolves.refl _ _, rfl, hrows, fun n => ?_⟩
    have hempty : rdRows (RdT.stored ivm) [] n = ∅ :=
      Set.eq_empty_of_forall_notMem fun x ⟨r, hr, _⟩ => absurd hr List.not_mem_nil
    rw [hempty, Set.union_empty]
    rfl
  | cons r rd ih =>
    have hone := writeRd_written ivm hrows (hrd r (by simp))
    have hσ := hone.evolves.schema
    have hrest := ih hone.rows fun r' hr' => hσ ▸ hrd r' (by simp [hr'])
    refine ⟨(hone.evolves.mono ?_).trans (hrest.evolves.mono ?_), hrest.perms.trans hone.perms,
      hrest.rows, fun n => ?_⟩
    · rintro id rfl
      simp
    · intro id hid
      simp only [Set.mem_ofPred_eq, List.map_cons, List.mem_cons] at hid ⊢
      exact .inr hid
    · rw [List.foldl_cons, hrest.contents, hone.contents, Set.union_assoc]
      congr 1
      ext x
      constructor
      · rintro (⟨r', hr', hid, hx⟩ | ⟨r', hr', hid, hx⟩)
        · exact ⟨r', by simp [List.mem_singleton.mp hr'], hid, hx⟩
        · exact ⟨r', by simp [hr'], hid, hx⟩
      · rintro ⟨r', hr', hid, hx⟩
        rcases List.mem_cons.mp hr' with rfl | hr'
        · exact .inl ⟨r', List.mem_singleton_self r', hid, hx⟩
        · exact .inr ⟨r', hr', hid, hx⟩

theorem rels_marks (ids : List ℕ) (db : Db) :
    (ids.foldl Db.permMarkDirty db).rels = db.rels ∧
      (ids.foldl Db.permMarkDirty db).schema = db.schema := by
  induction ids generalizing db with
  | nil => exact ⟨rfl, rfl⟩
  | cons id ids ih =>
    obtain ⟨hrels, hschema⟩ := ih (db.permMarkDirty id)
    exact ⟨hrels, hschema.trans (db.schema_permMarkDirty id)⟩

/-- An index that is clean after the marks was clean and is over another relation. -/
theorem clean_marks (ids : List ℕ) (db : Db) {pe : PermIndexEntry}
    (hpe : pe ∈ (ids.foldl Db.permMarkDirty db).perms) (hclean : pe.dirty = false) :
    pe ∈ db.perms ∧ pe.relId ∉ ids := by
  induction ids generalizing db with
  | nil => exact ⟨hpe, List.not_mem_nil⟩
  | cons id ids ih =>
    obtain ⟨hmem, hno⟩ := ih (db.permMarkDirty id) hpe
    simp only [Db.permMarkDirty, List.mem_map] at hmem
    obtain ⟨pe₀, hpe₀, rfl⟩ := hmem
    by_cases hid : pe₀.relId = id
    · simp [hid] at hclean
    · simp only [if_neg hid] at hno ⊢
      exact ⟨hpe₀, by simp [hid, hno]⟩

/-- **Storing the results** adds the derived rows to the views and brings the indices up
to date. -/
theorem writeBack_spec {ivm : Bool} {rules : List CompiledRule} {ms : CompiledRule → RuleMeaning}
    {db : Db} (hdb : db.Ok) {rd : List RdT} (h : Rounds rules ms ivm db rd) :
    Db.Evolves {id | id ∈ recHeads rules} db (writeBack ivm db rd) ∧ (writeBack ivm db rd).Ok ∧
      (writeBack ivm db rd).contents = full db rd := by
  have hw := writeRds_written ivm rd hdb.rows h.ok
  set db₁ := rd.foldl (writeRd ivm) db with hdb₁
  set db₂ := (rd.map RdT.relId).foldl Db.permMarkDirty db₁ with hdb₂
  obtain ⟨hrels, hschema⟩ := rels_marks (rd.map RdT.relId) db₁
  rw [← hdb₂] at hrels hschema
  have hview : ∀ n, db₂.view n = db₁.view n := fun n => by simp only [Db.view, hrels]
  have hbase : ∀ n, db₂.base n = db₁.base n := fun n => by simp only [Db.base, hrels]
  have hperms : db₂.PermsOk := by
    intro pe hpe hclean
    obtain ⟨hmem, hno⟩ := clean_marks _ db₁ hpe hclean
    rw [hw.perms] at hmem
    refine Db.fresh_congr (hschema.trans hw.evolves.schema) ?_ (hdb.perms pe hmem hclean)
    rw [hview]
    exact hw.evolves.view_eq hno
  obtain ⟨hfresh, hclean⟩ := Db.permBuildDirty_ok hperms
  have heq : writeBack ivm db rd = db₂.permBuildDirty := rfl
  rw [heq]
  refine ⟨?_, ⟨fun id ar har => ?_, hfresh, hclean⟩, funext fun n => ?_⟩
  · rw [← h.heads]
    refine hw.evolves.trans (Db.Evolves.of_rels ?_ ?_)
    · rw [Db.schema_permBuildDirty, hschema]
    · exact hrels
  · rw [Db.schema_permBuildDirty, hschema] at har
    rw [Db.view_permBuildDirty, Db.base_permBuildDirty, hview, hbase]
    exact hw.rows id ar har
  · have hcont : db₂.permBuildDirty.contents n = db₁.contents n := by
      ext x
      show x ∈ db₂.view n ↔ x ∈ db₁.view n
      rw [hview]
    rw [hcont, hw.contents]
    cases ivm with
    | false => rfl
    | true =>
      refine Set.Subset.antisymm (Set.union_subset_union_right _ ?_) ?_
      · rintro x ⟨r, hr, hid, hx⟩
        exact ⟨r, hr, hid, (h.ok r hr).added x hx⟩
      · exact Set.union_subset Set.subset_union_left (h.kept rfl n)

/-! ## The stratum -/

section

variable {rules : List CompiledRule} {ms : CompiledRule → RuleMeaning} {ivm : Bool}

/-- What the first firing and the rounds reach from the views of `db₁`. -/
structure Reached (rules : List CompiledRule) (ms : CompiledRule → RuleMeaning) (db₁ db' : Db) :
    Prop where
  /-- Only the views of the heads change. -/
  evolves : Db.Evolves {id | ∃ cr ∈ rules, cr.headRelId = id} db₁ db'
  /-- The database is ready again. -/
  ok : db'.Ok
  /-- Nothing is lost. -/
  ge : ∀ n, db₁.contents n ⊆ db'.contents n
  /-- Relations without recursive rules hold what they held. -/
  other : ∀ n ∉ recHeads rules, db'.contents n = db₁.contents n
  /-- Nothing is missing. -/
  closed : ∀ r ∈ recJoins db₁.schema rules ms db₁.contents,
    r.out db'.contents ⊆ db'.contents r.head
  /-- Nothing is derived wrongly. -/
  least : ∀ M, Above rules ms db₁ M → ∀ n, db'.contents n ⊆ M n

/-- What `evalStratumRecursive` does after the first firing. -/
def finishStratum (rules : List CompiledRule) (ivm : Bool) (db₂ : Db) (rd : List RdT) :
    Final Db VmErr :=
  if rd.all fun r => r.delta.rows.isEmpty then .done db₂
  else
    match fixLoop rules fixpointErrorBound (db₂, rd) with
    | .failed err s => .failed err s.1
    | .done (db₃, rd') => .done (writeBack ivm db₃ rd')

/-- **The rounds and the results.** -/
theorem finishStratum_reached {db₁ db₂ db' : Db} {rd : List RdT}
    (hrules : RecRules db₁.schema rules ms) (h : SeededAll rules ms ivm db₁ (db₂, rd))
    (hseen : ivm = false → ∀ cr ∈ rules, cr.isRecursive = true → ∀ P, ms cr = .plan P →
      ∀ i ∈ P.atoms, ∀ j ∈ P.atoms, i ≠ j → i.a ∈ recHeads rules → j.a ∈ recHeads rules →
        db₁.contents j.a = ∅)
    (hrun : finishStratum rules ivm db₂ (rd.map RdT.inOrder) = .done db') :
    Reached rules ms db₁ db' := by
  have hrounds := h.seeding.rounds h.derived hseen
  have hσ : db₂.schema = db₁.schema := h.seeding.evolves.schema
  have hcont : db₂.contents = db₁.contents := h.seeding.contents
  have hrec : ∀ id ∈ recHeads rules, ∃ cr ∈ rules, cr.headRelId = id := fun id hid => by
    obtain ⟨⟨cr, hcr, -, heq⟩, -⟩ := mem_recHeads.mp hid
    exact ⟨cr, hcr, heq⟩
  have habove : ∀ M, Above rules ms db₁ M ↔ Above rules ms db₂ M := fun M => by
    unfold Above
    rw [hσ, hcont]
  unfold finishStratum at hrun
  by_cases hnone : (rd.map RdT.inOrder).all (fun r => r.delta.rows.isEmpty) = true
  · -- nothing follows from the views
    rw [if_pos hnone] at hrun
    cases hrun
    simp only [List.all_eq_true, List.isEmpty_iff] at hnone
    have hwaits : ∀ n, rdRows RdT.delta (rd.map RdT.inOrder) n = ∅ := by
      intro n
      refine Set.eq_empty_of_forall_notMem ?_
      rintro x ⟨r, hr, -, hx⟩
      rw [hnone r hr] at hx
      cases hx
    have hfull : full db₂ (rd.map RdT.inOrder) = db₂.contents := by
      funext n
      refine Set.Subset.antisymm (Set.union_subset subset_rfl ?_) Set.subset_union_left
      rintro x ⟨r', hr', hrel, hx⟩
      obtain ⟨r, hr, rfl⟩ := List.mem_map.mp hr'
      have hin : x ∈ rdRows RdT.idb rd n := ⟨r, hr, hrel, by simpa [RdT.inOrder] using hx⟩
      rcases h.seeding.fresh n hin with hx | ⟨r₁, hr₁, hrel₁, hx⟩
      · rw [hcont]
        exact hx
      · have hw : x ∈ rdRows RdT.delta (rd.map RdT.inOrder) n :=
          ⟨r₁.inOrder, List.mem_map_of_mem hr₁, hrel₁, by simpa [RdT.inOrder] using hx⟩
        rw [hwaits] at hw
        exact absurd hw (Set.notMem_empty x)
    have hcov := hrounds.covered
    simp only [hwaits] at hcov
    rw [hfull] at hcov
    refine ⟨h.seeding.evolves, h.seeding.ok, fun n => by rw [hcont], fun n _ => by rw [hcont],
      fun r hr => hcov.closed (fun _ _ x hx => hx) (by rw [hσ, hcont]; exact hr),
      fun M hM n => ?_⟩
    rw [hcont]
    exact hM.1 n
  · rw [if_neg hnone] at hrun
    cases hloop : fixLoop rules fixpointErrorBound (db₂, rd.map RdT.inOrder) with
    | failed err s =>
      rw [hloop] at hrun
      cases hrun
    | done s =>
      obtain ⟨db₃, rd'⟩ := s
      rw [hloop] at hrun
      cases hrun
      obtain ⟨hsame, hend, hclosed⟩ := fixLoop_spec h.seeding.ok (hσ ▸ hrules) _ hrounds hloop
      obtain rfl : db₃ = db₂ := hsame
      obtain ⟨hev, hok, hfull⟩ := writeBack_spec h.seeding.ok hend
      have hhead : ∀ n ∉ recHeads rules, rdRows RdT.idb rd' n = ∅ := fun n hn =>
        rdRows_of_none (by rw [hend.heads]; exact hn) _
      refine ⟨h.seeding.evolves.trans (hev.mono hrec), hok, fun n => ?_, fun n hn => ?_, fun r hr => ?_,
        fun M hM n => ?_⟩
      · rw [hfull, ← hcont]
        exact Set.subset_union_left
      · rw [hfull, full, hhead n hn, Set.union_empty, hcont]
      · rw [hfull]
        exact hclosed r (by rw [hσ, hcont]; exact hr)
      · rw [hfull]
        exact hend.le M ((habove M).mp hM) n

/-- What is asked of the rules of a stratum. -/
structure RecStratum (σ : Schema) (rules : List CompiledRule) (ms : CompiledRule → RuleMeaning) :
    Prop where
  /-- The bytecode has a meaning. -/
  wf : ∀ cr ∈ rules, RuleWf σ cr (ms cr)
  /-- Recursive rules are as asked. -/
  recs : RecRules σ rules ms
  /-- The others neither derive nor read recursive heads. -/
  plain : ∀ cr ∈ rules, cr.isRecursive = false →
    cr.headRelId ∉ recHeads rules ∧ ∀ s ∈ ((ms cr).oper σ cr).reads, s ∉ recHeads rules
  /-- They are acyclic. -/
  acyclic : ∀ s, ¬ Relation.TransGen
    (Dep (opers σ ms (rules.filter fun cr => !cr.isRecursive))) s s
  /-- Their strict reads are settled at their place. -/
  scheduled : Scheduled (opers σ ms (rules.filter fun cr => !cr.isRecursive))

variable {σ : Schema}

/-- **What the rounds reach is perfect** for the recursive rules. -/
theorem Reached.perfect {db₁ db' : Db} (h : Reached rules ms db₁ db')
    (hset : RecStratum db₁.schema rules ms) {lv : ℕ → ℕ}
    (hlv : Stratified (opers db₁.schema ms rules) lv) :
    PerfectModel (opers db₁.schema ms (rules.filter CompiledRule.isRecursive)) lv db₁.contents
      db'.contents := by
  have hrule : ∀ r ∈ opers db₁.schema ms (rules.filter CompiledRule.isRecursive),
      r ∈ opers db₁.schema ms rules ∧ ∃ j ∈ recJoins db₁.schema rules ms db₁.contents,
        j.head = r.head ∧ ∀ V : ℕ → Set Row, (∀ s ∈ r.strict, V s = db₁.contents s) →
          r.out V = j.out V := by
    intro r hr
    obtain ⟨cr, hcr, rfl⟩ := List.mem_map.mp hr
    obtain ⟨hin, hrec⟩ := List.mem_filter.mp hcr
    obtain ⟨P, hm, hrule⟩ := hset.recs cr hin hrec
    refine ⟨List.mem_map_of_mem hin, _, ⟨cr, hin, hrec, P, hm, rfl⟩, ?_, fun V hV => ?_⟩
    · rw [RuleMeaning.head_oper]
      rfl
    · rw [hm] at hV ⊢
      exact out_planJoin hrule.ok.shape hrule.ok.oneEach hV
  have hstrict : ∀ r ∈ opers db₁.schema ms (rules.filter CompiledRule.isRecursive),
      ∀ s ∈ r.strict, s ∉ recHeads rules := by
    intro r hr s hs
    obtain ⟨cr, hcr, rfl⟩ := List.mem_map.mp hr
    obtain ⟨hin, hrec⟩ := List.mem_filter.mp hcr
    obtain ⟨P, hm, hrule⟩ := hset.recs cr hin hrec
    rw [hm] at hs
    exact hrule.strict s hs
  refine ⟨h.ge, fun r hr => ?_, fun k N hbelow hN hclosed s hs => ?_⟩
  · obtain ⟨-, j, hj, hhead, hout⟩ := hrule r hr
    rw [hout _ fun s hs => h.other s (hstrict r hr s hs), ← hhead]
    exact h.closed j hj
  · -- cut what was reached down to `N` on the level
    classical
    set M : ℕ → Set Row := fun s => if lv s = k then N s ∩ db'.contents s else db'.contents s with hM
    have hon : ∀ s, lv s = k → M s = N s ∩ db'.contents s := fun s hs => if_pos hs
    have hoff : ∀ s, lv s ≠ k → M s = db'.contents s := fun s hs => if_neg hs
    have hle : ∀ s, M s ⊆ db'.contents s := by
      intro s
      by_cases hs : lv s = k
      · rw [hon s hs]
        exact Set.inter_subset_right
      · rw [hoff s hs]
    have hge : ∀ s, db₁.contents s ⊆ M s := by
      intro s
      by_cases hs : lv s = k
      · rw [hon s hs]
        exact Set.subset_inter (hN s) (h.ge s)
      · rw [hoff s hs]
        exact h.ge s
    have habove : Above rules ms db₁ M := by
      refine ⟨hge, fun j hj => ?_⟩
      obtain ⟨cr, hin, hrec, P, hm, rfl⟩ := hj
      obtain ⟨P', hm', hrec'⟩ := hset.recs cr hin hrec
      rw [hm] at hm'
      cases hm'
      have hr : (ms cr).oper db₁.schema cr ∈
          opers db₁.schema ms (rules.filter CompiledRule.isRecursive) :=
        List.mem_map_of_mem (List.mem_filter.mpr ⟨hin, hrec⟩)
      have houtV : (planJoin db₁.schema cr P db₁.contents).out M ⊆ db'.contents cr.headRelId :=
        (Join.out_mono _ hle).trans (h.closed _ ⟨cr, hin, hrec, P, hm, rfl⟩)
      by_cases hk : lv cr.headRelId = k
      · have hinter := hon cr.headRelId hk
        show _ ⊆ M cr.headRelId
        rw [hinter]
        refine Set.subset_inter ?_ houtV
        have hsame : ∀ s ∈ Plan.strictReads P.instrs, M s = db₁.contents s := by
          intro s hs
          refine Set.Subset.antisymm ?_ (hge s)
          rw [← h.other s (hrec'.strict s hs)]
          exact hle s
        rw [← out_planJoin hrec'.ok.shape hrec'.ok.oneEach hsame, ← hm]
        have hcl := hclosed _ hr
        rw [RuleMeaning.head_oper] at hcl
        refine Set.Subset.trans (Oper.mono _ M N (fun s hs => ?_) fun s hs => ?_) (hcl hk)
        · have hlvs := (hlv _ (hrule _ hr).1).1 s hs
          rw [RuleMeaning.head_oper, hk] at hlvs
          rcases hlvs.lt_or_eq with hlt | heq
          · rw [hoff s hlt.ne, hbelow s hlt]
          · rw [hon s heq]
            exact Set.inter_subset_left
        · have hlvs := (hlv _ (hrule _ hr).1).2 s hs
          rw [RuleMeaning.head_oper, hk] at hlvs
          rw [hoff s hlvs.ne, hbelow s hlvs]
      · show _ ⊆ M cr.headRelId
        rw [hoff _ hk]
        exact houtV
    refine (h.least M habove s).trans ?_
    rw [hon s hs]
    exact Set.inter_subset_left

/-- The rules of a stratum are those without recursion and those with. -/
theorem mem_opers_split {σ : Schema} {r : Oper ℕ Row} :
    r ∈ opers σ ms rules ↔ r ∈ opers σ ms (rules.filter fun cr => !cr.isRecursive) ∨
      r ∈ opers σ ms (rules.filter CompiledRule.isRecursive) := by
  simp only [opers, List.mem_map, List.mem_filter, Bool.not_eq_true']
  constructor
  · rintro ⟨cr, hcr, rfl⟩
    cases hrec : cr.isRecursive with
    | true => exact .inr ⟨cr, ⟨hcr, hrec⟩, rfl⟩
    | false => exact .inl ⟨cr, ⟨hcr, hrec⟩, rfl⟩
  · rintro (⟨cr, ⟨hcr, -⟩, rfl⟩ | ⟨cr, ⟨hcr, -⟩, rfl⟩)
    · exact ⟨cr, hcr, rfl⟩
    · exact ⟨cr, hcr, rfl⟩

/-- **A recursive stratum** is evaluated to the perfect model of its rules over what it
starts from, once the first firing is right. -/
theorem evalStratumRecursive_perfect {pend : Pending} {db db' : Db} (hdb : db.Ok)
    (hset : RecStratum db.schema rules ms) (hne : recHeads rules ≠ [])
    (hseeds : ∀ db₁ s, db₁.Ok → db₁.schema = db.schema →
      (∀ id ∈ recHeads rules, db₁.contents id = db.contents id) →
      Db.Evolves {id | ∃ cr ∈ rules, cr.isRecursive = false ∧ cr.headRelId = id} db db₁ →
      (∀ cr ∈ rules, cr.isRecursive = false →
        ((ms cr).oper db₁.schema cr).out db₁.contents ⊆ db₁.contents cr.headRelId) →
      (∀ n, db.contents n ⊆ db₁.contents n) →
      Seeding rules ms ivm db₁ (db₁, (recHeads rules).map (rdInit db ivm)) →
      runAll (seedRule pend ivm) rules (db₁, (recHeads rules).map (rdInit db ivm)) = .done s →
      SeededAll rules ms ivm db₁ s)
    (hseen : ivm = false → ∀ cr ∈ rules, cr.isRecursive = true → ∀ P, ms cr = .plan P →
      ∀ i ∈ P.atoms, ∀ j ∈ P.atoms, i ≠ j → i.a ∈ recHeads rules → j.a ∈ recHeads rules →
        db.contents j.a = ∅)
    (hrun : evalStratumRecursive db pend rules ivm = .done db') :
    Db.Evolves {id | ∃ cr ∈ rules, cr.headRelId = id} db db' ∧ db'.Ok ∧
      ∀ lv, Stratified (opers db.schema ms rules) lv →
        PerfectModel (opers db.schema ms rules) lv db.contents db'.contents := by
  set plain := rules.filter fun cr => !cr.isRecursive with hplain
  have hmem : ∀ cr, cr ∈ plain ↔ cr ∈ rules ∧ cr.isRecursive = false := by
    intro cr
    rw [hplain, List.mem_filter]
    simp
  obtain ⟨rk, hrk, hbound⟩ := exists_rank hset.acyclic
  obtain ⟨V, hV⟩ := exists_model hrk db.contents
  have horder : Order db.schema ms plain (fun _ => false) rk db.contents V :=
    { wf := fun cr hcr => hset.wf cr ((hmem cr).mp hcr).1
      ranked := hrk
      bound := fun s => by
        have := hbound s
        rwa [opers, List.length_map] at this
      model := hV
      inOrder := hset.scheduled.inOrder hV
      settled := fun cr hcr hs => by cases hs }
  unfold evalStratumRecursive at hrun
  have hne' : (recHeads rules).isEmpty = false := by simpa using hne
  rw [hne', if_neg (by simp)] at hrun
  cases hp : evalPasses plain (fun _ => false) (rules.length + 1) true db with
  | failed err db₁ =>
    rw [hp] at hrun
    cases hrun
  | done db₁ =>
    rw [hp] at hrun
    dsimp only at hrun
    obtain ⟨hev, hok₁, hcont₁⟩ :=
      evalPasses_model horder (List.length_filter_le _ _) hdb rfl rfl hp
    have hσ := hev.schema
    have hheads : ∀ id ∈ recHeads rules, db₁.view id = db.view id := by
      intro id hid
      refine hev.view_eq ?_
      rintro ⟨cr, hcr, heq⟩
      obtain ⟨hin, hnon⟩ := (hmem cr).mp hcr
      exact (hset.plain cr hin hnon).1 (heq ▸ hid)
    have hviews : ∀ id ∈ recHeads rules, db₁.contents id = db.contents id := by
      intro id hid
      ext x
      show x ∈ db₁.view id ↔ x ∈ db.view id
      rw [hheads id hid]
    have hinit : Seeding rules ms ivm db₁ (db₁, (recHeads rules).map (rdInit db ivm)) :=
      Seeding.init hok₁ hσ.symm (fun id hid => (hheads id hid).symm) (hσ ▸ hset.recs)
    have hclosed : ∀ cr ∈ rules, cr.isRecursive = false →
        ((ms cr).oper db₁.schema cr).out db₁.contents ⊆ db₁.contents cr.headRelId := by
      intro cr hcr hnon t ht
      rw [hσ, hcont₁] at ht
      rw [hcont₁, hV]
      exact .inr ⟨_, List.mem_map_of_mem ((hmem cr).mpr ⟨hcr, hnon⟩), RuleMeaning.head_oper _ _ _, ht⟩
    cases hs : runAll (seedRule pend ivm) rules (db₁, (recHeads rules).map (rdInit db ivm)) with
    | failed err s =>
      rw [hs] at hrun
      cases hrun
    | done s =>
      obtain ⟨db₂, rd⟩ := s
      rw [hs] at hrun
      have hev' : Db.Evolves {id | ∃ cr ∈ rules, cr.isRecursive = false ∧ cr.headRelId = id} db
          db₁ := by
        refine hev.mono ?_
        rintro id ⟨cr, hcr, heq⟩
        exact ⟨cr, ((hmem cr).mp hcr).1, ((hmem cr).mp hcr).2, heq⟩
      have hge : ∀ n, db.contents n ⊆ db₁.contents n := by
        intro n
        rw [hcont₁, hV]
        exact Set.subset_union_left
      have hseeded := hseeds db₁ (db₂, rd) hok₁ hσ hviews hev' hclosed hge hinit hs
      have hreach : Reached rules ms db₁ db' := by
        refine finishStratum_reached (hσ ▸ hset.recs) hseeded
          (fun hivm cr hcr hrec P hm i hi j hj hij hia hja => ?_) hrun
        rw [hviews _ hja]
        exact hseen hivm cr hcr hrec P hm i hi j hj hij hia hja
      refine ⟨(hev.mono ?_).trans hreach.evolves, hreach.ok, fun lv hlv => ?_⟩
      · rintro id ⟨cr, hcr, heq⟩
        exact ⟨cr, ((hmem cr).mp hcr).1, heq⟩
      · have hperf := hreach.perfect (hσ ▸ hset) (hσ ▸ hlv)
        rw [hσ] at hperf
        have hlvp : Stratified (opers db.schema ms plain) lv := fun r hr => by
          obtain ⟨cr, hcr, rfl⟩ := List.mem_map.mp hr
          exact hlv _ (List.mem_map_of_mem ((hmem cr).mp hcr).1)
        have hlow := hV.perfect hrk hlvp
        rw [← hcont₁] at hlow
        refine hlow.append hperf hlv (fun r => ?_) (fun r hr r' hr' => ?_) (fun r hr => ?_)
          fun n hn => ?_
        · exact mem_opers_split
        · obtain ⟨cr, hcr, rfl⟩ := List.mem_map.mp hr
          obtain ⟨cr', hcr', rfl⟩ := List.mem_map.mp hr'
          obtain ⟨hin, hnon⟩ := (hmem cr).mp hcr
          obtain ⟨hin', hrec'⟩ := List.mem_filter.mp hcr'
          obtain ⟨P, -, hrule⟩ := hset.recs cr' hin' hrec'
          obtain ⟨hhead, hreads⟩ := hset.plain cr hin hnon
          simp only [RuleMeaning.head_oper]
          exact ⟨fun heq => hhead (heq ▸ hrule.head), fun hin => hreads _ hin hrule.head⟩
        · obtain ⟨cr, hcr, rfl⟩ := List.mem_map.mp hr
          obtain ⟨hin, hrec⟩ := List.mem_filter.mp hcr
          obtain ⟨P, -, hrule⟩ := hset.recs cr hin hrec
          rw [RuleMeaning.head_oper]
          exact hviews _ hrule.head
        · refine hreach.other n fun hin => ?_
          obtain ⟨⟨cr, hcr, hrec, heq⟩, -⟩ := mem_recHeads.mp hin
          exact hn _ (List.mem_map_of_mem (List.mem_filter.mpr ⟨hcr, hrec⟩))
            ((RuleMeaning.head_oper _ _ _).trans heq)

end

end DatalogDafsa
