import DatalogDafsa.Compile.Syntax
import DatalogDafsa.Lib.Kosaraju

/-!
# Stratification

`compute_strata` turns the body atoms of the rules into edges between relations,
raises strata along the edges until nothing changes, finds the recursive relations
as the strongly connected components of the positive edges, and raises strata once
more so that what reads a recursive relation from outside its component comes later.
A program is rejected when the strata do not settle or a negative edge does not
raise the stratum.

## Main definitions

* `Edge`, `ruleEdges` — the edges of a rule.
* `relaxPass`, `relaxLoop` — raising strata along edges.
* `markTrees`, `computeStrata` — the components and the whole computation.
* `Stratification`, `computeStrata_stratification` — what an accepted program satisfies.
-/

namespace DatalogDafsa

/-! ## Edges -/

/-- `Edge`: a rule for `dst` reads `src`. -/
structure Edge where
  /-- The relation read. -/
  src : ℕ
  /-- The head. -/
  dst : ℕ
  /-- It is read under negation, or by a range. -/
  isNeg : Bool
  deriving DecidableEq

/-- The edge of a body atom. -/
def atomEdge (d : Decls) (head : ℕ) (a : Atom) : Option Edge :=
  match rangeRel a with
  | some name => (d.find name).map fun rel => ⟨rel, head, true⟩
  | none => (d.find a.pred).map fun rel => ⟨rel, head, a.negated⟩

/-- The edges of a rule; none when its head is not declared. -/
def ruleEdges (d : Decls) (r : Rule) : List Edge :=
  match d.find r.head.pred with
  | some head => r.body.filterMap (atomEdge d head)
  | none => []

/-- The head of a rule that reads its own head. -/
def ruleSelfLoop (d : Decls) (r : Rule) : Option ℕ :=
  match d.find r.head.pred with
  | some head =>
    if r.body.any fun a => (rangeRel a).isNone && d.find a.pred = some head then some head else none
  | none => none

/-! ## Relaxation -/

/-- Largest stratum a raise leads to. -/
def stratumCap : ℕ := 1000000

/-- Passes before the relaxation is given up. -/
def maxPasses : ℕ := 10000

/-- One pass over the edges: raise each head to what its edge needs. -/
def relaxPass (need : (ℕ → ℕ) → Edge → ℕ) (edges : List Edge) (st : ℕ → ℕ) : (ℕ → ℕ) × Bool :=
  edges.foldl (fun s e =>
    if s.1 e.dst < need s.1 e then (Function.update s.1 e.dst (need s.1 e), true) else s)
    (st, false)

/-- Passes until nothing changes; does it still change? -/
def relaxLoop (need : (ℕ → ℕ) → Edge → ℕ) (edges : List Edge) : ℕ → (ℕ → ℕ) → (ℕ → ℕ) × Bool
  | 0, st => (st, true)
  | passes + 1, st =>
    match relaxPass need edges st with
    | (st', false) => (st', false)
    | (st', true) => relaxLoop need edges passes st'

/-- What an edge needs at first: a negative one the next stratum. -/
def needNeg (st : ℕ → ℕ) (e : Edge) : ℕ :=
  if e.isNeg then min (st e.src + 1) stratumCap else st e.src

/-- What an edge needs in the end: so does one that leaves a recursive component. -/
def needRec (recursive : ℕ → Bool) (comp : ℕ → ℕ) (st : ℕ → ℕ) (e : Edge) : ℕ :=
  if e.isNeg then min (st e.src + 1) stratumCap
  else if recursive e.src && comp e.src != comp e.dst then min (st e.src + 1) stratumCap
  else st e.src

/-! ## Components -/

/-- Heads of the positive edges from a relation. -/
def posAdj (edges : List Edge) (v : ℕ) : List ℕ :=
  (edges.filter fun e => !e.isNeg && e.src = v).map Edge.dst

/-- Sources of the positive edges to a relation. -/
def revAdj (edges : List Edge) (v : ℕ) : List ℕ :=
  (edges.filter fun e => !e.isNeg && e.dst = v).map Edge.src

/-- Number the components of the trees; those of several relations are recursive. -/
def markTrees (trees : List (ℕ × List ℕ)) (comp : ℕ → ℕ) (recursive : ℕ → Bool) :
    (ℕ → ℕ) × (ℕ → Bool) :=
  trees.foldl (fun s t =>
    let comp' := fun v => if v ∈ t.2 then t.1 else s.1 v
    (comp', if 1 < t.2.length then fun v => s.2 v || comp' v == t.1 else s.2)) (comp, recursive)

/-- Kosaraju: trees of the reverse graph, roots in reverse postorder of the graph. -/
def sccTrees (n : ℕ) (edges : List Edge) : List (ℕ × List ℕ) :=
  let order := (Dfs.forest (posAdj edges) (Dfs.dfsFuel (posAdj edges) (List.range n))
    (List.range n) []).flatMap Prod.snd
  Dfs.forest (revAdj edges) (Dfs.dfsFuel (revAdj edges) (List.range n)) order.reverse []

/-! ## The computation -/

/-- The answer of `compute_strata`. -/
inductive StrataResult
  /-- `0`: strata, and which relations are recursive. -/
  | ok (strata : ℕ → ℕ) (recursive : ℕ → Bool)
  /-- `1`: the program is rejected. -/
  | unstratifiable

namespace StrataResult

/-- The strata of an accepted program. -/
def strata : StrataResult → ℕ → ℕ
  | ok st _ => st
  | unstratifiable => fun _ => 0

/-- The recursive relations of an accepted program. -/
def recursive : StrataResult → ℕ → Bool
  | ok _ rec => rec
  | unstratifiable => fun _ => false

/-- Is the program accepted? -/
def isOk : StrataResult → Bool
  | ok _ _ => true
  | unstratifiable => false

theorem eq_ok {r : StrataResult} (h : r.isOk = true) : r = ok r.strata r.recursive := by
  cases r with
  | ok st rec => rfl
  | unstratifiable => cases h

end StrataResult

/-- **`compute_strata`.**  `seeds` are the recursive heads compiled before, and
`comp₀` is what the uninitialised component array holds. -/
def computeStrata (d : Decls) (rules : List Rule) (seeds : List ℕ) (comp₀ : ℕ → ℕ) : StrataResult :=
  if d.length = 0 then .ok (fun _ => 0) fun _ => false
  else
    let edges := rules.flatMap (ruleEdges d)
    let selfLoops := rules.filterMap (ruleSelfLoop d)
    match relaxLoop needNeg edges maxPasses fun _ => 0 with
    | (_, true) => .unstratifiable
    | (st, false) =>
      let marked := markTrees (sccTrees d.length edges) comp₀ fun _ => false
      let recursive := fun v => marked.2 v || selfLoops.contains v || seeds.contains v
      match relaxLoop (needRec recursive marked.1) edges maxPasses st with
      | (_, true) => .unstratifiable
      | (st', false) =>
        if edges.any fun e => e.isNeg && decide (st' e.dst ≤ st' e.src) then .unstratifiable
        else .ok st' recursive

/-! ## What an accepted program satisfies -/

/-- A pass that changes nothing has nothing to raise. -/
theorem relaxPass_stable {need : (ℕ → ℕ) → Edge → ℕ} {edges : List Edge} {st st' : ℕ → ℕ}
    (h : relaxPass need edges st = (st', false)) :
    st' = st ∧ ∀ e ∈ edges, need st e ≤ st e.dst := by
  have key : ∀ (edges : List Edge) (s : (ℕ → ℕ) × Bool),
      (edges.foldl (fun s e => if s.1 e.dst < need s.1 e then
        (Function.update s.1 e.dst (need s.1 e), true) else s) s).2 = false →
      s.2 = false ∧ edges.foldl (fun s e => if s.1 e.dst < need s.1 e then
        (Function.update s.1 e.dst (need s.1 e), true) else s) s = s ∧
        ∀ e ∈ edges, need s.1 e ≤ s.1 e.dst := by
    intro edges
    induction edges with
    | nil => intro s hs; exact ⟨hs, rfl, by simp⟩
    | cons e edges ih =>
      intro s hs
      rw [List.foldl_cons] at hs ⊢
      by_cases hlt : s.1 e.dst < need s.1 e
      · rw [if_pos hlt] at hs
        have := (ih _ hs).1
        cases this
      · rw [if_neg hlt] at hs ⊢
        obtain ⟨hfalse, heq, hall⟩ := ih s hs
        refine ⟨hfalse, heq, fun e' he' => ?_⟩
        rcases List.mem_cons.mp he' with rfl | he'
        · exact Nat.le_of_not_lt hlt
        · exact hall e' he'
  obtain ⟨-, heq, hall⟩ := key edges (st, false) (by
    have := congrArg Prod.snd h
    exact this)
  refine ⟨?_, hall⟩
  have := congrArg Prod.fst (h.symm.trans heq)
  exact this

theorem relaxLoop_stable {need : (ℕ → ℕ) → Edge → ℕ} {edges : List Edge} {passes : ℕ}
    {st st' : ℕ → ℕ} (h : relaxLoop need edges passes st = (st', false)) :
    ∀ e ∈ edges, need st' e ≤ st' e.dst := by
  induction passes generalizing st with
  | zero => simp [relaxLoop] at h
  | succ passes ih =>
    unfold relaxLoop at h
    cases hp : relaxPass need edges st with
    | mk st₁ changed =>
      rw [hp] at h
      cases changed with
      | false =>
        simp only [Prod.mk.injEq, and_true] at h
        subst h
        obtain ⟨rfl, hall⟩ := relaxPass_stable hp
        exact hall
      | true => exact ih h

/-- **A bound that no edge needs more than is never passed.** -/
theorem relaxPass_le {need : (ℕ → ℕ) → Edge → ℕ} {edges : List Edge} {cap : ℕ → ℕ}
    (hneed : ∀ st, (∀ v, st v ≤ cap v) → ∀ e ∈ edges, need st e ≤ cap e.dst) {st : ℕ → ℕ}
    (hst : ∀ v, st v ≤ cap v) (v : ℕ) : (relaxPass need edges st).1 v ≤ cap v := by
  have key : ∀ (es : List Edge) (s : (ℕ → ℕ) × Bool), (∀ e ∈ es, e ∈ edges) →
      (∀ v, s.1 v ≤ cap v) → ∀ v,
      (es.foldl (fun s e => if s.1 e.dst < need s.1 e then
        (Function.update s.1 e.dst (need s.1 e), true) else s) s).1 v ≤ cap v := by
    intro es
    induction es with
    | nil => exact fun s _ hs => hs
    | cons e es ih =>
      intro s hes hs
      rw [List.foldl_cons]
      refine ih _ (fun e' he' => hes e' (by simp [he'])) fun v => ?_
      split
      · dsimp only
        by_cases hv : v = e.dst
        · rw [hv, Function.update_self]
          exact hneed _ hs e (hes e (by simp))
        · rw [Function.update_of_ne hv]
          exact hs v
      · exact hs v
  exact key edges (st, false) (fun _ h => h) hst v

theorem relaxLoop_le {need : (ℕ → ℕ) → Edge → ℕ} {edges : List Edge} {cap : ℕ → ℕ}
    (hneed : ∀ st, (∀ v, st v ≤ cap v) → ∀ e ∈ edges, need st e ≤ cap e.dst) (passes : ℕ)
    {st : ℕ → ℕ} (hst : ∀ v, st v ≤ cap v) (v : ℕ) :
    (relaxLoop need edges passes st).1 v ≤ cap v := by
  induction passes generalizing st with
  | zero => exact hst v
  | succ passes ih =>
    unfold relaxLoop
    have hpass := relaxPass_le hneed hst
    cases hp : relaxPass need edges st with
    | mk st₁ changed =>
      rw [hp] at hpass
      cases changed with
      | false => exact hpass v
      | true => exact ih hpass

theorem needNeg_le (st : ℕ → ℕ) (e : Edge) (h : ∀ v, st v ≤ stratumCap) :
    needNeg st e ≤ stratumCap := by
  unfold needNeg
  split
  · exact min_le_right _ _
  · exact h _

theorem needRec_le (recursive : ℕ → Bool) (comp : ℕ → ℕ) (st : ℕ → ℕ) (e : Edge)
    (h : ∀ v, st v ≤ stratumCap) : needRec recursive comp st e ≤ stratumCap := by
  unfold needRec
  split
  · exact min_le_right _ _
  · split
    · exact min_le_right _ _
    · exact h _

/-- Every edge needs at least the stratum of its source. -/
theorem le_needRec (recursive : ℕ → Bool) (comp : ℕ → ℕ) (st : ℕ → ℕ) (e : Edge)
    (h : ∀ v, st v ≤ stratumCap) : st e.src ≤ needRec recursive comp st e := by
  have := h e.src
  unfold needRec
  split
  · exact le_min (Nat.le_succ _) this
  · split
    · exact le_min (Nat.le_succ _) this
    · exact le_rfl

/-- The edges of a program. -/
def progEdges (d : Decls) (rules : List Rule) : List Edge := rules.flatMap (ruleEdges d)

theorem atomEdge_lt {d : Decls} {head : ℕ} {a : Atom} {e : Edge} (h : atomEdge d head a = some e) :
    e.src < d.length ∧ e.dst = head := by
  unfold atomEdge at h
  split at h <;>
  · obtain ⟨id, hid, rfl⟩ := Option.map_eq_some_iff.mp h
    exact ⟨Decls.find_lt hid, rfl⟩

theorem progEdges_lt {d : Decls} {rules : List Rule} {e : Edge} (h : e ∈ progEdges d rules) :
    e.src < d.length ∧ e.dst < d.length := by
  obtain ⟨r, -, he⟩ := List.mem_flatMap.mp h
  unfold ruleEdges at he
  split at he
  · rename_i head hhead
    obtain ⟨a, -, ha⟩ := List.mem_filterMap.mp he
    obtain ⟨hsrc, rfl⟩ := atomEdge_lt ha
    exact ⟨hsrc, Decls.find_lt hhead⟩
  · cases he

/-- A positive edge from a relation to itself is a self-loop. -/
theorem selfLoop_of_edge {d : Decls} {rules : List Rule} {v : ℕ}
    (h : (⟨v, v, false⟩ : Edge) ∈ progEdges d rules) : v ∈ rules.filterMap (ruleSelfLoop d) := by
  obtain ⟨r, hr, he⟩ := List.mem_flatMap.mp h
  refine List.mem_filterMap.mpr ⟨r, hr, ?_⟩
  unfold ruleEdges at he
  unfold ruleSelfLoop
  cases hhead : d.find r.head.pred with
  | none => rw [hhead] at he; cases he
  | some head =>
    rw [hhead] at he
    obtain ⟨a, ha, hedge⟩ := List.mem_filterMap.mp he
    obtain ⟨-, rfl⟩ := atomEdge_lt hedge
    refine if_pos (List.any_eq_true.mpr ⟨a, ha, ?_⟩)
    unfold atomEdge at hedge
    cases hrange : rangeRel a with
    | some name =>
      rw [hrange] at hedge
      obtain ⟨id, -, heq⟩ := Option.map_eq_some_iff.mp hedge
      simp at heq
    | none =>
      rw [hrange] at hedge
      obtain ⟨id, hid, heq⟩ := Option.map_eq_some_iff.mp hedge
      simp only [Edge.mk.injEq] at heq
      simp [hid, heq.1]

/-! ## Recursive relations -/

/-- A positive edge of a program. -/
def PosEdge (edges : List Edge) (u v : ℕ) : Prop := (⟨u, v, false⟩ : Edge) ∈ edges

theorem mem_posAdj {edges : List Edge} {u v : ℕ} : v ∈ posAdj edges u ↔ PosEdge edges u v := by
  simp only [posAdj, List.mem_map, List.mem_filter, Bool.and_eq_true, Bool.not_eq_true',
    decide_eq_true_eq]
  constructor
  · rintro ⟨⟨src, dst, isNeg⟩, ⟨he, rfl, rfl⟩, rfl⟩
    exact he
  · exact fun h => ⟨_, ⟨h, rfl, rfl⟩, rfl⟩

theorem mem_revAdj {edges : List Edge} {u v : ℕ} : u ∈ revAdj edges v ↔ PosEdge edges u v := by
  simp only [revAdj, List.mem_map, List.mem_filter, Bool.and_eq_true, Bool.not_eq_true',
    decide_eq_true_eq]
  constructor
  · rintro ⟨⟨src, dst, isNeg⟩, ⟨he, rfl, rfl⟩, rfl⟩
    exact he
  · exact fun h => ⟨_, ⟨h, rfl, rfl⟩, rfl⟩

/-- Marks are never taken back, and a tree of several relations is marked. -/
theorem markTrees_marks (trees : List (ℕ × List ℕ)) (comp : ℕ → ℕ) (recursive : ℕ → Bool) :
    (∀ v, recursive v = true → (markTrees trees comp recursive).2 v = true) ∧
      ∀ t ∈ trees, 1 < t.2.length → ∀ v ∈ t.2, (markTrees trees comp recursive).2 v = true := by
  induction trees generalizing comp recursive with
  | nil => exact ⟨fun v hv => hv, by simp⟩
  | cons t trees ih =>
    obtain ⟨hkeep, hmark⟩ := ih (fun v => if v ∈ t.2 then t.1 else comp v)
      (if 1 < t.2.length then
        fun v => recursive v || (if v ∈ t.2 then t.1 else comp v) == t.1 else recursive)
    refine ⟨fun v hv => hkeep v ?_, fun t' ht' hlen v hv => ?_⟩
    · split
      · simp [hv]
      · exact hv
    · rcases List.mem_cons.mp ht' with rfl | ht'
      · refine hkeep v ?_
        rw [if_pos hlen]
        simp [hv]
      · exact hmark t' ht' hlen v hv

theorem posEdge_eq (edges : List Edge) : (fun a b => b ∈ posAdj edges a) = PosEdge edges := by
  funext a b
  exact propext mem_posAdj

/-- **The trees of the second pass are the components of the positive edges.** -/
theorem sccTrees_spec {n : ℕ} {edges : List Edge} (hn : ∀ e ∈ edges, e.src < n ∧ e.dst < n) :
    Dfs.Components (posAdj edges) (List.range n) (sccTrees n edges) :=
  Dfs.sccForest_spec List.nodup_range
    (fun _ _ _ hw => List.mem_range.mpr (hn _ (mem_posAdj.mp hw)).2)
    (fun _ _ => by rw [mem_revAdj, mem_posAdj])
    fun _ _ _ hw => List.mem_range.mpr (hn _ (mem_revAdj.mp hw)).1

/-- **A relation on a positive cycle of several relations is marked.** -/
theorem marked_of_cycle {n : ℕ} {edges : List Edge} (hn : ∀ e ∈ edges, e.src < n ∧ e.dst < n)
    {u v : ℕ} (huv : Relation.ReflTransGen (PosEdge edges) u v)
    (hvu : Relation.ReflTransGen (PosEdge edges) v u) (hne : u ≠ v) (hu : u < n) (comp : ℕ → ℕ)
    (recursive : ℕ → Bool) : (markTrees (sccTrees n edges) comp recursive).2 u = true := by
  have hspec := sccTrees_spec hn
  have hmutual : Dfs.Mutual (posAdj edges) u v := by
    unfold Dfs.Mutual Dfs.Reaches
    rw [posEdge_eq]
    exact ⟨huv, hvu⟩
  obtain ⟨t, ht, htu⟩ := hspec.cover u (List.mem_range.mpr hu)
  have htv : v ∈ t.2 := (hspec.mem t ht v).mpr (((hspec.mem t ht u).mp htu).trans hmutual)
  refine (markTrees_marks _ comp recursive).2 t ht ?_ u htu
  by_contra hlen
  rcases hlist : t.2 with _ | ⟨a, _ | ⟨b, l⟩⟩
  · rw [hlist] at htu
    cases htu
  · rw [hlist, List.mem_singleton] at htu htv
    exact hne (htu.trans htv.symm)
  · rw [hlist] at hlen
    simp at hlen

/-- What the stratifier promises of the strata and the recursive relations. -/
structure Stratification (edges : List Edge) (st : ℕ → ℕ) (recursive : ℕ → Bool) : Prop where
  /-- Edges do not lower the stratum. -/
  mono : ∀ e ∈ edges, st e.src ≤ st e.dst
  /-- Negative edges raise it. -/
  strict : ∀ e ∈ edges, e.isNeg = true → st e.src < st e.dst
  /-- Relations on a positive cycle are recursive. -/
  cycle : ∀ v, Relation.TransGen (PosEdge edges) v v → recursive v = true

/-- **`compute_strata` stratifies the programs it accepts.** -/
theorem computeStrata_stratification {d : Decls} {rules : List Rule} {seeds : List ℕ}
    {comp₀ st : ℕ → ℕ} {recursive : ℕ → Bool}
    (h : computeStrata d rules seeds comp₀ = .ok st recursive) :
    Stratification (progEdges d rules) st recursive := by
  have hlt : ∀ e ∈ progEdges d rules, e.src < d.length ∧ e.dst < d.length := fun e =>
    progEdges_lt
  unfold computeStrata at h
  by_cases hzero : d.length = 0
  · have hno : ∀ e, e ∉ progEdges d rules := fun e he => by
      have := (hlt e he).1
      omega
    refine ⟨fun e he => absurd he (hno e), fun e he => absurd he (hno e), fun v hv => ?_⟩
    obtain ⟨w, hw, -⟩ := Relation.TransGen.head'_iff.mp hv
    exact absurd hw (hno _)
  · rw [if_neg hzero] at h
    dsimp only at h
    split at h
    · cases h
    · rename_i st₀ hfirst
      split at h
      · cases h
      · rename_i st' hloop
        split at h
        · cases h
        · rename_i hneg
          simp only [StrataResult.ok.injEq] at h
          obtain ⟨rfl, rfl⟩ := h
          have hstable := relaxLoop_stable hloop
          have hcap₀ : ∀ v, st₀ v ≤ stratumCap := fun v =>
            (congrArg (fun s => s.1 v ≤ stratumCap) hfirst).mp
              (relaxLoop_le (fun st h e _ => needNeg_le st e h) _ (fun _ => Nat.zero_le _) v)
          have hcap : ∀ v, st' v ≤ stratumCap := fun v =>
            (congrArg (fun s => s.1 v ≤ stratumCap) hloop).mp
              (relaxLoop_le (fun st h e _ => needRec_le _ _ st e h) _ hcap₀ v)
          refine ⟨fun e he => (le_needRec _ _ st' e hcap).trans (hstable e he), fun e he hn => ?_,
            fun v hv => ?_⟩
          · by_contra hle
            exact hneg (List.any_eq_true.mpr ⟨e, he, by simp [hn]; omega⟩)
          · obtain ⟨w, hvw, hwv⟩ := Relation.TransGen.head'_iff.mp hv
            simp only [Bool.or_eq_true, List.contains_iff_mem]
            by_cases hw : w = v
            · subst hw
              exact Or.inl (Or.inr (selfLoop_of_edge hvw))
            · exact Or.inl (Or.inl (marked_of_cycle hlt (Relation.ReflTransGen.single hvw) hwv
                (Ne.symm hw) (hlt _ hvw).1 comp₀ fun _ => false))

end DatalogDafsa
