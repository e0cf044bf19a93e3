import DatalogDafsa.Compile.Strata

/-!
# What the stratifier accepts and marks

A program whose negative edges lie on no cycle has a height: the number of relations
that lead to a relation.  Edges do not lower it, and an edge that lies on no cycle
raises it, so heights bound both relaxations and, with at most 64 relations, both
settle long before the passes run out.  The recursive marks come from the components
of the second search; the array that numbers the components is not initialised, and
the loop that marks a component reads it for relations not numbered yet.

## Main definitions

* `NoNegCycle`, `height` — programs that stratify, and the bound on their strata.
* `relaxLoop_settles` — a bounded relaxation settles.
* `StrataExact` — the contract of `compute_strata`.
* `SlotsClear`, `computeStrata_exact` — when it holds.
-/

namespace DatalogDafsa

/-! ## Bounded relaxations settle -/

/-- A pass raises strata only, and some stratum when it reports a change. -/
theorem relaxPass_grows (need : (ℕ → ℕ) → Edge → ℕ) {edges : List Edge} {n : ℕ}
    (hn : ∀ e ∈ edges, e.dst < n) (st : ℕ → ℕ) :
    (∀ v, st v ≤ (relaxPass need edges st).1 v) ∧ ((relaxPass need edges st).2 = true →
      ∑ v ∈ Finset.range n, st v < ∑ v ∈ Finset.range n, (relaxPass need edges st).1 v) := by
  have key : ∀ (es : List Edge) (s : (ℕ → ℕ) × Bool), (∀ e ∈ es, e.dst < n) →
      (∀ v, st v ≤ s.1 v) → (s.2 = true →
        ∑ v ∈ Finset.range n, st v < ∑ v ∈ Finset.range n, s.1 v) →
      (∀ v, st v ≤ (es.foldl (fun s e => if s.1 e.dst < need s.1 e then
        (Function.update s.1 e.dst (need s.1 e), true) else s) s).1 v) ∧
      ((es.foldl (fun s e => if s.1 e.dst < need s.1 e then
        (Function.update s.1 e.dst (need s.1 e), true) else s) s).2 = true →
        ∑ v ∈ Finset.range n, st v < ∑ v ∈ Finset.range n,
          (es.foldl (fun s e => if s.1 e.dst < need s.1 e then
            (Function.update s.1 e.dst (need s.1 e), true) else s) s).1 v) := by
    intro es
    induction es with
    | nil => exact fun s _ hle hlt => ⟨hle, hlt⟩
    | cons e es ih =>
      intro s hes hle hlt
      rw [List.foldl_cons]
      have hes' : ∀ e ∈ es, e.dst < n := fun e' he' => hes e' (by simp [he'])
      by_cases hraise : s.1 e.dst < need s.1 e
      · rw [if_pos hraise]
        have hup : ∀ v, st v ≤ Function.update s.1 e.dst (need s.1 e) v := fun v => by
          by_cases hv : v = e.dst
          · rw [hv, Function.update_self]
            exact (hle e.dst).trans hraise.le
          · rw [Function.update_of_ne hv]
            exact hle v
        refine ih _ hes' hup fun _ => Finset.sum_lt_sum (fun v _ => hup v) ⟨e.dst, ?_, ?_⟩
        · exact Finset.mem_range.mpr (hes e (by simp))
        · dsimp only
          rw [Function.update_self]
          exact (hle e.dst).trans_lt hraise
      · rw [if_neg hraise]
        exact ih s hes' hle hlt
  exact key edges (st, false) hn (fun _ => le_rfl) (by simp)

/-- **A bounded relaxation settles** when the passes outnumber the raises left. -/
theorem relaxLoop_settles {need : (ℕ → ℕ) → Edge → ℕ} {edges : List Edge} {cap : ℕ → ℕ} {n : ℕ}
    (hn : ∀ e ∈ edges, e.dst < n)
    (hneed : ∀ st, (∀ v, st v ≤ cap v) → ∀ e ∈ edges, need st e ≤ cap e.dst) (passes : ℕ)
    {st : ℕ → ℕ} (hst : ∀ v, st v ≤ cap v)
    (hpasses : ∑ v ∈ Finset.range n, cap v < passes + ∑ v ∈ Finset.range n, st v) :
    (relaxLoop need edges passes st).2 = false := by
  induction passes generalizing st with
  | zero =>
    have := Finset.sum_le_sum fun v (_ : v ∈ Finset.range n) => hst v
    omega
  | succ passes ih =>
    unfold relaxLoop
    have hle := relaxPass_le hneed hst
    have hgrow := (relaxPass_grows need hn st).2
    cases hp : relaxPass need edges st with
    | mk st₁ changed =>
      rw [hp] at hle hgrow
      cases changed with
      | false => rfl
      | true =>
        have := hgrow rfl
        refine ih hle ?_
        dsimp only at this
        omega

/-! ## Heights -/

/-- An edge of a program, of either sign. -/
def DepEdge (edges : List Edge) (u v : ℕ) : Prop := ∃ neg, (⟨u, v, neg⟩ : Edge) ∈ edges

/-- No cycle has a negative edge. -/
def NoNegCycle (edges : List Edge) : Prop :=
  ∀ e ∈ edges, e.isNeg = true → ¬ Relation.ReflTransGen (DepEdge edges) e.dst e.src

theorem depEdge_of_mem {edges : List Edge} {e : Edge} (he : e ∈ edges) :
    DepEdge edges e.src e.dst := ⟨e.isNeg, he⟩

section Heights

open scoped Classical

/-- The relations that lead to a relation. -/
noncomputable def height (edges : List Edge) (n v : ℕ) : ℕ :=
  ((Finset.range n).filter fun u => Relation.ReflTransGen (DepEdge edges) u v).card

theorem height_le (edges : List Edge) (n v : ℕ) : height edges n v ≤ n := by
  have := Finset.card_filter_le (Finset.range n) fun u => Relation.ReflTransGen (DepEdge edges) u v
  simpa [height] using this

theorem height_mono {edges : List Edge} (n : ℕ) {e : Edge} (he : e ∈ edges) :
    height edges n e.src ≤ height edges n e.dst := by
  refine Finset.card_le_card fun u hu => ?_
  rw [Finset.mem_filter] at hu ⊢
  exact ⟨hu.1, hu.2.tail (depEdge_of_mem he)⟩

/-- An edge on no cycle raises the height. -/
theorem height_strict {edges : List Edge} {n : ℕ} {e : Edge} (he : e ∈ edges) (hn : e.dst < n)
    (hback : ¬ Relation.ReflTransGen (DepEdge edges) e.dst e.src) :
    height edges n e.src + 1 ≤ height edges n e.dst := by
  refine Finset.card_lt_card ⟨fun u hu => ?_, fun hsub => hback ?_⟩
  · rw [Finset.mem_filter] at hu ⊢
    exact ⟨hu.1, hu.2.tail (depEdge_of_mem he)⟩
  · have hmem := hsub (Finset.mem_filter.mpr
      ⟨Finset.mem_range.mpr hn, Relation.ReflTransGen.refl⟩)
    exact (Finset.mem_filter.mp hmem).2

end Heights

/-- A path back along a positive edge has positive edges only. -/
theorem posEdge_of_back {edges : List Edge} (hneg : NoNegCycle edges) {e : Edge} (he : e ∈ edges)
    (hback : Relation.ReflTransGen (DepEdge edges) e.dst e.src) :
    Relation.ReflTransGen (PosEdge edges) e.dst e.src := by
  have key : ∀ v, Relation.ReflTransGen (DepEdge edges) e.dst v →
      Relation.ReflTransGen (DepEdge edges) v e.src →
      Relation.ReflTransGen (PosEdge edges) e.dst v := by
    intro v hv
    induction hv with
    | refl => exact fun _ => Relation.ReflTransGen.refl
    | @tail u w huv huw ih =>
      intro hw
      obtain ⟨neg, hmem⟩ := huw
      have hpos := ih (Relation.ReflTransGen.head ⟨neg, hmem⟩ hw)
      cases neg with
      | false => exact hpos.tail hmem
      | true =>
        have hcycle : Relation.ReflTransGen (DepEdge edges) w u :=
          (hw.tail (depEdge_of_mem he)).trans huv
        exact absurd hcycle (hneg _ hmem rfl)
  exact key e.src hback Relation.ReflTransGen.refl

/-! ## Marks -/

/-- Numbers already given stay, when no tree after has the relation. -/
theorem markTrees_comp_notMem {trees : List (ℕ × List ℕ)} {v : ℕ} (h : ∀ t ∈ trees, v ∉ t.2)
    (comp : ℕ → ℕ) (recursive : ℕ → Bool) : (markTrees trees comp recursive).1 v = comp v := by
  induction trees generalizing comp recursive with
  | nil => rfl
  | cons t trees ih =>
    have hstep := ih (fun t' ht' => h t' (by simp [ht'])) (fun v => if v ∈ t.2 then t.1 else comp v)
      (if 1 < t.2.length then
        fun v => recursive v || (if v ∈ t.2 then t.1 else comp v) == t.1 else recursive)
    refine hstep.trans (if_neg (h t (by simp)))

theorem markTrees_append (l₁ l₂ : List (ℕ × List ℕ)) (comp : ℕ → ℕ) (recursive : ℕ → Bool) :
    markTrees (l₁ ++ l₂) comp recursive =
      markTrees l₂ (markTrees l₁ comp recursive).1 (markTrees l₁ comp recursive).2 :=
  List.foldl_append

/-- The number of a relation is the root of its tree, when it is in one tree only. -/
theorem markTrees_comp_mem {trees : List (ℕ × List ℕ)} {t : ℕ × List ℕ} (ht : t ∈ trees) {v : ℕ}
    (hv : v ∈ t.2) (hroot : ∀ t' ∈ trees, v ∈ t'.2 → t'.1 = t.1) (comp : ℕ → ℕ)
    (recursive : ℕ → Bool) : (markTrees trees comp recursive).1 v = t.1 := by
  obtain ⟨l₁, t', l₂, rfl, hv', hlast⟩ := Dfs.exists_last (Q := fun t => v ∈ t.2) ⟨t, ht, hv⟩
  rw [markTrees_append]
  refine (markTrees_comp_notMem hlast _ _).trans ?_
  exact (if_pos hv').trans (hroot t' (by simp) hv')

/-- **A relation is marked by a tree of several relations whose root is its number at the
time**, given or not. -/
theorem markTrees_marked (trees : List (ℕ × List ℕ)) (comp : ℕ → ℕ) (v : ℕ) :
    (markTrees trees comp fun _ => false).2 v = true ↔
      ∃ l₁ t l₂, trees = l₁ ++ t :: l₂ ∧ 1 < t.2.length ∧
        (markTrees (l₁ ++ [t]) comp fun _ => false).1 v = t.1 := by
  induction trees using List.reverseRecOn with
  | nil => simp [markTrees]
  | append_singleton trees t ih =>
    have hlast : (markTrees (trees ++ [t]) comp fun _ => false).2 v = true ↔
        (markTrees trees comp fun _ => false).2 v = true ∨ 1 < t.2.length ∧
          (markTrees (trees ++ [t]) comp fun _ => false).1 v = t.1 := by
      rw [markTrees_append]
      simp only [markTrees, List.foldl_cons, List.foldl_nil]
      by_cases hlen : 1 < t.2.length
      · simp [hlen]
      · simp [hlen]
    rw [hlast, ih]
    constructor
    · rintro (⟨l₁, t', l₂, rfl, hlen, hcomp⟩ | ⟨hlen, hcomp⟩)
      · exact ⟨l₁, t', l₂ ++ [t], by simp, hlen, hcomp⟩
      · exact ⟨trees, t, [], rfl, hlen, hcomp⟩
    · rintro ⟨l₁, t', l₂, hsplit, hlen, hcomp⟩
      rcases List.eq_nil_or_concat' l₂ with rfl | ⟨l₂, y, rfl⟩
      · obtain ⟨rfl, hty⟩ := List.append_inj' hsplit rfl
        obtain rfl : t = t' := by simpa using hty
        exact .inr ⟨hlen, hcomp⟩
      · have hsplit' : trees ++ [t] = (l₁ ++ t' :: l₂) ++ [y] := by simpa using hsplit
        obtain ⟨htrees, -⟩ := List.append_inj' hsplit' rfl
        exact .inl ⟨l₁, t', l₂, htrees, hlen, hcomp⟩

/-! ## Relations on a cycle -/

/-- The relation lies on a cycle of positive edges. -/
def OnCycle (edges : List Edge) (v : ℕ) : Prop := Relation.TransGen (PosEdge edges) v v

/-- The component of the relation has another relation. -/
def Several (edges : List Edge) (v : ℕ) : Prop := ∃ w, w ≠ v ∧ Dfs.Mutual (posAdj edges) v w

/-- The relation is the last of its component to be finished by the first search. -/
def IsRoot (n : ℕ) (edges : List Edge) (r : ℕ) : Prop :=
  Dfs.IsLast (posAdj edges) (List.range n) r

/-- The first search finishes the first relation before the second. -/
def FinishedBefore (n : ℕ) (edges : List Edge) (v r : ℕ) : Prop :=
  [v, r].Sublist (Dfs.postorder (posAdj edges) (List.range n))

theorem reaches_iff {edges : List Edge} {u v : ℕ} :
    Dfs.Reaches (posAdj edges) u v ↔ Relation.ReflTransGen (PosEdge edges) u v := by
  unfold Dfs.Reaches
  rw [posEdge_eq]

/-- A cycle is a self-loop or joins two relations. -/
theorem onCycle_iff {edges : List Edge} {v : ℕ} :
    OnCycle edges v ↔ PosEdge edges v v ∨ Several edges v := by
  unfold OnCycle
  constructor
  · intro h
    obtain ⟨w, hvw, hwv⟩ := Relation.TransGen.head'_iff.mp h
    by_cases hw : w = v
    · subst hw
      exact .inl hvw
    · exact .inr ⟨w, hw, reaches_iff.mpr (Relation.ReflTransGen.single hvw), reaches_iff.mpr hwv⟩
  · rintro (h | ⟨w, hw, hvw, hwv⟩)
    · exact Relation.TransGen.single h
    · rcases Relation.reflTransGen_iff_eq_or_transGen.mp (reaches_iff.mp hvw) with heq | hvw
      · exact absurd heq hw
      · exact hvw.trans_left (reaches_iff.mp hwv)

/-- In a list without repetitions, of two elements one comes first. -/
theorem sublist_asymm {l : List ℕ} (hl : l.Nodup) {a b : ℕ} (hab : [a, b].Sublist l)
    (hba : [b, a].Sublist l) : False := by
  induction l with
  | nil => cases hab
  | cons y l ih =>
    obtain ⟨hy, hl⟩ := List.nodup_cons.mp hl
    have hmem : ∀ {u v : ℕ}, [u, v].Sublist l → u ∈ l ∧ v ∈ l := fun h =>
      ⟨h.subset (by simp), h.subset (by simp)⟩
    cases hab with
    | cons _ hab =>
      cases hba with
      | cons _ hba => exact ih hl hab hba
      | cons_cons _ hba => exact hy (hmem hab).2
    | cons_cons _ hab =>
      cases hba with
      | cons _ hba => exact hy (hmem hba).2
      | cons_cons _ hba => exact hy (hab.subset (by simp))

section Marks

variable {n : ℕ} {edges : List Edge} (hn : ∀ e ∈ edges, e.src < n ∧ e.dst < n)

include hn

theorem nodup_order : (Dfs.postorder (posAdj edges) (List.range n)).Nodup :=
  Dfs.nodup_postorder List.nodup_range fun _ _ _ hw =>
    List.mem_range.mpr (hn _ (mem_posAdj.mp hw)).2

/-- A component has one root. -/
theorem isRoot_unique {r r' : ℕ} (h : IsRoot n edges r) (h' : IsRoot n edges r')
    (hm : Dfs.Mutual (posAdj edges) r r') : r = r' := by
  by_contra hne
  exact sublist_asymm (nodup_order hn) (h r' hm (Ne.symm hne)) (h' r hm.symm hne)

/-- A tree of several relations has one beside its root. -/
theorem several_root {t : ℕ × List ℕ} (ht : t ∈ sccTrees n edges) :
    1 < t.2.length ↔ Several edges t.1 := by
  have hspec := sccTrees_spec hn
  have hroot : t.1 ∈ t.2 := (hspec.mem t ht t.1).mpr (Dfs.Mutual.refl _)
  constructor
  · intro hlen
    have hnodup := hspec.nodup t ht
    by_contra hone
    have hall : ∀ w ∈ t.2, w = t.1 := fun w hw => by
      by_contra hne
      exact hone ⟨w, hne, (hspec.mem t ht w).mp hw⟩
    rw [List.eq_replicate_of_mem hall, List.nodup_replicate] at hnodup
    omega
  · rintro ⟨w, hne, hw⟩
    have hsub : [t.1, w].Subperm t.2 := List.subperm_of_subset
      (by simpa using Ne.symm hne) (by
        intro x hx
        rcases List.mem_cons.mp hx with rfl | hx
        · exact hroot
        · obtain rfl := List.mem_singleton.mp hx
          exact (hspec.mem t ht x).mpr hw)
    exact hsub.length_le

/-- **The marks of the second search**: relations that are not alone in their component,
and those whose slot holds the root of such a component before their own is numbered. -/
theorem marked_iff {v : ℕ} (hv : v < n) (comp₀ : ℕ → ℕ) :
    (markTrees (sccTrees n edges) comp₀ fun _ => false).2 v = true ↔ Several edges v ∨
      (IsRoot n edges (comp₀ v) ∧ Several edges (comp₀ v) ∧
        FinishedBefore n edges v (comp₀ v)) := by
  have hspec := sccTrees_spec hn
  obtain ⟨tv, htv, hvt⟩ := hspec.cover v (List.mem_range.mpr hv)
  by_cases hseveral : Several edges v
  · obtain ⟨w, hw, hvw, hwv⟩ := hseveral
    have := marked_of_cycle hn (reaches_iff.mp hvw) (reaches_iff.mp hwv) (Ne.symm hw) hv comp₀
      fun _ => false
    exact ⟨fun _ => .inl ⟨w, hw, hvw, hwv⟩, fun _ => this⟩
  -- the component of `v` is `v` alone
  have halone : ∀ t ∈ sccTrees n edges, v ∈ t.2 → t.1 = v := fun t ht hv => by
    by_contra hne
    exact hseveral ⟨t.1, hne, ((hspec.mem t ht v).mp hv).symm⟩
  have hnodup := nodup_order hn
  rw [markTrees_marked]
  constructor
  · rintro ⟨l₁, t, l₂, hsplit, hlen, hcomp⟩
    have hmem : ∀ t' ∈ l₁ ++ [t], t' ∈ sccTrees n edges := fun t' ht' => by
      rw [hsplit]
      exact (List.append_cons l₁ t l₂) ▸ List.mem_append_left _ ht'
    have ht := hmem t (by simp)
    have hseveral' := (several_root hn ht).mp hlen
    have hnot : ∀ t' ∈ l₁ ++ [t], v ∉ t'.2 := fun t' ht' hvt' => by
      rw [markTrees_comp_mem ht' hvt' (fun t'' ht'' hv'' => (halone t'' (hmem t'' ht'') hv'').trans
        (halone t' (hmem t' ht') hvt').symm), halone t' (hmem t' ht') hvt'] at hcomp
      exact hseveral (hcomp ▸ hseveral')
    rw [markTrees_comp_notMem hnot] at hcomp
    rw [hcomp]
    refine .inr ⟨hspec.last t ht, hseveral', ?_⟩
    have htv' : tv ∈ l₂ := by
      rw [hsplit, List.append_cons] at htv
      rcases List.mem_append.mp htv with h | h
      · exact absurd hvt (hnot tv h)
      · exact h
    have hsub : [t.1, v].Sublist ((sccTrees n edges).map Prod.fst) := by
      rw [hsplit, List.map_append, List.map_cons]
      refine List.Sublist.trans ?_ (List.sublist_append_right _ _)
      refine (List.singleton_sublist.mpr ?_).cons_cons t.1
      exact List.mem_map.mpr ⟨tv, htv', halone tv htv hvt⟩
    unfold FinishedBefore
    simpa using (hsub.trans hspec.roots).reverse
  · rintro (h | ⟨hroot, hseveral', hbefore⟩)
    · exact absurd h hseveral
    obtain ⟨w, hw, hmutual⟩ := hseveral'
    have hrn : comp₀ v < n := by
      rcases Relation.ReflTransGen.cases_head (reaches_iff.mp hmutual.1) with heq | ⟨x, hx, -⟩
      · exact absurd heq.symm hw
      · exact (hn _ hx).1
    obtain ⟨t, ht, hrt⟩ := hspec.cover (comp₀ v) (List.mem_range.mpr hrn)
    have htr : t.1 = comp₀ v :=
      isRoot_unique hn (hspec.last t ht) hroot ((hspec.mem t ht _).mp hrt)
    obtain ⟨l₁, l₂, hsplit⟩ := List.append_of_mem ht
    refine ⟨l₁, t, l₂, hsplit, (several_root hn ht).mpr (htr ▸ ⟨w, hw, hmutual⟩), ?_⟩
    rw [htr]
    refine markTrees_comp_notMem (fun t' ht' hvt' => ?_) _ _
    -- no tree up to that of the root is that of `v`
    have hmem : t' ∈ sccTrees n edges := by
      rw [hsplit]
      exact (List.append_cons l₁ t l₂) ▸ List.mem_append_left _ ht'
    have hv' := halone t' hmem hvt'
    rcases List.mem_append.mp ht' with ht' | ht'
    · have hsub : [v, comp₀ v].Sublist ((sccTrees n edges).map Prod.fst) := by
        rw [hsplit, List.map_append, List.map_cons, htr]
        have hleft : [v].Sublist (l₁.map Prod.fst) :=
          List.singleton_sublist.mpr (List.mem_map.mpr ⟨t', ht', hv'⟩)
        have hright : [comp₀ v].Sublist (comp₀ v :: l₂.map Prod.fst) :=
          List.singleton_sublist.mpr List.mem_cons_self
        exact hleft.append hright
      have hrev : [comp₀ v, v].Sublist (Dfs.postorder (posAdj edges) (List.range n)) := by
        simpa using (hsub.trans hspec.roots).reverse
      exact sublist_asymm hnodup hbefore hrev
    · obtain rfl := List.mem_singleton.mp ht'
      exact hseveral (hv' ▸ htr ▸ ⟨w, hw, hmutual⟩)

/-- **The numbers tell the components apart.** -/
theorem comp_eq_iff {u v : ℕ} (hu : u < n) (hv : v < n) (comp₀ : ℕ → ℕ) (recursive : ℕ → Bool) :
    (markTrees (sccTrees n edges) comp₀ recursive).1 u =
      (markTrees (sccTrees n edges) comp₀ recursive).1 v ↔ Dfs.Mutual (posAdj edges) u v := by
  have hspec := sccTrees_spec hn
  -- the number of a relation is the root of its component
  have hcomp : ∀ w < n, IsRoot n edges ((markTrees (sccTrees n edges) comp₀ recursive).1 w) ∧
      Dfs.Mutual (posAdj edges) ((markTrees (sccTrees n edges) comp₀ recursive).1 w) w := by
    intro w hw
    obtain ⟨t, ht, hwt⟩ := hspec.cover w (List.mem_range.mpr hw)
    have hroot : ∀ t' ∈ sccTrees n edges, w ∈ t'.2 → t'.1 = t.1 := fun t' ht' hwt' =>
      isRoot_unique hn (hspec.last t' ht') (hspec.last t ht)
        (((hspec.mem t' ht' w).mp hwt').trans ((hspec.mem t ht w).mp hwt).symm)
    rw [markTrees_comp_mem ht hwt hroot]
    exact ⟨hspec.last t ht, (hspec.mem t ht w).mp hwt⟩
  obtain ⟨hru, hmu⟩ := hcomp u hu
  obtain ⟨hrv, hmv⟩ := hcomp v hv
  constructor
  · intro heq
    rw [heq] at hmu
    exact hmu.symm.trans hmv
  · exact fun huv => isRoot_unique hn hru hrv (hmu.trans (huv.trans hmv.symm))

end Marks

/-! ## The contract -/

/-- What is asked of `compute_strata`, recursive heads of earlier batches given. -/
structure StrataExact (edges : List Edge) (n : ℕ) (seeds : List ℕ) (res : StrataResult) :
    Prop where
  /-- It accepts the programs without negative edges on cycles. -/
  accepts : res.isOk = true ↔ NoNegCycle edges
  /-- Edges do not lower the stratum. -/
  mono : res.isOk = true → ∀ e ∈ edges, res.strata e.src ≤ res.strata e.dst
  /-- Negative edges raise it. -/
  strict : res.isOk = true → ∀ e ∈ edges, e.isNeg = true →
    res.strata e.src + 1 ≤ res.strata e.dst
  /-- So do positive edges that leave a recursive component. -/
  leave : res.isOk = true → ∀ e ∈ edges, OnCycle edges e.src ∨ e.src ∈ seeds →
    ¬ Relation.ReflTransGen (PosEdge edges) e.dst e.src → res.strata e.src + 1 ≤ res.strata e.dst
  /-- The marks are the relations on a positive cycle and the heads given. -/
  marks : res.isOk = true → ∀ v < n,
    (res.recursive v = true ↔ OnCycle edges v ∨ v ∈ seeds)

/-- The marks that `compute_strata` computes. -/
def recursiveMarks (d : Decls) (rules : List Rule) (seeds : List ℕ) (comp₀ : ℕ → ℕ) :
    ℕ → Bool := fun v =>
  (markTrees (sccTrees d.length (progEdges d rules)) comp₀ fun _ => false).2 v ||
    (rules.filterMap (ruleSelfLoop d)).contains v || seeds.contains v

/-- The numbers of the components that it computes. -/
def compNumbers (d : Decls) (rules : List Rule) (comp₀ : ℕ → ℕ) : ℕ → ℕ :=
  (markTrees (sccTrees d.length (progEdges d rules)) comp₀ fun _ => false).1

theorem sum_height_le (edges : List Edge) {n : ℕ} (hn : n ≤ 64) :
    ∑ v ∈ Finset.range n, height edges n v < maxPasses := by
  have hsum := Finset.sum_le_card_nsmul (Finset.range n) (height edges n) n
    fun v _ => height_le edges n v
  rw [Finset.card_range, smul_eq_mul] at hsum
  calc ∑ v ∈ Finset.range n, height edges n v ≤ n * n := hsum
    _ ≤ 64 * 64 := Nat.mul_le_mul hn hn
    _ < maxPasses := by decide

/-- Heights bound what the edges need. -/
theorem need_le_height {edges : List Edge} {n : ℕ} (hn : ∀ e ∈ edges, e.src < n ∧ e.dst < n)
    (hneg : NoNegCycle edges) {recursive : ℕ → Bool} {comp : ℕ → ℕ}
    (hcomp : ∀ u v, Dfs.Mutual (posAdj edges) u v → u < n → v < n → comp u = comp v)
    (st : ℕ → ℕ) (hst : ∀ v, st v ≤ height edges n v) (e : Edge) (he : e ∈ edges) :
    needNeg st e ≤ height edges n e.dst ∧ needRec recursive comp st e ≤ height edges n e.dst := by
  have hsrc := hst e.src
  have hmono := height_mono n he
  have hraise (hback : ¬ Relation.ReflTransGen (DepEdge edges) e.dst e.src) :
      min (st e.src + 1) stratumCap ≤ height edges n e.dst := by
    have := height_strict he (hn e he).2 hback
    exact (min_le_left _ _).trans (by omega)
  unfold needNeg needRec
  by_cases hsign : e.isNeg = true
  · rw [if_pos hsign, if_pos hsign]
    exact ⟨hraise (hneg e he hsign), hraise (hneg e he hsign)⟩
  · rw [if_neg hsign, if_neg hsign]
    refine ⟨hsrc.trans hmono, ?_⟩
    split
    · -- the edge leaves a component, so no path comes back
      rename_i hleave
      refine hraise fun hback => ?_
      have hpos : PosEdge edges e.src e.dst := by
        have heq : (⟨e.src, e.dst, false⟩ : Edge) = e := by
          cases e
          simp only [Edge.mk.injEq, true_and]
          simpa using hsign
        exact heq ▸ he
      have hm : Dfs.Mutual (posAdj edges) e.src e.dst :=
        ⟨reaches_iff.mpr (Relation.ReflTransGen.single hpos),
          reaches_iff.mpr (posEdge_of_back hneg he hback)⟩
      simp [hcomp _ _ hm (hn e he).1 (hn e he).2] at hleave
    · exact hsrc.trans hmono

/-- **Programs without negative edges on cycles are accepted.** -/
theorem computeStrata_ok {d : Decls} {rules : List Rule} (seeds : List ℕ) (comp₀ : ℕ → ℕ)
    (hd : d.length ≤ 64) (hpos : d.length ≠ 0) (hneg : NoNegCycle (progEdges d rules)) :
    ∃ st, computeStrata d rules seeds comp₀ = .ok st (recursiveMarks d rules seeds comp₀) ∧
      (∀ v, st v ≤ 64) ∧ ∀ e ∈ progEdges d rules,
        needRec (recursiveMarks d rules seeds comp₀) (compNumbers d rules comp₀) st e ≤
          st e.dst := by
  have hn : ∀ e ∈ progEdges d rules, e.src < d.length ∧ e.dst < d.length := fun e => progEdges_lt
  have hcomp : ∀ u v, Dfs.Mutual (posAdj (progEdges d rules)) u v → u < d.length → v < d.length →
      compNumbers d rules comp₀ u = compNumbers d rules comp₀ v := fun u v huv hu hv =>
    (comp_eq_iff hn hu hv comp₀ _).mpr huv
  have hneed : ∀ st : ℕ → ℕ, (∀ v, st v ≤ height (progEdges d rules) d.length v) →
      ∀ e ∈ progEdges d rules, needNeg st e ≤ height (progEdges d rules) d.length e.dst ∧
        needRec (recursiveMarks d rules seeds comp₀) (compNumbers d rules comp₀) st e ≤
          height (progEdges d rules) d.length e.dst := fun st hst e he =>
    need_le_height hn hneg hcomp st hst e he
  have hdst : ∀ e ∈ progEdges d rules, e.dst < d.length := fun e he => (hn e he).2
  -- the first relaxation
  have hzero : ∀ v, (fun _ => 0 : ℕ → ℕ) v ≤ height (progEdges d rules) d.length v := fun v =>
    Nat.zero_le _
  have hsettle₁ := relaxLoop_settles hdst
    (fun st hst e he => (hneed st hst e he).1) maxPasses hzero
    (by simpa using sum_height_le (progEdges d rules) hd)
  have hle₁ := relaxLoop_le (fun st hst e he => (hneed st hst e he).1)
    maxPasses hzero
  obtain ⟨st₁, hloop₁⟩ : ∃ st₁, relaxLoop needNeg (progEdges d rules) maxPasses (fun _ => 0) =
      (st₁, false) := ⟨_, Prod.ext rfl hsettle₁⟩
  rw [hloop₁] at hle₁
  -- the second relaxation
  have hsettle₂ := relaxLoop_settles hdst
    (fun st hst e he => (hneed st hst e he).2) maxPasses hle₁
    (by have := sum_height_le (progEdges d rules) hd; omega)
  have hle₂ := relaxLoop_le
    (fun st hst e he => (hneed st hst e he).2) maxPasses hle₁
  obtain ⟨st₂, hloop₂⟩ : ∃ st₂, relaxLoop (needRec (recursiveMarks d rules seeds comp₀)
      (compNumbers d rules comp₀)) (progEdges d rules) maxPasses st₁ = (st₂, false) :=
    ⟨_, Prod.ext rfl hsettle₂⟩
  rw [hloop₂] at hle₂
  have hstable := relaxLoop_stable hloop₂
  have hle : ∀ v, st₂ v ≤ 64 := fun v => (hle₂ v).trans ((height_le _ _ v).trans hd)
  refine ⟨st₂, ?_, hle, hstable⟩
  have hcheck : ¬ (progEdges d rules).any
      (fun e => e.isNeg && decide (st₂ e.dst ≤ st₂ e.src)) = true := by
    intro hany
    obtain ⟨e, he, hbad⟩ := List.any_eq_true.mp hany
    simp only [Bool.and_eq_true, decide_eq_true_eq] at hbad
    have hraise := hstable e he
    unfold needRec at hraise
    rw [if_pos hbad.1] at hraise
    have := hle e.src
    unfold stratumCap at hraise
    omega
  have hall : computeStrata d rules seeds comp₀ =
      if (progEdges d rules).any (fun e => e.isNeg && decide (st₂ e.dst ≤ st₂ e.src)) = true then
        .unstratifiable
      else .ok st₂ (recursiveMarks d rules seeds comp₀) := by
    unfold computeStrata
    rw [if_neg hpos]
    unfold progEdges at hloop₁ hloop₂ ⊢
    dsimp only
    rw [hloop₁]
    dsimp only
    unfold recursiveMarks compNumbers progEdges at hloop₂
    rw [hloop₂]
    rfl
  rw [hall, if_neg hcheck]

/-- A self-loop of an accepted program is a positive edge. -/
theorem mem_selfLoops_iff {d : Decls} {rules : List Rule} (hneg : NoNegCycle (progEdges d rules))
    {v : ℕ} : v ∈ rules.filterMap (ruleSelfLoop d) ↔ PosEdge (progEdges d rules) v v := by
  refine ⟨fun h => ?_, selfLoop_of_edge⟩
  obtain ⟨r, hr, hloop⟩ := List.mem_filterMap.mp h
  unfold ruleSelfLoop at hloop
  cases hhead : d.find r.head.pred with
  | none => rw [hhead] at hloop; cases hloop
  | some head =>
    rw [hhead] at hloop
    dsimp only at hloop
    split at hloop
    · rename_i hany
      obtain rfl : head = v := by simpa using hloop
      obtain ⟨a, ha, hself⟩ := List.any_eq_true.mp hany
      simp only [Bool.and_eq_true, Option.isNone_iff_eq_none, decide_eq_true_eq] at hself
      have hmem : (⟨head, head, a.negated⟩ : Edge) ∈ progEdges d rules := by
        refine List.mem_flatMap.mpr ⟨r, hr, ?_⟩
        unfold ruleEdges
        rw [hhead]
        refine List.mem_filterMap.mpr ⟨a, ha, ?_⟩
        unfold atomEdge
        rw [hself.1, hself.2]
        rfl
      by_cases hsign : a.negated = true
      · exact absurd Relation.ReflTransGen.refl (hneg _ hmem hsign)
      · rw [Bool.not_eq_true] at hsign
        rw [hsign] at hmem
        exact hmem
    · cases hloop

/-- **Accepted programs have no negative edge on a cycle**: strata would have to fall. -/
theorem noNegCycle_of_ok {d : Decls} {rules : List Rule} {seeds : List ℕ} {comp₀ : ℕ → ℕ}
    (hok : (computeStrata d rules seeds comp₀).isOk = true) : NoNegCycle (progEdges d rules) := by
  have hsound := computeStrata_stratification (StrataResult.eq_ok hok)
  intro e he hsign hback
  have hle : ∀ u v, Relation.ReflTransGen (DepEdge (progEdges d rules)) u v →
      (computeStrata d rules seeds comp₀).strata u ≤
        (computeStrata d rules seeds comp₀).strata v := by
    intro u v huv
    induction huv with
    | refl => exact le_rfl
    | tail _ hedge ih =>
      obtain ⟨neg, hmem⟩ := hedge
      exact ih.trans (hsound.mono _ hmem)
  have := hle _ _ hback
  have := hsound.strict e he hsign
  omega

/-- **The stratifier accepts exactly the programs without negative edges on cycles.** -/
theorem computeStrata_isOk_iff {d : Decls} (hd : d.length ≤ 64) (rules : List Rule)
    (seeds : List ℕ) (comp₀ : ℕ → ℕ) :
    (computeStrata d rules seeds comp₀).isOk = true ↔ NoNegCycle (progEdges d rules) := by
  refine ⟨noNegCycle_of_ok, fun hneg => ?_⟩
  by_cases hpos : d.length = 0
  · unfold computeStrata
    rw [if_pos hpos]
    rfl
  · obtain ⟨st, hres, -⟩ := computeStrata_ok seeds comp₀ hd hpos hneg
    rw [hres]
    rfl

/-- No relation that is to stay unmarked holds, in its slot of the component array, the root
of a component of several relations that the first search finishes after it. -/
def SlotsClear (edges : List Edge) (n : ℕ) (seeds : List ℕ) (comp₀ : ℕ → ℕ) : Prop :=
  ∀ v < n, ¬ OnCycle edges v → v ∉ seeds →
    ¬ (IsRoot n edges (comp₀ v) ∧ Several edges (comp₀ v) ∧ FinishedBefore n edges v (comp₀ v))

/-- What is marked, in an accepted program. -/
theorem recursive_iff {d : Decls} (hd : d.length ≤ 64) {rules : List Rule} (seeds : List ℕ)
    (comp₀ : ℕ → ℕ) (hneg : NoNegCycle (progEdges d rules)) {v : ℕ} (hv : v < d.length) :
    (computeStrata d rules seeds comp₀).recursive v = true ↔
      (OnCycle (progEdges d rules) v ∨ v ∈ seeds) ∨
        (IsRoot d.length (progEdges d rules) (comp₀ v) ∧ Several (progEdges d rules) (comp₀ v) ∧
          FinishedBefore d.length (progEdges d rules) v (comp₀ v)) := by
  obtain ⟨st, hres, -⟩ := computeStrata_ok seeds comp₀ hd (by omega) hneg
  rw [hres]
  simp only [StrataResult.recursive, recursiveMarks, Bool.or_eq_true, List.contains_iff_mem]
  rw [marked_iff (fun e => progEdges_lt) hv, mem_selfLoops_iff hneg, onCycle_iff]
  tauto

/-- A positive edge that leaves the component of a marked relation raises the stratum. -/
theorem strata_leave {d : Decls} (hd : d.length ≤ 64) {rules : List Rule} {seeds : List ℕ}
    {comp₀ : ℕ → ℕ} (hneg : NoNegCycle (progEdges d rules)) {e : Edge}
    (he : e ∈ progEdges d rules)
    (hmark : (computeStrata d rules seeds comp₀).recursive e.src = true)
    (hback : ¬ Relation.ReflTransGen (PosEdge (progEdges d rules)) e.dst e.src) :
    (computeStrata d rules seeds comp₀).strata e.src + 1 ≤
      (computeStrata d rules seeds comp₀).strata e.dst := by
  have hn : ∀ e ∈ progEdges d rules, e.src < d.length ∧ e.dst < d.length := fun e => progEdges_lt
  have hsrc := (hn e he).1
  obtain ⟨st, hres, hle, hstable⟩ := computeStrata_ok seeds comp₀ hd (by omega) hneg
  rw [hres] at hmark ⊢
  have hraise := hstable e he
  have hne : compNumbers d rules comp₀ e.src ≠ compNumbers d rules comp₀ e.dst := fun heq =>
    hback (reaches_iff.mp ((comp_eq_iff hn hsrc (hn e he).2 comp₀ _).mp heq).2)
  have hmark' : recursiveMarks d rules seeds comp₀ e.src = true := hmark
  have hcap := hle e.src
  unfold needRec at hraise
  simp only [hmark', Bool.true_and, bne_iff_ne, ne_eq, hne, not_false_eq_true, if_true,
    ite_self] at hraise
  simp only [StrataResult.strata]
  unfold stratumCap at hraise
  omega

/-- **`compute_strata` accepts the programs that stratify, and its strata are right; its
marks are right if and only if the uninitialised slots are clear.** -/
theorem computeStrata_exact {d : Decls} (hd : d.length ≤ 64) (rules : List Rule) (seeds : List ℕ)
    (comp₀ : ℕ → ℕ) :
    StrataExact (progEdges d rules) d.length seeds (computeStrata d rules seeds comp₀) ↔
      (NoNegCycle (progEdges d rules) →
        SlotsClear (progEdges d rules) d.length seeds comp₀) := by
  have haccepts := computeStrata_isOk_iff hd rules seeds comp₀
  constructor
  · intro hexact hneg v hv hcycle hseed hbad
    have hmark := (recursive_iff hd seeds comp₀ hneg hv).mpr (.inr hbad)
    rcases (hexact.marks (haccepts.mpr hneg) v hv).mp hmark with h | h
    · exact hcycle h
    · exact hseed h
  · intro hclear
    refine ⟨haccepts, fun hok => ?_, fun hok => ?_, fun hok e he hrec hback => ?_,
      fun hok v hv => ?_⟩
    · exact (computeStrata_stratification (StrataResult.eq_ok hok)).mono
    · exact (computeStrata_stratification (StrataResult.eq_ok hok)).strict
    · have hneg := haccepts.mp hok
      have hmark := (recursive_iff hd seeds comp₀ hneg (progEdges_lt he).1).mpr (.inl hrec)
      exact strata_leave hd hneg he hmark hback
    · rw [recursive_iff hd seeds comp₀ (haccepts.mp hok) hv]
      have := hclear (haccepts.mp hok) v hv
      tauto

/-- `h(X) :- b(X).` -/
def readRule (h b : String) : Rule :=
  { head := { pred := h, args := [.var "X"] }, body := [{ pred := b, args := [.var "X"] }] }

/-- The contract on two relations that read each other, slots filled with ones. -/
theorem computeStrata_exact_sample :
    StrataExact (progEdges ["p", "q"] [readRule "p" "q", readRule "q" "p"]) 2 []
        (computeStrata ["p", "q"] [readRule "p" "q", readRule "q" "p"] [] fun _ => 1) ↔
      (NoNegCycle (progEdges ["p", "q"] [readRule "p" "q", readRule "q" "p"]) →
        SlotsClear (progEdges ["p", "q"] [readRule "p" "q", readRule "q" "p"]) 2 [] fun _ => 1) :=
  computeStrata_exact (d := ["p", "q"]) (by decide) _ [] fun _ => 1

/-- A relation that only reads a recursive one is marked, when its slot holds zero. -/
theorem not_computeStrata_exact : ¬ StrataExact
    (progEdges ["p", "q", "v"] [readRule "p" "q", readRule "q" "p", readRule "v" "p"]) 3 []
    (computeStrata ["p", "q", "v"] [readRule "p" "q", readRule "q" "p", readRule "v" "p"] []
      fun _ => 0) := by
  intro h
  have hres : (computeStrata ["p", "q", "v"]
      [readRule "p" "q", readRule "q" "p", readRule "v" "p"] [] fun _ => 0).isOk = true ∧
      (computeStrata ["p", "q", "v"]
        [readRule "p" "q", readRule "q" "p", readRule "v" "p"] [] fun _ => 0).recursive 2 =
        true := by
    decide
  have hedges : progEdges ["p", "q", "v"] [readRule "p" "q", readRule "q" "p", readRule "v" "p"] =
      [⟨1, 0, false⟩, ⟨0, 1, false⟩, ⟨0, 2, false⟩] := by
    decide
  rcases (h.marks hres.1 2 (by decide)).mp hres.2 with hcycle | hseed
  · -- no edge leaves `v`
    rw [hedges] at hcycle
    obtain ⟨w, hw, -⟩ := Relation.TransGen.head'_iff.mp hcycle
    simp [PosEdge] at hw
  · cases hseed

end DatalogDafsa
