import DatalogDafsa.Lib.Dfs

/-!
# Strongly connected components by two depth-first searches

The first pass lists the vertices in the order it finishes them.  What a vertex
reaches is finished before it, unless a vertex of its own component is finished
later; so the last vertex of a component comes after all that the component reaches.
The second pass follows the edges backwards and takes its roots from the end of that
list: what it can still visit from a root reaches the root and is reached by it.

## Main definitions

* `Reaches`, `Mutual` — paths, and vertices of one component.
* `postorder`, `sccForest` — the two passes.
* `postorder_last` — what the last vertex of a component reaches comes before it.
* `sccForest_spec` — the trees of the second pass are the components.
-/

namespace Dfs

section Kosaraju

variable {V : Type*} (adj radj : V → List V)

/-- There is a path from the first vertex to the second. -/
def Reaches : V → V → Prop := Relation.ReflTransGen fun a b => b ∈ adj a

/-- The two are in one component. -/
def Mutual (u v : V) : Prop := Reaches adj u v ∧ Reaches adj v u

variable [DecidableEq V]

/-- The vertices in the order they are finished. -/
def postorder (U : List V) : List V := (forest adj (dfsFuel adj U) U []).flatMap Prod.snd

/-- The second pass: trees along the reversed edges, roots from the end of the list. -/
def sccForest (U : List V) : List (V × List V) :=
  forest radj (dfsFuel radj U) (postorder adj U).reverse []

variable {adj radj}

omit [DecidableEq V] in
theorem Mutual.symm {u v : V} (h : Mutual adj u v) : Mutual adj v u := ⟨h.2, h.1⟩

omit [DecidableEq V] in
theorem Mutual.trans {u v w : V} (h : Mutual adj u v) (h' : Mutual adj v w) : Mutual adj u w :=
  ⟨Relation.ReflTransGen.trans h.1 h'.1, Relation.ReflTransGen.trans h'.2 h.2⟩

omit [DecidableEq V] in
theorem Mutual.refl (u : V) : Mutual adj u u :=
  ⟨Relation.ReflTransGen.refl, Relation.ReflTransGen.refl⟩

/-! ## The order in which a search finishes vertices -/

/-- What a vertex reaches was visited before the search or is finished before the
vertex, unless a vertex of its component is finished later or still open. -/
def Ordered (adj : V → List V) (vis₀ post opened : List V) : Prop :=
  ∀ a v b, post = a ++ v :: b → ∀ x, Reaches adj v x →
    x ∈ vis₀ ∨ x ∈ a ∨ x = v ∨ ∃ m ∈ b ++ opened, Mutual adj v m

/-- A search from `r`: each open vertex is a neighbour of the one below it. -/
structure Descent (adj : V → List V) (vis₀ : List V) (r : V) (st : List (V × List V))
    (post : List V) : Prop where
  /-- The stack is a path. -/
  path : st.IsChain fun f g => f.1 ∈ adj g.1
  /-- What is left to try are neighbours. -/
  rest : ∀ f ∈ st, ∀ w ∈ f.2, w ∈ adj f.1
  /-- All is reached from the root. -/
  root : ∀ v ∈ post ++ st.map Prod.fst, Reaches adj r v
  /-- The order of the finished vertices. -/
  order : Ordered adj vis₀ post (st.map Prod.fst)

omit [DecidableEq V] in
/-- Every open vertex reaches the top of the stack. -/
theorem reaches_top {f : V × List V} {st : List (V × List V)}
    (h : (f :: st).IsChain fun f g => f.1 ∈ adj g.1) : ∀ g ∈ f :: st, Reaches adj g.1 f.1 := by
  induction st generalizing f with
  | nil =>
    intro g hg
    obtain rfl := List.mem_singleton.mp hg
    exact Relation.ReflTransGen.refl
  | cons g st ih =>
    obtain ⟨hfg, hchain⟩ := List.isChain_cons_cons.mp h
    intro g' hg'
    rcases List.mem_cons.mp hg' with rfl | hg'
    · exact Relation.ReflTransGen.refl
    · exact Relation.ReflTransGen.tail (ih hchain g' hg') hfg

omit [DecidableEq V] in
/-- **Finishing a vertex keeps the order**: from its visited neighbours on, a path stays
among finished vertices or comes to an open one, which reaches the vertex. -/
theorem Descent.finish {U vis₀ vis post : List V} {r v : V} {st : List (V × List V)}
    (h₀ : Closed adj vis₀) (hinv : Inv adj U vis₀ ((v, []) :: st) vis post)
    (h : Descent adj vis₀ r ((v, []) :: st) post) : Descent adj vis₀ r st (post ++ [v]) where
  path := h.path.tail
  rest f hf := h.rest f (by simp [hf])
  root := by simpa using h.root
  order a u b hsplit x hux := by
    rcases List.eq_nil_or_concat' b with rfl | ⟨b', y, rfl⟩
    · obtain ⟨rfl, huv⟩ := List.append_inj' hsplit rfl
      obtain rfl : v = u := by simpa using huv
      have hreach : ∀ x, Reaches adj v x → (x ∈ vis₀ ∨ x ∈ post ∨ x = v) ∨
          ∃ m ∈ st.map Prod.fst, Mutual adj v m := by
        intro x hvx
        induction hvx with
        | refl => exact .inl (.inr (.inr rfl))
        | @tail y z hvy hyz ih =>
          rcases ih with hy | hm
          · have hz : z ∈ vis := by
              rcases hy with hy | hy | rfl
              · exact (hinv.mem z).mpr (.inl (h₀ y hy z hyz))
              · exact hinv.done y hy z hyz
              · simpa using hinv.left (y, []) (by simp) z hyz
            rcases (hinv.mem z).mp hz with hz | hz | hz
            · exact .inl (.inl hz)
            · exact .inl (.inr (.inl hz))
            · simp only [List.map_cons, List.mem_cons] at hz
              rcases hz with rfl | hz
              · exact .inl (.inr (.inr rfl))
              · obtain ⟨f, hf, rfl⟩ := List.mem_map.mp hz
                refine .inr ⟨f.1, hz, Relation.ReflTransGen.tail hvy hyz, ?_⟩
                exact reaches_top h.path f (by simp [hf])
          · exact .inr hm
      rcases hreach x hux with (hx | hx | hx) | hm
      · exact .inl hx
      · exact .inr (.inl hx)
      · exact .inr (.inr (.inl hx))
      · exact .inr (.inr (.inr (by simpa using hm)))
    · have hsplit' : post ++ [v] = (a ++ u :: b') ++ [y] := by simpa using hsplit
      obtain ⟨hpost, hvy⟩ := List.append_inj' hsplit' rfl
      obtain rfl : v = y := by simpa using hvy
      simpa using h.order a u b' hpost x hux

omit [DecidableEq V] in
theorem Descent.skip {vis₀ post ws : List V} {r v w : V} {st : List (V × List V)}
    (h : Descent adj vis₀ r ((v, w :: ws) :: st) post) :
    Descent adj vis₀ r ((v, ws) :: st) post where
  path := by
    cases st with
    | nil => simp
    | cons g st => exact List.isChain_cons_cons.mpr (List.isChain_cons_cons.mp h.path)
  rest f hf x hx := by
    rcases List.mem_cons.mp hf with rfl | hf
    · exact h.rest (v, w :: ws) (by simp) x (by simp [hx])
    · exact h.rest f (by simp [hf]) x hx
  root := h.root
  order := h.order

omit [DecidableEq V] in
theorem Descent.visit {vis₀ post ws : List V} {r v w : V} {st : List (V × List V)}
    (h : Descent adj vis₀ r ((v, w :: ws) :: st) post) :
    Descent adj vis₀ r ((w, adj w) :: (v, ws) :: st) post where
  path := List.isChain_cons_cons.mpr ⟨h.rest (v, w :: ws) (by simp) w (by simp), h.skip.path⟩
  rest f hf x hx := by
    rcases List.mem_cons.mp hf with rfl | hf
    · exact hx
    · exact h.skip.rest f hf x hx
  root x hx := by
    simp only [List.map_cons, List.mem_append, List.mem_cons] at hx
    rcases hx with hx | rfl | rfl | hx
    · exact h.root x (by simp [hx])
    · refine Relation.ReflTransGen.tail (h.root v (by simp)) ?_
      exact h.rest (v, x :: ws) (by simp) x (by simp)
    · exact h.root x (by simp)
    · exact h.root x (by
        simp only [List.map_cons, List.mem_append, List.mem_cons]
        exact .inr (.inr hx))
  order a u b hsplit x hux := by
    rcases h.order a u b hsplit x hux with hx | hx | hx | ⟨m, hm, hum⟩
    · exact .inl hx
    · exact .inr (.inl hx)
    · exact .inr (.inr (.inl hx))
    · refine .inr (.inr (.inr ⟨m, ?_, hum⟩))
      simp only [List.map_cons, List.mem_append, List.mem_cons] at hm ⊢
      tauto

/-- **What one search finishes is reached from its root, and ordered.** -/
theorem dfs_descent {U : List V} (hU : U.Nodup) (hadj : ∀ v ∈ U, ∀ w ∈ adj v, w ∈ U) {r : V}
    (hr : r ∈ U) {vis : List V} (hvis : Closed adj vis) (hnot : r ∉ vis) {fuel : ℕ}
    (hfuel : dfsFuel adj U ≤ fuel) :
    Descent adj vis r [] (dfs adj fuel [(r, adj r)] (r :: vis) []).2 := by
  refine (dfs_induct hU hadj (P := fun st _ post => Descent adj vis r st post)
    (fun v st _ post hinv h => h.finish hvis hinv) (fun v w ws st _ post h => h.skip)
    (fun v w ws st _ post _ h => h.visit) fuel _ _ [] (inv_root hadj hr hnot)
    (work_root hU hr hnot hfuel) ?_).2
  exact {
    path := by simp
    rest := fun f hf w hw => by
      obtain rfl := List.mem_singleton.mp hf
      exact hw
    root := fun v hv => by
      obtain rfl : v = r := by simpa using hv
      exact Relation.ReflTransGen.refl
    order := fun a v b h => by simp at h }

/-! ## The first pass -/

omit [DecidableEq V] in
/-- Orders are put together when the second search finds visited what the first left. -/
theorem Ordered.append {vis vis' post post' : List V} (h : Ordered adj vis post [])
    (h' : Ordered adj vis' post' []) (hvis : ∀ x ∈ vis', x ∈ vis ∨ x ∈ post) :
    Ordered adj vis (post ++ post') [] := by
  intro a v b hsplit x hvx
  rcases List.append_eq_append_iff.mp hsplit with ⟨a', rfl, hpost'⟩ | ⟨b', hpost, hb⟩
  · rcases h' a' v b hpost' x hvx with hx | hx | hx | hm
    · rcases hvis x hx with hx | hx
      · exact .inl hx
      · exact .inr (.inl (by simp [hx]))
    · exact .inr (.inl (by simp [hx]))
    · exact .inr (.inr (.inl hx))
    · exact .inr (.inr (.inr hm))
  · rcases b' with _ | ⟨y, b'⟩
    · -- the vertex is the first of the second search
      simp only [List.append_nil, List.nil_append] at hpost hb
      subst hpost
      rcases h' [] v b hb.symm x hvx with hx | hx | hx | hm
      · exact (hvis x hx).imp_right .inl
      · cases hx
      · exact .inr (.inr (.inl hx))
      · exact .inr (.inr (.inr hm))
    · obtain ⟨rfl, rfl⟩ : v = y ∧ b = b' ++ post' := by simpa using hb
      rcases h a v b' hpost x hvx with hx | hx | hx | ⟨m, hm, hvm⟩
      · exact .inl hx
      · exact .inr (.inl hx)
      · exact .inr (.inr (.inl hx))
      · refine .inr (.inr (.inr ⟨m, ?_, hvm⟩))
        simp only [List.append_nil] at hm ⊢
        exact List.mem_append_left _ hm

theorem forest_ordered {U : List V} (hU : U.Nodup) (hadj : ∀ v ∈ U, ∀ w ∈ adj v, w ∈ U)
    {fuel : ℕ} (hfuel : dfsFuel adj U ≤ fuel) (roots vis : List V) (hroots : ∀ r ∈ roots, r ∈ U)
    (hvis : Closed adj vis) :
    Ordered adj vis ((forest adj fuel roots vis).flatMap Prod.snd) [] ∧
      ((forest adj fuel roots vis).flatMap Prod.snd).Nodup ∧
      ∀ v ∈ (forest adj fuel roots vis).flatMap Prod.snd, v ∉ vis := by
  induction roots generalizing vis with
  | nil => exact ⟨fun a v b h => by simp [forest] at h, by simp [forest], by simp [forest]⟩
  | cons r rs ih =>
    have hrs : ∀ r ∈ rs, r ∈ U := fun x hx => hroots x (by simp [hx])
    unfold forest
    by_cases hr : r ∈ vis
    · rw [if_pos hr]
      exact ih vis hrs hvis
    · rw [if_neg hr, List.flatMap_cons]
      obtain ⟨htree, -⟩ := dfs_spec hU hadj (hroots r (by simp)) hr hfuel
      obtain ⟨hord, hnodup, hfresh⟩ := ih _ hrs (htree.closed hvis)
      have hdesc := dfs_descent hU hadj (hroots r (by simp)) hvis hr hfuel
      refine ⟨Ordered.append hdesc.order hord fun x hx => (htree.mem x).mp hx,
        List.nodup_append'.mpr ⟨htree.nodup, hnodup, fun x hx hx' => ?_⟩, fun v hv => ?_⟩
      · exact hfresh x hx' ((htree.mem x).mpr (.inr hx))
      · rcases List.mem_append.mp hv with hv | hv
        · exact htree.fresh v hv
        · exact fun h => hfresh v hv ((htree.mem v).mpr (.inl h))

section Passes

variable {U : List V} (hU : U.Nodup) (hadj : ∀ v ∈ U, ∀ w ∈ adj v, w ∈ U)

include hU hadj

theorem nodup_postorder : (postorder adj U).Nodup :=
  (forest_ordered hU hadj le_rfl U [] (fun _ h => h) (by intro v hv; cases hv)).2.1

theorem mem_postorder {v : V} : v ∈ postorder adj U ↔ v ∈ U := by
  unfold postorder
  rw [List.mem_flatMap]
  constructor
  · rintro ⟨t, ht, hv⟩
    exact mem_universe hU hadj le_rfl U [] (fun _ h => h) ht hv
  · intro hv
    rcases root_mem_forest hU hadj le_rfl U [] (fun _ h => h) hv with h | h
    · cases h
    · exact h

/-- **The last vertex of a component comes after all that the component reaches.** -/
theorem postorder_last {a b : List V} {r : V} (hsplit : postorder adj U = a ++ r :: b)
    (hlast : ∀ m ∈ b, ¬ Mutual adj r m) {x : V} (hrx : Reaches adj r x) : x ∈ a ∨ x = r := by
  have hord := (forest_ordered hU hadj le_rfl U [] (fun _ h => h) (by intro v hv; cases hv)).1
  rcases hord a r b hsplit x hrx with hx | hx | hx | ⟨m, hm, hrm⟩
  · cases hx
  · exact .inl hx
  · exact .inr hx
  · exact absurd hrm (hlast m (by simpa using hm))

end Passes

/-! ## The second pass -/

omit [DecidableEq V] in
/-- Reversed edges give reversed paths. -/
theorem reaches_reverse (hrev : ∀ u v, u ∈ radj v ↔ v ∈ adj u) {u v : V} :
    Reaches radj u v ↔ Reaches adj v u := by
  have hswap : (fun a b => b ∈ radj a) = Function.swap fun a b => b ∈ adj a := by
    funext a b
    exact propext (hrev b a)
  unfold Reaches
  rw [hswap]
  exact Relation.reflTransGen_swap

omit [DecidableEq V] in
/-- Of the vertices with a property there is a last one. -/
theorem exists_last {Q : V → Prop} {l : List V} (h : ∃ x ∈ l, Q x) :
    ∃ a m b, l = a ++ m :: b ∧ Q m ∧ ∀ x ∈ b, ¬ Q x := by
  induction l with
  | nil => simp at h
  | cons y l ih =>
    by_cases hl : ∃ x ∈ l, Q x
    · obtain ⟨a, m, b, rfl, hm, hb⟩ := ih hl
      exact ⟨y :: a, m, b, rfl, hm, hb⟩
    · have hy : Q y := by
        obtain ⟨x, hx, hQ⟩ := h
        rcases List.mem_cons.mp hx with rfl | hx
        · exact hQ
        · exact absurd ⟨x, hx, hQ⟩ hl
      exact ⟨[], y, l, rfl, hy, fun x hx hQ => hl ⟨x, hx, hQ⟩⟩

/-- The vertex is the last of its component to be finished. -/
def IsLast (adj : V → List V) (U : List V) (r : V) : Prop :=
  ∀ m, Mutual adj r m → m ≠ r → [m, r].Sublist (postorder adj U)

/-- The trees are the components, each with the vertex it finishes last as its root. -/
structure Components (adj : V → List V) (U : List V) (trees : List (V × List V)) : Prop where
  /-- A tree is the component of its root. -/
  mem : ∀ t ∈ trees, ∀ w, w ∈ t.2 ↔ Mutual adj t.1 w
  /-- Nothing is in a tree twice. -/
  nodup : ∀ t ∈ trees, t.2.Nodup
  /-- The root is the last of its component. -/
  last : ∀ t ∈ trees, IsLast adj U t.1
  /-- Every vertex is in a tree. -/
  cover : ∀ v ∈ U, ∃ t ∈ trees, v ∈ t.2
  /-- Roots come from the end of the order. -/
  roots : (trees.map Prod.fst).Sublist (postorder adj U).reverse

theorem forest_roots {fuel : ℕ} (roots vis : List V) :
    ((forest adj fuel roots vis).map Prod.fst).Sublist roots := by
  induction roots generalizing vis with
  | nil => simp [forest]
  | cons r rs ih =>
    unfold forest
    split
    · exact (ih vis).cons r
    · exact (ih _).cons_cons r

section Passes

variable {U : List V} (hU : U.Nodup) (hadj : ∀ v ∈ U, ∀ w ∈ adj v, w ∈ U)
  (hrev : ∀ u v, u ∈ radj v ↔ v ∈ adj u)

include hU hadj hrev

/-- What comes before the root from the end of the order has been visited, so a vertex not
visited yet that reaches the root is reached by it. -/
theorem mutual_of_reaches {before rs vis : List V} {r w : V}
    (hsplit : (postorder adj U).reverse = before ++ r :: rs) (hbefore : ∀ v ∈ before, v ∈ vis)
    (hclosed : Closed radj vis) (hwU : w ∈ U) (hw : w ∉ vis) (hwr : Reaches adj w r) :
    Mutual adj r w := by
  obtain ⟨a, m, b, hpost, hwm, hlast⟩ := exists_last (Q := Mutual adj w)
    ⟨w, (mem_postorder hU hadj).mpr hwU, Mutual.refl w⟩
  have hmr : Reaches adj m r := Relation.ReflTransGen.trans hwm.2 hwr
  rcases postorder_last hU hadj hpost (fun x hx h => hlast x hx (hwm.trans h)) hmr with hr | rfl
  · -- then the last of the component was a root before, and its tree has `w`
    obtain ⟨a₁, a₂, rfl⟩ := List.append_of_mem hr
    have hnodup : ((postorder adj U).reverse).Nodup :=
      List.nodup_reverse.mpr (nodup_postorder hU hadj)
    have hsplit' : (postorder adj U).reverse = (a₂ ++ m :: b).reverse ++ r :: a₁.reverse := by
      rw [hpost]
      simp
    have heq : before = (a₂ ++ m :: b).reverse := by
      rw [hsplit] at hsplit' hnodup
      have hnot : r ∉ before := fun h => (List.nodup_append.mp hnodup).2.2 r h r (by simp) rfl
      have hnot' : r ∉ rs := (List.nodup_cons.mp (List.nodup_append.mp hnodup).2.1).1
      exact ((List.append_cons_inj_of_notMem hnot hnot').mp hsplit').1
    have hm : m ∈ vis := hbefore m (by simp [heq])
    exact absurd (hclosed.of_reach hm ((reaches_reverse hrev).mpr hwm.1)) hw
  · exact hwm.symm

theorem forest_scc {fuel : ℕ} (hradj : ∀ v ∈ U, ∀ w ∈ radj v, w ∈ U)
    (hfuel : dfsFuel radj U ≤ fuel) (roots before vis : List V)
    (hsplit : (postorder adj U).reverse = before ++ roots) (hbefore : ∀ v ∈ before, v ∈ vis)
    (hclosed : Closed radj vis) :
    ∀ t ∈ forest radj fuel roots vis, (∀ w, w ∈ t.2 ↔ Mutual adj t.1 w) ∧ t.2.Nodup ∧
      IsLast adj U t.1 := by
  induction roots generalizing before vis with
  | nil => simp [forest]
  | cons r rs ih =>
    have hsplit' : (postorder adj U).reverse = (before ++ [r]) ++ rs := by simpa using hsplit
    have hmemU : ∀ v ∈ (postorder adj U).reverse, v ∈ U := fun v hv =>
      (mem_postorder hU hadj).mp (List.mem_reverse.mp hv)
    have hrU : r ∈ U := hmemU r (by simp [hsplit])
    intro t ht
    unfold forest at ht
    by_cases hr : r ∈ vis
    · rw [if_pos hr] at ht
      refine ih (before ++ [r]) vis hsplit' (fun v hv => ?_) hclosed t ht
      rcases List.mem_append.mp hv with hv | hv
      · exact hbefore v hv
      · obtain rfl := List.mem_singleton.mp hv
        exact hr
    · rw [if_neg hr] at ht
      obtain ⟨htree, hroot⟩ := dfs_spec hU hradj hrU hr hfuel
      have hclosed' := htree.closed hclosed
      rcases List.mem_cons.mp ht with rfl | ht
      · refine ⟨fun w => ⟨fun hw => ?_, fun hrw => ?_⟩, htree.nodup, fun m hrm hne => ?_⟩
        · have hwr := (dfs_descent hU hradj hrU hclosed hr hfuel).root w (by simpa using hw)
          exact mutual_of_reaches hU hadj hrev hsplit hbefore hclosed (htree.sub w hw)
            (htree.fresh w hw) ((reaches_reverse hrev).mp hwr)
        · have hw := hclosed'.of_reach ((htree.mem r).mpr (.inr hroot))
            ((reaches_reverse hrev).mpr hrw.2)
          rcases (htree.mem w).mp hw with hw | hw
          · exact absurd (hclosed.of_reach hw ((reaches_reverse hrev).mpr hrw.1)) hr
          · exact hw
        · -- no vertex of the component has been a root before
          have hmU : m ∈ U := by
            have hm := hclosed'.of_reach ((htree.mem r).mpr (.inr hroot))
              ((reaches_reverse hrev).mpr hrm.2)
            rcases (htree.mem m).mp hm with hm | hm
            · exact absurd (hclosed.of_reach hm ((reaches_reverse hrev).mpr hrm.1)) hr
            · exact htree.sub m hm
          have hm : m ∈ before ++ r :: rs := by
            rw [← hsplit]
            exact List.mem_reverse.mpr ((mem_postorder hU hadj).mpr hmU)
          rcases List.mem_append.mp hm with hm | hm
          · have hmvis := hclosed.of_reach (hbefore m hm) ((reaches_reverse hrev).mpr hrm.1)
            exact absurd hmvis hr
          · have hmrs : m ∈ rs := (List.mem_cons.mp hm).resolve_left hne
            have hsub : [r, m].Sublist (postorder adj U).reverse := by
              rw [hsplit]
              exact ((List.singleton_sublist.mpr hmrs).cons_cons r).trans
                (List.sublist_append_right _ _)
            simpa using hsub.reverse
      · refine ih (before ++ [r]) _ hsplit' (fun v hv => ?_) hclosed' t ht
        rcases List.mem_append.mp hv with hv | hv
        · exact (htree.mem v).mpr (.inl (hbefore v hv))
        · obtain rfl := List.mem_singleton.mp hv
          exact (htree.mem v).mpr (.inr hroot)

/-- **The trees of the second pass are the components.** -/
theorem sccForest_spec (hradj : ∀ v ∈ U, ∀ w ∈ radj v, w ∈ U) :
    Components adj U (sccForest adj radj U) := by
  have hspec := forest_scc hU hadj hrev hradj le_rfl (postorder adj U).reverse [] [] rfl
    (fun v h => h) (by intro v hv; cases hv)
  refine ⟨fun t ht => (hspec t ht).1, fun t ht => (hspec t ht).2.1, fun t ht => (hspec t ht).2.2,
    fun v hv => ?_, forest_roots _ _⟩
  have hroots : ∀ r ∈ (postorder adj U).reverse, r ∈ U := fun r hr =>
    (mem_postorder hU hadj).mp (List.mem_reverse.mp hr)
  have hvr : v ∈ (postorder adj U).reverse :=
    List.mem_reverse.mpr ((mem_postorder hU hadj).mpr hv)
  rcases root_mem_forest hU hradj le_rfl _ [] hroots hvr with h | h
  · cases h
  · exact h

end Passes

end Kosaraju

end Dfs
