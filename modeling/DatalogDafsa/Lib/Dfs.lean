import Mathlib

/-!
# Depth-first search with an explicit stack

A depth-first search keeps a stack of vertices with the neighbours not tried yet,
the vertices visited so far, and the finished vertices in postorder.  One search
finishes exactly the vertices it visits, and what has been visited is closed under
the edges again when the stack is empty.  A *forest* runs one search for each root
not visited before.

## Main definitions

* `dfs`, `dfsFuel` — the search, and the number of steps it takes at most.
* `forest` — one tree for each root that is not visited yet.
* `dfs_induct` — a property that every step keeps.
* `dfs_spec` — what one search visits and finishes.
-/

namespace Dfs

/-- The steps a search takes at most: one for each vertex and each edge. -/
def dfsFuel {V : Type*} (adj : V → List V) (U : List V) : ℕ :=
  (U.map fun v => (adj v).length + 1).sum

theorem dfsFuel_cons {V : Type*} {adj : V → List V} (v : V) (U : List V) :
    dfsFuel adj (v :: U) = (adj v).length + 1 + dfsFuel adj U := by
  simp [dfsFuel]

section Search

variable {V : Type*} [DecidableEq V] (adj : V → List V)

/-- The search: a stack of vertices with neighbours left, the visited vertices, the
finished ones. -/
def dfs : ℕ → List (V × List V) → List V → List V → List V × List V
  | 0, _, vis, post => (vis, post)
  | _ + 1, [], vis, post => (vis, post)
  | fuel + 1, (v, []) :: st, vis, post => dfs fuel st vis (post ++ [v])
  | fuel + 1, (v, w :: ws) :: st, vis, post =>
    if w ∈ vis then dfs fuel ((v, ws) :: st) vis post
    else dfs fuel ((w, adj w) :: (v, ws) :: st) (w :: vis) post

/-- One search for each root that is not visited yet: the roots and their trees. -/
def forest (fuel : ℕ) : List V → List V → List (V × List V)
  | [], _ => []
  | r :: rs, vis =>
    if r ∈ vis then forest fuel rs vis
    else
      (r, (dfs adj fuel [(r, adj r)] (r :: vis) []).2) ::
        forest fuel rs (dfs adj fuel [(r, adj r)] (r :: vis) []).1

/-! ## One search -/

/-- Neighbours stay in the set. -/
def Closed (vis : List V) : Prop := ∀ v ∈ vis, ∀ w ∈ adj v, w ∈ vis

/-- The steps left: the vertices not visited and the neighbours on the stack. -/
def work (U : List V) (st : List (V × List V)) (vis : List V) : ℕ :=
  dfsFuel adj (U.filter (· ∉ vis)) + (st.map fun f => f.2.length + 1).sum

variable {adj}

theorem dfsFuel_visit {U : List V} (hU : U.Nodup) {w : V} (hw : w ∈ U) {vis : List V}
    (hnot : w ∉ vis) : dfsFuel adj (U.filter (· ∉ w :: vis)) + ((adj w).length + 1) =
      dfsFuel adj (U.filter (· ∉ vis)) := by
  induction U with
  | nil => cases hw
  | cons u U ih =>
    obtain ⟨hu, hU'⟩ := List.nodup_cons.mp hU
    rcases List.mem_cons.mp hw with rfl | hw
    · have hrest : U.filter (· ∉ w :: vis) = U.filter (· ∉ vis) := by
        refine List.filter_congr fun x hx => ?_
        have hne : x ≠ w := fun h => hu (h ▸ hx)
        simp [hne]
      have h₁ : (w :: U).filter (· ∉ w :: vis) = U.filter (· ∉ vis) := by
        rw [List.filter_cons_of_neg (by simp), hrest]
      have h₂ : (w :: U).filter (· ∉ vis) = w :: U.filter (· ∉ vis) :=
        List.filter_cons_of_pos (by simpa using hnot)
      rw [h₁, h₂, dfsFuel_cons]
      omega
    · have hne : u ≠ w := fun h => hu (h ▸ hw)
      have hih := ih hU' hw
      by_cases hvis : u ∈ vis
      · rw [List.filter_cons_of_neg (by simp [hvis]), List.filter_cons_of_neg (by simp [hvis])]
        exact hih
      · rw [List.filter_cons_of_pos (by simp [hvis, hne]),
          List.filter_cons_of_pos (by simp [hvis]), dfsFuel_cons, dfsFuel_cons]
        omega

/-- The invariant of a search that began with `vis₀` visited. -/
structure Inv (adj : V → List V) (U vis₀ : List V) (st : List (V × List V)) (vis post : List V) :
    Prop where
  /-- Visited is what was visited, on the stack, or finished. -/
  mem : ∀ v, v ∈ vis ↔ v ∈ vis₀ ∨ v ∈ post ∨ v ∈ st.map Prod.fst
  /-- Nothing is finished twice, nor again on the stack. -/
  nodup : (post ++ st.map Prod.fst).Nodup
  /-- Nothing visited before is finished. -/
  fresh : ∀ v ∈ post ++ st.map Prod.fst, v ∉ vis₀
  /-- Neighbours of finished vertices are visited. -/
  done : ∀ v ∈ post, ∀ w ∈ adj v, w ∈ vis
  /-- Neighbours of open vertices are visited or left to try. -/
  left : ∀ f ∈ st, ∀ w ∈ adj f.1, w ∈ vis ∨ w ∈ f.2
  /-- Finished and open vertices are in the universe. -/
  sub : ∀ v ∈ post ++ st.map Prod.fst, v ∈ U
  /-- What is left to try is in the universe. -/
  inU : ∀ f ∈ st, ∀ w ∈ f.2, w ∈ U

/-- What a search that began with `vis₀` visited ends with. -/
structure Tree (adj : V → List V) (U vis₀ vis post : List V) : Prop where
  /-- It finishes what it visits. -/
  mem : ∀ v, v ∈ vis ↔ v ∈ vis₀ ∨ v ∈ post
  /-- Nothing twice. -/
  nodup : post.Nodup
  /-- Nothing that was visited before. -/
  fresh : ∀ v ∈ post, v ∉ vis₀
  /-- Neighbours of finished vertices are visited. -/
  done : ∀ v ∈ post, ∀ w ∈ adj v, w ∈ vis
  /-- It stays in the universe. -/
  sub : ∀ v ∈ post, v ∈ U

omit [DecidableEq V] in
theorem Inv.tree {U vis₀ vis post : List V} (h : Inv adj U vis₀ [] vis post) :
    Tree adj U vis₀ vis post where
  mem := by simpa using h.mem
  nodup := by simpa using h.nodup
  fresh := by simpa using h.fresh
  done := h.done
  sub := by simpa using h.sub

/-! ### What a step preserves -/

section Steps

variable {U vis₀ vis post ws : List V} {v w : V} {st : List (V × List V)}

omit [DecidableEq V] in
/-- A vertex with no neighbours left is finished. -/
theorem Inv.finish (h : Inv adj U vis₀ ((v, []) :: st) vis post) :
    Inv adj U vis₀ st vis (post ++ [v]) where
  mem x := by
    rw [h.mem x]
    simp only [List.map_cons, List.mem_cons, List.mem_append, List.not_mem_nil, or_false]
    tauto
  nodup := by simpa using h.nodup
  fresh := by simpa using h.fresh
  sub := by simpa using h.sub
  done x hx y hy := by
    rcases List.mem_append.mp hx with hx | hx
    · exact h.done x hx y hy
    · obtain rfl := List.mem_singleton.mp hx
      simpa using h.left (x, []) (by simp) y hy
  left f hf := h.left f (by simp [hf])
  inU f hf := h.inU f (by simp [hf])

omit [DecidableEq V] in
/-- A neighbour that is visited already is passed over. -/
theorem Inv.skip (h : Inv adj U vis₀ ((v, w :: ws) :: st) vis post) (hw : w ∈ vis) :
    Inv adj U vis₀ ((v, ws) :: st) vis post where
  mem := h.mem
  nodup := h.nodup
  fresh := h.fresh
  sub := h.sub
  done := h.done
  left f hf x hx := by
    rcases List.mem_cons.mp hf with rfl | hf
    · rcases h.left (v, w :: ws) (by simp) x hx with hx | hx
      · exact .inl hx
      · rcases List.mem_cons.mp hx with rfl | hx
        · exact .inl hw
        · exact .inr hx
    · exact h.left f (by simp [hf]) x hx
  inU f hf x hx := by
    rcases List.mem_cons.mp hf with rfl | hf
    · exact h.inU (v, w :: ws) (by simp) x (by simp [hx])
    · exact h.inU f (by simp [hf]) x hx

omit [DecidableEq V] in
/-- A neighbour that is not visited yet is opened. -/
theorem Inv.visit (h : Inv adj U vis₀ ((v, w :: ws) :: st) vis post) (hw : w ∉ vis)
    (hadj : ∀ v ∈ U, ∀ w ∈ adj v, w ∈ U) :
    Inv adj U vis₀ ((w, adj w) :: (v, ws) :: st) (w :: vis) post := by
  have hwU : w ∈ U := h.inU (v, w :: ws) (by simp) w (by simp)
  have hwnot : w ∉ post ++ ((v, w :: ws) :: st).map Prod.fst := fun hin => hw
    ((h.mem w).mpr (.inr (List.mem_append.mp hin)))
  -- what is finished or open is `w`, or was so before
  have hcases : ∀ x ∈ post ++ ((w, adj w) :: (v, ws) :: st).map Prod.fst,
      x = w ∨ x ∈ post ++ ((v, w :: ws) :: st).map Prod.fst := by
    intro x hx
    simp only [List.map_cons, List.mem_append, List.mem_cons] at hx ⊢
    tauto
  exact {
    mem := fun x => by
      rw [List.mem_cons, h.mem x]
      simp only [List.map_cons, List.mem_cons]
      tauto
    nodup := by
      have := h.nodup
      simp only [List.map_cons] at this hwnot ⊢
      exact (List.perm_middle (a := w)).nodup_iff.mpr (List.nodup_cons.mpr ⟨hwnot, this⟩)
    fresh := fun x hx => by
      rcases hcases x hx with rfl | hx
      · exact fun h0 => hw ((h.mem x).mpr (.inl h0))
      · exact h.fresh x hx
    sub := fun x hx => by
      rcases hcases x hx with rfl | hx
      · exact hwU
      · exact h.sub x hx
    done := fun x hx y hy => List.mem_cons_of_mem _ (h.done x hx y hy)
    left := fun f hf x hx => by
      rcases List.mem_cons.mp hf with rfl | hf
      · exact .inr hx
      · rcases List.mem_cons.mp hf with rfl | hf
        · rcases h.left (v, w :: ws) (by simp) x hx with hx | hx
          · exact .inl (by simp [hx])
          · rcases List.mem_cons.mp hx with rfl | hx
            · exact .inl (by simp)
            · exact .inr hx
        · exact (h.left f (by simp [hf]) x hx).imp_left fun hx => by simp [hx]
    inU := fun f hf x hx => by
      rcases List.mem_cons.mp hf with rfl | hf
      · exact hadj w hwU x hx
      · rcases List.mem_cons.mp hf with rfl | hf
        · exact h.inU (v, w :: ws) (by simp) x (by simp [hx])
        · exact h.inU f (by simp [hf]) x hx }

end Steps

/-- **A property that every step keeps holds when the search ends.** -/
theorem dfs_induct {U vis₀ : List V} (hU : U.Nodup) (hadj : ∀ v ∈ U, ∀ w ∈ adj v, w ∈ U)
    {P : List (V × List V) → List V → List V → Prop}
    (hfinish : ∀ v st vis post, Inv adj U vis₀ ((v, []) :: st) vis post →
      P ((v, []) :: st) vis post → P st vis (post ++ [v]))
    (hskip : ∀ v w ws st vis post, P ((v, w :: ws) :: st) vis post → P ((v, ws) :: st) vis post)
    (hvisit : ∀ v w ws st vis post, w ∉ vis →
      P ((v, w :: ws) :: st) vis post → P ((w, adj w) :: (v, ws) :: st) (w :: vis) post)
    (fuel : ℕ) (st : List (V × List V)) (vis post : List V) (h : Inv adj U vis₀ st vis post)
    (hwork : work adj U st vis ≤ fuel) (hP : P st vis post) :
    Inv adj U vis₀ [] (dfs adj fuel st vis post).1 (dfs adj fuel st vis post).2 ∧
      P [] (dfs adj fuel st vis post).1 (dfs adj fuel st vis post).2 := by
  induction fuel generalizing st vis post with
  | zero =>
    cases st with
    | nil => exact ⟨h, hP⟩
    | cons f st => simp [work] at hwork
  | succ fuel ih =>
    rcases st with _ | ⟨⟨v, _ | ⟨w, ws⟩⟩, st⟩
    · exact ⟨h, hP⟩
    · refine ih st vis (post ++ [v]) h.finish ?_ (hfinish v st vis post h hP)
      simp only [work, List.map_cons, List.sum_cons, List.length_nil] at hwork ⊢
      omega
    · simp only [dfs]
      by_cases hw : w ∈ vis
      · rw [if_pos hw]
        refine ih _ vis post (h.skip hw) ?_ (hskip v w ws st vis post hP)
        simp only [work, List.map_cons, List.sum_cons, List.length_cons] at hwork ⊢
        omega
      · rw [if_neg hw]
        refine ih _ _ post (h.visit hw hadj) ?_ (hvisit v w ws st vis post hw hP)
        have hfuel := @dfsFuel_visit V _ adj U hU _
          (h.inU (v, w :: ws) (by simp) w (by simp)) _ hw
        simp only [work, List.map_cons, List.sum_cons, List.length_cons] at hwork ⊢
        omega

omit [DecidableEq V] in
theorem inv_root {U vis : List V} {r : V} (hadj : ∀ v ∈ U, ∀ w ∈ adj v, w ∈ U) (hr : r ∈ U)
    (hnot : r ∉ vis) : Inv adj U vis [(r, adj r)] (r :: vis) [] where
  mem v := by simp [or_comm]
  nodup := by simp
  fresh := by simpa using hnot
  sub := by simpa using hr
  done := by simp
  left f hf w hw := by
    obtain rfl := List.mem_singleton.mp hf
    exact .inr hw
  inU := by simpa using hadj r hr

/-- The fuel covers a search from a root that is not visited yet. -/
theorem work_root {U vis : List V} (hU : U.Nodup) {r : V} (hr : r ∈ U) (hnot : r ∉ vis) {fuel : ℕ}
    (hfuel : dfsFuel adj U ≤ fuel) : work adj U [(r, adj r)] (r :: vis) ≤ fuel := by
  have hsub : ∀ U : List V, dfsFuel adj (U.filter (· ∉ vis)) ≤ dfsFuel adj U := by
    intro U
    induction U with
    | nil => exact le_rfl
    | cons u U ih =>
      rw [List.filter_cons]
      split
      · rw [dfsFuel_cons, dfsFuel_cons]
        omega
      · rw [dfsFuel_cons]
        omega
  have hvisit := @dfsFuel_visit V _ adj U hU _ hr _ hnot
  have hle := hsub U
  simp only [work, List.map_cons, List.map_nil, List.sum_cons, List.sum_nil]
  omega

/-- **One search finishes what it visits**, its root among it, and the neighbours of
what it finishes are visited. -/
theorem dfs_spec {U : List V} (hU : U.Nodup) (hadj : ∀ v ∈ U, ∀ w ∈ adj v, w ∈ U) {r : V}
    (hr : r ∈ U) {vis : List V} (hnot : r ∉ vis) {fuel : ℕ} (hfuel : dfsFuel adj U ≤ fuel) :
    Tree adj U vis (dfs adj fuel [(r, adj r)] (r :: vis) []).1
        (dfs adj fuel [(r, adj r)] (r :: vis) []).2 ∧
      r ∈ (dfs adj fuel [(r, adj r)] (r :: vis) []).2 := by
  -- the root stays open until it is finished
  obtain ⟨hinv, hroot⟩ := dfs_induct hU hadj
    (P := fun st _ post => r ∈ post ++ st.map Prod.fst)
    (fun v st vis post _ h => by simpa using h) (fun v w ws st vis post h => by simpa using h)
    (fun v w ws st vis post _ h => by
      simp only [List.map_cons, List.mem_append, List.mem_cons] at h ⊢
      tauto)
    fuel _ _ [] (inv_root hadj hr hnot) (work_root hU hr hnot hfuel) (by simp)
  exact ⟨hinv.tree, by simpa using hroot⟩

omit [DecidableEq V] in
theorem Tree.closed {U vis₀ vis post : List V} (h : Tree adj U vis₀ vis post) (h₀ : Closed adj vis₀) :
    Closed adj vis := by
  intro v hv w hw
  rcases (h.mem v).mp hv with hv | hv
  · exact (h.mem w).mpr (.inl (h₀ v hv w hw))
  · exact h.done v hv w hw

omit [DecidableEq V] in
theorem Closed.of_reach {vis : List V} (h : Closed adj vis) {u v : V} (hu : u ∈ vis)
    (huv : Relation.ReflTransGen (fun a b => b ∈ adj a) u v) : v ∈ vis := by
  induction huv with
  | refl => exact hu
  | tail _ hbc ih => exact h _ ih _ hbc

/-! ## Forests -/

/-- Every root is in a tree, or was visited before. -/
theorem root_mem_forest {U : List V} (hU : U.Nodup) (hadj : ∀ v ∈ U, ∀ w ∈ adj v, w ∈ U)
    {fuel : ℕ} (hfuel : dfsFuel adj U ≤ fuel) (roots vis : List V) (hroots : ∀ r ∈ roots, r ∈ U)
    {v : V} (hv : v ∈ roots) : v ∈ vis ∨ ∃ t ∈ forest adj fuel roots vis, v ∈ t.2 := by
  induction roots generalizing vis with
  | nil => cases hv
  | cons r rs ih =>
    have hrs : ∀ r ∈ rs, r ∈ U := fun x hx => hroots x (by simp [hx])
    unfold forest
    by_cases hr : r ∈ vis
    · rw [if_pos hr]
      rcases List.mem_cons.mp hv with rfl | hv
      · exact .inl hr
      · exact ih vis hrs hv
    · rw [if_neg hr]
      obtain ⟨htree, hroot⟩ := dfs_spec hU hadj (hroots r (by simp)) hr hfuel
      rcases List.mem_cons.mp hv with rfl | hv
      · exact .inr ⟨_, List.mem_cons_self, hroot⟩
      · rcases ih _ hrs hv with h | ⟨t, ht, hvt⟩
        · rcases (htree.mem v).mp h with h | h
          · exact .inl h
          · exact .inr ⟨_, List.mem_cons_self, h⟩
        · exact .inr ⟨t, List.mem_cons_of_mem _ ht, hvt⟩

/-- Trees stay in the universe. -/
theorem mem_universe {U : List V} (hU : U.Nodup) (hadj : ∀ v ∈ U, ∀ w ∈ adj v, w ∈ U)
    {fuel : ℕ} (hfuel : dfsFuel adj U ≤ fuel) (roots vis : List V) (hroots : ∀ r ∈ roots, r ∈ U)
    {t : V × List V} (ht : t ∈ forest adj fuel roots vis) {v : V} (hv : v ∈ t.2) : v ∈ U := by
  induction roots generalizing vis with
  | nil => cases ht
  | cons r rs ih =>
    have hrs : ∀ r ∈ rs, r ∈ U := fun x hx => hroots x (by simp [hx])
    unfold forest at ht
    by_cases hr : r ∈ vis
    · rw [if_pos hr] at ht
      exact ih vis hrs ht
    · rw [if_neg hr] at ht
      rcases List.mem_cons.mp ht with rfl | ht
      · exact (dfs_spec hU hadj (hroots r (by simp)) hr hfuel).1.sub v hv
      · exact ih _ hrs ht

end Search

end Dfs
