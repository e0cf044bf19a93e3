import Mathlib

/-!
# Breadth-first search with a bounded queue

A graph is given by its adjacency lists.  `bfs n` lists the nodes within `n` steps of
a start in the order a breadth-first search meets them, each with its depth, level by
level.  `loop` is the usual program: one queue that is also the table of the nodes met,
never longer than `cap`, and a search that stops where the queue is full.  Its queue
is the listing, cut to `cap`.

## Main definitions

* `ball`, `AtDepth` — the nodes within, and at exactly, so many steps.
* `push`, `grow`, `bfs` — the listing.
* `pushCap`, `growCap`, `loop` — the program.

## Main results

* `mem_ball_iff_edist` — the balls of a simple graph are those of its distance.
* `mem_bfs` — the listing has the nodes of each depth.
* `loop_eq_take` — the program lists a front part of it.
* `ball_subset_queue` — its queue has the nodes as near as the one it takes off.
* `loop_congr` — two programs that add the same nodes list the same.
-/

namespace DatalogDafsa.BreadthFirst

variable {V : Type*}

/-! ## Distances -/

/-- The nodes within so many steps of `s`. -/
def ball (adj : V → List V) (s : V) : ℕ → Set V
  | 0 => {s}
  | n + 1 => ball adj s n ∪ {w | ∃ v ∈ ball adj s n, w ∈ adj v}

/-- The nodes at exactly so many steps. -/
def AtDepth (adj : V → List V) (s : V) (k : ℕ) (v : V) : Prop :=
  v ∈ ball adj s k ∧ ∀ j < k, v ∉ ball adj s j

variable {adj : V → List V} {s : V}

theorem ball_mono {m n : ℕ} (h : m ≤ n) : ball adj s m ⊆ ball adj s n := by
  induction n, h using Nat.le_induction with
  | base => exact subset_rfl
  | succ n _ ih => exact ih.trans Set.subset_union_left

theorem mem_ball_succ {n : ℕ} {v w : V} (hv : v ∈ ball adj s n) (hw : w ∈ adj v) :
    w ∈ ball adj s (n + 1) :=
  .inr ⟨v, hv, hw⟩

theorem start_mem_ball (n : ℕ) : s ∈ ball adj s n := ball_mono (Nat.zero_le n) rfl

/-- A node within `n` steps is at some depth up to `n`. -/
theorem exists_atDepth {n : ℕ} {v : V} (h : v ∈ ball adj s n) : ∃ k ≤ n, AtDepth adj s k v := by
  classical
  have hex : ∃ k, v ∈ ball adj s k := ⟨n, h⟩
  exact ⟨Nat.find hex, Nat.find_le h, Nat.find_spec hex, fun j hj => Nat.find_min hex hj⟩

/-- The step to a node of depth `n + 1` starts at depth `n`. -/
theorem atDepth_succ {n : ℕ} {v : V} :
    AtDepth adj s (n + 1) v ↔ v ∉ ball adj s n ∧ ∃ u, AtDepth adj s n u ∧ v ∈ adj u := by
  constructor
  · rintro ⟨hin | ⟨u, hu, hv⟩, hout⟩
    · exact absurd hin (hout n n.lt_succ_self)
    · have hn : v ∉ ball adj s n := hout n n.lt_succ_self
      refine ⟨hn, u, ⟨hu, fun j hj hju => hn ?_⟩, hv⟩
      exact ball_mono (Nat.succ_le_of_lt hj) (mem_ball_succ hju hv)
  · rintro ⟨hn, u, hu, hv⟩
    exact ⟨mem_ball_succ hu.1 hv, fun j hj hjv => hn (ball_mono (Nat.le_of_lt_succ hj) hjv)⟩

/-- In a graph whose lists are those of its neighbours, the balls are those of the
distance.  A list may name the node itself. -/
theorem mem_ball_iff_edist {G : SimpleGraph V} (hadj : ∀ u v, G.Adj u v ↔ u ≠ v ∧ v ∈ adj u)
    {n : ℕ} {v : V} : v ∈ ball adj s n ↔ G.edist s v ≤ n := by
  constructor
  · intro h
    induction n generalizing v with
    | zero =>
      obtain rfl : v = s := h
      rw [SimpleGraph.edist_self]
      exact bot_le
    | succ n ih =>
      rcases h with h | ⟨u, hu, hv⟩
      · exact (ih h).trans (by exact_mod_cast n.le_succ)
      · by_cases huv : u = v
        · exact huv ▸ (ih hu).trans (by exact_mod_cast n.le_succ)
        · have hone : G.edist u v ≤ 1 :=
            (SimpleGraph.edist_eq_one_iff_adj.2 ((hadj u v).2 ⟨huv, hv⟩)).le
          calc G.edist s v ≤ G.edist s u + G.edist u v := SimpleGraph.edist_triangle
            _ ≤ n + 1 := add_le_add (ih hu) hone
            _ = (n + 1 : ℕ) := by push_cast; rfl
  · intro h
    have hwalk : ∀ {u v : V} (p : G.Walk u v) {k : ℕ}, u ∈ ball adj s k →
        v ∈ ball adj s (k + p.length) := by
      intro u v p
      induction p with
      | nil => exact fun hu => hu
      | cons hadj' p ih =>
        intro k hu
        have := ih (mem_ball_succ hu ((hadj _ _).1 hadj').2)
        rwa [SimpleGraph.Walk.length_cons, ← Nat.add_assoc, Nat.add_right_comm]
    obtain ⟨p, hp⟩ := SimpleGraph.exists_walk_of_edist_ne_top
      (ne_top_of_le_ne_top (ENat.natCast_ne_top n) h)
    rw [← hp] at h
    exact ball_mono (by simpa using h) (hwalk p (start_mem_ball 0))

/-! ## The listing -/

/-- The nodes of a listing. -/
def nodes (q : List (V × ℕ)) : List V := q.map Prod.fst

@[simp] theorem nodes_nil : nodes ([] : List (V × ℕ)) = [] := rfl
@[simp] theorem nodes_cons (e : V × ℕ) (q : List (V × ℕ)) : nodes (e :: q) = e.1 :: nodes q := rfl

@[simp] theorem nodes_append (q r : List (V × ℕ)) : nodes (q ++ r) = nodes q ++ nodes r :=
  List.map_append

@[simp] theorem length_nodes (q : List (V × ℕ)) : (nodes q).length = q.length := List.length_map _

@[simp] theorem nodes_map (d : ℕ) (ws : List V) : nodes (ws.map (·, d)) = ws := by
  rw [nodes, List.map_map]
  exact List.map_id ws

variable [DecidableEq V]

/-- Add a node unless it is listed. -/
def push (d : ℕ) (q : List (V × ℕ)) (w : V) : List (V × ℕ) :=
  if w ∈ nodes q then q else q ++ [(w, d)]

/-- Add nodes, at one depth. -/
def grow (d : ℕ) (q : List (V × ℕ)) (ws : List V) : List (V × ℕ) := ws.foldl (push d) q

/-- The nodes listed with a depth. -/
def level (k : ℕ) (q : List (V × ℕ)) : List V := nodes (q.filter fun e => e.2 = k)

/-- The nodes within `n` steps, level by level. -/
def bfs (adj : V → List V) (s : V) : ℕ → List (V × ℕ)
  | 0 => [(s, 0)]
  | n + 1 => grow (n + 1) (bfs adj s n) ((level n (bfs adj s n)).flatMap adj)

@[simp] theorem grow_nil (d : ℕ) (q : List (V × ℕ)) : grow d q [] = q := rfl

theorem grow_append (d : ℕ) (q : List (V × ℕ)) (ws ws' : List V) :
    grow d q (ws ++ ws') = grow d (grow d q ws) ws' :=
  List.foldl_append

/-- Adding nodes appends the new ones, each once, at the depth given. -/
theorem grow_spec (d : ℕ) (q : List (V × ℕ)) (ws : List V) :
    ∃ new : List V, grow d q ws = q ++ new.map (·, d) ∧ new.Nodup ∧
      ∀ w, w ∈ new ↔ w ∈ ws ∧ w ∉ nodes q := by
  induction ws generalizing q with
  | nil => exact ⟨[], by simp⟩
  | cons w ws ih =>
    by_cases hw : w ∈ nodes q
    · obtain ⟨new, hgrow, hnd, hmem⟩ := ih q
      have hpush : push d q w = q := if_pos hw
      refine ⟨new, by rw [grow, List.foldl_cons, hpush]; exact hgrow, hnd, fun x => ?_⟩
      rw [hmem, List.mem_cons]
      constructor
      · exact fun h => ⟨.inr h.1, h.2⟩
      · rintro ⟨rfl | hx, hq⟩
        · exact absurd hw hq
        · exact ⟨hx, hq⟩
    · obtain ⟨new, hgrow, hnd, hmem⟩ := ih (q ++ [(w, d)])
      have hpush : push d q w = q ++ [(w, d)] := if_neg hw
      refine ⟨w :: new, ?_, ?_, fun x => ?_⟩
      · rw [grow, List.foldl_cons, hpush]
        simpa [grow] using hgrow
      · refine List.nodup_cons.2 ⟨fun h => ?_, hnd⟩
        exact ((hmem w).1 h).2 (by simp)
      · rw [List.mem_cons, hmem, List.mem_cons]
        by_cases hx : x = w
        · simp [hx, hw]
        · simp [hx]

theorem prefix_grow (d : ℕ) (q : List (V × ℕ)) (ws : List V) : q <+: grow d q ws := by
  obtain ⟨new, hgrow, -⟩ := grow_spec d q ws
  exact hgrow ▸ List.prefix_append q _

theorem mem_nodes_grow {d : ℕ} {q : List (V × ℕ)} {ws : List V} {w : V} :
    w ∈ nodes (grow d q ws) ↔ w ∈ nodes q ∨ w ∈ ws := by
  obtain ⟨new, hgrow, -, hmem⟩ := grow_spec d q ws
  rw [hgrow, nodes_append, List.mem_append, nodes_map, hmem]
  tauto

theorem nodup_nodes_grow {d : ℕ} {q : List (V × ℕ)} (hq : (nodes q).Nodup) (ws : List V) :
    (nodes (grow d q ws)).Nodup := by
  obtain ⟨new, hgrow, hnd, hmem⟩ := grow_spec d q ws
  rw [hgrow, nodes_append, nodes_map]
  refine List.nodup_append.2 ⟨hq, hnd, ?_⟩
  rintro a ha b hb rfl
  exact ((hmem a).1 hb).2 ha

theorem prefix_bfs (adj : V → List V) (s : V) {m n : ℕ} (h : m ≤ n) : bfs adj s m <+: bfs adj s n := by
  induction n, h using Nat.le_induction with
  | base => exact List.prefix_rfl
  | succ n _ ih => exact ih.trans (prefix_grow _ _ _)

theorem nodup_bfs (adj : V → List V) (s : V) (n : ℕ) : (nodes (bfs adj s n)).Nodup := by
  induction n with
  | zero => simp [bfs]
  | succ n ih => exact nodup_nodes_grow ih _

/-- **The listing has the nodes of each depth.** -/
theorem mem_bfs {n : ℕ} {e : V × ℕ} : e ∈ bfs adj s n ↔ e.2 ≤ n ∧ AtDepth adj s e.2 e.1 := by
  induction n generalizing e with
  | zero =>
    obtain ⟨v, k⟩ := e
    simp only [bfs, List.mem_singleton, Prod.mk.injEq, Nat.le_zero]
    constructor
    · rintro ⟨rfl, rfl⟩
      exact ⟨rfl, rfl, by omega⟩
    · rintro ⟨rfl, hv, -⟩
      exact ⟨hv, rfl⟩
  | succ n ih =>
    obtain ⟨v, k⟩ := e
    have hnodes : ∀ w, w ∈ nodes (bfs adj s n) ↔ w ∈ ball adj s n := by
      intro w
      constructor
      · intro hw
        obtain ⟨e, he, rfl⟩ := List.mem_map.1 hw
        exact ball_mono (ih.1 he).1 (ih.1 he).2.1
      · intro hw
        obtain ⟨k, hk, hd⟩ := exists_atDepth hw
        exact List.mem_map.2 ⟨(w, k), ih.2 ⟨hk, hd⟩, rfl⟩
    have hlevel : ∀ w, w ∈ level n (bfs adj s n) ↔ AtDepth adj s n w := by
      intro w
      simp only [level, nodes, List.mem_map, List.mem_filter, decide_eq_true_eq]
      constructor
      · rintro ⟨e, ⟨he, rfl⟩, rfl⟩
        exact (ih.1 he).2
      · exact fun hw => ⟨(w, n), ⟨ih.2 ⟨le_rfl, hw⟩, rfl⟩, rfl⟩
    obtain ⟨new, hgrow, -, hmem⟩ :=
      grow_spec (n + 1) (bfs adj s n) ((level n (bfs adj s n)).flatMap adj)
    have hnew : ∀ w, w ∈ new ↔ AtDepth adj s (n + 1) w := by
      intro w
      rw [hmem, hnodes, atDepth_succ, List.mem_flatMap, and_comm]
      simp only [hlevel]
    rw [bfs, hgrow, List.mem_append, ih]
    constructor
    · rintro (⟨hk, hd⟩ | hv)
      · exact ⟨Nat.le_succ_of_le hk, hd⟩
      · obtain ⟨w, hw, hwv⟩ := List.mem_map.1 hv
        cases hwv
        exact ⟨le_rfl, (hnew _).1 hw⟩
    · rintro ⟨hk, hd⟩
      rcases Nat.lt_or_ge k (n + 1) with hlt | hge
      · exact .inl ⟨Nat.le_of_lt_succ hlt, hd⟩
      · obtain rfl : k = n + 1 := le_antisymm hk hge
        exact .inr (List.mem_map.2 ⟨v, (hnew v).2 hd, rfl⟩)

theorem mem_nodes_bfs {n : ℕ} {v : V} : v ∈ nodes (bfs adj s n) ↔ v ∈ ball adj s n := by
  constructor
  · intro hv
    obtain ⟨e, he, rfl⟩ := List.mem_map.1 hv
    exact ball_mono (mem_bfs.1 he).1 (mem_bfs.1 he).2.1
  · intro hv
    obtain ⟨k, hk, hd⟩ := exists_atDepth hv
    exact List.mem_map.2 ⟨(v, k), mem_bfs.2 ⟨hk, hd⟩, rfl⟩

/-- A listing ends with its last level. -/
theorem bfs_eq_front_append (adj : V → List V) (s : V) (n : ℕ) :
    ∃ front, bfs adj s n = front ++ (level n (bfs adj s n)).map (·, n) ∧
      ∀ e ∈ front, e.2 < n := by
  cases n with
  | zero => exact ⟨[], by simp [bfs, level], by simp⟩
  | succ n =>
    obtain ⟨new, hgrow, -⟩ :=
      grow_spec (n + 1) (bfs adj s n) ((level n (bfs adj s n)).flatMap adj)
    have hold : ∀ e ∈ bfs adj s n, e.2 < n + 1 := fun e he => Nat.lt_succ_of_le (mem_bfs.1 he).1
    have hfront : (bfs adj s n).filter (fun e => e.2 = n + 1) = [] :=
      List.filter_eq_nil_iff.2 fun e he => by simpa using (hold e he).ne
    have hback : (new.map (·, n + 1)).filter (fun e : V × ℕ => e.2 = n + 1) = new.map (·, n + 1) :=
      List.filter_eq_self.2 fun e he => by
        obtain ⟨w, -, rfl⟩ := List.mem_map.1 he
        simp
    have hlevel : level (n + 1) (bfs adj s (n + 1)) = new := by
      rw [level, bfs, hgrow, List.filter_append, hfront, hback, List.nil_append, nodes_map]
    exact ⟨bfs adj s n, by rw [hlevel, bfs, hgrow], hold⟩

/-- The depths of a listing do not decrease. -/
theorem sorted_bfs (n : ℕ) : (bfs adj s n).Pairwise fun e f => e.2 ≤ f.2 := by
  induction n with
  | zero => exact List.pairwise_singleton _ _
  | succ n ih =>
    obtain ⟨new, hgrow, -⟩ :=
      grow_spec (n + 1) (bfs adj s n) ((level n (bfs adj s n)).flatMap adj)
    rw [bfs, hgrow, List.pairwise_append]
    refine ⟨ih, ?_, ?_⟩
    · exact List.pairwise_map.2 (List.pairwise_of_forall fun _ _ => le_rfl)
    · intro e he f hf
      obtain ⟨w, -, rfl⟩ := List.mem_map.1 hf
      exact Nat.le_succ_of_le (mem_bfs.1 he).1

/-! ## The bounded program -/

/-- Add a node unless it is listed, while there is room. -/
def pushCap (cap d : ℕ) (q : List (V × ℕ)) (w : V) : List (V × ℕ) :=
  if w ∈ nodes q then q else if q.length < cap then q ++ [(w, d)] else q

/-- Add nodes while there is room. -/
def growCap (cap d : ℕ) (q : List (V × ℕ)) (ws : List V) : List (V × ℕ) :=
  ws.foldl (pushCap cap d) q

/-- The program: take the nodes off the queue in turn, up to depth `D`, until the queue
is full. -/
def loop (adj : V → List V) (cap D : ℕ) : ℕ → ℕ → List (V × ℕ) → List (V × ℕ)
  | 0, _, q => q
  | fuel + 1, head, q =>
    if q.length < cap then
      match q[head]? with
      | none => q
      | some (v, d) =>
        if D ≤ d then loop adj cap D fuel (head + 1) q
        else loop adj cap D fuel (head + 1) (growCap cap (d + 1) q (adj v))
    else q

theorem growCap_append (cap d : ℕ) (q : List (V × ℕ)) (ws ws' : List V) :
    growCap cap d q (ws ++ ws') = growCap cap d (growCap cap d q ws) ws' :=
  List.foldl_append

/-- Adding to a cut queue cuts what is added. -/
theorem growCap_take (cap d : ℕ) (q : List (V × ℕ)) (ws : List V) :
    growCap cap d (q.take cap) ws = (grow d q ws).take cap := by
  induction ws generalizing q with
  | nil => rfl
  | cons w ws ih =>
    have hpush : pushCap cap d (q.take cap) w = (push d q w).take cap := by
      rcases lt_or_ge q.length cap with hlt | hge
      · rw [List.take_of_length_le hlt.le]
        unfold pushCap push
        rw [if_pos hlt]
        split
        · rw [List.take_of_length_le hlt.le]
        · rw [List.take_of_length_le (by simpa using hlt)]
      · have hlen : (q.take cap).length = cap := by rw [List.length_take, min_eq_left hge]
        have hleft : pushCap cap d (q.take cap) w = q.take cap := by
          unfold pushCap
          rw [if_neg (c := (q.take cap).length < cap) (by omega), ite_self]
        rw [hleft]
        unfold push
        split
        · rfl
        · rw [List.take_append_of_le_length hge]
    rw [growCap, List.foldl_cons, hpush]
    exact ih _

theorem growCap_eq_take {cap d : ℕ} {q : List (V × ℕ)} (hq : q.length ≤ cap) (ws : List V) :
    growCap cap d q ws = (grow d q ws).take cap := by
  have := growCap_take cap d q ws
  rwa [List.take_of_length_le hq] at this

theorem length_growCap_le {cap d : ℕ} {q : List (V × ℕ)} (hq : q.length ≤ cap) (ws : List V) :
    (growCap cap d q ws).length ≤ cap := by
  rw [growCap_eq_take hq, List.length_take]
  exact min_le_left _ _

/-- Nodes that fill the queue leave no room for those after them. -/
theorem growCap_of_full {cap d : ℕ} {q : List (V × ℕ)} (hq : q.length ≤ cap) {ws : List V}
    (hfull : cap ≤ (grow d q ws).length) (ws' : List V) :
    growCap cap d q (ws ++ ws') = growCap cap d q ws := by
  obtain ⟨t, ht⟩ := prefix_grow d (grow d q ws) ws'
  rw [growCap_eq_take hq, growCap_eq_take hq, grow_append, ← ht,
    List.take_append_of_le_length hfull]

/-- **As many different nodes as fit are enough**: the rest of a list adds nothing. -/
theorem growCap_take_list {cap d : ℕ} {q : List (V × ℕ)} (hq : q.length ≤ cap) {ws : List V}
    (hws : ws.Nodup) : growCap cap d q (ws.take cap) = growCap cap d q ws := by
  rcases le_or_gt ws.length cap with hle | hgt
  · rw [List.take_of_length_le hle]
  · have hfull : cap ≤ (grow d q (ws.take cap)).length := by
      have hsub : ws.take cap ⊆ nodes (grow d q (ws.take cap)) :=
        fun w hw => mem_nodes_grow.2 (.inr hw)
      have := ((hws.sublist (List.take_sublist cap ws)).subperm hsub).length_le
      rw [List.length_take, min_eq_left hgt.le, length_nodes] at this
      exact this
    conv_rhs => rw [← List.take_append_drop cap ws]
    exact (growCap_of_full hq hfull _).symm

theorem loop_full {cap D fuel head : ℕ} {q : List (V × ℕ)} (h : cap ≤ q.length) :
    loop adj cap D fuel head q = q := by
  cases fuel with
  | zero => rfl
  | succ fuel => rw [loop, if_neg (not_lt.2 h)]

/-- From a head on that is followed by nodes of depth `D` only, nothing is added. -/
theorem loop_last {cap D fuel head : ℕ} {q : List (V × ℕ)} (h : ∀ e ∈ q.drop head, D ≤ e.2) :
    loop adj cap D fuel head q = q := by
  induction fuel generalizing head with
  | zero => rfl
  | succ fuel ih =>
    rw [loop]
    split
    · cases hq : q[head]? with
      | none => rfl
      | some e =>
        obtain ⟨v, d⟩ := e
        dsimp only
        have hlt := (List.getElem?_eq_some_iff.1 hq).1
        have hdrop : q.drop head = (v, d) :: q.drop (head + 1) := by
          rw [List.drop_eq_getElem_cons hlt, (List.getElem?_eq_some_iff.1 hq).2]
        rw [hdrop] at h
        rw [if_pos (h (v, d) (by simp))]
        exact ih fun e he => h e (List.mem_cons_of_mem _ he)
    · rfl

/-- Taking one level off the queue adds what the level leads to. -/
theorem loop_level (adj : V → List V) {cap D k : ℕ} (hk : k < D) {fuel : ℕ} (todo : List V)
    (front back : List (V × ℕ)) (hfuel : cap ≤ fuel + front.length) :
    ∃ fuel', cap ≤ fuel' + (front.length + todo.length) ∧
      loop adj cap D fuel front.length ((front ++ todo.map (·, k) ++ back).take cap) =
        loop adj cap D fuel' (front.length + todo.length)
          ((grow (k + 1) (front ++ todo.map (·, k) ++ back) (todo.flatMap adj)).take cap) := by
  induction todo generalizing fuel front back with
  | nil => exact ⟨fuel, by simpa using hfuel, by simp⟩
  | cons v todo ih =>
    rcases lt_or_ge (front ++ (v :: todo).map (·, k) ++ back).length cap with hlt | hge
    · -- There is room: the node is taken off, and the rest of the level is left.
      cases fuel with
      | zero => simp only [List.length_append] at hlt; omega
      | succ fuel =>
        have hassoc : front ++ (v :: todo).map (·, k) ++ back =
            (front ++ [(v, k)]) ++ todo.map (·, k) ++ back := by simp
        obtain ⟨new, hgrow, -⟩ := grow_spec (k + 1) (front ++ (v :: todo).map (·, k) ++ back) (adj v)
        have hfuel₁ : cap ≤ fuel + (front ++ [(v, k)]).length := by
          simp
          omega
        obtain ⟨fuel', hfuel', hrun⟩ :=
          ih (front ++ [(v, k)]) (back ++ new.map (·, k + 1)) hfuel₁
        refine ⟨fuel', by simpa [Nat.add_comm, Nat.add_left_comm] using hfuel', ?_⟩
        have hget : (front ++ (v :: todo).map (·, k) ++ back)[front.length]? = some (v, k) := by
          simp
        rw [loop, List.take_of_length_le hlt.le, if_pos hlt, hget]
        dsimp only
        rw [if_neg (not_le.2 hk), growCap_eq_take hlt.le, hgrow]
        have hq : front ++ (v :: todo).map (·, k) ++ back ++ new.map (·, k + 1) =
            (front ++ [(v, k)]) ++ todo.map (·, k) ++ (back ++ new.map (·, k + 1)) := by simp
        rw [List.flatMap_cons, grow_append, hgrow, hq]
        simpa [Nat.add_comm, Nat.add_left_comm] using hrun
    · -- The queue is full on either side.
      refine ⟨cap, by omega, ?_⟩
      obtain ⟨t, ht⟩ := prefix_grow (k + 1) (front ++ (v :: todo).map (·, k) ++ back)
        ((v :: todo).flatMap adj)
      rw [← ht, List.take_append_of_le_length hge, loop_full, loop_full]
      all_goals rw [List.length_take, min_eq_left hge]

/-- **The program lists a front part of the listing.** -/
theorem loop_eq_take {cap D fuel : ℕ} (hcap : 0 < cap) (hfuel : cap ≤ fuel) :
    loop adj cap D fuel 0 [(s, 0)] = (bfs adj s D).take cap := by
  have key : ∀ n ≤ D, ∃ fuel' front, bfs adj s n = front ++ (level n (bfs adj s n)).map (·, n) ∧
      cap ≤ fuel' + front.length ∧
      loop adj cap D fuel 0 [(s, 0)] = loop adj cap D fuel' front.length ((bfs adj s n).take cap) := by
    intro n hn
    induction n with
    | zero =>
      refine ⟨fuel, [], by simp [bfs, level], by simpa using hfuel, ?_⟩
      rw [bfs, List.take_of_length_le (by simpa using Nat.succ_le_of_lt hcap)]
      rfl
    | succ n ih =>
      obtain ⟨fuel', front, hfront, hfuel', hrun⟩ := ih (by omega)
      obtain ⟨fuel'', hfuel'', hlevel⟩ :=
        loop_level adj (show n < D by omega) (level n (bfs adj s n)) front [] hfuel'
      rw [List.append_nil, ← hfront] at hlevel
      obtain ⟨new, hgrow, -⟩ :=
        grow_spec (n + 1) (bfs adj s n) ((level n (bfs adj s n)).flatMap adj)
      have hlen : front.length + (level n (bfs adj s n)).length = (bfs adj s n).length := by
        conv_rhs => rw [hfront]
        simp
      obtain ⟨front', hfront', hlt⟩ := bfs_eq_front_append adj s (n + 1)
      have hsame : front' = bfs adj s n := by
        -- Both are the entries of depth at most `n`.
        have hcut : ∀ (a b : List (V × ℕ)) (l : List V), (∀ e ∈ a, e.2 < n + 1) →
            b = a ++ l.map (·, n + 1) → b.filter (fun e => e.2 < n + 1) = a := by
          rintro a b l ha rfl
          rw [List.filter_append, List.filter_eq_self.2 (by simpa using ha),
            List.filter_eq_nil_iff.2 (by simp), List.append_nil]
        have h₁ := hcut _ _ _ hlt hfront'
        have h₂ := hcut (bfs adj s n) (bfs adj s (n + 1)) new
          (fun e he => Nat.lt_succ_of_le (mem_bfs.1 he).1) (by rw [bfs, hgrow])
        exact h₁.symm.trans h₂
      refine ⟨fuel'', bfs adj s n, hsame ▸ hfront', by omega, ?_⟩
      rw [hrun, hlevel, hlen, bfs]
  obtain ⟨fuel', front, hfront, -, hrun⟩ := key D le_rfl
  rw [hrun, loop_last]
  intro e he
  have hmem : e ∈ (bfs adj s D).drop front.length := by
    rw [List.drop_take] at he
    exact List.mem_of_mem_take he
  rw [hfront, List.drop_left] at hmem
  obtain ⟨v, -, rfl⟩ := List.mem_map.1 hmem
  exact le_rfl

/-- The program only adds to its queue. -/
theorem prefix_loop {cap D fuel head : ℕ} {q : List (V × ℕ)} (hq : q.length ≤ cap) :
    q <+: loop adj cap D fuel head q := by
  induction fuel generalizing head q with
  | zero => exact List.prefix_rfl
  | succ fuel ih =>
    rw [loop]
    split
    · split
      · exact List.prefix_rfl
      · split
        · exact ih hq
        · refine List.IsPrefix.trans ?_ (ih (length_growCap_le hq _))
          rw [growCap_eq_take hq]
          exact List.prefix_take_iff.2 ⟨prefix_grow _ _ _, hq⟩
    · exact List.prefix_rfl

/-- **The queue of the program has the nodes as near as the one it takes off**: a front part of
the listing does, when it has the neighbours of the nodes before that one. -/
theorem ball_subset_queue {D head : ℕ} {q : List (V × ℕ)} {v : V} {d : ℕ} (hq : q <+: bfs adj s D)
    (hget : q[head]? = some (v, d))
    (hclosed : ∀ e ∈ q.take head, e.2 < D → ∀ w ∈ adj e.1, w ∈ nodes q) :
    ∀ w ∈ ball adj s d, w ∈ nodes q := by
  have hmem : ∀ e ∈ q, e ∈ bfs adj s D := fun e he => hq.subset he
  have hd : d ≤ D := (mem_bfs.1 (hmem _ (List.mem_of_getElem? hget))).1
  have hsorted : q.Pairwise fun e f => e.2 ≤ f.2 := (sorted_bfs D).sublist hq.sublist
  have key : ∀ k ≤ d, ∀ w ∈ ball adj s k, w ∈ nodes q := by
    intro k
    induction k with
    | zero =>
      intro _ w hw
      obtain rfl : w = s := hw
      obtain ⟨e, q', rfl⟩ : ∃ e q', q = e :: q' := by
        cases q with
        | nil => simp at hget
        | cons e q' => exact ⟨e, q', rfl⟩
      obtain ⟨t, ht⟩ := prefix_bfs adj w (Nat.zero_le D)
      obtain ⟨t', ht'⟩ := hq
      have hfirst : e = (w, 0) := by
        rw [← ht'] at ht
        exact (List.cons.inj ht).1.symm
      simp [hfirst]
    | succ k ih =>
      rintro hk w (hw | ⟨u, hu, hw⟩)
      · exact ih (by omega) w hw
      · obtain ⟨⟨u, j⟩, he, rfl⟩ := List.mem_map.1 (ih (by omega) u hu)
        have hj : j ≤ k := by
          by_contra hlt
          exact (mem_bfs.1 (hmem _ he)).2.2 k (not_le.1 hlt) hu
        -- A node of a smaller depth stands before the one taken off.
        have hbefore : (u, j) ∈ q.take head := by
          obtain ⟨i, hi⟩ := List.mem_iff_getElem?.1 he
          rcases Nat.lt_or_ge i head with hlt | hge
          · refine List.mem_of_getElem? (i := i) ?_
            rw [List.getElem?_take_of_lt hlt, hi]
          · exfalso
            rcases hge.eq_or_lt with rfl | hgt
            · rw [hget] at hi
              have := (Prod.mk.inj (Option.some.inj hi)).2
              omega
            · obtain ⟨hhead, hval⟩ := List.getElem?_eq_some_iff.1 hget
              obtain ⟨hlt, hval'⟩ := List.getElem?_eq_some_iff.1 hi
              have := List.pairwise_iff_getElem.1 hsorted head i hhead hlt hgt
              rw [hval, hval'] at this
              dsimp only at this
              omega
        exact hclosed _ hbefore (by dsimp only; omega) w hw
  exact key d le_rfl

/-- **Two programs that add the same nodes list the same**: at each node that is taken off, to
every queue that has the nodes as near. -/
theorem loop_congr {adj' : V → List V} {cap D : ℕ} (hcap : 0 < cap)
    (hstep : ∀ v d, AtDepth adj' s d v → d < D → ∀ q : List (V × ℕ), q.length ≤ cap →
      (∀ w ∈ ball adj' s d, w ∈ nodes q) →
      growCap cap (d + 1) q (adj v) = growCap cap (d + 1) q (adj' v)) :
    loop adj cap D cap 0 [(s, 0)] = loop adj' cap D cap 0 [(s, 0)] := by
  have key : ∀ fuel head (q : List (V × ℕ)), q.length ≤ cap →
      loop adj' cap D fuel head q = (bfs adj' s D).take cap →
      (q.length < cap → ∀ e ∈ q.take head, e.2 < D → ∀ w ∈ adj' e.1, w ∈ nodes q) →
      loop adj cap D fuel head q = loop adj' cap D fuel head q := by
    intro fuel
    induction fuel with
    | zero => exact fun _ _ _ _ _ => rfl
    | succ fuel ih =>
      intro head q hlen hend hclosed
      have hq : q <+: bfs adj' s D :=
        (hend ▸ prefix_loop hlen).trans (List.take_prefix cap _)
      rw [loop] at hend
      rw [loop, loop]
      split
      · next hlt =>
        rw [if_pos hlt] at hend
        cases hget : q[head]? with
        | none => rfl
        | some e =>
          obtain ⟨v, d⟩ := e
          rw [hget] at hend
          dsimp only at hend ⊢
          obtain ⟨hhead, hval⟩ := List.getElem?_eq_some_iff.1 hget
          have htake : q.take (head + 1) = q.take head ++ [(v, d)] := by
            rw [List.take_add_one, hget]
            rfl
          split
          · next hd =>
            rw [if_pos hd] at hend
            refine ih (head + 1) q hlen hend fun _ e he hlt' => ?_
            rw [htake] at he
            rcases List.mem_append.1 he with he | he
            · exact hclosed hlt e he hlt'
            · rw [List.mem_singleton.1 he] at hlt'
              exact absurd hlt' (not_lt.2 hd)
          · next hd =>
            rw [if_neg hd] at hend
            have hdepth := (mem_bfs.1 (hq.subset (List.mem_of_getElem? hget))).2
            have hball := ball_subset_queue hq hget (hclosed hlt)
            rw [hstep v d hdepth (not_le.1 hd) q hlen hball]
            refine ih (head + 1) _ (length_growCap_le hlen _) hend fun hroom e he hlt' w hw => ?_
            rw [growCap_eq_take hlen] at hroom he ⊢
            have hwhole : (grow (d + 1) q (adj' v)).take cap = grow (d + 1) q (adj' v) := by
              refine List.take_of_length_le ?_
              rw [List.length_take] at hroom
              omega
            rw [hwhole] at he ⊢
            obtain ⟨t, ht⟩ := prefix_grow (d + 1) q (adj' v)
            have hfront : (grow (d + 1) q (adj' v)).take (head + 1) = q.take (head + 1) := by
              rw [← ht, List.take_append_of_le_length (by omega)]
            rw [hfront, htake] at he
            rcases List.mem_append.1 he with he | he
            · exact mem_nodes_grow.2 (.inl (hclosed hlt e he hlt' w hw))
            · rw [List.mem_singleton.1 he] at hw
              exact mem_nodes_grow.2 (.inr hw)
      · rfl
  exact key cap 0 _ (by simpa using Nat.succ_le_of_lt hcap) (loop_eq_take hcap le_rfl) (by simp)

end DatalogDafsa.BreadthFirst
