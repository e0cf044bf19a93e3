import DatalogDafsa.Traverse

/-!
# The traversal lists a breadth-first search

The traversal's arrays are always those of its queue, and its loop is the bounded
breadth-first search over the neighbour lists as they are collected: cut to the number
of nodes that may be visited, and without the node zero.  Where zero is not near the
start, the cut lists add what the whole lists do, and the emitted depths are the
distances in the graph of the relation.  Where it is, the search is that of the graph
without the node zero, unless zero takes the place of a node in a list that is cut.

## Main definitions

* `edgeGraph` — the undirected graph of the relation.
* `TraverseRight` — what a traversal should emit and return.
* `nonzeroAdj`, `detour`, `Starved` — the graph without zero, and what it costs.
* `TraverseOk` — when a traversal is right.

## Main results

* `dlTraverse_right` — the traversal is right when `TraverseOk` holds, and but for starved
  lists then only.
-/

namespace DatalogDafsa.Traverse

open BreadthFirst
open Catalog (Name)

/-! ## Neighbour lists -/

/-- The different values of a list, in the order they are met. -/
def firsts (ws : List Val) : List Val := nodes (grow 0 [] ws)

theorem mem_firsts {ws : List Val} {w : Val} : w ∈ firsts ws ↔ w ∈ ws := by
  rw [firsts, mem_nodes_grow]
  simp

theorem nodup_firsts (ws : List Val) : (firsts ws).Nodup := nodup_nodes_grow (q := []) List.nodup_nil ws

/-- **The buffer holds the first different neighbours.** -/
theorem collect_eq {maxN : ℕ} (hm : 0 < maxN) (rows : List Row) :
    collect maxN rows = (firsts (rows.map fun cols => cols.getD 1 0)).take maxN := by
  have hpush : ∀ (q : List (Val × ℕ)) (w : Val),
      neighborPush maxN (nodes q) w = nodes (pushCap maxN 0 q w) := by
    intro q w
    unfold neighborPush pushCap
    rw [if_neg hm.ne', length_nodes]
    split
    · rfl
    · split
      · simp
      · rfl
  have key : ∀ (rows : List Row) (q : List (Val × ℕ)),
      rows.foldl (fun neighbors cols => neighborPush maxN neighbors (cols.getD 1 0)) (nodes q) =
        nodes (growCap maxN 0 q (rows.map fun cols => cols.getD 1 0)) := by
    intro rows
    induction rows with
    | nil => exact fun _ => rfl
    | cons r rows ih =>
      intro q
      rw [List.foldl_cons, hpush, ih]
      rfl
  have h := key rows []
  rw [growCap_eq_take (Nat.zero_le _)] at h
  exact h.trans (List.map_take ..)

/-- The second columns of the rows that start with `v`. -/
def fwdVals (s : RelSlot) (v : Val) : List Val :=
  ((s.view 3).scan [v]).map fun cols => cols.getD 1 0

/-- The first columns of the rows with `v` in the second, by way of the index. -/
def revVals (s : RelSlot) (v : Val) : List Val :=
  ((Dafsa.ofRows ((s.view 3).keys.map (permute revPerm))).scan [v]).map fun cols => cols.getD 1 0

theorem eq_triple {s : RelSlot} {r : Row} (h : r ∈ s.view 3) : ∃ a b c, r = [a, b, c] :=
  List.length_eq_three.1 (s.width 3 r h)

theorem mem_fwdVals {s : RelSlot} {v w : Val} :
    w ∈ fwdVals s v ↔ ∃ x, [v, w, x] ∈ s.view 3 := by
  simp only [fwdVals, List.mem_map, Dafsa.mem_scan]
  constructor
  · rintro ⟨r, ⟨hr, hpre⟩, rfl⟩
    obtain ⟨a, b, c, rfl⟩ := eq_triple hr
    obtain rfl : v = a := by simpa using hpre
    exact ⟨c, hr⟩
  · rintro ⟨x, hx⟩
    exact ⟨[v, w, x], ⟨hx, by simp⟩, rfl⟩

theorem mem_revVals {s : RelSlot} {v w : Val} :
    w ∈ revVals s v ↔ ∃ x, [w, v, x] ∈ s.view 3 := by
  simp only [revVals, List.mem_map, Dafsa.mem_scan, Dafsa.mem_ofRows]
  constructor
  · rintro ⟨_, ⟨⟨r, hr, rfl⟩, hpre⟩, rfl⟩
    obtain ⟨a, b, c, rfl⟩ := eq_triple hr
    obtain rfl : v = b := by simpa [permute, revPerm] using hpre
    exact ⟨c, hr⟩
  · rintro ⟨x, hx⟩
    exact ⟨[v, w, x], ⟨⟨[w, v, x], hx, rfl⟩, by simp⟩, rfl⟩

/-- The neighbours of a node. -/
def edgeAdj (s : RelSlot) (v : Val) : List Val := firsts (fwdVals s v) ++ firsts (revVals s v)

/-- The neighbours that a traversal of at most `m` nodes looks at. -/
def cutAdj (s : RelSlot) (m : ℕ) (v : Val) : List Val :=
  ((firsts (fwdVals s v)).take m).filter (· ≠ 0) ++ ((firsts (revVals s v)).take m).filter (· ≠ 0)

/-- The undirected graph of the relation. -/
def edgeGraph (s : RelSlot) : SimpleGraph Val :=
  SimpleGraph.fromRel fun u v => ∃ x, [u, v, x] ∈ s.view 3

theorem mem_edgeAdj {s : RelSlot} {v w : Val} :
    w ∈ edgeAdj s v ↔ (∃ x, [v, w, x] ∈ s.view 3) ∨ ∃ x, [w, v, x] ∈ s.view 3 := by
  rw [edgeAdj, List.mem_append, mem_firsts, mem_firsts, mem_fwdVals, mem_revVals]

theorem mem_ball_edgeAdj {s : RelSlot} {start v : Val} {n : ℕ} :
    v ∈ ball (edgeAdj s) start n ↔ (edgeGraph s).edist start v ≤ n :=
  mem_ball_iff_edist fun u v => by rw [edgeGraph, SimpleGraph.fromRel_adj, mem_edgeAdj]

/-! ## The reverse index -/

/-- Is there an index over the second column of the relation at place `i`? -/
def HasPerm (perms : List PermEntry) (i : ℕ) : Prop := ∃ pe ∈ perms, pe.is i 3 revPerm = true

instance (perms : List PermEntry) (i : ℕ) : Decidable (HasPerm perms i) :=
  inferInstanceAs (Decidable (∃ pe ∈ perms, pe.is i 3 revPerm = true))

theorem edgeRel_eq_some {db : TravDb} {i : ℕ} {s : RelSlot} (h : edgeRel db = some (i, s)) :
    db.rels[i]? = some s ∧ s.arity = 3 := by
  unfold edgeRel at h
  obtain ⟨j, -, h⟩ := Option.bind_eq_some_iff.1 h
  obtain ⟨t, ht, h⟩ := Option.bind_eq_some_iff.1 h
  split at h
  · next harity =>
    cases h
    exact ⟨ht, harity⟩
  · cases h

theorem collectForward_eq {db : TravDb} {i : ℕ} {s : RelSlot} (he : edgeRel db = some (i, s))
    {m : ℕ} (hm : 0 < m) (v : Val) :
    collectForward db v m = some ((firsts (fwdVals s v)).take m) := by
  rw [collectForward, he, Option.map_some, collect_eq hm, RelSlot.atArity,
    if_pos (.inr (edgeRel_eq_some he).2)]
  rfl

/-- In a full table the index is refused. -/
theorem collectReverse_full {db : TravDb} (hfull : maxPerms ≤ db.perms.length) (v : Val) (m : ℕ) :
    collectReverse db v m = none := by
  unfold collectReverse
  cases edgeRel db with
  | none => rfl
  | some e =>
    have hnone : dlDbDeclarePerm db.perms e.1 3 revPerm = none := by
      rw [dlDbDeclarePerm, if_neg (by omega), if_pos hfull]
    simp only [hnone]

/-- **With room in the table the predecessors are found**, and the index is there from
then on. -/
theorem collectReverse_room {db : TravDb} (hf : Fresh db) {i : ℕ} {s : RelSlot}
    (he : edgeRel db = some (i, s)) (hroom : db.perms.length < maxPerms) {m : ℕ} (hm : 0 < m)
    (v : Val) :
    ∃ perms, collectReverse db v m = some ((firsts (revVals s v)).take m, { db with perms }) ∧
      Fresh { db with perms } ∧ HasPerm perms i ∧
      perms.length = db.perms.length + if HasPerm db.perms i then 0 else 1 := by
  obtain ⟨hs, harity⟩ := edgeRel_eq_some he
  have hrel : i < db.rels.length := (List.getElem?_eq_some_iff.1 hs).1
  obtain ⟨⟨id, perms⟩, hdecl⟩ : ∃ r, dlDbDeclarePerm db.perms i 3 revPerm = some r := by
    rw [dlDbDeclarePerm, if_neg (by omega), if_neg (not_le.2 hroom), if_neg (by decide)]
    split <;> exact ⟨_, rfl⟩
  -- The entry asked for, and the length of the table.
  obtain ⟨pe, hget, his, hlen⟩ : ∃ pe, perms[id]? = some pe ∧ pe.is i 3 revPerm = true ∧
      perms.length = db.perms.length + if HasPerm db.perms i then 0 else 1 := by
    obtain ⟨-, ⟨rfl, pe, hget, his⟩ | ⟨rfl, rfl, hnone⟩⟩ := dlDbDeclarePerm_eq_some hdecl
    · exact ⟨pe, hget, his, by rw [if_pos ⟨pe, List.mem_of_getElem? hget, his⟩, Nat.add_zero]⟩
    · refine ⟨_, List.getElem?_concat_length, by simp [PermEntry.is], ?_⟩
      rw [if_neg, List.length_append, List.length_singleton]
      rintro ⟨pe, hpe, his⟩
      rw [hnone pe hpe] at his
      cases his
  have hfresh := hf.declarePerm hrel hdecl
  obtain ⟨hid, h3, hperm⟩ : pe.relId = i ∧ pe.arity = 3 ∧ pe.perm = revPerm := by
    simpa [PermEntry.is] using his
  have hrows : permRows db.rels pe.relId pe.arity pe.perm =
      Dafsa.ofRows ((s.view 3).keys.map (permute revPerm)) := by
    simp only [permRows, hid, h3, hperm, hs, RelSlot.atArity, harity, or_true, if_true]
  have hcollect : ∀ d : Dafsa, d = Dafsa.ofRows ((s.view 3).keys.map (permute revPerm)) →
      collect m (d.scan [v]) = (firsts (revVals s v)).take m := by
    rintro d rfl
    exact collect_eq hm _
  have hmem : pe ∈ perms := List.mem_of_getElem? hget
  unfold collectReverse
  simp only [he, hdecl]
  by_cases hdirty : pe.dirty = true
  · refine ⟨perms.modify id fun pe =>
        { pe with pidx := some (permRows db.rels pe.relId pe.arity pe.perm), dirty := false },
      ?_, hfresh.permindexBuild id, ?_, by rw [List.length_modify, hlen]⟩
    · rw [hget, Option.any_some, if_pos hdirty]
      simp only [permindexBuild, List.getElem?_modify_eq, hget, Option.map_eq_map,
        Option.map_some, Option.bind_some, if_pos hid]
      rw [hcollect _ hrows]
    · refine ⟨{ pe with pidx := some (permRows db.rels pe.relId pe.arity pe.perm), dirty := false },
        List.mem_of_getElem? (i := id) ?_, his⟩
      simp [hget]
  · have hclean := hfresh.clean pe hmem (by simpa using hdirty)
    refine ⟨perms, ?_, hfresh, ⟨pe, hmem, his⟩, hlen⟩
    rw [hget, Option.any_some, if_neg hdirty]
    simp only [hget, Option.bind_some, if_pos hid, hclean]
    rw [hcollect _ hrows]

/-! ## The arrays -/

/-- The arrays when the queue is `q`. -/
def arrays (m : ℕ) (q : List (Val × ℕ)) : TravState where
  visited := nodes q ++ List.replicate (m - q.length) 0
  queue := q
  count := q.length
  emitted := q

theorem markVisited_append (node : Val) {us : List Val} (vs : List Val) (h : (0 : Val) ∉ us) :
    markVisited node (us ++ vs) = us ++ markVisited node vs := by
  induction us with
  | nil => rfl
  | cons u us ih =>
    rw [List.mem_cons, not_or] at h
    rw [List.cons_append, markVisited, if_neg (Ne.symm h.1), ih h.2]
    rfl

/-- **One neighbour**: the node zero is passed over, and another is added to the queue
unless it is there, while there is room. -/
theorem visitNeighbor_arrays {m d : ℕ} {q : List (Val × ℕ)} (hlen : q.length ≤ m)
    (hzero : (0 : Val) ∉ nodes q) (nb : Val) :
    visitNeighbor m d (arrays m q) nb = arrays m (if nb = 0 then q else pushCap m d q nb) := by
  rcases hlen.lt_or_eq with hlt | heq
  · obtain ⟨k, hk⟩ : ∃ k, m - q.length = k + 1 := ⟨m - q.length - 1, by omega⟩
    have hvis : isVisited nb (arrays m q).visited = true ↔ nb ∈ nodes q ∨ nb = 0 := by
      simp [isVisited, arrays, hk]
    by_cases hmet : nb ∈ nodes q ∨ nb = 0
    · rw [visitNeighbor, if_pos (hvis.2 hmet)]
      split
      · rfl
      · next hnz => rw [pushCap, if_pos (hmet.resolve_right hnz)]
    · rw [visitNeighbor, if_neg (fun h => hmet (hvis.1 h))]
      rw [not_or] at hmet
      have hmark : markVisited nb (arrays m q).visited =
          nodes q ++ [nb] ++ List.replicate (m - (q.length + 1)) 0 := by
        have hk' : m - (q.length + 1) = k := by omega
        rw [arrays, markVisited_append nb _ hzero, hk, hk', List.replicate_succ, markVisited, if_pos rfl]
        simp
      rw [if_neg hmet.2, pushCap, if_neg hmet.1, if_pos hlt]
      dsimp only
      rw [if_pos (show (arrays m q).queue.length < m from hlt), hmark]
      simp [arrays]
  · -- A full array has no free place, and a full queue no room.
    have hfull : (arrays m q).visited = nodes q := by simp [arrays, heq]
    have hpush : pushCap m d q nb = q := by
      rw [pushCap, if_neg (c := q.length < m) (by omega), ite_self]
    have hmark : markVisited nb (nodes q) = nodes q := by
      have := markVisited_append nb [] hzero
      simpa [markVisited] using this
    rw [hpush, ite_self]
    unfold visitNeighbor
    split
    · rfl
    · dsimp only
      rw [if_neg (show ¬ (arrays m q).queue.length < m from by simp [arrays, heq]), hfull, hmark,
        ← hfull]

theorem growCap_filter_spec {m d : ℕ} {q : List (Val × ℕ)} (hlen : q.length ≤ m)
    (hzero : (0 : Val) ∉ nodes q) (ws : List Val) :
    (growCap m d q (ws.filter (· ≠ 0))).length ≤ m ∧
      (0 : Val) ∉ nodes (growCap m d q (ws.filter (· ≠ 0))) := by
  refine ⟨length_growCap_le hlen _, fun h => ?_⟩
  rw [growCap_eq_take hlen] at h
  have := (List.Sublist.map Prod.fst (List.take_sublist m _)).subset h
  rcases mem_nodes_grow.1 this with h | h
  · exact hzero h
  · simpa using (List.mem_filter.1 h).2

theorem foldl_visitNeighbor {m d : ℕ} {q : List (Val × ℕ)} (hlen : q.length ≤ m)
    (hzero : (0 : Val) ∉ nodes q) (ws : List Val) :
    ws.foldl (visitNeighbor m d) (arrays m q) = arrays m (growCap m d q (ws.filter (· ≠ 0))) := by
  induction ws generalizing q with
  | nil => rfl
  | cons w ws ih =>
    rw [List.foldl_cons, visitNeighbor_arrays hlen hzero]
    by_cases hw : w = 0
    · rw [if_pos hw, ih hlen hzero, List.filter_cons_of_neg (by simpa using hw)]
    · rw [if_neg hw, List.filter_cons_of_pos (by simpa using hw)]
      have hone := growCap_filter_spec (m := m) (d := d) hlen hzero [w]
      rw [List.filter_cons_of_pos (by simpa using hw)] at hone
      exact ih hone.1 hone.2

/-! ## The loop -/

/-- What the traversal does when it ends with the queue `q`. -/
def Outcome.done (q : List (Val × ℕ)) : Outcome := ⟨q, some q.length⟩

/-- One head taken off, with room in the table of indices. -/
theorem growCap_cutAdj {m d : ℕ} {q : List (Val × ℕ)} (hlen : q.length ≤ m)
    (hzero : (0 : Val) ∉ nodes q) (s : RelSlot) (v : Val) :
    ((firsts (revVals s v)).take m).foldl (visitNeighbor m d)
        (((firsts (fwdVals s v)).take m).foldl (visitNeighbor m d) (arrays m q)) =
      arrays m (growCap m d q (cutAdj s m v)) ∧
    (growCap m d q (cutAdj s m v)).length ≤ m ∧
      (0 : Val) ∉ nodes (growCap m d q (cutAdj s m v)) := by
  obtain ⟨hlen', hzero'⟩ := growCap_filter_spec (d := d) hlen hzero ((firsts (fwdVals s v)).take m)
  rw [foldl_visitNeighbor hlen hzero, foldl_visitNeighbor hlen' hzero', cutAdj, growCap_append]
  exact ⟨rfl, growCap_filter_spec hlen' hzero' _⟩

/-- **With the index declared the loop is the bounded search.** -/
theorem traverseLoop_eq {depthV m fuel head : ℕ} (hm : 0 < m) {db : TravDb} (hf : Fresh db)
    {i : ℕ} {s : RelSlot} (he : edgeRel db = some (i, s)) (hroom : db.perms.length < maxPerms)
    (hperm : HasPerm db.perms i) {q : List (Val × ℕ)} (hlen : q.length ≤ m)
    (hzero : (0 : Val) ∉ nodes q) :
    traverseLoop depthV m fuel head db (arrays m q) =
      .done (loop (cutAdj s m) m depthV fuel head q) := by
  induction fuel generalizing head db q with
  | zero => rfl
  | succ fuel ih =>
    rw [traverseLoop, loop]
    have hq : (arrays m q).queue = q := rfl
    rw [hq]
    split
    · cases hget : q[head]? with
      | none => rfl
      | some e =>
        obtain ⟨v, d⟩ := e
        dsimp only
        split
        · exact ih hf he hroom hperm hlen hzero
        · obtain ⟨perms, hrev, hf', hperm', hlen'⟩ := collectReverse_room hf he hroom hm v
          obtain ⟨harrays, hlenq, hzeroq⟩ := growCap_cutAdj (d := d + 1) hlen hzero s v
          rw [collectForward_eq he hm]
          dsimp only
          rw [hrev]
          dsimp only
          rw [harrays]
          rw [if_pos hperm, Nat.add_zero] at hlen'
          exact ih hf' he (by dsimp only; omega) hperm' hlenq hzeroq
    · rfl

/-- With the table full, the loop ends well only where it takes no head off. -/
theorem traverseLoop_full {depthV m fuel head : ℕ} (hm : 0 < m) {db : TravDb} {i : ℕ}
    {s : RelSlot} (he : edgeRel db = some (i, s)) (hfull : maxPerms ≤ db.perms.length)
    {q : List (Val × ℕ)} {v : Val} {d : ℕ} (hget : q[head]? = some (v, d)) (hd : d < depthV)
    (hlt : q.length < m) (hfuel : 0 < fuel) :
    (traverseLoop depthV m fuel head db (arrays m q)).ret = none := by
  obtain ⟨fuel, rfl⟩ := Nat.exists_eq_succ_of_ne_zero hfuel.ne'
  rw [traverseLoop]
  have hq : (arrays m q).queue = q := rfl
  rw [hq, if_pos hlt, hget]
  dsimp only
  rw [if_neg (not_le.2 hd), collectForward_eq he hm]
  dsimp only
  rw [collectReverse_full hfull]

/-- Where no head is taken off any more, the table does not matter. -/
theorem traverseLoop_last {depthV m fuel head : ℕ} {db : TravDb} {q : List (Val × ℕ)}
    (h : m ≤ q.length ∨ ∀ e ∈ q.drop head, depthV ≤ e.2) :
    traverseLoop depthV m fuel head db (arrays m q) = .done q := by
  induction fuel generalizing head with
  | zero => rfl
  | succ fuel ih =>
    rw [traverseLoop]
    have hq : (arrays m q).queue = q := rfl
    rw [hq]
    split
    · next hlt =>
      have hdeep := h.resolve_left (not_le.2 hlt)
      cases hget : q[head]? with
      | none => rfl
      | some e =>
        obtain ⟨v, d⟩ := e
        obtain ⟨hhead, hval⟩ := List.getElem?_eq_some_iff.1 hget
        have hdrop : q.drop head = (v, d) :: q.drop (head + 1) := by
          rw [List.drop_eq_getElem_cons hhead, hval]
        rw [hdrop] at hdeep
        dsimp only
        rw [if_pos (hdeep (v, d) (by simp))]
        exact ih (.inr fun e he => hdeep e (List.mem_cons_of_mem _ he))
    · rfl

/-! ## What a traversal should do -/

/-- The nodes within `n` steps of the start. -/
def near (G : SimpleGraph Val) (start : Val) (n : ℕ) : Set Val := {v | G.edist start v ≤ n}

/-- What is asked of a traversal of depth `n` and at most `m` nodes. -/
structure TraverseRight (G : SimpleGraph Val) (start : Val) (n m : ℕ) (out : Outcome) : Prop where
  /-- The start is emitted first, at depth zero. -/
  first : out.emitted.head? = some (start, 0)
  /-- Depths do not decrease. -/
  sorted : out.emitted.Pairwise fun e f => e.2 ≤ f.2
  /-- Each node is emitted once. -/
  nodup : (nodes out.emitted).Nodup
  /-- The depths are the distances. -/
  dist : ∀ e ∈ out.emitted, G.edist start e.1 = e.2
  /-- When there are few enough nodes, they are all emitted, and no other. -/
  within : (near G start n).encard ≤ m → ∀ v, v ∈ nodes out.emitted ↔ v ∈ near G start n
  /-- When there are more, `m` of them are emitted. -/
  cut : m < (near G start n).encard →
    out.emitted.length = m ∧ ∀ v ∈ nodes out.emitted, v ∈ near G start n
  /-- The result is the number emitted. -/
  count : out.ret = some out.emitted.length

section Right

variable {s : RelSlot} {start : Val} {n m : ℕ}

theorem atDepth_iff_edist {v : Val} {k : ℕ} :
    AtDepth (edgeAdj s) start k v ↔ (edgeGraph s).edist start v = k := by
  simp only [AtDepth, mem_ball_edgeAdj, not_le]
  constructor
  · rintro ⟨hle, hlt⟩
    refine le_antisymm hle ?_
    by_contra hcon
    obtain ⟨j, hj⟩ := ENat.ne_top_iff_exists.1 (ne_top_of_le_ne_top (ENat.natCast_ne_top k) hle)
    rw [← hj, not_le, Nat.cast_lt] at hcon
    exact absurd (hlt j hcon) (by rw [← hj]; exact lt_irrefl _)
  · intro h
    rw [h]
    exact ⟨le_rfl, fun j hj => by exact_mod_cast hj⟩

theorem head?_take_bfs {adj : Val → List Val} (hm : 0 < m) :
    ((bfs adj start n).take m).head? = some (start, 0) := by
  obtain ⟨t, ht⟩ := prefix_bfs adj start (Nat.zero_le n)
  obtain ⟨m, rfl⟩ := Nat.exists_eq_succ_of_ne_zero hm.ne'
  rw [← ht]
  rfl

theorem near_eq : near (edgeGraph s) start n = {v | v ∈ nodes (bfs (edgeAdj s) start n)} := by
  ext v
  rw [near, Set.mem_ofPred_eq, Set.mem_ofPred_eq, mem_nodes_bfs, mem_ball_edgeAdj]

theorem encard_nodes {q : List (Val × ℕ)} (hq : (nodes q).Nodup) :
    {v | v ∈ nodes q}.encard = q.length := by
  have hset : {v | v ∈ nodes q} = ((nodes q).toFinset : Set Val) := by
    ext v
    simp
  rw [hset, Set.encard_coe_eq_coe_finsetCard, List.toFinset_card_of_nodup hq, length_nodes]

/-- **A front part of the full search is right.** -/
theorem right_take_bfs (hm : 0 < m) :
    TraverseRight (edgeGraph s) start n m (.done ((bfs (edgeAdj s) start n).take m)) := by
  have hsub : (nodes ((bfs (edgeAdj s) start n).take m)).Sublist (nodes (bfs (edgeAdj s) start n)) :=
    (List.take_sublist m _).map Prod.fst
  constructor
  · exact head?_take_bfs hm
  · exact (sorted_bfs n).sublist (List.take_sublist m _)
  · exact (nodup_bfs _ _ n).sublist hsub
  · exact fun e he => atDepth_iff_edist.1 (mem_bfs.1 (List.mem_of_mem_take he)).2
  · intro hle v
    rw [near_eq, encard_nodes (nodup_bfs _ _ n)] at hle
    have hwhole : (bfs (edgeAdj s) start n).take m = bfs (edgeAdj s) start n :=
      List.take_of_length_le (by exact_mod_cast hle)
    rw [near_eq, Outcome.done, hwhole]
    rfl
  · intro hlt
    rw [near_eq, encard_nodes (nodup_bfs _ _ n)] at hlt
    have hlt : m < (bfs (edgeAdj s) start n).length := by exact_mod_cast hlt
    refine ⟨by rw [Outcome.done, List.length_take, min_eq_left hlt.le], fun v hv => ?_⟩
    rw [near_eq]
    exact hsub.subset hv
  · rfl

/-- **The lists as collected are enough**, when zero is not near the start. -/
theorem loop_cutAdj (hm : 0 < m) (hzero : (0 : Val) ∉ near (edgeGraph s) start n) :
    loop (cutAdj s m) m n m 0 [(start, 0)] = (bfs (edgeAdj s) start n).take m := by
  rw [← loop_eq_take hm le_rfl]
  refine loop_congr hm fun v d hv hd q hq _ => ?_
  have hne : ∀ w ∈ edgeAdj s v, w ≠ 0 := by
    rintro w hw rfl
    exact hzero (mem_ball_edgeAdj.1 (ball_mono (Nat.succ_le_of_lt hd) (mem_ball_succ hv.1 hw)))
  have hfilter : ∀ ws ⊆ edgeAdj s v, ws.filter (· ≠ 0) = ws := fun ws hws =>
    List.filter_eq_self.2 fun w hw => by simpa using hne w (hws hw)
  rw [cutAdj, hfilter _ fun w hw => List.mem_append.2 (.inl (List.mem_of_mem_take hw)),
    hfilter _ fun w hw => List.mem_append.2 (.inr (List.mem_of_mem_take hw)), growCap_append,
    growCap_take_list hq (nodup_firsts _),
    growCap_take_list (length_growCap_le hq _) (nodup_firsts _), edgeAdj, growCap_append]

/-! ### Without the node zero -/

/-- The neighbours of a node in the graph without the node zero. -/
def nonzeroAdj (s : RelSlot) (v : Val) : List Val := (edgeAdj s v).filter (· ≠ 0)

theorem mem_nonzeroAdj {v w : Val} : w ∈ nonzeroAdj s v ↔ w ∈ edgeAdj s v ∧ w ≠ 0 := by
  simp [nonzeroAdj]

/-- A list that the cut spoils: the node zero takes a place among the first `m` of more than
`m` entries, and all the nodes that are met have the others. -/
def Spoiled (m : ℕ) (met : Set Val) (ws : List Val) : Prop :=
  m < ws.length ∧ (0 : Val) ∈ ws.take m ∧ ∀ w ∈ met, w ∈ ws.take m

/-- A node nearer than `n` has such a list, when the nodes as near as it are met.  It is then
among its own neighbours, and so is the start. -/
def Starved (s : RelSlot) (start : Val) (n m : ℕ) : Prop :=
  ∃ v, ∃ d < n, AtDepth (nonzeroAdj s) start d v ∧
    (Spoiled m (ball (nonzeroAdj s) start d) (firsts (fwdVals s v)) ∨
      Spoiled m (ball (nonzeroAdj s) start d) (firsts (revVals s v)))

/-- The place, in the breadth-first listing of the graph without the node zero, of the first
node at depth three that is a neighbour of zero as the start is: it is two steps away.  Where
there is none it is the number of nodes listed. -/
def detour (s : RelSlot) (start : Val) (n : ℕ) : ℕ :=
  (bfs (nonzeroAdj s) start n).findIdx fun e =>
    e.2 = 3 && (edgeAdj s start).contains 0 && (edgeAdj s 0).contains e.1

theorem ball_nonzeroAdj_subset : ball (nonzeroAdj s) start n ⊆ ball (edgeAdj s) start n := by
  induction n with
  | zero => exact subset_rfl
  | succ n ih =>
    rintro v (hv | ⟨u, hu, hv⟩)
    · exact .inl (ih hv)
    · exact .inr ⟨u, ih hu, (mem_nonzeroAdj.1 hv).1⟩

theorem zero_notMem_ball (hstart : start ≠ 0) : (0 : Val) ∉ ball (nonzeroAdj s) start n := by
  induction n with
  | zero => exact fun h => hstart (Set.mem_singleton_iff.1 h).symm
  | succ n ih =>
    rintro (h | ⟨u, -, h⟩)
    · exact ih h
    · exact (mem_nonzeroAdj.1 h).2 rfl

/-- A list that is not spoiled may be cut before the node zero is left out. -/
theorem growCap_cut {d : ℕ} {q : List (Val × ℕ)} (hq : q.length ≤ m) {met : Set Val}
    (hmet : ∀ w ∈ met, w ∈ nodes q) {ws : List Val} (hws : ws.Nodup)
    (hgood : ¬ Spoiled m met ws) :
    growCap m d q ((ws.take m).filter (· ≠ 0)) = growCap m d q (ws.filter (· ≠ 0)) := by
  rcases le_or_gt ws.length m with hle | hgt
  · rw [List.take_of_length_le hle]
  have hcut : (ws.take m).length = m := by rw [List.length_take, min_eq_left hgt.le]
  have hnd : (ws.take m).Nodup := hws.sublist (List.take_sublist m ws)
  have hall : ws.filter (· ≠ 0) = (ws.take m).filter (· ≠ 0) ++ (ws.drop m).filter (· ≠ 0) := by
    rw [← List.filter_append, List.take_append_drop]
  rw [hall]
  refine (growCap_of_full hq ?_ _).symm
  -- as many different nodes as fit are listed then
  have hlisted : ∀ w ∈ (ws.take m).filter (· ≠ 0),
      w ∈ nodes (grow d q ((ws.take m).filter (· ≠ 0))) := fun w hw => mem_nodes_grow.2 (.inr hw)
  by_cases hzero : (0 : Val) ∈ ws.take m
  · obtain ⟨w, hw, hout⟩ : ∃ w ∈ met, w ∉ ws.take m := by
      by_contra hcon
      push Not at hcon
      exact hgood ⟨hgt, hzero, hcon⟩
    have hne : ∀ x ∈ (ws.take m).filter (· ≠ 0), x ≠ w := by
      rintro x hx rfl
      exact hout (List.mem_filter.1 hx).1
    have hcount : (w :: (ws.take m).filter (· ≠ 0)).length = m := by
      have herase : (ws.take m).filter (· ≠ 0) = (ws.take m).erase 0 := by
        rw [hnd.erase_eq_filter]
        exact List.filter_congr fun x _ => by by_cases hx : x = 0 <;> simp [hx]
      rw [List.length_cons, herase, List.length_erase_of_mem hzero, hcut]
      have : 0 < (ws.take m).length := List.length_pos_of_mem hzero
      omega
    have hnd' : (w :: (ws.take m).filter (· ≠ 0)).Nodup :=
      List.nodup_cons.2 ⟨fun h => hne w h rfl, hnd.filter _⟩
    have hsub : w :: (ws.take m).filter (· ≠ 0) ⊆
        nodes (grow d q ((ws.take m).filter (· ≠ 0))) := by
      intro x hx
      rcases List.mem_cons.1 hx with rfl | hx
      · exact mem_nodes_grow.2 (.inl (hmet x hw))
      · exact hlisted x hx
    have hle := (List.subperm_of_subset hnd' hsub).length_le
    rwa [hcount, length_nodes] at hle
  · have hself : (ws.take m).filter (· ≠ 0) = ws.take m :=
      List.filter_eq_self.2 fun w hw => by
        have : w ≠ 0 := by
          rintro rfl
          exact hzero hw
        simpa using this
    rw [hself] at hlisted ⊢
    have hle := (hnd.subperm hlisted).length_le
    rwa [hcut, length_nodes] at hle

/-- **Lists that are not spoiled lead where the whole ones do**, the node zero left out. -/
theorem loop_nonzeroAdj (hm : 0 < m) (hgood : ¬ Starved s start n m) :
    loop (cutAdj s m) m n m 0 [(start, 0)] = (bfs (nonzeroAdj s) start n).take m := by
  rw [← loop_eq_take hm le_rfl]
  refine loop_congr hm fun v d hv hd q hq hball => ?_
  have hfwd : ¬ Spoiled m (ball (nonzeroAdj s) start d) (firsts (fwdVals s v)) := fun h =>
    hgood ⟨v, d, hd, hv, .inl h⟩
  have hrev : ¬ Spoiled m (ball (nonzeroAdj s) start d) (firsts (revVals s v)) := fun h =>
    hgood ⟨v, d, hd, hv, .inr h⟩
  rw [cutAdj, growCap_append, growCap_cut hq hball (nodup_firsts _) hfwd]
  have hball' : ∀ w ∈ ball (nonzeroAdj s) start d,
      w ∈ nodes (growCap m (d + 1) q ((firsts (fwdVals s v)).filter (· ≠ 0))) := by
    intro w hw
    rw [growCap_eq_take hq]
    exact List.map_subset Prod.fst (List.prefix_take_iff.2 ⟨prefix_grow _ _ _, hq⟩).subset
      (hball w hw)
  rw [growCap_cut (length_growCap_le hq _) hball' (nodup_firsts _) hrev, ← growCap_append,
    ← List.filter_append]
  rfl

/-- **A node is nearer than its depth without zero** when zero is a step from the start and a
step from it, and the depth is three. -/
theorem edist_lt_iff (hstart : start ≠ 0) {e : Val × ℕ} (he : e ∈ bfs (nonzeroAdj s) start n)
    (hn : n ≤ 3) : (edgeGraph s).edist start e.1 < e.2 ↔
      e.2 = 3 ∧ 0 ∈ edgeAdj s start ∧ e.1 ∈ edgeAdj s 0 := by
  obtain ⟨v, k⟩ := e
  obtain ⟨hk, hin, hout⟩ := mem_bfs.1 he
  dsimp only at hk hin hout ⊢
  have hv : v ≠ 0 := by
    rintro rfl
    exact zero_notMem_ball hstart hin
  have hstep : ∀ u j, u ∈ ball (nonzeroAdj s) start j → j + 1 < k → v ∉ edgeAdj s u :=
    fun u j hu hj hmem => hout (j + 1) hj (mem_ball_succ hu (mem_nonzeroAdj.2 ⟨hmem, hv⟩))
  constructor
  · intro hlt
    obtain ⟨l, hl⟩ := ENat.ne_top_iff_exists.1 (ne_top_of_lt hlt)
    rw [← hl, Nat.cast_lt] at hlt
    have hball : v ∈ ball (edgeAdj s) start l := mem_ball_edgeAdj.2 hl.ge
    have hne : v ≠ start := by
      rintro rfl
      exact hout 0 (by omega) rfl
    have hfirst : 1 < k → v ∉ edgeAdj s start := fun h => hstep start 0 rfl h
    have hl2 : l = 2 ∧ k = 3 := by
      rcases Nat.lt_or_ge l 2 with hl1 | hl2
      · exfalso
        rcases ball_mono (Nat.le_of_lt_succ hl1) hball with h | ⟨u, hu, h⟩
        · exact hne h
        · obtain rfl : u = start := hu
          by_cases hk1 : 1 < k
          · exact hfirst hk1 h
          · obtain rfl : l = 0 := by omega
            exact hne hball
      · omega
    obtain ⟨rfl, rfl⟩ := hl2
    refine ⟨rfl, ?_⟩
    rcases hball with (h | ⟨u, hu, h⟩) | ⟨u, hu, h⟩
    · exact absurd h hne
    · obtain rfl : u = start := hu
      exact absurd h (hfirst (by omega))
    · rcases hu with hu | ⟨x, hx, hu⟩
      · obtain rfl : u = start := hu
        exact absurd h (hfirst (by omega))
      · obtain rfl : x = start := hx
        have hu0 : u = 0 := by
          by_contra hne0
          exact hstep u 1 (mem_ball_succ rfl (mem_nonzeroAdj.2 ⟨hu, hne0⟩)) (by omega) h
        exact hu0 ▸ ⟨hu, h⟩
  · rintro ⟨rfl, hzero, hmem⟩
    have hball : v ∈ ball (edgeAdj s) start 2 := mem_ball_succ (mem_ball_succ rfl hzero) hmem
    calc (edgeGraph s).edist start v ≤ (2 : ℕ) := mem_ball_edgeAdj.1 hball
      _ < (3 : ℕ) := by norm_num

/-- A bound on the place of the first. -/
theorem le_findIdx_iff {α : Type} {p : α → Bool} {l : List α} {k : ℕ} :
    k ≤ l.findIdx p ↔ k ≤ l.length ∧ ∀ e ∈ l.take k, p e = false := by
  constructor
  · intro h
    refine ⟨h.trans List.findIdx_le_length, fun e he => ?_⟩
    obtain ⟨i, hi⟩ := List.mem_iff_getElem?.1 he
    rw [List.getElem?_take] at hi
    split at hi
    · next hlt =>
      obtain ⟨hlen, rfl⟩ := List.getElem?_eq_some_iff.1 hi
      simpa using List.not_of_lt_findIdx (hlt.trans_le h)
    · cases hi
  · rintro ⟨hlen, hall⟩
    by_contra hlt
    rw [not_le] at hlt
    have hi : l.findIdx p < l.length := hlt.trans_le hlen
    have hp : p l[l.findIdx p] = true := List.findIdx_getElem
    rw [hall _ (List.mem_take_iff_getElem.2 ⟨l.findIdx p, by omega, rfl⟩)] at hp
    cases hp

/-- **With zero near the start**, the listing without zero is right as far as no node is
nearer by way of it. -/
theorem right_nonzero_iff (hstart : start ≠ 0) (hm : 0 < m) (hn : n ≤ 3)
    (hzero : (0 : Val) ∈ near (edgeGraph s) start n) :
    TraverseRight (edgeGraph s) start n m (.done ((bfs (nonzeroAdj s) start n).take m)) ↔
      m ≤ detour s start n := by
  have hfind : m ≤ detour s start n ↔ m ≤ (bfs (nonzeroAdj s) start n).length ∧
      ∀ e ∈ (bfs (nonzeroAdj s) start n).take m, (e.2 : ℕ∞) ≤ (edgeGraph s).edist start e.1 := by
    rw [detour, le_findIdx_iff]
    refine and_congr_right fun _ => forall₂_congr fun e he => ?_
    have hiff := edist_lt_iff hstart (List.mem_of_mem_take he) hn
    rw [← not_lt, hiff, ← Bool.not_eq_true]
    simp only [Bool.and_eq_true, decide_eq_true_eq, List.contains_iff_mem, and_assoc]
  rw [hfind]
  have hmem : ∀ e ∈ (bfs (nonzeroAdj s) start n).take m,
      e.2 ≤ n ∧ (edgeGraph s).edist start e.1 ≤ e.2 := by
    intro e he
    obtain ⟨hle, hd⟩ := mem_bfs.1 (List.mem_of_mem_take he)
    exact ⟨hle, mem_ball_edgeAdj.1 (ball_nonzeroAdj_subset hd.1)⟩
  have hnear : ∀ v ∈ nodes ((bfs (nonzeroAdj s) start n).take m),
      v ∈ near (edgeGraph s) start n := by
    intro v hv
    obtain ⟨e, he, rfl⟩ := List.mem_map.1 hv
    exact (hmem e he).2.trans (by exact_mod_cast (hmem e he).1)
  have hsub : (nodes ((bfs (nonzeroAdj s) start n).take m)).Sublist
      (nodes (bfs (nonzeroAdj s) start n)) := (List.take_sublist m _).map Prod.fst
  have hno : (0 : Val) ∉ nodes ((bfs (nonzeroAdj s) start n).take m) := fun h =>
    zero_notMem_ball hstart (mem_nodes_bfs.1 (hsub.subset h))
  have hnd := (nodup_bfs (nonzeroAdj s) start n).sublist hsub
  constructor
  · intro h
    have hlt : (m : ℕ∞) < (near (edgeGraph s) start n).encard := by
      by_contra hcon
      exact hno ((h.within (not_lt.1 hcon) 0).2 hzero)
    have hlen : ((bfs (nonzeroAdj s) start n).take m).length = m := (h.cut hlt).1
    rw [List.length_take] at hlen
    exact ⟨by omega, fun e he => (h.dist e he).ge⟩
  · rintro ⟨hlen, hdist⟩
    have hcard : (m : ℕ∞) < (near (edgeGraph s) start n).encard := by
      have hinsert : insert 0 {v | v ∈ nodes ((bfs (nonzeroAdj s) start n).take m)} ⊆
          near (edgeGraph s) start n := by
        rintro v (rfl | hv)
        · exact hzero
        · exact hnear v hv
      have hno' : (0 : Val) ∉ {v | v ∈ nodes ((bfs (nonzeroAdj s) start n).take m)} := hno
      have := Set.encard_le_encard hinsert
      rw [Set.encard_insert_of_notMem hno', encard_nodes hnd, List.length_take, min_eq_left hlen]
        at this
      exact lt_of_lt_of_le (by exact_mod_cast m.lt_succ_self) this
    constructor
    · exact head?_take_bfs hm
    · exact (sorted_bfs n).sublist (List.take_sublist m _)
    · exact hnd
    · exact fun e he => le_antisymm (hmem e he).2 (hdist e he)
    · exact fun hle => absurd hle (not_le.2 hcard)
    · exact fun _ => ⟨by rw [Outcome.done, List.length_take, min_eq_left hlen], hnear⟩
    · rfl

end Right

/-! ## When it does -/

/-- Only the start is looked at: the depth is one, the start has no neighbour but itself
and zero among those that are looked at, or with it they are as many as may be visited. -/
def OnePass (s : RelSlot) (start : Val) (n m : ℕ) : Prop :=
  n ≤ 1 ∨ (∀ w ∈ cutAdj s m start, w = start) ∨
    m ≤ (insert start (cutAdj s m start).toFinset).card

/-- When a traversal of depth `n` and at most `m` nodes is right: one node only is asked for, or
there is room for the index, and zero is not near the start or the graph without it has `m`
nodes that are no nearer by way of zero. -/
def TraverseOk (db : TravDb) (i : ℕ) (s : RelSlot) (start : Val) (n m : ℕ) : Prop :=
  m = 1 ∨
    (db.perms.length + 1 < maxPerms ∨
      db.perms.length + 1 = maxPerms ∧ (HasPerm db.perms i ∨ OnePass s start n m)) ∧
    ((0 : Val) ∉ near (edgeGraph s) start n ∨
      ¬ Starved s start n m ∧ m ≤ detour s start n)

section Outcome

variable {db : TravDb} {i : ℕ} {s : RelSlot} {start : Val} {n m : ℕ}

variable (s start m) in
/-- The queue when the start has been looked at. -/
def firstQueue : List (Val × ℕ) := growCap m 1 [(start, 0)] (cutAdj s m start)

/-- It has the start and its neighbours, as many as there is room for. -/
theorem firstQueue_eq (hm : 1 < m) :
    ∃ new : List Val, new.Nodup ∧ (∀ w, w ∈ new ↔ w ∈ cutAdj s m start ∧ w ≠ start) ∧
      firstQueue s start m = (start, 0) :: (new.map (·, 1)).take (m - 1) := by
  obtain ⟨new, hgrow, hnd, hmem⟩ := grow_spec 1 [(start, 0)] (cutAdj s m start)
  refine ⟨new, hnd, fun w => by rw [hmem]; simp, ?_⟩
  have hlen : [(start, 0)].length ≤ m := by simp; omega
  obtain ⟨k, rfl⟩ : ∃ k, m = k + 1 := ⟨m - 1, by omega⟩
  rw [firstQueue, growCap_eq_take hlen, hgrow]
  rfl

theorem card_insert_start {new : List Val} (hnd : new.Nodup)
    (hmem : ∀ w, w ∈ new ↔ w ∈ cutAdj s m start ∧ w ≠ start) :
    (insert start (cutAdj s m start).toFinset).card = new.length + 1 := by
  have hset : insert start (cutAdj s m start).toFinset = (start :: new).toFinset := by
    ext w
    simp only [Finset.mem_insert, List.mem_toFinset, List.mem_cons, hmem]
    by_cases hw : w = start <;> simp [hw]
  have hnd' : (start :: new).Nodup := List.nodup_cons.2 ⟨fun h => ((hmem start).1 h).2 rfl, hnd⟩
  rw [hset, List.toFinset_card_of_nodup hnd', List.length_cons]

/-- After one pass the search is over. -/
theorem OnePass.done (hm : 1 < m) (h : OnePass s start n m) :
    m ≤ (firstQueue s start m).length ∨ ∀ e ∈ (firstQueue s start m).drop 1, n ≤ e.2 := by
  obtain ⟨new, hnd, hmem, hq⟩ := @firstQueue_eq s start m hm
  rw [hq, List.drop_succ_cons, List.drop_zero]
  rcases h with h | h | h
  · refine .inr fun e he => ?_
    obtain ⟨w, -, rfl⟩ := List.mem_map.1 (List.mem_of_mem_take he)
    exact h
  · obtain rfl : new = [] :=
      List.eq_nil_iff_forall_not_mem.2 fun w hw => ((hmem w).1 hw).2 (h w ((hmem w).1 hw).1)
    exact .inr (by simp)
  · rw [card_insert_start hnd hmem] at h
    left
    simp
    omega

/-- Else there is room, and a node to be looked at. -/
theorem exists_next (hm : 1 < m) (h : ¬ OnePass s start n m) :
    1 < n ∧ (firstQueue s start m).length < m ∧ ∃ w, (firstQueue s start m)[1]? = some (w, 1) := by
  obtain ⟨new, hnd, hmem, hq⟩ := @firstQueue_eq s start m hm
  rw [OnePass, not_or, not_or, card_insert_start hnd hmem] at h
  obtain ⟨hn, hother, hroom⟩ := h
  refine ⟨by omega, ?_, ?_⟩
  · rw [hq]
    simp
    omega
  · cases new with
    | nil =>
      refine absurd (fun w hw => ?_) hother
      by_contra hne
      simpa using (hmem w).2 ⟨hw, hne⟩
    | cons w new =>
      obtain ⟨k, hk⟩ : ∃ k, m - 1 = k + 1 := ⟨m - 2, by omega⟩
      exact ⟨w, by rw [hq, hk]; rfl⟩

/-- The loop looks at the start; then the index is there. -/
theorem traverseLoop_first (hf : Fresh db) (he : edgeRel db = some (i, s)) (hstart : start ≠ 0)
    (hn : 1 ≤ n) (hm : 1 < m) (hroom : db.perms.length < maxPerms) :
    (firstQueue s start m).length ≤ m ∧ (0 : Val) ∉ nodes (firstQueue s start m) ∧
    ∃ perms, Fresh { db with perms } ∧ HasPerm perms i ∧
      perms.length = db.perms.length + (if HasPerm db.perms i then 0 else 1) ∧
      traverseLoop n m m 0 db (.init m start) =
        traverseLoop n m (m - 1) 1 { db with perms } (arrays m (firstQueue s start m)) := by
  have hlen : [(start, 0)].length ≤ m := by simp; omega
  have hzero : (0 : Val) ∉ nodes [(start, 0)] := by simpa using Ne.symm hstart
  obtain ⟨harrays, hlenq, hzeroq⟩ := growCap_cutAdj (d := 1) hlen hzero s start
  obtain ⟨perms, hrev, hf', hperm, hlen'⟩ :=
    collectReverse_room hf he hroom (m := m) (by omega) start
  refine ⟨hlenq, hzeroq, perms, hf', hperm, hlen', ?_⟩
  obtain ⟨fuel, rfl⟩ : ∃ fuel, m = fuel + 1 := ⟨m - 1, by omega⟩
  have hinit : TravState.init (fuel + 1) start = arrays (fuel + 1) [(start, 0)] := rfl
  have hroom' : (arrays (fuel + 1) [(start, 0)]).queue.length < fuel + 1 := by
    simpa [arrays] using hm
  have hget : (arrays (fuel + 1) [(start, 0)]).queue[0]? = some (start, 0) := rfl
  rw [hinit, traverseLoop, if_pos hroom', hget]
  dsimp only
  rw [if_neg (by omega), collectForward_eq he (by omega)]
  dsimp only
  rw [hrev]
  dsimp only
  rw [harrays]
  rfl

/-- And so does the search. -/
theorem loop_first (hn : 1 ≤ n) (hm : 1 < m) :
    loop (cutAdj s m) m n m 0 [(start, 0)] =
      loop (cutAdj s m) m n (m - 1) 1 (firstQueue s start m) := by
  obtain ⟨fuel, rfl⟩ : ∃ fuel, m = fuel + 1 := ⟨m - 1, by omega⟩
  have hget : [(start, 0)][0]? = some (start, 0) := rfl
  rw [loop, if_pos (by simpa using hm), hget]
  dsimp only
  rw [if_neg (by omega)]
  rfl

/-- **What the loop does from the start**: it is the search, or it fails for want of room
in the table. -/
theorem traverseLoop_start (hf : Fresh db) (he : edgeRel db = some (i, s)) (hstart : start ≠ 0)
    (hn : 1 ≤ n) (hm : 1 < m) :
    ((db.perms.length + 1 < maxPerms ∨
        db.perms.length + 1 = maxPerms ∧ (HasPerm db.perms i ∨ OnePass s start n m)) →
      traverseLoop n m m 0 db (.init m start) = .done (loop (cutAdj s m) m n m 0 [(start, 0)])) ∧
    (¬ (db.perms.length + 1 < maxPerms ∨
        db.perms.length + 1 = maxPerms ∧ (HasPerm db.perms i ∨ OnePass s start n m)) →
      (traverseLoop n m m 0 db (.init m start)).ret = none) := by
  have hm0 : 0 < m := by omega
  by_cases hfull : maxPerms ≤ db.perms.length
  · refine ⟨fun h => by omega, fun _ => ?_⟩
    exact traverseLoop_full hm0 he hfull (q := [(start, 0)]) (v := start) (d := 0) rfl (by omega)
      (by simpa using hm) hm0
  obtain ⟨hlenq, hzeroq, perms, hf', hperm, hlen, hfirst⟩ :=
    traverseLoop_first hf he hstart hn hm (not_le.1 hfull)
  have he' : edgeRel { db with perms } = some (i, s) := he
  rw [hfirst, loop_first hn hm]
  by_cases hroom : perms.length < maxPerms
  · -- The table has not filled up.
    refine ⟨fun _ => traverseLoop_eq hm0 hf' he' hroom hperm hlenq hzeroq, fun hcon => ?_⟩
    exfalso
    split at hlen
    · next hhas =>
      rcases Nat.lt_or_ge (db.perms.length + 1) maxPerms with hlt | hge
      · exact hcon (.inl hlt)
      · exact hcon (.inr ⟨by omega, .inl hhas⟩)
    · exact hcon (.inl (by omega))
  · -- The index took the last place: no other head may be taken off.
    have hlast : db.perms.length + 1 = maxPerms ∧ ¬ HasPerm db.perms i := by
      split at hlen
      · omega
      · next hhas => exact ⟨by omega, hhas⟩
    constructor
    · intro h
      have hpass := OnePass.done hm ((h.resolve_left (by omega)).2.resolve_left hlast.2)
      rw [traverseLoop_last hpass]
      rcases hpass with hpass | hpass
      · rw [loop_full hpass]
      · rw [loop_last hpass]
    · intro hcon
      obtain ⟨hn2, hlt, w, hget⟩ := exists_next hm fun h => hcon (.inr ⟨hlast.1, .inr h⟩)
      exact traverseLoop_full hm0 he' (not_lt.1 hroom) hget hn2 hlt (by omega)

end Outcome

/-- The relation `edge` with these rows. -/
def edgeSlot (rows : List Row) (h : ∀ r ∈ rows, r.length = 3) : RelSlot where
  name := edgeName
  arity := 3
  view a := if a = 3 then .ofRows rows else .create
  width a r hr := by
    split at hr
    · next ha => rw [ha, h r (Dafsa.mem_ofRows.1 hr)]
    · exact absurd hr (Dafsa.not_mem_create r)

/-- A path that ends in the node zero on one side. -/
def pathSlot : RelSlot := edgeSlot [[5, 0, 1], [5, 6, 1], [7, 6, 2]] (by decide)

/-- One edge to the node zero. -/
def zeroSlot : RelSlot := edgeSlot [[5, 0, 1]] (by decide)

end DatalogDafsa.Traverse
