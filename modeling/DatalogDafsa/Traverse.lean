import DatalogDafsa.Lib.BreadthFirst
import DatalogDafsa.Relation
import DatalogDafsa.Catalog.Declare

/-!
# Graph traversal

`dl_traverse` walks the relation `edge` of arity three as an undirected graph on the
ids of its first two columns, breadth first from an interned start.  Successors are
read from the relation, predecessors from a permutation index over it, which is
declared and rebuilt on demand.  At most sixty-four indices are declared in all, and
`dl_db_declare_perm` refuses in a full table even an index that is there.

The table of the nodes met is an array of ids where zero marks a free place, so the
node zero counts as met as long as there is room.  A neighbour list is cut to as many
different nodes as may be visited.  The callback never stops the traversal here, and
allocations succeed.

## Main definitions

* `RelSlot`, `PermEntry`, `TravDb` — the relations, the indices, the store.
* `dlDbDeclarePerm`, `permindexBuild` — the indices.
* `dlTraverse` — the traversal: what the callback gets, and the count.
* `Op`, `run` — what happens to a store before it.
-/

namespace DatalogDafsa.Traverse

open Catalog (Name)

/-! ## Relations and indices -/

/-- A relation: the rows of each arity, of which a fixed relation has one. -/
structure RelSlot where
  /-- The name. -/
  name : Name
  /-- The arity, zero when variadic. -/
  arity : ℕ
  /-- The rows of each arity, as `rel_prefix` walks them. -/
  view : ℕ → Dafsa
  /-- Rows have as many columns as their arity says. -/
  width : ∀ a, ∀ r ∈ view a, r.length = a

/-- `db_entry_variant_ro`: the rows of one arity, none where there is no such variant. -/
def RelSlot.atArity (s : RelSlot) (a : ℕ) : Dafsa :=
  if s.arity = 0 ∨ s.arity = a then s.view a else .create

/-- A permutation index (`PermIndexEntry`). -/
structure PermEntry where
  /-- The relation, by its place in the list. -/
  relId : ℕ
  /-- The arity. -/
  arity : ℕ
  /-- The order of the columns. -/
  perm : List ℕ
  /-- The rows with their columns in that order, once built. -/
  pidx : Option Dafsa
  /-- The relation changed since. -/
  dirty : Bool

/-- What a traversal reads. -/
structure TravDb where
  /-- The relations. -/
  rels : List RelSlot
  /-- The permutation indices. -/
  perms : List PermEntry
  /-- `dl_intern_str_find`: the id of an interned text, zero for another. -/
  syms : Name → Val

/-- `MAX_PERMS`. -/
def maxPerms : ℕ := 64

/-- Is the entry an index of this relation, arity and order? -/
def PermEntry.is (pe : PermEntry) (relId arity : ℕ) (perm : List ℕ) : Bool :=
  pe.relId = relId ∧ pe.arity = arity ∧ pe.perm = perm

/-- `dl_db_declare_perm`: the index's place, and the table; `none` is the answer −1.
Room is asked for before the table is searched. -/
def dlDbDeclarePerm (perms : List PermEntry) (relId arity : ℕ) (perm : List ℕ) :
    Option (ℕ × List PermEntry) :=
  if arity = 0 ∨ 8 < arity then none
  else if maxPerms ≤ perms.length then none
  else if ¬ (perm.length = arity ∧ perm.Nodup ∧ ∀ j ∈ perm, j < arity) then none
  else match perms.findIdx? fun pe => pe.is relId arity perm with
    | some i => some (i, perms)
    | none => some (perms.length, perms ++ [⟨relId, arity, perm, none, true⟩])

/-- The columns of a row in another order. -/
def permute (perm : List ℕ) (row : Row) : Row := perm.map fun j => row.getD j 0

/-- The rows an index should have. -/
def permRows (rels : List RelSlot) (relId arity : ℕ) (perm : List ℕ) : Dafsa :=
  match rels[relId]? with
  | none => .create
  | some s => Dafsa.ofRows ((s.atArity arity).keys.map (permute perm))

/-- `permindex_build`. -/
def permindexBuild (db : TravDb) (id : ℕ) : TravDb :=
  { db with
    perms := db.perms.modify id fun pe =>
      { pe with pidx := some (permRows db.rels pe.relId pe.arity pe.perm), dirty := false } }

/-- `permindex_mark_dirty`. -/
def permindexMarkDirty (perms : List PermEntry) (relId : ℕ) : List PermEntry :=
  perms.map fun pe => if pe.relId = relId then { pe with dirty := true } else pe

/-! ## Neighbours -/

/-- `edge`. -/
def edgeName : Name := ['e', 'd', 'g', 'e']

/-- The relation `edge` and its place, when it is a fixed relation of arity three. -/
def edgeRel (db : TravDb) : Option (ℕ × RelSlot) :=
  (db.rels.findIdx? fun s => s.name = edgeName).bind fun i =>
    (db.rels[i]?).bind fun s => if s.arity = 3 then some (i, s) else none

/-- `neighborPush`. -/
def neighborPush (maxN : ℕ) (neighbors : List Val) (node : Val) : List Val :=
  if maxN = 0 then neighbors
  else if node ∈ neighbors then neighbors
  else if neighbors.length < maxN then neighbors ++ [node]
  else neighbors

/-- `collectFwdCb` and `collectRevCb` on the rows reported. -/
def collect (maxN : ℕ) (rows : List Row) : List Val :=
  rows.foldl (fun neighbors cols => neighborPush maxN neighbors (cols.getD 1 0)) []

/-- `collectForward`. -/
def collectForward (db : TravDb) (node : Val) (maxN : ℕ) : Option (List Val) :=
  (edgeRel db).map fun e => collect maxN ((e.2.atArity 3).scan [node])

/-- The order of the index over the second column. -/
def revPerm : List ℕ := [1, 0, 2]

/-- `collectReverse`. -/
def collectReverse (db : TravDb) (node : Val) (maxN : ℕ) : Option (List Val × TravDb) :=
  match edgeRel db with
  | none => none
  | some (i, _) =>
    match dlDbDeclarePerm db.perms i 3 revPerm with
    | none => none
    | some (id, perms) =>
      let db := { db with perms }
      let db := if (db.perms[id]?).any PermEntry.dirty then permindexBuild db id else db
      match (db.perms[id]?).bind fun pe => if pe.relId = i then pe.pidx else none with
      | none => none
      | some pidx => some (collect maxN (pidx.scan [node]), db)

/-! ## The traversal -/

/-- `isVisited`: every place of the array is compared, the free ones too. -/
def isVisited (node : Val) (visited : List Val) : Bool := visited.contains node

/-- `markVisited`: the first free place is taken. -/
def markVisited (node : Val) : List Val → List Val
  | [] => []
  | v :: vs => if v = 0 then node :: vs else v :: markVisited node vs

/-- The arrays of a traversal, and the callback's calls. -/
structure TravState where
  /-- The array of nodes met. -/
  visited : List Val
  /-- `queue` and `queue_depth`, up to `q_tail`. -/
  queue : List (Val × ℕ)
  /-- `visited_count`. -/
  count : ℕ
  /-- The callback's calls. -/
  emitted : List (Val × ℕ)

/-- One neighbour. -/
def visitNeighbor (maxNodes nextDepth : ℕ) (st : TravState) (nb : Val) : TravState :=
  if isVisited nb st.visited then st
  else
    let st := { st with visited := markVisited nb st.visited }
    if st.queue.length < maxNodes then
      { st with
        queue := st.queue ++ [(nb, nextDepth)]
        count := st.count + 1
        emitted := st.emitted ++ [(nb, nextDepth)] }
    else st

/-- What a traversal does: the callback's calls, and the result, where `none` is −1. -/
structure Outcome where
  /-- The callback's calls. -/
  emitted : List (Val × ℕ)
  /-- The result. -/
  ret : Option ℕ

/-- The loop over the queue. -/
def traverseLoop (depthV maxNodes : ℕ) : ℕ → ℕ → TravDb → TravState → Outcome
  | 0, _, _, st => ⟨st.emitted, some st.count⟩
  | fuel + 1, head, db, st =>
    if st.queue.length < maxNodes then
      match st.queue[head]? with
      | none => ⟨st.emitted, some st.count⟩
      | some (current, currentDepth) =>
        if depthV ≤ currentDepth then traverseLoop depthV maxNodes fuel (head + 1) db st
        else
          match collectForward db current maxNodes with
          | none => ⟨st.emitted, none⟩
          | some fwd =>
            let st := fwd.foldl (visitNeighbor maxNodes (currentDepth + 1)) st
            match collectReverse db current maxNodes with
            | none => ⟨st.emitted, none⟩
            | some (rev, db) =>
              traverseLoop depthV maxNodes fuel (head + 1) db
                (rev.foldl (visitNeighbor maxNodes (currentDepth + 1)) st)
    else ⟨st.emitted, some st.count⟩

/-- The arrays with the start in them. -/
def TravState.init (maxNodes : ℕ) (start : Val) : TravState where
  visited := start :: List.replicate (maxNodes - 1) 0
  queue := [(start, 0)]
  count := 1
  emitted := [(start, 0)]

/-- `dl_traverse`.  A head is taken off at most `maxNodes` times, since the queue is no
longer than that. -/
def dlTraverse (db : TravDb) (start : Name) (depth maxNodes : ℕ) : Outcome :=
  if depth < 1 ∨ maxNodes < 1 then ⟨[], none⟩
  else if (edgeRel db).isNone then ⟨[], none⟩
  else if db.syms start = 0 then ⟨[], some 0⟩
  else
    traverseLoop (min depth 3) maxNodes maxNodes 0 db (.init maxNodes (db.syms start))

/-! ## What happens to a store -/

/-- What changes the relations or the indices. -/
inductive Op
  /-- A relation is declared, with what its files hold. -/
  | declare (s : RelSlot)
  /-- A write, a load or an evaluation changes the rows of a relation, and marks its
  indices. -/
  | write (relId : ℕ) (view : ℕ → Dafsa) (width : ∀ a, ∀ r ∈ view a, r.length = a)
  /-- An index is declared over a relation. -/
  | declarePerm (relId arity : ℕ) (perm : List ℕ)
  /-- An index is built. -/
  | build (id : ℕ)
  /-- A failed load of rules drops the indices it declared. -/
  | dropPerms (n : ℕ)

/-- One change. -/
def step (db : TravDb) : Op → TravDb
  | .declare s => { db with rels := db.rels ++ [s] }
  | .write relId view width =>
    { db with
      rels := db.rels.modify relId fun s => { s with view, width }
      perms := permindexMarkDirty db.perms relId }
  | .declarePerm relId arity perm =>
    if relId < db.rels.length then
      match dlDbDeclarePerm db.perms relId arity perm with
      | none => db
      | some (_, perms) => { db with perms }
    else db
  | .build id => permindexBuild db id
  | .dropPerms n => { db with perms := db.perms.take n }

/-- The store after a sequence of changes, when `syms` are the ids of the texts. -/
def run (syms : Name → Val) (ops : List Op) : TravDb := ops.foldl step ⟨[], [], syms⟩

/-! ## Clean indices are exact -/

/-- An index that is not marked has the rows it should have. -/
structure Fresh (db : TravDb) : Prop where
  /-- The indices are over relations there are. -/
  relId_lt : ∀ pe ∈ db.perms, pe.relId < db.rels.length
  /-- An unmarked index is exact. -/
  clean : ∀ pe ∈ db.perms, pe.dirty = false →
    pe.pidx = some (permRows db.rels pe.relId pe.arity pe.perm)

theorem dlDbDeclarePerm_eq_some {perms perms' : List PermEntry} {relId arity id : ℕ}
    {perm : List ℕ} (h : dlDbDeclarePerm perms relId arity perm = some (id, perms')) :
    perms.length < maxPerms ∧
      ((perms' = perms ∧ ∃ pe, perms[id]? = some pe ∧ pe.is relId arity perm = true) ∨
        (perms' = perms ++ [⟨relId, arity, perm, none, true⟩] ∧ id = perms.length ∧
          ∀ pe ∈ perms, pe.is relId arity perm = false)) := by
  unfold dlDbDeclarePerm at h
  split at h
  · cases h
  split at h
  · cases h
  next hroom =>
  split at h
  · cases h
  refine ⟨not_le.1 hroom, ?_⟩
  cases hfind : perms.findIdx? (fun pe => pe.is relId arity perm) with
  | some i =>
    rw [hfind] at h
    obtain ⟨rfl, rfl⟩ : i = id ∧ perms = perms' := by simpa using h
    obtain ⟨hlt, his, -⟩ := List.findIdx?_eq_some_iff_getElem.1 hfind
    exact .inl ⟨rfl, perms[i], List.getElem?_eq_getElem hlt, his⟩
  | none =>
    rw [hfind] at h
    obtain ⟨rfl, rfl⟩ : perms.length = id ∧ perms ++ [⟨relId, arity, perm, none, true⟩] = perms' := by
      simpa using h
    refine .inr ⟨rfl, rfl, fun pe hpe => ?_⟩
    simpa using List.findIdx?_eq_none_iff.1 hfind pe hpe

theorem Fresh.declarePerm {db : TravDb} (hf : Fresh db) {relId arity id : ℕ} {perm : List ℕ}
    {perms : List PermEntry} (hrel : relId < db.rels.length)
    (h : dlDbDeclarePerm db.perms relId arity perm = some (id, perms)) :
    Fresh { db with perms } := by
  obtain ⟨-, ⟨rfl, -⟩ | ⟨rfl, -, -⟩⟩ := dlDbDeclarePerm_eq_some h
  · exact hf
  · constructor
    · intro pe hpe
      rcases List.mem_append.1 hpe with hpe | hpe
      · exact hf.relId_lt pe hpe
      · rw [List.mem_singleton.1 hpe]
        exact hrel
    · intro pe hpe hd
      rcases List.mem_append.1 hpe with hpe | hpe
      · exact hf.clean pe hpe hd
      · rw [List.mem_singleton.1 hpe] at hd
        cases hd

theorem Fresh.permindexBuild {db : TravDb} (hf : Fresh db) (id : ℕ) :
    Fresh (permindexBuild db id) := by
  have hmem : ∀ pe ∈ (Traverse.permindexBuild db id).perms, ∃ pe₀ ∈ db.perms, pe = pe₀ ∨
      pe = { pe₀ with pidx := some (permRows db.rels pe₀.relId pe₀.arity pe₀.perm), dirty := false } := by
    intro pe hpe
    obtain ⟨j, hj⟩ := List.mem_iff_getElem?.1 hpe
    simp only [Traverse.permindexBuild, List.getElem?_modify, Option.map_eq_map,
      Option.map_eq_some_iff] at hj
    obtain ⟨pe₀, hget, rfl⟩ := hj
    refine ⟨pe₀, List.mem_of_getElem? hget, ?_⟩
    split
    · exact .inr rfl
    · exact .inl rfl
  constructor
  · intro pe hpe
    obtain ⟨pe₀, hpe₀, rfl | rfl⟩ := hmem pe hpe
    · exact hf.relId_lt _ hpe₀
    · exact hf.relId_lt pe₀ hpe₀
  · intro pe hpe hd
    obtain ⟨pe₀, hpe₀, rfl | rfl⟩ := hmem pe hpe
    · exact hf.clean _ hpe₀ hd
    · rfl

/-- **Every change keeps the indices honest.** -/
theorem Fresh.step {db : TravDb} (hf : Fresh db) (op : Op) : Fresh (step db op) := by
  cases op with
  | declare s =>
    constructor
    · intro pe hpe
      have := hf.relId_lt pe hpe
      simp only [Traverse.step, List.length_append]
      omega
    · intro pe hpe hd
      have hlt := hf.relId_lt pe hpe
      rw [hf.clean pe hpe hd]
      simp only [Traverse.step, permRows, List.getElem?_append_left hlt]
  | write relId view width =>
    constructor
    · intro pe hpe
      obtain ⟨pe₀, hpe₀, rfl⟩ := List.mem_map.1 hpe
      simp only [Traverse.step, List.length_modify]
      split
      · exact hf.relId_lt pe₀ hpe₀
      · exact hf.relId_lt pe₀ hpe₀
    · intro pe hpe hd
      obtain ⟨pe₀, hpe₀, rfl⟩ := List.mem_map.1 hpe
      by_cases hrel : pe₀.relId = relId
      · rw [if_pos hrel] at hd
        cases hd
      · rw [if_neg hrel] at hd ⊢
        rw [hf.clean pe₀ hpe₀ hd]
        simp only [Traverse.step, permRows, List.getElem?_modify_ne _ _ (Ne.symm hrel)]
  | declarePerm relId arity perm =>
    simp only [Traverse.step]
    split
    · next hrel =>
      cases h : dlDbDeclarePerm db.perms relId arity perm with
      | none => exact hf
      | some r => exact hf.declarePerm hrel h
    · exact hf
  | build id => exact hf.permindexBuild id
  | dropPerms n =>
    exact ⟨fun pe hpe => hf.relId_lt pe (List.mem_of_mem_take hpe),
      fun pe hpe hd => hf.clean pe (List.mem_of_mem_take hpe) hd⟩

/-- **In every store the unmarked indices are exact.** -/
theorem fresh_run (syms : Name → Val) (ops : List Op) : Fresh (run syms ops) := by
  have key : ∀ (ops : List Op) (db : TravDb), Fresh db → Fresh (ops.foldl Traverse.step db) := by
    intro ops
    induction ops with
    | nil => exact fun _ h => h
    | cons op ops ih => exact fun db h => ih _ (h.step op)
  exact key ops _ ⟨by simp, by simp⟩

end DatalogDafsa.Traverse
