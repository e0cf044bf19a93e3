import DatalogDafsa.ViewAgree
import DatalogDafsa.Search.Sets

/-!
# Search

The postings relation holds pairs of a term and a document.  A conjunctive search
intersects the documents of its terms, smallest set first.  A ranked search that
admits partial matches packs each posting with the rank of its term into one key of
64 bits, sorts the keys and counts the ranks of each document.

## Main definitions

* `Postings`, `Query` — the relation and the terms asked for.
* `collectTermSets`, `intSetIntersect`, `searchImpl` — the conjunctive search.
* `ranksOf`, `pack`, `countRanks`, `groupDocs`, `searchRankedImpl` — the counting search.
* `dlSearch`, `dlSearchRanked` — the entry points.
-/

namespace DatalogDafsa.Search

/-- `__postings__`: a relation of pairs. -/
structure Postings where
  /-- The relation. -/
  rel : LazyRelation
  /-- Declared with two columns. -/
  arity : rel.arity = 2
  /-- Its rows have two columns. -/
  wide : ∀ x ∈ rel.sets.view, x.length = 2

/-- The terms of a query, whose number is a `c_int`. -/
structure Query where
  /-- The terms. -/
  terms : List Val
  /-- Their number. -/
  short : terms.length < 2 ^ 31

/-- `ScoredResult`. -/
structure ScoredResult where
  /-- The document. -/
  obsId : Val
  /-- The number of terms it matches. -/
  score : ℕ
  deriving DecidableEq

/-- `scoredResultLt`, which is also `rankedResultLt`: scores descend, then documents
ascend. -/
def scoredResultLt (a b : ScoredResult) : Bool :=
  if a.score ≠ b.score then b.score < a.score else a.obsId < b.obsId

/-- `std.mem.sort` of results. -/
def sortResults (rs : List ScoredResult) : List ScoredResult :=
  rs.mergeSort fun a b => !scoredResultLt b a

/-! ## One set for each term -/

/-- `collectTermObsIds`: the second columns of the postings of a term. -/
def collectTermObsIds (r : LazyRelation) (term : Val) : Option IntSet × LazyRelation :=
  let rows := r.relPrefix [term]
  (rows.1.map fun rows => (rows.map fun cols => cols.getD 1 0).foldl intSetAdd .empty, rows.2)

/-- `collectTermSets`, which stops at the first failure. -/
def collectTermSets (r : LazyRelation) : List Val → Option (List IntSet) × LazyRelation
  | [] => (some [], r)
  | term :: terms =>
    let one := collectTermObsIds r term
    one.1.elim (none, one.2) fun s =>
      let rest := collectTermSets one.2 terms
      (rest.1.map (s :: ·), rest.2)

/-! ## Intersection -/

/-- The number of documents of the set at a position. -/
def countAt (sets : List IntSet) (i : ℕ) : ℕ := (sets.getD i .empty).data.length

/-- The first position with the fewest documents. -/
def smallestIdx (sets : List IntSet) : ℕ :=
  (List.range sets.length).foldl (fun b i => if countAt sets i < countAt sets b then i else b) 0

/-- Is a document in all the sets but the one at `skip`? -/
def inAllOthers (sets : List IntSet) (skip : ℕ) (obs : Val) : Bool :=
  (List.range sets.length).all fun i => i = skip || intSetContains (sets.getD i .empty) obs

/-- `intSetIntersect`, of at least one set. -/
def intSetIntersect (sets : List IntSet) : IntSet :=
  if sets.length = 1 then sets.getD 0 .empty
  else
    let least := smallestIdx sets
    (sets.getD least .empty).data.foldl
      (fun res obs => if inAllOthers sets least obs then intSetAdd res obs else res) .empty

/-- `searchImpl`, with a callback that never stops it: what it emits. -/
def searchImpl (r : LazyRelation) (terms : List Val) :
    Option (List ScoredResult) × LazyRelation :=
  let sets := collectTermSets r terms
  (sets.1.map fun sets =>
    if sets.all fun s => s.data.isEmpty then []
    else sortResults ((intSetIntersect sets).data.map (⟨·, terms.length⟩)), sets.2)

/-! ## Counting -/

/-- One more term: its rank is that of an equal one, or the next. -/
def rankStep (terms : List Val) (acc : List ℕ × ℕ) (i : ℕ) : List ℕ × ℕ :=
  match (List.range i).find? fun j => terms[j]? = terms[i]? with
  | some j => (acc.1 ++ [acc.1.getD j 0], acc.2)
  | none => (acc.1 ++ [acc.2], acc.2 + 1)

/-- The rank of each term of a query. -/
def ranksOf (terms : List Val) : List ℕ :=
  ((List.range terms.length).foldl (rankStep terms) ([], 0)).1

/-- A posting as one key: the document above the rank of the term. -/
def pack (obs : Val) (rank : ℕ) : UInt64 :=
  obs.toUInt64 <<< 32 ||| (UInt32.ofNat rank).toUInt64

/-- The document of a key. -/
def unpackObs (k : UInt64) : Val := (k >>> 32).toUInt32

/-- The rank of a key. -/
def unpackRank (k : UInt64) : UInt64 := k &&& 0xFFFFFFFF

/-- The inner loop: the keys of one document, and the keys after them. -/
def countRanks (obs : Val) (matched : ℕ) (prev : UInt64) : List UInt64 → ℕ × List UInt64
  | [] => (matched, [])
  | k :: ks =>
    if unpackObs k = obs then
      if unpackRank k ≠ prev then countRanks obs (matched + 1) (unpackRank k) ks
      else countRanks obs matched prev ks
    else (matched, k :: ks)

theorem length_countRanks (obs : Val) (matched : ℕ) (prev : UInt64) (ks : List UInt64) :
    (countRanks obs matched prev ks).2.length ≤ ks.length := by
  induction ks generalizing matched prev with
  | nil => exact le_rfl
  | cons k ks ih =>
    unfold countRanks
    split
    · split
      · exact (ih _ _).trans (Nat.le_succ _)
      · exact (ih _ _).trans (Nat.le_succ _)
    · exact le_rfl

theorem length_countRanks_self (k : UInt64) (matched : ℕ) (prev : UInt64) (ks : List UInt64) :
    (countRanks (unpackObs k) matched prev (k :: ks)).2.length < (k :: ks).length := by
  unfold countRanks
  rw [if_pos rfl]
  split
  · exact Nat.lt_succ_of_le (length_countRanks _ _ _ _)
  · exact Nat.lt_succ_of_le (length_countRanks _ _ _ _)

/-- The pass over the sorted keys: the documents with enough ranks. -/
def groupDocs (min : ℕ) : List UInt64 → List ScoredResult
  | [] => []
  | k :: ks =>
    let one := countRanks (unpackObs k) 0 (~~~0) (k :: ks)
    if one.1 ≥ min then ⟨unpackObs k, one.1⟩ :: groupDocs min one.2 else groupDocs min one.2
termination_by ks => ks.length
decreasing_by
  all_goals exact length_countRanks_self _ _ _ _

/-- The keys of all postings of a query. -/
def packedKeys (sets : List IntSet) (ranks : List ℕ) : List UInt64 :=
  (sets.zip ranks).flatMap fun p => p.1.data.map fun obs => pack obs p.2

/-- `searchRankedImpl`, with a callback that never stops it. -/
def searchRankedImpl (r : LazyRelation) (terms : List Val) (min : ℕ) :
    Option (List ScoredResult) × LazyRelation :=
  let sets := collectTermSets r terms
  (sets.1.map fun sets =>
    let pk := packedKeys sets (ranksOf terms)
    sortResults (groupDocs min (pk.mergeSort fun a b => a ≤ b)), sets.2)

/-! ## Entry points -/

/-- `dl_search`. -/
def dlSearch (p : Postings) (q : Query) : Option (List ScoredResult) :=
  if q.terms = [] then none else (searchImpl p.rel q.terms).1

/-- The terms of a query, each once. -/
def uniqTerms (terms : List Val) : List Val :=
  terms.foldl (fun uniq t => if t ∈ uniq then uniq else uniq ++ [t]) []

/-- `dl_search_ranked`. -/
def dlSearchRanked (p : Postings) (q : Query) (minTerms : ℤ) : Option (List ScoredResult) :=
  if q.terms = [] then none
  else if minTerms ≤ 0 ∨ minTerms > q.terms.length then none
  else
    let uniq := uniqTerms q.terms
    let min := minTerms.toNat
    if min > uniq.length then none
    else if min = uniq.length then (searchImpl p.rel uniq).1
    else (searchRankedImpl p.rel uniq min).1

end DatalogDafsa.Search
