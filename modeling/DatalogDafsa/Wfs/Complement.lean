import DatalogDafsa.LazyRelation
import DatalogDafsa.Lib.Odometer
import DatalogDafsa.Lib.SortedWalk

/-!
# Complements in the well-founded rounds

A negated predicate is read through its complement: the rows over the active domain that
the last assignment does not have.  Two relations hold it, used in turn; a round takes
the one that was idle, which shows the assignment of two rounds ago, and writes what
changed since then to it, or builds it anew when too much did.

## Main definitions

* `enumerateProduct` — the rows over the active domain.
* `CompRel`, `St` — a complement, and the state between two rounds.
* `maintain` — the step that makes a complement ready for a round.
* `wfsRounds` — the rounds, up to a fixpoint or a cycle of two.
-/

namespace DatalogDafsa.Wfs

/-! ## Sorted tuple sets -/

/-- `tsEq`. -/
def tsEq (a b : TupleSet) : Bool := decide (a.rows = b.rows)

/-- `snapRel`, of a relation that shows some rows. -/
def snapRel (arity : ℕ) (rows : List Row) : TupleSet := ((TupleSet.init arity).addAll rows).sort

/-! ## The domain product -/

/-- `WFS_COMPLEMENT_CAP`. -/
def wfsComplementCap : ℕ := 2 ^ 20

/-- The number of rows over a domain of `n` values, up to the cap. -/
def productTotal (n : ℕ) : ℕ → Option ℕ
  | 0 => some 1
  | arity + 1 =>
    (productTotal n arity).bind fun total =>
      if wfsComplementCap < total * n then none else some (total * n)

/-- The loop that adds a row for each turn of the odometer. -/
def productLoop (dom : List Val) : ℕ → List ℕ → TupleSet → TupleSet
  | 0, _, out => out
  | t + 1, idx, out =>
    productLoop dom t (Odometer.bump dom.length idx).1 (out.add (idx.map fun i => dom.getD i 0))

/-- `enumerateProduct`; `none` when there are too many rows. -/
def enumerateProduct (dom : List Val) (arity : ℕ) : Option TupleSet :=
  if dom.length = 0 then some (.init arity)
  else (productTotal dom.length arity).map fun total =>
    (productLoop dom total (List.replicate arity 0) (.init arity)).sort

/-! ## Complements -/

/-- `MAX_ARITY`. -/
def maxArity : ℕ := 8

/-- `struct CompRel`, with the scratch sets left out; `n` is the number of heads. -/
structure CompRel (n : ℕ) where
  /-- The number of columns. -/
  arity : ℕ
  /-- The head that is negated. -/
  slot : Fin n
  /-- The rows over the active domain. -/
  full : TupleSet
  /-- The two relations; a round uses that of its parity. -/
  rels : Bool → LazyRelation

/-- A complement before the first round. -/
def newComp {n : ℕ} (arity : Fin n → ℕ) (dom : List Val) (slot : Fin n) : Option (CompRel n) :=
  if h : 0 < arity slot then
    if maxArity < arity slot then none
    else (enumerateProduct dom (arity slot)).map fun full =>
      ⟨arity slot, slot, full, fun _ => relCreate (arity slot) h⟩
  else none

/-- `WFS_REBUILD_DENOM`. -/
def wfsRebuildDenom : ℕ := 8

/-- The rows of a set that another does not have. -/
def missing (arity : ℕ) (a b : TupleSet) : TupleSet :=
  (TupleSet.init arity).addAll (a.rows.filter fun r => !b.contains r)

/-- What changed, written to a complement: rows that entered the assignment leave it,
and rows that left come back, if they are over the domain. -/
def applyDelta (full entered left : TupleSet) (r : LazyRelation) : LazyRelation :=
  left.rows.foldl (fun r row => if full.contains row then (r.relAdd row).2 else r)
    (entered.rows.foldl (fun r row => (r.relDelete row).2) r)

variable {n : ℕ}

/-- A complement built anew, with the answer of `rel_build_from_tupleset`. -/
def rebuild (c : CompRel n) (s : TupleSet) (r : LazyRelation) : Bool × LazyRelation :=
  if s.rows = [] then r.relBuildFromTupleset c.full
  else r.relBuildFromTupleset
    ((TupleSet.init c.arity).addAll (SortedWalk.diff RowBefore c.full.rows s.rows)).sort

/-- The relation a round uses. -/
def par (round : ℕ) : Bool := decide (round % 2 = 1)

/-- The assignment to the heads. -/
abbrev Snaps (n : ℕ) : Type := Fin n → TupleSet

/-- A complement with another relation of a parity. -/
def CompRel.setRel (c : CompRel n) (p : Bool) (r : LazyRelation) : CompRel n :=
  { c with rels := Function.update c.rels p r }

/-- The step that builds anew, on every round. -/
def maintainScratch (round : ℕ) (prev : Snaps n) (_ : Option (Snaps n)) (c : CompRel n) :
    Option (CompRel n) :=
  let built := rebuild c (prev c.slot) (c.rels (par round))
  if built.1 then some (c.setRel (par round) built.2) else none

/-- The maintenance step of a round: `prev` is the last assignment and `prev3` the one two
rounds before it. -/
def maintain (round : ℕ) (prev : Snaps n) (prev3 : Option (Snaps n)) (c : CompRel n) :
    Option (CompRel n) :=
  match prev3 with
  | none => maintainScratch round prev prev3 c
  | some old =>
    let entered := missing c.arity (prev c.slot) (old c.slot)
    let left := missing c.arity (old c.slot) (prev c.slot)
    if 2 ≤ round ∧ (entered.rows.length + left.rows.length) * wfsRebuildDenom ≤ c.full.rows.length
    then some (c.setRel (par round) (applyDelta c.full entered left (c.rels (par round))))
    else maintainScratch round prev prev3 c

/-! ## The rounds -/

/-- What a round starts with. -/
structure St (n : ℕ) where
  /-- The complements. -/
  comps : List (CompRel n)
  /-- The last assignment. -/
  prev : Snaps n
  /-- The one before it. -/
  prev2 : Option (Snaps n)
  /-- And the one before that. -/
  prev3 : Option (Snaps n)

/-- A maintenance step. -/
abbrev Maintain (n : ℕ) : Type :=
  ℕ → Snaps n → Option (Snaps n) → CompRel n → Option (CompRel n)

/-- The complements made ready for a round. -/
def St.maintainAll (step : Maintain n) (round : ℕ) (st : St n) : Option (List (CompRel n)) :=
  st.comps.mapM (step round st.prev st.prev3)

/-- What a scan of a relation shows. -/
def scan (r : LazyRelation) : List Row := (r.relPrefix []).1.getD []

/-- The complements as the rules of a round see them. -/
def installed (round : ℕ) (comps : List (CompRel n)) : List (List Row) :=
  comps.map fun c => scan (c.rels (par round))

/-- The evaluation of the rewritten rules: from the number of the round and the
complements to the rows of the heads. -/
abbrev Eval (n : ℕ) : Type := ℕ → List (List Row) → Fin n → List Row

/-- The assignment after a round. -/
def snapshot (arity : Fin n → ℕ) (eval : Eval n) (round : ℕ) (comps : List (CompRel n)) :
    Snaps n :=
  fun k => snapRel (arity k) (eval round (installed round comps) k)

/-- The state before the first round. -/
def St.init (arity : Fin n → ℕ) (comps : List (CompRel n)) (rows : Fin n → List Row) : St n :=
  ⟨comps, fun k => snapRel (arity k) (rows k), none, none⟩

/-- The rotation of the assignments. -/
def St.rotate (st : St n) (comps : List (CompRel n)) (cur : Snaps n) : St n :=
  ⟨comps, cur, some st.prev, st.prev2⟩

/-- Do two assignments agree on every head? -/
def snapsEq (a b : Snaps n) : Bool := decide (∀ k, tsEq (a k) (b k) = true)

/-- How the rounds end. -/
inductive RoundsEnd (n : ℕ)
  /-- At a fixpoint. -/
  | fixpoint (cur : Snaps n)
  /-- At a cycle of two. -/
  | cycle (prev cur : Snaps n)
  /-- Not within the bound: `DL_WFS_ERR_NO_CONVERGE`. -/
  | noConverge
  /-- A complement could not be made. -/
  | failed

/-- The loop of the rounds, with the rounds that are left. -/
def wfsLoop (arity : Fin n → ℕ) (eval : Eval n) (step : Maintain n) :
    ℕ → ℕ → St n → RoundsEnd n
  | 0, _, _ => .noConverge
  | left + 1, round, st =>
    match st.maintainAll step round with
    | none => .failed
    | some comps =>
      let cur := snapshot arity eval round comps
      if snapsEq cur st.prev then .fixpoint cur
      else if st.prev2.any (snapsEq cur) then .cycle st.prev cur
      else wfsLoop arity eval step left (round + 1) (st.rotate comps cur)

/-- `WFS_ROUND_BOUND`. -/
def wfsRoundBound : ℕ := 10000

/-- The rounds of `wfs_eval_query`. -/
def wfsRounds (arity : Fin n → ℕ) (eval : Eval n) (step : Maintain n) (st : St n) : RoundsEnd n :=
  wfsLoop arity eval step wfsRoundBound 0 st

/-- The state after a number of rounds, had no test ended them before. -/
def stateAt (arity : Fin n → ℕ) (eval : Eval n) (step : Maintain n) (st : St n) : ℕ → Option (St n)
  | 0 => some st
  | k + 1 => (stateAt arity eval step st k).bind fun st =>
      (st.maintainAll step k).map fun comps =>
        st.rotate comps (snapshot arity eval k comps)

end DatalogDafsa.Wfs
