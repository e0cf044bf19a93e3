import DatalogDafsa.Eval.Nonrec

/-!
# Evaluating a recursive stratum

`evalStratumRecursive` evaluates the rules of one stratum when some are recursive.
It keeps, for every recursive head, the rows derived so far (`idb`), the rows of the
last round (`delta`), those of the next one and those to add to the view.  The
non-recursive rules are swept first; each recursive rule is fired once to seed the
deltas; then every round fires each recursive rule once for each body atom over a
recursive head with a delta, that atom reading the delta and the other recursive
atoms the `idb`.

## Main definitions

* `RdT` — the tuple sets of one recursive head.
* `seedRule` — the first firing of a rule, from scratch or from pending insertions.
* `rebuildPermShadows`, `overridesFor` — what the atoms of a rule read in a round.
* `fixLoop`, `writeBack`, `evalStratumRecursive` — the rounds and the whole stratum.
-/

namespace DatalogDafsa

open Backtrack

/-! ## Tuple sets of recursive heads -/

/-- `RdT`: the tuple sets of a recursive head. -/
structure RdT where
  /-- The head. -/
  relId : ℕ
  /-- Its arity. -/
  arity : ℕ
  /-- Rows derived so far. -/
  idb : TupleSet
  /-- Rows of the last round. -/
  delta : TupleSet
  /-- Rows of the next round. -/
  nextDelta : TupleSet
  /-- Rows to add to the view. -/
  added : TupleSet

/-- The tuple sets of a relation. -/
def rdFind (rd : List RdT) (id : ℕ) : Option RdT := rd.find? fun r => r.relId = id

/-- Change the tuple sets of a relation. -/
def rdModify (rd : List RdT) (id : ℕ) (f : RdT → RdT) : List RdT :=
  rd.map fun r => if r.relId = id then f r else r

/-- The heads of the recursive rules, each once. -/
def recHeads (rules : List CompiledRule) : List ℕ :=
  (((rules.filter CompiledRule.isRecursive).map CompiledRule.headRelId).filter
    (· < maxRels)).reverse.dedup.reverse

/-- The arity of a relation, `0` when it is not declared. -/
def Db.relArity (db : Db) (id : ℕ) : ℕ :=
  match db.rels[id]? with
  | some e => e.arity
  | none => 0

/-- Empty tuple sets for a head; an incremental run starts from its view. -/
def rdInit (db : Db) (ivm : Bool) (id : ℕ) : RdT :=
  let ts := TupleSet.init (db.relArity id)
  ⟨id, db.relArity id, if ivm then ts.addAll ((db.view id).scan []) else ts, ts, ts, ts⟩

/-- Run one step after the other, until one fails. -/
def runAll {α S : Type} (f : α → S → Final S VmErr) : List α → S → Final S VmErr
  | [], s => .done s
  | a :: as, s =>
    match f a s with
    | .failed err s' => .failed err s'
    | .done s' => runAll f as s'

/-! ## Seeds -/

/-- Insertions not yet propagated, by relation; a relation with none has an empty set. -/
abbrev Pending := ℕ → TupleSet

/-- Add rows that are new to the `idb`, to the delta and to the rows to add. -/
def RdT.seedNew (r : RdT) (rows : List Row) : RdT :=
  rows.foldl (fun r t =>
    if r.idb.contains t then r
    else { r with idb := r.idb.add t, delta := r.delta.add t, added := r.added.add t }) r

/-- Fire a rule with one atom reading the pending insertions of its relation. -/
def seedAtom (pend : Pending) (cr : CompiledRule) (i : VmInstr) (s : Db × List RdT) :
    Final (Db × List RdT) VmErr :=
  if i.op ≠ .scan ∧ i.op ≠ .lookup then .done s
  else if maxRels ≤ i.a ∨ (rdFind s.2 i.a).isSome ∨ s.1.rels.length ≤ i.a then .done s
  else if (pend i.a).rows.isEmpty then .done s
  else
    match execRule s.1 cr [⟨i.bodyIdx, pend i.a⟩] true with
    | .failed err s' => .failed err (s'.db, s.2)
    | .done s' =>
      let cand := (TupleSet.init (s.1.relArity cr.headRelId)).addAll s'.out
      .done (s'.db, rdModify s.2 cr.headRelId fun r => r.seedNew cand.rows)

/-- The first firing of a rule. -/
def seedRule (pend : Pending) (ivm : Bool) (cr : CompiledRule) (s : Db × List RdT) :
    Final (Db × List RdT) VmErr :=
  if !cr.isRecursive then
    match execRuleBatched s.1 cr with
    | .failed err r => .failed err (r.1, s.2)
    | .done r => .done (r.1.markBuild cr.headRelId, s.2)
  else if ivm then runAll (seedAtom pend cr) cr.instrs s
  else
    match execRule s.1 cr [] true with
    | .failed err s' => .failed err (s'.db, s.2)
    | .done s' =>
      let seed := (TupleSet.init (s.1.relArity cr.headRelId)).addAll s'.out
      .done (s'.db, rdModify s.2 cr.headRelId fun r =>
        { r with idb := r.idb.addAll seed.rows, delta := r.delta.addAll seed.rows })

/-! ## Rounds -/

/-- The permuted rows of an `idb`, for one permutation index. -/
structure PermShadow where
  /-- The recursive head. -/
  relId : ℕ
  /-- The permutation index. -/
  permId : ℕ
  /-- The permuted rows, sorted. -/
  ts : TupleSet

/-- `rebuildPermShadows`. -/
def rebuildPermShadows (db : Db) (rd : List RdT) : List PermShadow :=
  db.perms.zipIdx.filterMap fun (pe, pi) =>
    (rdFind rd pe.relId).map fun r =>
      ⟨pe.relId, pi, ((TupleSet.init pe.arity).addAll
        (r.idb.rows.map (permRow pe.perm pe.arity))).sort⟩

/-- What an atom over a recursive head reads while `i` reads its delta. -/
def overrideFor (rd : List RdT) (shadows : List PermShadow) (i j : VmInstr) : Option VmOverride :=
  if !driverFeeds j.op then none
  else
    (rdFind rd j.a).map fun r =>
      if j.op = .lookupPerm then
        ⟨j.bodyIdx, match shadows.find? fun s => s.relId = j.a ∧ s.permId = j.imm.toNat with
          | some s => s.ts
          | none => r.idb⟩
      else if j.bodyIdx = i.bodyIdx ∧ j.a = i.a then ⟨j.bodyIdx, r.delta⟩
      else ⟨j.bodyIdx, r.idb⟩

/-- The overrides of a rule while `i` reads its delta. -/
def overridesFor (rd : List RdT) (shadows : List PermShadow) (cr : CompiledRule) (i : VmInstr) :
    List VmOverride := cr.instrs.filterMap (overrideFor rd shadows i)

/-- Fire a rule with one atom reading the delta of its relation. -/
def fireDelta (shadows : List PermShadow) (ri : CompiledRule × VmInstr) (s : Db × List RdT) :
    Final (Db × List RdT) VmErr :=
  if !driverFeeds ri.2.op then .done s
  else
    match rdFind s.2 ri.2.a with
    | none => .done s
    | some r =>
      if r.delta.rows.isEmpty then .done s
      else
        match execRule s.1 ri.1 (overridesFor s.2 shadows ri.1 ri.2) true with
        | .failed err s' => .failed err (s'.db, s.2)
        | .done s' =>
          let cand := (TupleSet.init (s.1.relArity ri.1.headRelId)).addAll s'.out
          .done (s'.db, rdModify s.2 ri.1.headRelId fun r =>
            let new := cand.rows.filter fun t => !r.idb.contains t
            { r with nextDelta := r.nextDelta.addAll new })

/-- The firings of a round: recursive rules in order, instructions in order. -/
def roundFirings (rules : List CompiledRule) : List (CompiledRule × VmInstr) :=
  (rules.filter CompiledRule.isRecursive).flatMap fun cr => cr.instrs.map fun i => (cr, i)

/-- `need_idb_sort`: some rule looks up by prefix in the `idb` of a recursive head. -/
def needIdbSort (rules : List CompiledRule) (rd : List RdT) : Bool :=
  (rules.filter CompiledRule.isRecursive).any fun cr =>
    let recAtoms := cr.instrs.filter fun i => driverFeeds i.op && (rdFind rd i.a).isSome
    decide (2 ≤ recAtoms.length) && recAtoms.any fun i => i.op = .lookup

/-- The sets a round starts from. -/
def RdT.start (needSort : Bool) (r : RdT) : RdT :=
  { r with idb := if needSort then r.idb.sort else r.idb, nextDelta := r.nextDelta.reset }

/-- The next round's rows become the delta. -/
def RdT.advance (r : RdT) : RdT :=
  if r.nextDelta.rows.isEmpty then { r with delta := TupleSet.init r.arity }
  else
    let nd := r.nextDelta.sort
    { r with idb := r.idb.addAll nd.rows, added := r.added.addAll nd.rows, delta := nd,
             nextDelta := r.delta.reset }

/-- One round. -/
def fixRound (rules : List CompiledRule) (s : Db × List RdT) : Final (Db × List RdT) VmErr :=
  runAll (fireDelta (rebuildPermShadows s.1 s.2)) (roundFirings rules)
    (s.1, s.2.map (RdT.start (needIdbSort rules s.2)))

/-- The rounds, until one derives nothing new. -/
def fixLoop (rules : List CompiledRule) : ℕ → Db × List RdT → Final (Db × List RdT) VmErr
  | 0, s => .failed .internal s
  | fuel + 1, s =>
    match fixRound rules s with
    | .failed err s' => .failed err s'
    | .done s' =>
      if s'.2.all fun r => r.nextDelta.rows.isEmpty then .done s'
      else fixLoop rules fuel (s'.1, s'.2.map RdT.advance)

/-- Rounds before the evaluation is given up: `FIXPOINT_ERROR_BOUND`. -/
def fixpointErrorBound : ℕ := 10000000

/-! ## The stratum -/

/-- Store the result for one head: replace the view from scratch, or add what is new. -/
def writeRd (ivm : Bool) (db : Db) (r : RdT) : Db :=
  if ivm then db.updStore r.relId (Store.addRows r.added.rows)
  else db.updStore r.relId (Store.buildView (r.idb.addAll ((db.view r.relId).scan [])).sort.rows)

/-- Store the results and rebuild the permutation indices. -/
def writeBack (ivm : Bool) (db : Db) (rd : List RdT) : Db :=
  ((rd.map RdT.relId).foldl Db.permMarkDirty (rd.foldl (writeRd ivm) db)).permBuildDirty

/-- **`evalStratumRecursive`.** -/
def evalStratumRecursive (db : Db) (pend : Pending) (rules : List CompiledRule) (ivm : Bool) :
    Final Db VmErr :=
  if (recHeads rules).isEmpty then evalNonrecursive db rules
  else
    match evalPasses (rules.filter fun cr => !cr.isRecursive) (fun _ => false)
        (rules.length + 1) true db with
    | .failed err db' => .failed err db'
    | .done db₁ =>
      match runAll (seedRule pend ivm) rules (db₁, (recHeads rules).map (rdInit db ivm)) with
      | .failed err s => .failed err s.1
      | .done (db₂, rd) =>
        let rd := rd.map fun r => { r with idb := r.idb.sort, delta := r.delta.sort }
        if rd.all fun r => r.delta.rows.isEmpty then .done db₂
        else
          match fixLoop rules fixpointErrorBound (db₂, rd) with
          | .failed err s => .failed err s.1
          | .done (db₃, rd') => .done (writeBack ivm db₃ rd')

end DatalogDafsa
