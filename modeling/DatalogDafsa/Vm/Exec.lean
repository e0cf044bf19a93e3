import DatalogDafsa.Vm.Instr
import DatalogDafsa.Lib.Backtrack

/-!
# The bytecode interpreter

`execRange` runs a range of a rule's bytecode.  An instruction that matches a body
atom opens a frame over the rows it may match; failure goes back to the youngest
frame with a row left and restores the bindings saved in it.  At most eight frames
are live: a ninth is an error, which is a matter of the data, not of the rule.

The instructions are an instance of the backtracking machines of
`DatalogDafsa.Lib.Backtrack`, so the loop with its explicit frames and the nested
loops agree, and `execRange` is stated as the latter.

## Main definitions

* `VmFrame`, `resume` — a frame, and `backtrack` on it.
* `ExecSt`, `Mode`, `exec` — the state of a run and one instruction.
* `machine`, `execRange`, `execRule` — ranges of bytecode and whole rules.
* `run_machine` — the interpreter loop computes `execRange`.
-/

namespace DatalogDafsa

open Backtrack

/-! ## Frames -/

/-- Frames that may be live at once. -/
def maxFrames : ℕ := 8

/-- Widest row of a materialized join. -/
def maxArity : ℕ := 8

/-- Why a run is given up. -/
inductive VmErr
  /-- A ninth frame was needed: `FRAME_LIMIT_ERR`. -/
  | frameLimit
  /-- Ranges are nested deeper than the given bound. -/
  | nesting
  /-- Any other failure: `-1`. -/
  | internal
  deriving DecidableEq

/-- `vm_override`: the rows one body atom reads instead of its relation. -/
structure VmOverride where
  /-- The body atom. -/
  bodyIdx : ℕ
  /-- Its rows. -/
  ts : TupleSet

/-- `findOv`. -/
def findOv (ov : List VmOverride) (bodyIdx : ℕ) : Option TupleSet :=
  (ov.find? fun o => o.bodyIdx = bodyIdx).map VmOverride.ts

/-- The override of a body atom, when it has rows. -/
def liveOv (ov : List VmOverride) (bodyIdx : ℕ) : Option TupleSet :=
  (findOv ov bodyIdx).filter fun ts => !ts.rows.isEmpty

/-- `VmFrame`: an open choice point. -/
structure VmFrame where
  /-- The opcode it resumes as. -/
  op : Op
  /-- Rows not tried yet. -/
  tuples : List Row
  /-- Width of the rows. -/
  arity : ℕ
  /-- Bindings to restore. -/
  saved : Bindings
  /-- Column order of the rows, when they are permuted. -/
  perm : Option (List ℕ) := none
  /-- Lower end of a range. -/
  lo : Val := 0
  /-- Upper end of a range, exclusive. -/
  hi : Val := 0
  /-- The last value a range yielded. -/
  last : Option Val := none

/-- The column of the atom that position `pp` of a row holds. -/
def origCol (perm : Option (List ℕ)) (pp : ℕ) : ℕ :=
  match perm with
  | some p => p.getD pp 0
  | none => pp

/-- `bindRowPerm`: bind the columns from `sc` on to their slots. -/
def bindRowPerm (i : VmInstr) (row : Row) (sc ar : ℕ) (perm : Option (List ℕ)) (b : Bindings) :
    Option Bindings :=
  (List.range' sc (ar - sc)).foldlM (fun b pp =>
    if i.slot (origCol perm pp) = noSlot then some b
    else bTry b (i.slot (origCol perm pp)) (row.getD pp 0)) b

/-- `seekValidPerm`: the first row that binds, and the rows after it. -/
def seekValidPerm (i : VmInstr) (sc ar : ℕ) (perm : Option (List ℕ)) (saved : Bindings) :
    List Row → Option (Bindings × List Row)
  | [] => none
  | row :: rows =>
    match bindRowPerm i row sc ar perm saved with
    | some b => some (b, rows)
    | none => seekValidPerm i sc ar perm saved rows

/-- `rangeResume`: the next value in `[lo, hi)`, each once. -/
def rangeResume (s : ℕ) (saved : Bindings) (lo hi : Val) :
    Option Val → List Row → Option (Bindings × Val × List Row)
  | _, [] => none
  | last, row :: rows =>
    if row.getD 0 0 < lo then rangeResume s saved lo hi last rows
    else if hi ≤ row.getD 0 0 then none
    else if last = some (row.getD 0 0) then rangeResume s saved lo hi last rows
    else some ((bTry saved s (row.getD 0 0)).getD saved, row.getD 0 0, rows)

/-- All bindings a range frame has left. -/
def rangeAlts (s : ℕ) (saved : Bindings) (lo hi : Val) : Option Val → List Row → List Bindings
  | _, [] => []
  | last, row :: rows =>
    if row.getD 0 0 < lo then rangeAlts s saved lo hi last rows
    else if hi ≤ row.getD 0 0 then []
    else if last = some (row.getD 0 0) then rangeAlts s saved lo hi last rows
    else (bTry saved s (row.getD 0 0)).getD saved ::
      rangeAlts s saved lo hi (some (row.getD 0 0)) rows

/-- The first column bound when a frame is resumed. -/
def VmFrame.startCol (f : VmFrame) (i : VmInstr) : ℕ :=
  if f.op = .lookup ∨ f.op = .lookupPerm then i.b else 0

/-- `backtrack` on one frame. -/
def resume (p : List VmInstr) (ip : ℕ) (f : VmFrame) : Option (Bindings × VmFrame) :=
  let i := p.getD ip ⟨.halt, 0, 0, 0, 0, [], 0⟩
  if f.op = .range then
    (rangeResume (i.slot 0) f.saved f.lo f.hi f.last f.tuples).map fun r =>
      (r.1, { f with last := some r.2.1, tuples := r.2.2 })
  else
    (seekValidPerm i (f.startCol i) f.arity f.perm f.saved f.tuples).map fun r =>
      (r.1, { f with tuples := r.2 })

/-- Every way a frame can still be resumed. -/
def frameAlts (p : List VmInstr) (ip : ℕ) (f : VmFrame) : List Bindings :=
  let i := p.getD ip ⟨.halt, 0, 0, 0, 0, [], 0⟩
  if f.op = .range then rangeAlts (i.slot 0) f.saved f.lo f.hi f.last f.tuples
  else f.tuples.filterMap fun row => bindRowPerm i row (f.startCol i) f.arity f.perm f.saved

theorem filterMap_bind_eq (i : VmInstr) (sc ar : ℕ) (perm : Option (List ℕ)) (b : Bindings)
    (rows : List Row) :
    (rows.filterMap fun row => bindRowPerm i row sc ar perm b) =
      match seekValidPerm i sc ar perm b rows with
      | none => []
      | some (b', rest) => b' :: rest.filterMap fun row => bindRowPerm i row sc ar perm b := by
  induction rows with
  | nil => rfl
  | cons row rows ih =>
    simp only [seekValidPerm, List.filterMap_cons]
    cases bindRowPerm i row sc ar perm b with
    | none => exact ih
    | some b' => rfl

theorem rangeAlts_eq (s : ℕ) (b : Bindings) (lo hi : Val) (last : Option Val) (rows : List Row) :
    rangeAlts s b lo hi last rows =
      match rangeResume s b lo hi last rows with
      | none => []
      | some (b', v, rest) => b' :: rangeAlts s b lo hi (some v) rest := by
  induction rows with
  | nil => rfl
  | cons row rows ih =>
    simp only [rangeAlts, rangeResume]
    split
    · exact ih
    · split
      · rfl
      · split
        · exact ih
        · rfl

theorem frameAlts_eq (p : List VmInstr) (ip : ℕ) (f : VmFrame) :
    frameAlts p ip f =
      match resume p ip f with
      | none => []
      | some (b, f') => b :: frameAlts p ip f' := by
  unfold frameAlts resume
  by_cases hop : f.op = .range
  · simp only [hop, if_true]
    rw [rangeAlts_eq]
    cases rangeResume _ f.saved f.lo f.hi f.last f.tuples with
    | none => rfl
    | some r => simp
  · simp only [hop, if_false]
    rw [filterMap_bind_eq]
    cases seekValidPerm _ _ f.arity f.perm f.saved f.tuples with
    | none => rfl
    | some r => simp [hop, VmFrame.startCol]

/-! ## The state of a run -/

/-- `AggBucket`: one group of an aggregate. -/
structure AggBucket where
  /-- The group. -/
  key : List Val
  /-- Rows seen, modulo `2 ^ 32`. -/
  count : UInt32 := 0
  /-- Sum of the source column, modulo `2 ^ 32`. -/
  sum : UInt32 := 0
  /-- Least source value. -/
  min : UInt32 := 0
  /-- Greatest source value. -/
  max : UInt32 := 0
  deriving DecidableEq

/-- What a run changes. -/
structure ExecSt where
  /-- The database. -/
  db : Db
  /-- The buffers of materialized sub-plans; an unused one has arity `0`. -/
  pool : List TupleSet
  /-- The rows handed to the callback, in order. -/
  out : List Row
  /-- The groups of the aggregate. -/
  buckets : List AggBucket

/-- How a range is run. -/
structure Mode where
  /-- Overrides of body atoms. -/
  ov : List VmOverride := []
  /-- Hand head rows to the callback without storing them. -/
  dry : Bool := false
  /-- The buffer head rows go to instead. -/
  capture : Option ℕ := none

/-- The effect of a VM instruction. -/
abbrev VmOutcome := Outcome Bindings VmFrame VmErr

/-- Open a frame at its first row that binds; `sc` is the first column bound now. -/
def openFrame (i : VmInstr) (sc ar : ℕ) (b : Bindings) (f : VmFrame) : VmOutcome :=
  match seekValidPerm i sc ar f.perm b f.tuples with
  | some (b', rest) => .push b' { f with tuples := rest, saved := b }
  | none => .fail

/-- The check of the frame limit that precedes an instruction. -/
def guardFrame (sp : ℕ) (o : VmOutcome) : VmOutcome :=
  if maxFrames ≤ sp then .error .frameLimit else o

/-! ## Instructions that match a body atom -/

/-- `OP_SCAN`: all rows. -/
def execScan (db : Db) (ov : List VmOverride) (i : VmInstr) (b : Bindings) : VmOutcome :=
  match liveOv ov i.bodyIdx with
  | some ts => openFrame i 0 ts.arity b ⟨.scan, ts.rows, ts.arity, b, none, 0, 0, none⟩
  | none =>
    match db.relAtArityRo i.a i.b with
    | some r => openFrame i 0 i.b b ⟨.scan, r.view.scan [], i.b, b, none, 0, 0, none⟩
    | none => .stop

/-- `OP_WALK`: the rows whose column `c` is a symbol the pattern matches. -/
def execWalk (db : Db) (pats : List (Val → Bool)) (ov : List VmOverride) (i : VmInstr)
    (b : Bindings) : VmOutcome :=
  match pats[i.imm.toNat]? with
  | none => .stop
  | some m =>
    let test := fun ar (row : Row) =>
      decide (i.c < ar) && (row.getD i.c 0 != 0) && m (row.getD i.c 0)
    match liveOv ov i.bodyIdx with
    | some ts =>
      openFrame i 0 i.b b ⟨.scan, ts.rows.filter (test ts.arity), i.b, b, none, 0, 0, none⟩
    | none =>
      match db.relAtArityRo i.a i.b with
      | some r =>
        openFrame i 0 i.b b ⟨.scan, (r.view.scan []).filter (test i.b), i.b, b, none, 0, 0, none⟩
      | none => .stop

/-- `OP_LOOKUP`: the rows that start with the values of the first `b` slots. -/
def execLookup (db : Db) (ov : List VmOverride) (i : VmInstr) (b : Bindings) : VmOutcome :=
  let pref := (List.range i.b).map fun pk => bGet b (i.slot pk)
  match liveOv ov i.bodyIdx with
  | some ts =>
    openFrame i i.b ts.arity b ⟨.lookup, tsPrefix ts.rows pref, ts.arity, b, none, 0, 0, none⟩
  | none =>
    match db.relAtArityRo i.a i.c with
    | some r => openFrame i i.b i.c b ⟨.lookup, r.view.scan pref, i.c, b, none, 0, 0, none⟩
    | none => .fail

/-- `OP_LOOKUP_PERM`: a lookup in a permutation index. -/
def execLookupPerm (db : Db) (ov : List VmOverride) (i : VmInstr) (b : Bindings) : VmOutcome :=
  match db.getPerm i.a i.imm.toNat with
  | none => .fail
  | some pe =>
    let pref := (List.range i.b).map fun pk => bGet b (i.slot (pe.perm.getD pk 0))
    match liveOv ov i.bodyIdx with
    | some ts =>
      openFrame i i.b i.c b
        ⟨.lookupPerm, tsPrefix ts.rows pref, ts.arity, b, some pe.perm, 0, 0, none⟩
    | none =>
      openFrame i i.b i.c b ⟨.lookupPerm, pe.pidx.scan pref, i.c, b, some pe.perm, 0, 0, none⟩

/-- The permutation packed in the immediate operand, three bits a column. -/
def unpackPerm (imm : UInt32) (ar : ℕ) : List ℕ :=
  (List.range ar).map fun pj => (imm.toNat / 8 ^ pj) % 8

/-- The rows a hash join keeps: those that agree on the first `k` permuted
columns, with their columns permuted. -/
def hashMatches (i : VmInstr) (perm : List ℕ) (k ar : ℕ) (b : Bindings) (rows : List Row) :
    List Row :=
  (rows.filter fun row => (List.range k).all fun pk =>
    bGet b (i.slot (perm.getD pk 0)) == row.getD (perm.getD pk 0) 0).map (permRow perm ar)

/-- `OP_HASH_JOIN`: the matching rows, permuted and sorted. -/
def execHashJoin (db : Db) (ov : List VmOverride) (i : VmInstr) (b : Bindings) : VmOutcome :=
  let perm := unpackPerm i.imm i.c
  let go := fun (all : TupleSet) =>
    let m := ((TupleSet.init i.c).addAll (hashMatches i perm i.b i.c b all.rows)).sort
    openFrame i i.b i.c b ⟨.hashJoin, m.rows, i.c, b, some perm, 0, 0, none⟩
  match liveOv ov i.bodyIdx with
  | some ts => go ((TupleSet.init i.c).addAll ts.rows)
  | none =>
    match db.relAtArityRo i.a i.c with
    | some r => go ((TupleSet.init i.c).addAll (r.view.scan [])).sort
    | none => .fail

/-- `matJoinBuild`: pairs of rows that agree on the first `cc` columns. -/
def matJoinBuild (l r : TupleSet) (cc : ℕ) : List Row :=
  l.rows.flatMap fun lrow =>
    ((r.rows.reverse.filter fun rrow => rrow.take cc == lrow.take cc).map fun rrow =>
      lrow ++ rrow.drop cc)

/-- `OP_MAT_JOIN`: the join of two buffers. -/
def execMatJoin (pool : List TupleSet) (i : VmInstr) (sp : ℕ) (b : Bindings) : VmOutcome :=
  match pool[i.a]?, pool[i.b]? with
  | some l, some r =>
    let outAr := i.c + (l.arity - i.c) + (r.arity - i.c)
    if l.arity = 0 ∨ r.arity = 0 then .stop
    else if l.arity < i.c ∨ r.arity < i.c ∨ maxArity < outAr then .stop
    else
      guardFrame sp
        (openFrame i 0 outAr b ⟨.matJoin, matJoinBuild l r i.c, outAr, b, none, 0, 0, none⟩)
  | _, _ => .stop

/-! ## Tests and builtins -/

/-- A column of a negated atom: bound to a value, or a wildcard. -/
def colOk (c : Option Val) (x : Val) : Bool :=
  match c with
  | some v => x == v
  | none => true

/-- `OP_NEG_CHECK`: does a row agree with the bound columns? -/
def negHit (r : Store) (i : VmInstr) (b : Bindings) : Bool :=
  let cols := (List.range i.b).map fun j =>
    if bOk b (i.slot j) then some (bGet b (i.slot j)) else none
  if cols.all Option.isSome then r.view.lookup (cols.map fun v => v.getD 0)
  else
    (r.view.scan ((cols.takeWhile Option.isSome).map fun v => v.getD 0)).any fun row =>
      (List.range i.b).all fun j => colOk (cols.getD j none) (row.getD j 0)

/-- The comparison an immediate operand stands for. -/
def cmpPass (imm : UInt32) (x y : Val) : Bool :=
  match imm.toNat with
  | 0 => x < y
  | 1 => x ≤ y
  | 2 => y < x
  | 3 => y ≤ x
  | 4 => x != y
  | _ => false

/-- The arithmetic an immediate operand stands for, modulo `2 ^ 32`. -/
def arithVal (imm : UInt32) (x y : Val) : Option Val :=
  match imm.toNat with
  | 0 => some (x + y)
  | 1 => some (x - y)
  | 2 => some (x * y)
  | 3 => if y = 0 then none else some (x / y)
  | 4 => if y = 0 then none else some (x % y)
  | _ => none

/-- `OP_STR_FILTER`: prefix, suffix or substring. -/
def strFilterPass (ir : Interner) (imm : UInt32) (x y : Val) : Bool :=
  match ir.strOf x, ir.strOf y with
  | some s, some t =>
    match imm.toNat with
    | 0 => t.isPrefixOf s
    | 1 => t.isSuffixOf s
    | 2 => s.tails.any t.isPrefixOf
    | _ => false
  | _, _ => false

/-- `OP_STR_LEN`: length of a list or of a text. -/
def strLenVal (tbl : SymTables) (x : Val) : Option Val :=
  if tbl.terms.isList x then some (tbl.terms.length x)
  else (tbl.ir.strOf x).map fun s => UInt32.ofNat s.length

/-- Lower-case ASCII. -/
def lowerByte (ch : UInt8) : UInt8 := if 65 ≤ ch ∧ ch ≤ 90 then ch + 32 else ch

/-- Upper-case ASCII. -/
def upperByte (ch : UInt8) : UInt8 := if 97 ≤ ch ∧ ch ≤ 122 then ch - 32 else ch

/-- `OP_STR_BIND`: the symbol of a concatenation or of a case change; `0` fails. -/
def strBindVal (ir : Interner) (imm : UInt32) (x y : Val) : Val :=
  match imm.toNat, ir.strOf x, ir.strOf y with
  | 0, some s, some t => if s.length + t.length ≤ 4096 then ir.intern (s ++ t) else 0
  | 1, some s, _ => if s.length ≤ 4096 then ir.intern (s.map lowerByte) else 0
  | 2, some s, _ => if s.length ≤ 4096 then ir.intern (s.map upperByte) else 0
  | _, _, _ => 0

/-- Bind the result of a builtin, or fail. -/
def bindResult (b : Bindings) (s : ℕ) : Option Val → VmOutcome
  | none => .fail
  | some v =>
    match bTry b s v with
    | some b' => .next b'
    | none => .fail

/-- Go on when a test passes. -/
def passIf (t : Bool) (b : Bindings) : VmOutcome := if t then .next b else .fail

/-- The builtins that neither read a relation nor open a frame. -/
def execBuiltin (tbl : SymTables) (i : VmInstr) (b : Bindings) : VmOutcome :=
  match i.op with
  | .eq =>
    match bOk b i.a, bOk b i.b with
    | true, true => passIf (bGet b i.a == bGet b i.b) b
    | true, false => .next ((bTry b i.b (bGet b i.a)).getD b)
    | false, true => .next ((bTry b i.a (bGet b i.b)).getD b)
    | false, false => .next b
  | .eqConst =>
    if bOk b i.a then passIf (bGet b i.a == i.imm) b else .next ((bTry b i.a i.imm).getD b)
  | .cmp => passIf (cmpPass i.imm (bGet b i.a) (bGet b i.b)) b
  | .arith => bindResult b i.c (arithVal i.imm (bGet b i.a) (bGet b i.b))
  | .strFilter => passIf (strFilterPass tbl.ir i.imm (bGet b i.a) (bGet b i.b)) b
  | .strLen => bindResult b i.c (strLenVal tbl (bGet b i.a))
  | .strBind =>
    let sid := strBindVal tbl.ir i.imm (bGet b i.a) (bGet b i.b)
    bindResult b i.c (if sid = 0 then none else some sid)
  | .listCons =>
    let h := tbl.terms.cons (bGet b i.b) (bGet b i.c)
    bindResult b i.a (if h = 0 then none else some h)
  | .listCar =>
    let v := bGet b i.a
    bindResult b i.c
      (if tbl.terms.isList v = false ∨ v = tbl.terms.nil then none else some (tbl.terms.car v))
  | .listCdr =>
    let v := bGet b i.a
    bindResult b i.c
      (if tbl.terms.isList v = false ∨ v = tbl.terms.nil then none else some (tbl.terms.cdr v))
  | .listAppend =>
    let r := tbl.terms.append (bGet b i.a) (bGet b i.b)
    bindResult b i.c (if r = 0 then none else some r)
  | _ => .next b

/-- `OP_LIST_MEMBER`: test an element, or run through the elements. -/
def execListMember (tbl : SymTables) (i : VmInstr) (sp : ℕ) (b : Bindings) : VmOutcome :=
  let lv := bGet b i.a
  if bOk b i.a = false ∨ tbl.terms.isList lv = false then .fail
  else if bOk b i.b then passIf ((tbl.terms.elems lv).contains (bGet b i.b)) b
  else
    guardFrame sp (openFrame i 0 1 b
      ⟨.listMember, (tbl.terms.elems lv).map fun v => [v], 1, b, none, 0, 0, none⟩)

/-- `OP_RANGE`: test a value, or run through the first columns in `[lo, hi)`. -/
def execRangeOp (db : Db) (i : VmInstr) (sp : ℕ) (b : Bindings) : VmOutcome :=
  match db.rels[i.imm.toNat]? with
  | none => .fail
  | some e =>
    let lo := bGet b i.a
    let hi := bGet b i.b
    if bOk b i.c then
      let xv := bGet b i.c
      passIf (decide (lo ≤ xv) && decide (xv < hi) && !(e.store.view.scan [xv]).isEmpty) b
    else
      guardFrame sp
        (match rangeResume (i.slot 0) b lo hi none (e.store.view.scan []) with
        | some (b', v, rest) => .push b' ⟨.range, rest, 0, b, none, lo, hi, some v⟩
        | none => .fail)

/-! ## Head rows and aggregates -/

/-- `OP_PROJECT`: hand the head row on, store it, or capture it. -/
def execProject (md : Mode) (i : VmInstr) (s : ExecSt) (b : Bindings) : ExecSt × VmOutcome :=
  let cols := (List.range i.b).map fun j => bGet b (i.slot j)
  match md.capture with
  | some buf => ({ s with pool := s.pool.modify buf fun ts => ts.add cols }, .fail)
  | none =>
    match s.db.relAtArityRo i.a i.b with
    | none => (s, .stop)
    | some r =>
      if (List.range i.b).any fun j => i.slot j == noSlot then (s, .stop)
      else if md.dry then ({ s with out := s.out ++ [cols] }, .fail)
      else if r.view.lookup cols then (s, .fail)
      else ({ s with db := s.db.addTuple i.a cols, out := s.out ++ [cols] }, .fail)

/-- One row more in a bucket. -/
def AggBucket.step (op : ℕ) (bk : AggBucket) (v : Val) : AggBucket :=
  let bk := { bk with count := bk.count + 1 }
  match op with
  | 1 => { bk with sum := bk.sum + v }
  | 2 => { bk with min := if bk.count = 1 then v else if v < bk.min then v else bk.min }
  | 3 => { bk with max := if bk.count = 1 then v else if bk.max < v then v else bk.max }
  | _ => bk

/-- Account a row in the bucket of its group, creating it at the first one. -/
def accumulate (op : ℕ) (key : List Val) (v : Val) : List AggBucket → List AggBucket
  | [] => [AggBucket.step op { key } v]
  | bk :: bks =>
    if bk.key = key then AggBucket.step op bk v :: bks else bk :: accumulate op key v bks

/-- `OP_AGG_ACC`: `a` group slots, then the source slot; `b` is the operation. -/
def execAggAcc (i : VmInstr) (s : ExecSt) (b : Bindings) : ExecSt × VmOutcome :=
  if (List.range i.a).all fun g => bOk b (i.slot g) then
    let key := (List.range i.a).map fun g => bGet b (i.slot g)
    ({ s with buckets := accumulate i.b key (bGet b (i.slot i.a)) s.buckets }, .fail)
  else (s, .fail)

/-- The value of a bucket. -/
def AggBucket.val (op : ℕ) (bk : AggBucket) : Val :=
  match op with
  | 1 => bk.sum
  | 2 => bk.min
  | 3 => bk.max
  | _ => bk.count

/-- The head row of a bucket: the result slot reads the value, any other slot the
column of the group it is; a slot that is neither makes no row. -/
def aggRow (ai ei : VmInstr) (bk : AggBucket) : Option Row :=
  (List.range ei.b).mapM fun jj =>
    if ei.slot jj = ai.c then some (bk.val ai.b)
    else ((List.range ai.a).find? fun g => ai.slot g = ei.slot jj).map fun g => bk.key.getD g 0

/-- Emit one row of an aggregate head. -/
def emitRow (md : Mode) (ei : VmInstr) (s : ExecSt) (cols : Row) : ExecSt :=
  if md.dry then { s with out := s.out ++ [cols] }
  else
    match s.db.relAtArityRo ei.a ei.b with
    | none => s
    | some r =>
      if r.view.lookup cols then s
      else { s with db := s.db.addTuple ei.a cols, out := s.out ++ [cols] }

/-- The end of a range: the buckets become head rows. -/
def emitBuckets (md : Mode) (p : List VmInstr) (start stop : ℕ) (s : ExecSt) : ExecSt :=
  let code := (p.take stop).drop start
  match code.reverse.find? fun i => i.op = .aggAcc, code.reverse.find? fun i => i.op = .aggEmit with
  | some ai, some ei => (s.buckets.filterMap (aggRow ai ei)).foldl (emitRow md ei) s
  | _, _ => s

/-! ## The machine -/

/-- What `OP_MAT_BEGIN` calls: a sub-range whose head rows go to a buffer. -/
abbrev SubRun := ℕ → ℕ → ℕ → ExecSt → Final ExecSt VmErr

/-- `OP_MAT_BEGIN`: fill a buffer from the instructions before `imm`. -/
def execMatBegin (sub : SubRun) (stop ip : ℕ) (i : VmInstr) (s : ExecSt) (b : Bindings) :
    ExecSt × VmOutcome :=
  let endIp := i.imm.toNat
  match s.pool[i.a]? with
  | none => (s, .stop)
  | some ts =>
    if endIp ≤ ip + 1 ∨ stop < endIp then (s, .stop)
    else
      let pool := if ts.arity = 0 then s.pool.set i.a (TupleSet.init i.b) else s.pool
      match sub i.a (ip + 1) endIp { s with pool, buckets := [] } with
      | .done s' => ({ s' with buckets := s.buckets }, .jump endIp b)
      | .failed err s' => ({ s' with buckets := s.buckets }, .error err)

/-- One instruction. -/
def exec (cr : CompiledRule) (md : Mode) (sub : SubRun) (stop ip sp : ℕ) (s : ExecSt)
    (b : Bindings) : ExecSt × VmOutcome :=
  let i := cr.instrs.getD ip ⟨.halt, 0, 0, 0, 0, [], 0⟩
  match i.op with
  | .scan => (s, guardFrame sp (execScan s.db md.ov i b))
  | .walk => (s, guardFrame sp (execWalk s.db cr.patterns md.ov i b))
  | .lookup => (s, guardFrame sp (execLookup s.db md.ov i b))
  | .lookupPerm => (s, guardFrame sp (execLookupPerm s.db md.ov i b))
  | .hashJoin => (s, guardFrame sp (execHashJoin s.db md.ov i b))
  | .matBegin => execMatBegin sub stop ip i s b
  | .matJoin => (s, execMatJoin s.pool i sp b)
  | .negCheck =>
    match s.db.relAtArityRo i.a i.b with
    | none => (s, .next b)
    | some r => (s, passIf (!negHit r i b) b)
  | .listMember => (s, execListMember s.db.tbl i sp b)
  | .range => (s, execRangeOp s.db i sp b)
  | .project => execProject md i s b
  | .aggAcc => execAggAcc i s b
  | .aggEmit => (s, .next b)
  | .halt => (s, .stop)
  | .openRel => (s, .stop)
  | _ => (s, execBuiltin s.db.tbl i b)

/-- Only `OP_MAT_BEGIN` jumps. -/
def NoJump (o : VmOutcome) : Prop := ∀ ip b, o ≠ .jump ip b

theorem noJump_guardFrame {sp : ℕ} {o : VmOutcome} (h : NoJump o) : NoJump (guardFrame sp o) := by
  intro ip b
  unfold guardFrame
  split
  · simp
  · exact h ip b

theorem noJump_openFrame (i : VmInstr) (sc ar : ℕ) (b : Bindings) (f : VmFrame) :
    NoJump (openFrame i sc ar b f) := by
  intro ip b
  unfold openFrame
  split <;> simp

theorem noJump_passIf (t : Bool) (b : Bindings) : NoJump (passIf t b) := by
  intro ip b
  unfold passIf
  split <;> simp

theorem noJump_bindResult (b : Bindings) (s : ℕ) (v : Option Val) :
    NoJump (bindResult b s v) := by
  intro ip b
  unfold bindResult
  split
  · simp
  · split <;> simp

theorem noJump_execBuiltin (tbl : SymTables) (i : VmInstr) (b : Bindings) :
    NoJump (execBuiltin tbl i b) := by
  unfold execBuiltin
  split
  · split
    · exact noJump_passIf _ _
    all_goals intro ip b; simp
  · split
    · exact noJump_passIf _ _
    · intro ip b; simp
  all_goals first
    | exact noJump_passIf _ _
    | exact noJump_bindResult _ _ _
    | (intro ip b; simp)

theorem noJump_execScan (db : Db) (ov : List VmOverride) (i : VmInstr) (b : Bindings) :
    NoJump (execScan db ov i b) := by
  unfold execScan
  split
  · exact noJump_openFrame _ _ _ _ _
  · split
    · exact noJump_openFrame _ _ _ _ _
    · intro ip b; simp

theorem noJump_execWalk (db : Db) (pats : List (Val → Bool)) (ov : List VmOverride) (i : VmInstr)
    (b : Bindings) : NoJump (execWalk db pats ov i b) := by
  unfold execWalk
  split
  · intro ip b; simp
  · dsimp only
    split
    · exact noJump_openFrame _ _ _ _ _
    · split
      · exact noJump_openFrame _ _ _ _ _
      · intro ip b; simp

theorem noJump_execLookup (db : Db) (ov : List VmOverride) (i : VmInstr) (b : Bindings) :
    NoJump (execLookup db ov i b) := by
  unfold execLookup
  dsimp only
  split
  · exact noJump_openFrame _ _ _ _ _
  · split
    · exact noJump_openFrame _ _ _ _ _
    · intro ip b; simp

theorem noJump_execLookupPerm (db : Db) (ov : List VmOverride) (i : VmInstr) (b : Bindings) :
    NoJump (execLookupPerm db ov i b) := by
  unfold execLookupPerm
  split
  · intro ip b; simp
  · dsimp only
    split <;> exact noJump_openFrame _ _ _ _ _

theorem noJump_execHashJoin (db : Db) (ov : List VmOverride) (i : VmInstr) (b : Bindings) :
    NoJump (execHashJoin db ov i b) := by
  unfold execHashJoin
  dsimp only
  split
  · exact noJump_openFrame _ _ _ _ _
  · split
    · exact noJump_openFrame _ _ _ _ _
    · intro ip b; simp

theorem noJump_execMatJoin (pool : List TupleSet) (i : VmInstr) (sp : ℕ) (b : Bindings) :
    NoJump (execMatJoin pool i sp b) := by
  unfold execMatJoin
  split
  · dsimp only
    split
    · intro ip b; simp
    · split
      · intro ip b; simp
      · exact noJump_guardFrame (noJump_openFrame _ _ _ _ _)
  · intro ip b; simp

theorem noJump_execListMember (tbl : SymTables) (i : VmInstr) (sp : ℕ) (b : Bindings) :
    NoJump (execListMember tbl i sp b) := by
  unfold execListMember
  dsimp only
  split
  · intro ip b; simp
  · split
    · exact noJump_passIf _ _
    · exact noJump_guardFrame (noJump_openFrame _ _ _ _ _)

theorem noJump_execRangeOp (db : Db) (i : VmInstr) (sp : ℕ) (b : Bindings) :
    NoJump (execRangeOp db i sp b) := by
  unfold execRangeOp
  split
  · intro ip b; simp
  · dsimp only
    split
    · exact noJump_passIf _ _
    · refine noJump_guardFrame fun ip b => ?_
      split <;> simp

theorem noJump_execProject (md : Mode) (i : VmInstr) (s : ExecSt) (b : Bindings) :
    NoJump (execProject md i s b).2 := by
  intro ip b
  unfold execProject
  dsimp only
  split
  · simp
  · split
    · simp
    · split
      · simp
      · split
        · simp
        · split <;> simp

theorem noJump_execAggAcc (i : VmInstr) (s : ExecSt) (b : Bindings) :
    NoJump (execAggAcc i s b).2 := by
  intro ip b
  unfold execAggAcc
  split <;> simp

theorem execMatBegin_jump {sub : SubRun} {stop ip : ℕ} {i : VmInstr} {s s' : ExecSt}
    {b b' : Bindings} {ip' : ℕ} (h : execMatBegin sub stop ip i s b = (s', .jump ip' b')) :
    ip < ip' := by
  unfold execMatBegin at h
  dsimp only at h
  split at h
  · simp at h
  · split at h
    · simp at h
    · rename_i hend
      split at h
      · simp only [Prod.mk.injEq, Outcome.jump.injEq] at h
        omega
      · simp at h

theorem exec_jump {cr : CompiledRule} {md : Mode} {sub : SubRun} {stop ip sp : ℕ}
    {s s' : ExecSt} {b b' : Bindings} {ip' : ℕ}
    (h : exec cr md sub stop ip sp s b = (s', .jump ip' b')) : ip < ip' := by
  have hno : ∀ {t : ExecSt} {o : VmOutcome}, NoJump o → (t, o) = (s', .jump ip' b') → ip < ip' :=
    fun ho he => absurd (Prod.mk.inj he).2 (ho _ _)
  unfold exec at h
  dsimp only at h
  split at h
  · exact hno (noJump_guardFrame (noJump_execScan _ _ _ _)) h
  · exact hno (noJump_guardFrame (noJump_execWalk _ _ _ _ _)) h
  · exact hno (noJump_guardFrame (noJump_execLookup _ _ _ _)) h
  · exact hno (noJump_guardFrame (noJump_execLookupPerm _ _ _ _)) h
  · exact hno (noJump_guardFrame (noJump_execHashJoin _ _ _ _)) h
  · exact execMatBegin_jump h
  · exact hno (noJump_execMatJoin _ _ _ _) h
  · split at h
    · exact hno (fun ip b => by simp) h
    · exact hno (noJump_passIf _ _) h
  · exact hno (noJump_execListMember _ _ _ _) h
  · exact hno (noJump_execRangeOp _ _ _ _) h
  · exact hno (noJump_execProject md _ s b) h
  · exact hno (noJump_execAggAcc _ s b) h
  · exact hno (fun ip b => by simp) h
  · exact hno (fun ip b => by simp) h
  · exact hno (fun ip b => by simp) h
  · exact hno (noJump_execBuiltin _ _ _) h

/-- The bytecode before `stop` as a backtracking machine. -/
def machine (cr : CompiledRule) (md : Mode) (sub : SubRun) (stop : ℕ) :
    Machine ExecSt Bindings VmFrame VmErr where
  exec := exec cr md sub stop
  resume := resume cr.instrs
  alts := frameAlts cr.instrs
  alts_eq ip f := by
    rw [frameAlts_eq]
    cases resume cr.instrs ip f <;> rfl
  jump_lt _ _ _ _ _ _ _ h := exec_jump h

/-- What is left to do when the loop has ended. -/
def finish (md : Mode) (p : List VmInstr) (start stop : ℕ) : Final ExecSt VmErr → Final ExecSt VmErr
  | .done s => .done (emitBuckets md p start stop s)
  | .failed err s => .failed err s

/-- **`execRange`**: run the instructions in `[start, stop)`.  The first argument
bounds how deep `OP_MAT_BEGIN` nests. -/
def execRange (cr : CompiledRule) (md : Mode) : ℕ → ℕ → ℕ → ExecSt → Final ExecSt VmErr
  | 0, _, _, s => .failed .nesting s
  | depth + 1, start, stop, s =>
    let sub : SubRun := fun buf ip endIp s =>
      execRange cr { md with capture := some buf } depth ip endIp s
    finish md cr.instrs start stop
      ((machine cr md sub stop).search stop (stop - start + 1) start 0 s bInit).final

/-- The call `OP_MAT_BEGIN` makes from a range that may nest `depth` levels. -/
def subRun (cr : CompiledRule) (md : Mode) (depth : ℕ) : SubRun := fun buf ip endIp s =>
  execRange cr { md with capture := some buf } depth ip endIp s

/-- **The interpreter loop computes `execRange`**: the explicit frame stack with
its restored bindings does what the nested loops do, and it ends. -/
theorem run_machine (cr : CompiledRule) (md : Mode) (depth start stop : ℕ) (s : ExecSt) :
    ∃ n, ∀ m, n ≤ m →
      ((machine cr md (subRun cr md depth) stop).run stop m start [] s bInit).map
        (finish md cr.instrs start stop) = some (execRange cr md (depth + 1) start stop s) := by
  obtain ⟨n, hn⟩ :=
    (machine cr md (subRun cr md depth) stop).run_eq_search stop start s bInit
  exact ⟨n, fun m hm => by rw [hn m hm]; rfl⟩

/-- The buffers a rule needs: one for each `OP_MAT_BEGIN`. -/
def nMat (cr : CompiledRule) : ℕ := (cr.instrs.filter fun i => i.op = .matBegin).length

/-- **`execRule`**: run a whole rule from empty bindings and empty buffers. -/
def execRule (db : Db) (cr : CompiledRule) (ov : List VmOverride) (dry : Bool) :
    Final ExecSt VmErr :=
  execRange cr { ov, dry } (cr.instrs.length + 1) 0 cr.instrs.length
    ⟨db, List.replicate (nMat cr) (TupleSet.init 0), [], []⟩

end DatalogDafsa
