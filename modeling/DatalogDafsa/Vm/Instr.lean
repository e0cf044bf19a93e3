import DatalogDafsa.Relation

/-!
# Bytecode, bindings and the database the interpreter reads

A rule body is compiled to straight-line bytecode over at most 64 variable slots.
This file holds the data of the interpreter: the instructions and compiled rules,
the slot bindings with their three accessors, the string and list tables the
builtins call, and the database with its relations and permutation indices.

## Main definitions

* `Op`, `VmInstr`, `CompiledRule` — the bytecode.
* `Bindings`, `bTry`, `bGet`, `bOk` — the slots of one partial match.
* `Interner`, `TermStore` — symbol texts and list terms.
* `Db`, `relAtArityRo`, `Db.addTuple` — relations and permutation indices.
-/

namespace DatalogDafsa

/-! ## Bytecode -/

/-- The opcodes. -/
inductive Op
  | halt | scan | lookup | eq | eqConst | project | openRel | negCheck | aggAcc | aggEmit
  | walk | lookupPerm | hashJoin | cmp | arith | strFilter | strLen | strBind | matBegin
  | matJoin | listCons | listCar | listCdr | listAppend | listMember | range
  deriving DecidableEq, Repr

/-- `vm_instr`: the meaning of the operands depends on the opcode. -/
structure VmInstr where
  /-- Opcode. -/
  op : Op
  /-- First operand. -/
  a : ℕ := 0
  /-- Second operand. -/
  b : ℕ := 0
  /-- Third operand. -/
  c : ℕ := 0
  /-- Immediate operand. -/
  imm : UInt32 := 0
  /-- One slot for each column. -/
  slots : List ℕ := []
  /-- The body atom the instruction reads for. -/
  bodyIdx : ℕ := 0
  deriving DecidableEq, Repr

/-- The slot of a column. -/
def VmInstr.slot (i : VmInstr) (j : ℕ) : ℕ := i.slots.getD j 0

/-- `compiled_rule`: a head, its bytecode and what the stratifier found. -/
structure CompiledRule where
  /-- Head relation. -/
  headRelId : ℕ
  /-- Bytecode. -/
  instrs : List VmInstr
  /-- Stratum of the head. -/
  stratum : ℕ := 0
  /-- The head is in a recursive component. -/
  isRecursive : Bool := false
  /-- The body has an aggregate. -/
  hasAggregate : Bool := false
  /-- For each pattern of the rule, the interned symbols it matches. -/
  patterns : List (Val → Bool) := []

/-! ## Bindings -/

/-- Slots of one partial match. -/
def maxVars : ℕ := 64

/-- What an unbound slot reads as. -/
def unbound : Val := 0xFFFFFFFF

/-- A slot operand that stands for no slot. -/
def noSlot : ℕ := 0xFF

/-- The values of the bound slots. -/
abbrev Bindings := ℕ → Option Val

/-- `bInit`: nothing is bound. -/
def bInit : Bindings := fun _ => none

/-- `bTry`: bind a slot, or compare with what it is bound to. -/
def bTry (b : Bindings) (s : ℕ) (v : Val) : Option Bindings :=
  if maxVars ≤ s then none
  else
    match b s with
    | some w => if w = v then some b else none
    | none => some (Function.update b s (some v))

/-- `bGet`: the value of a slot. -/
def bGet (b : Bindings) (s : ℕ) : Val := if s < maxVars then (b s).getD unbound else unbound

/-- `bOk`: is the slot bound? -/
def bOk (b : Bindings) (s : ℕ) : Bool := decide (s < maxVars) && (b s).isSome

/-! ## Strings and lists -/

/-- The symbol table: texts of symbols, and the symbol of a text. -/
structure Interner where
  /-- `intern_str_of`. -/
  strOf : Val → Option (List UInt8)
  /-- `intern_str`; `0` is failure. -/
  intern : List UInt8 → Val

/-- A table with no texts. -/
def Interner.empty : Interner := ⟨fun _ => none, fun _ => 0⟩

/-- The table of list cells.  Cells are hash-consed and a tail is older than its
cell, which `rank` keeps. -/
structure TermStore where
  /-- `term_is_list`. -/
  isList : Val → Bool
  /-- `TERM_NIL`. -/
  nil : Val
  /-- `term_car`. -/
  car : Val → Val
  /-- `term_cdr`. -/
  cdr : Val → Val
  /-- `term_cons`; `0` is failure. -/
  cons : Val → Val → Val
  /-- The index of a cell. -/
  rank : Val → ℕ
  /-- A tail is older than its cell. -/
  rank_cdr : ∀ v, isList v = true → v ≠ nil → rank (cdr v) < rank v

namespace TermStore

variable (t : TermStore)

/-- The walk down the tails, collecting the heads. -/
def elemsAux : ℕ → Val → List Val
  | 0, _ => []
  | fuel + 1, v =>
    if t.isList v = true ∧ v ≠ t.nil then t.car v :: elemsAux fuel (t.cdr v) else []

/-- The elements of a list term. -/
def elems (v : Val) : List Val := t.elemsAux (t.rank v + 1) v

/-- `term_length`. -/
def length (v : Val) : Val := if t.isList v then UInt32.ofNat (t.elems v).length else 0

/-- `term_append`: cons the elements of the first list onto the second. -/
def append (v w : Val) : Val :=
  if !t.isList v || !t.isList w then 0
  else (t.elems v).foldr (fun x r => if r = 0 then 0 else t.cons x r) w

/-- A table with no cell but the empty list. -/
def empty : TermStore where
  isList v := v == 0x80000000
  nil := 0x80000000
  car _ := 0
  cdr _ := 0
  cons _ _ := 0
  rank _ := 0
  rank_cdr v h hv := absurd (by simpa using h) hv

end TermStore

/-- The tables the builtins work on. -/
structure SymTables where
  /-- Symbols. -/
  ir : Interner
  /-- List terms. -/
  terms : TermStore

/-! ## The database -/

/-- A declared relation. -/
structure RelEntry where
  /-- Number of columns. -/
  arity : ℕ
  /-- Base and view. -/
  store : Store
  deriving DecidableEq

/-- `PermIndexEntry`: a copy of a relation with its columns permuted. -/
structure PermIndexEntry where
  /-- The relation. -/
  relId : ℕ
  /-- Its arity. -/
  arity : ℕ
  /-- Column `j` of the index is column `perm j` of the relation. -/
  perm : List ℕ
  /-- The permuted rows. -/
  pidx : Dafsa
  /-- The relation changed since the index was built. -/
  dirty : Bool

/-- What the interpreter reads and writes. -/
structure Db where
  /-- Relations, by id. -/
  rels : List RelEntry
  /-- Permutation indices, by id. -/
  perms : List PermIndexEntry
  /-- Symbols and list terms. -/
  tbl : SymTables

/-- A row with its columns permuted. -/
def permRow (perm : List ℕ) (ar : ℕ) (row : Row) : Row :=
  (List.range ar).map fun j => row.getD (perm.getD j 0) 0

namespace Db

variable (db : Db)

/-- `db_rel_at_arity_ro`: a relation, if it is declared with this arity. -/
def relAtArityRo (id ar : ℕ) : Option Store :=
  match db.rels[id]? with
  | some e => if e.arity = ar then some e.store else none
  | none => none

/-- The derived contents of a relation; no rows when it is not declared. -/
def view (id : ℕ) : Dafsa :=
  match db.rels[id]? with
  | some e => e.store.view
  | none => Dafsa.create

/-- The stored facts of a relation; no rows when it is not declared. -/
def base (id : ℕ) : Dafsa :=
  match db.rels[id]? with
  | some e => e.store.base
  | none => Dafsa.create

/-- Change the store of one relation. -/
def updStore (id : ℕ) (f : Store → Store) : Db :=
  { db with rels := db.rels.modify id fun e => { e with store := f e.store } }

/-- `rel_add` on a relation of the database. -/
def addTuple (id : ℕ) (row : Row) : Db := db.updStore id (Store.add row)

/-- `dl_db_get_perm`, `dl_db_get_perm_rel`: a permutation index of a relation. -/
def getPerm (relId permId : ℕ) : Option PermIndexEntry :=
  match db.perms[permId]? with
  | some pe => if pe.relId = relId then some pe else none
  | none => none

/-- `permindex_mark_dirty`. -/
def permMarkDirty (relId : ℕ) : Db :=
  { db with perms := db.perms.map fun pe =>
      if pe.relId = relId then { pe with dirty := true } else pe }

/-- `permindex_build`: the permuted rows of the relation's view. -/
def permBuild (pe : PermIndexEntry) : PermIndexEntry :=
  match db.relAtArityRo pe.relId pe.arity with
  | none => { pe with pidx := Dafsa.create, dirty := false }
  | some s =>
    { pe with
      pidx := Dafsa.ofRows ((s.view.scan []).map (permRow pe.perm pe.arity)), dirty := false }

/-- `permindex_build_dirty`. -/
def permBuildDirty : Db :=
  { db with perms := db.perms.map fun pe => if pe.dirty then db.permBuild pe else pe }

end Db

end DatalogDafsa
