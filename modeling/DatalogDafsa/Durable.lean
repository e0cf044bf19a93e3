import DatalogDafsa.Catalog.Declare
import DatalogDafsa.Lib.SetLog
import DatalogDafsa.Relation

/-!
# One relation on disk, and what reopening reads

The stored facts of a relation are spread over three places: the base automaton's
file, a write-ahead log of the relation, and one transaction log of the whole
store.  A direct write is appended to the relation's log, a committed transaction
to the transaction log only, and a bulk load is saved into the base file and
logged nowhere.  Compaction saves the base and empties the relation's log; the
transaction log is emptied at the next open only.  Opening replays the relation
logs first and the transaction log last.

Which file holds the base depends on the split: an aliased relation is saved to
`name.dafsa`, a split one to `name.base.dafsa` (its view goes to `name.dafsa`),
and the file *read* at open is the one `rels.txt` names.

The threshold compaction depends on byte sizes of the automaton, so whether it
fires is an input of each write.  Input/output never fails here.

In a `Db` every relation has its own files, and a name that is not declared is a relation
without facts.  `Directory` has the list of relations, the files by path and the text of
`rels.txt`, and is seen as a `Db` as long as its names are in order.

## Main definitions

* `RelName` — a relation, by its name.
* `RelFiles`, `RelState`, `Db` — the files of a relation, the relation with its
  files, the store.
* `Op`, `step` — the operations, and one step.
* `dlOpen`, `dlClose` — `dlOpenCommon` with `replayTxnWal`, and `dl_close`.
* `Op.records` — what the operations mean, as a log of set updates.
-/

namespace DatalogDafsa.Durable

open SetLog (Rec)
open Catalog (Name)

/-- Relations, by name; `rev` is the reserved one. -/
inductive RelName
  /-- The revision relation of `dl_cas_revision`, of arity 2. -/
  | rev
  /-- A relation the user or a rule declared. -/
  | rel (n : Name)
  deriving DecidableEq

/-- The name of the revision relation. -/
def revName : Name := ['r', 'e', 'v']

/-- The name of a relation. -/
def RelName.name : RelName → Name
  | .rev => revName
  | .rel n => n

/-- The relation of a name. -/
def RelName.ofName (n : Name) : RelName := if n = revName then .rev else .rel n

@[simp] theorem RelName.name_ofName (n : Name) : (RelName.ofName n).name = n := by
  unfold RelName.ofName
  split
  · rename_i h
    exact h.symm
  · rfl

theorem RelName.ofName_inj {m n : Name} (h : RelName.ofName m = RelName.ofName n) : m = n := by
  simpa using congrArg RelName.name h

/-- The files of one relation, and its line in `rels.txt`. -/
structure RelFiles where
  /-- `name.dafsa`. -/
  dafsa : Dafsa
  /-- `name.base.dafsa`; a missing file reads as empty. -/
  baseDafsa : Dafsa
  /-- `name.wal`, oldest record first. -/
  wal : List (Rec Row)
  /-- The `edb|idb` field of the line: is it `idb`? -/
  idb : Bool

/-- One relation: in memory, and on disk. -/
structure RelState where
  /-- The open relation. -/
  mem : Relation
  /-- Its files. -/
  files : RelFiles

/-- The store: its relations and the transaction log. -/
structure Db where
  /-- The relations, by name. -/
  rels : RelName → RelState
  /-- `txn.wal`: the records of the committed transactions, oldest first. -/
  txnWal : List (RelName × Rec Row)
  /-- `rels.txt` is stale. -/
  metaDirty : Bool

/-- Replace one relation of the store. -/
def Db.setRel (db : Db) (n : RelName) (s : RelState) : Db :=
  { db with rels := Function.update db.rels n s }

/-! ## Replay and compaction -/

/-- `walReplayCb`: apply one record to the base. -/
def walApply (d : Dafsa) : Rec Row → Dafsa
  | .add r => d.add r
  | .del r => d.delete r

/-- `rel_wal_replay_into`: apply the records in append order. -/
def walReplay (log : List (Rec Row)) (d : Dafsa) : Dafsa := log.foldl walApply d

/-- The file the base is read from at open. -/
def RelFiles.baseFile (f : RelFiles) : Dafsa := if f.idb then f.baseDafsa else f.dafsa

/-- `rel_save_base`, at the path the in-memory split selects. -/
def RelFiles.saveBase (f : RelFiles) (s : Store) : RelFiles :=
  if s.isIdb then { f with baseDafsa := s.base } else { f with dafsa := s.base }

/-- `rel_open_writable`, or `rel_open_writable_idb` when `rels.txt` says `idb`. -/
def openWritable (f : RelFiles) : Relation where
  store :=
    if f.idb then .split (walReplay f.wal f.baseDafsa) f.dafsa
    else .aliased (walReplay f.wal f.dafsa)
  ov := .init 0
  dirty := !f.wal.isEmpty

/-- `rel_compact`: flush the overlay, save the base, empty the log. -/
def relCompact (s : RelState) : RelState :=
  let m := s.mem.overlayFlush
  { mem := m, files := { s.files.saveBase m.store with wal := [] } }

/-- `maybeCompact`, when the throttled size check fired. -/
def maybeCompact (fired : Bool) (s : RelState) : RelState :=
  if fired then relCompact s else s

/-! ## The operations on one relation -/

/-- `addFactApply`: the overlay, then the compaction threshold. -/
def addFactApply (r : Row) (fired : Bool) (s : RelState) : RelState :=
  maybeCompact fired { s with mem := s.mem.overlayAdd r }

/-- `deleteFactApply`. -/
def deleteFactApply (r : Row) (s : RelState) : RelState :=
  { s with mem := s.mem.overlayFlush.deleteBase r }

/-- `rel_wal_append_add` and `rel_wal_append_del`. -/
def walAppend (e : Rec Row) (s : RelState) : RelState :=
  { s with files := { s.files with wal := s.files.wal ++ [e] } }

/-- `dl_add_fact`: a row the view already has is a duplicate. -/
def dlAddFact (r : Row) (fired : Bool) (s : RelState) : RelState :=
  if s.mem.exact r then s else addFactApply r fired (walAppend (.add r) s)

/-- `dl_delete_fact`: a row the view does not have is absent. -/
def dlDeleteFact (r : Row) (s : RelState) : RelState :=
  if s.mem.exact r then
    deleteFactApply r (walAppend (.del r) { s with mem := s.mem.overlayFlush })
  else s

/-- `dl_load_facts`: rebuild the base with the rows of the file, save it. -/
def dlLoadFacts (rows : List Row) (s : RelState) : RelState :=
  let store := s.mem.store.buildBase (s.mem.store.base.keys ++ rows)
  { mem := { s.mem with store := store, dirty := true }, files := s.files.saveBase store }

/-- `revGet`: the revision of an entity, `0` when it has none.  The read folds the
overlay in. -/
def revGet (s : RelState) (e : Val) : Val :=
  match s.mem.overlayFlush.store.view.scan [e] with
  | r :: _ => r.getD 1 0
  | [] => 0

/-- `dl_cas_revision`, once the current revision is the expected one. -/
def casApply (e expected new : Val) (fired : Bool) (s : RelState) : RelState :=
  let s₁ := walAppend (.del [e, expected]) { s with mem := s.mem.overlayFlush }
  let s₂ : RelState := { s₁ with mem := s₁.mem.deleteBase [e, expected] }
  addFactApply [e, new] fired (walAppend (.add [e, new]) s₂)

/-- The head views an evaluation leaves: split, reset, replaced. -/
def evalHead (rows : List Row) (s : RelState) : RelState :=
  { s with mem := { s.mem with store := s.mem.store.resetView.buildView rows, dirty := true } }

/-! ## The operations on the store -/

/-- One buffered operation of a transaction. -/
inductive TxnOp
  /-- `dl_txn_cas`. -/
  | cas (e expected next : Val)
  /-- `dl_txn_add_fact`; the reserved relation is refused. -/
  | add (n : Name) (r : Row)
  /-- `dl_txn_delete_fact`. -/
  | del (n : Name) (r : Row)
  deriving DecidableEq

/-- The records a buffered operation appends to `txn.wal`. -/
def TxnOp.records : TxnOp → List (RelName × Rec Row)
  | .cas e expected next => [(.rev, .del [e, expected]), (.rev, .add [e, next])]
  | .add n r => [(.rel n, .add r)]
  | .del n r => [(.rel n, .del r)]

/-- Commit step (e): apply one buffered operation in memory. -/
def txnApply (db : Db) (op : TxnOp × Bool) : Db :=
  match op.1 with
  | .cas e expected next =>
    let db := db.setRel .rev (deleteFactApply [e, expected] (db.rels .rev))
    db.setRel .rev (addFactApply [e, next] op.2 (db.rels .rev))
  | .add n r => db.setRel (.rel n) (addFactApply r op.2 (db.rels (.rel n)))
  | .del n r => db.setRel (.rel n) (deleteFactApply r (db.rels (.rel n)))

/-- Commit step (b): does a buffered CAS still meet its expected revision? -/
def casCurrent (db : Db) : TxnOp → Bool
  | .cas e expected _ => revGet (db.rels .rev) e = expected
  | _ => true

/-- The read of `revGet` in steps (b): a buffered CAS folds the overlay in. -/
def casRead (db : Db) : TxnOp → Db
  | .cas _ _ _ =>
    db.setRel .rev { db.rels .rev with mem := (db.rels .rev).mem.overlayFlush }
  | _ => db

/-- `dl_txn_commit`: validate, log, apply in buffer order. -/
def dlTxnCommit (ops : List (TxnOp × Bool)) (db : Db) : Option Db :=
  if ops.all (fun op => casCurrent db op.1) then
    let db := (ops.map Prod.fst).foldl casRead db
    let db := { db with txnWal := db.txnWal ++ ops.flatMap (fun op => op.1.records) }
    some (ops.foldl txnApply db)
  else none

/-- `txnReplayCb` on the relation a record names: update its base. -/
def txnReplayRel (s : RelState) : Rec Row → RelState
  | .add r => { s with mem := s.mem.addBase r }
  | .del r => { s with mem := s.mem.deleteBase r }

/-- `txnReplayCb`: apply one record of the transaction log. -/
def txnReplayRec (rels : RelName → RelState) (e : RelName × Rec Row) : RelName → RelState :=
  Function.update rels e.1 (txnReplayRel (rels e.1) e.2)

/-- `dlOpenCommon`: open every relation, then `replayTxnWal`: replay the committed
records, compact each relation they touched, and empty the transaction log. -/
def dlOpen (files : RelName → RelFiles) (txnWal : List (RelName × Rec Row)) : Db :=
  let opened : RelName → RelState := fun n => ⟨openWritable (files n), files n⟩
  let replayed := txnWal.foldl txnReplayRec opened
  { rels := fun n =>
      if txnWal.any (fun e => decide (e.1 = n)) then relCompact (replayed n) else replayed n
    txnWal := []
    metaDirty := false }

/-- `writeRelsTxt`: record the current split of every relation. -/
def writeRelsTxt (db : Db) : Db :=
  { db with rels := fun n =>
      { db.rels n with
        files := { (db.rels n).files with idb := (db.rels n).mem.store.isIdb } } }

/-- The save sweep of `dl_close` on one relation. -/
def closeRel (s : RelState) : RelState :=
  if s.mem.dirty then
    let c := relCompact s
    if c.mem.store.isIdb then { c with files := { c.files with dafsa := c.mem.store.view } }
    else c
  else s

/-- `dl_close`: compact every dirty relation, then rewrite a stale `rels.txt`. -/
def dlClose (db : Db) : Db :=
  let db' := { db with rels := fun n => closeRel (db.rels n) }
  if db.metaDirty then writeRelsTxt db' else db'

/-- The operations of a store between opening and closing it. -/
inductive Op
  /-- `dl_add_fact`. -/
  | addFact (n : RelName) (r : Row) (fired : Bool)
  /-- `dl_delete_fact`. -/
  | deleteFact (n : RelName) (r : Row)
  /-- `dl_cas_revision`. -/
  | casRevision (e expected new : Val) (fired : Bool)
  /-- `dl_load_facts`, with the rows the file parses to. -/
  | loadFacts (n : RelName) (rows : List Row)
  /-- A committed transaction. -/
  | txnCommit (ops : List (TxnOp × Bool))
  /-- A consolidation: flush every overlay, then leave these head views. -/
  | consolidate (heads : List (RelName × List Row))
  /-- A threshold compaction of one relation. -/
  | compact (n : RelName)
  /-- `rels.txt` is rewritten; is it taken for stale after that? -/
  | writeMeta (dirty : Bool)
  /-- `rels.txt` is marked as stale, or the mark is taken back. -/
  | markMeta (dirty : Bool)

/-- One operation; `none` when it reports an error or a conflict. -/
def step (db : Db) : Op → Option Db
  | .addFact n r fired =>
    if n.name = revName then none else some (db.setRel n (dlAddFact r fired (db.rels n)))
  | .deleteFact n r =>
    if n.name = revName then none else some (db.setRel n (dlDeleteFact r (db.rels n)))
  | .casRevision e expected new fired =>
    if expected = new then some db
    else if revGet (db.rels .rev) e = expected then
      some (db.setRel .rev (casApply e expected new fired (db.rels .rev)))
    else none
  | .loadFacts n rows => some (db.setRel n (dlLoadFacts rows (db.rels n)))
  | .txnCommit ops => dlTxnCommit ops db
  | .consolidate heads =>
    let db := { db with rels := fun n =>
      { db.rels n with mem := (db.rels n).mem.overlayFlush } }
    some (heads.foldl (fun db h => db.setRel h.1 (evalHead h.2 (db.rels h.1))) db)
  | .compact n => some (db.setRel n (relCompact (db.rels n)))
  | .writeMeta dirty => some { writeRelsTxt db with metaDirty := dirty }
  | .markMeta dirty => some { db with metaDirty := dirty }

/-- The files of a relation nothing was ever written to. -/
def RelFiles.none : RelFiles := ⟨.create, .create, [], false⟩

/-- A directory nothing was ever written to. -/
def fresh : Db := dlOpen (fun _ => .none) []

/-! ## What the operations mean -/

/-- The set updates an operation stands for, in order. -/
def Op.records : Op → List (RelName × Rec Row)
  | .addFact n r _ => [(n, .add r)]
  | .deleteFact n r => [(n, .del r)]
  | .casRevision e expected new _ =>
    if expected = new then [] else [(.rev, .del [e, expected]), (.rev, .add [e, new])]
  | .loadFacts n rows => rows.map (fun r => (n, .add r))
  | .txnCommit ops => ops.flatMap (fun op => op.1.records)
  | _ => []

/-- The records about one relation. -/
def recsOf (n : RelName) (log : List (RelName × Rec Row)) : List (Rec Row) :=
  log.filterMap (fun e => if e.1 = n then some e.2 else none)

end DatalogDafsa.Durable
