import DatalogDafsa.AtomicRun
import DatalogDafsa.Catalog.ReopenSound

/-!
# The database directory

A relation is found by its name, in the list of relations and in the directory: its files
are `name.dafsa`, `name.base.dafsa` and `name.wal`, its line in `rels.txt` starts with the
name, and so do its records in `txn.wal`.  Nothing keeps two names from sharing a file, or
a name from being read back as something else.

Opening reads the list, declares its relations one by one and replays the transaction log;
what the list does not give back is not there.

The tuples of a variadic relation are not kept; what is written to the files of its
variants is an input, and so is the mark it gets in `rels.txt`.  A missing file reads as
an empty one, and the operations on one relation are those of `Durable`, given its files.

## Main definitions

* `Rel`, `St` — a relation that is open, and the database with its directory.
* `St.update` — an operation on one relation.
* `dlOpen`, `St.replayTxnWal`, `St.dlClose` — opening, its last part, and closing.
* `step`, `run` — the events of `Atomic`, on a directory.
* `St.abs` — the store that a directory stands for.
* `NamesOk`, `SafeRun` — names that can be read back and share no file; the condition on
  the events of a run.
-/

namespace DatalogDafsa.Directory

open SetLog (Rec)
open Catalog (Name RelEntry Part DbFile MetaLine GoodName dbFiles readRelsTxt)
open Kinds (Definite)
open Durable TxnLog
open TxnWal (Bytes header)
open Atomic (Event CasEnd CommitEnd Buffer casCut saveOnly opAllowed declared)

/-! ## Relations and files -/

/-- An entry of the list, with what is open of it. -/
structure Rel where
  /-- The entry. -/
  entry : RelEntry
  /-- The recorded kinds. -/
  kinds : List (Option Definite)
  /-- The open relation, when it is fixed. -/
  mem : Relation
  /-- `vrel_any_idb`, when it is variadic. -/
  anyIdb : Bool

/-- Its mark in `rels.txt`. -/
def Rel.idb (r : Rel) : Bool := if r.entry.Variadic then r.anyIdb else r.mem.store.isIdb

/-- Its line in `rels.txt`. -/
def Rel.line (r : Rel) : MetaLine := ⟨r.entry.name, r.entry.arity, r.idb, r.kinds⟩

/-- The fixed relation of an entry, as a part with files. -/
def Rel.part (r : Rel) : Part := ⟨r.entry, 0⟩

/-- An open database and its directory. -/
structure St where
  /-- The relations. -/
  rels : List Rel
  /-- `rels.txt` is stale. -/
  metaDirty : Bool
  /-- The files of the automata, by path. -/
  automata : Name → Dafsa
  /-- The logs of the relations, by path, oldest record first. -/
  logs : Name → List (Rec Row)
  /-- The text of `rels.txt`. -/
  relsTxt : List Char
  /-- The bytes of `txn.wal`. -/
  txnLog : Bytes

/-- The list of the relations. -/
def St.entries (st : St) : List RelEntry := st.rels.map Rel.entry

/-- The fixed relation of a name. -/
def findFixed (rels : List Rel) (n : RelName) : Option Rel :=
  if RelName.ofName n.name = n then
    (rels.find? fun r => r.entry.name = n.name).filter fun r => ¬ r.entry.Variadic
  else none

/-- Every fixed relation. -/
def St.fixed (st : St) : List RelName :=
  (st.rels.filter fun r => ¬ r.entry.Variadic).map fun r => .ofName r.entry.name

/-- The files of a part, with a mark. -/
def St.files (st : St) (p : Part) (idb : Bool) : RelFiles where
  dafsa := st.automata (DbFile.dafsa p).path
  baseDafsa := st.automata (DbFile.base p).path
  wal := st.logs (DbFile.wal p).path
  idb := idb

/-- The mark that the next open reads. -/
def St.mark (st : St) (name : Name) : Bool :=
  ((readRelsTxt st.relsTxt).find? fun m => m.name = name).any MetaLine.idb

/-- A relation with its files. -/
def St.relState (st : St) (r : Rel) : RelState := ⟨r.mem, st.files r.part (st.mark r.entry.name)⟩

/-- A relation that nothing was ever written to. -/
def blank : RelState := ⟨openWritable .none, .none⟩

/-- The relation of a name with its files; one that is not declared has none. -/
def St.get (st : St) (n : RelName) : RelState := ((findFixed st.rels n).map st.relState).getD blank

/-- Write the files of a part. -/
def St.writeFiles (st : St) (p : Part) (f : RelFiles) : St :=
  { st with
    automata := Function.update (Function.update st.automata (DbFile.dafsa p).path f.dafsa)
      (DbFile.base p).path f.baseDafsa
    logs := Function.update st.logs (DbFile.wal p).path f.wal }

/-- Replace an open relation. -/
def setMem (e : RelEntry) (m : Relation) (r : Rel) : Rel :=
  if r.entry = e then { r with mem := m } else r

/-- An operation on the relation of a name and on its files. -/
def St.update (st : St) (n : RelName) (f : RelState → RelState) : St :=
  match findFixed st.rels n with
  | none => st
  | some r =>
    let s := f (st.relState r)
    { st.writeFiles r.part s.files with rels := st.rels.map (setMem r.entry s.mem) }

/-- `writeRelsTxt`. -/
def St.writeRelsTxt (st : St) : St :=
  { st with relsTxt := Catalog.writeRelsTxt (st.rels.map Rel.line) }

/-! ## Opening and closing -/

/-- A relation as its declaration opens it. -/
def St.newRel (st : St) (e : RelEntry) (idb : Bool) : Rel :=
  ⟨e, List.replicate e.arity none, openWritable (st.files ⟨e, 0⟩ idb), idb⟩

/-- `dlDeclareRelationKind`, with what it does to the database. -/
def St.declareKind (st : St) (e : RelEntry) (idb opens fromMeta : Bool) : St :=
  if (declared st.entries e opens).length = st.entries.length then st
  else
    let st := { st with rels := st.rels ++ [st.newRel e idb] }
    if fromMeta then st else { st.writeRelsTxt with metaDirty := true }

/-- The kinds of a line, noted for the relation it names. -/
def noteLine (m : MetaLine) (r : Rel) : Rel :=
  if r.entry.name = m.name ∧ ¬ r.entry.Variadic then
    { r with kinds := Catalog.noteAll m.kinds r.kinds }
  else r

/-- One line of the list at open. -/
def openLine (st : St) (m : MetaLine) : St :=
  let st := st.declareKind ⟨m.name, m.arity⟩ m.idb true true
  if m.arity = 0 then st else { st with rels := st.rels.map (noteLine m) }

/-- `txnReplayCb` on each of the committed records. -/
def St.txnReplay (st : St) (es : List (RelName × Rec Row)) : St :=
  es.foldl (fun st e => st.update e.1 fun s => txnReplayRel s e.2) st

/-- The compaction of each relation that they touched. -/
def St.compactTouched (st : St) (es : List (RelName × Rec Row)) : St :=
  (st.fixed.filter fun n => es.any fun e => e.1 = n).foldl (fun st n => st.update n relCompact) st

section Steps

variable (crc : Bytes → UInt32)

/-- `replayTxnWal`; a log that cannot be replayed whole is left for a later open. -/
def St.replayTxnWal (st : St) : St :=
  match TxnLog.replayTxnWal crc st.entries st.txnLog with
  | (es, true, log) => (St.txnReplay { st with txnLog := log } es).compactTouched es
  | (es, false, log) => St.txnReplay { st with txnLog := log } es

/-- `dlOpenCommon`. -/
def dlOpen (automata : Name → Dafsa) (logs : Name → List (Rec Row)) (relsTxt : List Char)
    (txnLog : Bytes) : St :=
  ((readRelsTxt relsTxt).foldl openLine ⟨[], false, automata, logs, relsTxt, txnLog⟩).replayTxnWal
    crc

/-- Open what is on disk. -/
def St.reopen (st : St) : St := dlOpen crc st.automata st.logs st.relsTxt st.txnLog

/-- `dl_close`. -/
def St.dlClose (st : St) : St :=
  let st := st.fixed.foldl (fun st n => st.update n closeRel) st
  if st.metaDirty then st.writeRelsTxt else st

/-- The base facts of a relation of the list. -/
def St.base (st : St) (name : Name) : Option Dafsa :=
  (findFixed st.rels (.ofName name)).map fun r => r.mem.store.base

/-! ## Events -/

/-- Fold the overlay in. -/
def flush (s : RelState) : RelState := { s with mem := s.mem.overlayFlush }

/-- An operation that succeeds. -/
def St.op (st : St) : Op → Option St
  | .addFact n r fired => if n.name = revName then none else some (st.update n (dlAddFact r fired))
  | .deleteFact n r => if n.name = revName then none else some (st.update n (dlDeleteFact r))
  | .casRevision e expected new fired =>
    if expected = new then some st
    else if revGet (st.get .rev) e = expected then
      some (st.update .rev (casApply e expected new fired))
    else none
  | .loadFacts n rows => some (st.update n (dlLoadFacts rows))
  | .txnCommit _ => none
  | .consolidate heads =>
    let st := st.fixed.foldl (fun st n => st.update n flush) st
    some (heads.foldl (fun st h => st.update h.1 (evalHead h.2)) st)
  | .compact n => some (st.update n relCompact)
  | .writeMeta dirty => some { st.writeRelsTxt with metaDirty := dirty }
  | .markMeta dirty => some { st with metaDirty := dirty }

/-- Commit step (b): does a buffered CAS still meet its expected revision? -/
def St.casCurrent (st : St) : TxnOp → Bool
  | .cas e expected _ => revGet (st.get .rev) e = expected
  | _ => true

/-- The read of `revGet` in step (b). -/
def St.casRead (st : St) : TxnOp → St
  | .cas _ _ _ => st.update .rev flush
  | _ => st

/-- Commit step (e): apply one buffered operation. -/
def St.txnApply (st : St) (op : TxnOp × Bool) : St :=
  match op.1 with
  | .cas e expected next =>
    (st.update .rev (deleteFactApply [e, expected])).update .rev (addFactApply [e, next] op.2)
  | .add n r => st.update (.rel n) (addFactApply r op.2)
  | .del n r => st.update (.rel n) (deleteFactApply r)

/-- The database after `n` changes, and perhaps in the compaction of the next. -/
def St.appliedTo (st : St) (ops : List (TxnOp × Bool)) (n : ℕ) (saving : Bool) : St :=
  let st := (ops.take n).foldl St.txnApply st
  match saving, ops[n]? with
  | true, some op => (st.txnApply (op.1, false)).update op.1.rel saveOnly
  | _, _ => st

/-- Open again, if the process died. -/
def settle (crash : Bool) (st : St) : St := if crash then st.reopen crc else st

/-- `dl_txn_commit`, as far as it gets. -/
def St.commit (st : St) (b : Buffer) : CommitEnd → Option St
  | .refused n => some (((b.ops.take n).map Prod.fst).foldl St.casRead st)
  | ends =>
    if b.ops.all fun op => st.casCurrent op.1 then
      let total := (commitBytes crc b.records).length
      let checked := (b.ops.map Prod.fst).foldl St.casRead st
      match ends with
      | .refused _ => none
      | .torn n crash =>
        if n < total ∨ commitWhole b.records = false then
          (commitLog crc st.txnLog b.records n).map fun log =>
            settle crc crash { checked with txnLog := log }
        else none
      | .marked crash =>
        if commitWhole b.records then
          (commitLog crc st.txnLog b.records total).map fun log =>
            settle crc crash { checked with txnLog := log }
        else none
      | .applied n saving =>
        if commitWhole b.records then
          (commitLog crc st.txnLog b.records total).map fun log =>
            settle crc true (St.appliedTo { checked with txnLog := log } b.ops n saving)
        else none
      | .done =>
        if commitWhole b.records then
          (commitLog crc st.txnLog b.records total).map fun log =>
            b.ops.foldl St.txnApply { checked with txnLog := log }
        else none
    else none

/-- Other kinds, one for each column. -/
def setKinds (n : Name) (kinds : List (Option Definite)) (r : Rel) : Rel :=
  if r.entry.name = n ∧ kinds.length = r.kinds.length then { r with kinds := kinds } else r

/-- Another mark of a variadic relation. -/
def setAnyIdb (e : RelEntry) (idb : Bool) (r : Rel) : Rel :=
  if r.entry = e then { r with anyIdb := idb } else r

/-- One event; none when it cannot happen. -/
def step (st : St) : Event → Option St
  | .op o => if opAllowed st.entries o then st.op o else none
  | .cas e expected next ends =>
    if expected = next ∨ arityOf st.entries .rev ≠ some 2 then none
    else if ends ≠ .refused ∧ revGet (st.get .rev) e ≠ expected then none
    else some (settle crc ends.crashes (st.update .rev (casCut e expected next ends)))
  | .commit b ends =>
    if b.records.all fun r => ChangeOk st.entries r then st.commit crc b ends else none
  | .declare e opens => some (st.declareKind e false opens false)
  | .setKinds n kinds => some { st with rels := st.rels.map (setKinds n kinds) }
  | .variant p files =>
    if p ∈ Catalog.parts st.entries ∧ p.rel.Variadic then
      some { st.writeFiles p files with rels := st.rels.map (setAnyIdb p.rel files.idb) }
    else none
  | .close => some (st.dlClose.reopen crc)
  | .crash => some (st.reopen crc)

/-- A run: every event happens. -/
def run (st : St) (es : List Event) : Option St := es.foldlM (step crc) st

/-- A directory nothing was ever written to. -/
def fresh : St := ⟨[], false, fun _ => .create, fun _ => [], [], header crc⟩

/-! ## The store behind a directory -/

/-- The store that a directory stands for: the relations by name, and the committed records
that an open would replay. -/
def St.abs (st : St) : Atomic.St where
  db :=
    { rels := st.get
      txnWal := (TxnLog.replayTxnWal crc st.entries st.txnLog).1
      metaDirty := st.metaDirty }
  entries := st.entries
  log := st.txnLog

end Steps

/-- Names that are read back, and whose files are their own. -/
structure NamesOk (entries : List RelEntry) : Prop where
  /-- `rels.txt` can hold them. -/
  good : ∀ e ∈ entries, GoodName e.name
  /-- They are C strings. -/
  bytes : ∀ e ∈ entries, IsCString e.name
  /-- Two paths without a slash are two files. -/
  slash : ∀ e ∈ entries, '/' ∉ e.name
  /-- The paths are distinct. -/
  apart : ((dbFiles entries).map DbFile.path).Nodup

theorem namesOk_iff (entries : List RelEntry) :
    ((∀ e ∈ entries, GoodName e.name) ∧ (∀ e ∈ entries, IsCString e.name) ∧
      (∀ e ∈ entries, '/' ∉ e.name) ∧ ((dbFiles entries).map DbFile.path).Nodup) ↔
        NamesOk entries :=
  ⟨fun h => ⟨h.1, h.2.1, h.2.2.1, h.2.2.2⟩, fun h => ⟨h.good, h.bytes, h.slash, h.apart⟩⟩

instance (entries : List RelEntry) : Decidable (NamesOk entries) :=
  decidable_of_iff _ (namesOk_iff entries)

variable (crc : Bytes → UInt32)

/-- **The condition on an event**, a condition on the directory before it and on where the
call ends: that of `Atomic` on the store behind it, and a declaration leaves names that are
right. -/
def Safe (st : St) (ev : Event) : Prop :=
  Atomic.Safe (st.abs crc) ev ∧ ∀ e opens, ev = .declare e opens →
    NamesOk (declared st.entries e opens)

/-- Every event of a run is safe in the directory it happens in. -/
def SafeRun (st : St) : List Event → Prop
  | [] => True
  | ev :: es => Safe crc st ev ∧ ∀ st', step crc st ev = some st' → SafeRun st' es

end DatalogDafsa.Directory
