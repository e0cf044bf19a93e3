import DatalogDafsa.BaseSet
import DatalogDafsa.Catalog.RelsTxt
import DatalogDafsa.TxnLog

/-!
# Commits and revisions that are cut short

`dl_txn_commit` checks the buffered revisions, appends its records and a marker to the
transaction log, and then changes the relations in memory.  `dl_cas_revision` appends
two records to the log of the revision relation, the old row out and the new row in,
with nothing to hold them together.  Either can stop at any byte: the process dies and
the directory is opened again, or the call returns an error and the process goes on.

The record of a relation's log is written by the automaton engine, whose replay drops
a record that is not whole.

The store is a `Db`, in which each relation has its own files, with the list of the
relations that are declared and the bytes of the transaction log.

## Main definitions

* `St`, `openStore` — the store with the bytes of its transaction log; opening it.
* `CasEnd`, `CommitEnd`, `Event`, `step`, `run` — where the two calls end, and runs.
* `Event.records`, `history` — what a call that ended has changed: all or nothing.
* `SafeRun` — no revision is cut between its records, and no call fails after its
  records or its marker are whole.
* `StOk` — a store in order, against a history.
-/

namespace DatalogDafsa.Atomic

open SetLog (Rec)
open Catalog (Name RelEntry Part)
open Kinds (Definite)
open Durable TxnLog
open TxnWal (Bytes header)
open BaseSet (asserted mem_asserted)

/-- A store, the list of its relations and the bytes of its `txn.wal`; `db.txnWal` lists
what is committed in it. -/
structure St where
  /-- The relations, and the committed records. -/
  db : Db
  /-- The list of the relations. -/
  entries : List RelEntry
  /-- The file. -/
  log : Bytes

/-! ## Where a call ends -/

/-- How `dl_cas_revision` ends when it does not succeed. -/
inductive CasEnd
  /-- With a conflict, or an error before it appends anything. -/
  | refused
  /-- The process dies before the record of the old row is whole. -/
  | before
  /-- Before the record of the new row is whole: the process dies, or an error. -/
  | between (crash : Bool)
  /-- After it: the process dies, or an error. -/
  | after (crash : Bool)
  /-- The process dies in a compaction, the base saved and the log not yet emptied. -/
  | saved
  deriving DecidableEq

/-- How `dl_txn_commit` ends. -/
inductive CommitEnd
  /-- With a conflict or an error before it appends anything, after some checks. -/
  | refused (checked : ℕ)
  /-- After `n` bytes, the marker not whole: the process dies, or an error. -/
  | torn (n : ℕ) (crash : Bool)
  /-- After the marker: the process dies, or an error of `txnwal_sync`. -/
  | marked (crash : Bool)
  /-- The process dies after some changes in memory, perhaps in the compaction of the
  next, its base saved and its log not yet emptied. -/
  | applied (n : ℕ) (saving : Bool)
  /-- With success. -/
  | done
  deriving DecidableEq

/-- The entity of a buffered revision. -/
def casEntity : TxnOp → Option Val
  | .cas e _ _ => some e
  | _ => none

/-- A transaction `dl_txn_cas`, `dl_txn_add_fact` and `dl_txn_delete_fact` let be
buffered, with the compactions its changes run into. -/
structure Buffer where
  /-- The operations. -/
  ops : List (TxnOp × Bool)
  /-- An entity is revised once. -/
  cas_once : (ops.filterMap fun op => casEntity op.1).Nodup
  /-- A revision that changes nothing is not buffered. -/
  cas_ne : ∀ op ∈ ops, ∀ e x y, op.1 = .cas e x y → x ≠ y

/-- The records of a transaction. -/
def Buffer.records (b : Buffer) : List (RelName × Rec Row) :=
  b.ops.flatMap fun op => op.1.records

/-- What happens to a store.  A call that records kinds is a `setKinds` and a
`markMeta true`, a rollback that takes them back a `setKinds` and a `writeMeta`. -/
inductive Event
  /-- An operation that succeeds; commits, closing and opening have their own events. -/
  | op (o : Op)
  /-- `dl_cas_revision`, when it does not succeed. -/
  | cas (e expected next : Val) (ends : CasEnd)
  /-- `dl_txn_commit`. -/
  | commit (b : Buffer) (ends : CommitEnd)
  /-- A declaration; can the files of a new relation be opened? -/
  | declare (e : RelEntry) (opens : Bool)
  /-- The recorded kinds of a relation. -/
  | setKinds (n : Name) (kinds : List (Option Definite))
  /-- New contents of the files of a variant; has a variant of its relation a view of its
  own now? -/
  | variant (p : Part) (files : RelFiles)
  /-- `dl_close`, then open again. -/
  | close
  /-- The process dies; then open again. -/
  | crash

section Steps

variable (crc : Bytes → UInt32)

/-- `dlOpenCommon`, with `replayTxnWal`; a log that cannot be replayed whole is left for
a later open. -/
def openStore (files : RelName → RelFiles) (entries : List RelEntry) (log : Bytes) : St :=
  match replayTxnWal crc entries log with
  | (es, true, log') => ⟨dlOpen files es, entries, log'⟩
  | (es, false, log') =>
    let opened : RelName → RelState := fun n => ⟨openWritable (files n), files n⟩
    ⟨{ rels := es.foldl txnReplayRec opened, txnWal := es, metaDirty := false }, entries, log'⟩

/-- Open what is on disk. -/
def St.reopen (st : St) : St := openStore crc (fun n => (st.db.rels n).files) st.entries st.log

/-- The revision relation where `dl_cas_revision` ends; the read of the revision has
folded the overlay in. -/
def casCut (e expected next : Val) (ends : CasEnd) (s : RelState) : RelState :=
  match ends with
  | .refused | .before => { s with mem := s.mem.overlayFlush }
  | .between _ =>
    let s₁ := walAppend (.del [e, expected]) { s with mem := s.mem.overlayFlush }
    { s₁ with mem := s₁.mem.deleteBase [e, expected] }
  | .after _ =>
    let s₁ := walAppend (.del [e, expected]) { s with mem := s.mem.overlayFlush }
    walAppend (.add [e, next]) { s₁ with mem := s₁.mem.deleteBase [e, expected] }
  | .saved =>
    let s₂ := casApply e expected next false s
    { s₂ with files := s₂.files.saveBase s₂.mem.overlayFlush.store }

/-- Does the process die? -/
def CasEnd.crashes : CasEnd → Bool
  | .refused => false
  | .before => true
  | .between crash => crash
  | .after crash => crash
  | .saved => true

/-- A compaction that saved the base and did not empty the log. -/
def saveOnly (s : RelState) : RelState :=
  { s with files := s.files.saveBase s.mem.overlayFlush.store }

/-- A change in memory whose compaction saved the base and did not empty the log. -/
def txnSaving (db : Db) (op : TxnOp × Bool) : Db :=
  let db := txnApply db (op.1, false)
  db.setRel op.1.rel (saveOnly (db.rels op.1.rel))

/-- The store after `n` changes, and perhaps in the compaction of the next. -/
def appliedTo (ops : List (TxnOp × Bool)) (n : ℕ) (saving : Bool) (db : Db) : Db :=
  let db := (ops.take n).foldl txnApply db
  match saving, ops[n]? with
  | true, some op => txnSaving db op
  | _, _ => db

/-- What an operation may be given: fixed relations of the list, with rows of their arity,
and rules do not name the revision relation.  A commit is not an operation. -/
def opAllowed (entries : List RelEntry) : Op → Bool
  | .addFact n r _ | .deleteFact n r => arityOf entries n = some r.length
  | .casRevision _ expected new _ => expected = new || arityOf entries .rev = some 2
  | .loadFacts n rows => (arityOf entries n).any fun k => rows.all fun r => r.length == k
  | .txnCommit _ => false
  | .consolidate heads => heads.all fun h => h.1 ≠ .rev && (arityOf entries h.1).isSome
  | .compact n => (arityOf entries n).isSome
  | .writeMeta _ | .markMeta _ => true

/-- Open again, if the process died. -/
def settle (crash : Bool) (st : St) : St := if crash then st.reopen crc else st

/-- The list after a declaration. -/
def declared (entries : List RelEntry) (e : RelEntry) (opens : Bool) : List RelEntry :=
  Catalog.declare entries ⟨e.name, e.arity, opens⟩

/-- `dl_txn_commit`, as far as it gets, for a buffer whose changes are those of rows of the
relations. -/
def St.commit (st : St) (b : Buffer) : CommitEnd → Option St
  | .refused n => some { st with db := ((b.ops.take n).map Prod.fst).foldl casRead st.db }
  | ends =>
    if b.ops.all fun op => casCurrent st.db op.1 then
      let total := (commitBytes crc b.records).length
      match ends with
      | .refused _ => none
      | .torn n crash =>
        if n < total ∨ commitWhole b.records = false then
          (commitLog crc st.log b.records n).map fun log =>
            settle crc crash { st with db := (b.ops.map Prod.fst).foldl casRead st.db, log }
        else none
      | .marked crash =>
        if commitWhole b.records then
          (commitLog crc st.log b.records total).map fun log =>
            settle crc crash { st with db := committed b.ops st.db, log }
        else none
      | .applied n saving =>
        if commitWhole b.records then
          (commitLog crc st.log b.records total).map fun log =>
            settle crc true { st with db := appliedTo b.ops n saving (committed b.ops st.db), log }
        else none
      | .done =>
        if commitWhole b.records then
          (commitLog crc st.log b.records total).map fun log =>
            { st with db := b.ops.foldl txnApply (committed b.ops st.db), log }
        else none
    else none

/-- One event; none when it cannot happen. -/
def step (st : St) : Event → Option St
  | .op o =>
    if opAllowed st.entries o then (Durable.step st.db o).map fun db => { st with db } else none
  | .cas e expected next ends =>
    if expected = next ∨ arityOf st.entries .rev ≠ some 2 then none
    else if ends ≠ .refused ∧ revGet (st.db.rels .rev) e ≠ expected then none
    else
      let db := st.db.setRel .rev (casCut e expected next ends (st.db.rels .rev))
      some (settle crc ends.crashes { st with db })
  | .commit b ends =>
    if b.records.all fun r => ChangeOk st.entries r then st.commit crc b ends else none
  | .declare e opens =>
    let entries := declared st.entries e opens
    if entries.length = st.entries.length then some st
    else some { st with db := { writeRelsTxt st.db with metaDirty := true }, entries }
  | .setKinds _ _ | .variant _ _ => some st
  | .close => some (St.reopen crc { st with db := dlClose st.db })
  | .crash => some (st.reopen crc)

/-- A directory nothing was ever written to. -/
def fresh : St := ⟨Durable.fresh, [], header crc⟩

end Steps

/-! ## All or nothing -/

variable {crc : Bytes → UInt32}

/-- The records of a revision. -/
def casRecords (e expected next : Val) : List (RelName × Rec Row) :=
  [(.rev, .del [e, expected]), (.rev, .add [e, next])]

/-- What an event changes when it takes effect. -/
def Event.wanted : Event → List (RelName × Rec Row)
  | .op o => o.records
  | .cas e expected next _ => casRecords e expected next
  | .commit b _ => b.records
  | _ => []

/-- Does it take effect?  A call that returns an error does not. -/
def Event.takesEffect : Event → Bool
  | .cas _ _ _ (.after died) => died
  | .cas _ _ _ .saved => true
  | .cas _ _ _ _ => false
  | .commit _ (.marked died) => died
  | .commit _ (.applied _ _) => true
  | .commit _ .done => true
  | .commit _ _ => false
  | _ => true

/-- A revision or a commit. -/
def Event.revises : Event → Bool
  | .op (.casRevision _ _ _ _) => true
  | .cas _ _ _ _ => true
  | .commit _ _ => true
  | _ => false

/-- Is it a call that succeeds, or an end of the process? -/
def Event.succeeds : Event → Bool
  | .cas _ _ _ _ => false
  | .commit _ ends => ends = .done
  | _ => true

/-- What an event changes: all of it or nothing. -/
def Event.records (ev : Event) : List (RelName × Rec Row) :=
  if ev.takesEffect then ev.wanted else []

/-- The rows of a relation after the events. -/
def history (es : List Event) (n : RelName) : Set Row :=
  SetLog.replay (recsOf n (es.flatMap Event.records)) ∅

/-- An entity that had one revision has one, and it is the old one or one that was
wanted. -/
def KeepsRevisions (H H' : Set Row) (wanted : List (RelName × Rec Row)) : Prop :=
  ∀ e v, (∀ w, [e, w] ∈ H ↔ w = v) →
    ∃ v', (∀ w, [e, w] ∈ H' ↔ w = v') ∧ (v' = v ∨ (.rev, .add [e, v']) ∈ wanted)

/-- The condition on a revision that did not succeed. -/
def CasSafe (db : Db) (e expected next : Val) : CasEnd → Prop
  | .refused | .before => True
  -- there is no old row
  | .between _ => [e, expected] ∉ asserted (db.rels .rev)
  | .after crash => crash = true ∧ Durable.Safe db (.casRevision e expected next false)
  | .saved => Durable.Safe db (.casRevision e expected next false)

/-- **The condition on an event**, a condition on the store before it and on where the
call ends; on the others it is that of a durable store.  A declared name is one that the
transaction log can hold. -/
def Safe (st : St) : Event → Prop
  | .op o => Durable.Safe st.db o
  | .cas e expected next ends => CasSafe st.db e expected next ends
  | .commit _ (.refused _) => True
  | .commit _ (.torn _ _) => True
  | .commit _ (.marked died) => died = true
  | .commit b (.applied _ _) => Durable.Safe st.db (.txnCommit b.ops)
  | .commit b .done => Durable.Safe st.db (.txnCommit b.ops)
  | .declare e opens =>
    Listed (declared st.entries e opens) ∧
      ((declared st.entries e opens).length = st.entries.length ∨
        Durable.Safe st.db (.writeMeta true))
  | .setKinds _ _ | .variant _ _ => True
  | .close => ClosesSafe st.db
  | .crash => True

/-! ## The invariant -/

/-- The revision relation: it is no head of a rule, and memory holds its history. -/
structure RevOk (s : RelState) (h : Set Row) : Prop where
  /-- Base and view are one automaton. -/
  plain : s.mem.store.isIdb = false
  /-- So it says in `rels.txt`. -/
  recorded : s.files.idb = false
  /-- The rows in memory. -/
  mem : asserted s = h
  /-- They have two columns. -/
  arity : ∀ r ∈ h, r.length = 2

variable (crc) in
/-- A store in order, against a history. -/
structure StOk (st : St) (H : RelName → Set Row) : Prop where
  /-- Relations and files. -/
  db : DbOk st.db H
  /-- The file lists what is committed. -/
  log : LogOk crc st.entries st.log st.db.txnWal
  /-- The list is one that declarations leave. -/
  accepted : Catalog.Accepted st.entries
  /-- The transaction log can hold its names. -/
  listed : Listed st.entries
  /-- Revisions. -/
  rev : RevOk (st.db.rels .rev) (H .rev)

/-- A split of the revision relation would be recorded. -/
theorem RevOk.addOk {s : RelState} {h : Set Row} (ok : RevOk s h) (r : Row) :
    BaseSet.AddOk s r := fun hview => by
  rw [Store.view_eq_base_of_not_isIdb ok.plain] at hview
  exact mem_asserted.mpr (.inr hview)

theorem isIdb_dlOpen (files : RelName → RelFiles) (log : List (RelName × Rec Row)) (n : RelName) :
    ((dlOpen files log).rels n).mem.store.isIdb = (files n).idb ∧
      ((dlOpen files log).rels n).files.idb = (files n).idb ∧
      ((dlOpen files log).rels n).mem.ov.rows = [] := by
  have hrel : (dlOpen files log).rels n =
      if log.any (fun e => decide (e.1 = n)) then
        relCompact ((log.foldl txnReplayRec fun n => ⟨openWritable (files n), files n⟩) n)
      else (log.foldl txnReplayRec fun n => ⟨openWritable (files n), files n⟩) n := rfl
  obtain ⟨hf, ho, hi, -⟩ := foldl_txnReplayRel (recsOf n log) ⟨openWritable (files n), files n⟩
  rw [← foldl_txnReplayRec log (fun n => ⟨openWritable (files n), files n⟩) n] at hf ho hi
  rw [isIdb_openWritable] at hi
  rw [hrel]
  split
  · simp [relCompact, RelFiles.saveBase, apply_ite RelFiles.idb, hf, hi]
  · exact ⟨hi, congrArg RelFiles.idb hf, congrArg TupleSet.rows ho⟩

/-- A log that is replayed whole. -/
theorem openStore_of_replay {files : RelName → RelFiles} {entries : List RelEntry}
    {log log' : Bytes} {es : List (RelName × Rec Row)} (h : replayTxnWal crc entries log = (es, true, log')) :
    openStore crc files entries log = ⟨dlOpen files es, entries, log'⟩ := by
  rw [openStore, h]

/-- **Opening a good directory** gives a good store. -/
theorem openStore_ok {files : RelName → RelFiles} {entries : List RelEntry} {log : Bytes}
    {es : List (RelName × Rec Row)} {H : RelName → Set Row} (ha : Catalog.Accepted entries)
    (hl : Listed entries) (hlog : LogOk crc entries log es)
    (hfiles : ∀ n, DiskOk (fun r => SetLog.last r (recsOf n es)) (H n) (files n))
    (hrev : (files .rev).idb = false) (harity : ∀ r ∈ H .rev, r.length = 2) :
    StOk crc (openStore crc files entries log) H ∧
      ∀ n r, r ∈ ((openStore crc files entries log).db.rels n).mem.store.base ↔ r ∈ H n := by
  obtain ⟨log', hreplay, hlog'⟩ := hlog.replay hl
  rw [openStore_of_replay hreplay]
  dsimp only
  have hbase : ∀ n r, r ∈ ((dlOpen files es).rels n).mem.store.base ↔ r ∈ H n := fun n =>
    (dlOpen_ok files (hfiles n)).2
  obtain ⟨hi, hf, hov⟩ := isIdb_dlOpen files es .rev
  refine ⟨⟨dbOk_dlOpen hfiles, hlog', ha, hl, ⟨hi.trans hrev, hf.trans hrev, ?_, harity⟩⟩, hbase⟩
  ext r
  rw [mem_asserted, hov, hbase]
  simp

/-- Opening what a good store left on disk. -/
theorem StOk.reopen {st : St} {H : RelName → Set Row} (ok : StOk crc st H) :
    StOk crc (st.reopen crc) H ∧
      ∀ n r, r ∈ ((st.reopen crc).db.rels n).mem.store.base ↔ r ∈ H n :=
  openStore_ok ok.accepted ok.listed ok.log (fun n => (ok.db n).diskOk) ok.rev.recorded
    ok.rev.arity

theorem listed_nil : Listed [] where
  ne_nil e he := by cases he
  length_le e he := by cases he
  bytes e he := by cases he
  arity_le e he := by cases he

theorem fresh_ok : StOk crc (fresh crc) fun _ => ∅ where
  db := dbOk_fresh
  log := logOk_header
  accepted := Catalog.accepted_nil
  listed := listed_nil
  rev := by
    refine ⟨rfl, rfl, ?_, fun r hr => by cases hr⟩
    have hov : ((fresh crc).db.rels .rev).mem.ov.rows = [] := rfl
    have hbase : ((fresh crc).db.rels .rev).mem.store.base.keys = [] := rfl
    ext r
    rw [mem_asserted, hov, Dafsa.mem_def, hbase]
    simp

/-- A base that is saved, its log not yet emptied: the log says the same again. -/
theorem saveBase_diskOk {t : Row → Option Bool} {h : Set Row} {s : RelState}
    (ok : RelOk t h s) :
    DiskOk t h (s.files.saveBase s.mem.overlayFlush.store) where
  txn := ok.txn
  disk r ht := by
    have hwal : (s.files.saveBase s.mem.overlayFlush.store).wal = s.files.wal := by
      unfold RelFiles.saveBase
      split <;> rfl
    rw [hwal, mem_walReplay]
    cases hl : SetLog.last r s.files.wal with
    | some b => simp [ok.last_iff ht hl]
    | none =>
      have hfile := ok.file_iff ht hl
      have hbase : r ∈ s.mem.overlayFlush.store.base ↔ r ∈ h := by
        have := ok.flush.mem r ht
        simpa using this
      unfold RelFiles.saveBase RelFiles.baseFile at *
      rw [Relation.isIdb_overlayFlush]
      cases hi : s.mem.store.isIdb <;> cases hf : s.files.idb <;> simp_all

/-! ## Revisions in memory -/

@[simp] theorem isIdb_maybeCompact (fired : Bool) (s : RelState) :
    (maybeCompact fired s).mem.store.isIdb = s.mem.store.isIdb := by
  unfold maybeCompact
  split
  · simp [relCompact]
  · rfl

@[simp] theorem idb_maybeCompact (fired : Bool) (s : RelState) :
    (maybeCompact fired s).files.idb = s.files.idb := by
  unfold maybeCompact
  split
  · simp [relCompact, RelFiles.saveBase, apply_ite RelFiles.idb]
  · rfl

/-- A row put in. -/
theorem RevOk.add {s : RelState} {h : Set Row} (ok : RevOk s h) {r : Row} (hr : r.length = 2)
    (fired : Bool) : RevOk (addFactApply r fired s) (insert r h) where
  plain := by
    rw [addFactApply, isIdb_maybeCompact, Relation.store_overlayAdd]
    exact ok.plain
  recorded := by
    rw [addFactApply, idb_maybeCompact]
    exact ok.recorded
  mem := by rw [BaseSet.asserted_addFactApply (ok.addOk r), ok.mem]
  arity x hx := by
    rcases hx with rfl | hx
    · exact hr
    · exact ok.arity x hx

/-- A row taken out. -/
theorem RevOk.del {s : RelState} {h : Set Row} (ok : RevOk s h) (r : Row) :
    RevOk (deleteFactApply r s) (h \ {r}) where
  plain := by
    rw [deleteFactApply, Relation.isIdb_deleteBase, Relation.isIdb_overlayFlush]
    exact ok.plain
  recorded := ok.recorded
  mem := by rw [BaseSet.asserted_deleteFactApply, ok.mem]
  arity x hx := ok.arity x hx.1

/-- A record appended to the log of the relation is not seen in memory. -/
theorem RevOk.walAppend {s : RelState} {h : Set Row} (ok : RevOk s h) (e : Rec Row) :
    RevOk (walAppend e s) h := ⟨ok.plain, ok.recorded, ok.mem, ok.arity⟩

theorem RevOk.flush {s : RelState} {h : Set Row} (ok : RevOk s h) :
    RevOk { s with mem := s.mem.overlayFlush } h where
  plain := by
    rw [Relation.isIdb_overlayFlush]
    exact ok.plain
  recorded := ok.recorded
  mem := by
    rw [← ok.mem]
    ext r
    simp
  arity := ok.arity

theorem RevOk.casApply {s : RelState} {h : Set Row} (ok : RevOk s h) (e expected next : Val)
    (fired : Bool) :
    RevOk (casApply e expected next fired s) (insert [e, next] (h \ {[e, expected]})) := by
  have hdel : RevOk { Durable.walAppend (.del [e, expected])
      { s with mem := s.mem.overlayFlush } with
        mem := s.mem.overlayFlush.deleteBase [e, expected] } (h \ {[e, expected]}) := by
    have := (ok.walAppend (.del [e, expected])).del [e, expected]
    exact this
  exact (hdel.walAppend (.add [e, next])).add rfl fired

/-- A change in memory. -/
theorem RevOk.txnApply {db : Db} {h : Set Row} (ok : RevOk (db.rels .rev) h)
    (op : TxnOp × Bool) :
    RevOk ((txnApply db op).rels .rev) (SetLog.replay (recsOf .rev op.1.records) h) := by
  obtain ⟨op, fired⟩ := op
  cases op with
  | cas e expected next =>
    simp only [Durable.txnApply, setRel_same]
    have := (ok.del [e, expected]).add (r := [e, next]) rfl fired
    simpa [TxnOp.records, recsOf, SetLog.apply] using this
  | add n r =>
    have hne : RelName.rev ≠ .rel n := by simp
    simp only [Durable.txnApply, setRel_of_ne _ _ hne]
    simpa [TxnOp.records, recsOf] using ok
  | del n r =>
    have hne : RelName.rev ≠ .rel n := by simp
    simp only [Durable.txnApply, setRel_of_ne _ _ hne]
    simpa [TxnOp.records, recsOf] using ok

theorem RevOk.foldl_txnApply {ops : List (TxnOp × Bool)} {db : Db} {h : Set Row}
    (ok : RevOk (db.rels .rev) h) :
    RevOk ((ops.foldl Durable.txnApply db).rels .rev)
      (SetLog.replay (recsOf .rev (ops.flatMap fun op => op.1.records)) h) := by
  induction ops generalizing db h with
  | nil => exact ok
  | cons op ops ih =>
    rw [List.foldl_cons, List.flatMap_cons, recsOf_append, SetLog.replay_append]
    exact ih (ok.txnApply op)

theorem RevOk.foldl_casRead {ops : List TxnOp} {db : Db} {h : Set Row}
    (ok : RevOk (db.rels .rev) h) : RevOk ((ops.foldl casRead db).rels .rev) h := by
  induction ops generalizing db with
  | nil => exact ok
  | cons op ops ih =>
    refine ih ?_
    cases op with
    | cas e expected next =>
      simp only [casRead, setRel_same]
      exact ok.flush
    | add n r => exact ok
    | del n r => exact ok

/-- The revision relation has two columns. -/
theorem arity_rev {entries : List RelEntry} (ha : Catalog.Accepted entries) {k : ℕ}
    (h : arityOf entries .rev = some k) : k = 2 := by
  obtain ⟨-, e, hfind, -, rfl⟩ := arityOf_eq_some.1 h
  obtain ⟨hmem, hname⟩ := Catalog.findRel_eq_some hfind
  exact ha.rev e hmem hname

/-- An operation that succeeds. -/
theorem RevOk.op {entries : List RelEntry} {db db' : Db} {o : Op} {h : Set Row}
    (ok : RevOk (db.rels .rev) h) (ha : Catalog.Accepted entries)
    (ho : opAllowed entries o = true) (hstep : Durable.step db o = some db') :
    RevOk (db'.rels .rev) (SetLog.replay (recsOf .rev o.records) h) := by
  have hother : ∀ {n : RelName} {s : RelState} {e : Rec Row}, n ≠ .rev →
      RevOk ((db.setRel n s).rels .rev) (SetLog.replay (recsOf .rev [(n, e)]) h) := by
    intro n s e hn
    rw [setRel_of_ne _ _ hn.symm, recsOf_of_ne (by simpa using hn)]
    exact ok
  cases o with
  | addFact n r fired =>
    simp only [Durable.step] at hstep
    split at hstep
    · cases hstep
    · rename_i hn
      cases hstep
      exact hother fun heq => hn (heq ▸ rfl)
  | deleteFact n r =>
    simp only [Durable.step] at hstep
    split at hstep
    · cases hstep
    · rename_i hn
      cases hstep
      exact hother fun heq => hn (heq ▸ rfl)
  | casRevision e expected new fired =>
    simp only [Durable.step] at hstep
    split at hstep
    · rename_i heq
      cases hstep
      simpa [Op.records, heq, recsOf] using ok
    · rename_i hne
      split at hstep
      · cases hstep
        rw [setRel_same]
        simpa [Op.records, hne, recsOf, SetLog.apply] using ok.casApply e expected new fired
      · cases hstep
  | loadFacts n rows =>
    cases hstep
    by_cases hn : n = .rev
    · subst hn
      rw [setRel_same]
      have hrep := advance_addAll (fun _ => h) .rev rows
      have harity : ∀ r ∈ rows, r.length = 2 := by
        intro r hr
        cases hk : arityOf entries .rev with
        | none => simp [opAllowed, hk] at ho
        | some k =>
          have hrows : ∀ r ∈ rows, r.length = k := by simpa [opAllowed, hk] using ho
          rw [hrows r hr, arity_rev ha hk]
      refine ⟨?_, ?_, ?_, ?_⟩
      · simpa [dlLoadFacts] using ok.plain
      · have := ok.plain
        have := ok.recorded
        simp_all [dlLoadFacts, RelFiles.saveBase]
      · show _ = advance (fun _ => h) _ _
        rw [Op.records, hrep, ← ok.mem]
        ext r
        rw [mem_asserted, Set.mem_union, mem_asserted]
        simp only [dlLoadFacts, Store.mem_base_buildBase, List.mem_append, Set.mem_ofPred_eq]
        have : r ∈ (db.rels .rev).mem.store.base.keys ↔ r ∈ (db.rels .rev).mem.store.base := Iff.rfl
        tauto
      · intro r hr
        rcases (hrep ▸ hr : r ∈ h ∪ {r | r ∈ rows}) with hr | hr
        · exact ok.arity r hr
        · exact harity r hr
    · rw [setRel_of_ne _ _ (Ne.symm hn), Op.records, recsOf_of_ne (by simpa using fun _ _ => hn)]
      exact ok
  | txnCommit ops => cases ho
  | consolidate heads =>
    cases hstep
    have hfold : ∀ (l : List (RelName × List Row)) (d : Db), (∀ x ∈ l, x.1 ≠ .rev) →
        (l.foldl (fun db h => db.setRel h.1 (evalHead h.2 (db.rels h.1))) d).rels .rev =
          d.rels .rev := by
      intro l
      induction l with
      | nil => exact fun d _ => rfl
      | cons x l ih =>
        intro d hl
        rw [List.foldl_cons, ih _ fun y hy => hl y (List.mem_cons_of_mem _ hy),
          setRel_of_ne _ _ (hl x (List.mem_cons_self ..)).symm]
    have hheads : ∀ x ∈ heads, x.1 ≠ .rev := by
      intro x hx
      have := List.all_eq_true.mp ho x hx
      simp only [Bool.and_eq_true] at this
      simpa using this.1
    rw [hfold heads _ hheads]
    exact ok.flush
  | compact n =>
    cases hstep
    by_cases hn : n = .rev
    · subst hn
      rw [setRel_same]
      have hflush := ok.flush
      exact ⟨hflush.plain, (idb_maybeCompact true _).trans ok.recorded,
        (BaseSet.asserted_maybeCompact true _).trans ok.mem, ok.arity⟩
    · rw [setRel_of_ne _ _ (Ne.symm hn)]
      exact ok
  | writeMeta dirty =>
    cases hstep
    exact ⟨ok.plain, ok.plain, ok.mem, ok.arity⟩
  | markMeta dirty =>
    cases hstep
    exact ok

end DatalogDafsa.Atomic
