import DatalogDafsa.DurableReplay

/-!
# Steps of a durable store

The invariant of one relation, carried to the whole store: every operation keeps it
under the condition `Safe` states on the store before the operation, a close leaves good
files, and opening good files gives a good store.

## Main results

* `DbOk` — every relation of a store is in order.
* `Safe`, `ClosesSafe` — the condition on an operation, and on a close.
* `ok_step` — a safe operation keeps the invariant.
* `diskOk_close`, `dbOk_dlOpen` — a safe close, and an open.
-/

namespace DatalogDafsa.Durable

open SetLog (Rec)

/-- What the last record of the transaction log says about a row of a relation. -/
def txnLast (db : Db) (n : RelName) (r : Row) : Option Bool :=
  SetLog.last r (recsOf n db.txnWal)

/-- Every relation of the store is in order, against a history of each. -/
def DbOk (db : Db) (H : RelName → Set Row) : Prop :=
  ∀ n, RelOk (txnLast db n) (H n) (db.rels n)

/-- The histories after some more records. -/
def advance (H : RelName → Set Row) (log : List (RelName × Rec Row)) (n : RelName) : Set Row :=
  SetLog.replay (recsOf n log) (H n)

/-! ## Records about one relation -/

theorem recsOf_of_ne {n : RelName} {log : List (RelName × Rec Row)} (h : ∀ e ∈ log, e.1 ≠ n) :
    recsOf n log = [] := by
  rw [recsOf, List.filterMap_eq_nil_iff]
  intro e he
  simp [h e he]

@[simp] theorem advance_nil (H : RelName → Set Row) : advance H [] = H := rfl

@[simp] theorem setRel_same (db : Db) (n : RelName) (s : RelState) :
    (db.setRel n s).rels n = s := Function.update_self ..

theorem setRel_of_ne (db : Db) {m n : RelName} (s : RelState) (h : m ≠ n) :
    (db.setRel n s).rels m = db.rels m := Function.update_of_ne h ..

@[simp] theorem txnWal_setRel (db : Db) (n : RelName) (s : RelState) :
    (db.setRel n s).txnWal = db.txnWal := rfl

/-- An operation on one relation leaves the others alone. -/
theorem DbOk.setRel {db : Db} {H : RelName → Set Row} {n : RelName} {s : RelState}
    {l : List (RelName × Rec Row)} (ok : DbOk db H) (hlog : ∀ e ∈ l, e.1 = n)
    (hs : RelOk (txnLast db n) (advance H l n) s) :
    DbOk (db.setRel n s) (advance H l) := fun m => by
  by_cases hm : m = n
  · subst hm
    rw [setRel_same]
    exact hs
  · have hrecs : advance H l m = H m := by
      rw [advance, recsOf_of_ne fun e he hem => hm (hem.symm.trans (hlog e he))]
      rfl
    rw [setRel_of_ne db s hm, hrecs]
    exact ok m

theorem advance_add (H : RelName → Set Row) (n : RelName) (r : Row) :
    advance H [(n, .add r)] n = insert r (H n) := by
  simp [advance, recsOf, SetLog.apply]

theorem advance_del (H : RelName → Set Row) (n : RelName) (r : Row) :
    advance H [(n, .del r)] n = H n \ {r} := by
  simp [advance, recsOf, SetLog.apply]

theorem advance_addAll (H : RelName → Set Row) (n : RelName) (rows : List Row) :
    advance H (rows.map fun r => (n, .add r)) n = H n ∪ {r | r ∈ rows} := by
  have hrecs : recsOf n (rows.map fun r => (n, Rec.add r)) = rows.map Rec.add := by
    simp [recsOf, List.filterMap_map]
  rw [advance, hrecs]
  generalize H n = s
  induction rows generalizing s with
  | nil => simp
  | cons r rows ih =>
    rw [List.map_cons, SetLog.replay_cons, ih]
    · ext x
      simp only [SetLog.apply, Set.mem_union, Set.mem_insert_iff, Set.mem_ofPred_eq, List.mem_cons]
      tauto
    · simp [recsOf, List.filterMap_map]

/-! ## Transactions -/

/-- The relation a buffered operation writes, and the rows it is about. -/
def TxnOp.rel : TxnOp → RelName
  | .cas _ _ _ => .rev
  | .add n _ => .rel n
  | .del n _ => .rel n

/-- A compaction of the relation now would keep the invariant. -/
def CompactSafe (t : Row → Option Bool) (s : RelState) : Prop :=
  Agree s ∨ RelOk.LogRedundant t s.files

theorem CompactSafe.addFactApply {t : Row → Option Bool} {s : RelState} (r : Row) (fired : Bool)
    (h : CompactSafe t s) : CompactSafe t (addFactApply r fired s) := by
  unfold Durable.addFactApply maybeCompact
  split
  · exact Or.inr fun _ _ => by simp [relCompact, walReplay]
  · exact h.imp_left fun hag => by simpa [Agree] using hag

theorem CompactSafe.deleteFactApply {t : Row → Option Bool} {s : RelState} (r : Row)
    (h : CompactSafe t s) : CompactSafe t (deleteFactApply r s) :=
  h.imp_left fun hag => by simpa [Agree, Durable.deleteFactApply] using hag

theorem CompactSafe.setRel {db : Db} {n : RelName} {s : RelState}
    (h : CompactSafe (txnLast db n) (db.rels n) → CompactSafe (txnLast db n) s)
    {m : RelName} (hm : CompactSafe (txnLast db m) (db.rels m)) :
    CompactSafe (txnLast (db.setRel n s) m) ((db.setRel n s).rels m) := by
  by_cases hmn : m = n
  · subst hmn
    rw [setRel_same]
    exact h hm
  · rw [setRel_of_ne db s hmn]
    exact hm

/-- The rows a buffered operation writes are in the log. -/
def Logged (db : Db) (op : TxnOp) : Prop :=
  ∀ e ∈ op.records, txnLast db e.1 e.2.key ≠ none

theorem logged_of_mem {db : Db} {op : TxnOp} (h : ∀ e ∈ op.records, e ∈ db.txnWal) :
    Logged db op := fun e he => by
  rw [txnLast, SetLog.last_ne_none_iff]
  exact ⟨e.2, List.mem_filterMap.mpr ⟨e, h e he, by simp⟩, rfl⟩

/-- One buffered operation applied in memory, its records already in the log. -/
theorem DbOk.txnApply {db : Db} {H : RelName → Set Row} {op : TxnOp × Bool} (ok : DbOk db H)
    (hlog : Logged db op.1)
    (hf : op.2 = true → CompactSafe (txnLast db op.1.rel) (db.rels op.1.rel)) :
    DbOk (txnApply db op) H := by
  obtain ⟨op, fired⟩ := op
  cases op with
  | cas e expected next =>
    have hdel := (ok .rev).txnDel (r := [e, expected]) (hlog (.rev, .del [e, expected]) (by
      simp [TxnOp.records]))
    have hadd := hdel.txnAdd (r := [e, next])
      (hlog (.rev, .add [e, next]) (by simp [TxnOp.records]))
      fun hfired => (hf hfired).deleteFactApply _
    have hset := DbOk.setRel (l := []) (ok.setRel (l := []) (by simp) hdel) (by simp)
      (n := .rev) (s := addFactApply [e, next] fired (deleteFactApply [e, expected] (db.rels .rev)))
      hadd
    simpa [Durable.txnApply] using hset
  | add n r =>
    exact ok.setRel (l := []) (by simp)
      ((ok (.rel n)).txnAdd (hlog (.rel n, .add r) (by simp [TxnOp.records])) hf)
  | del n r =>
    exact ok.setRel (l := []) (by simp)
      ((ok (.rel n)).txnDel (hlog (.rel n, .del r) (by simp [TxnOp.records])))

@[simp] theorem txnWal_txnApply (db : Db) (op : TxnOp × Bool) :
    (txnApply db op).txnWal = db.txnWal := by
  obtain ⟨op, fired⟩ := op
  cases op <;> rfl

/-- A buffered operation leaves a safe compaction safe. -/
theorem CompactSafe.txnApply {db : Db} {m : RelName} (op : TxnOp × Bool)
    (hm : CompactSafe (txnLast db m) (db.rels m)) :
    CompactSafe (txnLast (txnApply db op) m) ((txnApply db op).rels m) := by
  obtain ⟨op, fired⟩ := op
  cases op with
  | cas e expected next =>
    refine CompactSafe.setRel (fun h => h.addFactApply _ _) ?_
    exact CompactSafe.setRel (fun h => h.deleteFactApply _) hm
  | add n r => exact CompactSafe.setRel (fun h => h.addFactApply _ _) hm
  | del n r => exact CompactSafe.setRel (fun h => h.deleteFactApply _) hm

/-- Applying a whole buffer keeps the invariant. -/
theorem DbOk.foldl_txnApply {ops : List (TxnOp × Bool)} {db : Db} {H : RelName → Set Row}
    (ok : DbOk db H) (hlog : ∀ op ∈ ops, Logged db op.1)
    (hf : ∀ op ∈ ops, op.2 = true → CompactSafe (txnLast db op.1.rel) (db.rels op.1.rel)) :
    DbOk (ops.foldl Durable.txnApply db) H := by
  induction ops generalizing db with
  | nil => exact ok
  | cons op ops ih =>
    rw [List.foldl_cons]
    refine ih (ok.txnApply (hlog op (by simp)) (hf op (by simp))) (fun op' hop' => ?_)
      fun op' hop' hfired => ?_
    · have := hlog op' (List.mem_cons_of_mem _ hop')
      simpa [Logged, txnLast] using this
    · exact CompactSafe.txnApply op (hf op' (List.mem_cons_of_mem _ hop') hfired)

theorem DbOk.casRead {db : Db} {H : RelName → Set Row} (ok : DbOk db H) (op : TxnOp) :
    DbOk (casRead db op) H := by
  cases op with
  | cas e expected next => exact ok.setRel (l := []) (by simp) (ok .rev).flush
  | add n r => exact ok
  | del n r => exact ok

theorem DbOk.foldl_casRead {ops : List TxnOp} {db : Db} {H : RelName → Set Row} (ok : DbOk db H) :
    DbOk (ops.foldl Durable.casRead db) H := by
  induction ops generalizing db with
  | nil => exact ok
  | cons op ops ih => exact ih (ok.casRead op)

/-! ## Steps and runs -/

/-- **The condition on a step**, a condition on the store before it.

Direct writes (`addFact`, `deleteFact`, `casRevision`, `loadFacts`): no transaction of
the session decided the row the other way, no load brings back a row the relation's
log removed last, and no row is derived-only or stored-only when its presence is
tested in the view.  Whatever saves a base file or rewrites `rels.txt`: the relation
is recorded in `rels.txt` as it is split in memory, or the file `rels.txt` names
afterwards holds the same rows. -/
def Safe (db : Db) : Op → Prop
  | .addFact n r fired =>
    RelOk.AddSafe (txnLast db n) r (db.rels n) ∧
      ((db.rels n).mem.exact r = false → fired = true → Agree (db.rels n))
  | .deleteFact n r => RelOk.DelSafe (txnLast db n) r (db.rels n)
  | .casRevision e expected new fired =>
    expected = new ∨
      (txnLast db .rev [e, expected] ≠ some true ∧
        RelOk.AddSafe (txnLast db .rev) [e, new]
          { db.rels .rev with mem := (db.rels .rev).mem.overlayFlush.deleteBase [e, expected] } ∧
        (fired = true → Agree (db.rels .rev)))
  | .loadFacts n rows => RelOk.LoadSafe (txnLast db n) rows (db.rels n)
  | .txnCommit ops =>
    ∀ op ∈ ops, op.2 = true → CompactSafe (txnLast db op.1.rel) (db.rels op.1.rel)
  | .compact n => CompactSafe (txnLast db n) (db.rels n)
  | .writeMeta _ => ∀ n, Agree (db.rels n) ∨ RelOk.FilesAgree (txnLast db n) (db.rels n).files
  | .consolidate _ => True
  | .markMeta _ => True

/-- The condition on `dl_close`: every relation is safe to close. -/
def ClosesSafe (db : Db) : Prop := ∀ n, CloseSafe (txnLast db n) db.metaDirty (db.rels n)

/-- The store once the records of a transaction are in the log: checked, not applied. -/
def committed (ops : List (TxnOp × Bool)) (db : Db) : Db :=
  let db := (ops.map Prod.fst).foldl casRead db
  { db with txnWal := db.txnWal ++ ops.flatMap fun op => op.1.records }

/-- The checks fold overlays in, and change neither files nor splits. -/
theorem foldl_casRead_same (ops : List TxnOp) (db : Db) :
    (ops.foldl Durable.casRead db).txnWal = db.txnWal ∧
      ∀ n, ((ops.foldl Durable.casRead db).rels n).files = (db.rels n).files ∧
        ((ops.foldl Durable.casRead db).rels n).mem.store.isIdb = (db.rels n).mem.store.isIdb := by
  induction ops generalizing db with
  | nil => exact ⟨rfl, fun n => ⟨rfl, rfl⟩⟩
  | cons op ops ih =>
    obtain ⟨hw, hr⟩ := ih (Durable.casRead db op)
    have hone : (Durable.casRead db op).txnWal = db.txnWal ∧
        ∀ n, ((Durable.casRead db op).rels n).files = (db.rels n).files ∧
          ((Durable.casRead db op).rels n).mem.store.isIdb = (db.rels n).mem.store.isIdb := by
      cases op with
      | cas e expected next =>
        refine ⟨rfl, fun n => ?_⟩
        by_cases hn : n = .rev
        · subst hn
          simp [Durable.casRead]
        · simp [Durable.casRead, setRel_of_ne db _ hn]
      | add n r => exact ⟨rfl, fun n => ⟨rfl, rfl⟩⟩
      | del n r => exact ⟨rfl, fun n => ⟨rfl, rfl⟩⟩
    exact ⟨hw.trans hone.1, fun n =>
      ⟨(hr n).1.trans (hone.2 n).1, (hr n).2.trans (hone.2 n).2⟩⟩

theorem txnLast_committed (ops : List (TxnOp × Bool)) (db : Db) (n : RelName) :
    txnLast (committed ops db) n = fun r =>
      (SetLog.last r (recsOf n (ops.flatMap fun op => op.1.records))).or (txnLast db n r) := by
  funext r
  rw [txnLast, committed, recsOf_append, SetLog.last_append, (foldl_casRead_same _ db).1, txnLast]

/-- Committing keeps the invariant, against the history it advances. -/
theorem DbOk.committed {db : Db} {H : RelName → Set Row} (ok : DbOk db H)
    (ops : List (TxnOp × Bool)) :
    DbOk (committed ops db) (advance H (ops.flatMap fun op => op.1.records)) := fun n => by
  rw [txnLast_committed]
  have hok : DbOk ((ops.map Prod.fst).foldl Durable.casRead db) H := ok.foldl_casRead
  replace hok := hok n
  have hsame : txnLast ((ops.map Prod.fst).foldl Durable.casRead db) n = txnLast db n := by
    funext r
    rw [txnLast, (foldl_casRead_same _ db).1, txnLast]
  rw [hsame] at hok
  exact hok.appendTxn (recsOf n (ops.flatMap fun op => op.1.records))

/-- A compaction that was safe before a commit is safe after it. -/
theorem CompactSafe.committed {db : Db} {n : RelName} (ops : List (TxnOp × Bool))
    (h : CompactSafe (txnLast db n) (db.rels n)) :
    CompactSafe (txnLast (committed ops db) n) ((committed ops db).rels n) := by
  obtain ⟨hfiles, hidb⟩ := (foldl_casRead_same (ops.map Prod.fst) db).2 n
  rcases h with hag | hred
  · exact Or.inl (hidb.trans (hag.trans (congrArg RelFiles.idb hfiles.symm)))
  · refine Or.inr fun r hr => ?_
    rw [txnLast_committed, Option.or_eq_none_iff] at hr
    have := hred r hr.2
    rwa [← hfiles] at this

/-- The records of the operations are in the log they were committed to. -/
theorem logged_committed {ops : List (TxnOp × Bool)} {db : Db} {op : TxnOp × Bool}
    (hop : op ∈ ops) : Logged (committed ops db) op.1 :=
  logged_of_mem fun _ he => List.mem_append_right _ (List.mem_flatMap.mpr ⟨op, hop, he⟩)

theorem DbOk.dlTxnCommit {db db' : Db} {H : RelName → Set Row} {ops : List (TxnOp × Bool)}
    (ok : DbOk db H) (hs : Safe db (.txnCommit ops)) (h : dlTxnCommit ops db = some db') :
    DbOk db' (advance H (ops.flatMap fun op => op.1.records)) := by
  unfold Durable.dlTxnCommit at h
  split at h
  · cases h
    exact (ok.committed ops).foldl_txnApply (fun op hop => logged_committed hop)
      fun op hop hf => (hs op hop hf).committed ops
  · simp at h

/-- Reopening a store whose files are good. -/
theorem dbOk_dlOpen {files : RelName → RelFiles} {log : List (RelName × Rec Row)}
    {H : RelName → Set Row}
    (ok : ∀ n, DiskOk (fun r => SetLog.last r (recsOf n log)) (H n) (files n)) :
    DbOk (dlOpen files log) H := fun n => by
  have hnone : txnLast (dlOpen files log) n = fun _ => none := rfl
  rw [hnone]
  exact (dlOpen_ok files (ok n)).1

theorem diskOk_close {db : Db} {H : RelName → Set Row} (ok : DbOk db H)
    (hs : ClosesSafe db) (n : RelName) :
    DiskOk (txnLast db n) (H n) ((dlClose db).rels n).files := by
  have hfiles : ((dlClose db).rels n).files = closeFiles db.metaDirty (db.rels n) := by
    unfold dlClose closeFiles
    split <;> rfl
  rw [hfiles]
  exact (ok n).close (hs n)

theorem txnWal_dlClose (db : Db) : (dlClose db).txnWal = db.txnWal := by
  unfold dlClose
  split <;> rfl

/-- **One safe step keeps the invariant**, against the history the step advances. -/
theorem ok_step {db db' : Db} {H : RelName → Set Row} {op : Op} (ok : DbOk db H)
    (hs : Safe db op) (h : step db op = some db') : DbOk db' (advance H op.records) := by
  cases op with
  | addFact n r fired =>
    simp only [step] at h
    split at h
    · simp at h
    · cases h
      refine ok.setRel (by simp [Op.records]) ?_
      rw [Op.records, advance_add]
      exact (ok n).dlAddFact hs.1 hs.2
  | deleteFact n r =>
    simp only [step] at h
    split at h
    · simp at h
    · cases h
      refine ok.setRel (by simp [Op.records]) ?_
      rw [Op.records, advance_del]
      exact (ok n).dlDeleteFact hs
  | casRevision e expected new fired =>
    simp only [step] at h
    split at h
    · rename_i heq
      cases h
      simpa [Op.records, heq] using ok
    · rename_i hne
      split at h
      · cases h
        obtain ⟨hd, ha, hf⟩ := hs.resolve_left hne
        refine ok.setRel (by simp [Op.records, hne]) ?_
        have hadv : advance H (Op.casRevision e expected new fired).records .rev =
            insert [e, new] (H .rev \ {[e, expected]}) := by
          simp [Op.records, hne, advance, recsOf, SetLog.apply]
        rw [hadv]
        exact (ok .rev).casApply hd ha hf
      · simp at h
  | loadFacts n rows =>
    cases h
    refine ok.setRel (by simp [Op.records]) ?_
    rw [Op.records, advance_addAll]
    exact (ok n).dlLoadFacts hs
  | txnCommit ops => exact ok.dlTxnCommit hs h
  | consolidate heads =>
    cases h
    have hfold : ∀ (l : List (RelName × List Row)) (d : Db), DbOk d H →
        DbOk (l.foldl (fun db h => db.setRel h.1 (evalHead h.2 (db.rels h.1))) d) H := by
      intro l
      induction l with
      | nil => exact fun d hd => hd
      | cons x l ih =>
        exact fun d hd => ih _ (hd.setRel (l := []) (by simp) ((hd x.1).evalHead x.2))
    exact hfold heads _ fun n => (ok n).flush
  | compact n =>
    cases h
    exact ok.setRel (l := []) (by simp) ((ok n).compact hs)
  | writeMeta dirty =>
    cases h
    exact fun n => (ok n).writeMeta (hs n)
  | markMeta dirty =>
    cases h
    exact ok

theorem dbOk_fresh : DbOk fresh fun _ => ∅ :=
  dbOk_dlOpen fun n => ⟨fun r b hr => by simp [recsOf] at hr, fun r hr => by
    simp [walReplay, RelFiles.baseFile, RelFiles.none]⟩

end DatalogDafsa.Durable
