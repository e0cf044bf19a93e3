import DatalogDafsa.Atomic

/-!
# Runs with commits and revisions that are cut short

The invariant of `Atomic` through every event, and what a revision or a commit leaves of
the revisions that an entity had.

## Main results

* `ok_step` — a safe event keeps the invariant, against the history with what it changed.
* `StOk.keepsRevisions` — an entity that had one revision has one, however a call ends.
-/

namespace DatalogDafsa.Atomic

open SetLog (Rec)
open Catalog (Name RelEntry)
open Durable TxnLog
open TxnWal (Bytes header)
open BaseSet (asserted mem_asserted)

variable {crc : Bytes → UInt32}

/-! ## Stores on disk -/

/-- Opening reads the files of the relations and nothing else of them. -/
theorem reopen_setRel (st : St) (n : RelName) {s s' : RelState} (h : s.files = s'.files) :
    St.reopen crc { st with db := st.db.setRel n s } =
      St.reopen crc { st with db := st.db.setRel n s' } := by
  have hfiles : (fun m => ((st.db.setRel n s).rels m).files) =
      fun m => ((st.db.setRel n s').rels m).files := by
    funext m
    by_cases hm : m = n
    · subst hm
      rw [setRel_same, setRel_same, h]
    · rw [setRel_of_ne st.db s hm, setRel_of_ne st.db s' hm]
  rw [St.reopen, St.reopen, hfiles]

/-- The list of a good store, with another log and other files. -/
theorem StOk.reopen_of {st : St} {H₀ H : RelName → Set Row} (ok : StOk crc st H₀) {db : Db}
    {log : Bytes} {es : List (RelName × Rec Row)} (hlog : LogOk crc st.entries log es)
    (hfiles : ∀ n, DiskOk (fun r => SetLog.last r (recsOf n es)) (H n) (db.rels n).files)
    (hrev : (db.rels .rev).files.idb = false) (harity : ∀ r ∈ H .rev, r.length = 2) :
    StOk crc (St.reopen crc { st with db, log }) H :=
  (openStore_ok ok.accepted ok.listed hlog hfiles hrev harity).1

theorem StOk.settle {st : St} {H : RelName → Set Row} (ok : StOk crc st H) (crash : Bool) :
    StOk crc (settle crc crash st) H := by
  unfold Atomic.settle
  split
  · exact ok.reopen.1
  · exact ok

/-- Another state of the revision relation. -/
theorem StOk.setRev {st : St} {H : RelName → Set Row} {s : RelState} (ok : StOk crc st H)
    (hs : RelOk (txnLast st.db .rev) (H .rev) s) (hrev : RevOk s (H .rev)) :
    StOk crc { st with db := st.db.setRel .rev s } H where
  db := ok.db.setRel (l := []) (by simp) hs
  log := ok.log
  accepted := ok.accepted
  listed := ok.listed
  rev := by
    rw [setRel_same]
    exact hrev

/-! ## Operations -/

/-- An operation leaves the transaction log alone. -/
theorem txnWal_step {entries : List RelEntry} {db db' : Db} {o : Op}
    (ho : opAllowed entries o = true)
    (hstep : Durable.step db o = some db') : db'.txnWal = db.txnWal := by
  cases o with
  | addFact n r fired =>
    simp only [Durable.step] at hstep
    split at hstep <;> cases hstep
    rfl
  | deleteFact n r =>
    simp only [Durable.step] at hstep
    split at hstep <;> cases hstep
    rfl
  | casRevision e expected new fired =>
    simp only [Durable.step] at hstep
    split at hstep
    · cases hstep
      rfl
    · split at hstep <;> cases hstep
      rfl
  | loadFacts n rows =>
    cases hstep
    rfl
  | txnCommit ops => cases ho
  | consolidate heads =>
    cases hstep
    have hfold : ∀ (l : List (RelName × List Row)) (d : Db),
        (l.foldl (fun db h => db.setRel h.1 (evalHead h.2 (db.rels h.1))) d).txnWal =
          d.txnWal := by
      intro l
      induction l with
      | nil => exact fun d => rfl
      | cons x l ih =>
        intro d
        rw [List.foldl_cons, ih, txnWal_setRel]
    exact hfold heads _
  | compact n =>
    cases hstep
    rfl
  | writeMeta dirty =>
    cases hstep
    rfl
  | markMeta dirty =>
    cases hstep
    rfl

/-- An operation that succeeds. -/
theorem StOk.op {st : St} {H : RelName → Set Row} (ok : StOk crc st H) {o : Op} {db : Db}
    (ho : opAllowed st.entries o = true) (hs : Durable.Safe st.db o)
    (hstep : Durable.step st.db o = some db) :
    StOk crc { st with db } (advance H o.records) where
  db := Durable.ok_step ok.db hs hstep
  log := by
    rw [txnWal_step ho hstep]
    exact ok.log
  accepted := ok.accepted
  listed := ok.listed
  rev := ok.rev.op ok.accepted ho hstep

/-! ## Revisions -/

/-- A revision cut between its records, when there is no old row to lose. -/
theorem StOk.casBetween {st : St} {H : RelName → Set Row} (ok : StOk crc st H)
    {e expected next : Val} {crash : Bool} (hs : [e, expected] ∉ asserted (st.db.rels .rev)) :
    StOk crc
      { st with
        db := st.db.setRel .rev (casCut e expected next (.between crash) (st.db.rels .rev)) }
      H := by
  have hrow : [e, expected] ∉ H .rev := ok.rev.mem ▸ hs
  have hsame : H .rev \ {[e, expected]} = H .rev := Set.sdiff_singleton_eq_self hrow
  have hrel : RelOk (txnLast st.db .rev) (H .rev \ {[e, expected]})
      (casCut e expected next (.between crash) (st.db.rels .rev)) := by
    refine (ok.db .rev).flush.delLogged (fun ht => hrow ?_) (by simp)
    exact ((ok.db .rev).txn _ true ht).mpr rfl
  have hrev : RevOk (casCut e expected next (.between crash) (st.db.rels .rev))
      (H .rev \ {[e, expected]}) :=
    (ok.rev.walAppend (.del [e, expected])).del [e, expected]
  rw [hsame] at hrel hrev
  exact ok.setRev hrel hrev

/-- A revision that takes effect, as an operation. -/
theorem StOk.casApply {st : St} {H : RelName → Set Row} (ok : StOk crc st H)
    {e expected next : Val} (harity : arityOf st.entries .rev = some 2) (hne : expected ≠ next)
    (hcur : revGet (st.db.rels .rev) e = expected)
    (hs : Durable.Safe st.db (.casRevision e expected next false)) :
    StOk crc
      { st with
        db := st.db.setRel .rev (casApply e expected next false (st.db.rels .rev)) }
      (advance H (casRecords e expected next)) := by
  have hstep : Durable.step st.db (.casRevision e expected next false) =
      some (st.db.setRel .rev (Durable.casApply e expected next false (st.db.rels .rev))) := by
    rw [Durable.step, if_neg hne, if_pos hcur]
  have hrecords : (Op.casRevision e expected next false).records =
      casRecords e expected next := by
    rw [Op.records, if_neg hne, casRecords]
  have := ok.op (o := .casRevision e expected next false) (by simp [opAllowed, harity]) hs hstep
  rwa [hrecords] at this

/-- The process dies in the compaction of a revision. -/
theorem StOk.casSaved {st : St} {H : RelName → Set Row} (ok : StOk crc st H)
    {e expected next : Val} (harity : arityOf st.entries .rev = some 2) (hne : expected ≠ next)
    (hcur : revGet (st.db.rels .rev) e = expected)
    (hs : Durable.Safe st.db (.casRevision e expected next false)) :
    StOk crc
      (St.reopen crc
        { st with db := st.db.setRel .rev (casCut e expected next .saved (st.db.rels .rev)) })
      (advance H (casRecords e expected next)) := by
  have hdone := ok.casApply harity hne hcur hs
  refine ok.reopen_of ok.log (fun n => ?_) ?_ hdone.rev.arity
  · by_cases hn : n = .rev
    · subst hn
      have hrel := hdone.db .rev
      rw [setRel_same] at hrel ⊢
      exact saveBase_diskOk hrel
    · have hrel := hdone.db n
      rw [setRel_of_ne _ _ hn] at hrel ⊢
      exact hrel.diskOk
  · have hrecorded := hdone.rev.recorded
    rw [setRel_same] at hrecorded ⊢
    simpa [casCut, RelFiles.saveBase, apply_ite RelFiles.idb] using hrecorded

/-- `dl_cas_revision`, wherever it ends. -/
theorem StOk.cas {st st' : St} {H : RelName → Set Row} (ok : StOk crc st H)
    {e expected next : Val} {ends : CasEnd} (hs : Safe st (.cas e expected next ends))
    (hstep : step crc st (.cas e expected next ends) = some st') :
    StOk crc st' (advance H (Event.cas e expected next ends).records) := by
  simp only [step] at hstep
  split at hstep
  · cases hstep
  rename_i hcan
  rw [not_or, not_not] at hcan
  obtain ⟨hne, harity⟩ := hcan
  split at hstep
  · cases hstep
  rename_i hcur
  cases hstep
  have hflush : StOk crc
      { st with
        db := st.db.setRel .rev
          { st.db.rels .rev with mem := (st.db.rels .rev).mem.overlayFlush } } H :=
    ok.setRev (ok.db .rev).flush ok.rev.flush
  cases ends with
  | refused => exact hflush
  | before => exact hflush.reopen.1
  | between crash => exact (ok.casBetween hs).settle crash
  | after crash =>
    obtain ⟨rfl, hs⟩ := hs
    have hrev : revGet (st.db.rels .rev) e = expected := by simpa using hcur
    have hfiles : (casCut e expected next (.after true) (st.db.rels .rev)).files =
        (Durable.casApply e expected next false (st.db.rels .rev)).files := rfl
    have := (ok.casApply harity hne hrev hs).reopen.1
    rwa [← reopen_setRel st .rev hfiles] at this
  | saved =>
    have hrev : revGet (st.db.rels .rev) e = expected := by simpa using hcur
    exact ok.casSaved harity hne hrev hs

/-! ## Commits -/

theorem txnWal_foldl_txnApply (ops : List (TxnOp × Bool)) (db : Db) :
    (ops.foldl txnApply db).txnWal = db.txnWal := by
  induction ops generalizing db with
  | nil => rfl
  | cons op ops ih => rw [List.foldl_cons, ih, txnWal_txnApply]

/-- The checks of a commit. -/
theorem StOk.checked {st : St} {H : RelName → Set Row} (ok : StOk crc st H)
    (ops : List TxnOp) : StOk crc { st with db := ops.foldl casRead st.db } H where
  db := ok.db.foldl_casRead
  log := by
    rw [(foldl_casRead_same ops st.db).1]
    exact ok.log
  accepted := ok.accepted
  listed := ok.listed
  rev := ok.rev.foldl_casRead

section Commit

variable {st : St} {H : RelName → Set Row} {b : Buffer} {log : Bytes}

theorem StOk.commitLog (ok : StOk crc st H) (hes : ∀ e ∈ b.records, ChangeOk st.entries e)
    (hlog : TxnLog.commitLog crc st.log b.records (commitBytes crc b.records).length =
      some log) :
    LogOk crc st.entries log (committed b.ops st.db).txnWal := by
  obtain ⟨log', hlog', hok⟩ := ok.log.commit hes (commitWhole_of_listed ok.listed hes) le_rfl
  obtain rfl : log' = log := Option.some.inj (hlog'.symm.trans hlog)
  have htxn : (committed b.ops st.db).txnWal = st.db.txnWal ++ b.records := by
    rw [committed, (foldl_casRead_same _ st.db).1]
    rfl
  rwa [htxn]

/-- The relations after some of the changes. -/
theorem StOk.applied (ok : StOk crc st H) (hs : Durable.Safe st.db (.txnCommit b.ops))
    (n : ℕ) :
    DbOk ((b.ops.take n).foldl txnApply (committed b.ops st.db)) (advance H b.records) :=
  (ok.db.committed b.ops).foldl_txnApply
    (fun _ hop => logged_committed (List.mem_of_mem_take hop))
    fun op hop hf => (hs op (List.mem_of_mem_take hop) hf).committed b.ops

theorem StOk.rev_committed (ok : StOk crc st H) :
    RevOk ((committed b.ops st.db).rels .rev) (H .rev) :=
  ok.rev.foldl_casRead

/-- The rows of the revision relation have two columns after the commit. -/
theorem StOk.arity_commit (ok : StOk crc st H) :
    ∀ r ∈ advance H b.records .rev, r.length = 2 :=
  (ok.rev_committed (b := b)).foldl_txnApply.arity

variable (hes : ∀ e ∈ b.records, ChangeOk st.entries e)
  (hlog : TxnLog.commitLog crc st.log b.records (commitBytes crc b.records).length = some log)

include hes hlog

/-- A commit that is cut short after its marker, before it changes the relations. -/
theorem StOk.marked (ok : StOk crc st H) :
    StOk crc (St.reopen crc { st with db := committed b.ops st.db, log })
      (advance H b.records) :=
  ok.reopen_of (ok.commitLog hes hlog) (fun n => (ok.db.committed b.ops n).diskOk)
    (ok.rev_committed (b := b)).recorded ok.arity_commit

/-- A commit that succeeds. -/
theorem StOk.done (ok : StOk crc st H) (hs : Durable.Safe st.db (.txnCommit b.ops)) :
    StOk crc { st with db := b.ops.foldl txnApply (committed b.ops st.db), log }
      (advance H b.records) where
  db := by
    have := ok.applied hs b.ops.length
    rwa [List.take_length] at this
  log := by
    rw [txnWal_foldl_txnApply]
    exact ok.commitLog hes hlog
  accepted := ok.accepted
  listed := ok.listed
  rev := (ok.rev_committed (b := b)).foldl_txnApply

/-- The process dies while the changes are made, perhaps in a compaction. -/
theorem StOk.cutApplied (ok : StOk crc st H) (hs : Durable.Safe st.db (.txnCommit b.ops))
    (n : ℕ) (saving : Bool) :
    StOk crc
      (St.reopen crc { st with db := appliedTo b.ops n saving (committed b.ops st.db), log })
      (advance H b.records) := by
  have hdb := ok.applied hs n
  have htxn := txnWal_foldl_txnApply (b.ops.take n) (committed b.ops st.db)
  have hrev : RevOk (((b.ops.take n).foldl txnApply (committed b.ops st.db)).rels .rev)
      (SetLog.replay (recsOf .rev ((b.ops.take n).flatMap fun op => op.1.records)) (H .rev)) :=
    ok.rev_committed.foldl_txnApply
  unfold appliedTo
  split
  · rename_i op hop
    have hmem : op ∈ b.ops := List.mem_of_getElem? hop
    have hlogged : Logged ((b.ops.take n).foldl txnApply (committed b.ops st.db)) op.1 := by
      have : Logged (committed b.ops st.db) op.1 := logged_committed hmem
      simpa [Logged, txnLast, htxn] using this
    -- the change that was being compacted, its compaction left out
    have hnext := hdb.txnApply (show Logged _ (op.1, false).1 from hlogged) fun h => by cases h
    have hnextRev := hrev.txnApply (op.1, false)
    have hnextTxn : (txnApply ((b.ops.take n).foldl txnApply (committed b.ops st.db))
        (op.1, false)).txnWal = (committed b.ops st.db).txnWal := by
      rw [txnWal_txnApply, htxn]
    refine ok.reopen_of (ok.commitLog hes hlog) (fun m => ?_) ?_ ok.arity_commit
    · have hrel := hnext m
      unfold txnLast at hrel
      rw [hnextTxn] at hrel
      by_cases hm : m = op.1.rel
      · subst hm
        simp only [txnSaving, saveOnly, setRel_same]
        exact saveBase_diskOk hrel
      · simp only [txnSaving, setRel_of_ne _ _ hm]
        exact hrel.diskOk
    · by_cases hm : RelName.rev = op.1.rel
      · simp only [txnSaving, saveOnly, ← hm, setRel_same]
        simpa [RelFiles.saveBase, apply_ite RelFiles.idb] using hnextRev.recorded
      · simp only [txnSaving, setRel_of_ne _ _ hm]
        exact hnextRev.recorded
  · refine ok.reopen_of (ok.commitLog hes hlog) (fun m => ?_) hrev.recorded ok.arity_commit
    have hrel := hdb m
    unfold txnLast at hrel
    rw [htxn] at hrel
    exact hrel.diskOk

end Commit

/-- `dl_txn_commit`, wherever it ends. -/
theorem StOk.commit {st st' : St} {H : RelName → Set Row} (ok : StOk crc st H)
    {b : Buffer} {ends : CommitEnd} (hs : Safe st (.commit b ends))
    (hstep : step crc st (.commit b ends) = some st') :
    StOk crc st' (advance H (Event.commit b ends).records) := by
  simp only [step] at hstep
  split at hstep
  case isFalse => cases hstep
  rename_i hall
  have hes : ∀ e ∈ b.records, ChangeOk st.entries e := by
    simpa using hall
  cases ends with
  | refused n =>
    cases hstep
    exact ok.checked _
  | torn n crash =>
    simp only [St.commit] at hstep
    split at hstep
    · split at hstep
      · rename_i hn
        obtain ⟨log, hlog, rfl⟩ := Option.map_eq_some_iff.mp hstep
        obtain ⟨log', hlog', hok⟩ := ok.log.cut b.records hn
        obtain rfl : log' = log := Option.some.inj (hlog'.symm.trans hlog)
        have hchecked := ok.checked (b.ops.map Prod.fst)
        have : StOk crc
            { st with db := (b.ops.map Prod.fst).foldl casRead st.db, log := log' } H := by
          refine ⟨hchecked.db, ?_, ok.accepted, ok.listed, hchecked.rev⟩
          rw [(foldl_casRead_same _ st.db).1]
          exact hok
        exact this.settle crash
      · cases hstep
    · cases hstep
  | marked crash =>
    obtain rfl : crash = true := hs
    simp only [St.commit] at hstep
    split at hstep
    · split at hstep
      · obtain ⟨log, hlog, rfl⟩ := Option.map_eq_some_iff.mp hstep
        exact ok.marked hes hlog
      · cases hstep
    · cases hstep
  | applied n saving =>
    simp only [St.commit] at hstep
    split at hstep
    · split at hstep
      · obtain ⟨log, hlog, rfl⟩ := Option.map_eq_some_iff.mp hstep
        exact ok.cutApplied hes hlog hs n saving
      · cases hstep
    · cases hstep
  | done =>
    simp only [St.commit] at hstep
    split at hstep
    · split at hstep
      · obtain ⟨log, hlog, rfl⟩ := Option.map_eq_some_iff.mp hstep
        exact ok.done hes hlog hs
      · cases hstep
    · cases hstep

/-! ## Declarations -/

/-- A declaration leaves the list, or appends a relation that it did not find. -/
theorem declared_cases (entries : List RelEntry) (e : RelEntry) (opens : Bool) :
    declared entries e opens = entries ∨
      (declared entries e opens = entries ++ [e] ∧ Catalog.findRel entries e.name = none) := by
  unfold declared Catalog.declare
  dsimp only
  cases h : Catalog.dlDeclareRelationKind entries e.name e.arity opens with
  | none => exact .inl rfl
  | some rels' =>
    rcases Catalog.dlDeclareRelationKind_cases h with ⟨rfl, -⟩ | ⟨rfl, -, -, -, -, hfind, -⟩
    · exact .inl rfl
    · exact .inr ⟨rfl, hfind⟩

/-- The relations of the list are still found after a declaration. -/
theorem arityOf_declared {entries : List RelEntry} {n : RelName} {k : ℕ}
    (h : arityOf entries n = some k) (e : RelEntry) (opens : Bool) :
    arityOf (declared entries e opens) n = some k := by
  rcases declared_cases entries e opens with heq | ⟨heq, -⟩
  · rwa [heq]
  · obtain ⟨hn, f, hfind, hfix, harity⟩ := arityOf_eq_some.1 h
    refine arityOf_eq_some.2 ⟨hn, f, ?_, hfix, harity⟩
    rw [heq, Catalog.findRel, List.find?_append]
    unfold Catalog.findRel at hfind
    rw [hfind]
    rfl

/-- A declaration, safe to rewrite `rels.txt` if it does. -/
theorem StOk.declare {st st' : St} {H : RelName → Set Row} (ok : StOk crc st H) {e : RelEntry}
    {opens : Bool} (hs : Safe st (.declare e opens))
    (hstep : step crc st (.declare e opens) = some st') : StOk crc st' H := by
  obtain ⟨hlisted, hs⟩ := hs
  simp only [step] at hstep
  split at hstep
  · cases hstep
    exact ok
  · rename_i hne
    cases hstep
    have hsafe := hs.resolve_left hne
    have hdb := @Durable.ok_step _ _ _ (.writeMeta true) ok.db hsafe rfl
    exact
      { db := hdb
        log := ok.log.mono fun n k h => arityOf_declared h e opens
        accepted := ok.accepted.declare _
        listed := hlisted
        rev := ok.rev.op (o := .writeMeta true) ok.accepted rfl rfl }

/-! ## Steps -/

/-- A close does not record a split of the revision relation. -/
theorem RevOk.idb_closeFiles {s : RelState} {h : Set Row} (ok : RevOk s h) (metaDirty : Bool) :
    (closeFiles metaDirty s).idb = false := by
  have hplain := ok.plain
  have hrecorded := ok.recorded
  cases hd : s.mem.dirty <;> cases metaDirty <;>
    simp [closeFiles, closeRel, relCompact, RelFiles.saveBase, hd, hplain, hrecorded]

/-- What a safe close of a good store leaves on disk. -/
theorem StOk.closed {st : St} {H : RelName → Set Row} (ok : StOk crc st H)
    (hs : ClosesSafe st.db) :
    StOk crc (St.reopen crc { st with db := dlClose st.db }) H ∧
      ∀ n r, r ∈ ((St.reopen crc { st with db := dlClose st.db }).db.rels n).mem.store.base ↔
        r ∈ H n := by
  have hlog : LogOk crc st.entries st.log (dlClose st.db).txnWal :=
    (txnWal_dlClose st.db).symm ▸ ok.log
  refine openStore_ok ok.accepted ok.listed hlog (fun n => ?_) ?_ ok.rev.arity
  · have := diskOk_close ok.db hs n
    rw [txnWal_dlClose]
    exact this
  · have hfiles : ((dlClose st.db).rels .rev).files =
        closeFiles st.db.metaDirty (st.db.rels .rev) := by
      unfold dlClose closeFiles
      split <;> rfl
    show ((dlClose st.db).rels .rev).files.idb = false
    rw [hfiles]
    exact ok.rev.idb_closeFiles _

/-- **A safe event keeps the invariant**, against the history with what it changed. -/
theorem ok_step {st st' : St} {H : RelName → Set Row} {ev : Event}
    (ok : StOk crc st H) (hs : Safe st ev) (hstep : step crc st ev = some st') :
    StOk crc st' (advance H ev.records) := by
  cases ev with
  | op o =>
    simp only [step] at hstep
    split at hstep
    · rename_i ho
      obtain ⟨db, hdb, rfl⟩ := Option.map_eq_some_iff.mp hstep
      exact ok.op ho hs hdb
    · cases hstep
  | cas e expected next ends => exact ok.cas hs hstep
  | commit b ends => exact ok.commit hs hstep
  | declare e opens => exact ok.declare hs hstep
  | setKinds n kinds =>
    cases hstep
    exact ok
  | variant p files =>
    cases hstep
    exact ok
  | close =>
    cases hstep
    exact (ok.closed hs).1
  | crash =>
    cases hstep
    exact ok.reopen.1

theorem advance_append (H : RelName → Set Row) (l₁ l₂ : List (RelName × Rec Row)) :
    advance (advance H l₁) l₂ = advance H (l₁ ++ l₂) := by
  funext n
  rw [advance, advance, advance, recsOf_append, SetLog.replay_append]

/-! ## One revision for each entity -/

/-- The revision that is read is the one of the history. -/
theorem RevOk.revGet {s : RelState} {h : Set Row} (ok : RevOk s h) {e v : Val}
    (hone : ∀ w, [e, w] ∈ h ↔ w = v) : revGet s e = v := by
  have hview : ∀ r, r ∈ s.mem.overlayFlush.store.view ↔ r ∈ h := fun r => by
    rw [← ok.mem, mem_asserted, Relation.mem_view_overlayFlush,
      Store.view_eq_base_of_not_isIdb ok.plain]
  have hscan : ∀ r, r ∈ s.mem.overlayFlush.store.view.scan [e] ↔ r = [e, v] := fun r => by
    rw [Dafsa.mem_scan, hview]
    constructor
    · rintro ⟨hr, tail, rfl⟩
      have hlen := ok.arity _ hr
      match tail, hlen with
      | [w], _ => rw [(hone w).mp hr, List.singleton_append]
    · rintro rfl
      exact ⟨(hone v).mpr rfl, [v], rfl⟩
  unfold Durable.revGet
  cases hrows : s.mem.overlayFlush.store.view.scan [e] with
  | nil =>
    have := (hscan [e, v]).mpr rfl
    rw [hrows] at this
    cases this
  | cons r rows =>
    have hr : r = [e, v] := (hscan r).mp (hrows ▸ List.mem_cons_self ..)
    simp [hr]

theorem keepsRevisions_refl (h : Set Row) (wanted : List (RelName × Rec Row)) :
    KeepsRevisions h h wanted := fun _ v hone => ⟨v, hone, .inl rfl⟩

/-- A revision of the current value. -/
theorem keepsRevisions_cas {s : RelState} {h : Set Row} (ok : RevOk s h) {e expected next : Val}
    (hcur : revGet s e = expected) :
    KeepsRevisions h (insert [e, next] (h \ {[e, expected]})) (casRecords e expected next) := by
  intro e' v hone
  by_cases he : e' = e
  · subst he
    have hv : v = expected := (ok.revGet hone).symm.trans hcur
    refine ⟨next, fun w => ?_, .inr (by simp [casRecords])⟩
    simp only [Set.mem_insert_iff, Set.mem_sdiff, Set.mem_singleton_iff, hone w, hv]
    simp
  · refine ⟨v, fun w => ?_, .inl rfl⟩
    simp [he, hone w]

/-- The revisions of a transaction, each of the current value. -/
theorem keepsRevisions_ops {ops : List (TxnOp × Bool)} {h : Set Row}
    (honce : (ops.filterMap fun op => casEntity op.1).Nodup) {e v : Val}
    (hcur : ∀ op ∈ ops, ∀ x y, op.1 = .cas e x y → x = v) (hone : ∀ w, [e, w] ∈ h ↔ w = v) :
    ∃ v', (∀ w, [e, w] ∈ SetLog.replay (recsOf .rev (ops.flatMap fun op => op.1.records)) h ↔
        w = v') ∧
      (v' = v ∨ (.rev, .add [e, v']) ∈ ops.flatMap fun op => op.1.records) := by
  induction ops generalizing h v with
  | nil => exact ⟨v, hone, .inl rfl⟩
  | cons op ops ih =>
    obtain ⟨op, fired⟩ := op
    have hrest : ∀ op ∈ ops, ∀ x y, op.1 = .cas e x y → x = v := fun op hop =>
      hcur op (List.mem_cons_of_mem _ hop)
    have htail : (ops.filterMap fun op => casEntity op.1).Nodup :=
      honce.sublist (List.Sublist.filterMap _ (List.sublist_cons_self _ _))
    rw [List.flatMap_cons, recsOf_append, SetLog.replay_append]
    cases op with
    | cas e' x y =>
      by_cases he : e' = e
      · subst he
        obtain rfl : x = v := hcur _ (List.mem_cons_self ..) x y rfl
        have hnone : ∀ op ∈ ops, ∀ x' y', op.1 = .cas e' x' y' → x' = y := by
          intro op hop x' y' hcas
          have hmem : e' ∈ ops.filterMap fun op => casEntity op.1 :=
            List.mem_filterMap.mpr ⟨op, hop, by simp [hcas, casEntity]⟩
          exact absurd hmem (List.nodup_cons.mp honce).1
        obtain ⟨v', hv', hor⟩ := ih (v := y)
          (h := SetLog.replay (recsOf .rev (TxnOp.cas e' x y).records) h) htail hnone fun w => by
            simp [TxnOp.records, recsOf, SetLog.apply, hone w]
        refine ⟨v', hv', .inr (List.mem_append.mpr ?_)⟩
        rcases hor with rfl | hor
        · exact .inl (by simp [TxnOp.records])
        · exact .inr hor
      · obtain ⟨v', hv', hor⟩ := ih (v := v)
          (h := SetLog.replay (recsOf .rev (TxnOp.cas e' x y).records) h) htail hrest fun w => by
            simp [TxnOp.records, recsOf, SetLog.apply, hone w, Ne.symm he]
        exact ⟨v', hv', hor.imp_right (List.mem_append_right _)⟩
    | add n r =>
      obtain ⟨v', hv', hor⟩ := ih htail hrest hone
      exact ⟨v', by simpa [TxnOp.records, recsOf] using hv',
        hor.imp_right (List.mem_append_right _)⟩
    | del n r =>
      obtain ⟨v', hv', hor⟩ := ih htail hrest hone
      exact ⟨v', by simpa [TxnOp.records, recsOf] using hv',
        hor.imp_right (List.mem_append_right _)⟩

/-- **An entity that had a revision has one**, after a revision or a commit, however it
ends. -/
theorem StOk.keepsRevisions {st st' : St} {H : RelName → Set Row} (ok : StOk crc st H)
    {ev : Event} (hev : ev.revises = true) (hstep : step crc st ev = some st') :
    KeepsRevisions (H .rev) (advance H ev.records .rev) ev.wanted := by
  by_cases htakes : ev.takesEffect = true
  · rw [Event.records, if_pos htakes]
    cases ev with
    | op o =>
      cases o with
      | casRevision e expected next fired =>
        simp only [step] at hstep
        split at hstep
        · obtain ⟨db, hdb, -⟩ := Option.map_eq_some_iff.mp hstep
          simp only [Durable.step] at hdb
          split at hdb
          · rename_i heq
            simpa [Event.wanted, Op.records, heq] using keepsRevisions_refl (H .rev) []
          · rename_i hne
            split at hdb
            · rename_i hcur
              have := @keepsRevisions_cas _ _ ok.rev e expected next hcur
              simpa [Event.wanted, Op.records, hne, casRecords, advance, recsOf, SetLog.apply]
                using this
            · cases hdb
        · cases hstep
      | _ => cases hev
    | cas e expected next ends =>
      have hcur : revGet (st.db.rels .rev) e = expected := by
        simp only [step] at hstep
        split at hstep
        · cases hstep
        · split at hstep
          · cases hstep
          · rename_i hnot
            by_contra hne
            refine hnot ⟨?_, hne⟩
            rintro rfl
            cases htakes
      have := @keepsRevisions_cas _ _ ok.rev e expected next hcur
      simpa [Event.wanted, casRecords, advance, recsOf, SetLog.apply] using this
    | commit b ends =>
      have hcur : (b.ops.all fun op => casCurrent st.db op.1) = true := by
        simp only [step] at hstep
        split at hstep
        · cases ends with
          | refused n => cases htakes
          | torn n crash => cases htakes
          | _ =>
            simp only [St.commit] at hstep
            split at hstep
            · assumption
            · cases hstep
        · cases hstep
      intro e v hone
      refine keepsRevisions_ops b.cas_once (fun op hop x y hcas => ?_) hone
      have := List.all_eq_true.mp hcur op hop
      rw [hcas] at this
      have hx : revGet (st.db.rels .rev) e = x := by simpa [casCurrent] using this
      exact hx.symm.trans (ok.rev.revGet hone)
    | _ => cases hev
  · rw [Event.records, if_neg htakes]
    exact keepsRevisions_refl _ _

end DatalogDafsa.Atomic
