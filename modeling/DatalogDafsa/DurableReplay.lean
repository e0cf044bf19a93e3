import DatalogDafsa.Durable

/-!
# When a reopened directory agrees with the history

The transaction log is replayed after every relation log, so a row the current
session's transactions wrote is decided by the *last transaction record* about
it, whatever was written directly afterwards; the other rows are decided by the
relation's own log over the file `rels.txt` names.  `RelOk` is that invariant for
one relation, relative to the verdicts of the transaction log.

## Main results

* `RelOk` — the invariant of one relation, in memory and on disk.
* `RelOk.dlAddFact`, `RelOk.compact`, … — each operation keeps it, under a condition on the
  relation before the operation.
* `RelOk.close` — a close saves what the next open reads.
* `dlOpen_ok` — opening good files gives the history, and the invariant again.
-/

namespace DatalogDafsa.Durable

open SetLog (Rec)

/-! ## Replaying a log over an automaton -/

@[simp] theorem mem_walApply {d : Dafsa} {e : Rec Row} {x : Row} :
    x ∈ walApply d e ↔ x ∈ SetLog.apply {y | y ∈ d} e := by
  cases e with
  | add r => simp [walApply, SetLog.apply]
  | del r => simp [walApply, SetLog.apply]

theorem mem_walReplay {log : List (Rec Row)} {d : Dafsa} {x : Row} :
    x ∈ walReplay log d ↔ SetLog.last x log = some true ∨ (SetLog.last x log = none ∧ x ∈ d) := by
  suffices h : x ∈ walReplay log d ↔ x ∈ SetLog.replay log {y | y ∈ d} by
    rw [h, SetLog.mem_replay, Set.mem_ofPred_eq]
  induction log generalizing d with
  | nil => rfl
  | cons e log ih =>
    have hset : {y | y ∈ walApply d e} = SetLog.apply {y | y ∈ d} e :=
      Set.ext fun y => mem_walApply
    rw [SetLog.replay_cons, ← hset, ← ih]
    rfl

/-! ## The invariant of one relation -/

/-- Do the two places that say whether the relation is split say the same? -/
def Agree (s : RelState) : Prop := s.mem.store.isIdb = s.files.idb

/-- One relation against the history `h`, where `t` is what the last transaction
record says about a row, if there is one. -/
structure RelOk (t : Row → Option Bool) (h : Set Row) (s : RelState) : Prop where
  /-- A relation recorded as split is split. -/
  recorded : s.files.idb = true → s.mem.store.isIdb = true
  /-- A split that is not recorded is still to be compacted. -/
  unrecorded : s.mem.store.isIdb = true → s.files.idb = false → s.mem.dirty = true
  /-- The transaction log decides the rows it mentions. -/
  txn : ∀ r b, t r = some b → (r ∈ h ↔ b = true)
  /-- In memory the other rows are those of the base and the overlay. -/
  mem : ∀ r, t r = none → (r ∈ s.mem.store.base ∨ r ∈ s.mem.ov.rows ↔ r ∈ h)
  /-- On disk the other rows are those of the replayed relation log. -/
  disk : ∀ r, t r = none → (r ∈ walReplay s.files.wal s.files.baseFile ↔ r ∈ h)
  /-- An overlay row that is not in the base has a record in the log. -/
  overlay : ∀ r, t r = none → r ∈ s.mem.ov.rows → r ∉ s.mem.store.base →
    SetLog.last r s.files.wal ≠ none

namespace RelOk

variable {t : Row → Option Bool} {h : Set Row} {s : RelState}

/-- The two places disagree in one way only. -/
theorem split_unrecorded (ok : RelOk t h s) (hag : ¬ Agree s) :
    s.mem.store.isIdb = true ∧ s.files.idb = false := by
  have := ok.recorded
  unfold Agree at hag
  cases h1 : s.mem.store.isIdb <;> cases h2 : s.files.idb <;> simp_all

/-- The log's own verdict, when it has one. -/
theorem last_iff (ok : RelOk t h s) {r : Row} {b : Bool} (ht : t r = none)
    (hl : SetLog.last r s.files.wal = some b) : r ∈ h ↔ b = true := by
  rw [← ok.disk r ht, mem_walReplay, hl]
  simp

/-- Without a record the file decides. -/
theorem file_iff (ok : RelOk t h s) {r : Row} (ht : t r = none)
    (hl : SetLog.last r s.files.wal = none) : r ∈ s.files.baseFile ↔ r ∈ h := by
  rw [← ok.disk r ht, mem_walReplay, hl]
  simp

/-- Without a record the base decides: such a row is not in the overlay only. -/
theorem base_iff (ok : RelOk t h s) {r : Row} (ht : t r = none)
    (hl : SetLog.last r s.files.wal = none) : r ∈ s.mem.store.base ↔ r ∈ h := by
  rw [← ok.mem r ht]
  refine ⟨Or.inl, fun hr => ?_⟩
  by_contra hb
  exact ok.overlay r ht (hr.resolve_left hb) hb hl

/-- Flushing the overlay changes nothing that the invariant sees. -/
theorem flush (ok : RelOk t h s) : RelOk t h { s with mem := s.mem.overlayFlush } where
  recorded hi := by simpa using ok.recorded hi
  unrecorded hi hf := by
    have hd := ok.unrecorded (by simpa using hi) hf
    simp only [Relation.overlayFlush]
    split <;> simp [hd]
  txn := ok.txn
  mem r ht := by
    rw [← ok.mem r ht]
    simp [or_comm]
  disk := ok.disk
  overlay r ht hr := by simp at hr

/-- A relation whose log adds nothing to the file `rels.txt` names. -/
def LogRedundant (t : Row → Option Bool) (f : RelFiles) : Prop :=
  ∀ r, t r = none → (r ∈ walReplay f.wal f.baseFile ↔ r ∈ f.baseFile)

/-- **Compaction keeps the invariant**: it saves the base where the next open reads
it, or it saves it elsewhere and throws away a log that says nothing new. -/
theorem compact (ok : RelOk t h s) (hs : Agree s ∨ LogRedundant t s.files) :
    RelOk t h (relCompact s) where
  recorded hi := by
    have : s.files.idb = true := by
      simpa [relCompact, RelFiles.saveBase, apply_ite RelFiles.idb] using hi
    simpa [relCompact] using ok.recorded this
  unrecorded hi hf := by
    refine ok.flush.unrecorded (by simpa [relCompact] using hi) ?_
    simpa [relCompact, RelFiles.saveBase, apply_ite RelFiles.idb] using hf
  txn := ok.txn
  mem := ok.flush.mem
  disk r ht := by
    have hb : r ∈ s.mem.overlayFlush.store.base ↔ r ∈ h := by
      have := ok.flush.mem r ht
      simpa using this
    by_cases hag : Agree s
    · have hfile : (relCompact s).files.baseFile = s.mem.overlayFlush.store.base := by
        have hidb : s.files.idb = s.mem.store.isIdb := hag.symm
        simp only [relCompact, RelFiles.saveBase, Relation.isIdb_overlayFlush]
        split <;> simp_all [RelFiles.baseFile]
      rw [show (relCompact s).files.wal = [] from rfl, hfile]
      exact hb
    · have hred := hs.resolve_left hag
      have hidb := ok.split_unrecorded hag
      have hfile : (relCompact s).files.baseFile = s.files.baseFile := by
        simp [relCompact, RelFiles.saveBase, RelFiles.baseFile, hidb.1, hidb.2]
      rw [show (relCompact s).files.wal = [] from rfl, hfile, ← ok.disk r ht]
      exact (hred r ht).symm
  overlay r ht hr := by simp [relCompact] at hr

theorem maybeCompact {fired : Bool} (ok : RelOk t h s)
    (hs : fired = true → Agree s ∨ LogRedundant t s.files) :
    RelOk t h (maybeCompact fired s) := by
  unfold Durable.maybeCompact
  split
  · rename_i hf
    exact ok.compact (hs hf)
  · exact ok

/-! ### Direct writes -/

/-- The transaction log does not remove the row, and a row only derived so far is
not taken for a stored one. -/
def AddSafe (t : Row → Option Bool) (r : Row) (s : RelState) : Prop :=
  t r ≠ some false ∧
    (t r = none → r ∈ s.mem.store.view → r ∈ s.mem.store.base ∨ r ∈ s.mem.ov.rows)

/-- The transaction log does not insert the row, and a stored row the view does not
show yet is not taken for an absent one. -/
def DelSafe (t : Row → Option Bool) (r : Row) (s : RelState) : Prop :=
  t r ≠ some true ∧
    (t r = none → r ∈ s.mem.store.base → r ∈ s.mem.store.view ∨ r ∈ s.mem.ov.rows)

/-- A logged insertion. -/
theorem addLogged {r : Row} (ok : RelOk t h s) (hs : AddSafe t r s) :
    RelOk t (insert r h) { walAppend (.add r) s with mem := s.mem.overlayAdd r } where
  recorded hi := by simpa using ok.recorded hi
  unrecorded hi hf := by
    have hd := ok.unrecorded (by simpa using hi) hf
    simp only [Relation.overlayAdd]
    split <;> simp [hd]
  txn x b hx := by
    rw [Set.mem_insert_iff, ok.txn x b hx, or_iff_right_iff_imp]
    rintro rfl
    cases b
    · exact absurd hx hs.1
    · rfl
  mem x hx := by
    simp only [Relation.store_overlayAdd, Relation.mem_ov_overlayAdd, Set.mem_insert_iff,
      ← ok.mem x hx]
    constructor
    · tauto
    · rintro (rfl | hm)
      · by_cases hv : x ∈ s.mem.store.view
        · exact (hs.2 hx hv).imp_right Or.inl
        · exact Or.inr (Or.inr ⟨rfl, hv⟩)
      · exact hm.imp_right Or.inl
  disk x hx := by
    have hd := ok.disk x hx
    have hfile : (walAppend (.add r) s).files.baseFile = s.files.baseFile := rfl
    rw [mem_walReplay] at hd ⊢
    simp only [walAppend, SetLog.last_append, SetLog.last_singleton, Rec.key_add, Rec.keeps_add,
      Set.mem_insert_iff]
    by_cases hxr : r = x
    · simp [hxr]
    · simpa [hxr, Ne.symm hxr, RelFiles.baseFile] using hd
  overlay x hx ho hb := by
    simp only [walAppend, SetLog.last_append, SetLog.last_singleton, Rec.key_add]
    by_cases hxr : r = x
    · simp [hxr]
    · have hov : x ∈ s.mem.ov.rows := by
        rcases Relation.mem_ov_overlayAdd.mp ho with hov | ⟨rfl, -⟩
        · exact hov
        · exact absurd rfl hxr
      simpa [hxr] using ok.overlay x hx hov (by simpa using hb)

/-- A logged removal, after a flush. -/
theorem delLogged {r : Row} (ok : RelOk t h s) (hs : t r ≠ some true)
    (hov : s.mem.ov.rows = []) :
    RelOk t (h \ {r}) { walAppend (.del r) s with mem := s.mem.deleteBase r } where
  recorded hi := by simpa using ok.recorded hi
  unrecorded hi hf := by
    have hd := ok.unrecorded (by simpa using hi) hf
    simp only [Relation.deleteBase]
    split <;> simp [hd]
  txn x b hx := by
    rw [Set.mem_sdiff, Set.mem_singleton_iff, ok.txn x b hx, and_iff_left_iff_imp]
    rintro rfl rfl
    exact hs hx
  mem x hx := by
    have hm := ok.mem x hx
    simp only [hov, List.not_mem_nil, or_false] at hm
    simp [hov, hm]
  disk x hx := by
    have hd := ok.disk x hx
    rw [mem_walReplay] at hd ⊢
    simp only [walAppend, SetLog.last_append, SetLog.last_singleton, Rec.key_del, Rec.keeps_del,
      Set.mem_sdiff, Set.mem_singleton_iff]
    by_cases hxr : r = x
    · simp [hxr]
    · simpa [hxr, Ne.symm hxr, RelFiles.baseFile] using hd
  overlay x hx ho := by simp [hov] at ho

theorem dlAddFact {r : Row} {fired : Bool} (ok : RelOk t h s) (hs : AddSafe t r s)
    (hf : s.mem.exact r = false → fired = true → Agree s) :
    RelOk t (insert r h) (dlAddFact r fired s) := by
  unfold Durable.dlAddFact
  split
  · rename_i he
    have hr : r ∈ h := by
      match ht : t r with
      | some true => exact (ok.txn r true ht).mpr rfl
      | some false => exact absurd ht hs.1
      | none =>
        rw [← ok.mem r ht]
        rcases Relation.exact_iff.mp he with hv | ho
        · exact hs.2 ht hv
        · exact Or.inr ho
    rwa [Set.insert_eq_of_mem hr]
  · rename_i he
    refine (ok.addLogged hs).maybeCompact fun hfired => Or.inl ?_
    have := hf (Bool.eq_false_iff.mpr he) hfired
    simpa [Agree, walAppend] using this

theorem dlDeleteFact {r : Row} (ok : RelOk t h s) (hs : DelSafe t r s) :
    RelOk t (h \ {r}) (dlDeleteFact r s) := by
  unfold Durable.dlDeleteFact
  split
  · have hd := ok.flush.flush.delLogged (r := r) hs.1 (by simp)
    exact hd
  · rename_i he
    have hr : r ∉ h := by
      match ht : t r with
      | some true => exact absurd ht hs.1
      | some false => simp [ok.txn r false ht]
      | none =>
        rw [← ok.mem r ht]
        rintro (hb | ho)
        · exact he (Relation.exact_iff.mpr (hs.2 ht hb))
        · exact he (Relation.exact_iff.mpr (Or.inr ho))
    rwa [Set.sdiff_singleton_eq_self hr]

/-- A revision write: the old row out, the new row in. -/
theorem casApply {e expected new : Val} {fired : Bool} (ok : RelOk t h s)
    (hd : t [e, expected] ≠ some true)
    (ha : AddSafe t [e, new] { s with mem := s.mem.overlayFlush.deleteBase [e, expected] })
    (hf : fired = true → Agree s) :
    RelOk t (insert [e, new] (h \ {[e, expected]})) (casApply e expected new fired s) := by
  have hdel := ok.flush.delLogged (r := [e, expected]) hd (by simp)
  refine (hdel.addLogged (r := [e, new]) ha).maybeCompact fun hfired => Or.inl ?_
  have := hf hfired
  simpa [Agree, walAppend] using this

/-! ### Bulk loads -/

/-- The rows of the file are not removed by either log, and the file the load saves
is the one the next open reads, unless the load brings nothing new. -/
def LoadSafe (t : Row → Option Bool) (rows : List Row) (s : RelState) : Prop :=
  (∀ r ∈ rows, t r ≠ some false ∧ (t r = none → SetLog.last r s.files.wal ≠ some false)) ∧
    (Agree s ∨ ∀ r ∈ rows, t r = none → r ∈ s.mem.store.base ∨ r ∈ s.mem.ov.rows)

theorem dlLoadFacts {rows : List Row} (ok : RelOk t h s) (hs : LoadSafe t rows s) :
    RelOk t (h ∪ {r | r ∈ rows}) (dlLoadFacts rows s) where
  recorded hi := by
    have : s.files.idb = true := by
      simpa [Durable.dlLoadFacts, RelFiles.saveBase, apply_ite RelFiles.idb] using hi
    simpa [Durable.dlLoadFacts] using ok.recorded this
  unrecorded _ _ := rfl
  txn x b hx := by
    rw [Set.mem_union, ok.txn x b hx, Set.mem_ofPred_eq, or_iff_left_iff_imp]
    intro hr
    cases b
    · exact absurd hx (hs.1 x hr).1
    · rfl
  mem x hx := by
    simp only [Durable.dlLoadFacts, Store.mem_base_buildBase, List.mem_append, Set.mem_union,
      Set.mem_ofPred_eq, ← ok.mem x hx, ← Dafsa.mem_def]
    tauto
  disk x hx := by
    have hwal : (Durable.dlLoadFacts rows s).files.wal = s.files.wal := by
      simp [Durable.dlLoadFacts, RelFiles.saveBase, apply_ite RelFiles.wal]
    rw [mem_walReplay, hwal, Set.mem_union, Set.mem_ofPred_eq]
    cases hl : SetLog.last x s.files.wal with
    | some b =>
      rw [ok.last_iff hx hl]
      cases b
      · simpa using fun hr => (hs.1 x hr).2 hx hl
      · simp
    | none =>
      by_cases hag : Agree s
      · have hfile : (Durable.dlLoadFacts rows s).files.baseFile =
            (s.mem.store.buildBase (s.mem.store.base.keys ++ rows)).base := by
          have hidb : s.files.idb = s.mem.store.isIdb := hag.symm
          simp only [Durable.dlLoadFacts, RelFiles.saveBase, Store.isIdb_buildBase]
          split <;> simp_all [RelFiles.baseFile]
        rw [hfile, Store.mem_base_buildBase, List.mem_append, ← Dafsa.mem_def, ok.base_iff hx hl]
        simp
      · have hidb : s.mem.store.isIdb = true ∧ s.files.idb = false := by
          have := ok.recorded
          unfold Agree at hag
          cases h1 : s.mem.store.isIdb <;> cases h2 : s.files.idb <;> simp_all
        have hfile : (Durable.dlLoadFacts rows s).files.baseFile = s.files.baseFile := by
          simp [Durable.dlLoadFacts, RelFiles.saveBase, RelFiles.baseFile, hidb.1, hidb.2]
        have hold : x ∈ rows → x ∈ h := fun hr =>
          (ok.mem x hx).mp (hs.2.resolve_left hag x hr hx)
        rw [hfile, ok.file_iff hx hl]
        simpa using hold
  overlay x hx ho hb := by
    have hwal : (Durable.dlLoadFacts rows s).files.wal = s.files.wal := by
      simp [Durable.dlLoadFacts, RelFiles.saveBase, apply_ite RelFiles.wal]
    rw [hwal]
    refine ok.overlay x hx ho fun hbase => hb ?_
    simp only [Durable.dlLoadFacts, Store.mem_base_buildBase, List.mem_append]
    exact Or.inl hbase

/-! ### Transactions -/

/-- Appending records to the transaction log: their verdicts take over. -/
theorem appendTxn (ok : RelOk t h s) (recs : List (Rec Row)) :
    RelOk (fun r => (SetLog.last r recs).or (t r)) (SetLog.replay recs h) s := by
  have hnone : ∀ {r}, (SetLog.last r recs).or (t r) = none → t r = none ∧
      (r ∈ SetLog.replay recs h ↔ r ∈ h) := fun {r} hr => by
    obtain ⟨hl, ht⟩ := Option.or_eq_none_iff.mp hr
    exact ⟨ht, by simp [SetLog.mem_replay, hl]⟩
  exact
    { recorded := ok.recorded
      unrecorded := ok.unrecorded
      txn := fun r b hr => by
        rw [SetLog.mem_replay]
        cases hl : SetLog.last r recs with
        | some b' =>
          have hb : b' = b := by simpa [hl] using hr
          simp [hb]
        | none => simpa using ok.txn r b (by simpa [hl] using hr)
      mem := fun r hr => (ok.mem r (hnone hr).1).trans (hnone hr).2.symm
      disk := fun r hr => (ok.disk r (hnone hr).1).trans (hnone hr).2.symm
      overlay := fun r hr => ok.overlay r (hnone hr).1 }

/-- An insertion of a row the transaction log decides. -/
theorem txnAdd {r : Row} {fired : Bool} (ok : RelOk t h s) (hr : t r ≠ none)
    (hf : fired = true → Agree s ∨ LogRedundant t s.files) :
    RelOk t h (addFactApply r fired s) := by
  refine RelOk.maybeCompact (s := { s with mem := s.mem.overlayAdd r }) ?_ fun hfired => ?_
  · exact
      { recorded := fun hi => by simpa using ok.recorded hi
        unrecorded := fun hi hff => by
          have hd := ok.unrecorded (by simpa using hi) hff
          simp only [Relation.overlayAdd]
          split <;> simp [hd]
        txn := ok.txn
        mem := fun x hx => by
          have hxr : x ≠ r := fun e => hr (e ▸ hx)
          simpa [Relation.mem_ov_overlayAdd, hxr] using ok.mem x hx
        disk := ok.disk
        overlay := fun x hx ho hb => by
          have hxr : x ≠ r := fun e => hr (e ▸ hx)
          refine ok.overlay x hx ?_ (by simpa using hb)
          simpa [Relation.mem_ov_overlayAdd, hxr] using ho }
  · simpa [Agree] using hf hfired

/-- A removal of a row the transaction log decides. -/
theorem txnDel {r : Row} (ok : RelOk t h s) (hr : t r ≠ none) :
    RelOk t h (deleteFactApply r s) where
  recorded hi := by simpa [deleteFactApply] using ok.recorded hi
  unrecorded hi hf := by
    have hd := ok.flush.unrecorded (by simpa [deleteFactApply] using hi) hf
    simp only [deleteFactApply, Relation.deleteBase]
    split
    · rfl
    · exact hd
  txn := ok.txn
  mem x hx := by
    have hxr : x ≠ r := fun e => hr (e ▸ hx)
    have hm := ok.flush.mem x hx
    simpa [deleteFactApply, hxr] using hm
  disk := ok.disk
  overlay x hx ho := by simp [deleteFactApply] at ho

/-! ### Evaluation, `rels.txt` and closing -/

theorem evalHead (ok : RelOk t h s) (rows : List Row) : RelOk t h (evalHead rows s) := by
  have hbase : (s.mem.store.resetView.buildView rows).base = s.mem.store.base := by
    cases s.mem.store <;> rfl
  have hidb : (s.mem.store.resetView.buildView rows).isIdb = true := by
    cases s.mem.store <;> rfl
  exact
    { recorded := fun _ => hidb
      unrecorded := fun _ _ => rfl
      txn := ok.txn
      mem := fun r hr => by simpa [Durable.evalHead, hbase] using ok.mem r hr
      disk := ok.disk
      overlay := fun r hr ho hb => ok.overlay r hr ho (by simpa [Durable.evalHead, hbase] using hb) }

/-- The file `rels.txt` would name gives the same rows as the one it names now. -/
def FilesAgree (t : Row → Option Bool) (f : RelFiles) : Prop :=
  ∀ r, t r = none → (r ∈ walReplay f.wal f.baseDafsa ↔ r ∈ walReplay f.wal f.dafsa)

theorem writeMeta (ok : RelOk t h s) (hs : Agree s ∨ FilesAgree t s.files) :
    RelOk t h { s with files := { s.files with idb := s.mem.store.isIdb } } where
  recorded hi := hi
  unrecorded hi hf := absurd (hf.symm.trans hi) Bool.false_ne_true
  txn := ok.txn
  mem := ok.mem
  disk r hr := by
    rw [← ok.disk r hr]
    by_cases hag : Agree s
    · rw [show s.mem.store.isIdb = s.files.idb from hag]
    · have hidb : s.mem.store.isIdb = true ∧ s.files.idb = false := by
        have := ok.recorded
        unfold Agree at hag
        cases h1 : s.mem.store.isIdb <;> cases h2 : s.files.idb <;> simp_all
      simpa [RelFiles.baseFile, hidb.1, hidb.2] using hs.resolve_left hag r hr
  overlay := ok.overlay

end RelOk

/-! ## Closing and reopening -/

/-- The files of one relation against the history, as the next open will read them. -/
structure DiskOk (t : Row → Option Bool) (h : Set Row) (f : RelFiles) : Prop where
  /-- The transaction log decides the rows it mentions. -/
  txn : ∀ r b, t r = some b → (r ∈ h ↔ b = true)
  /-- The relation's log decides the other rows. -/
  disk : ∀ r, t r = none → (r ∈ walReplay f.wal f.baseFile ↔ r ∈ h)

theorem RelOk.diskOk {t : Row → Option Bool} {h : Set Row} {s : RelState} (ok : RelOk t h s) :
    DiskOk t h s.files := ⟨ok.txn, ok.disk⟩

/-- The files `dl_close` leaves for one relation. -/
def closeFiles (metaDirty : Bool) (s : RelState) : RelFiles :=
  if metaDirty then { (closeRel s).files with idb := (closeRel s).mem.store.isIdb }
  else (closeRel s).files

/-- The relation is recorded as it is, or the close will record it, or its view holds
the stored rows only: the file read next holds the base. -/
def CloseSafe (t : Row → Option Bool) (metaDirty : Bool) (s : RelState) : Prop :=
  Agree s ∨ metaDirty = true ∨
    ∀ r, t r = none → (r ∈ s.mem.store.view ∨ r ∈ s.mem.ov.rows ↔
      r ∈ s.mem.store.base ∨ r ∈ s.mem.ov.rows)

/-- The files of a clean relation are left alone. -/
theorem closeFiles_of_clean {t : Row → Option Bool} {h : Set Row} {s : RelState} {m : Bool}
    (ok : RelOk t h s) (hd : s.mem.dirty = false) : closeFiles m s = s.files := by
  have hag : s.mem.store.isIdb = s.files.idb := by
    by_contra hag
    obtain ⟨hi, hf⟩ := ok.split_unrecorded hag
    simp [ok.unrecorded hi hf] at hd
  unfold closeFiles closeRel
  simp only [hd, Bool.false_eq_true, if_false, hag]
  split <;> rfl

/-- The files of a dirty relation: an empty log over its base, or over its view. -/
theorem closeFiles_of_dirty {m : Bool} {s : RelState} (hd : s.mem.dirty = true) :
    (closeFiles m s).wal = [] ∧
      (closeFiles m s).baseFile =
        if s.mem.store.isIdb = true ∧ m = false ∧ s.files.idb = false then
          s.mem.overlayFlush.store.view
        else if s.mem.store.isIdb = false ∧ m = false ∧ s.files.idb = true then
          s.files.baseDafsa
        else s.mem.overlayFlush.store.base := by
  cases m <;> cases hi : s.mem.store.isIdb <;> cases hf : s.files.idb <;>
    simp [closeFiles, closeRel, hd, relCompact, hi, hf, RelFiles.saveBase, RelFiles.baseFile]

/-- **A close saves what the next open reads.** -/
theorem RelOk.close {t : Row → Option Bool} {h : Set Row} {s : RelState} {m : Bool}
    (ok : RelOk t h s) (hs : CloseSafe t m s) : DiskOk t h (closeFiles m s) where
  txn := ok.txn
  disk r ht := by
    cases hd : s.mem.dirty with
    | false => rw [closeFiles_of_clean ok hd]; exact ok.disk r ht
    | true =>
      have hflush : r ∈ s.mem.overlayFlush.store.base ↔ r ∈ h := by
        simpa using ok.flush.mem r ht
      obtain ⟨hwal, hfile⟩ := closeFiles_of_dirty (m := m) hd
      rw [hwal, hfile]
      split
      · rename_i hcase
        have hview : r ∈ s.mem.store.view ∨ r ∈ s.mem.ov.rows ↔ r ∈ h := by
          rw [← ok.mem r ht]
          refine (hs.resolve_left ?_).resolve_left ?_ r ht
          · simp [Agree, hcase.1, hcase.2.2]
          · simp [hcase.2.1]
        rw [← hview]
        simp [walReplay, or_comm]
      · split
        · rename_i hcase
          simp [ok.recorded hcase.2.2] at hcase
        · exact hflush

@[simp] theorem isIdb_openWritable (f : RelFiles) : (openWritable f).store.isIdb = f.idb := by
  unfold openWritable
  cases f.idb <;> rfl

@[simp] theorem base_openWritable (f : RelFiles) :
    (openWritable f).store.base = walReplay f.wal f.baseFile := by
  unfold openWritable RelFiles.baseFile
  cases f.idb <;> rfl

theorem recsOf_append (n : RelName) (l₁ l₂ : List (RelName × Rec Row)) :
    recsOf n (l₁ ++ l₂) = recsOf n l₁ ++ recsOf n l₂ := List.filterMap_append

/-- Records about other relations do not touch this one. -/
theorem foldl_txnReplayRec (log : List (RelName × Rec Row)) (rels : RelName → RelState)
    (n : RelName) : (log.foldl txnReplayRec rels) n = (recsOf n log).foldl txnReplayRel (rels n) := by
  induction log generalizing rels with
  | nil => rfl
  | cons e log ih =>
    rw [List.foldl_cons, ih]
    by_cases he : e.1 = n
    · subst he
      simp [recsOf, txnReplayRec]
    · simp [recsOf, txnReplayRec, he, Function.update_of_ne (Ne.symm he)]

/-- Replaying records over an open relation changes its base only. -/
theorem foldl_txnReplayRel (recs : List (Rec Row)) (s : RelState) :
    (recs.foldl txnReplayRel s).files = s.files ∧
      (recs.foldl txnReplayRel s).mem.ov = s.mem.ov ∧
      (recs.foldl txnReplayRel s).mem.store.isIdb = s.mem.store.isIdb ∧
      ∀ r, r ∈ (recs.foldl txnReplayRel s).mem.store.base ↔
        r ∈ SetLog.replay recs {x | x ∈ s.mem.store.base} := by
  induction recs generalizing s with
  | nil => exact ⟨rfl, rfl, rfl, fun r => Iff.rfl⟩
  | cons e recs ih =>
    obtain ⟨hf, ho, hi, hb⟩ := ih (txnReplayRel s e)
    have hset : {x | x ∈ (txnReplayRel s e).mem.store.base} =
        SetLog.apply {x | x ∈ s.mem.store.base} e := by
      ext x
      cases e <;> simp [txnReplayRel, SetLog.apply]
    rw [hset] at hb
    refine ⟨hf.trans ?_, ho.trans ?_, hi.trans ?_, hb⟩ <;> cases e <;> simp [txnReplayRel]

/-- **Reopening good files gives the history, and a good store again.** -/
theorem dlOpen_ok (files : RelName → RelFiles) {log : List (RelName × Rec Row)}
    {n : RelName} {h : Set Row}
    (ok : DiskOk (fun r => SetLog.last r (recsOf n log)) h (files n)) :
    RelOk (fun _ => none) h ((dlOpen files log).rels n) ∧
      ∀ r, r ∈ ((dlOpen files log).rels n).mem.store.base ↔ r ∈ h := by
  set s : RelState := (log.foldl txnReplayRec fun n => ⟨openWritable (files n), files n⟩) n with hs
  obtain ⟨hf, ho, hi, hb⟩ := foldl_txnReplayRel (recsOf n log) ⟨openWritable (files n), files n⟩
  rw [← foldl_txnReplayRec log (fun n => ⟨openWritable (files n), files n⟩) n, ← hs] at hf ho hi hb
  have hbase : ∀ r, r ∈ s.mem.store.base ↔ r ∈ h := fun r => by
    rw [hb, SetLog.mem_replay, Set.mem_ofPred_eq, base_openWritable]
    match hl : SetLog.last r (recsOf n log) with
    | some b => simp [ok.txn r b hl]
    | none => simp [ok.disk r hl]
  have hov : s.mem.ov.rows = [] := by rw [ho]; rfl
  have hag : Agree s := by rw [Agree, hi, hf]; exact isIdb_openWritable _
  have hrel : (dlOpen files log).rels n =
      if log.any (fun e => decide (e.1 = n)) then relCompact s else s := rfl
  rw [hrel]
  split
  · have hflush : ∀ r, r ∈ s.mem.overlayFlush.store.base ↔ r ∈ h := fun r => by
      simp [hov, hbase]
    have hcompact : (relCompact s).files.baseFile = s.mem.overlayFlush.store.base := by
      have hidb : s.files.idb = s.mem.store.isIdb := hag.symm
      simp only [relCompact, RelFiles.saveBase, Relation.isIdb_overlayFlush]
      split <;> simp_all [RelFiles.baseFile]
    have hag' : Agree (relCompact s) := by
      have hidb : s.files.idb = s.mem.store.isIdb := hag.symm
      simp only [Agree, relCompact, RelFiles.saveBase, Relation.isIdb_overlayFlush]
      split <;> simp_all
    refine ⟨?_, hflush⟩
    exact
      { recorded := fun hx => hag'.trans hx
        unrecorded := fun hx hy => absurd (hag'.symm.trans hx) (by simp [hy])
        txn := fun r b hr => by simp at hr
        mem := fun r _ => by
          rw [← hflush r]
          simp [relCompact]
        disk := fun r _ => by
          rw [show (relCompact s).files.wal = [] from rfl, hcompact]
          exact hflush r
        overlay := fun r _ hr => by simp [relCompact] at hr }
  · rename_i hnone
    have hrecs : recsOf n log = [] := by
      rw [recsOf, List.filterMap_eq_nil_iff]
      intro e he
      have hne : e.1 ≠ n := fun hen => hnone (List.any_eq_true.mpr ⟨e, he, by simp [hen]⟩)
      simp [hne]
    refine ⟨?_, hbase⟩
    exact
      { recorded := fun hx => hag.trans hx
        unrecorded := fun hx hy => absurd (hag.symm.trans hx) (by simp [hy])
        txn := fun r b hr => by simp at hr
        mem := fun r _ => by simp [hov, hbase]
        disk := fun r _ => by
          rw [hf]
          exact ok.disk r (by simp [hrecs])
        overlay := fun r _ hr => by simp [hov] at hr }

end DatalogDafsa.Durable
