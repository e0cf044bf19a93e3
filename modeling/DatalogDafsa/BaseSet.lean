import DatalogDafsa.DurableRun

/-!
# What is asserted of a relation

The rows asserted of a relation are those of its base once the overlay is folded in.
Evaluations change views only, and whole views at that; the writes change the base,
but look at the view first: an assertion of a row the view has is dropped as a
duplicate, and a deletion of a row it does not have as absent.

## Main definitions

* `asserted` — the base of a relation, overlay folded in.
* `ViewOp` — what evaluations and reads do to a relation.
* `Event`, `step`, `run` — writes, transactions and evaluations, in any order.
* `AddOk`, `DelOk`, `SafeRun` — the view has no other rows than asserted ones where it
  is asked.
* `asserted_run` — after a safe run the asserted rows are those inserted and not removed
  since.
-/

namespace DatalogDafsa.BaseSet

open SetLog (Rec)
open Catalog (Name)
open Durable

/-- The stored rows of a relation, pending ones included. -/
def asserted (s : RelState) : Set Row := {r | r ∈ s.mem.overlayFlush.store.base}

@[simp] theorem mem_asserted {s : RelState} {r : Row} :
    r ∈ asserted s ↔ r ∈ s.mem.ov.rows ∨ r ∈ s.mem.store.base :=
  Relation.mem_base_overlayFlush

/-! ## Evaluations -/

/-- What evaluations and reads do to a relation. -/
inductive ViewOp
  /-- `rel_reset_view`, of a head before a full evaluation. -/
  | reset
  /-- `rel_build_from_tupleset`. -/
  | build (rows : List Row)
  /-- `rel_add` and `rel_add_tupleset`. -/
  | insert (rows : List Row)
  /-- `rel_delete`. -/
  | remove (r : Row)
  /-- `ovConsolidateForRead`: a read folds the overlay in. -/
  | read
  deriving DecidableEq

/-- One change.  Only a split view is written: loading a rule sets
`full_reeval_pending`, so the first evaluation resets every head, and maintenance runs
only after it. -/
def ViewOp.apply (rel : Relation) : ViewOp → Option Relation
  | .reset => some { rel with store := rel.store.resetView, dirty := true }
  | .build rows =>
    if rel.store.isIdb then
      some { rel with store := rel.store.buildView rows, dirty := true }
    else none
  | .insert rows =>
    if rel.store.isIdb then some { rel with store := rel.store.addRows rows, dirty := true }
    else none
  | .remove r =>
    if rel.store.isIdb then some { rel with store := rel.store.delete r, dirty := true }
    else none
  | .read => some rel.overlayFlush

theorem asserted_viewOp {s : RelState} {m : Relation} {op : ViewOp}
    (h : op.apply s.mem = some m) : asserted { s with mem := m } = asserted s := by
  have hsplit : ∀ {f : Store → Store}, (∀ b d, (f (.split b d)).base = b) →
      (if s.mem.store.isIdb then some { s.mem with store := f s.mem.store, dirty := true }
        else none) = some m → asserted { s with mem := m } = asserted s := by
    intro f hf h
    split at h
    · rename_i hidb
      cases h
      ext r
      rw [mem_asserted, mem_asserted]
      cases hs : s.mem.store with
      | aliased d => rw [hs] at hidb; cases hidb
      | split b d => rw [hf, Store.base_split]
    · cases h
  cases op with
  | reset =>
    cases h
    ext r
    rw [mem_asserted, mem_asserted, Store.base_resetView]
  | build rows => exact hsplit (f := Store.buildView rows) (fun _ _ => rfl) h
  | insert rows => exact hsplit (f := Store.addRows rows) (fun _ _ => rfl) h
  | remove r => exact hsplit (f := Store.delete r) (fun _ _ => rfl) h
  | read =>
    cases h
    ext r
    simp

/-! ## Writes -/

/-- A row of the view that is asserted is asserted already. -/
def AddOk (s : RelState) (r : Row) : Prop := r ∈ s.mem.store.view → r ∈ asserted s

/-- A deleted row that is stored can be seen. -/
def DelOk (s : RelState) (r : Row) : Prop :=
  r ∈ s.mem.store.base → r ∈ s.mem.store.view ∨ r ∈ s.mem.ov.rows

@[simp] theorem asserted_walAppend (e : Rec Row) (s : RelState) :
    asserted (walAppend e s) = asserted s := rfl

@[simp] theorem asserted_maybeCompact (fired : Bool) (s : RelState) :
    asserted (maybeCompact fired s) = asserted s := by
  unfold maybeCompact
  split
  · ext r
    simp [relCompact]
  · rfl

theorem asserted_addFactApply {s : RelState} {r : Row} (h : AddOk s r) (fired : Bool) :
    asserted (addFactApply r fired s) = insert r (asserted s) := by
  rw [addFactApply, asserted_maybeCompact]
  ext x
  rw [Set.mem_insert_iff, mem_asserted, mem_asserted, Relation.mem_ov_overlayAdd,
    Relation.store_overlayAdd]
  by_cases hr : r ∈ s.mem.store.view
  · have hin := mem_asserted.mp (h hr)
    constructor
    · rintro ((hx | ⟨-, hno⟩) | hx)
      · exact .inr (.inl hx)
      · exact absurd hr hno
      · exact .inr (.inr hx)
    · rintro (rfl | hx | hx)
      · exact hin.imp_left .inl
      · exact .inl (.inl hx)
      · exact .inr hx
  · simp only [hr, not_false_eq_true, and_true]
    tauto

theorem asserted_dlAddFact {s : RelState} {r : Row} (h : AddOk s r) (fired : Bool) :
    asserted (dlAddFact r fired s) = insert r (asserted s) := by
  unfold dlAddFact
  split
  · rename_i hex
    have hin : r ∈ asserted s := (Relation.exact_iff.mp hex).elim h fun hov =>
      mem_asserted.mpr (.inl hov)
    exact (Set.insert_eq_of_mem hin).symm
  · exact asserted_addFactApply (s := walAppend (.add r) s) h fired

/-- A direct assertion is lost exactly when the row is in the view without being
asserted. -/
theorem asserted_dlAddFact_iff {s : RelState} {r : Row} {fired : Bool} :
    asserted (dlAddFact r fired s) = insert r (asserted s) ↔ AddOk s r := by
  refine ⟨fun h hview => ?_, fun h => asserted_dlAddFact h fired⟩
  have hex : s.mem.exact r = true := Relation.exact_iff.mpr (.inl hview)
  rw [dlAddFact, if_pos hex] at h
  rw [h]
  exact Set.mem_insert _ _

/-- **A deletion that is applied** deletes. -/
theorem asserted_deleteFactApply (s : RelState) (r : Row) :
    asserted (deleteFactApply r s) = asserted s \ {r} := by
  ext x
  rw [Set.mem_sdiff, Set.mem_singleton_iff, mem_asserted, mem_asserted, deleteFactApply]
  simp only [Relation.ov_deleteBase, Relation.ov_overlayFlush, Relation.mem_base_deleteBase,
    Relation.mem_base_overlayFlush, List.not_mem_nil, false_or]

theorem asserted_dlDeleteFact {s : RelState} {r : Row} (h : DelOk s r) :
    asserted (dlDeleteFact r s) = asserted s \ {r} := by
  unfold dlDeleteFact
  split
  · rw [asserted_deleteFactApply, asserted_walAppend]
    congr 1
    ext x
    simp
  · rename_i hex
    have hno : r ∉ asserted s := fun hin => hex <| Relation.exact_iff.mpr <|
      (mem_asserted.mp hin).elim .inr h
    rw [Set.sdiff_singleton_eq_self hno]

/-- A direct deletion is lost exactly when the row is stored and cannot be seen. -/
theorem asserted_dlDeleteFact_iff {s : RelState} {r : Row} :
    asserted (dlDeleteFact r s) = asserted s \ {r} ↔ DelOk s r := by
  refine ⟨fun h hbase => ?_, asserted_dlDeleteFact⟩
  by_contra hno
  have hex : ¬ s.mem.exact r = true := fun h => hno (Relation.exact_iff.mp h)
  have hin : r ∈ asserted s := mem_asserted.mpr (.inr hbase)
  rw [dlDeleteFact, if_neg hex] at h
  rw [h] at hin
  exact hin.2 rfl

/-! ## Events -/

/-- What happens to a store between opening and closing it.  Loading rules changes no
relation; a query evaluates and reads. -/
inductive Event
  /-- `dl_add_fact`. -/
  | addFact (n : Name) (r : Row) (fired : Bool)
  /-- `dl_delete_fact`. -/
  | deleteFact (n : Name) (r : Row)
  /-- `dl_txn_commit`. -/
  | txnCommit (ops : List (TxnOp × Bool))
  /-- `dl_load_rules`. -/
  | loadRules
  /-- The flush of `consolidate`; the evaluation after it are changes of views. -/
  | consolidate
  /-- One change an evaluation or a read makes. -/
  | changeView (n : Name) (op : ViewOp)

/-- One event; none when a call reports an error or a conflict. -/
def step (db : Db) : Event → Option Db
  | .addFact n r fired => Durable.step db (.addFact (.rel n) r fired)
  | .deleteFact n r => Durable.step db (.deleteFact (.rel n) r)
  | .txnCommit ops => Durable.step db (.txnCommit ops)
  | .loadRules => some db
  | .consolidate =>
    some { db with rels := fun n =>
      { db.rels n with mem := (db.rels n).mem.overlayFlush } }
  | .changeView n op =>
    (op.apply (db.rels (.rel n)).mem).map fun m =>
      db.setRel (.rel n) { db.rels (.rel n) with mem := m }

/-- A run: every event of the list succeeds. -/
def run (db : Db) (es : List Event) : Option Db := es.foldlM step db

/-- The set updates an event asks for, in order. -/
def Event.records : Event → List (RelName × Rec Row)
  | .addFact n r _ => [(.rel n, .add r)]
  | .deleteFact n r => [(.rel n, .del r)]
  | .txnCommit ops => ops.flatMap fun op => op.1.records
  | _ => []

/-- Every insertion of a transaction finds the view as it should be. -/
def SafeTxn (db : Db) : List (TxnOp × Bool) → Prop
  | [] => True
  | op :: ops =>
    (∀ n r, op.1 = .add n r → AddOk (db.rels (.rel n)) r) ∧ SafeTxn (txnApply db op) ops

/-- **The condition on an event**, a condition on the store before it. -/
def Safe (db : Db) : Event → Prop
  | .addFact n r _ => AddOk (db.rels (.rel n)) r
  | .deleteFact n r => DelOk (db.rels (.rel n)) r
  | .txnCommit ops => SafeTxn db ops
  | _ => True

/-- Every event of a run is safe in the store it happens in. -/
def SafeRun (db : Db) : List Event → Prop
  | [] => True
  | e :: es => Safe db e ∧ ∀ db', step db e = some db' → SafeRun db' es

/-- The asserted rows of every relation follow some records. -/
def Follows (log : List (RelName × Rec Row)) (db db' : Db) : Prop :=
  ∀ n, asserted (db'.rels (.rel n)) =
    SetLog.replay (recsOf (.rel n) log) (asserted (db.rels (.rel n)))

theorem Follows.trans {l l' : List (RelName × Rec Row)} {db db' db'' : Db}
    (h : Follows l db db') (h' : Follows l' db' db'') : Follows (l ++ l') db db'' := fun n => by
  rw [h' n, h n, recsOf_append, SetLog.replay_append]

/-- One record about one relation. -/
theorem Follows.setRel {db : Db} {n : Name} {e : Rec Row} {s : RelState}
    (h : asserted s = SetLog.apply (asserted (db.rels (.rel n))) e) :
    Follows [(.rel n, e)] db (db.setRel (.rel n) s) := fun m => by
  by_cases hm : m = n
  · subst hm
    rw [setRel_same, h]
    simp [recsOf]
  · have hne : (RelName.rel m) ≠ .rel n := fun h => hm (RelName.rel.inj h)
    have hrecs : recsOf (.rel m) [(.rel n, e)] = [] := recsOf_of_ne fun e' he' => by
      rw [List.mem_singleton.mp he']
      exact hne.symm
    rw [setRel_of_ne db s hne, hrecs, SetLog.replay_nil]

/-- A change that asserts nothing. -/
theorem Follows.of_eq {db db' : Db}
    (h : ∀ n, asserted (db'.rels (.rel n)) = asserted (db.rels (.rel n))) :
    Follows [] db db' := fun n => by rw [h n]; rfl

/-- One buffered operation. -/
theorem follows_txnApply {db : Db} {op : TxnOp × Bool}
    (h : ∀ n r, op.1 = .add n r → AddOk (db.rels (.rel n)) r) :
    Follows op.1.records db (txnApply db op) := by
  obtain ⟨op, fired⟩ := op
  cases op with
  | cas e expected next =>
    intro n
    have hrev : (RelName.rel n) ≠ .rev := by simp
    have hrecs : recsOf (.rel n) (TxnOp.cas e expected next).records = [] :=
      recsOf_of_ne fun e' he' => by
        simp only [TxnOp.records, List.mem_cons, List.not_mem_nil, or_false] at he'
        rcases he' with rfl | rfl <;> exact hrev.symm
    rw [hrecs, SetLog.replay_nil, txnApply]
    simp only [setRel_of_ne _ _ hrev]
  | add n r => exact Follows.setRel (asserted_addFactApply (h n r rfl) fired)
  | del n r => exact Follows.setRel (asserted_deleteFactApply _ r)

theorem follows_foldl_txnApply {ops : List (TxnOp × Bool)} {db : Db} (h : SafeTxn db ops) :
    Follows (ops.flatMap fun op => op.1.records) db (ops.foldl txnApply db) := by
  induction ops generalizing db with
  | nil => exact Follows.of_eq fun _ => rfl
  | cons op ops ih =>
    rw [List.flatMap_cons, List.foldl_cons]
    exact (follows_txnApply h.1).trans (ih h.2)

/-- The condition is about the relations of the user only. -/
theorem SafeTxn.congr {ops : List (TxnOp × Bool)} {db db' : Db}
    (heq : ∀ n, db'.rels (.rel n) = db.rels (.rel n)) (h : SafeTxn db ops) : SafeTxn db' ops := by
  induction ops generalizing db db' with
  | nil => trivial
  | cons op ops ih =>
    refine ⟨fun n r hop => heq n ▸ h.1 n r hop, @ih (txnApply db op) _ (fun n => ?_) h.2⟩
    obtain ⟨op, fired⟩ := op
    have hset : ∀ (m : Name) (s : RelState),
        (db'.setRel (.rel m) s).rels (.rel n) = (db.setRel (.rel m) s).rels (.rel n) := by
      intro m s
      by_cases hn : n = m
      · subst hn
        rw [setRel_same, setRel_same]
      · have hne : (RelName.rel n) ≠ .rel m := fun h => hn (RelName.rel.inj h)
        rw [setRel_of_ne _ _ hne, setRel_of_ne _ _ hne, heq]
    cases op with
    | cas e expected next =>
      have hrev : (RelName.rel n) ≠ .rev := by simp
      simp only [txnApply, setRel_of_ne _ _ hrev, heq]
    | add m r => simp only [txnApply, heq m, hset]
    | del m r => simp only [txnApply, heq m, hset]

theorem rels_foldl_casRead (ops : List TxnOp) (db : Db) (n : Name) :
    (ops.foldl casRead db).rels (.rel n) = db.rels (.rel n) := by
  induction ops generalizing db with
  | nil => rfl
  | cons op ops ih =>
    rw [List.foldl_cons, ih]
    cases op with
    | cas e expected next => exact setRel_of_ne _ _ (by simp)
    | add m r => rfl
    | del m r => rfl

/-- **One safe event** asserts and removes what it asks for. -/
theorem follows_step {db db' : Db} {e : Event} (h : step db e = some db') (hs : Safe db e) :
    Follows e.records db db' := by
  cases e with
  | addFact n r fired =>
    simp only [step, Durable.step] at h
    split at h
    · cases h
    · cases h
      exact Follows.setRel (asserted_dlAddFact hs fired)
  | deleteFact n r =>
    simp only [step, Durable.step] at h
    split at h
    · cases h
    · cases h
      exact Follows.setRel (asserted_dlDeleteFact hs)
  | txnCommit ops =>
    simp only [step, Durable.step, dlTxnCommit] at h
    split at h
    · cases h
      have hrels : ∀ n, ({ (ops.map Prod.fst).foldl casRead db with
          txnWal := ((ops.map Prod.fst).foldl casRead db).txnWal ++
            ops.flatMap fun op => op.1.records } : Db).rels (.rel n) = db.rels (.rel n) :=
        rels_foldl_casRead _ db
      exact (Follows.of_eq fun n => by rw [hrels]).trans
        (follows_foldl_txnApply (SafeTxn.congr hrels hs))
    · cases h
  | loadRules =>
    cases h
    exact Follows.of_eq fun _ => rfl
  | consolidate =>
    cases h
    refine Follows.of_eq fun n => ?_
    ext r
    simp
  | changeView n op =>
    simp only [step, Option.map_eq_some_iff] at h
    obtain ⟨m, hm, rfl⟩ := h
    refine Follows.of_eq fun k => ?_
    by_cases hk : k = n
    · subst hk
      rw [setRel_same, asserted_viewOp hm]
    · rw [setRel_of_ne _ _ fun h => hk (RelName.rel.inj h)]

/-- **What is asserted of a relation**, after a safe run, is what was inserted and not
removed since. -/
theorem asserted_run {es : List Event} {db db' : Db} (h : run db es = some db')
    (hs : SafeRun db es) (n : Name) :
    asserted (db'.rels (.rel n)) =
      SetLog.replay (recsOf (.rel n) (es.flatMap Event.records)) (asserted (db.rels (.rel n))) := by
  have key : Follows (es.flatMap Event.records) db db' := by
    induction es generalizing db with
    | nil =>
      cases h
      exact Follows.of_eq fun _ => rfl
    | cons e es ih =>
      rw [run, List.foldlM_cons, Option.bind_eq_bind, Option.bind_eq_some_iff] at h
      obtain ⟨db₁, hstep, hrun⟩ := h
      rw [List.flatMap_cons]
      exact (follows_step hstep hs.1).trans (ih hrun (hs.2 db₁ hstep))
  exact key n

/-- A fact and its deletion, around an evaluation of its relation. -/
theorem asserted_run_sample :
    asserted (((run fresh [.addFact ['q'] [1] false, .consolidate, .changeView ['q'] .reset,
        .deleteFact ['q'] [1]]).getD fresh).rels (.rel ['q'])) =
      SetLog.replay (recsOf (.rel ['q']) [(.rel ['q'], .add [1]), (.rel ['q'], .del [1])])
        (asserted (fresh.rels (.rel ['q']))) := by
  refine @asserted_run [.addFact ['q'] [1] false, .consolidate, .changeView ['q'] .reset,
    .deleteFact ['q'] [1]] fresh _ rfl ?_ ['q']
  refine ⟨fun hview => absurd hview (by decide), fun db hdb => ?_⟩
  cases hdb
  refine ⟨trivial, fun db hdb => ?_⟩
  cases hdb
  refine ⟨trivial, fun db hdb => ?_⟩
  cases hdb
  exact ⟨fun _ => .inl (by decide), fun _ _ => trivial⟩

/-- **A derived row cannot be asserted.**  Relation `p` copies relation `q`; the assertion
of its derived row is dropped. -/
theorem derived_not_asserted :
    ¬ ∀ es db', run fresh es = some db' → ∀ n,
      asserted (db'.rels (.rel n)) =
        SetLog.replay (recsOf (.rel n) (es.flatMap Event.records))
          (asserted (fresh.rels (.rel n))) := by
  intro h
  have heq := h [.addFact ['q'] [1] false, .changeView ['p'] .reset,
    .changeView ['p'] (.insert [[1]]), .addFact ['p'] [1] false] _ rfl ['p']
  have hin : ([1] : Row) ∈
      SetLog.replay (recsOf (.rel ['p']) [(.rel ['q'], .add [1]), (.rel ['p'], .add [1])])
        (asserted (fresh.rels (.rel ['p']))) := SetLog.mem_replay.mpr (.inl (by decide))
  have hmem := heq.symm ▸ hin
  exact absurd (mem_asserted.mp hmem) (by decide)

end DatalogDafsa.BaseSet
