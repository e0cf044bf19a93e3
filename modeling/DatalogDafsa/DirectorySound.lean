import DatalogDafsa.DirectoryUpdate

/-!
# A directory and the store behind it

Every event of a directory is one of the store behind it, as long as the names are in
order: the lists agree, an open finds again what was declared, and the records of the
transaction log find the relations they were written for.

## Main results

* `abs_writeRelsTxt`, `abs_declareKind`, `abs_reopen` — the list of relations, written,
  extended and read back.
* `op_sim`, `commit_sim` — operations and commits.
* `step_sim` — every event.
-/

namespace DatalogDafsa.Directory

open SetLog (Rec)
open Catalog (Name RelEntry Part DbFile MetaLine GoodName GoodLine dbFiles readRelsTxt Accepted
  Buildable)
open Kinds (Definite)
open Durable TxnLog
open TxnWal (Bytes header)
open Atomic (Event CasEnd CommitEnd Buffer casCut saveOnly opAllowed declared StOk)

variable {crc : Bytes → UInt32} {st : St}

/-! ## Operations keep the mark -/

@[simp] theorem idb_saveBase (f : RelFiles) (s : Store) : (f.saveBase s).idb = f.idb := by
  unfold RelFiles.saveBase
  split <;> rfl

theorem keepsMark_maybeCompact (fired : Bool) : KeepsMark (maybeCompact fired) := fun s =>
  Atomic.idb_maybeCompact fired s

theorem keepsMark_relCompact : KeepsMark relCompact := keepsMark_maybeCompact true

theorem keepsMark_flush : KeepsMark flush := fun _ => rfl

theorem keepsMark_addFactApply (r : Row) (fired : Bool) : KeepsMark (addFactApply r fired) :=
  fun _ => keepsMark_maybeCompact fired _

theorem keepsMark_deleteFactApply (r : Row) : KeepsMark (deleteFactApply r) := fun _ => rfl

theorem keepsMark_dlAddFact (r : Row) (fired : Bool) : KeepsMark (dlAddFact r fired) := fun s => by
  unfold dlAddFact
  split
  · rfl
  · exact keepsMark_addFactApply r fired _

theorem keepsMark_dlDeleteFact (r : Row) : KeepsMark (dlDeleteFact r) := fun s => by
  unfold dlDeleteFact
  split <;> rfl

theorem keepsMark_casApply (e expected new : Val) (fired : Bool) :
    KeepsMark (casApply e expected new fired) := fun _ => keepsMark_addFactApply _ fired _

theorem keepsMark_dlLoadFacts (rows : List Row) : KeepsMark (dlLoadFacts rows) := fun _ =>
  idb_saveBase _ _

theorem keepsMark_evalHead (rows : List Row) : KeepsMark (evalHead rows) := fun _ => rfl

theorem keepsMark_txnReplayRel (e : Rec Row) : KeepsMark fun s => txnReplayRel s e := fun s => by
  cases e <;> rfl

theorem keepsMark_saveOnly : KeepsMark saveOnly := fun _ => idb_saveBase _ _

theorem keepsMark_casCut (e expected next : Val) (ends : CasEnd) :
    KeepsMark (casCut e expected next ends) := fun s => by
  cases ends with
  | saved => exact (idb_saveBase _ _).trans (keepsMark_casApply e expected next false s)
  | _ => rfl

theorem keepsMark_closeRel : KeepsMark closeRel := fun s => by
  unfold closeRel
  split
  · have h := keepsMark_relCompact s
    dsimp only
    split <;> exact h
  · rfl

theorem flush_blank : flush blank = blank := rfl

theorem closeRel_blank : closeRel blank = blank := rfl

/-! ## The text of the list -/

theorem goodLine_line (h : Sound st) {r : Rel} (hr : r ∈ st.rels) : GoodLine r.line where
  name := h.names.good r.entry (List.mem_map_of_mem hr)
  arity_le := h.accepted.arity_le r.entry (List.mem_map_of_mem hr)
  kinds := h.kinds r hr

/-- The list that was written is read back. -/
theorem readRelsTxt_written (h : Sound st) :
    readRelsTxt st.writeRelsTxt.relsTxt = st.rels.map Rel.line := by
  refine Catalog.readRelsTxt_writeRelsTxt (fun m hm => ?_) ?_
  · obtain ⟨r, hr, rfl⟩ := List.mem_map.1 hm
    exact goodLine_line h hr
  · have := h.accepted.length_le
    simpa [St.entries] using this

/-- The list is the one of the database once it is written. -/
theorem Sound.writeRelsTxt (h : Sound st) : Inv st.writeRelsTxt where
  names := h.names
  accepted := h.accepted
  buildable := h.buildable
  kinds := h.kinds
  clean := h.clean
  lines := by
    rw [readRelsTxt_written h, List.map_map]
    rfl

/-- Every relation is recorded as it is. -/
theorem get_writeRelsTxt (h : Sound st) (n : RelName) :
    st.writeRelsTxt.get n =
      { st.get n with files := { (st.get n).files with idb := (st.get n).mem.store.isIdb } } := by
  have hfind : findFixed st.writeRelsTxt.rels n = findFixed st.rels n := rfl
  cases hr : findFixed st.rels n with
  | none =>
    rw [get_of_none hr, get_of_none (hfind.trans hr)]
    rfl
  | some r =>
    obtain ⟨hmem, -, hfix⟩ := findFixed_mem hr
    have hmark : st.writeRelsTxt.mark r.entry.name = r.mem.store.isIdb := by
      rw [St.mark, readRelsTxt_written h, List.find?_map]
      have hone := (findFixed_eq_some.1 (findFixed_of_mem h.nodup_names hmem hfix)).2.1
      rw [RelName.name_ofName] at hone
      have hcomp : ((fun m : MetaLine => decide (m.name = r.entry.name)) ∘ Rel.line) =
          fun r' => decide (r'.entry.name = r.entry.name) := rfl
      rw [hcomp, hone]
      show r.idb = _
      rw [Rel.idb, if_neg hfix]
    rw [get_of_find hr, get_of_find (hfind.trans hr)]
    show (⟨r.mem, st.files r.part (st.writeRelsTxt.mark r.entry.name)⟩ : RelState) = _
    rw [hmark]
    rfl

/-- **Writing the list** records the split of every relation. -/
theorem abs_writeRelsTxt (h : Sound st) :
    st.writeRelsTxt.abs crc = { st.abs crc with db := Durable.writeRelsTxt (st.abs crc).db } := by
  have hget : st.writeRelsTxt.get = fun n =>
      { st.get n with files := { (st.get n).files with idb := (st.get n).mem.store.isIdb } } :=
    funext (get_writeRelsTxt h)
  show Atomic.St.mk ⟨st.writeRelsTxt.get, _, _⟩ _ _ = _
  rw [hget]
  rfl

/-! ## Operations -/

/-- **An operation that succeeds** is one of the store behind the directory. -/
theorem op_sim (h : Inv st) {o : Op} (ho : opAllowed st.entries o = true) {st' : St}
    (hstep : st.op o = some st') :
    Inv st' ∧ ∃ db, Durable.step (st.abs crc).db o = some db ∧
      st'.abs crc = { st.abs crc with db } := by
  have hfollows : ∀ {f : St → St} {g : Db → Db}, Follows crc st.entries f g →
      Inv (f st) ∧ (f st).abs crc = { st.abs crc with db := g (st.abs crc).db } := by
    intro f g hfg
    obtain ⟨hinv, hkept, hdb⟩ := hfg st h rfl
    refine ⟨hinv, ?_⟩
    rw [← hdb, hkept.abs]
  cases o with
  | addFact n r fired =>
    simp only [St.op, Option.ite_none_left_eq_some] at hstep
    obtain ⟨hn, hstep⟩ := hstep
    cases hstep
    have hsome : (arityOf st.entries n).isSome := by
      rw [of_decide_eq_true ho]
      rfl
    obtain ⟨hinv, habs⟩ := hfollows (Follows.update hsome (keepsMark_dlAddFact r fired))
    exact ⟨hinv, _, if_neg hn, habs⟩
  | deleteFact n r =>
    simp only [St.op, Option.ite_none_left_eq_some] at hstep
    obtain ⟨hn, hstep⟩ := hstep
    cases hstep
    have hsome : (arityOf st.entries n).isSome := by
      rw [of_decide_eq_true ho]
      rfl
    obtain ⟨hinv, habs⟩ := hfollows (Follows.update hsome (keepsMark_dlDeleteFact r))
    exact ⟨hinv, _, if_neg hn, habs⟩
  | casRevision e expected new fired =>
    simp only [St.op] at hstep
    split at hstep
    · rename_i heq
      cases hstep
      exact ⟨h, _, if_pos heq, rfl⟩
    · rename_i hne
      rw [Option.ite_none_right_eq_some] at hstep
      obtain ⟨hcur, hstep⟩ := hstep
      cases hstep
      have harity : arityOf st.entries .rev = some 2 := by simpa [opAllowed, hne] using ho
      have hsome : (arityOf st.entries .rev).isSome := by
        rw [harity]
        rfl
      obtain ⟨hinv, habs⟩ :=
        hfollows (Follows.update hsome (keepsMark_casApply e expected new fired))
      refine ⟨hinv, _, ?_, habs⟩
      rw [Durable.step, if_neg hne]
      exact if_pos hcur
  | loadFacts n rows =>
    cases hstep
    have hsome : (arityOf st.entries n).isSome := by
      cases hk : arityOf st.entries n with
      | none => simp [opAllowed, hk] at ho
      | some k => rfl
    obtain ⟨hinv, habs⟩ := hfollows (Follows.update hsome (keepsMark_dlLoadFacts rows))
    exact ⟨hinv, _, rfl, habs⟩
  | txnCommit ops => cases hstep
  | consolidate heads =>
    cases hstep
    have hheads : ∀ x ∈ heads, (arityOf st.entries x.1).isSome := by
      intro x hx
      have := List.all_eq_true.1 ho x hx
      rw [Bool.and_eq_true] at this
      exact this.2
    obtain ⟨hinv, habs⟩ := hfollows <| (Follows.each keepsMark_flush flush_blank).comp <|
      Follows.foldl (l := heads) (f := fun st x => st.update x.1 (evalHead x.2))
        (g := fun db x => db.setRel x.1 (evalHead x.2 (db.rels x.1)))
        fun x hx => Follows.update (hheads x hx) (keepsMark_evalHead x.2)
    exact ⟨hinv, _, rfl, habs⟩
  | compact n =>
    cases hstep
    obtain ⟨hinv, habs⟩ := hfollows (Follows.update ho keepsMark_relCompact)
    exact ⟨hinv, _, rfl, habs⟩
  | writeMeta dirty =>
    cases hstep
    have hinv := h.toSound.writeRelsTxt
    refine ⟨⟨⟨hinv.names, hinv.accepted, hinv.buildable, hinv.kinds, hinv.clean⟩, hinv.lines⟩,
      _, rfl, ?_⟩
    have habs := @abs_writeRelsTxt crc st h.toSound
    show Atomic.St.mk ⟨((st.writeRelsTxt).abs crc).db.rels, ((st.writeRelsTxt).abs crc).db.txnWal,
      dirty⟩ _ _ = _
    rw [habs]
    rfl
  | markMeta dirty =>
    cases hstep
    exact ⟨⟨⟨h.names, h.accepted, h.buildable, h.kinds, h.clean⟩, h.lines⟩, _, rfl, rfl⟩

/-! ## Opening -/

/-- A relation as it is opened from its line. -/
def St.openRel (st : St) (m : MetaLine) : Rel :=
  ⟨lineEntry m, m.kinds, openWritable (st.files ⟨lineEntry m, 0⟩ m.idb), m.idb⟩

/-- A line has one kind for each column. -/
theorem length_kinds_of_readLine {line : List Char} {m : MetaLine}
    (h : Catalog.readLine line = some m) : m.kinds.length = m.arity := by
  unfold Catalog.readLine at h
  dsimp only at h
  split at h
  · cases h
  · split at h
    · cases h
      simp
    · cases h

theorem length_kinds_of_mem {text : List Char} {m : MetaLine} (h : m ∈ readRelsTxt text) :
    m.kinds.length = m.arity := by
  obtain ⟨line, -, hline⟩ := List.mem_filterMap.1 (List.mem_of_mem_take h)
  exact length_kinds_of_readLine hline

/-- **One line is opened as a new relation.** -/
theorem openLine_eq {m : MetaLine} (hkinds : m.kinds.length = m.arity)
    (h : Catalog.dlDeclareRelationKind st.entries m.name m.arity true =
      some (st.entries ++ [lineEntry m])) :
    openLine st m = { st with rels := st.rels ++ [st.openRel m] } := by
  have hdecl : declared st.entries (lineEntry m) true = st.entries ++ [lineEntry m] := by
    show (Catalog.dlDeclareRelationKind st.entries m.name m.arity true).getD _ = _
    rw [h]
    rfl
  have hkind : st.declareKind (lineEntry m) m.idb true true =
      { st with rels := st.rels ++ [st.newRel (lineEntry m) m.idb] } := by
    unfold St.declareKind
    rw [hdecl, if_neg (by simp), if_pos rfl]
  unfold openLine
  dsimp only
  rw [show (⟨m.name, m.arity⟩ : RelEntry) = lineEntry m from rfl, hkind]
  split
  · rename_i hzero
    have hnil : m.kinds = [] := List.length_eq_zero_iff.1 (hkinds.trans hzero)
    have hrel : st.newRel (lineEntry m) m.idb = st.openRel m := by
      simp [St.newRel, St.openRel, lineEntry, hzero, hnil]
    rw [hrel]
  · rename_i hfix
    -- no other relation has the name
    have hnew : ∀ r ∈ st.rels, noteLine m r = r := by
      intro r hr
      rcases Catalog.dlDeclareRelationKind_cases h with ⟨heq, -⟩ | ⟨-, -, -, -, -, hfind, -⟩
      · simp at heq
      · exact if_neg fun hname =>
          Catalog.findRel_eq_none hfind r.entry (List.mem_map_of_mem hr) hname.1
    have hone : noteLine m (st.newRel (lineEntry m) m.idb) = st.openRel m := by
      have hrep : List.replicate (lineEntry m).arity (none : Option Definite) =
          List.replicate m.kinds.length none := by
        rw [hkinds]
        rfl
      unfold noteLine
      rw [if_pos ⟨rfl, hfix⟩]
      simp only [St.newRel, St.openRel, hrep, Catalog.noteAll_replicate]
    dsimp only
    rw [List.map_append, List.map_singleton, hone, List.map_congr_left hnew, List.map_id']

/-- **The lines of the list** are opened in order. -/
theorem foldl_openLine (h : Inv st) :
    (readRelsTxt st.relsTxt).foldl openLine { st with rels := [], metaDirty := false } =
      { st with rels := (readRelsTxt st.relsTxt).map st.openRel, metaDirty := false } := by
  have key : ∀ pre post, readRelsTxt st.relsTxt = pre ++ post →
      post.foldl openLine { st with rels := pre.map st.openRel, metaDirty := false } =
        { st with rels := (readRelsTxt st.relsTxt).map st.openRel, metaDirty := false } := by
    intro pre post
    induction post generalizing pre with
    | nil =>
      intro heq
      rw [heq, List.append_nil]
      rfl
    | cons m post ih =>
      intro heq
      set st₁ : St := { st with rels := pre.map st.openRel, metaDirty := false } with hst₁
      have hentries : st₁.entries = pre.map lineEntry := by
        simp [hst₁, St.entries, St.openRel, Function.comp_def]
      have hbuild : Catalog.dlDeclareRelationKind st₁.entries m.name m.arity true =
          some (st₁.entries ++ [lineEntry m]) := by
        rw [hentries]
        refine h.buildable (pre.map lineEntry) (lineEntry m) (post.map lineEntry) ?_
        rw [← h.lines, heq, List.map_append, List.map_cons]
      have hmem : m ∈ readRelsTxt st.relsTxt := by simp [heq]
      have hrel : st₁.openRel m = st.openRel m := rfl
      rw [List.foldl_cons, openLine_eq (length_kinds_of_mem hmem) hbuild, hrel]
      have := ih (pre ++ [m]) (by simp [heq])
      simpa [hst₁] using this
  exact key [] _ rfl

/-- The database when the list has been read. -/
def St.listed (st : St) : St :=
  { st with rels := (readRelsTxt st.relsTxt).map st.openRel, metaDirty := false }

theorem entries_listed (h : Inv st) : st.listed.entries = st.entries := by
  rw [← h.lines]
  simp [St.listed, St.entries, St.openRel, Function.comp_def]

theorem Inv.listed (h : Inv st) : Inv st.listed := by
  apply h.of_entries (entries_listed h) rfl
  · intro r hr
    obtain ⟨m, hm, rfl⟩ := List.mem_map.1 hr
    exact length_kinds_of_mem hm
  · intro x _
    exact ⟨rfl, rfl⟩

/-- Every relation is opened from its own files, with the mark of its line. -/
theorem get_listed (h : Inv st) (n : RelName) :
    st.listed.get n = ⟨openWritable (st.get n).files, (st.get n).files⟩ := by
  have hsome := isSome_arityOf st.listed n
  rw [entries_listed h, isSome_arityOf] at hsome
  cases hr : findFixed st.rels n with
  | none =>
    rw [hr, Option.isSome_none, eq_comm, Option.isSome_eq_false_iff,
      Option.isNone_iff_eq_none] at hsome
    rw [get_of_none hr, get_of_none hsome]
    rfl
  | some r =>
    rw [hr, Option.isSome_some, eq_comm, Option.isSome_iff_exists] at hsome
    obtain ⟨r', hr'⟩ := hsome
    obtain ⟨hmem', hname', hfix'⟩ := findFixed_mem hr'
    obtain ⟨hmem, hname, hfix⟩ := findFixed_mem hr
    obtain ⟨m, hm, rfl⟩ := List.mem_map.1 hmem'
    have hmname : m.name = r.entry.name := RelName.ofName_inj (hname'.trans hname.symm)
    have hentry : lineEntry m = r.entry := by
      refine List.inj_on_of_nodup_map h.accepted.names ?_ (List.mem_map_of_mem hmem) hmname
      rw [← h.lines]
      exact List.mem_map_of_mem hm
    have hmark : st.mark r.entry.name = m.idb := by
      have hnodup : ((readRelsTxt st.relsTxt).map MetaLine.name).Nodup := by
        have := h.accepted.names
        rwa [← h.lines, List.map_map] at this
      unfold St.mark
      cases hfind : (readRelsTxt st.relsTxt).find? fun m => m.name = r.entry.name with
      | none =>
        have := List.find?_eq_none.1 hfind m hm
        simp [hmname] at this
      | some m' =>
        have hm' : m'.name = r.entry.name := by simpa using List.find?_some hfind
        have := List.inj_on_of_nodup_map hnodup (List.mem_of_find?_eq_some hfind) hm
          (hm'.trans hmname.symm)
        rw [this]
        rfl
    rw [get_of_find hr, get_of_find hr']
    show (⟨openWritable (st.files ⟨lineEntry m, 0⟩ m.idb),
      st.files ⟨lineEntry m, 0⟩ (st.mark m.name)⟩ : RelState) =
        ⟨openWritable (st.files ⟨r.entry, 0⟩ (st.mark r.entry.name)),
          st.files ⟨r.entry, 0⟩ (st.mark r.entry.name)⟩
    rw [hentry, hmname, hmark]

/-- A change of a row has a relation. -/
theorem isSome_of_changeOk {rels : List RelEntry} {e : RelName × Rec Row} (h : ChangeOk rels e) :
    (arityOf rels e.1).isSome := by
  rw [show arityOf rels e.1 = _ from h]
  rfl

/-- The committed records are those of the log. -/
theorem LogOk.decoded {rels : List RelEntry} {log : Bytes} {es : List (RelName × Rec Row)}
    (h : LogOk crc rels log es) (hl : Listed rels) : (TxnLog.replayTxnWal crc rels log).1 = es := by
  obtain ⟨log', hreplay, -⟩ := h.replay hl
  rw [hreplay]

/-- Replaying records one by one, as a change of the store. -/
theorem rels_foldl_replay (es : List (RelName × Rec Row)) (db : Db) :
    es.foldl (fun db e => db.setRel e.1 (txnReplayRel (db.rels e.1) e.2)) db =
      { db with rels := es.foldl txnReplayRec db.rels } := by
  induction es generalizing db with
  | nil => rfl
  | cons e es ih =>
    rw [List.foldl_cons, ih]
    rfl

/-- The records of a log and the compactions after them. -/
theorem follows_replay {entries : List RelEntry} {es : List (RelName × Rec Row)}
    (hes : ∀ e ∈ es, (arityOf entries e.1).isSome) :
    Follows crc entries (fun st => (st.txnReplay es).compactTouched es) fun db =>
      { db with rels := fun n =>
          if es.any (fun e => decide (e.1 = n)) then relCompact (es.foldl txnReplayRec db.rels n)
          else es.foldl txnReplayRec db.rels n } := by
  have hreplay : Follows crc entries (fun st => st.txnReplay es) fun db =>
      { db with rels := es.foldl txnReplayRec db.rels } := by
    have h := @Follows.foldl crc entries _ es
      (fun st e => st.update e.1 fun s => txnReplayRel s e.2)
      (fun db e => db.setRel e.1 (txnReplayRel (db.rels e.1) e.2))
      fun e he => Follows.update (hes e he) (keepsMark_txnReplayRel e.2)
    simp only [rels_foldl_replay] at h
    exact h
  refine hreplay.comp (Follows.touched keepsMark_relCompact (p := fun n => es.any fun e => e.1 = n)
    fun n hn => .inl ?_)
  obtain ⟨e, he, hen⟩ := List.any_eq_true.1 hn
  rw [← of_decide_eq_true hen]
  exact hes e he

/-- **Opening what is on disk** is opening the store behind the directory. -/
theorem abs_reopen (h : Inv st) {es : List (RelName × Rec Row)}
    (hlog : LogOk crc st.entries st.txnLog es) :
    Inv (st.reopen crc) ∧ (st.reopen crc).entries = st.entries ∧
      (st.reopen crc).abs crc = (st.abs crc).reopen crc := by
  have hlisted := h.names.listed h.accepted
  obtain ⟨log', hreplay, hlog'⟩ := hlog.replay hlisted
  have he := entries_listed h
  set st₁ : St := { st.listed with txnLog := log' } with hst₁
  have hinv₁ : Inv st₁ :=
    have h := h.listed
    ⟨⟨h.names, h.accepted, h.buildable, h.kinds, h.clean⟩, h.lines⟩
  have hopen : st.reopen crc = (st₁.txnReplay es).compactTouched es := by
    show St.replayTxnWal crc (List.foldl openLine { st with rels := [], metaDirty := false } _) = _
    rw [foldl_openLine h]
    show St.replayTxnWal crc st.listed = _
    unfold St.replayTxnWal
    rw [he, show st.listed.txnLog = st.txnLog from rfl, hreplay]
  have hes : ∀ e ∈ es, (arityOf st.entries e.1).isSome := fun e hmem =>
    isSome_of_changeOk (hlog.changes e hmem)
  obtain ⟨hinv, hkept, hdb⟩ := @follows_replay crc _ _ hes st₁ hinv₁ he
  rw [hopen]
  refine ⟨hinv, hkept.entries.trans he, ?_⟩
  have hget : (st₁.abs crc).db.rels = fun n => ⟨openWritable (st.get n).files, (st.get n).files⟩ :=
    funext (get_listed h)
  have hnone : (st₁.abs crc).db.txnWal = [] := by
    show (TxnLog.replayTxnWal crc st.listed.entries log').1 = []
    rw [he]
    exact LogOk.decoded hlog' hlisted
  have hright : (st.abs crc).reopen crc =
      ⟨Durable.dlOpen (fun n => (st.get n).files) es, st.entries, log'⟩ :=
    Atomic.openStore_of_replay hreplay
  have hleft : ((st₁.txnReplay es).compactTouched es).abs crc =
      ⟨(((st₁.txnReplay es).compactTouched es).abs crc).db, st.entries, log'⟩ := by
    have hentries : ((st₁.txnReplay es).compactTouched es).entries = st.entries :=
      hkept.entries.trans he
    have hlog : ((st₁.txnReplay es).compactTouched es).txnLog = log' := hkept.txnLog
    rw [← hentries, ← hlog]
    rfl
  rw [hleft, hright, hdb]
  dsimp only
  rw [hget, hnone]
  rfl

/-! ## Declaring -/

/-- A declaration that appends would be accepted when the list is read. -/
theorem declared_again {entries : List RelEntry} {e : RelEntry} {opens : Bool}
    (h : declared entries e opens = entries ++ [e]) :
    Catalog.dlDeclareRelationKind entries e.name e.arity true = some (entries ++ [e]) := by
  have hsome : Catalog.dlDeclareRelationKind entries e.name e.arity opens =
      some (entries ++ [e]) := by
    have hd : (Catalog.dlDeclareRelationKind entries e.name e.arity opens).getD entries =
        entries ++ [e] := h
    cases hx : Catalog.dlDeclareRelationKind entries e.name e.arity opens with
    | none =>
      rw [hx] at hd
      simp at hd
    | some es =>
      rw [hx] at hd
      exact congrArg some hd
  cases opens with
  | true => exact hsome
  | false =>
    unfold Catalog.dlDeclareRelationKind at hsome ⊢
    repeat' split at hsome
    all_goals simp_all

/-- A file that a new relation would share is no file of the others. -/
theorem path_ne_of_new {entries : List RelEntry} {e : RelEntry} (h : NamesOk (entries ++ [e]))
    (hfix : ¬ e.Variadic) (hnew : Catalog.findRel entries e.name = none) {f g : DbFile}
    (hf : f ∈ (⟨e, 0⟩ : Part).files) (hg : g ∈ dbFiles entries) : g.path ≠ f.path := by
  intro hpath
  have hpart : (⟨e, 0⟩ : Part) ∈ Catalog.parts (entries ++ [e]) :=
    Catalog.mem_parts_fixed (by simp) hfix
  have hsub : g ∈ dbFiles (entries ++ [e]) := by
    rcases Catalog.mem_dbFiles.1 hg with hg | ⟨p, hp, hg⟩
    · exact Catalog.mem_dbFiles.2 (.inl hg)
    · refine Catalog.mem_dbFiles.2 (.inr ⟨p, ?_, hg⟩)
      rw [Catalog.parts, List.flatMap_append]
      exact List.mem_append_left _ hp
  obtain rfl := h.file_inj hsub (file_mem hpart hf) hpath
  rcases Catalog.mem_dbFiles.1 hg with hg | ⟨p, hp, hg⟩
  · simp only [Part.files, List.mem_cons, List.not_mem_nil, or_false] at hf
    rcases hf with rfl | rfl | rfl <;> simp [Catalog.systemFiles] at hg
  · have h₁ := Catalog.part?_of_mem_files hf
    rw [Catalog.part?_of_mem_files hg] at h₁
    obtain rfl : p = ⟨e, 0⟩ := Option.some.inj h₁
    exact Catalog.findRel_eq_none hnew e (Catalog.mem_parts.1 hp).1 rfl

/-- A new relation is found where there was none, and there is nothing in it. -/
theorem get_append (h : Inv st) {e : RelEntry} (hnames : NamesOk (st.entries ++ [e]))
    (hnew : Catalog.findRel st.entries e.name = none) (n : RelName) :
    St.get { st with rels := st.rels ++ [st.newRel e false] } n = st.get n := by
  have hnone : st.rels.find? (fun r => r.entry.name = e.name) = none := by
    rw [List.find?_eq_none]
    intro r hr
    simpa using Catalog.findRel_eq_none hnew r.entry (List.mem_map_of_mem hr)
  cases hr : findFixed st.rels n with
  | some r =>
    have hr' : findFixed (st.rels ++ [st.newRel e false]) n = some r := by
      obtain ⟨hn, hfind, hfix⟩ := findFixed_eq_some.1 hr
      refine findFixed_eq_some.2 ⟨hn, ?_, hfix⟩
      rw [List.find?_append, hfind]
      rfl
    rw [get_of_find hr, get_of_find hr']
    rfl
  | none =>
    rw [get_of_none hr]
    by_cases hfound : RelName.ofName e.name = n ∧ ¬ e.Variadic
    · obtain ⟨rfl, hfix⟩ := hfound
      have hr' : findFixed (st.rels ++ [st.newRel e false]) (.ofName e.name) =
          some (st.newRel e false) := by
        refine findFixed_eq_some.2 ⟨by simp, ?_, hfix⟩
        rw [RelName.name_ofName, List.find?_append, hnone]
        simp [St.newRel]
      have hmark : st.mark e.name = false := by
        unfold St.mark
        cases hfind : (readRelsTxt st.relsTxt).find? fun m => m.name = e.name with
        | none => rfl
        | some m =>
          have hm : m.name = e.name := by simpa using List.find?_some hfind
          have hmem : lineEntry m ∈ st.entries := by
            rw [← h.lines]
            exact List.mem_map_of_mem (List.mem_of_find?_eq_some hfind)
          exact absurd hm (Catalog.findRel_eq_none hnew _ hmem)
      have hclean : ∀ f ∈ (⟨e, 0⟩ : Part).files,
          st.automata f.path = .create ∧ st.logs f.path = [] := fun f hf =>
        h.clean f.path fun g hg => path_ne_of_new hnames hfix hnew hf hg
      have hfiles : st.files ⟨e, 0⟩ false = .none := by
        have hd := (hclean (.dafsa ⟨e, 0⟩) (by simp [Part.files])).1
        have hb := (hclean (.base ⟨e, 0⟩) (by simp [Part.files])).1
        have hw := (hclean (.wal ⟨e, 0⟩) (by simp [Part.files])).2
        rw [St.files, hd, hb, hw]
        rfl
      rw [get_of_find hr']
      show (⟨openWritable (st.files ⟨e, 0⟩ false), st.files ⟨e, 0⟩ (st.mark e.name)⟩ : RelState) = _
      rw [hmark, hfiles]
      rfl
    · rw [get_of_none]
      unfold findFixed at hr ⊢
      split
      · rename_i hn
        rw [if_pos hn] at hr
        rw [List.find?_append]
        cases hfind : st.rels.find? fun r => r.entry.name = n.name with
        | some r =>
          rw [hfind] at hr
          exact hr
        | none =>
          by_cases hname : e.name = n.name
          · have hvar : e.Variadic := by
              by_contra hfix
              exact hfound ⟨by rw [hname, hn], hfix⟩
            simp [St.newRel, hname, Option.filter, hvar]
          · simp [St.newRel, hname]
      · rfl

/-- The list after a declaration that appends. -/
theorem Sound.declare (h : Inv st) {e : RelEntry} {opens : Bool}
    (hnames : NamesOk (declared st.entries e opens))
    (happ : declared st.entries e opens = st.entries ++ [e]) :
    Sound { st with rels := st.rels ++ [st.newRel e false] } := by
  have hentries : St.entries { st with rels := st.rels ++ [st.newRel e false] } =
      st.entries ++ [e] := by
    simp [St.entries, St.newRel]
  refine ⟨?_, ?_, ?_, ?_, ?_⟩
  · rw [hentries, ← happ]
    exact hnames
  · rw [hentries, ← happ]
    exact h.accepted.declare _
  · rw [hentries]
    exact h.buildable.append (declared_again happ)
  · intro r hr
    rcases List.mem_append.1 hr with hr | hr
    · exact h.kinds r hr
    · rw [List.mem_singleton.1 hr]
      exact List.length_replicate
  · intro x hx
    refine h.clean x fun f hf => hx f ?_
    rw [hentries]
    rcases Catalog.mem_dbFiles.1 hf with hf | ⟨p, hp, hf⟩
    · exact Catalog.mem_dbFiles.2 (.inl hf)
    · refine Catalog.mem_dbFiles.2 (.inr ⟨p, ?_, hf⟩)
      rw [Catalog.parts, List.flatMap_append]
      exact List.mem_append_left _ hp

/-- **A declaration** is one of the store behind the directory. -/
theorem abs_declareKind (h : Inv st) {es : List (RelName × Rec Row)}
    (hlog : LogOk crc st.entries st.txnLog es) {e : RelEntry} {opens : Bool}
    (hnames : NamesOk (declared st.entries e opens)) :
    Inv (st.declareKind e false opens false) ∧
      Atomic.step crc (st.abs crc) (.declare e opens) =
        some ((st.declareKind e false opens false).abs crc) := by
  rcases Atomic.declared_cases st.entries e opens with heq | ⟨happ, hnew⟩
  · have hlen : (declared st.entries e opens).length = st.entries.length := by rw [heq]
    have hsame : st.declareKind e false opens false = st := if_pos hlen
    rw [hsame]
    exact ⟨h, if_pos hlen⟩
  · have hlen : (declared st.entries e opens).length ≠ st.entries.length := by simp [happ]
    set st₁ : St := { st with rels := st.rels ++ [st.newRel e false] } with hst₁
    have hsound : Sound st₁ := Sound.declare h hnames happ
    have hentries : st₁.entries = declared st.entries e opens := by
      rw [happ]
      simp [hst₁, St.entries, St.newRel]
    have hdecl : st.declareKind e false opens false =
        { st₁.writeRelsTxt with metaDirty := true } := by
      unfold St.declareKind
      rw [if_neg hlen]
      rfl
    have hinv := hsound.writeRelsTxt
    have hget : st₁.get = st.get := funext (get_append h (happ ▸ hnames) hnew)
    have hdecoded : (TxnLog.replayTxnWal crc st₁.entries st.txnLog).1 =
        (TxnLog.replayTxnWal crc st.entries st.txnLog).1 := by
      have hmono : LogOk crc st₁.entries st.txnLog es := by
        rw [hentries]
        exact hlog.mono fun n k hk => Atomic.arityOf_declared hk e opens
      rw [LogOk.decoded hmono (hsound.names.listed hsound.accepted),
        LogOk.decoded hlog (h.names.listed h.accepted)]
    rw [hdecl]
    refine ⟨⟨⟨hinv.names, hinv.accepted, hinv.buildable, hinv.kinds, hinv.clean⟩, hinv.lines⟩, ?_⟩
    have habs := @abs_writeRelsTxt crc st₁ hsound
    have hleft : Atomic.step crc (st.abs crc) (.declare e opens) =
        some { st.abs crc with
          db := { Durable.writeRelsTxt (st.abs crc).db with metaDirty := true },
          entries := declared st.entries e opens } := if_neg hlen
    have hdb : (st₁.abs crc).db = (st.abs crc).db := by
      show Db.mk st₁.get (TxnLog.replayTxnWal crc st₁.entries st.txnLog).1 st.metaDirty = _
      rw [hget, hdecoded]
      rfl
    rw [hleft]
    show _ = some (Atomic.St.mk
      ⟨((st₁.writeRelsTxt).abs crc).db.rels, ((st₁.writeRelsTxt).abs crc).db.txnWal, true⟩
        st₁.entries st.txnLog)
    rw [habs, hentries]
    dsimp only
    rw [hdb]
    rfl

/-! ## Commits -/

section Commit

variable {entries : List RelEntry} {op : TxnOp}

/-- The relation of a buffered operation is found. -/
theorem isSome_rel (h : ∀ r ∈ op.records, ChangeOk entries r) :
    (arityOf entries op.rel).isSome := by
  cases op with
  | cas e expected next =>
    exact isSome_of_changeOk (h (.rev, .del [e, expected]) (by simp [TxnOp.records]))
  | add n r => exact isSome_of_changeOk (h (.rel n, .add r) (by simp [TxnOp.records]))
  | del n r => exact isSome_of_changeOk (h (.rel n, .del r) (by simp [TxnOp.records]))

theorem follows_casRead (h : ∀ r ∈ op.records, ChangeOk entries r) :
    Follows crc entries (fun st => st.casRead op) fun db => casRead db op := by
  cases op with
  | cas e expected next => exact Follows.update (isSome_rel h) keepsMark_flush
  | add n r => exact Follows.refl
  | del n r => exact Follows.refl

theorem follows_txnApply (h : ∀ r ∈ op.records, ChangeOk entries r) (fired : Bool) :
    Follows crc entries (fun st => st.txnApply (op, fired)) fun db => txnApply db (op, fired) := by
  have hrel := isSome_rel h
  cases op with
  | cas e expected next =>
    exact (Follows.update hrel (keepsMark_deleteFactApply _)).comp
      (Follows.update hrel (keepsMark_addFactApply _ fired))
  | add n r => exact Follows.update hrel (keepsMark_addFactApply r fired)
  | del n r => exact Follows.update hrel (keepsMark_deleteFactApply r)

variable {ops : List (TxnOp × Bool)}
  (hops : ∀ op ∈ ops, ∀ r ∈ op.1.records, ChangeOk entries r)

include hops

theorem follows_casReads : Follows crc entries (fun st => (ops.map Prod.fst).foldl St.casRead st)
    fun db => (ops.map Prod.fst).foldl casRead db := by
  refine Follows.foldl fun op hop => ?_
  obtain ⟨x, hx, rfl⟩ := List.mem_map.1 hop
  exact follows_casRead (hops x hx)

theorem follows_txnApplies : Follows crc entries (fun st => ops.foldl St.txnApply st)
    fun db => ops.foldl txnApply db :=
  Follows.foldl fun op hop => follows_txnApply (hops op hop) op.2

theorem follows_appliedTo (n : ℕ) (saving : Bool) :
    Follows crc entries (fun st => st.appliedTo ops n saving)
      fun db => Atomic.appliedTo ops n saving db := by
  have htake : Follows crc entries (fun st => (ops.take n).foldl St.txnApply st)
      fun db => (ops.take n).foldl txnApply db :=
    follows_txnApplies fun op hop => hops op (List.mem_of_mem_take hop)
  unfold St.appliedTo Atomic.appliedTo
  cases saving with
  | false => exact htake
  | true =>
    cases hop : ops[n]? with
    | none => exact htake
    | some op =>
      have hmem := hops op (List.mem_of_getElem? hop)
      exact htake.comp <| (follows_txnApply hmem false).comp <|
        Follows.update (isSome_rel hmem) keepsMark_saveOnly

end Commit

/-- The database with another log. -/
theorem Inv.setLog (h : Inv st) (log : Bytes) : Inv { st with txnLog := log } :=
  ⟨⟨h.names, h.accepted, h.buildable, h.kinds, h.clean⟩, h.lines⟩

/-- The store behind the database with another log. -/
theorem abs_setLog (h : Inv st) {log : Bytes} {es : List (RelName × Rec Row)}
    (hlog : LogOk crc st.entries log es) :
    St.abs crc { st with txnLog := log } =
      { st.abs crc with db := { (st.abs crc).db with txnWal := es }, log } := by
  have hdecoded := LogOk.decoded hlog (h.names.listed h.accepted)
  show Atomic.St.mk ⟨st.get, (TxnLog.replayTxnWal crc st.entries log).1, st.metaDirty⟩ _ _ = _
  rw [hdecoded]
  rfl

/-- Opening again, if the process died. -/
theorem settle_sim (h : Inv st) {es : List (RelName × Rec Row)}
    (hlog : LogOk crc st.entries st.txnLog es) (crash : Bool) :
    Inv (settle crc crash st) ∧
      (settle crc crash st).abs crc = Atomic.settle crc crash (st.abs crc) := by
  unfold settle Atomic.settle
  cases crash with
  | false => exact ⟨h, rfl⟩
  | true =>
    obtain ⟨hinv, -, habs⟩ := abs_reopen h hlog
    exact ⟨hinv, habs⟩

/-- The database when the checks of a commit are made and its log is written. -/
theorem abs_checked (h : Inv st) {ops : List (TxnOp × Bool)}
    (hops : ∀ op ∈ ops, ∀ r ∈ op.1.records, ChangeOk st.entries r) {log : Bytes}
    {es : List (RelName × Rec Row)} (hlog : LogOk crc st.entries log es) :
    let checked : St := { (ops.map Prod.fst).foldl St.casRead st with txnLog := log }
    Inv checked ∧ checked.entries = st.entries ∧ LogOk crc checked.entries log es ∧
      checked.abs crc =
        { st.abs crc with
          db := { (ops.map Prod.fst).foldl casRead (st.abs crc).db with txnWal := es }, log } := by
  intro checked
  obtain ⟨hinv, hkept, hdb⟩ := @follows_casReads crc _ _ hops st h rfl
  dsimp only at hinv hkept hdb
  have hentries : checked.entries = st.entries := hkept.entries
  have hok : LogOk crc checked.entries log es := by
    rw [hentries]
    exact hlog
  refine ⟨hinv.setLog log, hentries, hok, ?_⟩
  have hleft : checked.abs crc =
      { ((ops.map Prod.fst).foldl St.casRead st).abs crc with
        db := { (((ops.map Prod.fst).foldl St.casRead st).abs crc).db with txnWal := es }, log } :=
    abs_setLog hinv hok
  rw [hleft, hdb, hkept.abs_db]

theorem casCurrent_abs (st : St) (op : TxnOp) :
    casCurrent (st.abs crc).db op = st.casCurrent op := by
  cases op <;> rfl

/-- The database when the log of a commit is whole. -/
theorem abs_committed (h : Inv st) {H : RelName → Set Row} (ok : StOk crc (st.abs crc) H)
    {b : Buffer} (hes : ∀ e ∈ b.records, ChangeOk st.entries e)
    (hw : commitWhole b.records = true) {log : Bytes}
    (hlog : commitLog crc st.txnLog b.records (commitBytes crc b.records).length = some log) :
    let checked : St := { (b.ops.map Prod.fst).foldl St.casRead st with txnLog := log }
    Inv checked ∧ checked.entries = st.entries ∧
      LogOk crc checked.entries log ((st.abs crc).db.txnWal ++ b.records) ∧
      checked.abs crc = { st.abs crc with db := committed b.ops (st.abs crc).db, log } := by
  intro checked
  have hops : ∀ op ∈ b.ops, ∀ r ∈ op.1.records, ChangeOk st.entries r := fun op hop r hr =>
    hes r (List.mem_flatMap.2 ⟨op, hop, hr⟩)
  obtain ⟨log', hlog', hok⟩ := ok.log.commit hes hw le_rfl
  obtain rfl : log' = log := Option.some.inj (hlog'.symm.trans hlog)
  obtain ⟨hinv, hentries, hok', habs⟩ := abs_checked h hops hok
  have hsame : ((b.ops.map Prod.fst).foldl casRead (st.abs crc).db).txnWal =
      (st.abs crc).db.txnWal := (foldl_casRead_same _ _).1
  have hdb : { (b.ops.map Prod.fst).foldl casRead (st.abs crc).db with
      txnWal := (st.abs crc).db.txnWal ++ b.records } = committed b.ops (st.abs crc).db := by
    rw [committed, hsame]
    rfl
  exact ⟨hinv, hentries, hok', habs.trans (by rw [hdb])⟩

/-- **A commit**, wherever it ends, is one of the store behind the directory. -/
theorem commit_sim (h : Inv st) {H : RelName → Set Row} (ok : StOk crc (st.abs crc) H)
    {b : Buffer} (hes : ∀ e ∈ b.records, ChangeOk st.entries e) {ends : CommitEnd} {st' : St}
    (hstep : st.commit crc b ends = some st') :
    Inv st' ∧ (st.abs crc).commit crc b ends = some (st'.abs crc) := by
  have hops : ∀ op ∈ b.ops, ∀ r ∈ op.1.records, ChangeOk st.entries r := fun op hop r hr =>
    hes r (List.mem_flatMap.2 ⟨op, hop, hr⟩)
  have hcur : (b.ops.all fun op => casCurrent (st.abs crc).db op.1) =
      b.ops.all fun op => st.casCurrent op.1 := by
    simp only [casCurrent_abs]
  have hbytes : (st.abs crc).log = st.txnLog := rfl
  cases ends with
  | refused n =>
    cases hstep
    obtain ⟨hinv, hkept, hdb⟩ := @follows_casReads crc _ (b.ops.take n)
      (fun op hop => hops op (List.mem_of_mem_take hop)) st h rfl
    refine ⟨hinv, congrArg some ?_⟩
    rw [hkept.abs_db, hdb]
  | torn n crash =>
    simp only [St.commit, Option.ite_none_right_eq_some, Option.map_eq_some_iff] at hstep
    obtain ⟨hall, hn, log, hlog, rfl⟩ := hstep
    obtain ⟨log', hlog', hok⟩ := ok.log.cut b.records hn
    obtain rfl : log' = log := Option.some.inj (hlog'.symm.trans hlog)
    obtain ⟨hinv, hentries, hok', habs⟩ := abs_checked h hops hok
    obtain ⟨hinv', hsettle⟩ := settle_sim hinv hok' crash
    refine ⟨hinv', ?_⟩
    simp only [Atomic.St.commit]
    rw [hcur, if_pos hall, if_pos hn, hbytes, hlog, hsettle, habs,
      ← (foldl_casRead_same (b.ops.map Prod.fst) (st.abs crc).db).1]
    rfl
  | marked crash =>
    simp only [St.commit, Option.ite_none_right_eq_some, Option.map_eq_some_iff] at hstep
    obtain ⟨hall, hw, log, hlog, rfl⟩ := hstep
    obtain ⟨hinv, hentries, hok, habs⟩ := abs_committed h ok hes hw hlog
    obtain ⟨hinv', hsettle⟩ := settle_sim hinv hok crash
    refine ⟨hinv', ?_⟩
    simp only [Atomic.St.commit]
    rw [hcur, if_pos hall, if_pos hw, hbytes, hlog, hsettle, habs]
    rfl
  | applied n saving =>
    simp only [St.commit, Option.ite_none_right_eq_some, Option.map_eq_some_iff] at hstep
    obtain ⟨hall, hw, log, hlog, rfl⟩ := hstep
    obtain ⟨hinv, hentries, hok, habs⟩ := abs_committed h ok hes hw hlog
    obtain ⟨hinv₂, hkept, hdb⟩ := @follows_appliedTo crc _ _ hops n saving _ hinv hentries
    obtain ⟨hinv', hsettle⟩ := settle_sim hinv₂ (hkept.logOk hok) true
    refine ⟨hinv', ?_⟩
    simp only [Atomic.St.commit]
    rw [hcur, if_pos hall, if_pos hw, hbytes, hlog, hsettle, hkept.abs_db, hdb, habs]
    rfl
  | done =>
    simp only [St.commit, Option.ite_none_right_eq_some, Option.map_eq_some_iff] at hstep
    obtain ⟨hall, hw, log, hlog, rfl⟩ := hstep
    obtain ⟨hinv, hentries, hok, habs⟩ := abs_committed h ok hes hw hlog
    obtain ⟨hinv₂, hkept, hdb⟩ := @follows_txnApplies crc _ _ hops _ hinv hentries
    refine ⟨hinv₂, ?_⟩
    simp only [Atomic.St.commit]
    rw [hcur, if_pos hall, if_pos hw, hbytes, hlog, hkept.abs_db, hdb, habs]
    rfl

end DatalogDafsa.Directory
