import DatalogDafsa.DirectorySound

/-!
# Runs of a directory

Every event of a directory is one of the store behind it, so a safe run of a directory
keeps the invariant of `Atomic`, and opening the directory again gives every fixed relation
its history.

## Main results

* `step_sim`, `ok_run` — one event, and a safe run.
* `reopened_eq_history` — successful calls: reopening gives what they did, in order.
* `atomic_run` — calls that are cut short: reopening gives all of a call or nothing.
* `txn_then_delete_resurrects`, `not_atomic` — what goes wrong in runs that are not safe.
-/

namespace DatalogDafsa.Directory

open SetLog (Rec)
open Catalog (Name RelEntry Part DbFile MetaLine GoodName dbFiles readRelsTxt)
open Kinds (Definite)
open Durable TxnLog
open TxnWal (Bytes header)
open Atomic (Event CasEnd CommitEnd Buffer declared StOk KeepsRevisions)
open BaseSet (asserted mem_asserted)

variable {crc : Bytes → UInt32} {st : St}

/-! ## Events that leave the store alone -/

@[simp] theorem entry_setKinds (n : Name) (kinds : List (Option Definite)) (r : Rel) :
    (setKinds n kinds r).entry = r.entry := by
  unfold setKinds
  split <;> rfl

@[simp] theorem entry_setAnyIdb (e : RelEntry) (idb : Bool) (r : Rel) :
    (setAnyIdb e idb r).entry = r.entry := by
  unfold setAnyIdb
  split <;> rfl

theorem entries_map {g : Rel → Rel} (hg : ∀ r, (g r).entry = r.entry) (rels : List Rel) :
    (rels.map g).map Rel.entry = rels.map Rel.entry := by
  rw [List.map_map]
  exact List.map_congr_left fun r _ => hg r

/-- The store is as before when every fixed relation is. -/
theorem get_map {st' : St} {g : Rel → Rel} (hg : ∀ r, (g r).entry = r.entry)
    (hrels : st'.rels = st.rels.map g)
    (h : ∀ r ∈ st.rels, ¬ r.entry.Variadic → st'.relState (g r) = st.relState r) :
    st'.get = st.get := by
  funext m
  have hfind : findFixed st'.rels m = (findFixed st.rels m).map g := by
    rw [hrels]
    exact findFixed_map hg _ _
  cases hr : findFixed st.rels m with
  | none => rw [get_of_none hr, get_of_none (by rw [hfind, hr, Option.map_none])]
  | some r =>
    obtain ⟨hmem, -, hfix⟩ := findFixed_mem hr
    rw [get_of_find hr, get_of_find (by rw [hfind, hr, Option.map_some])]
    exact h r hmem hfix

/-- Other kinds of a relation. -/
theorem setKinds_sim (h : Inv st) (n : Name) (kinds : List (Option Definite)) :
    Inv { st with rels := st.rels.map (setKinds n kinds) } ∧
      St.abs crc { st with rels := st.rels.map (setKinds n kinds) } = st.abs crc := by
  set st' : St := { st with rels := st.rels.map (setKinds n kinds) } with hst'
  have hentries : st'.entries = st.entries := entries_map (entry_setKinds n kinds) _
  have hget : st'.get = st.get := by
    refine get_map (entry_setKinds n kinds) rfl fun r _ _ => ?_
    unfold setKinds
    split <;> rfl
  refine ⟨h.of_entries hentries rfl ?_ fun _ _ => ⟨rfl, rfl⟩, ?_⟩
  · intro r hr
    obtain ⟨r', hr', rfl⟩ := List.mem_map.1 hr
    rw [entry_setKinds]
    unfold setKinds
    split
    · rename_i hif
      exact hif.2.trans (h.kinds r' hr')
    · exact h.kinds r' hr'
  · unfold St.abs
    rw [hget, hentries]

/-- New files of a variant. -/
theorem variant_sim (h : Inv st) {p : Part} (hp : p ∈ Catalog.parts st.entries)
    (hvar : p.rel.Variadic) (files : RelFiles) :
    Inv { st.writeFiles p files with rels := st.rels.map (setAnyIdb p.rel files.idb) } ∧
      St.abs crc { st.writeFiles p files with rels := st.rels.map (setAnyIdb p.rel files.idb) } =
        st.abs crc := by
  set g := setAnyIdb p.rel files.idb with hg
  set st' : St := { st.writeFiles p files with rels := st.rels.map g } with hst'
  have hentry : ∀ r, (g r).entry = r.entry := entry_setAnyIdb _ _
  have hentries : st'.entries = st.entries := entries_map hentry _
  have hget : st'.get = st.get := by
    refine get_map hentry rfl fun r hmem hfix => ?_
    have hne : r.entry ≠ p.rel := fun heq => hfix (heq ▸ hvar)
    have hsame : g r = r := if_neg hne
    rw [hsame]
    show (⟨r.mem, (st.writeFiles p files).files r.part (st.mark r.entry.name)⟩ : RelState) = _
    rw [files_writeFiles_of_ne h.names hp (part_mem hmem hfix)
      fun heq => hne (congrArg Part.rel heq).symm]
    rfl
  refine ⟨h.of_entries hentries rfl ?_ fun x => clean_writeFiles hp st files, ?_⟩
  · intro r hr
    obtain ⟨r', hr', rfl⟩ := List.mem_map.1 hr
    rw [hentry, hg]
    unfold setAnyIdb
    split <;> exact h.kinds r' hr'
  · unfold St.abs
    rw [hget, hentries]
    rfl

/-! ## Closing -/

/-- **Closing a directory** is closing the store behind it. -/
theorem close_sim (h : Inv st) :
    Inv st.dlClose ∧ st.dlClose.entries = st.entries ∧ st.dlClose.txnLog = st.txnLog ∧
      st.dlClose.abs crc = { st.abs crc with db := dlClose (st.abs crc).db } := by
  obtain ⟨hinv, hkept, hdb⟩ :=
    @Follows.each crc st.entries _ keepsMark_closeRel closeRel_blank st h rfl
  dsimp only at hinv hkept hdb
  set st₁ := st.fixed.foldl (fun st n => st.update n closeRel) st with hst₁
  have hclose : st.dlClose = if st₁.metaDirty then st₁.writeRelsTxt else st₁ := rfl
  have hdirty : (st.abs crc).db.metaDirty = st₁.metaDirty := hkept.metaDirty.symm
  have hright : dlClose (st.abs crc).db =
      if st₁.metaDirty then writeRelsTxt (st₁.abs crc).db else (st₁.abs crc).db := by
    rw [hdb, ← hdirty]
    rfl
  rw [hclose, hright]
  cases st₁.metaDirty with
  | true =>
    refine ⟨hinv.toSound.writeRelsTxt, hkept.entries, hkept.txnLog, ?_⟩
    rw [if_pos rfl, if_pos rfl, abs_writeRelsTxt hinv.toSound, hkept.abs_db]
  | false => exact ⟨hinv, hkept.entries, hkept.txnLog, hkept.abs_db⟩

/-! ## Steps -/

/-- A revision, wherever it ends. -/
theorem cas_sim (h : Inv st) {es : List (RelName × Rec Row)}
    (hlog : LogOk crc st.entries st.txnLog es) (hrev : arityOf st.entries .rev = some 2)
    (e expected next : Val) (ends : CasEnd) :
    Inv (settle crc ends.crashes (st.update .rev (Atomic.casCut e expected next ends))) ∧
      (settle crc ends.crashes (st.update .rev (Atomic.casCut e expected next ends))).abs crc =
        Atomic.settle crc ends.crashes { st.abs crc with
          db := (st.abs crc).db.setRel .rev
            (Atomic.casCut e expected next ends ((st.abs crc).db.rels .rev)) } := by
  have hsome : (arityOf st.entries .rev).isSome := by
    rw [hrev]
    rfl
  obtain ⟨hinv, hkept, hdb⟩ := @Follows.update crc st.entries .rev hsome _
    (keepsMark_casCut e expected next ends) st h rfl
  obtain ⟨hinv', hsettle⟩ := settle_sim hinv (hkept.logOk hlog) ends.crashes
  exact ⟨hinv', by rw [hsettle, hkept.abs_db, hdb]⟩

/-- **Every event** of a directory is one of the store behind it. -/
theorem step_sim (h : Inv st) {H : RelName → Set Row} (ok : StOk crc (st.abs crc) H) {ev : Event}
    (hs : Safe crc st ev) {st' : St} (hstep : step crc st ev = some st') :
    Inv st' ∧ Atomic.step crc (st.abs crc) ev = some (st'.abs crc) := by
  have hlog : LogOk crc st.entries st.txnLog (st.abs crc).db.txnWal := ok.log
  cases ev with
  | op o =>
    simp only [step, Option.ite_none_right_eq_some] at hstep
    obtain ⟨ho, hstep⟩ := hstep
    obtain ⟨hinv, db, hdb, habs⟩ := @op_sim crc st h o ho st' hstep
    refine ⟨hinv, ?_⟩
    have hleft : Atomic.step crc (st.abs crc) (.op o) =
        (Durable.step (st.abs crc).db o).map fun db => { st.abs crc with db } := if_pos ho
    rw [hleft, hdb, habs]
    rfl
  | cas e expected next ends =>
    simp only [step, Option.ite_none_left_eq_some] at hstep
    obtain ⟨hrev, hcur, hstep⟩ := hstep
    cases hstep
    have harity : arityOf st.entries .rev = some 2 := not_not.1 (not_or.1 hrev).2
    obtain ⟨hinv, habs⟩ := cas_sim h hlog harity e expected next ends
    refine ⟨hinv, ?_⟩
    rw [habs]
    exact (if_neg hrev).trans (if_neg hcur)
  | commit b ends =>
    simp only [step, Option.ite_none_right_eq_some] at hstep
    obtain ⟨hall, hstep⟩ := hstep
    have hes : ∀ e ∈ b.records, ChangeOk st.entries e := by simpa using hall
    obtain ⟨hinv, habs⟩ := commit_sim h ok hes hstep
    refine ⟨hinv, ?_⟩
    exact (if_pos hall).trans habs
  | declare e opens =>
    cases hstep
    exact abs_declareKind h hlog (hs.2 e opens rfl)
  | setKinds n kinds =>
    cases hstep
    obtain ⟨hinv, habs⟩ := @setKinds_sim crc st h n kinds
    exact ⟨hinv, congrArg some habs.symm⟩
  | variant p files =>
    simp only [step, Option.ite_none_right_eq_some] at hstep
    obtain ⟨hp, hstep⟩ := hstep
    cases hstep
    obtain ⟨hinv, habs⟩ := @variant_sim crc st h p hp.1 hp.2 files
    exact ⟨hinv, congrArg some habs.symm⟩
  | close =>
    cases hstep
    obtain ⟨hinv, hentries, htxn, habs⟩ := @close_sim crc st h
    have hlog' : LogOk crc st.dlClose.entries st.dlClose.txnLog (st.abs crc).db.txnWal := by
      rw [hentries, htxn]
      exact hlog
    obtain ⟨hinv', -, habs'⟩ := abs_reopen hinv hlog'
    refine ⟨hinv', ?_⟩
    rw [habs', habs]
    rfl
  | crash =>
    cases hstep
    obtain ⟨hinv, -, habs⟩ := abs_reopen h hlog
    refine ⟨hinv, ?_⟩
    rw [habs]
    rfl

/-! ## Runs -/

theorem namesOk_nil : NamesOk [] := by decide +kernel

theorem inv_fresh : Inv (fresh crc) where
  names := namesOk_nil
  accepted := Catalog.accepted_nil
  buildable pre e post h := by simp [St.entries, fresh] at h
  kinds r hr := by cases hr
  clean x _ := ⟨rfl, rfl⟩
  lines := rfl

/-- An empty directory is an empty store. -/
theorem abs_fresh : (fresh crc).abs crc = Atomic.fresh crc := by
  have hnone : (TxnLog.replayTxnWal crc [] (header crc)).1 = [] :=
    LogOk.decoded logOk_header Atomic.listed_nil
  have hget : (fresh crc).get = Durable.fresh.rels := by
    funext n
    have hfind : findFixed (fresh crc).rels n = none := by simp [findFixed, fresh]
    rw [get_of_none hfind]
    rfl
  show Atomic.St.mk ⟨(fresh crc).get, (TxnLog.replayTxnWal crc [] (header crc)).1, false⟩ _ _ = _
  rw [hnone, hget]
  rfl

theorem ok_fresh : StOk crc ((fresh crc).abs crc) fun _ => ∅ := by
  rw [abs_fresh]
  exact Atomic.fresh_ok

/-- **A safe run** keeps the invariants, against the history with what its events changed. -/
theorem ok_run {es : List Event} {st' : St} {H : RelName → Set Row} (h : Inv st)
    (ok : StOk crc (st.abs crc) H) (hs : SafeRun crc st es) (hrun : run crc st es = some st') :
    Inv st' ∧ StOk crc (st'.abs crc) (advance H (es.flatMap Event.records)) := by
  induction es generalizing st H with
  | nil =>
    cases hrun
    exact ⟨h, ok⟩
  | cons ev es ih =>
    rw [run, List.foldlM_cons, Option.bind_eq_bind, Option.bind_eq_some_iff] at hrun
    obtain ⟨st₁, hstep, hrest⟩ := hrun
    obtain ⟨hinv, habs⟩ := step_sim h ok hs.1 hstep
    have hok := Atomic.ok_step ok hs.1.1 habs
    have := ih hinv hok (hs.2 st₁ hstep) hrest
    rwa [Atomic.advance_append, ← List.flatMap_cons] at this

theorem run_append {es₁ es₂ : List Event} {st' : St} :
    run crc st (es₁ ++ es₂) = some st' ↔
      ∃ st₁, run crc st es₁ = some st₁ ∧ run crc st₁ es₂ = some st' := by
  rw [run, List.foldlM_append, Option.bind_eq_bind, Option.bind_eq_some_iff]
  rfl

theorem SafeRun.of_append {es₁ es₂ : List Event} (h : SafeRun crc st (es₁ ++ es₂)) :
    SafeRun crc st es₁ := by
  induction es₁ generalizing st with
  | nil => trivial
  | cons ev es₁ ih => exact ⟨h.1, fun st' hstep => ih (h.2 st' hstep)⟩

/-- What follows a part of a safe run is safe. -/
theorem SafeRun.after {es₁ es₂ : List Event} {st₁ : St} (h : SafeRun crc st (es₁ ++ es₂))
    (hrun : run crc st es₁ = some st₁) : SafeRun crc st₁ es₂ := by
  induction es₁ generalizing st with
  | nil =>
    cases hrun
    exact h
  | cons ev es₁ ih =>
    rw [run, List.foldlM_cons, Option.bind_eq_bind, Option.bind_eq_some_iff] at hrun
    obtain ⟨st₂, hstep, hrest⟩ := hrun
    exact ih (h.2 st₂ hstep) hrest

/-- The base of a fixed relation is the one of the store behind the directory. -/
theorem base_eq (h : Inv st) {e : RelEntry} (he : e ∈ st.entries) (hfix : ¬ e.Variadic) :
    st.base e.name = some ((st.abs crc).db.rels (.ofName e.name)).mem.store.base := by
  obtain ⟨r, hr, rfl⟩ := List.mem_map.1 he
  have hfind := findFixed_of_mem h.nodup_names hr hfix
  show st.base r.entry.name = some (st.get (.ofName r.entry.name)).mem.store.base
  rw [St.base, hfind, get_of_find hfind]
  rfl

/-- So it is when the directory is opened again. -/
theorem base_reopen (h : Inv st) {H : RelName → Set Row} (ok : StOk crc (st.abs crc) H)
    {e : RelEntry} (he : e ∈ st.entries) (hfix : ¬ e.Variadic) :
    (st.reopen crc).base e.name =
      some (((st.abs crc).reopen crc).db.rels (.ofName e.name)).mem.store.base := by
  obtain ⟨hinv, hentries, habs⟩ := abs_reopen h ok.log
  rw [← habs]
  exact base_eq hinv (hentries.symm ▸ he) hfix

/-! ### Safe runs, from the directories they go through -/

theorem isSome_run_take {es : List Event} (h : (run crc st es).isSome = true) (n : ℕ) :
    (run crc st (es.take n)).isSome = true := by
  obtain ⟨st', hst⟩ := Option.isSome_iff_exists.1 h
  rw [← List.take_append_drop n es] at hst
  obtain ⟨st₁, hst₁, -⟩ := run_append.1 hst
  rw [hst₁]
  rfl

/-- The directory after the first `n` events. -/
def after (crc : Bytes → UInt32) (es : List Event) (n : ℕ) : St :=
  (run crc (fresh crc) (es.take n)).getD (fresh crc)

theorem run_after {es : List Event} (h : (run crc (fresh crc) es).isSome = true) (n : ℕ) :
    run crc (fresh crc) (es.take n) = some (after crc es n) := by
  obtain ⟨st', hst⟩ := Option.isSome_iff_exists.1 (isSome_run_take h n)
  rw [after, hst]
  rfl

/-- A run is safe when each event is, in the directory that those before it leave. -/
theorem safeRun_of_after {es : List Event} (hrun : (run crc (fresh crc) es).isSome = true)
    (h : ∀ n ev, es[n]? = some ev → Safe crc (after crc es n) ev) :
    SafeRun crc (fresh crc) es := by
  have key : ∀ (es : List Event) (st : St),
      (∀ n ev, es[n]? = some ev → ∀ st', run crc st (es.take n) = some st' → Safe crc st' ev) →
        SafeRun crc st es := by
    intro es
    induction es with
    | nil => exact fun st h => trivial
    | cons ev es ih =>
      intro st h
      refine ⟨h 0 ev rfl st rfl, fun st₁ hstep => ih st₁ fun n ev' hn st' hrun' => ?_⟩
      refine h (n + 1) ev' hn st' ?_
      rw [List.take_succ_cons, run, List.foldlM_cons, hstep]
      exact hrun'
  refine key es _ fun n ev hev st' hst' => ?_
  obtain rfl : after crc es n = st' := Option.some.inj ((run_after hrun n).symm.trans hst')
  exact h n ev hev

/-- What holds of the relations of the list and of an empty one holds of all. -/
theorem forall_get {P : RelState → Prop} (hblank : P blank) (h : ∀ r ∈ st.rels, P (st.relState r))
    (n : RelName) : P (st.get n) := by
  cases hr : findFixed st.rels n with
  | none =>
    rw [get_of_none hr]
    exact hblank
  | some r =>
    rw [get_of_find hr]
    exact h r (findFixed_mem hr).1

/-- Every relation is recorded as it is. -/
def Recorded (st : St) : Prop :=
  ∀ r ∈ st.rels, (st.relState r).mem.store.isIdb = (st.relState r).files.idb

instance (st : St) : Decidable (Recorded st) :=
  List.decidableBAll
    (fun r => (st.relState r).mem.store.isIdb = (st.relState r).files.idb) st.rels

theorem Recorded.agree (h : Recorded st) (n : RelName) : Agree (st.get n) :=
  forall_get (P := Agree) rfl h n

/-- A declaration is safe when the names are in order and the relations are recorded. -/
theorem safe_declare {e : RelEntry} {opens : Bool} (hlisted : Listed (declared st.entries e opens))
    (hnames : NamesOk (declared st.entries e opens)) (h : Recorded st) :
    Safe crc st (.declare e opens) := by
  refine ⟨⟨hlisted, .inr fun m => .inl (h.agree m)⟩, ?_⟩
  intro e' opens' heq
  cases heq
  exact hnames

/-! ## Successful calls -/

/-- The rows of a relation after the calls, all of them done. -/
def asWanted (es : List Event) (n : RelName) : Set Row :=
  SetLog.replay (recsOf n (es.flatMap Event.wanted)) ∅

theorem records_of_succeeds {ev : Event} (h : ev.succeeds = true) : ev.records = ev.wanted := by
  cases ev with
  | cas e expected next ends => cases h
  | commit b ends =>
    obtain rfl : ends = .done := of_decide_eq_true h
    rfl
  | _ => rfl

/-- **Opening the directory again gives the history.**  After a safe run of successful calls
from a fresh directory, every fixed relation of the list is found, with exactly the rows the
calls leave in their order, whether the process died or the directory was closed. -/
theorem reopened_eq_history {es : List Event} {st : St}
    (hsucc : ∀ ev ∈ es, ev.succeeds = true) (hrun : run crc (fresh crc) es = some st)
    (hs : SafeRun crc (fresh crc) es) {e : RelEntry} (he : e ∈ st.entries) (hfix : ¬ e.Variadic) :
    (∃ d, (st.reopen crc).base e.name = some d ∧
      ∀ r, r ∈ d ↔ r ∈ asWanted es (.ofName e.name)) ∧
    (ClosesSafe (st.abs crc).db →
      ∃ d, (st.dlClose.reopen crc).base e.name = some d ∧
        ∀ r, r ∈ d ↔ r ∈ asWanted es (.ofName e.name)) := by
  obtain ⟨hinv, hok⟩ := ok_run inv_fresh ok_fresh hs hrun
  have hrecords : es.flatMap Event.records = es.flatMap Event.wanted :=
    List.flatMap_congr fun ev hev => records_of_succeeds (hsucc ev hev)
  rw [hrecords] at hok
  refine ⟨⟨_, base_reopen hinv hok he hfix, fun r => hok.reopen.2 (.ofName e.name) r⟩, ?_⟩
  intro hclose
  obtain ⟨hinv', hentries, htxn, habs⟩ := @close_sim crc st hinv
  have hlog : LogOk crc st.dlClose.entries st.dlClose.txnLog (st.abs crc).db.txnWal := by
    rw [hentries, htxn]
    exact hok.log
  obtain ⟨hinv'', hentries', habs'⟩ := abs_reopen hinv' hlog
  have hbase := @base_eq crc _ hinv'' e (hentries'.symm ▸ hentries.symm ▸ he) hfix
  rw [habs', habs] at hbase
  exact ⟨_, hbase, fun r => (hok.closed hclose).2 (.ofName e.name) r⟩

/-- No checksum. -/
def sampleCrc : Bytes → UInt32 := fun _ => 0

/-- `p`. -/
def sampleName : Name := ['p']

/-- A transaction that revises entity `7` and inserts `p(2)`. -/
def sampleBuffer : Buffer where
  ops := [(.cas 7 0 1, false), (.add sampleName [2], true)]
  cas_once := by decide
  cas_ne op hop e x y hcas := by
    have hop : op = (.cas 7 0 1, false) ∨ op = (.add sampleName [2], true) := by simpa using hop
    rcases hop with rfl | rfl
    · cases hcas
      decide
    · cases hcas

/-- Two declarations, then a logged write with its compaction, a transaction, a direct
deletion of another row, a bulk load and a close. -/
def sampleEvents : List Event :=
  [.declare ⟨revName, 2⟩ true, .declare ⟨sampleName, 1⟩ true,
    .op (.addFact (.rel sampleName) [1] true), .commit sampleBuffer .done,
    .op (.deleteFact (.rel sampleName) [1]), .op (.loadFacts (.rel sampleName) [[3]]), .close]

theorem listed_sample :
    Listed [⟨revName, 2⟩] ∧ Listed [⟨revName, 2⟩, ⟨sampleName, 1⟩] := by
  constructor <;> constructor <;> decide +kernel

theorem isSome_run_sample : (run sampleCrc (fresh sampleCrc) sampleEvents).isSome = true := by
  decide +kernel

theorem recorded_sample : ∀ n ≤ 7, Recorded (after sampleCrc sampleEvents n) := by decide +kernel

theorem safeRun_sample : SafeRun sampleCrc (fresh sampleCrc) sampleEvents := by
  refine safeRun_of_after isSome_run_sample fun n ev hev => ?_
  have hn : n < 7 := (List.getElem?_eq_some_iff.1 hev).1
  have h := recorded_sample n hn.le
  interval_cases n <;> cases hev
  · exact safe_declare listed_sample.1 (by decide +kernel) h
  · exact safe_declare listed_sample.2 (by decide +kernel) h
  · exact ⟨⟨⟨by decide +kernel, by decide +kernel⟩, fun _ _ => h.agree _⟩, by simp⟩
  · exact ⟨fun op _ _ => .inl (h.agree op.1.rel), by simp⟩
  · exact ⟨⟨by decide +kernel, by decide +kernel⟩, by simp⟩
  · exact ⟨⟨by decide +kernel, .inl (h.agree _)⟩, by simp⟩
  · exact ⟨fun m => .inl (h.agree m), by simp⟩

theorem reopened_eq_history_sample :
    ∃ d, ((after sampleCrc sampleEvents 7).dlClose.reopen sampleCrc).base sampleName = some d ∧
      ∀ r, r ∈ d ↔ r ∈ asWanted sampleEvents (.rel sampleName) :=
  (@reopened_eq_history sampleCrc sampleEvents _ (by decide) (run_after isSome_run_sample 7)
    safeRun_sample ⟨sampleName, 1⟩ (by decide +kernel) (by decide)).2
      fun m => .inl ((recorded_sample 7 le_rfl).agree m)

/-- A transaction that inserts one row. -/
def insertBuffer (n : Name) (r : Row) : Buffer where
  ops := [(.add n r, false)]
  cas_once := by simp [Atomic.casEntity]
  cas_ne op hop e x y hcas := by
    obtain rfl : op = (.add n r, false) := by simpa using hop
    cases hcas

/-- A transaction that inserts `p(1)`, and then a direct deletion of the row. -/
def resurrectEvents : List Event :=
  [.declare ⟨sampleName, 1⟩ true, .commit (insertBuffer sampleName [1]) .done,
    .op (.deleteFact (.rel sampleName) [1])]

/-- **The two logs are replayed out of order.**  A row that a transaction inserted and a direct
deletion then removed is back after the next open, crash or close. -/
theorem txn_then_delete_resurrects :
    ¬ ∀ (crc : Bytes → UInt32) (es : List Event) (st : St), (∀ ev ∈ es, ev.succeeds = true) →
      run crc (fresh crc) es = some st → ∀ e ∈ st.entries, ¬ e.Variadic →
        (∃ d, (st.reopen crc).base e.name = some d ∧
          ∀ r, r ∈ d ↔ r ∈ asWanted es (.ofName e.name)) ∧
        ∃ d, (st.dlClose.reopen crc).base e.name = some d ∧
          ∀ r, r ∈ d ↔ r ∈ asWanted es (.ofName e.name) := by
  intro h
  have hsome : (run sampleCrc (fresh sampleCrc) resurrectEvents).isSome = true := by decide +kernel
  have hback : (((after sampleCrc resurrectEvents 3).dlClose.reopen sampleCrc).base sampleName).map
      Dafsa.keys = some [[1]] := by
    decide +kernel
  obtain ⟨-, d, hd, hiff⟩ := h sampleCrc resurrectEvents _ (by decide) (run_after hsome 3)
    ⟨sampleName, 1⟩ (by decide +kernel) (by decide)
  rw [hd] at hback
  have hnot : ([1] : Row) ∉ asWanted resurrectEvents (.rel sampleName) := by
    rw [asWanted, SetLog.mem_replay]
    decide
  refine hnot ((hiff [1]).1 ?_)
  rw [Dafsa.mem_def, Option.some.inj hback]
  exact List.mem_singleton_self _

/-- The line of a relation `a:b` is read back as one of `a`: what was committed is lost. -/
example : ((after sampleCrc [.declare ⟨['a', ':', 'b'], 1⟩ true,
    .commit (insertBuffer ['a', ':', 'b'] [1]) .done, .crash] 3).base ['a', ':', 'b']).isNone := by
  decide +kernel

/-! ## Calls that are cut short -/

/-- **Commits and revisions are atomic.**  After a safe run from a fresh directory, opening it
again gives every fixed relation the history, in which every call that was cut short is there
whole or not at all and one that returned an error is not there; and a revision or a commit
leaves an entity that had one revision with one, the old or a new one. -/
theorem atomic_run {es : List Event} {st : St} (hrun : run crc (fresh crc) es = some st)
    (hs : SafeRun crc (fresh crc) es) :
    (∀ e ∈ st.entries, ¬ e.Variadic → ∃ d, (st.reopen crc).base e.name = some d ∧
      ∀ r, r ∈ d ↔ r ∈ Atomic.history es (.ofName e.name)) ∧
    ∀ es₁ ev es₂, es = es₁ ++ ev :: es₂ → ev.revises = true →
      KeepsRevisions (Atomic.history es₁ .rev) (Atomic.history (es₁ ++ [ev]) .rev) ev.wanted := by
  constructor
  · intro e he hfix
    obtain ⟨hinv, hok⟩ := ok_run inv_fresh ok_fresh hs hrun
    exact ⟨_, base_reopen hinv hok he hfix, fun r => hok.reopen.2 (.ofName e.name) r⟩
  · rintro es₁ ev es₂ rfl hev
    obtain ⟨st₁, hrun₁, hrun₂⟩ := run_append.1 hrun
    rw [run, List.foldlM_cons, Option.bind_eq_bind, Option.bind_eq_some_iff] at hrun₂
    obtain ⟨st₂, hstep, -⟩ := hrun₂
    obtain ⟨hinv, hok⟩ := ok_run inv_fresh ok_fresh hs.of_append hrun₁
    have hsafe : Safe crc st₁ ev := by
      have := hs.after hrun₁
      exact this.1
    have hkeeps := hok.keepsRevisions hev (step_sim hinv hok hsafe hstep).2
    rw [Atomic.advance_append, ← List.flatMap_singleton Event.records ev,
      ← List.flatMap_append] at hkeeps
    exact hkeeps

/-- A first revision cut between its records, a commit cut short before its marker is
whole, and one after which the process dies. -/
def cutShortEvents : List Event :=
  [.declare ⟨revName, 2⟩ true, .declare ⟨sampleName, 1⟩ true, .cas 7 0 1 (.between true),
    .commit sampleBuffer (.torn 5 false), .commit sampleBuffer (.marked true)]

theorem safeRun_cutShort : SafeRun sampleCrc (fresh sampleCrc) cutShortEvents := by
  have hrun : (run sampleCrc (fresh sampleCrc) cutShortEvents).isSome = true := by decide +kernel
  have hrec : ∀ n < 2, Recorded (after sampleCrc cutShortEvents n) := by decide +kernel
  refine safeRun_of_after hrun fun n ev hev => ?_
  have hn : n < 5 := (List.getElem?_eq_some_iff.1 hev).1
  interval_cases n <;> cases hev
  · exact safe_declare listed_sample.1 (by decide +kernel) (hrec 0 (by decide))
  · exact safe_declare listed_sample.2 (by decide +kernel) (hrec 1 (by decide))
  · refine ⟨?_, by simp⟩
    show [7, 0] ∉ asserted _
    rw [mem_asserted]
    decide +kernel
  · exact ⟨trivial, by simp⟩
  · exact ⟨rfl, by simp⟩

/-- The revision and the row of the last commit are there together. -/
theorem atomic_run_sample :
    (∃ d, ((after sampleCrc cutShortEvents 5).reopen sampleCrc).base revName = some d ∧
      ([7, 1] ∈ d ↔ [7, 1] ∈ Atomic.history cutShortEvents .rev)) ∧
    KeepsRevisions (Atomic.history cutShortEvents.dropLast .rev)
      (Atomic.history cutShortEvents .rev) sampleBuffer.records := by
  have hrun : (run sampleCrc (fresh sampleCrc) cutShortEvents).isSome = true := by decide +kernel
  have h := atomic_run (run_after hrun 5) safeRun_cutShort
  obtain ⟨d, hd, hiff⟩ := h.1 ⟨revName, 2⟩ (by decide +kernel) (by decide)
  exact ⟨⟨d, hd, hiff [7, 1]⟩,
    h.2 cutShortEvents.dropLast (.commit sampleBuffer (.marked true)) [] rfl rfl⟩

/-- A revision of entity `7`, then another one that the process dies in, between its
records. -/
def cutEvents : List Event :=
  [.declare ⟨revName, 2⟩ true, .op (.casRevision 7 0 1 false), .cas 7 1 2 (.between true)]

/-- **A revision cut between its records** leaves its entity without one. -/
theorem not_atomic :
    ¬ ∀ (crc : Bytes → UInt32) (es : List Event) (st : St), run crc (fresh crc) es = some st →
      (∀ e ∈ st.entries, ¬ e.Variadic → ∃ d, (st.reopen crc).base e.name = some d ∧
        ∀ r, r ∈ d ↔ r ∈ Atomic.history es (.ofName e.name)) ∧
      ∀ es₁ ev es₂, es = es₁ ++ ev :: es₂ → ev.revises = true →
        KeepsRevisions (Atomic.history es₁ .rev) (Atomic.history (es₁ ++ [ev]) .rev) ev.wanted := by
  intro h
  have hrun : (run sampleCrc (fresh sampleCrc) cutEvents).isSome = true := by decide +kernel
  have hlost : (((after sampleCrc cutEvents 3).reopen sampleCrc).base revName).map Dafsa.keys =
      some [] := by
    decide +kernel
  have hkept : ([7, 1] : Row) ∈ Atomic.history cutEvents .rev := by
    rw [Atomic.history, SetLog.mem_replay]
    decide
  obtain ⟨d, hd, hiff⟩ := (h sampleCrc cutEvents _ (run_after hrun 3)).1 ⟨revName, 2⟩
    (by decide +kernel) (by decide)
  rw [hd] at hlost
  have hmem := (hiff [7, 1]).2 hkept
  rw [Dafsa.mem_def, Option.some.inj hlost] at hmem
  cases hmem

/-- A commit that returns an error once its marker is written, then a crash: its row is there
after the open. -/
example : ((after sampleCrc [.declare ⟨sampleName, 1⟩ true,
    .commit (insertBuffer sampleName [1]) (.marked false), .crash] 3).base sampleName).map
      Dafsa.keys = some [[1]] := by
  decide +kernel

end DatalogDafsa.Directory
