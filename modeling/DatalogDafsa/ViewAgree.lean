import DatalogDafsa.LazyRelation

/-!
# What a relation stands for

Whatever its read state and its overlay, a relation stands for a pair of sets of
rows: the base, and the view.  A third set says which rows of the view are still
to be folded into the base.  `Sets` has the calls on them, stated without
automata, files or overlays, and says what each read has to answer.

Every call on a relation is the call on its sets (`sets_apply`), and every read
answers from the sets as long as no row is both in the automaton of the view and
in the overlay.  `rel_overlay_add` keeps the two apart, but a later `rel_add` of
the same row does not: the row is then counted twice until the next flush.

## Main definitions

* `Sets`, `RelOp.spec`, `Sets.Answers` — the abstract relation.
* `LazyRelation.sets` — the sets a relation stands for.
* `RelOp.Fresh` — the call puts no unflushed row into the automaton of the view.
* `agrees_iff_fresh` — a run agrees with the sets throughout iff all its calls
  are fresh.
-/

namespace DatalogDafsa

/-! ## The abstract relation -/

/-- The base and the view of a relation, as sets. -/
@[ext] structure Sets where
  /-- The stored facts. -/
  base : Set Row
  /-- The stored facts and the derived ones. -/
  view : Set Row
  /-- The facts of the view that the next flush stores. -/
  pending : Set Row
  /-- Base and view are one object: a write to one is a write to the other. -/
  shared : Bool

namespace Sets

/-- Rows into the view. -/
def addRows (s : Sets) (X : Set Row) : Sets :=
  { s with view := s.view ∪ X, base := {x | x ∈ s.base ∨ s.shared = true ∧ x ∈ X} }

/-- Rows into the base. -/
def addBase (s : Sets) (X : Set Row) : Sets :=
  { s with base := s.base ∪ X, view := {x | x ∈ s.view ∨ s.shared = true ∧ x ∈ X} }

/-- A row into the view, to be stored at the next flush. -/
def overlayAdd (s : Sets) (c : Row) : Sets :=
  { s with view := insert c s.view, pending := {x | x ∈ s.pending ∨ x = c ∧ c ∉ s.view} }

/-- The pending rows are stored. -/
def flush (s : Sets) : Sets := { s with base := s.base ∪ s.pending, pending := ∅ }

/-- Other rows for the view, which keeps the pending ones. -/
def buildView (s : Sets) (X : Set Row) : Sets :=
  { s with view := X ∪ s.pending,
           base := {x | if s.shared = true then x ∈ X else x ∈ s.base} }

/-- Other rows for the base. -/
def buildBase (s : Sets) (X : Set Row) : Sets :=
  { s with base := X,
           view := {x | if s.shared = true then x ∈ X ∪ s.pending else x ∈ s.view} }

/-- The derived rows are dropped, and base and view are apart from here on. -/
def resetView (s : Sets) : Sets := { s with view := s.base ∪ s.pending, shared := false }

/-- A row out of the view. -/
def delete (s : Sets) (c : Row) : Sets :=
  { s with view := s.view \ {c}, base := {x | x ∈ s.base ∧ (s.shared = true → x ≠ c)} }

/-- A row out of the base. -/
def deleteBase (s : Sets) (c : Row) : Sets :=
  { s with base := s.base \ {c}, view := {x | x ∈ s.view ∧ (s.shared = true → x ≠ c)} }

/-- The rows with given leading columns. -/
def matching (S : Set Row) (p : Row) : Set Row := {x | x ∈ S ∧ p <+: x}

/-- The rows of a half-open range. -/
def range (S : Set Row) (lo hi : Row) : Set Row :=
  {x | x ∈ S ∧ ¬ RowBefore x lo ∧ RowBefore x hi}

/-- A list has the rows of a set with the given leading columns, each once. -/
def Lists (arity : ℕ) (S : Set Row) (p : Row) (l : Option (List Row)) : Prop :=
  if arity < p.length then l = none
  else ∃ rows, l = some rows ∧ rows.Nodup ∧ ∀ x, x ∈ rows ↔ x ∈ matching S p

/-- The row of a set with `k` rows below it, if there are that many. -/
def Selects (S : Set Row) (k : ℕ) (r : Option Row) : Prop :=
  (∀ x, r = some x ↔ OrderStat.IsNth RowBefore S k x) ∧ (r = none ↔ S.ncard ≤ k)

/-- What a read has to answer. The `_bound` reads are those of the rows that start
with `p`, and compare the other columns only. -/
def Answers (arity : ℕ) (s : Sets) : RelQuery → RelAnswer → Prop
  | .exact c, .flag b => b = true ↔ c ∈ s.view
  | .exactBase c, .flag b => b = true ↔ c ∈ s.base
  | .scan p, .rows l => Lists arity s.view p l
  | .scanBase p, .rows l => Lists arity s.base p l
  | .countSubtree, .number n => n = some s.view.ncard
  | .rank c, .number n => n = some (OrderStat.below RowBefore s.view c).ncard
  | .select k, .row r => Selects s.view k r
  | .rangeCount lo hi, .number n => n = some (range s.view lo hi).ncard
  | .rankBound p c, .number n =>
    n = if arity < p.length then none
      else some (OrderStat.below RowBefore (matching s.view p) (p ++ c.drop p.length)).ncard
  | .selectBound p k, .row r =>
    if arity < p.length then r = none else Selects (matching s.view p) k r
  | .rangeCountBound p lo hi, .number n =>
    n = if arity < p.length then none
      else some (range (matching s.view p) (p ++ lo.drop p.length)
        (p ++ hi.drop p.length)).ncard
  | .dafsa, .keys d => ∀ x, x ∈ d ↔ x ∈ s.view
  | _, _ => False

end Sets

/-- The reads that flush first. -/
def RelQuery.flushes (arity : ℕ) : RelQuery → Bool
  | .exact _ | .exactBase _ | .scanBase _ | .countSubtree => false
  | .rankBound p _ | .selectBound p _ | .rangeCountBound p _ _ => decide (p.length ≤ arity)
  | _ => true

/-- What a call does to the sets. -/
def RelOp.spec (arity : ℕ) (s : Sets) : RelOp → Sets
  | .add c => s.addRows {c}
  | .addBase c => s.addBase {c}
  | .overlayAdd c => s.overlayAdd c
  | .overlayFlush => s.flush
  | .addTupleset ts => if ts.arity = arity then s.addRows {x | x ∈ ts.rows} else s
  | .buildFromTupleset ts => if ts.1.arity = arity then s.buildView {x | x ∈ ts.1.rows} else s
  | .buildBaseFromTupleset ts =>
    if ts.1.arity = arity then s.buildBase {x | x ∈ ts.1.rows} else s
  | .resetView => s.resetView
  | .delete c => s.delete c
  | .deleteBase c => s.deleteBase c
  | .read q => if q.flushes arity = true then s.flush else s

/-! ## The gates -/

namespace ReadState

/-- A mapping shows what loading the file gives. -/
theorem shown_eq_content (m : Mapped) : m.shown = m.file.content := by
  rw [DafsaFile.content, m.file.same _ m.isView]
  rfl

theorem file_of_openView {f : DafsaFile} {m : Mapped} (h : f.openView = some m) : m.file = f := by
  unfold DafsaFile.openView at h
  split at h
  · cases h
  · cases h
    rfl

/-- Opening the views shows the automata in the files. -/
theorem promote_open? {d : DafsaFile} {base : Option DafsaFile} {st : ReadState}
    (h : open? d base = some st) : st.promote = load d base ∧ st.isView = true := by
  cases base with
  | none =>
    obtain ⟨v, hv, rfl⟩ := Option.map_eq_some_iff.mp h
    exact ⟨congrArg (load · none) (file_of_openView hv), rfl⟩
  | some b =>
    obtain ⟨v, hv, hb⟩ := Option.bind_eq_some_iff.mp h
    obtain ⟨vb, hvb, rfl⟩ := Option.map_eq_some_iff.mp hb
    refine ⟨?_, rfl⟩
    rw [promote, Option.map_some, file_of_openView hv, file_of_openView hvb]

/-- A relation that has been read for the first time shows its automata. -/
def Readable (st : ReadState) : Prop :=
  ∀ b, st.automaton b = if b then st.promote.base else st.promote.view

theorem readable_owned (s : Store) : (owned s).Readable := by
  intro b
  cases b <;> rfl

theorem readable_of_isView {st : ReadState} (h : st.isView = true) : st.Readable := by
  intro b
  cases st with
  | owned s => cases h
  | deferred d base => cases h
  | view d base =>
    have hd := shown_eq_content d
    cases base with
    | none => cases b <;> exact hd
    | some vb =>
      have hvb := shown_eq_content vb
      cases b
      · exact hd
      · exact hvb

end ReadState

namespace LazyRelation

/-- The automata, wherever they are. -/
def store (r : LazyRelation) : Store := r.state.promote

@[simp] theorem store_own (r : LazyRelation) (s : Store) : (r.own s).store = s := rfl
@[simp] theorem ov_own (r : LazyRelation) (s : Store) : (r.own s).ov = r.ov := rfl
@[simp] theorem arity_own (r : LazyRelation) (s : Store) : (r.own s).arity = r.arity := rfl
@[simp] theorem store_relEnsureOwned (r : LazyRelation) : r.relEnsureOwned.store = r.store := rfl

/-- The first read leaves the automata and the overlay as they are. -/
theorem relEnsureReadable_spec (r : LazyRelation) :
    r.relEnsureReadable.store = r.store ∧ r.relEnsureReadable.ov = r.ov ∧
      r.relEnsureReadable.arity = r.arity ∧ r.relEnsureReadable.state.Readable := by
  have howned : r.relEnsureOwned.store = r.store ∧ r.relEnsureOwned.ov = r.ov ∧
      r.relEnsureOwned.arity = r.arity ∧ r.relEnsureOwned.state.Readable :=
    ⟨rfl, rfl, rfl, ReadState.readable_owned _⟩
  unfold relEnsureReadable
  split
  · rename_i s hs
    exact ⟨rfl, rfl, rfl, hs ▸ ReadState.readable_owned s⟩
  · rename_i d base hs
    exact ⟨rfl, rfl, rfl, hs ▸ ReadState.readable_of_isView rfl⟩
  · rename_i d base hs
    split
    · exact howned
    · split
      · exact howned
      · split
        · rename_i st hst
          obtain ⟨hpromote, hview⟩ := ReadState.promote_open? hst
          have hsame : st.promote = r.state.promote :=
            hpromote.trans (congrArg ReadState.promote hs).symm
          exact ⟨hsame, rfl, rfl, ReadState.readable_of_isView hview⟩
        · exact howned

/-- The automata with the overlay folded in. -/
def folded (r : LazyRelation) : Store := r.ov.rows.foldl Relation.foldRow r.store

/-- A flush leaves the overlay empty and the automata folded. -/
theorem relOverlayFlush_spec (r : LazyRelation) :
    r.relOverlayFlush.store = r.folded ∧ r.relOverlayFlush.ov.rows = [] ∧
      r.relOverlayFlush.arity = r.arity := by
  unfold relOverlayFlush folded
  split
  · rename_i h
    rw [List.isEmpty_iff.mp h]
    exact ⟨rfl, rfl, rfl⟩
  · exact ⟨rfl, rfl, rfl⟩

/-- So does a read that walks the automaton. -/
theorem ovConsolidateForRead_spec (r : LazyRelation) :
    r.ovConsolidateForRead.store = r.folded ∧ r.ovConsolidateForRead.ov.rows = [] ∧
      r.ovConsolidateForRead.arity = r.arity := by
  unfold ovConsolidateForRead
  split
  · rename_i h
    have hov := List.isEmpty_iff.mp h
    exact ⟨by rw [folded, hov]; rfl, hov, rfl⟩
  · exact r.relOverlayFlush_spec

/-- A flush of a relation in memory keeps it there. -/
theorem readable_ovConsolidateForRead {r : LazyRelation} (h : r.state.Readable) :
    r.ovConsolidateForRead.state.Readable := by
  unfold ovConsolidateForRead relOverlayFlush
  split
  · exact h
  · exact ReadState.readable_owned _

/-- A relation ready for a walk is flushed and shows its automata. -/
structure Ready (r r' : LazyRelation) : Prop where
  store : r'.store = r.folded
  ov : r'.ov.rows = []
  arity : r'.arity = r.arity
  readable : r'.state.Readable

theorem ready_spec (r : LazyRelation) : Ready r r.ready := by
  obtain ⟨hstore, hov, harity, hread⟩ := r.relEnsureReadable_spec
  have hfolded : r.relEnsureReadable.folded = r.folded := by rw [folded, folded, hstore, hov]
  unfold ready
  split
  · rename_i hview
    have hempty : r.relEnsureReadable.ov.rows = [] := by
      refine r.relEnsureReadable.clean ?_
      cases hst : r.relEnsureReadable.state with
      | owned s => rw [hst] at hview; cases hview
      | deferred d base => rfl
      | view d base => rfl
    refine ⟨?_, hempty, harity, hread⟩
    rw [hstore, folded, ← hov, hempty]
    rfl
  · obtain ⟨hs, ho, ha⟩ := r.relEnsureReadable.ovConsolidateForRead_spec
    exact ⟨hs.trans hfolded, ho, ha.trans harity, readable_ovConsolidateForRead hread⟩

theorem ready_owned (r : LazyRelation) : Ready r r.relEnsureOwned.ovConsolidateForRead := by
  obtain ⟨hs, ho, ha⟩ := r.relEnsureOwned.ovConsolidateForRead_spec
  exact ⟨hs, ho, ha, readable_ovConsolidateForRead (ReadState.readable_owned _)⟩

/-! ## The sets of a relation -/

/-- The sets a relation stands for. -/
def sets (r : LazyRelation) : Sets where
  base := {x | x ∈ r.store.base}
  view := {x | x ∈ r.store.view ∨ x ∈ r.ov.rows}
  pending := {x | x ∈ r.ov.rows}
  shared := !r.store.isIdb

/-- Folding the overlay in is a flush of the sets. -/
theorem Ready.sets {r r' : LazyRelation} (h : Ready r r') : r'.sets = r.sets.flush := by
  ext x
  · simp only [LazyRelation.sets, h.store, Sets.flush, folded, Set.mem_ofPred_eq, Set.mem_union,
      Relation.mem_base_foldl_foldRow]
    tauto
  · simp only [LazyRelation.sets, h.store, h.ov, Sets.flush, folded, Set.mem_ofPred_eq,
      Relation.mem_view_foldl_foldRow, List.not_mem_nil, or_false]
    tauto
  · simp [LazyRelation.sets, h.ov, Sets.flush]
  · simp [LazyRelation.sets, h.store, Sets.flush, folded]

theorem sets_relOverlayFlush (r : LazyRelation) : r.relOverlayFlush.sets = r.sets.flush := by
  obtain ⟨hs, ho, ha⟩ := r.relOverlayFlush_spec
  ext x
  · simp only [sets, hs, Sets.flush, folded, Set.mem_ofPred_eq, Set.mem_union,
      Relation.mem_base_foldl_foldRow]
    tauto
  · simp only [sets, hs, ho, Sets.flush, folded, Set.mem_ofPred_eq,
      Relation.mem_view_foldl_foldRow, List.not_mem_nil, or_false]
    tauto
  · simp [sets, ho, Sets.flush]
  · simp [sets, hs, Sets.flush, folded]

/-! ## The calls on the sets -/

/-- A batch of rows into the view. -/
theorem sets_addRows (r : LazyRelation) (rows : List Row) :
    (r.own (r.store.addRows rows)).sets = r.sets.addRows {x | x ∈ rows} := by
  cases hs : r.store <;> ext x <;>
    simp [sets, hs, Sets.addRows, Store.addRows, Store.isIdb, Dafsa.mem_foldl_add] <;> tauto

/-- A row into the base. -/
theorem sets_addBase (r : LazyRelation) (c : Row) :
    (r.own (r.store.addBase c)).sets = r.sets.addBase {c} := by
  cases hs : r.store <;> ext x <;>
    simp [sets, hs, Sets.addBase, Store.addBase, Store.isIdb]
  tauto

/-- Other rows for the view. -/
theorem sets_buildView (r : LazyRelation) (rows : List Row) :
    (r.own (r.store.buildView rows)).sets = r.sets.buildView {x | x ∈ rows} := by
  cases hs : r.store <;> ext x <;>
    simp [sets, hs, Sets.buildView, Store.buildView, Store.isIdb]

/-- Other rows for the base. -/
theorem sets_buildBase (r : LazyRelation) (rows : List Row) :
    (r.own (r.store.buildBase rows)).sets = r.sets.buildBase {x | x ∈ rows} := by
  cases hs : r.store <;> ext x <;>
    simp [sets, hs, Sets.buildBase, Store.buildBase, Store.isIdb]

/-- The derived rows are dropped. -/
theorem sets_resetView (r : LazyRelation) :
    (r.own r.store.resetView).sets = r.sets.resetView := by
  ext x <;> simp [sets, Sets.resetView]

/-- A row out of the view, of a relation without unflushed facts. -/
theorem sets_delete {r : LazyRelation} (h : r.ov.rows = []) (c : Row) :
    (r.own (r.store.delete c)).sets = r.sets.delete c := by
  cases hs : r.store <;> ext x <;>
    simp [sets, hs, h, Sets.delete, Store.delete, Store.isIdb]

/-- A row out of the base, of a relation without unflushed facts. -/
theorem sets_deleteBase {r : LazyRelation} (h : r.ov.rows = []) (c : Row) :
    (r.own (r.store.deleteBase c)).sets = r.sets.deleteBase c := by
  cases hs : r.store <;> ext x <;>
    simp [sets, hs, h, Sets.deleteBase, Store.deleteBase, Store.isIdb]

/-- A row into the overlay. -/
theorem sets_relOverlayAdd (r : LazyRelation) (c : Row) :
    (r.relOverlayAdd c).2.sets = r.sets.overlayAdd c := by
  have hd : r.relEnsureOwned.d = r.store.view := rfl
  unfold relOverlayAdd
  simp only [hd]
  split
  · rename_i hc
    have hview : c ∈ r.store.view := Dafsa.lookup_iff.mp hc
    ext x
    · rfl
    · simp only [sets, Sets.overlayAdd, store_relEnsureOwned, Set.mem_ofPred_eq,
        Set.mem_insert_iff]
      constructor
      · exact Or.inr
      · rintro (rfl | hx)
        · exact Or.inl hview
        · exact hx
    · simp [sets, Sets.overlayAdd, hview, relEnsureOwned]
    · rfl
  · rename_i hc
    have hview : c ∉ r.store.view := fun h => hc (Dafsa.lookup_iff.mpr h)
    ext x
    · rfl
    · have hstore : x ∈ r.relEnsureOwned.store.view ↔ x ∈ r.store.view := Iff.rfl
      have hov : x ∈ (r.relEnsureOwned.ov.add c).rows ↔ x ∈ r.ov.rows ∨ x = c :=
        TupleSet.mem_rows_add
      change x ∈ r.relEnsureOwned.store.view ∨ x ∈ (r.relEnsureOwned.ov.add c).rows ↔
        x = c ∨ x ∈ r.store.view ∨ x ∈ r.ov.rows
      rw [hstore, hov]
      tauto
    · have hov : x ∈ (r.relEnsureOwned.ov.add c).rows ↔ x ∈ r.ov.rows ∨ x = c :=
        TupleSet.mem_rows_add
      change x ∈ (r.relEnsureOwned.ov.add c).rows ↔
        x ∈ r.ov.rows ∨ x = c ∧ ¬ (c ∈ r.store.view ∨ c ∈ r.ov.rows)
      rw [hov]
      by_cases hpend : c ∈ r.ov.rows
      · constructor
        · rintro (hx | rfl)
          · exact Or.inl hx
          · exact Or.inl hpend
        · rintro (hx | hx)
          · exact Or.inl hx
          · exact absurd (Or.inr hpend) hx.2
      · simp [hview, hpend]
    · rfl

/-- An automaton without keys. -/
theorem eq_create_of_relPrefixD {arity : ℕ} {d : Dafsa} (h : relPrefixD arity d [] = some []) :
    d = .create := by
  refine Dafsa.ext_mem fun x => ⟨fun hx => ?_, fun hx => absurd hx (Dafsa.not_mem_create x)⟩
  have hkeys : d.keys.filterMap (fun r => ([] : Row).isPrefixOf? r) = d.keys := by
    simp [List.isPrefixOf?]
  simp only [relPrefixD, Dafsa.walk, hkeys, List.length_nil, Nat.not_lt_zero, if_false, ne_eq,
    not_true_eq_false, false_and, List.nil_append, List.map_id'] at h
  rw [Dafsa.mem_def, Option.some.inj h] at hx
  cases hx

/-- Building an empty view is inserting into it. -/
theorem buildView_eq_addRows {s : Store} (h : s.view = .create) (rows : List Row) :
    s.buildView rows = s.addRows rows := by
  cases s with
  | aliased d =>
    obtain rfl : d = .create := h
    rfl
  | split b d =>
    obtain rfl : d = .create := h
    rfl

/-- The rows `rel_add_tupleset` inserts are those of the batch. -/
theorem mem_src {ts : TupleSet} {x : Row} :
    x ∈ (if tsSorted ts.rows then ts else ts.sort).rows ↔ x ∈ ts.rows := by
  split
  · exact Iff.rfl
  · exact TupleSet.mem_rows_sort

/-- A batch into the view, whether it is built or inserted row by row. -/
theorem relAddTupleset_spec (r : LazyRelation) {ts : TupleSet} (harity : ts.arity = r.arity) :
    ts.rows = [] ∧ (r.relAddTupleset ts).2 = r ∨
      ∃ rows, (∀ x, x ∈ rows ↔ x ∈ ts.rows) ∧
        (r.relAddTupleset ts).2 = r.own (r.store.addRows rows) := by
  unfold relAddTupleset
  rw [if_neg (not_not.mpr harity)]
  split
  · rename_i hempty
    exact Or.inl ⟨List.isEmpty_iff.mp hempty, rfl⟩
  · refine Or.inr ⟨(if tsSorted ts.rows then ts else ts.sort).rows, fun x => mem_src, ?_⟩
    dsimp only
    split
    · rename_i hbulk
      have hempty : r.state.promote.view = .create := eq_create_of_relPrefixD hbulk.2
      rw [buildView_eq_addRows hempty]
      rfl
    · rfl

theorem sets_relAddTupleset (r : LazyRelation) (ts : TupleSet) :
    (r.relAddTupleset ts).2.sets =
      if ts.arity = r.arity then r.sets.addRows {x | x ∈ ts.rows} else r.sets := by
  by_cases harity : ts.arity = r.arity
  · rw [if_pos harity]
    rcases r.relAddTupleset_spec harity with ⟨hempty, heq⟩ | ⟨rows, hrows, heq⟩
    · rw [heq, hempty]
      ext x <;> simp [Sets.addRows]
    · rw [heq, sets_addRows]
      exact congrArg _ (Set.ext hrows)
  · rw [relAddTupleset, if_pos harity, if_neg harity]

end LazyRelation

/-! ## Walks and order statistics -/

instance : Std.Irrefl RowBefore := ⟨fun r => by simp [RowBefore, rowLt_irrefl]⟩

instance : IsTrans Row RowBefore := ⟨fun _ _ _ => rowLt_trans⟩

/-- Common leading columns do not matter for the order. -/
theorem rowLt_append (p a b : Row) : rowLt (p ++ a) (p ++ b) = rowLt a b := by
  induction p with
  | nil => rfl
  | cons c p ih => simpa [rowLt_cons] using ih

namespace Dafsa

/-- What an automaton accepts behind the leading columns `p`. -/
def rest (d : Dafsa) (p : Row) : List Row := d.keys.filterMap fun r => p.isPrefixOf? r

theorem mem_rest {d : Dafsa} {p s : Row} : s ∈ d.rest p ↔ p ++ s ∈ d := by
  rw [rest, List.mem_filterMap, mem_def]
  constructor
  · rintro ⟨r, hr, hs⟩
    rw [List.isPrefixOf?_eq_some_iff_append_eq] at hs
    rwa [hs]
  · intro h
    exact ⟨p ++ s, h, List.isPrefixOf?_eq_some_iff_append_eq.mpr rfl⟩

theorem sorted_rest (d : Dafsa) (p : Row) : (d.rest p).Pairwise RowBefore := by
  rw [rest, List.pairwise_filterMap]
  refine d.sorted.imp fun {a b} hab s hs t ht => ?_
  rw [List.isPrefixOf?_eq_some_iff_append_eq] at hs ht
  rw [← hs, ← ht, rowLt_append] at hab
  exact hab

/-- The walk fails only where there is nothing to accept. -/
theorem walk_elim {α : Type} (d : Dafsa) (p : Row) (absent : α) (answer : List Row → α)
    (h : answer [] = absent) : (d.walk p).elim absent answer = answer (d.rest p) := by
  unfold walk
  dsimp only
  split
  · rename_i hnone
    rw [rest, hnone.2, h]
    rfl
  · rfl

/-- The rows with the leading columns `p`. -/
def matched (d : Dafsa) (p : Row) : List Row := (d.rest p).map (p ++ ·)

theorem mem_matched {d : Dafsa} {p x : Row} : x ∈ d.matched p ↔ x ∈ d ∧ p <+: x := by
  rw [matched, List.mem_map]
  constructor
  · rintro ⟨s, hs, rfl⟩
    exact ⟨mem_rest.mp hs, List.prefix_append p s⟩
  · rintro ⟨hx, s, rfl⟩
    exact ⟨s, mem_rest.mpr hx, rfl⟩

theorem sorted_matched (d : Dafsa) (p : Row) : (d.matched p).Pairwise RowBefore := by
  refine List.pairwise_map.mpr ((d.sorted_rest p).imp fun {a b} hab => ?_)
  rwa [RowBefore, rowLt_append]

end Dafsa

/-- The prefix walk lists the rows of a set with the given leading columns. -/
theorem lists_relPrefixD (arity : ℕ) {d : Dafsa} {S : Set Row} (hS : ∀ x, x ∈ S ↔ x ∈ d)
    (p : Row) : Sets.Lists arity S p (relPrefixD arity d p) := by
  unfold Sets.Lists relPrefixD
  split
  · rfl
  · refine ⟨d.matched p, ?_, OrderStat.nodup_of_sorted (d.sorted_matched p), fun x => ?_⟩
    · have h := d.walk_elim p [] (fun rest => rest.map (p ++ ·)) rfl
      rw [Dafsa.matched, ← h]
      cases d.walk p <;> rfl
    · rw [Dafsa.mem_matched, Sets.matching, Set.mem_ofPred_eq, hS]

/-- The entries of a sorted list select from its set. -/
theorem selects_of_sorted {l : List Row} (h : l.Pairwise RowBefore) {S : Set Row}
    (hS : ∀ x, x ∈ S ↔ x ∈ l) (k : ℕ) : Sets.Selects S k l[k]? :=
  ⟨fun _ => OrderStat.getElem?_eq_some_iff h hS, OrderStat.getElem?_eq_none_iff h hS⟩

/-! ## Answers -/

namespace LazyRelation

/-- No row is both in the automaton of the view and in the overlay. -/
def Apart (r : LazyRelation) : Prop := ∀ x ∈ r.ov.rows, x ∉ r.store.view

/-- A relation answers a read from the sets. -/
def Agrees (r : LazyRelation) (s : Sets) : Prop :=
  ∀ q, s.Answers r.arity q (r.ask q).1

theorem mem_d_relEnsureReadable (r : LazyRelation) (x : Row) :
    x ∈ r.relEnsureReadable.d ↔ x ∈ r.store.view := by
  obtain ⟨hstore, -, -, hread⟩ := r.relEnsureReadable_spec
  have hd : r.relEnsureReadable.d = r.relEnsureReadable.store.view := hread false
  rw [hd, hstore]

theorem mem_base_relEnsureReadable (r : LazyRelation) (x : Row) :
    x ∈ r.relEnsureReadable.base ↔ x ∈ r.sets.base := by
  obtain ⟨hstore, -, -, hread⟩ := r.relEnsureReadable_spec
  have hbase : r.relEnsureReadable.base = r.relEnsureReadable.store.base := hread true
  rw [hbase, hstore]
  rfl

/-- A relation ready for a walk has the whole view in its automaton. -/
theorem Ready.mem_d {r r' : LazyRelation} (h : Ready r r') (x : Row) :
    x ∈ r.sets.view ↔ x ∈ r'.d := by
  have hd : r'.d = r'.store.view := h.readable false
  have hview : r'.sets.view = r.sets.flush.view := congrArg Sets.view h.sets
  change x ∈ r.sets.flush.view ↔ x ∈ r'.d
  rw [← hview, hd]
  simp [LazyRelation.sets, h.ov]

/-- The size of the view, when automaton and overlay are apart. -/
theorem relCountSubtree_iff (r : LazyRelation) :
    r.relCountSubtree.1 = r.sets.view.ncard ↔ r.Apart := by
  classical
  let A : Set Row := {x | x ∈ r.relEnsureReadable.d}
  let B : Set Row := {x | x ∈ r.ov.rows}
  have hA : A.ncard = r.relEnsureReadable.d.keys.length :=
    OrderStat.ncard_eq_length r.relEnsureReadable.d.nodup_keys fun _ => Iff.rfl
  have hB : B.ncard = r.ov.rows.length := OrderStat.ncard_eq_length r.ov.nodup fun _ => Iff.rfl
  have hAf : A.Finite := r.relEnsureReadable.d.keys.finite_toSet
  have hBf : B.Finite := r.ov.rows.finite_toSet
  have hview : r.sets.view = A ∪ B := by
    ext x
    change x ∈ r.store.view ∨ x ∈ r.ov.rows ↔ x ∈ r.relEnsureReadable.d ∨ x ∈ r.ov.rows
    rw [mem_d_relEnsureReadable]
  have hcount : r.relCountSubtree.1 = A.ncard + B.ncard := by
    rw [hA, hB, ← r.relEnsureReadable_spec.2.1]
    rfl
  have hsum : (A ∪ B).ncard + (A ∩ B).ncard = A.ncard + B.ncard :=
    Set.ncard_union_add_ncard_inter A B hAf hBf
  have hinter : (A ∩ B).ncard = 0 ↔ r.Apart := by
    rw [Set.ncard_eq_zero (hAf.inter_of_left B), Set.eq_empty_iff_forall_notMem]
    constructor
    · intro h x hx hmem
      exact h x ⟨(r.mem_d_relEnsureReadable x).mpr hmem, hx⟩
    · intro h x hx
      exact h x hx.2 ((r.mem_d_relEnsureReadable x).mp hx.1)
  rw [hview, hcount, ← hinter]
  omega

/-- A `_bound` read answers from the rows with the given leading columns. -/
theorem relBound_spec {α : Type} (r : LazyRelation) (p : Row) (refused absent : α)
    (answer : List Row → α) (h : answer [] = absent) :
    ∃ d : Dafsa, (∀ x, x ∈ Sets.matching r.sets.view p ↔ x ∈ d.matched p) ∧
      (r.relBound p refused absent answer).1 =
        if r.arity < p.length then refused else answer (d.rest p) := by
  have hready := r.ready_owned
  refine ⟨r.relEnsureOwned.ovConsolidateForRead.d, fun x => ?_, ?_⟩
  · rw [Dafsa.mem_matched, Sets.matching, Set.mem_ofPred_eq, hready.mem_d]
  have hpos : r.arity ≠ 0 := r.arity_pos.ne'
  have harity : r.relEnsureOwned.arity = r.arity := rfl
  unfold relBound relPrefixState
  simp only [harity, if_neg hpos]
  split
  · rfl
  · exact Dafsa.walk_elim _ p absent answer h

/-- **A relation answers from its sets** exactly when no row is both in the
automaton of the view and in the overlay. -/
theorem agrees_sets_iff (r : LazyRelation) : r.Agrees r.sets ↔ r.Apart := by
  constructor
  · intro h
    exact r.relCountSubtree_iff.mp (Option.some.inj (h .countSubtree))
  · intro h q
    have hready := r.ready_spec
    cases q with
    | exact c =>
      change (r.relEnsureReadable.d.lookup c || r.relEnsureReadable.ov.contains c) = true ↔
        c ∈ r.store.view ∨ c ∈ r.ov.rows
      rw [Bool.or_eq_true, Dafsa.lookup_iff, TupleSet.contains_iff, mem_d_relEnsureReadable,
        r.relEnsureReadable_spec.2.1]
    | exactBase c =>
      change r.relEnsureReadable.base.lookup c = true ↔ c ∈ r.sets.base
      rw [Dafsa.lookup_iff, mem_base_relEnsureReadable]
    | scan p =>
      have hlists := lists_relPrefixD r.arity hready.mem_d p
      change Sets.Lists r.arity r.sets.view p
        ((relPrefixD r.ready.arity r.ready.d p).map (· ++ r.ready.ov.rows.filter _))
      rw [hready.arity, hready.ov]
      simpa using hlists
    | scanBase p =>
      change Sets.Lists r.arity r.sets.base p (relPrefixD r.relEnsureReadable.arity _ p)
      rw [r.relEnsureReadable_spec.2.2.1]
      exact lists_relPrefixD r.arity (fun x => (r.mem_base_relEnsureReadable x).symm) p
    | countSubtree => exact congrArg some (r.relCountSubtree_iff.mpr h)
    | rank c =>
      exact congrArg some (OrderStat.ncard_below r.ready.d.nodup_keys hready.mem_d c).symm
    | select k => exact selects_of_sorted r.ready.d.sorted hready.mem_d k
    | rangeCount lo hi =>
      exact congrArg some (OrderStat.ncard_range r.ready.d.nodup_keys hready.mem_d lo hi).symm
    | rankBound p c =>
      obtain ⟨d, hmem, hbound⟩ := r.relBound_spec p none (some 0)
        (fun rest => some (OrderStat.rank RowBefore rest (c.drop p.length))) rfl
      change (r.relBound p none (some 0) _).1 = _
      rw [hbound]
      split
      · rfl
      · rw [OrderStat.ncard_below (OrderStat.nodup_of_sorted (d.sorted_matched p)) hmem,
          Dafsa.matched, OrderStat.rank_map fun a b => by rw [RowBefore, rowLt_append]]
    | selectBound p k =>
      obtain ⟨d, hmem, hbound⟩ := r.relBound_spec p none none
        (fun rest => rest[k]?.map (p ++ ·)) rfl
      change if r.arity < p.length then (r.relBound p none none _).1 = none else
        Sets.Selects _ k (r.relBound p none none _).1
      rw [hbound]
      split
      · rfl
      · have hsel := selects_of_sorted (d.sorted_matched p) hmem k
        rwa [Dafsa.matched, List.getElem?_map] at hsel
    | rangeCountBound p lo hi =>
      obtain ⟨d, hmem, hbound⟩ := r.relBound_spec p none (some 0)
        (fun rest => some (OrderStat.rangeCount RowBefore rest (lo.drop p.length)
          (hi.drop p.length))) rfl
      change (r.relBound p none (some 0) _).1 = _
      rw [hbound]
      split
      · rfl
      · rw [Sets.range, OrderStat.ncard_range (OrderStat.nodup_of_sorted (d.sorted_matched p)) hmem,
          Dafsa.matched, OrderStat.rangeCount_map fun a b => by rw [RowBefore, rowLt_append]]
    | dafsa =>
      intro x
      exact (r.ready_owned.mem_d x).symm

/-- Two states of a relation with the same automata and the same overlay. -/
structure Same (r r' : LazyRelation) : Prop where
  store : r'.store = r.store
  ov : r'.ov = r.ov
  arity : r'.arity = r.arity

theorem same_relEnsureReadable (r : LazyRelation) : Same r r.relEnsureReadable :=
  ⟨r.relEnsureReadable_spec.1, r.relEnsureReadable_spec.2.1, r.relEnsureReadable_spec.2.2.1⟩

/-- What a read does to a relation. -/
theorem ask_spec (r : LazyRelation) (q : RelQuery) :
    if q.flushes r.arity = true then Ready r (r.ask q).2 else Same r (r.ask q).2 := by
  have hbound : ∀ {α : Type} (p : Row) (refused absent : α) (answer : List Row → α),
      if decide (p.length ≤ r.arity) = true then Ready r (r.relBound p refused absent answer).2
      else Same r (r.relBound p refused absent answer).2 := by
    intro α p refused absent answer
    have hpos : r.arity ≠ 0 := r.arity_pos.ne'
    have harity : r.relEnsureOwned.arity = r.arity := rfl
    unfold relBound relPrefixState
    simp only [harity, if_neg hpos, decide_eq_true_eq]
    by_cases hk : r.arity < p.length
    · rw [if_pos hk, if_neg (Nat.not_le.mpr hk)]
      exact ⟨rfl, rfl, rfl⟩
    · rw [if_neg hk, if_pos (Nat.not_lt.mp hk)]
      exact r.ready_owned
  cases q with
  | exact c => exact r.same_relEnsureReadable
  | exactBase c => exact r.same_relEnsureReadable
  | scanBase p => exact r.same_relEnsureReadable
  | countSubtree => exact r.same_relEnsureReadable
  | scan p => exact r.ready_spec
  | rank c => exact r.ready_spec
  | select k => exact r.ready_spec
  | rangeCount lo hi => exact r.ready_spec
  | dafsa => exact r.ready_owned
  | rankBound p c => exact hbound p none _ _
  | selectBound p k => exact hbound p none _ _
  | rangeCountBound p lo hi => exact hbound p none _ _

/-- A read leaves the sets as they are, or flushes them. -/
theorem sets_ask (r : LazyRelation) (q : RelQuery) :
    (r.ask q).2.sets = if q.flushes r.arity = true then r.sets.flush else r.sets := by
  have h := r.ask_spec q
  by_cases hq : q.flushes r.arity = true
  · rw [if_pos hq] at h ⊢
    exact h.sets
  · rw [if_neg hq] at h ⊢
    rw [sets, sets, h.store, h.ov]

end LazyRelation

/-! ## Runs -/

namespace RelOp

/-- A delete is called with an empty overlay. -/
def Allowed (r : LazyRelation) : RelOp → Prop
  | .delete _ | .deleteBase _ => r.ov.rows = []
  | _ => True

/-- The call puts no unflushed row into the automaton of the view. -/
def Fresh (r : LazyRelation) : RelOp → Prop
  | .add c => c ∉ r.ov.rows
  | .addBase c => r.store.isIdb = true ∨ c ∉ r.ov.rows
  | .addTupleset ts => ts.arity = r.arity → ∀ x ∈ ts.rows, x ∉ r.ov.rows
  | .buildFromTupleset ts => ts.1.arity = r.arity → ∀ x ∈ ts.1.rows, x ∉ r.ov.rows
  | .buildBaseFromTupleset ts =>
    r.store.isIdb = true ∨ (ts.1.arity = r.arity → ∀ x ∈ ts.1.rows, x ∉ r.ov.rows)
  | .resetView => r.store.isIdb = true → ∀ x ∈ r.ov.rows, x ∉ r.store.base
  | _ => True

theorem fresh_add {r : LazyRelation} {c : Row} (h : c ∉ r.ov.rows) : (RelOp.add c).Fresh r := h

/-- **A call on a relation** is the call on its sets. -/
theorem sets_apply {r : LazyRelation} {op : RelOp} (h : op.Allowed r) :
    (op.apply r).sets = op.spec r.arity r.sets := by
  cases op with
  | add c => exact (r.sets_addRows [c]).trans (congrArg _ (Set.ext fun x => List.mem_singleton))
  | addBase c => exact r.sets_addBase c
  | overlayAdd c => exact r.sets_relOverlayAdd c
  | overlayFlush => exact r.sets_relOverlayFlush
  | addTupleset ts => exact r.sets_relAddTupleset ts
  | buildFromTupleset ts =>
    simp only [apply, LazyRelation.relBuildFromTupleset, spec]
    split
    · rfl
    · rename_i heq
      rw [if_pos (not_not.mp heq)]
      exact r.sets_buildView ts.1.rows
  | buildBaseFromTupleset ts =>
    simp only [apply, LazyRelation.relBuildBaseFromTupleset, spec]
    split
    · rfl
    · rename_i heq
      rw [if_pos (not_not.mp heq)]
      exact r.sets_buildBase ts.1.rows
  | resetView => exact r.sets_resetView
  | delete c => exact LazyRelation.sets_delete h c
  | deleteBase c => exact LazyRelation.sets_deleteBase h c
  | read q => exact r.sets_ask q

theorem arity_apply (r : LazyRelation) (op : RelOp) : (op.apply r).arity = r.arity := by
  cases op with
  | add c => rfl
  | addBase c => rfl
  | overlayAdd c =>
    unfold apply LazyRelation.relOverlayAdd
    dsimp only
    split <;> rfl
  | overlayFlush => exact r.relOverlayFlush_spec.2.2
  | addTupleset ts =>
    simp only [apply, LazyRelation.relAddTupleset]
    split_ifs <;> rfl
  | buildFromTupleset ts =>
    simp only [apply, LazyRelation.relBuildFromTupleset]
    split <;> rfl
  | buildBaseFromTupleset ts =>
    simp only [apply, LazyRelation.relBuildBaseFromTupleset]
    split <;> rfl
  | resetView => rfl
  | delete c => rfl
  | deleteBase c => rfl
  | read q =>
    have h := r.ask_spec q
    split at h <;> exact h.arity

theorem mem_view_buildView {s : Store} {rows : List Row} {x : Row} :
    x ∈ (s.buildView rows).view ↔ x ∈ rows := by
  cases s <;> simp [Store.buildView]

/-- **One call**: automaton and overlay stay apart exactly when the call is fresh. -/
theorem apart_apply_iff {r : LazyRelation} (hr : r.Apart) {op : RelOp} (h : op.Allowed r) :
    (op.apply r).Apart ↔ op.Fresh r := by
  cases op with
  | add c =>
    change (∀ x ∈ r.ov.rows, x ∉ (r.store.add c).view) ↔ c ∉ r.ov.rows
    simp only [Store.mem_view_add, not_or]
    exact ⟨fun hx hc => (hx c hc).1 rfl, fun hc x hx => ⟨fun e => hc (e ▸ hx), hr x hx⟩⟩
  | addBase c =>
    change (∀ x ∈ r.ov.rows, x ∉ (r.store.addBase c).view) ↔
      r.store.isIdb = true ∨ c ∉ r.ov.rows
    unfold LazyRelation.Apart at hr
    cases hs : r.store with
    | aliased d =>
      rw [hs] at hr
      simp only [Store.addBase, Store.view_aliased, Dafsa.mem_add, not_or, Store.isIdb,
        Bool.false_eq_true, false_or]
      exact ⟨fun hx hc => (hx c hc).1 rfl, fun hc x hx => ⟨fun e => hc (e ▸ hx), hr x hx⟩⟩
    | split b d =>
      rw [hs] at hr
      simpa [Store.addBase, Store.isIdb] using hr
  | overlayAdd c =>
    refine iff_of_true (fun x hx => ?_) trivial
    have hstore : (r.relOverlayAdd c).2.store = r.store := by
      unfold LazyRelation.relOverlayAdd
      dsimp only
      split <;> rfl
    have hpend : x ∈ r.ov.rows ∨ x = c ∧ ¬ (c ∈ r.store.view ∨ c ∈ r.ov.rows) :=
      (Set.ext_iff.mp (congrArg Sets.pending (r.sets_relOverlayAdd c)) x).mp hx
    change x ∉ (r.relOverlayAdd c).2.store.view
    rw [hstore]
    rcases hpend with hx | ⟨rfl, hnew⟩
    · exact hr x hx
    · exact fun hview => hnew (Or.inl hview)
  | overlayFlush =>
    simp [apply, Fresh, LazyRelation.Apart, r.relOverlayFlush_spec.2.1]
  | addTupleset ts =>
    by_cases harity : ts.arity = r.arity
    swap
    · have hsame : (r.relAddTupleset ts).2 = r := by
        rw [LazyRelation.relAddTupleset, if_pos harity]
      simp only [apply, hsame, Fresh, harity, false_imp_iff, iff_true]
      exact hr
    · simp only [Fresh, harity, true_imp_iff, apply]
      rcases r.relAddTupleset_spec harity with ⟨hempty, heq⟩ | ⟨rows, hrows, heq⟩
      · rw [heq, hempty]
        exact iff_of_true hr (by simp)
      · rw [heq]
        change (∀ x ∈ r.ov.rows, x ∉ (r.store.addRows rows).view) ↔ _
        simp only [Store.mem_view_addRows, hrows, not_or]
        exact ⟨fun h x hx hov => (h x hov).1 hx, fun h x hov => ⟨fun hx => h x hx hov, hr x hov⟩⟩
  | buildFromTupleset ts =>
    simp only [apply, LazyRelation.relBuildFromTupleset, Fresh]
    by_cases harity : ts.1.arity = r.arity
    · rw [if_neg (not_not.mpr harity)]
      simp only [harity, true_imp_iff]
      change (∀ x ∈ r.ov.rows, x ∉ (r.store.buildView ts.1.rows).view) ↔ _
      simp only [mem_view_buildView]
      exact ⟨fun h x hx hov => h x hov hx, fun h x hov hx => h x hx hov⟩
    · rw [if_pos harity]
      exact iff_of_true hr fun h => absurd h harity
  | buildBaseFromTupleset ts =>
    simp only [apply, LazyRelation.relBuildBaseFromTupleset, Fresh]
    by_cases harity : ts.1.arity = r.arity
    · rw [if_neg (not_not.mpr harity)]
      simp only [harity, true_imp_iff]
      change (∀ x ∈ r.ov.rows, x ∉ (r.store.buildBase ts.1.rows).view) ↔ _
      unfold LazyRelation.Apart at hr
      cases hs : r.store with
      | aliased d =>
        simp only [Store.buildBase, Store.view_aliased, Dafsa.mem_ofRows, Store.isIdb,
          Bool.false_eq_true, false_or]
        exact ⟨fun h x hx hov => h x hov hx, fun h x hov hx => h x hx hov⟩
      | split b d =>
        rw [hs] at hr
        simpa [Store.buildBase, Store.isIdb] using hr
    · rw [if_pos harity]
      exact iff_of_true hr (Or.inr fun h => absurd h harity)
  | resetView =>
    change (∀ x ∈ r.ov.rows, x ∉ r.store.resetView.view) ↔
      (r.store.isIdb = true → ∀ x ∈ r.ov.rows, x ∉ r.store.base)
    unfold LazyRelation.Apart at hr
    cases hs : r.store with
    | aliased d =>
      rw [hs] at hr
      simpa [Store.isIdb] using hr
    | split b d => simp [Store.isIdb]
  | delete c =>
    have hov : r.ov.rows = [] := h
    simp [apply, Fresh, LazyRelation.Apart, LazyRelation.relDelete, hov]
  | deleteBase c =>
    have hov : r.ov.rows = [] := h
    simp [apply, Fresh, LazyRelation.Apart, LazyRelation.relDeleteBase, hov]
  | read q =>
    refine iff_of_true ?_ trivial
    have hask := r.ask_spec q
    unfold apply
    split at hask
    · intro x hx
      rw [hask.ov] at hx
      cases hx
    · intro x hx
      rw [hask.store]
      exact hr x (hask.ov ▸ hx)

end RelOp

/-- A relation that has just been created, or opened without reading its files, or
opened with its log replayed: there are no unflushed facts yet. -/
def Opened (r : LazyRelation) : Prop := r.ov.rows = []

/-- The relation after a list of calls. -/
def runOps (r : LazyRelation) (ops : List RelOp) : LazyRelation := ops.foldl RelOp.apply r

/-- The sets after a list of calls. -/
def Sets.run (arity : ℕ) (s : Sets) (ops : List RelOp) : Sets := ops.foldl (RelOp.spec arity) s

/-- Every call of the list has the property in the state it is made in. -/
def Throughout (P : LazyRelation → RelOp → Prop) : LazyRelation → List RelOp → Prop
  | _, [] => True
  | r, op :: ops => P r op ∧ Throughout P (op.apply r) ops

theorem opened_relOpen (arity : ℕ) (h : 0 < arity) (d : DafsaFile) (base : Option DafsaFile) :
    Opened (relOpen arity h d base) := rfl

/-- **A run of calls on a relation** is the run on its sets. -/
theorem sets_runOps {r : LazyRelation} {ops : List RelOp}
    (h : Throughout RelOp.Allowed r ops) :
    (runOps r ops).sets = r.sets.run r.arity ops := by
  induction ops generalizing r with
  | nil => rfl
  | cons op ops ih =>
    have htail := ih h.2
    rw [RelOp.arity_apply, RelOp.sets_apply h.1] at htail
    exact htail

/-- From a relation that is apart, a run agrees throughout iff its calls are fresh. -/
theorem agrees_iff_fresh_of_apart {r : LazyRelation} (hr : r.Apart) {ops : List RelOp}
    (h : Throughout RelOp.Allowed r ops) :
    (∀ done, done <+: ops → (runOps r done).Agrees (r.sets.run r.arity done)) ↔
      Throughout RelOp.Fresh r ops := by
  induction ops generalizing r with
  | nil =>
    refine iff_of_true (fun done hdone => ?_) trivial
    rw [List.prefix_nil.mp hdone]
    exact r.agrees_sets_iff.mpr hr
  | cons op ops ih =>
    have harity := RelOp.arity_apply r op
    have hsets := RelOp.sets_apply h.1
    have hstep : ∀ done, (runOps (op.apply r) done).Agrees
        ((op.apply r).sets.run (op.apply r).arity done) ↔
          (runOps r (op :: done)).Agrees (r.sets.run r.arity (op :: done)) := by
      intro done
      rw [harity, hsets]
      rfl
    constructor
    · intro hall
      have hone : (op.apply r).Apart := by
        refine (op.apply r).agrees_sets_iff.mp ((hstep []).mpr (hall [op] ?_))
        exact List.cons_prefix_cons.mpr ⟨rfl, List.nil_prefix⟩
      refine ⟨(RelOp.apart_apply_iff hr h.1).mp hone, (ih hone h.2).mp fun done hdone => ?_⟩
      exact (hstep done).mpr (hall (op :: done) (List.cons_prefix_cons.mpr ⟨rfl, hdone⟩))
    · rintro ⟨hfresh, hrest⟩ done hdone
      have hone : (op.apply r).Apart := (RelOp.apart_apply_iff hr h.1).mpr hfresh
      cases done with
      | nil => exact r.agrees_sets_iff.mpr hr
      | cons op' done =>
        obtain ⟨rfl, htail⟩ := List.cons_prefix_cons.mp hdone
        exact (hstep done).mp ((ih hone h.2).mpr hrest done htail)

/-- **The relation store refines its sets**: in a run of calls on an opened
relation, every read answers from the sets in every state reached, exactly when no
call puts an unflushed row into the automaton of the view. -/
theorem agrees_iff_fresh {r : LazyRelation} (hr : Opened r) {ops : List RelOp}
    (h : Throughout RelOp.Allowed r ops) :
    (∀ done, done <+: ops → (runOps r done).Agrees (r.sets.run r.arity done)) ↔
      Throughout RelOp.Fresh r ops := by
  refine agrees_iff_fresh_of_apart (fun x hx => ?_) h
  rw [hr] at hx
  cases hx

/-- A file with one row. -/
def sampleFile : DafsaFile where
  loaded := some (.ofRows [[1, 2]])
  viewed := some (.ofRows [[1, 2]])
  same := fun _ h => h

/-- A split relation with one stored row. -/
def sampleRel : LazyRelation := relOpen 2 (by decide) sampleFile (some sampleFile)

/-- The relation is read through views, gets a fact and is read again. -/
def sampleOps : List RelOp :=
  [.read (.scan [1]), .overlayAdd [1, 3], .read .countSubtree, .add [2, 2], .resetView,
    .read (.rank [1, 3]), .add [1, 3]]

theorem agrees_iff_fresh_sample : Throughout RelOp.Allowed sampleRel sampleOps ∧
    ∀ done, done <+: sampleOps → (runOps sampleRel done).Agrees (sampleRel.sets.run 2 done) := by
  have hall : Throughout RelOp.Allowed sampleRel sampleOps :=
    ⟨trivial, trivial, trivial, trivial, trivial, trivial, trivial, trivial⟩
  refine ⟨hall, (agrees_iff_fresh (opened_relOpen 2 _ sampleFile (some sampleFile)) hall).mpr ?_⟩
  exact ⟨trivial, trivial, trivial, RelOp.fresh_add (by decide), fun _ => by decide, trivial,
    RelOp.fresh_add (by decide), trivial⟩

/-- A fact in the overlay that a rule derives as well is counted twice. -/
theorem not_agrees_twice :
    ¬ ∀ (r : LazyRelation) (ops : List RelOp), Opened r →
      Throughout RelOp.Allowed r ops →
        (runOps r ops).Agrees (r.sets.run r.arity ops) := by
  intro h
  have hall : Throughout RelOp.Allowed (relCreate 1 (by decide))
      [.overlayAdd [7], .add [7]] := ⟨trivial, trivial, trivial⟩
  have hagrees := h (relCreate 1 (by decide)) [.overlayAdd [7], .add [7]] rfl hall
  rw [← sets_runOps hall] at hagrees
  have hov : ([7] : Row) ∈
      (runOps (relCreate 1 (by decide)) [.overlayAdd [7], .add [7]]).ov.rows := by decide
  have hview : ([7] : Row) ∈
      (runOps (relCreate 1 (by decide)) [.overlayAdd [7], .add [7]]).store.view := by decide
  exact (LazyRelation.agrees_sets_iff _).mp hagrees [7] hov hview

end DatalogDafsa
