import DatalogDafsa.TupleSet

/-!
# Relations: base, view and overlay

A relation keeps two automata: the *base*, its stored facts, and the *view*, the
base plus what the rules derive.  Until a relation is first evaluated as a rule
head the two are the same object, so a write to one is a write to the other;
`Store` makes that a constructor, and an aliased relation whose base and view
differ cannot be built.  A hot write goes to the *overlay*, a tuple set that is
folded into the automata at the next flush.

## Main definitions

* `Store`, `Store.base`, `Store.view` — the two automata.
* `Store.add`, `Store.addBase`, `Store.deleteBase`, `Store.resetView`,
  `Store.buildView`, `Store.buildBase`, `Store.addRows` — `rel_add` and its kin.
* `Relation` — a store with its overlay and its dirty flag.
* `Relation.exact`, `Relation.overlayAdd`, `Relation.overlayFlush`.
-/

namespace DatalogDafsa

/-- The automata of a relation: `aliased` while base and view are one object,
`split` once the relation has been evaluated as a rule head. -/
inductive Store
  /-- The base is the view. -/
  | aliased (d : Dafsa)
  /-- Base and view are separate automata. -/
  | split (base d : Dafsa)
  deriving DecidableEq

namespace Store

/-- The stored facts. -/
def base : Store → Dafsa
  | aliased d => d
  | split b _ => b

/-- The stored facts together with the derived ones. -/
def view : Store → Dafsa
  | aliased d => d
  | split _ d => d

/-- `rel_is_idb`: have base and view been split? -/
def isIdb : Store → Bool
  | aliased _ => false
  | split _ _ => true

/-- `rel_add`: insert into the view. -/
def add (r : Row) : Store → Store
  | aliased d => aliased (d.add r)
  | split b d => split b (d.add r)

/-- `rel_add_base`: insert into the base. -/
def addBase (r : Row) : Store → Store
  | aliased d => aliased (d.add r)
  | split b d => split (b.add r) d

/-- `rel_delete`: remove from the view. -/
def delete (r : Row) : Store → Store
  | aliased d => aliased (d.delete r)
  | split b d => split b (d.delete r)

/-- `rel_delete_base`: remove from the base. -/
def deleteBase (r : Row) : Store → Store
  | aliased d => aliased (d.delete r)
  | split b d => split (b.delete r) d

/-- `rel_reset_view`: the first call splits, the view keeping the base's rows; a
later one drops the derived rows. -/
def resetView : Store → Store
  | aliased d => split d d
  | split b _ => split b b

/-- `rel_build_from_tupleset`: replace the view. -/
def buildView (rows : List Row) : Store → Store
  | aliased _ => aliased (Dafsa.ofRows rows)
  | split b _ => split b (Dafsa.ofRows rows)

/-- `rel_build_base_from_tupleset`: replace the base. -/
def buildBase (rows : List Row) : Store → Store
  | aliased _ => aliased (Dafsa.ofRows rows)
  | split _ d => split (Dafsa.ofRows rows) d

/-- `rel_add_tupleset`: insert every row of a batch into the view. -/
def addRows (rows : List Row) : Store → Store
  | aliased d => aliased (rows.foldl Dafsa.add d)
  | split b d => split b (rows.foldl Dafsa.add d)

section Simp

variable (s : Store) (r x : Row) (rows : List Row)

@[simp] theorem base_aliased (d : Dafsa) : (aliased d).base = d := rfl
@[simp] theorem view_aliased (d : Dafsa) : (aliased d).view = d := rfl
@[simp] theorem base_split (b d : Dafsa) : (split b d).base = b := rfl
@[simp] theorem view_split (b d : Dafsa) : (split b d).view = d := rfl

@[simp] theorem isIdb_add : (s.add r).isIdb = s.isIdb := by cases s <;> rfl
@[simp] theorem isIdb_addBase : (s.addBase r).isIdb = s.isIdb := by cases s <;> rfl
@[simp] theorem isIdb_deleteBase : (s.deleteBase r).isIdb = s.isIdb := by cases s <;> rfl
@[simp] theorem isIdb_buildBase : (s.buildBase rows).isIdb = s.isIdb := by cases s <;> rfl
@[simp] theorem isIdb_resetView : s.resetView.isIdb = true := by cases s <;> rfl

@[simp] theorem base_resetView : s.resetView.base = s.base := by cases s <;> rfl
@[simp] theorem view_resetView : s.resetView.view = s.base := by cases s <;> rfl

@[simp] theorem mem_view_add : x ∈ (s.add r).view ↔ x = r ∨ x ∈ s.view := by
  cases s <;> simp [add]

@[simp] theorem mem_base_addBase : x ∈ (s.addBase r).base ↔ x = r ∨ x ∈ s.base := by
  cases s <;> simp [addBase]

@[simp] theorem mem_base_deleteBase : x ∈ (s.deleteBase r).base ↔ x ∈ s.base ∧ x ≠ r := by
  cases s <;> simp [deleteBase]

@[simp] theorem mem_base_buildBase : x ∈ (s.buildBase rows).base ↔ x ∈ rows := by
  cases s <;> simp [buildBase]

@[simp] theorem mem_view_addRows : x ∈ (s.addRows rows).view ↔ x ∈ rows ∨ x ∈ s.view := by
  cases s <;> simp [addRows, Dafsa.mem_foldl_add]

end Simp

/-- Only a split store's view can hold a row its base does not. -/
theorem view_eq_base_of_not_isIdb {s : Store} (h : s.isIdb = false) : s.view = s.base := by
  cases s with
  | aliased d => rfl
  | split b d => simp [isIdb] at h

end Store

/-- A fixed-arity relation as the engine holds it in memory. -/
structure Relation where
  /-- Base and view. -/
  store : Store
  /-- Facts added since the last flush. -/
  ov : TupleSet
  /-- Something changed since the relation was opened: compact it at close. -/
  dirty : Bool

namespace Relation

/-- `rel_exact`: is the row in the view or in the overlay? -/
def exact (rel : Relation) (r : Row) : Bool := rel.store.view.lookup r || rel.ov.contains r

/-- `rel_overlay_add`: a row the view already has is left alone. -/
def overlayAdd (rel : Relation) (r : Row) : Relation :=
  if rel.store.view.lookup r then rel
  else { rel with ov := rel.ov.add r, dirty := rel.dirty || !rel.ov.contains r }

/-- Fold one overlay row into the view, and into the base when they are split. -/
def foldRow (s : Store) (r : Row) : Store :=
  if s.isIdb then (s.add r).addBase r else s.add r

/-- `rel_overlay_flush`: fold the overlay in and drop it. -/
def overlayFlush (rel : Relation) : Relation :=
  if rel.ov.rows.isEmpty then { rel with ov := rel.ov.reset }
  else { store := rel.ov.rows.foldl foldRow rel.store, ov := rel.ov.reset, dirty := true }

/-- `rel_delete_base`, with the dirty flag. -/
def deleteBase (rel : Relation) (r : Row) : Relation :=
  if rel.store.base.lookup r then { rel with store := rel.store.deleteBase r, dirty := true }
  else rel

/-- `rel_add_base`, with the dirty flag. -/
def addBase (rel : Relation) (r : Row) : Relation :=
  if rel.store.base.lookup r then rel
  else { rel with store := rel.store.addBase r, dirty := true }

@[simp] theorem exact_iff {rel : Relation} {r : Row} :
    rel.exact r = true ↔ r ∈ rel.store.view ∨ r ∈ rel.ov.rows := by
  simp [exact]

@[simp] theorem isIdb_foldRow (s : Store) (r : Row) : (foldRow s r).isIdb = s.isIdb := by
  unfold foldRow; split <;> simp

@[simp] theorem mem_base_foldRow {s : Store} {r x : Row} :
    x ∈ (foldRow s r).base ↔ x = r ∨ x ∈ s.base := by
  cases s <;> simp [foldRow, Store.isIdb, Store.add, Store.addBase]

@[simp] theorem isIdb_foldl_foldRow (rows : List Row) (s : Store) :
    (rows.foldl foldRow s).isIdb = s.isIdb := by
  induction rows generalizing s with
  | nil => rfl
  | cons r rows ih => simp [ih]

theorem mem_base_foldl_foldRow (rows : List Row) (s : Store) (x : Row) :
    x ∈ (rows.foldl foldRow s).base ↔ x ∈ rows ∨ x ∈ s.base := by
  induction rows generalizing s with
  | nil => simp
  | cons r rows ih => simp only [List.foldl_cons, ih, mem_base_foldRow, List.mem_cons]; tauto

@[simp] theorem isIdb_overlayFlush (rel : Relation) :
    rel.overlayFlush.store.isIdb = rel.store.isIdb := by
  unfold overlayFlush; split <;> simp

@[simp] theorem ov_overlayFlush (rel : Relation) : rel.overlayFlush.ov.rows = [] := by
  unfold overlayFlush; split <;> rfl

/-- **A flush moves the overlay into the base.** -/
@[simp] theorem mem_base_overlayFlush {rel : Relation} {x : Row} :
    x ∈ rel.overlayFlush.store.base ↔ x ∈ rel.ov.rows ∨ x ∈ rel.store.base := by
  unfold overlayFlush
  split
  · rename_i h
    simp [List.isEmpty_iff.mp h]
  · exact mem_base_foldl_foldRow _ _ _

@[simp] theorem mem_view_foldRow {s : Store} {r x : Row} :
    x ∈ (foldRow s r).view ↔ x = r ∨ x ∈ s.view := by
  cases s <;> simp [foldRow, Store.isIdb, Store.add, Store.addBase]

theorem mem_view_foldl_foldRow (rows : List Row) (s : Store) (x : Row) :
    x ∈ (rows.foldl foldRow s).view ↔ x ∈ rows ∨ x ∈ s.view := by
  induction rows generalizing s with
  | nil => simp
  | cons r rows ih => simp only [List.foldl_cons, ih, mem_view_foldRow, List.mem_cons]; tauto

/-- A flush moves the overlay into the view. -/
@[simp] theorem mem_view_overlayFlush {rel : Relation} {x : Row} :
    x ∈ rel.overlayFlush.store.view ↔ x ∈ rel.ov.rows ∨ x ∈ rel.store.view := by
  unfold overlayFlush
  split
  · rename_i h
    simp [List.isEmpty_iff.mp h]
  · exact mem_view_foldl_foldRow _ _ _

@[simp] theorem store_overlayAdd (rel : Relation) (r : Row) :
    (rel.overlayAdd r).store = rel.store := by
  unfold overlayAdd; split <;> rfl

theorem mem_ov_overlayAdd {rel : Relation} {r x : Row} :
    x ∈ (rel.overlayAdd r).ov.rows ↔ x ∈ rel.ov.rows ∨ (x = r ∧ r ∉ rel.store.view) := by
  unfold overlayAdd
  split
  · rename_i h
    simp [Dafsa.lookup_iff.mp h]
  · rename_i h
    have hr : r ∉ rel.store.view := fun hr => h (Dafsa.lookup_iff.mpr hr)
    simp [hr]

@[simp] theorem ov_deleteBase (rel : Relation) (r : Row) : (rel.deleteBase r).ov = rel.ov := by
  unfold deleteBase; split <;> rfl

@[simp] theorem isIdb_deleteBase (rel : Relation) (r : Row) :
    (rel.deleteBase r).store.isIdb = rel.store.isIdb := by
  unfold deleteBase; split <;> simp

@[simp] theorem mem_base_deleteBase {rel : Relation} {r x : Row} :
    x ∈ (rel.deleteBase r).store.base ↔ x ∈ rel.store.base ∧ x ≠ r := by
  unfold deleteBase
  split
  · simp
  · rename_i h
    have hr : r ∉ rel.store.base := fun hr => h (Dafsa.lookup_iff.mpr hr)
    exact ⟨fun hx => ⟨hx, fun e => hr (e ▸ hx)⟩, And.left⟩

@[simp] theorem ov_addBase (rel : Relation) (r : Row) : (rel.addBase r).ov = rel.ov := by
  unfold addBase; split <;> rfl

@[simp] theorem isIdb_addBase (rel : Relation) (r : Row) :
    (rel.addBase r).store.isIdb = rel.store.isIdb := by
  unfold addBase; split <;> simp

@[simp] theorem mem_base_addBase {rel : Relation} {r x : Row} :
    x ∈ (rel.addBase r).store.base ↔ x = r ∨ x ∈ rel.store.base := by
  unfold addBase
  split
  · rename_i h
    have hr : r ∈ rel.store.base := Dafsa.lookup_iff.mp h
    exact ⟨Or.inr, fun hx => hx.elim (fun e => e ▸ hr) id⟩
  · simp

end Relation

end DatalogDafsa
