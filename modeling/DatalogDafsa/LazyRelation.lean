import DatalogDafsa.Relation
import DatalogDafsa.Lib.OrderStat

/-!
# Lazily opened relations

Opening a database reads no relation.  A relation starts out *deferred*, knowing
only its files; the first read maps them (*view*), and the first write, or a read
that a mapping cannot serve, parses them into memory (*owned*).  Beside the
automata stands the overlay of recent facts: `relExact` looks into both,
`relCountSubtree` adds the two sizes, and every other read of the view folds the
overlay into the automata first.

## Main definitions

* `DafsaFile`, `Mapped`, `ReadState` — a file, a mapped file, and how a relation
  is held.
* `LazyRelation` — a relation with its read state and its overlay.
* `relEnsureOwned`, `relEnsureReadable`, `ovConsolidateForRead` — the gates.
* `relAdd` and its kin, `relExact` and its kin — the writes and the reads.
* `RelOp`, `RelOp.apply`, `RelQuery`, `LazyRelation.ask` — one call on a relation.
-/

namespace DatalogDafsa

/-! ## Walking an automaton -/

/-- The byte order of the keys, as a relation. -/
abbrev RowBefore (a b : Row) : Prop := rowLt a b = true

namespace Dafsa

/-- The state that the leading columns `p` lead to, given by what it still
accepts; `none` when no key starts with `p`. -/
def walk (d : Dafsa) (p : Row) : Option (List Row) :=
  let rest := d.keys.filterMap fun r => p.isPrefixOf? r
  if p ≠ [] ∧ rest = [] then none else some rest

/-- `dafsa_rank_n`: the number of keys below a row. -/
def rank (d : Dafsa) (r : Row) : ℕ := OrderStat.rank RowBefore d.keys r

/-- `dafsa_select_n`: the key with `k` keys below it. -/
def select (d : Dafsa) (k : ℕ) : Option Row := d.keys[k]?

/-- `dafsa_range_count_n`: the number of keys in a half-open range. -/
def rangeCount (d : Dafsa) (lo hi : Row) : ℕ := OrderStat.rangeCount RowBefore d.keys lo hi

end Dafsa

/-- `relPrefixD`: the rows with the given leading columns, `none` when there are
more of them than the relation has. -/
def relPrefixD (arity : ℕ) (d : Dafsa) (p : Row) : Option (List Row) :=
  if arity < p.length then none
  else some (match d.walk p with
    | none => []
    | some rest => rest.map (p ++ ·))

/-! ## Files and read states -/

/-- An automaton on disk: what `dafsa_load` and `dafsa_view_open` give for it. A
file that can be mapped can be loaded, with the same keys. -/
structure DafsaFile where
  /-- What parsing the file gives. -/
  loaded : Option Dafsa
  /-- What mapping the file gives. -/
  viewed : Option Dafsa
  /-- The mapping shows what is in the file. -/
  same : ∀ d, viewed = some d → loaded = some d

/-- A file with a view open on it. -/
structure Mapped where
  /-- The file. -/
  file : DafsaFile
  /-- The keys the view shows. -/
  shown : Dafsa
  /-- The view is open on this file. -/
  isView : file.viewed = some shown

namespace DafsaFile

/-- The keys in the file; a file that does not load is taken as empty. -/
def content (f : DafsaFile) : Dafsa := f.loaded.getD .create

/-- `dafsa_view_open`. -/
def openView (f : DafsaFile) : Option Mapped :=
  match h : f.viewed with
  | none => none
  | some d => some ⟨f, d, h⟩

end DafsaFile

/-- How a relation holds its automata. The second file is that of the base, and
is there exactly when base and view are split. -/
inductive ReadState
  /-- In memory. -/
  | owned (s : Store)
  /-- Not read yet. -/
  | deferred (d : DafsaFile) (base : Option DafsaFile)
  /-- Read through views. -/
  | view (d : Mapped) (base : Option Mapped)

namespace ReadState

/-- Are the automata in memory? -/
def isOwned : ReadState → Bool
  | owned _ => true
  | _ => false

@[simp] theorem isOwned_owned (s : Store) : (owned s).isOwned = true := rfl

/-- Are the automata read through views? -/
def isView : ReadState → Bool
  | view _ _ => true
  | _ => false

/-- The automata as the files give them. -/
def load (d : DafsaFile) : Option DafsaFile → Store
  | none => .aliased d.content
  | some b => .split b.content d.content

/-- The automata once they are in memory. -/
def promote : ReadState → Store
  | owned s => s
  | deferred d base => load d base
  | view d base => load d.file (base.map Mapped.file)

/-- `relViewOpen`: map the file, or both files. -/
def open? (d : DafsaFile) : Option DafsaFile → Option ReadState
  | none => d.openView.map fun v => view v none
  | some b => d.openView.bind fun v => b.openView.map fun vb => view v (some vb)

/-- The automaton a read walks, the base's when `base` is set. A relation that is
still deferred has none. -/
def automaton (base : Bool) : ReadState → Dafsa
  | owned s => if base then s.base else s.view
  | deferred _ _ => .create
  | view d b => if base then (b.getD d).shown else d.shown

end ReadState

/-- A relation with its read state. -/
structure LazyRelation where
  /-- The number of columns. -/
  arity : ℕ
  /-- How the automata are held. -/
  state : ReadState
  /-- Facts added since the last flush. -/
  ov : TupleSet
  /-- The write-ahead log holds records. -/
  wal : Bool
  /-- `rel_create` and the `rel_open` family refuse an arity of zero. -/
  arity_pos : 0 < arity
  /-- Only a relation in memory has unflushed facts. -/
  clean : state.isOwned = false → ov.rows = []

/-- `rel_create`: an empty relation. -/
def relCreate (arity : ℕ) (h : 0 < arity) : LazyRelation :=
  ⟨arity, .owned (.aliased .create), .init arity, false, h, fun _ => rfl⟩

/-- `rel_open`, and `rel_open_writable` and its kin on a log without records: the
files are not read. -/
def relOpen (arity : ℕ) (h : 0 < arity) (d : DafsaFile) (base : Option DafsaFile) :
    LazyRelation :=
  ⟨arity, .deferred d base, .init arity, false, h, fun _ => rfl⟩

namespace LazyRelation

/-! ## The gates -/

/-- The relation with these automata, in memory. -/
def own (r : LazyRelation) (s : Store) : LazyRelation :=
  { r with state := .owned s, clean := fun h => by simp at h }

@[simp] theorem state_own (r : LazyRelation) (s : Store) : (r.own s).state = .owned s := rfl

/-- `relEnsureOwned`: parse the files unless that is done. -/
def relEnsureOwned (r : LazyRelation) : LazyRelation := r.own r.state.promote

@[simp] theorem state_relEnsureOwned (r : LazyRelation) :
    r.relEnsureOwned.state = .owned r.state.promote := rfl

/-- `viewOverlayClean`: no unflushed facts. -/
def viewOverlayClean (r : LazyRelation) : Bool := r.ov.rows.isEmpty

/-- `relEnsureReadable`: map the files of a deferred relation, or parse them where
a mapping would miss facts or fails. -/
def relEnsureReadable (r : LazyRelation) : LazyRelation :=
  match h : r.state with
  | .owned _ => r
  | .view _ _ => r
  | .deferred d base =>
    if r.wal then r.relEnsureOwned
    else if !r.viewOverlayClean then r.relEnsureOwned
    else
      match ReadState.open? d base with
      | some st => { r with state := st, clean := fun _ => r.clean (by rw [h]; rfl) }
      | none => r.relEnsureOwned

/-- `rel_overlay_flush`: fold the overlay into the view, and into the base when
they are split, and drop it. -/
def relOverlayFlush (r : LazyRelation) : LazyRelation :=
  if r.ov.rows.isEmpty then { r with ov := r.ov.reset, clean := fun _ => rfl }
  else { r.own (r.ov.rows.foldl Relation.foldRow r.state.promote) with
    ov := r.ov.reset, clean := fun _ => rfl }

/-- `ovConsolidateForRead`: a read that walks the automaton flushes first. -/
def ovConsolidateForRead (r : LazyRelation) : LazyRelation :=
  if r.ov.rows.isEmpty then r else r.relOverlayFlush

/-- Readable, and flushed unless it is read through views. -/
def ready (r : LazyRelation) : LazyRelation :=
  if r.relEnsureReadable.state.isView then r.relEnsureReadable
  else r.relEnsureReadable.ovConsolidateForRead

/-- The automaton of the view. -/
def d (r : LazyRelation) : Dafsa := r.state.automaton false

/-- The automaton of the base. -/
def base (r : LazyRelation) : Dafsa := r.state.automaton true

/-! ## Reads -/

/-- `rel_exact`. -/
def relExact (r : LazyRelation) (cols : Row) : Bool × LazyRelation :=
  let r := r.relEnsureReadable
  (r.d.lookup cols || r.ov.contains cols, r)

/-- `rel_exact_base`. -/
def relExactBase (r : LazyRelation) (cols : Row) : Bool × LazyRelation :=
  let r := r.relEnsureReadable
  (r.base.lookup cols, r)

/-- `rel_prefix`, with a callback that does not stop it: the rows of the automaton,
then those of what is left of the overlay. -/
def relPrefix (r : LazyRelation) (p : Row) : Option (List Row) × LazyRelation :=
  let r := r.ready
  ((relPrefixD r.arity r.d p).map (· ++ r.ov.rows.filter fun x => p.isPrefixOf x), r)

/-- `rel_prefix_base`. -/
def relPrefixBase (r : LazyRelation) (p : Row) : Option (List Row) × LazyRelation :=
  let r := r.relEnsureReadable
  (relPrefixD r.arity r.base p, r)

/-- `rel_count_subtree`: the keys of the automaton and the facts of the overlay. -/
def relCountSubtree (r : LazyRelation) : ℕ × LazyRelation :=
  let r := r.relEnsureReadable
  (r.d.keys.length + r.ov.rows.length, r)

/-- `rel_rank`. -/
def relRank (r : LazyRelation) (cols : Row) : ℕ × LazyRelation :=
  let r := r.ready
  (r.d.rank cols, r)

/-- `rel_select`. -/
def relSelect (r : LazyRelation) (k : ℕ) : Option Row × LazyRelation :=
  let r := r.ready
  (r.d.select k, r)

/-- `rel_range_count`. -/
def relRangeCount (r : LazyRelation) (lo hi : Row) : ℕ × LazyRelation :=
  let r := r.ready
  (r.d.rangeCount lo hi, r)

/-- `rel_dafsa`: the automaton itself, which a mapping cannot give. -/
def relDafsa (r : LazyRelation) : Dafsa × LazyRelation :=
  let r := r.relEnsureOwned.ovConsolidateForRead
  (r.d, r)

/-- `rel_prefix_state`. -/
def relPrefixState (r : LazyRelation) (p : Row) : Option (List Row) × LazyRelation :=
  if r.arity = 0 then (none, r)
  else
    let r := r.relEnsureOwned.ovConsolidateForRead
    (r.d.walk p, r)

/-- What the `_bound` reads share: refuse too many leading columns, walk to their
state, and answer there. -/
def relBound {α : Type} (r : LazyRelation) (p : Row) (refused absent : α)
    (answer : List Row → α) : α × LazyRelation :=
  let r := r.relEnsureOwned
  if r.arity < p.length then (refused, r)
  else
    let s := r.relPrefixState p
    (s.1.elim absent answer, s.2)

/-- `rel_rank_bound`. -/
def relRankBound (r : LazyRelation) (p cols : Row) : Option ℕ × LazyRelation :=
  r.relBound p none (some 0) fun rest =>
    some (OrderStat.rank RowBefore rest (cols.drop p.length))

/-- `rel_select_bound`. -/
def relSelectBound (r : LazyRelation) (p : Row) (idx : ℕ) : Option Row × LazyRelation :=
  r.relBound p none none fun rest => rest[idx]?.map (p ++ ·)

/-- `rel_range_count_bound`. -/
def relRangeCountBound (r : LazyRelation) (p lo hi : Row) : Option ℕ × LazyRelation :=
  r.relBound p none (some 0) fun rest =>
    some (OrderStat.rangeCount RowBefore rest (lo.drop p.length) (hi.drop p.length))

/-! ## Writes -/

/-- `rel_add`, with its answer: was the row new? -/
def relAdd (r : LazyRelation) (cols : Row) : Bool × LazyRelation :=
  let s := r.state.promote
  (!s.view.lookup cols, r.own (s.add cols))

/-- `rel_add_base`. -/
def relAddBase (r : LazyRelation) (cols : Row) : Bool × LazyRelation :=
  let s := r.state.promote
  (!s.base.lookup cols, r.own (s.addBase cols))

/-- `rel_delete`. -/
def relDelete (r : LazyRelation) (cols : Row) : Bool × LazyRelation :=
  let s := r.state.promote
  (s.view.lookup cols, r.own (s.delete cols))

/-- `rel_delete_base`. -/
def relDeleteBase (r : LazyRelation) (cols : Row) : Bool × LazyRelation :=
  let s := r.state.promote
  (s.base.lookup cols, r.own (s.deleteBase cols))

/-- `rel_overlay_add`: a row the view has is left alone. -/
def relOverlayAdd (r : LazyRelation) (cols : Row) : Bool × LazyRelation :=
  let r' := r.relEnsureOwned
  if r'.d.lookup cols then (false, r')
  else (!r'.ov.contains cols,
    { r' with ov := r'.ov.add cols, clean := fun h => by simp [r'] at h })

/-- `tsSorted`: no row is below the one before it. -/
def tsSorted : List Row → Bool
  | a :: b :: rows => !rowLt b a && tsSorted (b :: rows)
  | _ => true

/-- `rel_add_tupleset`: the rows of a batch into the view, in key order; an empty
view is built in one go. -/
def relAddTupleset (r : LazyRelation) (ts : TupleSet) : Bool × LazyRelation :=
  if ts.arity ≠ r.arity then (false, r)
  else if ts.rows.isEmpty then (true, r)
  else
    let s := r.state.promote
    let src := if tsSorted ts.rows then ts else ts.sort
    if r.viewOverlayClean ∧ relPrefixD r.arity s.view [] = some [] then
      (true, r.own (s.buildView src.rows))
    else (true, r.own (s.addRows src.rows))

/-- `rel_build_from_tupleset`: the rows of a sorted batch for those of the view. -/
def relBuildFromTupleset (r : LazyRelation) (ts : TupleSet) : Bool × LazyRelation :=
  if ts.arity ≠ r.arity then (false, r)
  else (true, r.own (r.state.promote.buildView ts.rows))

/-- `rel_build_base_from_tupleset`: the rows of a sorted batch for those of the
base. -/
def relBuildBaseFromTupleset (r : LazyRelation) (ts : TupleSet) : Bool × LazyRelation :=
  if ts.arity ≠ r.arity then (false, r)
  else (true, r.own (r.state.promote.buildBase ts.rows))

/-- `rel_reset_view`. -/
def relResetView (r : LazyRelation) : LazyRelation := r.own r.state.promote.resetView

end LazyRelation

/-! ## One call -/

/-- A read. -/
inductive RelQuery
  | exact (cols : Row)
  | exactBase (cols : Row)
  | scan (p : Row)
  | scanBase (p : Row)
  | countSubtree
  | rank (cols : Row)
  | select (k : ℕ)
  | rangeCount (lo hi : Row)
  | rankBound (p cols : Row)
  | selectBound (p : Row) (idx : ℕ)
  | rangeCountBound (p lo hi : Row)
  | dafsa

/-- What a read answers; `none` stands for its error value. -/
inductive RelAnswer
  | flag (b : Bool)
  | number (n : Option ℕ)
  | row (r : Option Row)
  | rows (l : Option (List Row))
  | keys (d : Dafsa)

/-- Ask a relation, which may promote or flush it. -/
def LazyRelation.ask (r : LazyRelation) : RelQuery → RelAnswer × LazyRelation
  | .exact cols => (r.relExact cols).map .flag id
  | .exactBase cols => (r.relExactBase cols).map .flag id
  | .scan p => (r.relPrefix p).map .rows id
  | .scanBase p => (r.relPrefixBase p).map .rows id
  | .countSubtree => r.relCountSubtree.map (.number ∘ some) id
  | .rank cols => (r.relRank cols).map (.number ∘ some) id
  | .select k => (r.relSelect k).map .row id
  | .rangeCount lo hi => (r.relRangeCount lo hi).map (.number ∘ some) id
  | .rankBound p cols => (r.relRankBound p cols).map .number id
  | .selectBound p idx => (r.relSelectBound p idx).map .row id
  | .rangeCountBound p lo hi => (r.relRangeCountBound p lo hi).map .number id
  | .dafsa => r.relDafsa.map .keys id

/-- A call: a write or a read. The bulk builds take a sorted batch. -/
inductive RelOp
  | add (cols : Row)
  | addBase (cols : Row)
  | overlayAdd (cols : Row)
  | overlayFlush
  | addTupleset (ts : TupleSet)
  | buildFromTupleset (ts : {ts : TupleSet // ts.Sorted})
  | buildBaseFromTupleset (ts : {ts : TupleSet // ts.Sorted})
  | resetView
  | delete (cols : Row)
  | deleteBase (cols : Row)
  | read (q : RelQuery)

/-- The relation after a call. -/
def RelOp.apply (r : LazyRelation) : RelOp → LazyRelation
  | .add cols => (r.relAdd cols).2
  | .addBase cols => (r.relAddBase cols).2
  | .overlayAdd cols => (r.relOverlayAdd cols).2
  | .overlayFlush => r.relOverlayFlush
  | .addTupleset ts => (r.relAddTupleset ts).2
  | .buildFromTupleset ts => (r.relBuildFromTupleset ts).2
  | .buildBaseFromTupleset ts => (r.relBuildBaseFromTupleset ts).2
  | .resetView => r.relResetView
  | .delete cols => (r.relDelete cols).2
  | .deleteBase cols => (r.relDeleteBase cols).2
  | .read q => (r.ask q).2

end DatalogDafsa
