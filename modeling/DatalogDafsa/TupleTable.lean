import DatalogDafsa.Lib.Heapsort
import DatalogDafsa.Term.Store
import DatalogDafsa.TupleSet

/-!
# The hash table of a tuple set

A tuple set keeps its rows in one array, in the order they came, and finds them by an
open-addressing table of row numbers, counted from one.  The table is a power of two
slots and grows when more than three quarters are in use; it is refused beyond `2^30`
slots.  Sorting moves the rows, so it builds the table anew.

A search that meets no empty slot does not end; such calls have no result here.  Memory
is never short.

## Main definitions

* `Table` — rows, and the table of their numbers.
* `tsHashFind`, `tsHashGrow`, `tsHashInsert`, `tsIndex` — the table.
* `tsInit`, `tsContains`, `tsAdd`, `tsSort`, `tsReset`, `tsPrefixAt` — the calls.
* `Op`, `step`, `run` — a sequence of calls.
* `since` — the rows that were added.
-/

namespace DatalogDafsa.TupleTable

/-- `tuple_set`. -/
structure Table where
  /-- The data array; the first `count` rows are in use. -/
  data : ℕ → Row
  /-- Number of rows. -/
  count : ℕ
  /-- Room for rows. -/
  cap : ℕ
  /-- Columns of a row. -/
  arity : ℕ
  /-- The table: a row number, or zero. -/
  htab : ℕ → ℕ
  /-- Slots; zero when there is no table. -/
  hcap : ℕ
  /-- Slots in use. -/
  hused : ℕ

/-- The first `n` columns at a pointer. -/
def rowAt (n : ℕ) (cols : ℕ → Val) : Row := (List.range n).map cols

/-- The rows in use. -/
def Table.rows (t : Table) : List Row := (List.range t.count).map t.data

/-- `ts_hash_cols`. -/
def tsHashCols (r : Row) : UInt64 :=
  r.foldl
    (fun h x => fnvByte (fnvByte (fnvByte (fnvByte h x) (x >>> 8)) (x >>> 16)) (x >>> 24))
    14695981039346656037

/-- The slot a row is looked for first. -/
def home (hcap : ℕ) (r : Row) : ℕ := (tsHashCols r).toNat &&& (hcap - 1)

/-! ## The table -/

/-- The loop of `ts_hash_find`. -/
def findFrom (t : Table) (r : Row) : ℕ → ℕ → Option ℕ
  | 0, _ => none
  | fuel + 1, idx =>
    if t.htab idx = 0 then some 0
    else if r = t.data (t.htab idx - 1) then some (t.htab idx)
    else findFrom t r fuel ((idx + 1) &&& (t.hcap - 1))

/-- `ts_hash_find`: the number of a row, or zero. -/
def tsHashFind (t : Table) (r : Row) : Option ℕ :=
  if t.hcap = 0 then some 0 else findFrom t r t.hcap (home t.hcap r)

/-- The loop that looks for an empty slot. -/
def freeFrom (htab : ℕ → ℕ) (hcap : ℕ) : ℕ → ℕ → Option ℕ
  | 0, _ => none
  | fuel + 1, idx =>
    if htab idx = 0 then some idx else freeFrom htab hcap fuel ((idx + 1) &&& (hcap - 1))

/-- `ts_hash_insert`. -/
def tsHashInsert (t : Table) (r : Row) (idx1 : ℕ) : Option Table :=
  (freeFrom t.htab t.hcap t.hcap (home t.hcap r)).map fun i =>
    { t with htab := Function.update t.htab i idx1 }

/-- Doublings from `c` up to `need`, at most so many. -/
def growCap : ℕ → ℕ → ℕ → ℕ
  | 0, c, _ => c
  | fuel + 1, c, need => if c < need then growCap fuel (2 * c % 2 ^ 64) need else c

/-- Copy the row number of slot `i`. -/
def rehashSlot (t : Table) (newCap : ℕ) (new : ℕ → ℕ) (i : ℕ) : Option (ℕ → ℕ) :=
  if t.htab i = 0 then some new
  else
    (freeFrom new newCap newCap (home newCap (t.data (t.htab i - 1)))).map fun idx =>
      Function.update new idx (t.htab i)

/-- `ts_hash_grow`: minus one when the table were too large. -/
def tsHashGrow (t : Table) (need : ℕ) : Option (ℤ × Table) :=
  let newCap := growCap 64 16 need
  if 2 ^ 30 < newCap then some (-1, t)
  else
    ((List.range t.hcap).foldlM (rehashSlot t newCap) fun _ => 0).map fun new =>
      (0, { t with htab := new, hcap := newCap })

/-- The significand of the double `0.70`, which is this many parts of `2^53`. -/
def seventyPercent : ℕ := 6305039478318694

/-- A count divided by `0.70` as doubles, and cut to an integer: the quotient has 53 bits,
is rounded to the nearest, ties to even. -/
def overSeventy (n : ℕ) : ℕ :=
  let s := 52 - Nat.log2 (n * 2 ^ 53 / seventyPercent)
  let q := n * 2 ^ 53 * 2 ^ s / seventyPercent
  let r := n * 2 ^ 53 * 2 ^ s % seventyPercent
  (if 2 * r < seventyPercent ∨ (2 * r = seventyPercent ∧ q % 2 = 0) then q else q + 1) / 2 ^ s

/-- Enter row `n - 1` into the table under its number `n`, growing the table when it gets
too full. -/
def tsIndex (t : Table) (n : ℕ) : Option (ℤ × Table) :=
  let need := if overSeventy n < 16 then 16 else overSeventy n
  let grown := if t.hcap = 0 ∨ t.hcap - t.hcap / 4 < n then tsHashGrow t need else some (0, t)
  grown.bind fun g =>
    if g.1 ≠ 0 then some (-1, g.2)
    else (tsHashInsert g.2 (g.2.data (n - 1)) n).map fun t' => (0, { t' with hused := t'.hused + 1 })

/-! ## The calls -/

/-- A set of zeroes, of an arity. -/
def tsZero (arity : ℕ) : Table := ⟨fun _ => [], 0, 0, arity, fun _ => 0, 0, 0⟩

/-- `ts_init`. -/
def tsInit (t : Table) (arity : ℕ) : ℤ × Table :=
  if arity = 0 ∨ 8 < arity then (-1, t) else (0, tsZero arity)

/-- `ts_contains`. -/
def tsContains (t : Table) (cols : ℕ → Val) : Option ℤ :=
  if t.count = 0 then some 0
  else (tsHashFind t (rowAt t.arity cols)).map fun i => if i ≠ 0 then 1 else 0

/-- The array with one more row. -/
def appendRow (t : Table) (r : Row) : Table :=
  { t with
    cap := if t.cap ≤ t.count then (if t.cap ≠ 0 then 2 * t.cap else 1024) else t.cap
    data := Function.update t.data t.count r
    count := t.count + 1 }

/-- `ts_add`: one for a new row, zero for a row that is there, minus one for an error. -/
def tsAdd (t : Table) (cols : ℕ → Val) : Option (ℤ × Table) :=
  (tsHashFind t (rowAt t.arity cols)).bind fun found =>
    if found ≠ 0 then some (0, t)
    else
      (tsIndex (appendRow t (rowAt t.arity cols)) (t.count + 1)).map fun g =>
        if g.1 ≠ 0 then (-1, { g.2 with count := g.2.count - 1 }) else (1, g.2)

/-- Compact one row: `w` rows are kept so far. -/
def dedupRow (st : (ℕ → Row) × ℕ) (j : ℕ) : (ℕ → Row) × ℕ :=
  if st.1 (st.2 - 1) = st.1 (j + 1) then st
  else (if st.2 ≠ j + 1 then Function.update st.1 st.2 (st.1 (j + 1)) else st.1, st.2 + 1)

/-- Compact sorted rows. -/
def dedup (data : ℕ → Row) (count : ℕ) : (ℕ → Row) × ℕ :=
  (List.range (count - 1)).foldl dedupRow (data, 1)

/-- Enter row after row into the table; stop at an error. -/
def reindex : ℕ → ℕ → Table → Option Table
  | 0, _, t => some t
  | fuel + 1, i, t =>
    (tsIndex t (i + 1)).bind fun g => if g.1 ≠ 0 then some g.2 else reindex fuel (i + 1) g.2

/-- `ts_sort`. -/
def tsSort (t : Table) : Option Table :=
  if t.count ≤ 1 ∨ t.arity = 0 then some t
  else
    let sorted := Heapsort.heapsort rowLt t.count t.data
    let kept := dedup sorted t.count
    reindex kept.2 0
      { t with
        data := kept.1
        count := kept.2
        htab := fun _ => 0
        hused := if t.hcap = 0 then t.hused else 0 }

/-- `ts_reset`. -/
def tsReset (t : Table) : Table :=
  { t with
    count := 0
    htab := fun _ => 0
    hused := if t.hcap = 0 then t.hused else 0 }

/-- `ts_prefix` with the number of matches and the index of the first one. -/
def tsPrefixAt (t : Table) (p : ℕ → Val) (k : ℕ) : ℕ × ℕ :=
  if t.count = 0 ∨ t.arity < k then (0, 0)
  else
    let lo := lowerBound t.rows (rowAt k p) t.count 0 t.count
    if t.count ≤ lo then (0, 0)
    else if cmpCols (t.data lo) (rowAt k p) ≠ .eq then (0, 0)
    else
      let first := walkBack t.rows (rowAt k p) lo
      let last := lo + ((t.rows.drop lo).takeWhile fun r => cmpCols r (rowAt k p) = .eq).length
      (last - first, first)

/-! ## Sequences of calls -/

/-- A call that changes the set. -/
inductive Op
  /-- `ts_init`. -/
  | init (arity : ℕ)
  /-- `ts_add`. -/
  | add (cols : ℕ → Val)
  /-- `ts_sort`. -/
  | sort
  /-- `ts_reset`. -/
  | reset

/-- One call. -/
def step (t : Table) : Op → Option Table
  | .init arity => some (tsInit t arity).2
  | .add cols => (tsAdd t cols).map Prod.snd
  | .sort => tsSort t
  | .reset => some (tsReset t)

/-- A sequence of calls. -/
def run (t : Table) (ops : List Op) : Option Table := ops.foldlM step t

/-- The largest number of rows: three quarters of the largest table. -/
def maxRows : ℕ := 3 * 2 ^ 28

/-- The arity, and the rows that were added since the set was last emptied: a set takes a
new row while it holds fewer than `maxRows`. -/
def since (st : ℕ × Finset Row) : Op → ℕ × Finset Row
  | .init arity => if arity = 0 ∨ 8 < arity then st else (arity, ∅)
  | .add cols =>
    if st.2.card < maxRows then (st.1, insert (rowAt st.1 cols) st.2) else st
  | .sort => st
  | .reset => (st.1, ∅)

end DatalogDafsa.TupleTable
