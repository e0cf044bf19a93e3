import DatalogDafsa.Intern.Table
import DatalogDafsa.Relation
import DatalogDafsa.TupleTable

/-!
# Loading facts from a file

`dl_load_facts` reads the rows of a file into the base of a relation of fixed arity.  A row
is split into at most as many fields as the relation has columns; an integer field gives its
value, any other field is interned, and the kind of each cell is recorded at once.  A load
that is refused takes the kinds back.

The rows of the base are put into a tuple set, those of the file are added to it, and the base
is built anew from it.  A tuple set refuses a new row when it has `maxRows`; where it refuses a
row of the base, the rows behind that one are left out.

The relation is one of several of an open database: the check of the rules over the new
kinds, and whether the symbols and terms can be saved, are parameters.  Columns that a row
left unset hold what was in memory before.  Allocation does not fail; a table of symbols that
is full ends the load without a result.

## Main definitions

* `csvSplit`, `isInteger`, `strtoul` — the fields of a row.
* `kindNoteDefinite`, `loadCells`, `tsAdd`, `loadRow` — a row.
* `sinkRows` — the rows of the base.
* `dlLoadFacts` — a file.
* `csvSplit_take` — what the limit on the fields cuts off.
-/

namespace DatalogDafsa.Csv

open Intern
open TupleTable (maxRows)

/-! ## Fields -/

/-- A blank or a tab. -/
def isBlank (b : UInt8) : Bool := b = 32 || b = 9

/-- The double quote. -/
def quote : UInt8 := 34

/-- The comma. -/
def comma : UInt8 := 44

/-- Where a field without quotes ends. -/
def endsField (b : UInt8) : Bool := b = comma || b = newline || b = carriageReturn

/-- A comma is passed over. -/
def skipComma : List UInt8 → List UInt8
  | [] => []
  | b :: p => if b = comma then p else b :: p

/-- `csvSplit`. -/
def csvSplit : ℕ → List UInt8 → List Str
  | 0, _ => []
  | n + 1, p =>
    match p.dropWhile isBlank with
    | [] => []
    | b :: p =>
      if b = newline ∨ b = carriageReturn then []
      else if b = quote then
        p.takeWhile (· != quote) ::
          csvSplit n (skipComma (((p.dropWhile (· != quote)).drop 1).dropWhile isBlank))
      else
        (b :: p).takeWhile (!endsField ·) ::
          match (b :: p).dropWhile (!endsField ·) with
          | [] => []
          | c :: p => if c = comma then csvSplit n p else []

/-- A digit. -/
def isDigit (b : UInt8) : Bool := 48 ≤ b && b ≤ 57

/-- `isInteger`. -/
def isInteger (field : Str) : Bool := !field.isEmpty && field.all isDigit

/-- `strtoul`, which stays below `2^64`; that is more than a column holds. -/
def strtoul (field : Str) : ℕ := field.foldl (fun n b => n * 10 + (b.toNat - 48)) 0

/-- The greatest value of a column. -/
def colMax : ℕ := 0xFFFFFFFF

/-! ## Rows -/

/-- The kinds of a column. -/
inductive Kind
  /-- `KIND_INT`. -/
  | int
  /-- `KIND_SYM`. -/
  | sym
  deriving DecidableEq

/-- What a load changes while it reads. -/
structure LoadSt where
  /-- The symbols. -/
  ir : Interner
  /-- `col_kind`. -/
  kinds : ℕ → Option Kind
  /-- The columns whose kind this load recorded. -/
  newCols : ℕ → Bool
  /-- `meta_dirty`. -/
  metaDirty : Bool
  /-- The tuples of the base and of the rows so far. -/
  ts : TupleSet

/-- How a load ends early. -/
inductive Stop
  /-- It is refused. -/
  | refused (st : LoadSt)
  /-- There is no room for a symbol. -/
  | crashed

/-- `kindNoteDefinite`. -/
def kindNoteDefinite (st : LoadSt) (col : ℕ) (kind : Kind) : Except Stop LoadSt :=
  match st.kinds col with
  | some k => if k = kind then .ok st else .error (.refused st)
  | none =>
    .ok { st with
      kinds := Function.update st.kinds col (some kind)
      newCols := Function.update st.newCols col true
      metaDirty := true }

variable (enum : Enum)

/-- A cell; none when its integer is out of range. -/
def loadCell (st : LoadSt) (col : ℕ) (field : Str) : Except Stop (LoadSt × Option Val) :=
  if isInteger field then
    if colMax < strtoul field then .ok (st, none)
    else (kindNoteDefinite st col .int).map fun st => (st, some (UInt32.ofNat (strtoul field)))
  else
    match internStr enum st.ir field with
    | none => .error .crashed
    | some (ir, sym) =>
      if sym = 0 then .error (.refused { st with ir })
      else
        (kindNoteDefinite { st with ir } col .sym).map fun st => (st, some (UInt32.ofNat sym))

/-- The cells of a row; an integer out of range puts `0` into the first column and leaves
the columns from its own on as they are. -/
def loadCells (arity : ℕ) (unset : ℕ → Val) (st : LoadSt) (cols : Row) :
    List Str → Except Stop (LoadSt × Row)
  | [] => .ok (st, cols)
  | field :: fields =>
    match loadCell enum st cols.length field with
    | .error e => .error e
    | .ok (st, none) =>
      .ok (st, (cols ++ (List.range' cols.length (arity - cols.length)).map unset).set 0 0)
    | .ok (st, some v) => loadCells arity unset st (cols ++ [v]) fields

/-- `ts_add`; none for `-1`. -/
def tsAdd (ts : TupleSet) (r : Row) : Option TupleSet :=
  if r ∈ ts.rows then some ts
  else if ts.rows.length < maxRows then some (ts.add r)
  else none

/-- The bytes of a line up to the first zero byte. -/
def cstr (line : List UInt8) : List UInt8 := line.takeWhile (· != 0)

/-- A line of the file. -/
def loadRow (arity : ℕ) (unset : ℕ → Val) (st : LoadSt) (line : List UInt8) : Except Stop LoadSt :=
  if line = [] then .ok st
  else
    let fields := csvSplit arity (cstr line)
    if fields.length ≠ arity then .ok st
    else
      match loadCells enum arity unset st [] fields with
      | .error e => .error e
      | .ok (st, cols) =>
        match tsAdd st.ts cols with
        | none => .error (.refused st)
        | some ts => .ok { st with ts }

/-- The lines of the file, each with what is in memory when its columns are set. -/
def loadRows (arity : ℕ) : LoadSt → List ((ℕ → Val) × List UInt8) → Except Stop LoadSt
  | st, [] => .ok st
  | st, (unset, line) :: lines =>
    match loadRow enum arity unset st line with
    | .error e => .error e
    | .ok st => loadRows arity st lines

/-- The lines of a text. -/
def csvLines (text : List UInt8) : List (List UInt8) := (splitLines [] text).map stripCr

/-! ## Files -/

/-- What a load works on. -/
structure LoadDb where
  /-- The symbols. -/
  ir : Interner
  /-- The relation. -/
  rel : Relation
  /-- `col_kind`. -/
  kinds : ℕ → Option Kind
  /-- `meta_dirty`. -/
  metaDirty : Bool

/-- `ts_sink_cb` for each row, up to the first one that is refused. -/
def sinkRows (ts : TupleSet) : List Row → TupleSet
  | [] => ts
  | r :: rows =>
    match tsAdd ts r with
    | none => ts
    | some ts => sinkRows ts rows

/-- `loadKindRollback`. -/
def loadKindRollback (db : LoadDb) (st : LoadSt) : LoadDb :=
  { db with
    ir := st.ir
    kinds := fun col => if st.newCols col then none else st.kinds col
    metaDirty := db.metaDirty }

/-- `dl_load_facts`, with what it returns; none for `-1`. -/
def dlLoadFacts (arity : ℕ) (recheck : (ℕ → Option Kind) → Bool) (saved : Bool)
    (unset : ℕ → ℕ → Val) (db : LoadDb) (text : List UInt8) : Option (LoadDb × Option ℕ) :=
  let lines := (csvLines text).zipIdx.map fun p => (unset p.2, p.1)
  let ts := sinkRows (TupleSet.init arity) db.rel.store.base.keys
  match loadRows enum arity ⟨db.ir, db.kinds, fun _ => false, db.metaDirty, ts⟩ lines with
  | .error .crashed => none
  | .error (.refused st) => some (loadKindRollback db st, none)
  | .ok st =>
    if (List.range arity).any st.newCols = true ∧ recheck st.kinds = false then
      some (loadKindRollback db st, none)
    else
      let ts := st.ts.sort
      let db : LoadDb :=
        ⟨st.ir, { db.rel with store := db.rel.store.buildBase ts.rows, dirty := true }, st.kinds,
          st.metaDirty⟩
      some (db, if saved then some ts.rows.length else none)

/-! ## What the limit cuts off -/

/-- **The limit cuts fields off** and does nothing else. -/
theorem csvSplit_take {n m : ℕ} (hle : n ≤ m) (p : List UInt8) :
    csvSplit n p = (csvSplit m p).take n := by
  induction n generalizing m p with
  | zero => rw [List.take_zero, csvSplit]
  | succ n ih =>
    obtain ⟨m, rfl⟩ := Nat.exists_eq_add_of_le' hle
    have hle' : n ≤ m + n := Nat.le_add_left n m
    rw [← Nat.add_assoc, csvSplit, csvSplit]
    cases p.dropWhile isBlank with
    | nil => rfl
    | cons b p =>
      dsimp only
      split_ifs with hend hquote
      · rfl
      · rw [List.take_succ_cons, ih hle']
      · rw [List.take_succ_cons]
        congr 1
        cases (b :: p).dropWhile (!endsField ·) with
        | nil => rw [List.take_nil]
        | cons c p =>
          dsimp only
          split_ifs with hcomma
          · exact ih hle' p
          · rw [List.take_nil]

theorem length_dropWhile_le (q : UInt8 → Bool) (p : List UInt8) :
    (p.dropWhile q).length ≤ p.length :=
  (List.dropWhile_sublist q).length_le

/-- A row has no more fields than bytes. -/
theorem length_csvSplit_le (n : ℕ) (p : List UInt8) : (csvSplit n p).length ≤ p.length := by
  induction n generalizing p with
  | zero => exact Nat.zero_le _
  | succ n ih =>
    rw [csvSplit]
    have hp := length_dropWhile_le isBlank p
    cases hq : p.dropWhile isBlank with
    | nil => exact Nat.zero_le _
    | cons b q =>
      rw [hq, List.length_cons] at hp
      dsimp only
      split_ifs with hend hquote
      · exact Nat.zero_le _
      · rw [List.length_cons]
        have h₁ := ih (skipComma (((q.dropWhile (· != quote)).drop 1).dropWhile isBlank))
        have h₂ : (skipComma (((q.dropWhile (· != quote)).drop 1).dropWhile isBlank)).length ≤
            q.length := by
          have hskip : ∀ l : List UInt8, (skipComma l).length ≤ l.length := by
            intro l
            cases l with
            | nil => exact le_rfl
            | cons c l =>
              rw [skipComma]
              split_ifs
              · exact Nat.le_succ _
              · exact le_rfl
          refine (hskip _).trans ((length_dropWhile_le _ _).trans ?_)
          rw [List.length_drop]
          exact (Nat.sub_le _ _).trans (length_dropWhile_le _ _)
        omega
      · rw [List.length_cons]
        -- the first byte of the field, or the comma, is gone
        cases hrest : (b :: q).dropWhile (!endsField ·) with
        | nil => simp; omega
        | cons c r =>
          have hlen := length_dropWhile_le (!endsField ·) (b :: q)
          rw [hrest, List.length_cons, List.length_cons] at hlen
          dsimp only
          split_ifs with hcomma
          · have := ih r
            omega
          · simp; omega

end DatalogDafsa.Csv
