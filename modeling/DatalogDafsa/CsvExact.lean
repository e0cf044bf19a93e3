import DatalogDafsa.Csv

/-!
# What a load does

A row that splits into as many fields as the relation has columns, none of them an integer
out of range, adds its tuple and the kinds of its cells.  A row with fewer fields adds
nothing.  A row with more is cut off and added, and a row with an integer out of range is
added with what is in memory, where both were to be skipped.  A load that is not refused is
right where these rows add no tuple and no kind that the other rows do not add.

## Main definitions

* `RowOf`, `goodRows` — the rows of a text that have a tuple.
* `LoadExact` — what is asked of a load.
* `readings`, `tupleOf` — the rows that are read, and what they add.
* `Accepted` — where a load is not refused.
* `Loaded`, `loadRows_spec` — what reading some lines does.
* `loadExact_iff` — where a load does what is asked.
-/

namespace DatalogDafsa.Csv

open Intern
open TupleTable (maxRows)

/-! ## Rows and their tuples -/

/-- The fields of a line, as many as there are. -/
def fieldsOf (line : List UInt8) : List Str := csvSplit (cstr line).length (cstr line)

/-- An integer is in range, as is any other field. -/
def inRange (field : Str) : Bool := !isInteger field || strtoul field ≤ colMax

/-- The rows of a text that have a tuple: as many fields as there are columns, and every
integer in range. -/
def goodRows (arity : ℕ) (text : List UInt8) : List (List Str) :=
  ((csvLines text).map fieldsOf).filter fun fields => fields.length = arity ∧ fields.all inRange

variable (enum : Enum)

/-- The value of a cell: an integer by value, any other field by the number of its name. -/
def CellOf (ir : Interner) (field : Str) (v : Val) : Prop :=
  if isInteger field = true then v.toNat = strtoul field
  else lookup enum ir field = v.toNat ∧ internStrOf ir v.toNat = some field

/-- The tuple of a row. -/
def RowOf (ir : Interner) (fields : List Str) (row : Row) : Prop :=
  List.Forall₂ (CellOf enum ir) fields row

/-- The kind of a cell. -/
def kindOf (field : Str) : Kind := if isInteger field then .int else .sym

/-- Kinds are recorded where there is none yet, from a column on. -/
def recordFrom (n : ℕ) (kinds : ℕ → Option Kind) (fields : List Str) : ℕ → Option Kind :=
  fun col => (kinds col).or (if n ≤ col then fields[col - n]?.map kindOf else none)

/-- The kinds after a row. -/
def recordKinds (kinds : ℕ → Option Kind) (fields : List Str) : ℕ → Option Kind :=
  recordFrom 0 kinds fields

/-- What is asked of the result of a load.  Where it is a count, the base has one more tuple
for each row of the text that has one, and the kinds are those of the cells of these rows;
where it is `-1` nothing changed. -/
def ResultExact (arity : ℕ) (db : LoadDb) (text : List UInt8) (db' : LoadDb) : Option ℕ → Prop
  | some _ =>
    (∃ rows, List.Forall₂ (RowOf enum db'.ir) (goodRows arity text) rows ∧
      ∀ x, x ∈ db'.rel.store.base ↔ x ∈ db.rel.store.base ∨ x ∈ rows) ∧
    db'.kinds = (goodRows arity text).foldl recordKinds db.kinds
  | none =>
    db'.rel.store.base = db.rel.store.base ∧ db'.kinds = db.kinds ∧ db'.metaDirty = db.metaDirty

/-- What is asked of a load. -/
def LoadExact (arity : ℕ) (recheck : (ℕ → Option Kind) → Bool) (saved : Bool)
    (unset : ℕ → ℕ → Val) (db : LoadDb) (text : List UInt8) : Prop :=
  ∀ db' code, dlLoadFacts enum arity recheck saved unset db text = some (db', code) →
    ResultExact enum arity db text db' code

/-! ## Rows that are read -/

/-- A line is read when it has enough fields. -/
def Taken (arity : ℕ) (line : List UInt8) : Bool := arity ≤ (fieldsOf line).length

/-- The fields of a line that are looked at: as many as there are columns, up to an integer
out of range. -/
def readOf (arity : ℕ) (line : List UInt8) : List Str :=
  ((fieldsOf line).take arity).takeWhile inRange

/-- The lines that are read, each with what is in memory. -/
def readingOf (arity : ℕ) (l : (ℕ → Val) × List UInt8) : List ((ℕ → Val) × List Str) :=
  if Taken arity l.2 then [(l.1, readOf arity l.2)] else []

/-- The lines of a text with what is in memory at each. -/
def memLines (unset : ℕ → ℕ → Val) (text : List UInt8) : List ((ℕ → Val) × List UInt8) :=
  (csvLines text).zipIdx.map fun p => (unset p.2, p.1)

/-- The rows of a text that are read. -/
def readings (arity : ℕ) (unset : ℕ → ℕ → Val) (text : List UInt8) :
    List ((ℕ → Val) × List Str) :=
  (memLines unset text).flatMap (readingOf arity)

/-- The fields of the rows of a text that are looked at. -/
def reads (arity : ℕ) (text : List UInt8) : List (List Str) :=
  ((csvLines text).filter (Taken arity)).map (readOf arity)

/-- The names in some rows. -/
def namesOf (rows : List (List Str)) : List Str := rows.flatten.filter (!isInteger ·)

/-- A table after some names were numbered. -/
def namesAfter (table names : List Str) : List Str := names.foldl addName table

/-- The table after a load. -/
def tableAfter (arity : ℕ) (db : LoadDb) (text : List UInt8) : List Str :=
  namesAfter db.ir.rev (namesOf (reads arity text))

/-- The value of a cell under a table of names. -/
def cellValue (table : List Str) (field : Str) : Val :=
  UInt32.ofNat (if isInteger field then strtoul field else number table field)

/-- What a row that is read adds. -/
def tupleOf (table : List Str) (arity : ℕ) (l : (ℕ → Val) × List Str) : Row :=
  if l.2.length = arity then l.2.map (cellValue table)
  else
    (l.2.map (cellValue table) ++
      (List.range' l.2.length (arity - l.2.length)).map l.1).set 0 0

/-- The tuples of the rows that are read. -/
def tuples (arity : ℕ) (unset : ℕ → ℕ → Val) (db : LoadDb) (text : List UInt8) : List Row :=
  (readings arity unset text).map (tupleOf (tableAfter arity db text) arity)

/-- The tuples of the rows that have one. -/
def goodTuples (arity : ℕ) (db : LoadDb) (text : List UInt8) : List Row :=
  (goodRows arity text).map (List.map (cellValue (tableAfter arity db text)))

/-- The rows of the base that a tuple set has room for. -/
def heldRows (db : LoadDb) : List Row := db.rel.store.base.keys.take maxRows

/-- Every column that some rows have a cell for has a kind. -/
def Recorded (kinds : ℕ → Option Kind) (rows : List (List Str)) : Prop :=
  ∀ fields ∈ rows, ∀ c < fields.length, kinds c ≠ none

/-- Nothing refuses a load. -/
structure Accepted (arity : ℕ) (recheck : (ℕ → Option Kind) → Bool) (unset : ℕ → ℕ → Val)
    (db : LoadDb) (text : List UInt8) : Prop where
  /-- No column has two kinds. -/
  oneKind : ∃ K : ℕ → Kind, (∀ c k, db.kinds c = some k → k = K c) ∧
    ∀ fields ∈ reads arity text, ∀ c f, fields[c]? = some f → kindOf f = K c
  /-- No name is too long. -/
  short : ∀ name ∈ namesOf (reads arity text), ¬ TooLong name
  /-- There is room for the names. -/
  names : (tableAfter arity db text).length ≤ maxStrings
  /-- There is room for the tuples. -/
  room : (heldRows db ++ tuples arity unset db text).toFinset.card ≤ maxRows
  /-- The rules may have the new kinds. -/
  passes : ¬ Recorded db.kinds (reads arity text) →
    recheck ((reads arity text).foldl recordKinds db.kinds) = true

/-! ## Fields -/

/-- There are no more fields than bytes. -/
theorem csvSplit_eq_take (n : ℕ) (p : List UInt8) :
    csvSplit n p = (csvSplit p.length p).take n := by
  rcases Nat.le_total n p.length with hle | hle
  · exact csvSplit_take hle p
  · have hall := csvSplit_take hle p
    have hlen := length_csvSplit_le n p
    rw [List.take_of_length_le hlen] at hall
    rw [hall, List.take_of_length_le (hlen.trans hle)]

/-- A row is read when it has enough fields, and then as many as there are columns. -/
theorem csvSplit_line (arity : ℕ) (line : List UInt8) :
    csvSplit arity (cstr line) = (fieldsOf line).take arity := csvSplit_eq_take arity (cstr line)

theorem mem_skipComma {p : List UInt8} {b : UInt8} (h : b ∈ skipComma p) : b ∈ p := by
  cases p with
  | nil => exact h
  | cons c p =>
    rw [skipComma] at h
    split_ifs at h
    · exact List.mem_cons_of_mem _ h
    · exact h

/-- A field has only bytes of its line. -/
theorem mem_csvSplit {n : ℕ} {p : List UInt8} {field : Str} (h : field ∈ csvSplit n p)
    {b : UInt8} (hb : b ∈ field) : b ∈ p := by
  induction n generalizing p with
  | zero => cases h
  | succ n ih =>
    rw [csvSplit] at h
    have hp : ∀ {x : UInt8}, x ∈ p.dropWhile isBlank → x ∈ p :=
      fun hx => (List.dropWhile_sublist _).mem hx
    cases hq : p.dropWhile isBlank with
    | nil => rw [hq] at h; cases h
    | cons c q =>
      rw [hq] at h hp
      dsimp only at h
      split_ifs at h with hend hquote
      · cases h
      · rcases List.mem_cons.mp h with rfl | h
        · exact hp (List.mem_cons_of_mem _ ((List.takeWhile_sublist _).mem hb))
        · have hrest := (List.dropWhile_sublist _).mem (mem_skipComma (ih h))
          exact hp (List.mem_cons_of_mem _ ((List.dropWhile_sublist _).mem
            (List.mem_of_mem_drop hrest)))
      · rcases List.mem_cons.mp h with rfl | h
        · exact hp ((List.takeWhile_sublist _).mem hb)
        · cases hr : (c :: q).dropWhile (!endsField ·) with
          | nil => rw [hr] at h; cases h
          | cons e r =>
            rw [hr] at h
            dsimp only at h
            split_ifs at h
            · have hmem : b ∈ (c :: q).dropWhile (!endsField ·) := by
                rw [hr]
                exact List.mem_cons_of_mem _ (ih h)
              exact hp ((List.dropWhile_sublist _).mem hmem)
            · cases h

theorem zero_notMem_field {n : ℕ} {line : List UInt8} {field : Str}
    (h : field ∈ csvSplit n (cstr line)) : 0 ∉ field := by
  intro hzero
  have := List.mem_takeWhile_imp (mem_csvSplit h hzero)
  simp at this

/-! ## Names and kinds -/

variable {enum} {arity : ℕ} {kinds : ℕ → Option Kind} {metaDirty : Bool} {st st₁ st' : LoadSt}
  {table : List Str}

theorem mem_namesAfter {names : List Str} {t : Str} :
    t ∈ namesAfter table names ↔ t ∈ table ∨ t ∈ names := by
  unfold namesAfter
  induction names generalizing table with
  | nil => simp
  | cons n names ih => rw [List.foldl_cons, ih, mem_addName, List.mem_cons, or_assoc]

theorem namesAfter_append (names more : List Str) :
    namesAfter table (names ++ more) = namesAfter (namesAfter table names) more :=
  List.foldl_append

theorem prefix_addName (table : List Str) (n : Str) : table <+: addName table n := by
  unfold addName
  split
  · exact List.prefix_rfl
  · exact List.prefix_append ..

theorem prefix_namesAfter (table names : List Str) : table <+: namesAfter table names := by
  unfold namesAfter
  induction names generalizing table with
  | nil => exact List.prefix_rfl
  | cons n names ih => exact (prefix_addName table n).trans (ih _)

/-- A name keeps its number. -/
theorem number_extend {table' : List Str} (h : table <+: table') {t : Str} (ht : t ∈ table) :
    number table' t = number table t := by
  obtain ⟨more, rfl⟩ := h
  exact number_append_of_mem ht more

/-- A field is an integer, or in a table of names. -/
def Named (table : List Str) (field : Str) : Prop := isInteger field = true ∨ field ∈ table

theorem cellValue_extend {table' : List Str} (h : table <+: table') {field : Str}
    (hf : Named table field) : cellValue table' field = cellValue table field := by
  unfold cellValue
  split
  · rfl
  · rename_i hint
    rw [number_extend h (hf.resolve_left hint)]

theorem tupleOf_extend {table' : List Str} (h : table <+: table') {l : (ℕ → Val) × List Str}
    (hf : ∀ field ∈ l.2, Named table field) : tupleOf table' arity l = tupleOf table arity l := by
  unfold tupleOf
  rw [List.map_congr_left fun field hmem => cellValue_extend h (hf field hmem)]

theorem namesOf_append (rows more : List (List Str)) :
    namesOf (rows ++ more) = namesOf rows ++ namesOf more := by
  rw [namesOf, List.flatten_append, List.filter_append]
  rfl

/-- The fields of some rows are in the table after them. -/
theorem named_namesAfter {rows : List (List Str)} {fields : List Str} (h : fields ∈ rows)
    {field : Str} (hf : field ∈ fields) : Named (namesAfter table (namesOf rows)) field := by
  by_cases hint : isInteger field = true
  · exact .inl hint
  · refine .inr (mem_namesAfter.mpr (.inr ?_))
    rw [namesOf, List.mem_filter, List.mem_flatten]
    exact ⟨⟨fields, h, hf⟩, by simpa using hint⟩

/-- The kind of a column, and those of the columns behind it. -/
theorem recordFrom_cons (n : ℕ) (kinds : ℕ → Option Kind) (field : Str) (fields : List Str) :
    recordFrom (n + 1) (fun c => (kinds c).or (if c = n then some (kindOf field) else none)) fields =
      recordFrom n kinds (field :: fields) := by
  funext c
  unfold recordFrom
  dsimp only
  rcases lt_trichotomy c n with hlt | rfl | hgt
  · simp [Nat.not_le.mpr hlt, Nat.not_le.mpr (hlt.trans (Nat.lt_succ_self n)), hlt.ne]
  · simp
  · obtain ⟨k, rfl⟩ := Nat.exists_eq_add_of_lt hgt
    have h₁ : n + k + 1 - n = k + 1 := by omega
    have h₂ : n + k + 1 - (n + 1) = k := by omega
    have h₃ : n ≤ n + k + 1 := by omega
    simp [h₁, h₂, h₃, hgt.ne']

theorem recordFrom_singleton (n : ℕ) (kinds : ℕ → Option Kind) (field : Str) :
    recordFrom n kinds [field] =
      fun c => (kinds c).or (if c = n then some (kindOf field) else none) := by
  funext c
  unfold recordFrom
  congr 1
  rcases lt_trichotomy c n with hlt | rfl | hgt
  · rw [if_neg (by omega), if_neg hlt.ne]
  · simp
  · rw [if_pos hgt.le, if_neg hgt.ne', List.getElem?_eq_none (by rw [List.length_singleton]; omega)]
    rfl

/-- A kind stays. -/
theorem recordFrom_some {n c : ℕ} {k : Kind} (h : kinds c = some k) (fields : List Str) :
    recordFrom n kinds fields c = some k := by
  rw [recordFrom, h, Option.some_or]

theorem foldl_recordKinds_some {c : ℕ} {k : Kind} (h : kinds c = some k)
    (rows : List (List Str)) : rows.foldl recordKinds kinds c = some k := by
  induction rows generalizing kinds with
  | nil => exact h
  | cons fields rows ih => exact ih (recordFrom_some h fields)

/-- A column has a kind after some rows when it had one, or a row has a cell for it. -/
theorem foldl_recordKinds_ne_none {c : ℕ} {rows : List (List Str)} :
    rows.foldl recordKinds kinds c ≠ none ↔
      kinds c ≠ none ∨ ∃ fields ∈ rows, c < fields.length := by
  induction rows generalizing kinds with
  | nil => simp
  | cons fields rows ih =>
    rw [List.foldl_cons, ih, recordKinds, recordFrom]
    simp only [Nat.zero_le, if_true, Nat.sub_zero, List.mem_cons, exists_eq_or_imp, ne_eq,
      Option.or_eq_none_iff, Option.map_eq_none_iff, List.getElem?_eq_none_iff, not_and_or, not_le,
      or_assoc]

/-! ## Cells -/

/-- What holds while a load reads: the kinds it recorded can be taken back. -/
structure LoadOk (arity : ℕ) (kinds : ℕ → Option Kind) (metaDirty : Bool) (st : LoadSt) :
    Prop where
  /-- The symbols. -/
  list : ListOk st.ir
  /-- The kinds before the load. -/
  back : ∀ col, (if st.newCols col then none else st.kinds col) = kinds col
  /-- New kinds are kinds. -/
  new : ∀ col, st.newCols col = true → col < arity ∧ st.kinds col ≠ none
  /-- Without a new kind there is nothing to write. -/
  clean : (∀ col, st.newCols col = false) → st.metaDirty = metaDirty

theorem LoadOk.setIr (h : LoadOk arity kinds metaDirty st) {ir : Interner} (hir : ListOk ir) :
    LoadOk arity kinds metaDirty { st with ir } :=
  ⟨hir, h.back, h.new, h.clean⟩

/-- How a step of a load ends: it goes on, or it is refused for a reason. -/
def Ends {α : Type} (goesOn : α → Prop) (refused : LoadSt → Prop) (why : Prop) :
    Except Stop α → Prop
  | .ok a => goesOn a
  | .error (.refused s) => refused s ∧ why
  | .error .crashed => why

/-- What reading some cells does, from a column on. -/
structure CellsRead (st st' : LoadSt) (n : ℕ) (fields : List Str) : Prop where
  /-- Their names are numbered. -/
  names : st'.ir.rev = namesAfter st.ir.rev (namesOf [fields])
  /-- None is too long. -/
  short : ∀ name ∈ namesOf [fields], ¬ TooLong name
  /-- Their kinds are recorded. -/
  kinds : st'.kinds = recordFrom n st.kinds fields
  /-- Each has the kind of its column. -/
  one : ∀ c f, fields[c]? = some f → st'.kinds (n + c) = some (kindOf f)
  /-- No tuple is added. -/
  ts : st'.ts = st.ts

/-- Some cells go with the kinds `K` and have room in the table `N`. -/
structure CellsFit (K : ℕ → Kind) (N : List Str) (st : LoadSt) (n : ℕ) (fields : List Str) :
    Prop where
  /-- The kinds so far. -/
  kinds : ∀ c k, st.kinds c = some k → k = K c
  /-- Their kinds. -/
  one : ∀ c f, fields[c]? = some f → kindOf f = K (n + c)
  /-- None is too long. -/
  short : ∀ name ∈ namesOf [fields], ¬ TooLong name
  /-- Their names. -/
  names : namesAfter st.ir.rev (namesOf [fields]) <+: N
  /-- There are not too many. -/
  few : N.length ≤ maxStrings

variable {K : ℕ → Kind} {N : List Str} {n : ℕ}

theorem CellsRead.nil (st : LoadSt) (n : ℕ) : CellsRead st st n [] :=
  ⟨rfl, fun _ h => absurd h List.not_mem_nil, funext fun c => by simp [recordFrom], nofun, rfl⟩

theorem namesOf_cons (field : Str) (fields : List Str) :
    namesOf [field :: fields] = namesOf [[field]] ++ namesOf [fields] := by
  simp [namesOf, List.filter_cons]
  split <;> rfl

/-- A cell, and those behind it. -/
theorem CellsRead.cons {field : Str} {fields : List Str} (h₁ : CellsRead st st₁ n [field])
    (h₂ : CellsRead st₁ st' (n + 1) fields) : CellsRead st st' n (field :: fields) where
  names := by rw [h₂.names, h₁.names, namesOf_cons field fields, namesAfter_append]
  short := by
    intro name hname
    rw [namesOf_cons] at hname
    exact (List.mem_append.mp hname).elim (h₁.short name) (h₂.short name)
  kinds := by
    rw [h₂.kinds, h₁.kinds, recordFrom_singleton, recordFrom_cons]
  one := by
    intro c f hf
    cases c with
    | zero =>
      cases hf
      rw [h₂.kinds]
      exact recordFrom_some (h₁.one 0 field rfl) fields
    | succ c =>
      have := h₂.one c f hf
      rwa [Nat.add_right_comm] at this
  ts := h₂.ts.trans h₁.ts

theorem CellsFit.head {field : Str} {fields : List Str}
    (h : CellsFit K N st n (field :: fields)) : CellsFit K N st n [field] where
  kinds := h.kinds
  one := by
    intro c f hf
    cases c with
    | zero => exact h.one 0 f hf
    | succ c => cases hf
  short := fun name hname => h.short name (by
    rw [namesOf_cons]
    exact List.mem_append_left _ hname)
  names := by
    have := h.names
    rw [namesOf_cons, namesAfter_append] at this
    exact (prefix_namesAfter _ _).trans this
  few := h.few

theorem CellsFit.tail {field : Str} {fields : List Str} (h : CellsFit K N st n (field :: fields))
    (hread : CellsRead st st₁ n [field]) : CellsFit K N st₁ (n + 1) fields where
  kinds := by
    intro c k hk
    rw [hread.kinds, recordFrom] at hk
    cases hc : st.kinds c with
    | some k' =>
      rw [hc] at hk
      cases hk
      exact h.kinds c _ hc
    | none =>
      rw [hc, Option.none_or] at hk
      split at hk
      · rename_i hle
        cases hd : c - n with
        | zero =>
          rw [hd] at hk
          cases hk
          rw [h.one 0 field rfl, show n + 0 = c by omega]
        | succ d =>
          rw [hd] at hk
          cases hk
      · cases hk
  one := by
    intro c f hf
    rw [h.one (c + 1) f hf, Nat.add_right_comm, Nat.add_assoc]
  short := fun name hname => h.short name (by
    rw [namesOf_cons]
    exact List.mem_append_right _ hname)
  names := by
    have := h.names
    rwa [namesOf_cons, namesAfter_append, ← hread.names] at this
  few := h.few

/-- A kind is recorded, or the load is refused. -/
theorem kindNoteDefinite_spec (h : LoadOk arity kinds metaDirty st) {col : ℕ} (hcol : col < arity)
    (kind : Kind) :
    Ends (fun st' => LoadOk arity kinds metaDirty st' ∧ st'.ir = st.ir ∧ st'.ts = st.ts ∧
        st'.kinds col = some kind ∧
        st'.kinds = fun c => (st.kinds c).or (if c = col then some kind else none))
      (LoadOk arity kinds metaDirty) (∃ k, st.kinds col = some k ∧ k ≠ kind)
      (kindNoteDefinite st col kind) := by
  unfold kindNoteDefinite
  cases hk : st.kinds col with
  | some k =>
    dsimp only
    split_ifs with heq
    · refine ⟨h, rfl, rfl, heq ▸ hk, funext fun c => ?_⟩
      by_cases hc : c = col
      · rw [hc, hk, Option.some_or]
      · rw [if_neg hc, Option.or_none]
    · exact ⟨h, k, rfl, heq⟩
  | none =>
    refine ⟨⟨h.list, fun c => ?_, fun c hc => ?_, fun hc => ?_⟩, rfl, rfl,
      Function.update_self .., funext fun c => ?_⟩
    · by_cases hcc : c = col
      · have hback := h.back col
        rw [hk] at hback
        simpa [hcc] using hback
      · simp only [Function.update_of_ne hcc]
        exact h.back c
    · by_cases hcc : c = col
      · simpa [hcc] using hcol
      · simp only [Function.update_of_ne hcc] at hc ⊢
        exact h.new c hc
    · have := hc col
      simp at this
    · by_cases hcc : c = col
      · simp [hcc, hk]
      · simp [hcc]

/-- The kind of a cell is recorded behind its name. -/
theorem cell_spec {field : Str} {ir : Interner} (h : LoadOk arity kinds metaDirty { st with ir })
    {col : ℕ} (hcol : col < arity) (hnames : ir.rev = namesAfter st.ir.rev (namesOf [[field]]))
    (hshort : ∀ name ∈ namesOf [[field]], ¬ TooLong name) {v : Val}
    (hv : v = cellValue ir.rev field) :
    Ends (fun r => LoadOk arity kinds metaDirty r.1 ∧ r.2 = some (cellValue r.1.ir.rev field) ∧
        CellsRead st r.1 col [field])
      (LoadOk arity kinds metaDirty) (∀ K N, ¬ CellsFit K N st col [field])
      ((kindNoteDefinite { st with ir } col (kindOf field)).map fun st => (st, some v)) := by
  have hkind := kindNoteDefinite_spec h hcol (kindOf field)
  generalize kindNoteDefinite { st with ir } col (kindOf field) = r at hkind ⊢
  rcases r with (s | _) | st'
  · obtain ⟨hs, k, hk, hne⟩ := hkind
    refine ⟨hs, fun K N hfit => hne ?_⟩
    rw [hfit.kinds col k hk, hfit.one 0 field rfl, Nat.add_zero]
  · obtain ⟨k, hk, hne⟩ := hkind
    intro K N hfit
    apply hne
    rw [hfit.kinds col k hk, hfit.one 0 field rfl, Nat.add_zero]
  · obtain ⟨hst', hir, hts, hcolkind, hkinds⟩ := hkind
    refine ⟨hst', by rw [hv, hir], by rw [hir, hnames], hshort, ?_, ?_, hts⟩
    · rw [hkinds, recordFrom_singleton]
    · intro c f hf
      cases c with
      | zero =>
        cases hf
        exact hcolkind
      | succ c => cases hf

/-- **A cell** whose integer is in range. -/
theorem loadCell_spec (henum : Ordered enum) (h : LoadOk arity kinds metaDirty st) {col : ℕ}
    (hcol : col < arity) {field : Str} (hfield : 0 ∉ field) (hin : inRange field = true) :
    Ends (fun r => LoadOk arity kinds metaDirty r.1 ∧ r.2 = some (cellValue r.1.ir.rev field) ∧
        CellsRead st r.1 col [field])
      (LoadOk arity kinds metaDirty) (∀ K N, ¬ CellsFit K N st col [field])
      (loadCell enum st col field) := by
  unfold loadCell
  by_cases hint : isInteger field = true
  · have hmax : ¬ colMax < strtoul field := by
      simpa [inRange, hint] using hin
    have hnone : namesOf [[field]] = [] := by simp [namesOf, hint]
    rw [if_pos hint, if_neg hmax, show Kind.int = kindOf field by rw [kindOf, if_pos hint]]
    refine cell_spec h hcol (by rw [hnone]; rfl) (by rw [hnone]; exact nofun) ?_
    rw [cellValue, if_pos hint]
  have hone : namesOf [[field]] = [field] := by simp [namesOf, hint]
  rw [if_neg hint]
  by_cases hlong : TooLong field
  · obtain ⟨ir, hi, hir⟩ := h.list.intern_tooLong henum hfield hlong
    rw [hi]
    dsimp only
    rw [if_pos rfl]
    exact ⟨h.setIr hir, fun K N hfit => hfit.short field (by rw [hone]; simp) hlong⟩
  by_cases hfew : (addName st.ir.rev field).length ≤ maxStrings
  · obtain ⟨ir, hi, hir, hrev⟩ := h.list.intern henum hfield hlong hfew
    have hmem : field ∈ addName st.ir.rev field := mem_addName.mpr (.inr rfl)
    rw [hi]
    dsimp only
    rw [if_neg fun h0 => number_eq_zero.mp h0 hmem, show Kind.sym = kindOf field by
      rw [kindOf, if_neg hint]]
    refine cell_spec (h.setIr hir) hcol (by rw [hone]; exact hrev) ?_ ?_
    · rw [hone]
      intro name hname
      rwa [List.mem_singleton.mp hname]
    · rw [cellValue, if_neg hint, hrev]
  · rw [h.list.intern_full henum hfield hlong (not_le.mp hfew)]
    intro K N hfit
    have hle := hfit.names.length_le
    rw [hone] at hle
    exact hfew (hle.trans hfit.few)

/-- **The cells of a row**, up to an integer out of range. -/
theorem loadCells_spec (henum : Ordered enum) (unset : ℕ → Val) {fields : List Str}
    (h : LoadOk arity kinds metaDirty st) {cols : Row} (hlen : cols.length + fields.length = arity)
    (hfields : ∀ field ∈ fields, 0 ∉ field) :
    Ends (fun r => LoadOk arity kinds metaDirty r.1 ∧
        CellsRead st r.1 cols.length (fields.takeWhile inRange) ∧
        r.2 =
          let row := cols ++ (fields.takeWhile inRange).map (cellValue r.1.ir.rev)
          if row.length = arity then row
          else (row ++ (List.range' row.length (arity - row.length)).map unset).set 0 0)
      (LoadOk arity kinds metaDirty)
      (∀ K N, ¬ CellsFit K N st cols.length (fields.takeWhile inRange))
      (loadCells enum arity unset st cols fields) := by
  induction fields generalizing st cols with
  | nil =>
    refine ⟨h, .nil st _, ?_⟩
    rw [List.length_nil, Nat.add_zero] at hlen
    simp [hlen]
  | cons field fields ih =>
    rw [List.length_cons] at hlen
    have hcol : cols.length < arity := by omega
    rw [loadCells]
    by_cases hin : inRange field = true
    · rw [List.takeWhile_cons_of_pos hin]
      have hcell := loadCell_spec henum h hcol (hfields field List.mem_cons_self) hin
      generalize loadCell enum st cols.length field = r at hcell ⊢
      rcases r with (s | _) | ⟨st₁, v⟩
      · exact ⟨hcell.1, fun K N hfit => hcell.2 K N hfit.head⟩
      · exact fun K N hfit => hcell K N hfit.head
      obtain ⟨hst₁, hv, hread⟩ := hcell
      dsimp only at hst₁ hv hread
      subst hv
      dsimp only
      have hlen' : (cols ++ [cellValue st₁.ir.rev field]).length = cols.length + 1 := by simp
      have hrest := @ih st₁ hst₁ (cols ++ [cellValue st₁.ir.rev field]) (by omega)
        fun f hf => hfields f (List.mem_cons_of_mem _ hf)
      rw [hlen'] at hrest
      generalize loadCells enum arity unset st₁ (cols ++ [cellValue st₁.ir.rev field]) fields = r
        at hrest ⊢
      rcases r with (s | _) | ⟨st', row⟩
      · exact ⟨hrest.1, fun K N hfit => hrest.2 K N (hfit.tail hread)⟩
      · exact fun K N hfit => hrest K N (hfit.tail hread)
      obtain ⟨hst', hread', hrow⟩ := hrest
      refine ⟨hst', hread.cons hread', ?_⟩
      have hnamed : Named st₁.ir.rev field := by
        rw [hread.names]
        exact named_namesAfter List.mem_cons_self List.mem_cons_self
      have hvalue : cellValue st'.ir.rev field = cellValue st₁.ir.rev field := by
        refine cellValue_extend ?_ hnamed
        rw [hread'.names]
        exact prefix_namesAfter _ _
      rw [hrow, List.map_cons, hvalue, List.append_assoc, List.singleton_append]
    · have hout : loadCell enum st cols.length field = .ok (st, none) := by
        have hint : isInteger field = true ∧ colMax < strtoul field := by
          simpa [inRange] using hin
        rw [loadCell, if_pos hint.1, if_pos hint.2]
      rw [hout, List.takeWhile_cons_of_neg hin]
      refine ⟨h, .nil st _, ?_⟩
      rw [List.map_nil, List.append_nil]
      exact (if_neg hcol.ne).symm

/-! ## Lines -/

theorem mem_tsAdd {ts ts' : TupleSet} {r : Row} (h : tsAdd ts r = some ts') (x : Row) :
    x ∈ ts'.rows ↔ x ∈ ts.rows ∨ x = r := by
  unfold tsAdd at h
  split at h
  · rename_i hmem
    cases h
    exact ⟨.inl, fun hx => hx.elim id fun heq => heq ▸ hmem⟩
  · split at h
    · cases h
      exact TupleSet.mem_rows_add
    · cases h

/-- The set stays within its room. -/
theorem length_tsAdd {ts ts' : TupleSet} {r : Row} (h : tsAdd ts r = some ts')
    (hlen : ts.rows.length ≤ maxRows) : ts'.rows.length ≤ maxRows := by
  unfold tsAdd at h
  split at h
  · cases h
    exact hlen
  · rename_i hnew
    split at h
    · rename_i hroom
      cases h
      rw [TupleSet.add, dif_neg hnew, List.length_append, List.length_singleton]
      exact hroom
    · cases h

/-- A set that refuses a row has no room for it. -/
theorem lt_card_of_tsAdd {ts : TupleSet} {r : Row} (h : tsAdd ts r = none) {T : Finset Row}
    (hr : r ∈ T) (hrows : ∀ x ∈ ts.rows, x ∈ T) : maxRows < T.card := by
  unfold tsAdd at h
  split at h
  · cases h
  rename_i hnew
  split at h
  · cases h
  rename_i hfull
  have hsub : (r :: ts.rows).toFinset ⊆ T := by
    intro x hx
    rw [List.mem_toFinset, List.mem_cons] at hx
    exact hx.elim (fun heq => heq ▸ hr) (hrows x)
  have hcard := Finset.card_le_card hsub
  rw [List.toFinset_card_of_nodup (List.nodup_cons.mpr ⟨hnew, ts.nodup⟩), List.length_cons] at hcard
  omega

/-- What reading some rows does. -/
structure Loaded (arity : ℕ) (st st' : LoadSt) (rows : List ((ℕ → Val) × List Str)) : Prop where
  /-- Their names are numbered. -/
  names : st'.ir.rev = namesAfter st.ir.rev (namesOf (rows.map Prod.snd))
  /-- None is too long. -/
  short : ∀ name ∈ namesOf (rows.map Prod.snd), ¬ TooLong name
  /-- Their kinds are recorded. -/
  kinds : st'.kinds = (rows.map Prod.snd).foldl recordKinds st.kinds
  /-- Each cell has the kind of its column. -/
  one : ∀ fields ∈ rows.map Prod.snd, ∀ c f, fields[c]? = some f →
    st'.kinds c = some (kindOf f)
  /-- Their tuples are added. -/
  ts : ∀ x, x ∈ st'.ts.rows ↔ x ∈ st.ts.rows ∨ x ∈ rows.map (tupleOf st'.ir.rev arity)
  /-- There was room. -/
  room : st.ts.rows.length ≤ maxRows → st'.ts.rows.length ≤ maxRows

/-- Some rows go with the kinds `K`, and have room in the table `N` and the set `T`. -/
structure Fit (arity : ℕ) (K : ℕ → Kind) (N : List Str) (T : Finset Row) (st : LoadSt)
    (rows : List ((ℕ → Val) × List Str)) : Prop where
  /-- The kinds so far. -/
  kinds : ∀ c k, st.kinds c = some k → k = K c
  /-- Their kinds. -/
  one : ∀ fields ∈ rows.map Prod.snd, ∀ c f, fields[c]? = some f → kindOf f = K c
  /-- None is too long. -/
  short : ∀ name ∈ namesOf (rows.map Prod.snd), ¬ TooLong name
  /-- Their names. -/
  names : namesAfter st.ir.rev (namesOf (rows.map Prod.snd)) <+: N
  /-- There are not too many. -/
  few : N.length ≤ maxStrings
  /-- The tuples so far. -/
  held : ∀ x ∈ st.ts.rows, x ∈ T
  /-- Their tuples. -/
  tuples : ∀ l ∈ rows, tupleOf N arity l ∈ T
  /-- There are not too many. -/
  room : T.card ≤ maxRows

variable {T : Finset Row} {rows more : List ((ℕ → Val) × List Str)}

theorem Loaded.nil (st : LoadSt) : Loaded arity st st [] :=
  ⟨rfl, fun _ h => absurd h List.not_mem_nil, rfl, fun _ h => absurd h List.not_mem_nil,
    fun x => by simp, id⟩

/-- The tuples of rows that were read stay. -/
theorem Loaded.map_tupleOf (h : Loaded arity st st' rows) {table : List Str}
    (hpre : st'.ir.rev <+: table) :
    rows.map (tupleOf table arity) = rows.map (tupleOf st'.ir.rev arity) := by
  refine List.map_congr_left fun l hl => tupleOf_extend hpre fun field hf => ?_
  rw [h.names]
  exact named_namesAfter (List.mem_map_of_mem hl) hf

/-- Some rows, and those behind them. -/
theorem Loaded.append (h₁ : Loaded arity st st₁ rows) (h₂ : Loaded arity st₁ st' more) :
    Loaded arity st st' (rows ++ more) where
  names := by
    rw [h₂.names, h₁.names, List.map_append, namesOf_append, namesAfter_append]
  short := by
    intro name hname
    rw [List.map_append, namesOf_append] at hname
    exact (List.mem_append.mp hname).elim (h₁.short name) (h₂.short name)
  kinds := by rw [h₂.kinds, h₁.kinds, List.map_append, List.foldl_append]
  one := by
    intro fields hfields c f hf
    rw [List.map_append] at hfields
    rcases List.mem_append.mp hfields with hmem | hmem
    · rw [h₂.kinds]
      exact foldl_recordKinds_some (h₁.one fields hmem c f hf) _
    · exact h₂.one fields hmem c f hf
  ts := by
    intro x
    have hpre : st₁.ir.rev <+: st'.ir.rev := h₂.names ▸ prefix_namesAfter _ _
    rw [h₂.ts, h₁.ts, List.map_append, List.mem_append, h₁.map_tupleOf hpre, or_assoc]
  room := fun h => h₂.room (h₁.room h)

theorem Fit.left (h : Fit arity K N T st (rows ++ more)) : Fit arity K N T st rows where
  kinds := h.kinds
  one := fun fields hf => h.one fields (by rw [List.map_append]; exact List.mem_append_left _ hf)
  short := fun name hn => h.short name (by
    rw [List.map_append, namesOf_append]
    exact List.mem_append_left _ hn)
  names := by
    have := h.names
    rw [List.map_append, namesOf_append, namesAfter_append] at this
    exact (prefix_namesAfter _ _).trans this
  few := h.few
  held := h.held
  tuples := fun l hl => h.tuples l (List.mem_append_left _ hl)
  room := h.room

/-- What fits still fits when the rows before it were read. -/
theorem Fit.right (h : Fit arity K N T st (rows ++ more)) (hl : Loaded arity st st₁ rows) :
    Fit arity K N T st₁ more where
  kinds := by
    intro c k hk
    by_cases hnone : st.kinds c = none
    · have hne : st₁.kinds c ≠ none := by rw [hk]; exact Option.some_ne_none k
      rw [hl.kinds, foldl_recordKinds_ne_none] at hne
      obtain ⟨fields, hmem, hlt⟩ := hne.resolve_left fun h => h hnone
      have hget := List.getElem?_eq_getElem hlt
      have hone := hl.one fields hmem c _ hget
      rw [hk] at hone
      cases hone
      exact h.one fields (by rw [List.map_append]; exact List.mem_append_left _ hmem) c _ hget
    · obtain ⟨k', hk'⟩ := Option.ne_none_iff_exists'.mp hnone
      have hstay := foldl_recordKinds_some hk' (rows.map Prod.snd)
      rw [← hl.kinds, hk] at hstay
      cases hstay
      exact h.kinds c _ hk'
  one := fun fields hf => h.one fields (by rw [List.map_append]; exact List.mem_append_right _ hf)
  short := fun name hn => h.short name (by
    rw [List.map_append, namesOf_append]
    exact List.mem_append_right _ hn)
  names := by
    have := h.names
    rwa [List.map_append, namesOf_append, namesAfter_append, ← hl.names] at this
  few := h.few
  held := by
    intro x hx
    rcases (hl.ts x).mp hx with hx | hx
    · exact h.held x hx
    · have hpre : st₁.ir.rev <+: N := by
        have := h.left.names
        rwa [← hl.names] at this
      rw [← hl.map_tupleOf hpre] at hx
      obtain ⟨l, hmem, rfl⟩ := List.mem_map.mp hx
      exact h.tuples l (List.mem_append_left _ hmem)
  tuples := fun l hl => h.tuples l (List.mem_append_right _ hl)
  room := h.room

/-- **A line.** -/
theorem loadRow_spec (henum : Ordered enum) (harity : 0 < arity) (unset : ℕ → Val)
    (h : LoadOk arity kinds metaDirty st) (line : List UInt8) :
    Ends (fun st' => LoadOk arity kinds metaDirty st' ∧
        Loaded arity st st' (readingOf arity (unset, line)))
      (LoadOk arity kinds metaDirty)
      (∀ K N T, ¬ Fit arity K N T st (readingOf arity (unset, line)))
      (loadRow enum arity unset st line) := by
  unfold loadRow readingOf Taken
  dsimp only
  by_cases hline : line = []
  · have hnone : (fieldsOf line).length = 0 := by rw [hline]; rfl
    rw [if_pos hline, if_neg (by rw [decide_eq_true_eq]; omega)]
    exact ⟨h, .nil st⟩
  rw [if_neg hline, csvSplit_line]
  by_cases hfew : arity ≤ (fieldsOf line).length
  swap
  · rw [if_neg (by rwa [decide_eq_true_eq]), if_pos (by rw [List.length_take]; omega)]
    exact ⟨h, .nil st⟩
  have hlen : ((fieldsOf line).take arity).length = arity := List.length_take_of_le hfew
  rw [if_pos (by rwa [decide_eq_true_eq]), if_neg (not_not.mpr hlen)]
  have hcells := @loadCells_spec enum arity kinds metaDirty st henum unset
    ((fieldsOf line).take arity) h [] (by rw [hlen]; exact Nat.zero_add _)
    fun field hf => zero_notMem_field (List.mem_of_mem_take hf)
  -- a row that fits has cells that fit
  have hfit : ∀ {K N T}, Fit arity K N T st [(unset, readOf arity line)] →
      CellsFit K N st 0 (readOf arity line) := by
    intro K N T hfit
    refine ⟨hfit.kinds, fun c f hf => ?_, hfit.short, hfit.names, hfit.few⟩
    rw [Nat.zero_add]
    exact hfit.one _ List.mem_cons_self c f hf
  generalize loadCells enum arity unset st [] ((fieldsOf line).take arity) = r at hcells ⊢
  rcases r with (s | _) | ⟨st₁, row⟩
  · exact ⟨hcells.1, fun K N T h => hcells.2 K N (hfit h)⟩
  · exact fun K N T h => hcells K N (hfit h)
  obtain ⟨hst₁, hread, hrow⟩ := hcells
  replace hrow : row = tupleOf st₁.ir.rev arity (unset, readOf arity line) := by
    refine hrow.trans ?_
    simp only [tupleOf, List.nil_append, List.length_map]
    rfl
  change CellsRead st st₁ 0 (readOf arity line) at hread
  dsimp only at hst₁ ⊢
  cases hadd : tsAdd st₁.ts row with
  | none =>
    -- the set and one more row are too many
    refine ⟨hst₁, fun K N T hfits => ?_⟩
    have hnamed : ∀ field ∈ readOf arity line, Named st₁.ir.rev field := by
      intro field hf
      rw [hread.names]
      exact named_namesAfter List.mem_cons_self hf
    have hpre : st₁.ir.rev <+: N := by
      have := hfits.names
      rwa [List.map_singleton, ← hread.names] at this
    have hin : row ∈ T := by
      rw [hrow, ← tupleOf_extend hpre hnamed]
      exact hfits.tuples _ List.mem_cons_self
    have hcard := lt_card_of_tsAdd hadd hin fun x hx => hfits.held x (hread.ts ▸ hx)
    exact absurd hfits.room (not_le.mpr hcard)
  | some ts =>
    refine ⟨⟨hst₁.list, hst₁.back, hst₁.new, hst₁.clean⟩, hread.names, hread.short, hread.kinds, ?_,
      fun x => ?_, fun hlen => length_tsAdd hadd (hread.ts ▸ hlen)⟩
    · intro fields hfields c f hf
      obtain rfl := List.mem_singleton.mp hfields
      have := hread.one c f hf
      rwa [Nat.zero_add] at this
    · rw [mem_tsAdd hadd, hread.ts, hrow, List.map_singleton, List.mem_singleton]

/-- **The lines of a text.** -/
theorem loadRows_spec (henum : Ordered enum) (harity : 0 < arity)
    (lines : List ((ℕ → Val) × List UInt8)) (h : LoadOk arity kinds metaDirty st) :
    Ends (fun st' => LoadOk arity kinds metaDirty st' ∧
        Loaded arity st st' (lines.flatMap (readingOf arity)))
      (LoadOk arity kinds metaDirty)
      (∀ K N T, ¬ Fit arity K N T st (lines.flatMap (readingOf arity)))
      (loadRows enum arity st lines) := by
  induction lines generalizing st with
  | nil => exact ⟨h, .nil st⟩
  | cons l lines ih =>
    obtain ⟨unset, line⟩ := l
    have hline := loadRow_spec henum harity unset h line
    rw [loadRows, List.flatMap_cons]
    generalize loadRow enum arity unset st line = r at hline ⊢
    rcases r with (s | _) | st₁
    · exact ⟨hline.1, fun K N T hfit => hline.2 K N T hfit.left⟩
    · exact fun K N T hfit => hline K N T hfit.left
    obtain ⟨hst₁, hloaded⟩ := hline
    have hrest := ih hst₁
    dsimp only
    generalize loadRows enum arity st₁ lines = r at hrest ⊢
    rcases r with (s | _) | st'
    · exact ⟨hrest.1, fun K N T hfit => hrest.2 K N T (hfit.right hloaded)⟩
    · exact fun K N T hfit => hrest K N T (hfit.right hloaded)
    · exact ⟨hrest.1, hloaded.append hrest.2⟩

/-! ## Texts -/

variable {db : LoadDb} {text : List UInt8} {unset : ℕ → ℕ → Val}
  {recheck : (ℕ → Option Kind) → Bool} {saved : Bool}

theorem map_snd_readings (arity : ℕ) (unset : ℕ → ℕ → Val) (text : List UInt8) :
    (readings arity unset text).map Prod.snd = reads arity text := by
  have hlines : (memLines unset text).map Prod.snd = csvLines text := by
    unfold memLines
    rw [List.map_map]
    exact List.zipIdx_map_fst 0 _
  unfold readings reads
  rw [← hlines]
  induction memLines unset text with
  | nil => rfl
  | cons l lines ih =>
    rw [List.flatMap_cons, List.map_append, ih, List.map_cons, List.filter_cons, readingOf]
    split <;> rfl

theorem length_le_of_mem_reads {fields : List Str} (h : fields ∈ reads arity text) :
    fields.length ≤ arity := by
  obtain ⟨line, -, rfl⟩ := List.mem_map.mp h
  exact (List.takeWhile_sublist _).length_le.trans (List.length_take_le _ _)

theorem length_of_mem_goodRows {fields : List Str} (h : fields ∈ goodRows arity text) :
    fields.length = arity := by
  have := (List.mem_filter.mp h).2
  simp only [decide_eq_true_eq] at this
  exact this.1

/-- A row that has a tuple is read as it is. -/
theorem mem_reads_of_goodRows {fields : List Str} (h : fields ∈ goodRows arity text) :
    fields ∈ reads arity text := by
  obtain ⟨hmem, hgood⟩ := List.mem_filter.mp h
  obtain ⟨line, hline, rfl⟩ := List.mem_map.mp hmem
  simp only [decide_eq_true_eq] at hgood
  have htaken : Taken arity line = true := by
    rw [Taken, decide_eq_true_eq]
    exact hgood.1.ge
  refine List.mem_map.mpr ⟨line, List.mem_filter.mpr ⟨hline, htaken⟩, ?_⟩
  rw [readOf, List.take_of_length_le hgood.1.le, List.takeWhile_eq_self_iff]
  exact List.all_eq_true.mp hgood.2

theorem mem_tuples_of_goodTuples {x : Row} (h : x ∈ goodTuples arity db text) :
    x ∈ tuples arity unset db text := by
  obtain ⟨fields, hmem, rfl⟩ := List.mem_map.mp h
  have hread := mem_reads_of_goodRows hmem
  rw [← map_snd_readings arity unset text] at hread
  obtain ⟨l, hl, rfl⟩ := List.mem_map.mp hread
  refine List.mem_map.mpr ⟨l, hl, ?_⟩
  rw [tupleOf, if_pos (length_of_mem_goodRows hmem)]

/-- The rows of the base are taken as far as there is room. -/
theorem rows_sinkRows {ts : TupleSet} {rows : List Row} (h : (ts.rows ++ rows).Nodup) :
    (sinkRows ts rows).rows = ts.rows ++ rows.take (maxRows - ts.rows.length) := by
  induction rows generalizing ts with
  | nil => simp [sinkRows]
  | cons r rows ih =>
    have hnew : r ∉ ts.rows := fun hmem =>
      (List.nodup_append.mp h).2.2 r hmem r List.mem_cons_self rfl
    rw [sinkRows, tsAdd, if_neg hnew]
    by_cases hroom : ts.rows.length < maxRows
    · have hadd : (ts.add r).rows = ts.rows ++ [r] := by rw [TupleSet.add, dif_neg hnew]
      rw [if_pos hroom]
      dsimp only
      rw [ih (by rwa [hadd, List.append_assoc, List.singleton_append]), hadd, List.append_assoc,
        List.length_append, List.length_singleton]
      rw [show maxRows - ts.rows.length = (maxRows - (ts.rows.length + 1)) + 1 by omega]
      rfl
    · rw [if_neg hroom, show maxRows - ts.rows.length = 0 by omega, List.take_zero,
        List.append_nil]

/-- Where a load starts. -/
def LoadDb.start (arity : ℕ) (db : LoadDb) : LoadSt :=
  ⟨db.ir, db.kinds, fun _ => false, db.metaDirty,
    sinkRows (TupleSet.init arity) db.rel.store.base.keys⟩

theorem LoadDb.start_rows (arity : ℕ) (db : LoadDb) : (db.start arity).ts.rows = heldRows db := by
  have := @rows_sinkRows (TupleSet.init arity) db.rel.store.base.keys
    (by rw [TupleSet.rows_init, List.nil_append]; exact db.rel.store.base.nodup_keys)
  rwa [TupleSet.rows_init, List.nil_append] at this

theorem LoadDb.start_ok (hlist : ListOk db.ir) :
    LoadOk arity db.kinds db.metaDirty (db.start arity) :=
  ⟨hlist, fun _ => rfl, fun _ h => absurd h Bool.false_ne_true, fun _ => rfl⟩

/-- What a load has when it has read a text. -/
structure TextRead (arity : ℕ) (unset : ℕ → ℕ → Val) (db : LoadDb) (text : List UInt8)
    (st : LoadSt) : Prop where
  /-- The kinds can be taken back. -/
  ok : LoadOk arity db.kinds db.metaDirty st
  /-- The names. -/
  names : st.ir.rev = tableAfter arity db text
  /-- The kinds. -/
  kinds : st.kinds = (reads arity text).foldl recordKinds db.kinds
  /-- The tuples. -/
  ts : ∀ x, x ∈ st.ts.rows ↔ x ∈ heldRows db ∨ x ∈ tuples arity unset db text

/-- **Reading a text** ends, unless something refuses the load. -/
theorem readText (henum : Ordered enum) (hlist : ListOk db.ir) (harity : 0 < arity) :
    Ends
      (fun st => TextRead arity unset db text st ∧
        ((Recorded db.kinds (reads arity text) ∨ recheck st.kinds = true) →
          Accepted arity recheck unset db text))
      (LoadOk arity db.kinds db.metaDirty) (¬ Accepted arity recheck unset db text)
      (loadRows enum arity (db.start arity) (memLines unset text)) := by
  have hrows := loadRows_spec henum harity (memLines unset text) (LoadDb.start_ok hlist)
  have hsnd := map_snd_readings arity unset text
  -- a load that nothing refuses has room for all
  have hfit : Accepted arity recheck unset db text →
      ∃ K N T, Fit arity K N T (db.start arity) (readings arity unset text) := by
    rintro ⟨⟨K, hkinds, hone⟩, hshort, hnames, hroom, -⟩
    refine ⟨K, tableAfter arity db text, (heldRows db ++ tuples arity unset db text).toFinset,
      hkinds, hsnd ▸ hone, hsnd ▸ hshort, ?_, hnames, fun x hx => ?_, fun l hl => ?_, hroom⟩
    · rw [hsnd]
      exact List.prefix_rfl
    · rw [LoadDb.start_rows] at hx
      exact List.mem_toFinset.mpr (List.mem_append_left _ hx)
    · exact List.mem_toFinset.mpr (List.mem_append_right _ (List.mem_map_of_mem hl))
  have hno : (∀ K N T, ¬ Fit arity K N T (db.start arity) (readings arity unset text)) →
      ¬ Accepted arity recheck unset db text := by
    intro hnone hacc
    obtain ⟨K, N, T, h⟩ := hfit hacc
    exact hnone K N T h
  generalize loadRows enum arity (db.start arity) (memLines unset text) = r at hrows ⊢
  rcases r with (s | _) | st
  · exact ⟨hrows.1, hno hrows.2⟩
  · exact hno hrows
  obtain ⟨hok, hloaded⟩ := hrows
  change Loaded arity (db.start arity) st (readings arity unset text) at hloaded
  have hnames : st.ir.rev = tableAfter arity db text := by rw [hloaded.names, hsnd]; rfl
  have hkinds : st.kinds = (reads arity text).foldl recordKinds db.kinds := by
    rw [hloaded.kinds, hsnd]
    rfl
  have hts : ∀ x, x ∈ st.ts.rows ↔ x ∈ heldRows db ∨ x ∈ tuples arity unset db text := by
    intro x
    rw [hloaded.ts, LoadDb.start_rows, hnames]
    rfl
  refine ⟨⟨hok, hnames, hkinds, hts⟩, fun hpass => ⟨?_, hsnd ▸ hloaded.short, hnames ▸ hok.list.few,
    ?_, fun hnew => hkinds ▸ hpass.resolve_left hnew⟩⟩
  · refine ⟨fun c => (st.kinds c).getD .int, fun c k hk => ?_, fun fields hf c f hget => ?_⟩
    · have := foldl_recordKinds_some hk (reads arity text)
      rw [← hkinds] at this
      simp [this]
    · have := hloaded.one fields (hsnd ▸ hf) c f hget
      simp [this]
  · have hsame : (heldRows db ++ tuples arity unset db text).toFinset = st.ts.rows.toFinset := by
      ext x
      rw [List.mem_toFinset, List.mem_append, List.mem_toFinset, hts]
    rw [hsame, List.toFinset_card_of_nodup st.ts.nodup]
    refine hloaded.room ?_
    rw [LoadDb.start_rows]
    exact List.length_take_le _ _

/-- A column is new to the load when it had no kind and a row has a cell for it. -/
theorem TextRead.newCols (h : TextRead arity unset db text st) :
    (List.range arity).any st.newCols = true ↔ ¬ Recorded db.kinds (reads arity text) := by
  have hkind : ∀ c, st.kinds c ≠ none ↔
      db.kinds c ≠ none ∨ ∃ fields ∈ reads arity text, c < fields.length := by
    intro c
    rw [h.kinds, foldl_recordKinds_ne_none]
  rw [List.any_eq_true]
  constructor
  · rintro ⟨c, -, hnew⟩ hrec
    have hback := h.ok.back c
    rw [if_pos hnew] at hback
    obtain ⟨fields, hmem, hlt⟩ := ((hkind c).mp (h.ok.new c hnew).2).resolve_left
      fun hne => hne hback.symm
    exact hrec fields hmem c hlt hback.symm
  · intro hrec
    unfold Recorded at hrec
    push Not at hrec
    obtain ⟨fields, hmem, c, hlt, hnone⟩ := hrec
    have hnew : st.newCols c = true := by
      by_contra hold
      have hback := h.ok.back c
      rw [if_neg hold, hnone] at hback
      exact (hkind c).mpr (.inr ⟨fields, hmem, hlt⟩) hback
    exact ⟨c, List.mem_range.mpr (h.ok.new c hnew).1, hnew⟩

/-! ## Loads -/

theorem dlLoadFacts_eq (enum : Enum) (arity : ℕ) (recheck : (ℕ → Option Kind) → Bool)
    (saved : Bool) (unset : ℕ → ℕ → Val) (db : LoadDb) (text : List UInt8) :
    dlLoadFacts enum arity recheck saved unset db text =
      match loadRows enum arity (db.start arity) (memLines unset text) with
      | .error .crashed => none
      | .error (.refused st) => some (loadKindRollback db st, none)
      | .ok st =>
        if (List.range arity).any st.newCols = true ∧ recheck st.kinds = false then
          some (loadKindRollback db st, none)
        else
          some (⟨st.ir, { db.rel with
              store := db.rel.store.buildBase st.ts.sort.rows, dirty := true }, st.kinds,
            st.metaDirty⟩, if saved then some st.ts.sort.rows.length else none) := rfl

/-- A load that is refused leaves all as it was. -/
theorem loadExact_refused (henum : Ordered enum) (hlist : ListOk db.ir) (harity : 0 < arity)
    (href : ¬ Accepted arity recheck unset db text) :
    LoadExact enum arity recheck saved unset db text := by
  intro db' code hload
  have hread := @readText enum arity db text unset recheck henum hlist harity
  rw [dlLoadFacts_eq] at hload
  have hback : ∀ st, LoadOk arity db.kinds db.metaDirty st →
      some (loadKindRollback db st, (none : Option ℕ)) = some (db', code) →
      ResultExact enum arity db text db' code := by
    intro st hst heq
    cases heq
    exact ⟨rfl, funext hst.back, rfl⟩
  generalize loadRows enum arity (db.start arity) (memLines unset text) = r at hread hload
  rcases r with (s | _) | st
  · exact hback s hread.1 hload
  · cases hload
  obtain ⟨htext, hacc⟩ := hread
  have hfail : (List.range arity).any st.newCols = true ∧ recheck st.kinds = false := by
    rw [htext.newCols, ← Bool.not_eq_true, ← not_or]
    exact fun hpass => href (hacc hpass)
  dsimp only at hload
  rw [if_pos hfail] at hload
  exact hback st htext.ok hload

/-- A load that nothing refuses builds the base anew. -/
theorem dlLoadFacts_accepted (henum : Ordered enum) (hlist : ListOk db.ir) (harity : 0 < arity)
    (hacc : Accepted arity recheck unset db text) (saved : Bool) :
    ∃ st rel n, TextRead arity unset db text st ∧
      (∀ x, x ∈ rel.store.base ↔ x ∈ heldRows db ∨ x ∈ tuples arity unset db text) ∧
      dlLoadFacts enum arity recheck saved unset db text =
        some (⟨st.ir, rel, st.kinds, st.metaDirty⟩, if saved then some n else none) := by
  have hread := @readText enum arity db text unset recheck henum hlist harity
  rw [dlLoadFacts_eq]
  generalize loadRows enum arity (db.start arity) (memLines unset text) = r at hread ⊢
  rcases r with (s | _) | st
  · exact absurd hacc hread.2
  · exact absurd hacc hread
  obtain ⟨htext, -⟩ := hread
  have hpass : ¬ ((List.range arity).any st.newCols = true ∧ recheck st.kinds = false) := by
    rw [htext.newCols, htext.kinds]
    rintro ⟨hnew, hfail⟩
    rw [hacc.passes hnew] at hfail
    cases hfail
  dsimp only
  rw [if_neg hpass]
  refine ⟨st, _, _, htext, fun x => ?_, rfl⟩
  rw [Store.mem_base_buildBase, TupleSet.mem_rows_sort, htext.ts]

/-- A cell has one value. -/
theorem cellOf_iff (henum : Ordered enum) {ir : Interner} (hlist : ListOk ir) {field : Str}
    (hzero : 0 ∉ field) (hin : inRange field = true) (hnamed : Named ir.rev field) (v : Val) :
    CellOf enum ir field v ↔ v = cellValue ir.rev field := by
  have hval : ∀ {n : ℕ}, n < 2 ^ 32 → (v.toNat = n ↔ v = UInt32.ofNat n) := by
    intro n hn
    rw [← UInt32.toNat_inj, UInt32.toNat_ofNat_of_lt' hn]
  unfold CellOf cellValue
  by_cases hint : isInteger field = true
  · have hmax : strtoul field ≤ colMax := by simpa [inRange, hint] using hin
    rw [if_pos hint, if_pos hint]
    refine hval (hmax.trans_lt ?_)
    decide
  · obtain ⟨hname, hle⟩ := hlist.strOf_number (hnamed.resolve_left hint)
    rw [if_neg hint, if_neg hint, hlist.lookup henum hzero, eq_comm, ← hval (hle.trans_lt ?_)]
    · refine ⟨And.left, fun heq => ⟨heq, ?_⟩⟩
      rw [heq]
      exact hname
    · decide

/-- A relation that is a function on a list. -/
theorem forall₂_iff_map {α β : Type*} {R : α → β → Prop} {f : α → β} {l : List α} {m : List β}
    (h : ∀ a ∈ l, ∀ b, R a b ↔ b = f a) : List.Forall₂ R l m ↔ m = l.map f := by
  induction l generalizing m with
  | nil => rw [List.forall₂_nil_left_iff, List.map_nil]
  | cons a l ih =>
    rw [List.forall₂_cons_left_iff, List.map_cons]
    constructor
    · rintro ⟨b, m, hab, hrest, rfl⟩
      rw [(h a List.mem_cons_self b).mp hab,
        (ih fun a ha => h a (List.mem_cons_of_mem _ ha)).mp hrest]
    · rintro rfl
      exact ⟨_, _, (h a List.mem_cons_self _).mpr rfl,
        (ih fun a ha => h a (List.mem_cons_of_mem _ ha)).mpr rfl, rfl⟩

/-- The rows of a text that have a tuple have one. -/
theorem rowOf_iff (henum : Ordered enum) {ir : Interner} (hlist : ListOk ir)
    (hnames : ir.rev = tableAfter arity db text) {rows : List Row} :
    List.Forall₂ (RowOf enum ir) (goodRows arity text) rows ↔ rows = goodTuples arity db text := by
  refine forall₂_iff_map fun fields hfields row => forall₂_iff_map fun field hf v => ?_
  obtain ⟨hmem, hgood⟩ := List.mem_filter.mp hfields
  simp only [decide_eq_true_eq] at hgood
  obtain ⟨line, -, rfl⟩ := List.mem_map.mp hmem
  rw [← hnames]
  refine cellOf_iff henum hlist (zero_notMem_field hf) (List.all_eq_true.mp hgood.2 _ hf) ?_ v
  rw [hnames]
  exact named_namesAfter (mem_reads_of_goodRows hfields) hf

/-- The kinds that are recorded are those of the columns. -/
theorem foldl_recordKinds_eq {K : ℕ → Kind} (hkinds : ∀ c k, kinds c = some k → k = K c)
    {rows : List (List Str)} (hone : ∀ fields ∈ rows, ∀ c f, fields[c]? = some f → kindOf f = K c)
    {c : ℕ} {k : Kind} (hk : rows.foldl recordKinds kinds c = some k) : k = K c := by
  induction rows generalizing kinds with
  | nil => exact hkinds c k hk
  | cons fields rows ih =>
    refine ih (fun c k hk => ?_) (fun f hf => hone f (List.mem_cons_of_mem _ hf)) hk
    rw [recordKinds, recordFrom, Option.or_eq_some_iff] at hk
    rcases hk with hk | ⟨-, hk⟩
    · exact hkinds c k hk
    · rw [if_pos (Nat.zero_le c), Option.map_eq_some_iff] at hk
      obtain ⟨f, hf, rfl⟩ := hk
      exact hone fields List.mem_cons_self c f hf

/-- The rows that are read give the kinds that the rows with a tuple give, when they give none
or there is such a row. -/
theorem foldl_reads_eq_iff (hacc : Accepted arity recheck unset db text) :
    (reads arity text).foldl recordKinds db.kinds =
        (goodRows arity text).foldl recordKinds db.kinds ↔
      (goodRows arity text = [] → Recorded db.kinds (reads arity text)) := by
  constructor
  · intro heq hnone fields hmem c hlt
    rw [hnone] at heq
    have hne : (reads arity text).foldl recordKinds db.kinds c ≠ none :=
      foldl_recordKinds_ne_none.mpr (.inr ⟨fields, hmem, hlt⟩)
    rwa [heq] at hne
  · intro hrec
    obtain ⟨K, hkinds, hone⟩ := hacc.oneKind
    have hsame : ∀ c, (reads arity text).foldl recordKinds db.kinds c ≠ none ↔
        (goodRows arity text).foldl recordKinds db.kinds c ≠ none := by
      intro c
      rw [foldl_recordKinds_ne_none, foldl_recordKinds_ne_none]
      refine or_congr_right' fun hnone => ⟨?_, ?_⟩
      · rintro ⟨fields, hmem, hlt⟩
        obtain ⟨good, hgood⟩ := List.exists_mem_of_ne_nil _ fun h => hnone (hrec h fields hmem c hlt)
        refine ⟨good, hgood, ?_⟩
        rw [length_of_mem_goodRows hgood]
        exact hlt.trans_le (length_le_of_mem_reads hmem)
      · rintro ⟨fields, hmem, hlt⟩
        exact ⟨fields, mem_reads_of_goodRows hmem, hlt⟩
    have hgood := fun fields hf => hone fields (mem_reads_of_goodRows hf)
    funext c
    have hc := hsame c
    cases hr : (reads arity text).foldl recordKinds db.kinds c with
    | none =>
      rw [hr] at hc
      have hnone : (goodRows arity text).foldl recordKinds db.kinds c = none := by simpa using hc
      exact hnone.symm
    | some k =>
      cases hg : (goodRows arity text).foldl recordKinds db.kinds c with
      | none =>
        rw [hr, hg] at hc
        simp at hc
      | some k' =>
        rw [foldl_recordKinds_eq hkinds hone hr, foldl_recordKinds_eq hkinds hgood hg]

/-- Where the rows that are read cover the base, the whole base is held. -/
theorem length_base_le (hacc : Accepted arity recheck unset db text)
    (hsub : ∀ x ∈ db.rel.store.base, x ∈ heldRows db ∨ x ∈ tuples arity unset db text) :
    db.rel.store.base.keys.length ≤ maxRows := by
  refine le_trans ?_ hacc.room
  rw [← List.toFinset_card_of_nodup db.rel.store.base.nodup_keys]
  refine Finset.card_le_card fun x hx => ?_
  rw [List.mem_toFinset] at hx ⊢
  exact List.mem_append.mpr (hsub x hx)

/-- What the rows that are read and should not be must keep to: where the symbols and terms are
saved, a tuple that is in the base or that of a good row, and no new kind unless there is a
good row; where they are not saved, no new tuple and no new kind. -/
def AddsNothing (arity : ℕ) (saved : Bool) (unset : ℕ → ℕ → Val) (db : LoadDb)
    (text : List UInt8) : Prop :=
  if saved then
    (∀ x ∈ tuples arity unset db text, x ∈ db.rel.store.base ∨ x ∈ goodTuples arity db text) ∧
      (goodRows arity text = [] → Recorded db.kinds (reads arity text))
  else
    (∀ x ∈ tuples arity unset db text, x ∈ db.rel.store.base) ∧
      Recorded db.kinds (reads arity text)

/-- **A load is right** just when, unless it is refused, the base is small enough and the rows
that are read add nothing that the rows with a tuple do not add. -/
theorem loadExact_iff (henum : Ordered enum) (hmade : Made enum db.ir) (harity : 0 < arity) :
    LoadExact enum arity recheck saved unset db text ↔
      (Accepted arity recheck unset db text →
        db.rel.store.base.keys.length ≤ maxRows ∧ AddsNothing arity saved unset db text) := by
  have hlist := hmade.listOk henum
  by_cases hacc : Accepted arity recheck unset db text
  swap
  · exact iff_of_true (loadExact_refused henum hlist harity hacc) fun h => absurd h hacc
  obtain ⟨st, rel, n, htext, hbase, hload⟩ := dlLoadFacts_accepted henum hlist harity hacc saved
  have hexact : LoadExact enum arity recheck saved unset db text ↔
      ResultExact enum arity db text ⟨st.ir, rel, st.kinds, st.metaDirty⟩
        (if saved then some n else none) := by
    constructor
    · exact fun h => h _ _ hload
    · intro h db' code hres
      rw [hload] at hres
      cases hres
      exact h
  have hheld : db.rel.store.base.keys.length ≤ maxRows →
      ∀ x, x ∈ heldRows db ↔ x ∈ db.rel.store.base := by
    intro hlen x
    rw [heldRows, List.take_of_length_le hlen, Dafsa.mem_def]
  rw [hexact, AddsNothing]
  refine Iff.trans ?_ (forall_prop_of_true hacc).symm
  cases saved with
  | true =>
    simp only [if_true, ResultExact, htext.kinds, foldl_reads_eq_iff hacc, ← and_assoc]
    refine and_congr_left fun _ => ⟨?_, ?_⟩
    · rintro ⟨rows, hrows, hsame⟩
      obtain rfl := (rowOf_iff henum htext.ok.list htext.names).mp hrows
      have hlen := length_base_le hacc fun x hx => (hbase x).mp ((hsame x).mpr (.inl hx))
      exact ⟨hlen, fun x hx => (hsame x).mp ((hbase x).mpr (.inr hx))⟩
    · rintro ⟨hlen, hsub⟩
      refine ⟨_, (rowOf_iff henum htext.ok.list htext.names).mpr rfl, fun x => ?_⟩
      rw [hbase, hheld hlen]
      constructor
      · exact fun hx => hx.elim .inl (hsub x)
      · exact fun hx => hx.imp_right mem_tuples_of_goodTuples
  | false =>
    simp only [Bool.false_eq_true, if_false, ResultExact]
    constructor
    · rintro ⟨hsame, hkinds, -⟩
      have hlen := length_base_le hacc fun x hx => (hbase x).mp (by rwa [hsame])
      refine ⟨hlen, fun x hx => ?_, fun fields hmem c hlt => ?_⟩
      · rw [← hsame, hbase]
        exact .inr hx
      · rw [← hkinds, htext.kinds, foldl_recordKinds_ne_none]
        exact .inr ⟨fields, hmem, hlt⟩
    · rintro ⟨hlen, hsub, hrec⟩
      have hclean : ∀ col, st.newCols col = false := by
        intro col
        by_contra hnew
        rw [Bool.not_eq_false] at hnew
        have hcol := (htext.ok.new col hnew).1
        exact htext.newCols.mp (List.any_eq_true.mpr ⟨col, List.mem_range.mpr hcol, hnew⟩) hrec
      refine ⟨Dafsa.ext_mem fun x => ?_, funext fun col => ?_, htext.ok.clean hclean⟩
      · rw [hbase, hheld hlen]
        exact ⟨fun hx => hx.elim id (hsub x), .inl⟩
      · have hback := htext.ok.back col
        rw [hclean col] at hback
        exact hback

/-- A relation of numbers with a base. -/
def sampleDb (base : List Row) (kind : Option Kind) : LoadDb :=
  ⟨internCreate, ⟨.aliased (Dafsa.ofRows base), TupleSet.init 1, false⟩, fun _ => kind, false⟩

/-- The row `1,2` is cut off to a tuple that is there, and `7` is added. -/
theorem loadExact_sample :
    LoadExact sortedEnum 1 (fun _ => true) true (fun _ _ => 0) (sampleDb [[1]] (some .int))
      [49, 44, 50, 10, 55, 10] := by
  refine (loadExact_iff ordered_sortedEnum .create Nat.one_pos).mpr fun _ => ⟨?_, ?_, ?_⟩
  · rw [show (sampleDb [[1]] (some .int)).rel.store.base.keys.length = 1 by decide +kernel]
    decide
  · decide +kernel
  · intro _ _ _ c _ hnone
    cases hnone

/-- Of the line `1,2` a relation with one column gets `1`, and of `4294967296` it gets
`0`. -/
theorem not_loadExact_stray :
    ¬ LoadExact sortedEnum 1 (fun _ => true) true (fun _ _ => 0) (sampleDb [] none)
        [49, 44, 50, 10] ∧
      ¬ LoadExact sortedEnum 1 (fun _ => true) true (fun _ _ => 0) (sampleDb [] none)
        [52, 50, 57, 52, 57, 54, 55, 50, 57, 54, 10] := by
  constructor
  · intro h
    obtain ⟨⟨rows, hrows, hbase⟩, -⟩ := h _ _ rfl
    rw [show goodRows 1 [49, 44, 50, 10] = [] by decide +kernel,
      List.forall₂_nil_left_iff] at hrows
    subst hrows
    exact (by decide +kernel : ¬ ([1] ∈ (sampleDb [] none).rel.store.base ∨ [1] ∈ ([] : List Row)))
      ((hbase [1]).mp (by decide +kernel))
  · intro h
    obtain ⟨⟨rows, hrows, hbase⟩, -⟩ := h _ _ rfl
    rw [show goodRows 1 [52, 50, 57, 52, 57, 54, 55, 50, 57, 54, 10] = [] by decide +kernel,
      List.forall₂_nil_left_iff] at hrows
    subst hrows
    exact (by decide +kernel : ¬ ([0] ∈ (sampleDb [] none).rel.store.base ∨ [0] ∈ ([] : List Row)))
      ((hbase [0]).mp (by decide +kernel))

end DatalogDafsa.Csv
