import Mathlib

/-!
# Rows, and the key sets a DAFSA holds

A fact of an arity-`n` relation is a row of `n` unsigned 32-bit columns.  The
engine keeps the rows of one relation in an external minimal acyclic automaton,
keyed by the big-endian bytes of the columns, so a DAFSA is the *sorted* set of
its rows: enumeration is in the byte order of the keys, adding and deleting are
set insertion and removal, and two automata with the same rows are the same
automaton.  `Dafsa` is that set, with the order kept as a field.

## Main definitions

* `Row`, `rowLt` — a row, and the byte order of the keys.
* `Dafsa` — a strictly sorted list of rows.
* `Dafsa.add`, `Dafsa.delete`, `Dafsa.lookup`, `Dafsa.ofRows`, `Dafsa.scan` —
  `dafsa_add_n`, `dafsa_delete_n`, `dafsa_lookup_n`, `dafsa_build_sorted` and the
  prefix enumeration.
* `Dafsa.ext_mem` — an automaton is determined by its rows.
-/

namespace DatalogDafsa

/-- One column value: an integer, an interned symbol or a list handle. -/
abbrev Val := UInt32

/-- One row: the columns of a fact. -/
abbrev Row := List Val

/-! ## The byte order of the keys -/

/-- `memcmp` order of two encoded keys: the columns are stored big-endian, so it
is the lexicographic order of the columns. -/
def rowLt : Row → Row → Bool
  | _, [] => false
  | [], _ :: _ => true
  | a :: as, b :: bs => if a = b then rowLt as bs else a < b

@[simp] theorem rowLt_nil_right (r : Row) : rowLt r [] = false := by cases r <;> rfl
@[simp] theorem rowLt_nil_cons (b : Val) (bs : Row) : rowLt [] (b :: bs) = true := rfl

theorem rowLt_cons (a b : Val) (as bs : Row) :
    rowLt (a :: as) (b :: bs) = if a = b then rowLt as bs else decide (a < b) := rfl

theorem rowLt_irrefl (r : Row) : rowLt r r = false := by
  induction r with
  | nil => rfl
  | cons a as ih => simp [rowLt_cons, ih]

theorem rowLt_trans {x y z : Row} (hxy : rowLt x y = true) (hyz : rowLt y z = true) :
    rowLt x z = true := by
  induction x generalizing y z with
  | nil =>
    cases z with
    | nil => simp at hyz
    | cons c cs => rfl
  | cons a as ih =>
    cases y with
    | nil => simp at hxy
    | cons b bs =>
      cases z with
      | nil => simp at hyz
      | cons c cs =>
        simp only [rowLt_cons] at hxy hyz ⊢
        split at hxy <;> split at hyz
        · subst_vars; simpa using ih hxy hyz
        · subst_vars; simp_all
        · subst_vars; simp_all
        · have hab : a < b := by simpa using hxy
          have hbc : b < c := by simpa using hyz
          have hac : a < c := UInt32.lt_trans hab hbc
          simp [hac, UInt32.ne_of_lt hac]

theorem rowLt_trichotomy (x y : Row) : rowLt x y = true ∨ x = y ∨ rowLt y x = true := by
  induction x generalizing y with
  | nil => cases y <;> simp
  | cons a as ih =>
    cases y with
    | nil => simp
    | cons b bs =>
      simp only [rowLt_cons]
      by_cases hab : a = b
      · subst hab
        rcases ih bs with h | h | h <;> simp [h]
      · rcases UInt32.lt_or_lt_of_ne hab with h | h
        · simp [hab, h]
        · simp [Ne.symm hab, h]

/-! ## The automaton as a sorted set of rows -/

/-- A minimal acyclic automaton, as the strictly sorted list of its rows. -/
structure Dafsa where
  /-- The rows, in key order. -/
  keys : List Row
  /-- Enumeration is in strictly increasing key order. -/
  sorted : keys.Pairwise (fun a b => rowLt a b = true)

namespace Dafsa

instance : Membership Row Dafsa := ⟨fun d r => r ∈ d.keys⟩

theorem mem_def (d : Dafsa) (r : Row) : r ∈ d ↔ r ∈ d.keys := Iff.rfl

instance : LawfulBEq Row := inferInstance

instance (d : Dafsa) (r : Row) : Decidable (r ∈ d) :=
  inferInstanceAs (Decidable (r ∈ d.keys))

instance : DecidableEq Dafsa := fun a b =>
  decidable_of_iff (a.keys = b.keys)
    ⟨fun h => by cases a; cases b; simpa using h, fun h => by rw [h]⟩

/-- `dafsa_create`: no rows. -/
def create : Dafsa := ⟨[], List.Pairwise.nil⟩

@[simp] theorem not_mem_create (r : Row) : r ∉ create := by simp [mem_def, create]

/-- **An automaton is determined by its rows.** -/
theorem ext_mem {a b : Dafsa} (h : ∀ r, r ∈ a ↔ r ∈ b) : a = b := by
  have : Std.Irrefl (fun a b : Row => rowLt a b = true) :=
    ⟨fun r => by simp [rowLt_irrefl]⟩
  have : Std.Antisymm (fun a b : Row => rowLt a b = true) :=
    ⟨fun x y hxy hyx => by simpa [rowLt_irrefl] using rowLt_trans hxy hyx⟩
  have hkeys : a.keys = b.keys := a.sorted.eq_of_mem_iff b.sorted h
  cases a; cases b; simpa using hkeys

/-- Sorted insertion, dropping a row that is already there. -/
def insertKey (r : Row) : List Row → List Row
  | [] => [r]
  | k :: ks => if rowLt r k then r :: k :: ks else if r = k then k :: ks else k :: insertKey r ks

theorem mem_insertKey (r x : Row) (ks : List Row) : x ∈ insertKey r ks ↔ x = r ∨ x ∈ ks := by
  induction ks with
  | nil => simp [insertKey]
  | cons k ks ih =>
    simp only [insertKey]
    split
    · simp
    · split
      · subst_vars; simp
      · simp only [List.mem_cons, ih]; tauto

theorem pairwise_insertKey (r : Row) {ks : List Row}
    (h : ks.Pairwise (fun a b => rowLt a b = true)) :
    (insertKey r ks).Pairwise (fun a b => rowLt a b = true) := by
  induction ks with
  | nil => simp [insertKey]
  | cons k ks ih =>
    obtain ⟨hk, hks⟩ := List.pairwise_cons.mp h
    simp only [insertKey]
    split
    · rename_i hrk
      refine List.pairwise_cons.mpr ⟨fun x hx => ?_, h⟩
      rcases List.mem_cons.mp hx with rfl | hx
      · exact hrk
      · exact rowLt_trans hrk (hk x hx)
    · split
      · exact h
      · rename_i hrk hne
        refine List.pairwise_cons.mpr ⟨fun x hx => ?_, ih hks⟩
        rcases (mem_insertKey r x ks).mp hx with rfl | hx
        · rcases rowLt_trichotomy x k with hlt | heq | hgt
          · exact absurd hlt hrk
          · exact absurd heq hne
          · exact hgt
        · exact hk x hx

/-- `dafsa_add_n`: insert one row. -/
def add (d : Dafsa) (r : Row) : Dafsa := ⟨insertKey r d.keys, pairwise_insertKey r d.sorted⟩

/-- `dafsa_delete_n`: remove one row. -/
def delete (d : Dafsa) (r : Row) : Dafsa :=
  ⟨d.keys.filter (fun k => decide (k ≠ r)), d.sorted.filter _⟩

/-- `dafsa_lookup_n`: is the row accepted? -/
def lookup (d : Dafsa) (r : Row) : Bool := decide (r ∈ d.keys)

/-- `dafsa_build_sorted`: an automaton with exactly these rows. -/
def ofRows (rows : List Row) : Dafsa := rows.foldl add create

/-- Rows whose leading columns are `pre`, in key order (`relPrefixD`). -/
def scan (d : Dafsa) (pre : Row) : List Row := d.keys.filter (fun k => pre.isPrefixOf k)

@[simp] theorem mem_add {d : Dafsa} {r x : Row} : x ∈ d.add r ↔ x = r ∨ x ∈ d :=
  mem_insertKey r x d.keys

@[simp] theorem mem_delete {d : Dafsa} {r x : Row} : x ∈ d.delete r ↔ x ∈ d ∧ x ≠ r := by
  simp [mem_def, delete]

@[simp] theorem lookup_iff {d : Dafsa} {r : Row} : d.lookup r = true ↔ r ∈ d := by
  simp [lookup, mem_def]

theorem mem_foldl_add (rows : List Row) (d : Dafsa) (x : Row) :
    x ∈ rows.foldl add d ↔ x ∈ rows ∨ x ∈ d := by
  induction rows generalizing d with
  | nil => simp
  | cons r rows ih => simp only [List.foldl_cons, ih, mem_add, List.mem_cons]; tauto

@[simp] theorem mem_ofRows {rows : List Row} {x : Row} : x ∈ ofRows rows ↔ x ∈ rows := by
  simp [ofRows, mem_foldl_add]

@[simp] theorem mem_scan {d : Dafsa} {pre x : Row} : x ∈ d.scan pre ↔ x ∈ d ∧ pre <+: x := by
  simp [mem_def, scan]

@[simp] theorem scan_nil (d : Dafsa) : d.scan [] = d.keys := by
  simp [scan, List.isPrefixOf]

theorem nodup_keys (d : Dafsa) : d.keys.Nodup :=
  d.sorted.imp (fun {a b} h hab => by subst hab; simp [rowLt_irrefl] at h)

end Dafsa

end DatalogDafsa
