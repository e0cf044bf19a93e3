import DatalogDafsa.Dafsa

/-!
# Tuple sets

A tuple set is the in-memory set the fixpoint driver works on: rows in insertion
order, each at most once (a hash index is the authority on uniqueness, and the
model keeps what it decides as the field `nodup`), sorted only when `tsSort` is
called.  `tsPrefix` finds the rows with given leading columns by binary search,
so it is right on a *sorted* array only; `tsPrefix_eq_filter` says so.

## Main definitions

* `TupleSet`, `tsAdd`, `tsContains`, `tsSort`, `tsReset`.
* `lowerBound`, `tsPrefix` — the binary search with its two walks.
* `prefix_search`, `tsPrefix_eq_filter` — on a sorted array the result is the matching rows.
-/

namespace DatalogDafsa

/-- `tuple_set`: rows of one arity, without repetitions. -/
structure TupleSet where
  /-- The arity the rows were added at; `0` for a set that was never initialised. -/
  arity : ℕ
  /-- The rows, in the order of the data array. -/
  rows : List Row
  /-- `ts_add` rejects a row that is already there. -/
  nodup : rows.Nodup

namespace TupleSet

/-- `ts_init`. -/
def init (arity : ℕ) : TupleSet := ⟨arity, [], List.nodup_nil⟩

/-- `ts_contains`. -/
def contains (ts : TupleSet) (r : Row) : Bool := decide (r ∈ ts.rows)

/-- `ts_add`: append a row that is not there yet. -/
def add (ts : TupleSet) (r : Row) : TupleSet :=
  if h : r ∈ ts.rows then ts
  else ⟨ts.arity, ts.rows ++ [r], by
    refine List.nodup_append.mpr ⟨ts.nodup, List.nodup_singleton r, fun x hx y hy hxy => h ?_⟩
    rwa [← List.mem_singleton.mp hy, ← hxy]⟩

/-- `ts_add` for each row of a list. -/
def addAll (ts : TupleSet) (rs : List Row) : TupleSet := rs.foldl add ts

/-- `ts_sort`: the rows in key order. -/
def sort (ts : TupleSet) : TupleSet :=
  ⟨ts.arity, (Dafsa.ofRows ts.rows).keys, (Dafsa.ofRows ts.rows).nodup_keys⟩

/-- `ts_reset`: drop the rows, keep the arity. -/
def reset (ts : TupleSet) : TupleSet := ⟨ts.arity, [], List.nodup_nil⟩

/-- The data array is in key order. -/
def Sorted (ts : TupleSet) : Prop := ts.rows.Pairwise (fun a b => rowLt a b = true)

@[simp] theorem rows_init (n : ℕ) : (init n).rows = [] := rfl
@[simp] theorem arity_init (n : ℕ) : (init n).arity = n := rfl
@[simp] theorem rows_reset (ts : TupleSet) : ts.reset.rows = [] := rfl
@[simp] theorem arity_reset (ts : TupleSet) : ts.reset.arity = ts.arity := rfl
@[simp] theorem arity_sort (ts : TupleSet) : ts.sort.arity = ts.arity := rfl

@[simp] theorem contains_iff {ts : TupleSet} {r : Row} : ts.contains r = true ↔ r ∈ ts.rows := by
  simp [contains]

@[simp] theorem mem_rows_add {ts : TupleSet} {r x : Row} :
    x ∈ (ts.add r).rows ↔ x ∈ ts.rows ∨ x = r := by
  unfold add
  split
  · rename_i h
    exact ⟨Or.inl, fun hx => hx.elim id (fun e => e ▸ h)⟩
  · simp

@[simp] theorem arity_add (ts : TupleSet) (r : Row) : (ts.add r).arity = ts.arity := by
  unfold add; split <;> rfl

@[simp] theorem mem_rows_addAll {ts : TupleSet} {rs : List Row} {x : Row} :
    x ∈ (ts.addAll rs).rows ↔ x ∈ ts.rows ∨ x ∈ rs := by
  induction rs generalizing ts with
  | nil => simp [addAll]
  | cons r rs ih =>
    have h := @ih (ts.add r)
    simp only [addAll, List.foldl_cons, mem_rows_add, List.mem_cons] at h ⊢
    rw [h, or_assoc]

@[simp] theorem arity_addAll (ts : TupleSet) (rs : List Row) :
    (ts.addAll rs).arity = ts.arity := by
  induction rs generalizing ts with
  | nil => rfl
  | cons r rs ih => exact (ih (ts.add r)).trans (arity_add ts r)

@[simp] theorem mem_rows_sort {ts : TupleSet} {x : Row} : x ∈ ts.sort.rows ↔ x ∈ ts.rows :=
  Dafsa.mem_ofRows

theorem sorted_sort (ts : TupleSet) : ts.sort.Sorted := (Dafsa.ofRows ts.rows).sorted

theorem sorted_init (n : ℕ) : (init n).Sorted := List.Pairwise.nil

end TupleSet

/-! ## The binary search of `ts_prefix` -/

/-- Compare the leading columns of a row with a bound prefix, column by column. -/
def cmpCols : Row → Row → Ordering
  | _, [] => .eq
  | [], _ :: _ => .lt
  | a :: as, b :: bs => if a < b then .lt else if b < a then .gt else cmpCols as bs

theorem cmpCols_eq_iff (r p : Row) : cmpCols r p = .eq ↔ p <+: r := by
  induction p generalizing r with
  | nil => cases r <;> simp [cmpCols]
  | cons b bs ih =>
    cases r with
    | nil => simp [cmpCols]
    | cons a as =>
      simp only [cmpCols, List.cons_prefix_cons]
      split
      · rename_i h; simp [Ne.symm (UInt32.ne_of_lt h)]
      · split
        · rename_i h; simp [UInt32.ne_of_lt h]
        · rename_i h h'
          have hab : b = a := UInt32.le_antisymm (UInt32.not_lt.mp h) (UInt32.not_lt.mp h')
          simp [hab, ih]

/-- A row before one that compares low compares low. -/
theorem cmpCols_lt_of_rowLt {x y p : Row} (hxy : rowLt x y = true) (hy : cmpCols y p = .lt) :
    cmpCols x p = .lt := by
  induction p generalizing x y with
  | nil => simp [cmpCols] at hy
  | cons b bs ih =>
    cases x with
    | nil => rfl
    | cons a as =>
      cases y with
      | nil => simp at hxy
      | cons c cs =>
        simp only [rowLt_cons, cmpCols] at hxy hy ⊢
        grind

/-- A row after one that compares high compares high. -/
theorem cmpCols_gt_of_rowLt {x y p : Row} (hxy : rowLt x y = true) (hx : cmpCols x p = .gt) :
    cmpCols y p = .gt := by
  induction p generalizing x y with
  | nil => simp [cmpCols] at hx
  | cons b bs ih =>
    cases x with
    | nil => simp [cmpCols] at hx
    | cons a as =>
      cases y with
      | nil => simp at hxy
      | cons c cs =>
        simp only [rowLt_cons, cmpCols] at hxy hx ⊢
        grind

/-- The loop that narrows `[lo, hi)` to the first row not below the prefix. -/
def lowerBound (rows : List Row) (p : Row) : ℕ → ℕ → ℕ → ℕ
  | 0, lo, _ => lo
  | fuel + 1, lo, hi =>
    if lo < hi then
      let mid := lo + (hi - lo) / 2
      if cmpCols (rows.getD mid []) p = .lt then lowerBound rows p fuel (mid + 1) hi
      else lowerBound rows p fuel lo mid
    else lo

/-- The backward walk from `lo` while the row before still matches. -/
def walkBack (rows : List Row) (p : Row) : ℕ → ℕ
  | 0 => 0
  | first + 1 =>
    if cmpCols (rows.getD first []) p = .eq then walkBack rows p first else first + 1

/-- `ts_prefix`, with the slice of the data array it reports. -/
def tsPrefix (rows : List Row) (p : Row) : List Row :=
  let lo := lowerBound rows p rows.length 0 rows.length
  if rows.length ≤ lo then []
  else if cmpCols (rows.getD lo []) p ≠ .eq then []
  else
    let first := walkBack rows p lo
    (rows.drop first).take
      (lo - first + ((rows.drop lo).takeWhile (fun r => cmpCols r p = .eq)).length)

/-- The search stops at the boundary between the low rows and the others. -/
theorem lowerBound_eq {rows : List Row} {p : Row} {b : ℕ}
    (hlow : ∀ i < b, cmpCols (rows.getD i []) p = .lt)
    (hhigh : ∀ i, b ≤ i → i < rows.length → cmpCols (rows.getD i []) p ≠ .lt)
    (fuel lo hi : ℕ) (hfuel : hi - lo ≤ fuel) (hlo : lo ≤ b) (hb : b ≤ hi)
    (hhi : hi ≤ rows.length) : lowerBound rows p fuel lo hi = b := by
  induction fuel generalizing lo hi with
  | zero => simp only [lowerBound]; omega
  | succ fuel ih =>
    simp only [lowerBound]
    split
    · rename_i hlt
      split
      · rename_i hmid
        refine ih _ _ (by omega) ?_ hb hhi
        by_contra hcon
        exact hhigh _ (by omega) (by omega) hmid
      · rename_i hmid
        refine ih _ _ (by omega) hlo ?_ (by omega)
        by_contra hcon
        exact hmid (hlow _ (by omega))
    · omega

/-- A sorted array is its low rows, then its matching rows, then its high rows. -/
theorem sorted_split {rows : List Row} (p : Row)
    (hs : rows.Pairwise (fun a b => rowLt a b = true)) :
    ∃ l m h, rows = l ++ m ++ h ∧ (∀ r ∈ l, cmpCols r p = .lt) ∧
      (∀ r ∈ m, cmpCols r p = .eq) ∧ (∀ r ∈ h, cmpCols r p = .gt) := by
  induction rows with
  | nil => exact ⟨[], [], [], by simp⟩
  | cons x rows ih =>
    obtain ⟨hx, hs'⟩ := List.pairwise_cons.mp hs
    obtain ⟨l, m, h, rfl, hl, hm, hh⟩ := ih hs'
    match hc : cmpCols x p with
    | .lt => exact ⟨x :: l, m, h, by simp, by simpa [hc] using hl, hm, hh⟩
    | .eq =>
      have hl0 : l = [] := List.eq_nil_iff_forall_not_mem.mpr fun r hr => by
        have := cmpCols_lt_of_rowLt (hx r (by simp [hr])) (hl r hr)
        simp [hc] at this
      subst hl0
      exact ⟨[], x :: m, h, by simp, by simp, by simpa [hc] using hm, hh⟩
    | .gt =>
      have hgt : ∀ r ∈ l ++ m ++ h, cmpCols r p = .gt := fun r hr =>
        cmpCols_gt_of_rowLt (hx r hr) hc
      have hl0 : l = [] := List.eq_nil_iff_forall_not_mem.mpr fun r hr => by
        simpa [hl r hr] using hgt r (by simp [hr])
      have hm0 : m = [] := List.eq_nil_iff_forall_not_mem.mpr fun r hr => by
        simpa [hm r hr] using hgt r (by simp [hr])
      subst hl0; subst hm0
      exact ⟨[], [], x :: h, by simp, by simp, by simp, by simpa [hc] using hh⟩

/-- **What the search finds in a sorted array**: the boundary before the matching rows. -/
theorem prefix_search {rows : List Row} (p : Row)
    (hs : rows.Pairwise (fun a b => rowLt a b = true)) :
    ∃ l m h, rows = l ++ m ++ h ∧ (∀ r ∈ l, cmpCols r p = .lt) ∧ (∀ r ∈ m, cmpCols r p = .eq) ∧
      (∀ r ∈ h, cmpCols r p = .gt) ∧ lowerBound rows p rows.length 0 rows.length = l.length ∧
      walkBack rows p l.length = l.length ∧
      (rows.drop l.length).takeWhile (fun r => cmpCols r p = .eq) = m := by
  obtain ⟨l, m, h, rfl, hl, hm, hh⟩ := sorted_split p hs
  have hlow : ∀ i < l.length, cmpCols ((l ++ m ++ h).getD i []) p = .lt := fun i hi => by
    have hget : (l ++ m ++ h).getD i [] = l[i] := by
      simp [List.append_assoc, List.getElem?_append_left hi, hi]
    rw [hget]
    exact hl _ (List.getElem_mem hi)
  have hge : ∀ i, l.length ≤ i → i < (l ++ m ++ h).length →
      cmpCols ((l ++ m ++ h).getD i []) p ≠ .lt := fun i hi hlt => by
    have hlt' : i - l.length < (m ++ h).length := by simp at hlt ⊢; omega
    have hget : (l ++ m ++ h).getD i [] = (m ++ h)[i - l.length] := by
      rw [List.append_assoc, List.getD_eq_getElem?_getD, List.getElem?_append_right hi,
        List.getElem?_eq_getElem hlt', Option.getD_some]
    rw [hget]
    rcases List.mem_append.mp (List.getElem_mem hlt') with hmem | hmem
    · simp [hm _ hmem]
    · simp [hh _ hmem]
  refine ⟨l, m, h, rfl, hl, hm, hh, ?_, ?_, ?_⟩
  · exact lowerBound_eq hlow hge _ _ _ (by omega) (by omega) (by simp) le_rfl
  · cases hlen : l.length with
    | zero => rfl
    | succ n =>
      have hn := hlow n (by omega)
      rw [walkBack, hn, if_neg (by decide)]
  · rw [List.append_assoc, List.drop_left, List.takeWhile_append_of_pos (by simpa using hm)]
    cases h with
    | nil => simp
    | cons y ys => simp [hh y (by simp)]

/-- **On a sorted array `ts_prefix` reports exactly the rows with the prefix.** -/
theorem tsPrefix_eq_filter {rows : List Row} (p : Row)
    (hs : rows.Pairwise (fun a b => rowLt a b = true)) :
    tsPrefix rows p = rows.filter (fun r => p.isPrefixOf r) := by
  obtain ⟨l, m, h, rfl, hl, hm, hh, hlo, hback, htake⟩ := prefix_search p hs
  have hpre : ∀ r, p.isPrefixOf r = true ↔ cmpCols r p = .eq := fun r => by
    rw [cmpCols_eq_iff, List.isPrefixOf_iff_prefix]
  have hfilter : (l ++ m ++ h).filter (fun r => p.isPrefixOf r) = m := by
    rw [List.filter_append, List.filter_append,
      List.filter_eq_nil_iff.mpr fun r hr => by simp [hpre, hl r hr],
      List.filter_eq_self.mpr fun r hr => by simp [hpre, hm r hr],
      List.filter_eq_nil_iff.mpr fun r hr => by simp [hpre, hh r hr]]
    simp
  simp only [tsPrefix, hlo, hback, htake, hfilter]
  split
  · rename_i hlen
    have hm0 : m = [] := List.length_eq_zero_iff.mp (by
      simp only [List.length_append] at hlen; omega)
    simp [hm0]
  · rename_i hlen
    cases m with
    | nil =>
      cases h with
      | nil => simp at hlen
      | cons y ys => simp [hh y (by simp)]
    | cons y ys => simp [hm y (by simp)]

end DatalogDafsa
