import Mathlib

/-!
# Order statistics of a set kept as a sorted list

A finite set over a strict order, kept as the strictly increasing list of its
elements, answers two questions that the set alone states without the list: how
many elements lie below a value, and which element has exactly `k` below it.

## Main definitions

* `OrderStat.below` — the elements of a set below a value.
* `OrderStat.IsNth` — being the element with `k` elements below it.
* `OrderStat.rank`, `OrderStat.rangeCount` — the counts, on the list.
* `OrderStat.getElem?_eq_some_iff`, `OrderStat.getElem?_eq_none_iff` — the `k`-th
  entry of the list is the `k`-th element of the set.
-/

namespace OrderStat

variable {α : Type*} (lt : α → α → Prop)

/-- The elements of a set below a value. -/
def below (S : Set α) (x : α) : Set α := {y | y ∈ S ∧ lt y x}

/-- The element of a set with exactly `k` others below it. -/
def IsNth (S : Set α) (k : ℕ) (x : α) : Prop := x ∈ S ∧ (below lt S x).ncard = k

section Lists

variable [DecidableRel lt] {l : List α}

/-- The number of entries below a value. -/
def rank (l : List α) (x : α) : ℕ := l.countP fun y => decide (lt y x)

/-- The number of entries in a half-open range. -/
def rangeCount (l : List α) (lo hi : α) : ℕ :=
  l.countP fun y => decide (¬ lt y lo) && decide (lt y hi)

variable {lt}

/-- Counting in a list without repetitions is counting in its set. -/
theorem ncard_eq_countP (hl : l.Nodup) (p : α → Bool) {S : Set α}
    (hS : ∀ y, y ∈ S ↔ y ∈ l ∧ p y = true) : S.ncard = l.countP p := by
  classical
  have hset : S = ((l.filter p).toFinset : Set α) := by
    ext y
    simp [hS]
  rw [hset, Set.ncard_coe_finset, List.toFinset_card_of_nodup (hl.filter p),
    List.countP_eq_length_filter]

theorem ncard_eq_length (hl : l.Nodup) {S : Set α} (hS : ∀ y, y ∈ S ↔ y ∈ l) :
    S.ncard = l.length := by
  rw [ncard_eq_countP hl (fun _ => true) (by simpa using hS), List.countP_true]

/-- **The rank is the number of elements below.** -/
theorem ncard_below (hl : l.Nodup) {S : Set α} (hS : ∀ y, y ∈ S ↔ y ∈ l) (x : α) :
    (below lt S x).ncard = rank lt l x :=
  ncard_eq_countP hl _ fun y => by simp [below, hS]

/-- **The range count is the number of elements in the range.** -/
theorem ncard_range (hl : l.Nodup) {S : Set α} (hS : ∀ y, y ∈ S ↔ y ∈ l) (lo hi : α) :
    {y | y ∈ S ∧ ¬ lt y lo ∧ lt y hi}.ncard = rangeCount lt l lo hi :=
  ncard_eq_countP hl _ fun y => by simp [hS]

/-- A rank is kept by a map that keeps and reflects the order. -/
theorem rank_map {β : Type*} {lt' : β → β → Prop} [DecidableRel lt'] {f : β → α}
    (hf : ∀ a b, lt (f a) (f b) ↔ lt' a b) (l : List β) (x : β) :
    rank lt (l.map f) (f x) = rank lt' l x := by
  rw [rank, rank, List.countP_map]
  refine List.countP_congr fun y _ => ?_
  simp [hf]

/-- So is a range count. -/
theorem rangeCount_map {β : Type*} {lt' : β → β → Prop} [DecidableRel lt'] {f : β → α}
    (hf : ∀ a b, lt (f a) (f b) ↔ lt' a b) (l : List β) (lo hi : β) :
    rangeCount lt (l.map f) (f lo) (f hi) = rangeCount lt' l lo hi := by
  rw [rangeCount, rangeCount, List.countP_map]
  refine List.countP_congr fun y _ => ?_
  simp [hf]

variable [Std.Irrefl lt] [IsTrans α lt]

omit [DecidableRel lt] [IsTrans α lt] in
theorem nodup_of_sorted (h : l.Pairwise lt) : l.Nodup := by
  refine h.imp fun {a b} hab heq => ?_
  subst heq
  exact Std.Irrefl.irrefl a hab

/-- The entry at position `k` has `k` entries below it. -/
theorem rank_getElem (h : l.Pairwise lt) {k : ℕ} {x : α} (hx : l[k]? = some x) :
    rank lt l x = k := by
  induction l generalizing k with
  | nil => simp at hx
  | cons a l ih =>
    obtain ⟨ha, hl⟩ := List.pairwise_cons.mp h
    cases k with
    | zero =>
      obtain rfl : a = x := by simpa using hx
      have hself : ¬ lt a a := Std.Irrefl.irrefl a
      have hrest : ∀ y ∈ l, ¬ lt y a := fun y hy hlt => hself (IsTrans.trans a y a (ha y hy) hlt)
      rw [rank, List.countP_eq_zero]
      intro y hy
      rcases List.mem_cons.mp hy with rfl | hy
      · simp [hself]
      · simp [hrest y hy]
    | succ k =>
      have hx' : l[k]? = some x := by simpa using hx
      have hax : lt a x := ha x (List.mem_of_getElem? hx')
      have hcount := ih hl hx'
      rw [rank] at hcount ⊢
      rw [List.countP_cons_of_pos (by simpa using hax), hcount]

/-- **The entry at position `k` is the `k`-th element.** -/
theorem getElem?_eq_some_iff (h : l.Pairwise lt) {S : Set α} (hS : ∀ y, y ∈ S ↔ y ∈ l)
    {k : ℕ} {x : α} : l[k]? = some x ↔ IsNth lt S k x := by
  rw [IsNth, ncard_below (nodup_of_sorted h) hS, hS]
  constructor
  · intro hx
    exact ⟨List.mem_of_getElem? hx, rank_getElem h hx⟩
  · rintro ⟨hmem, hrank⟩
    obtain ⟨i, hi⟩ := List.mem_iff_getElem?.mp hmem
    rwa [← hrank, rank_getElem h hi]

omit [DecidableRel lt] [IsTrans α lt] in
/-- There is no entry at a position past the number of elements. -/
theorem getElem?_eq_none_iff (h : l.Pairwise lt) {S : Set α} (hS : ∀ y, y ∈ S ↔ y ∈ l)
    {k : ℕ} : l[k]? = none ↔ S.ncard ≤ k := by
  rw [ncard_eq_length (nodup_of_sorted h) hS, List.getElem?_eq_none_iff]

end Lists

end OrderStat
