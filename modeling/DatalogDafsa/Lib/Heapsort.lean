import Mathlib

/-!
# Heapsort in place

An array is a function on indices, of which the first `n` are sorted.  A *heap* has no
cell below its parent smaller than it; `siftDown` restores one that is a heap but for one
cell, the *hole*.  Sorting first makes a heap bottom-up, then moves the root behind the
heap again and again.

The order is a Boolean test, of which only what a comparison by keys provides is asked:
equal keys may belong to different values.

## Main definitions

* `swap`, `siftDown`, `heapify`, `extract`, `heapsort` — the sort.
* `WeakOrder` — the test for less.
* `HeapFrom`, `Hole` — a heap, and a heap but for one cell.
* `Rearranges` — the first cells were permuted.
* `heapsort_rearranges`, `heapsort_sorted` — the sort is one.
-/

namespace Heapsort

variable {α : Type*}

/-! ## The sort -/

/-- Exchange two cells. -/
def swap (a : ℕ → α) (i j : ℕ) : ℕ → α := a ∘ Equiv.swap i j

section Sorting

variable (less : α → α → Bool)

/-- The child of `r` to compare with: the second one when it is larger. -/
def bigChild (a : ℕ → α) (r stop : ℕ) : ℕ :=
  if 2 * r + 1 + 1 < stop && less (a (2 * r + 1)) (a (2 * r + 1 + 1)) then 2 * r + 1 + 1
  else 2 * r + 1

/-- Move the value of cell `r` down to where no child is larger. -/
def siftDown (stop : ℕ) : ℕ → (ℕ → α) → ℕ → ℕ → α
  | 0, a, _ => a
  | fuel + 1, a, r =>
    if stop ≤ 2 * r + 1 then a
    else
      let child := bigChild less a r stop
      if less (a r) (a child) then siftDown stop fuel (swap a r child) child else a

/-- Sift down the cells before `i`, the last one first. -/
def heapify (n : ℕ) : ℕ → (ℕ → α) → ℕ → α
  | 0, a => a
  | i + 1, a => heapify n i (siftDown less n n a i)

/-- Move the root behind the heap while there is more than one cell. -/
def extract : ℕ → (ℕ → α) → ℕ → α
  | 0, a => a
  | 1, a => a
  | stop + 2, a => extract (stop + 1) (siftDown less (stop + 1) (stop + 1) (swap a 0 (stop + 1)) 0)

/-- Sort the first `n` cells. -/
def heapsort (n : ℕ) (a : ℕ → α) : ℕ → α :=
  if n < 2 then a else extract less n (heapify less n (n / 2) a)

end Sorting

/-! ## The cells are permuted -/

/-- The cells before `n` were permuted, the others kept. -/
def Rearranges (n : ℕ) (a b : ℕ → α) : Prop :=
  ∃ σ : Equiv.Perm ℕ, (∀ i, n ≤ i → σ i = i) ∧ b = a ∘ σ

namespace Rearranges

variable {n m : ℕ} {a b c : ℕ → α}

theorem refl (n : ℕ) (a : ℕ → α) : Rearranges n a a := ⟨1, fun _ _ => rfl, rfl⟩

theorem trans (h : Rearranges n a b) (h' : Rearranges n b c) : Rearranges n a c := by
  obtain ⟨σ, hσ, rfl⟩ := h
  obtain ⟨τ, hτ, rfl⟩ := h'
  refine ⟨σ * τ, fun i hi => ?_, rfl⟩
  rw [Equiv.Perm.mul_apply, hτ i hi, hσ i hi]

theorem mono (h : Rearranges n a b) (hnm : n ≤ m) : Rearranges m a b := by
  obtain ⟨σ, hσ, rfl⟩ := h
  exact ⟨σ, fun i hi => hσ i (hnm.trans hi), rfl⟩

theorem swap {i j : ℕ} (a : ℕ → α) (hi : i < n) (hj : j < n) :
    Rearranges n a (swap a i j) :=
  ⟨Equiv.swap i j, fun k hk => Equiv.swap_apply_of_ne_of_ne (by omega) (by omega), rfl⟩

theorem eq_of_le (h : Rearranges n a b) {i : ℕ} (hi : n ≤ i) : b i = a i := by
  obtain ⟨σ, hσ, rfl⟩ := h
  exact congrArg a (hσ i hi)

theorem lt_of_lt {σ : Equiv.Perm ℕ} (hσ : ∀ i, n ≤ i → σ i = i) {i : ℕ} (hi : i < n) :
    σ i < n := by
  by_contra hge
  have := σ.injective (hσ _ (not_lt.mp hge))
  omega

/-- A cell before `n` holds what such a cell held. -/
theorem exists_lt (h : Rearranges n a b) {i : ℕ} (hi : i < n) : ∃ j < n, b i = a j := by
  obtain ⟨σ, hσ, rfl⟩ := h
  exact ⟨σ i, lt_of_lt hσ hi, rfl⟩

/-- The first cells, as a list. -/
theorem perm (h : Rearranges n a b) : ((List.range n).map b).Perm ((List.range n).map a) := by
  obtain ⟨σ, hσ, rfl⟩ := h
  rw [← List.map_map]
  refine List.Perm.map a ?_
  refine (List.perm_ext_iff_of_nodup (List.nodup_range.map σ.injective) List.nodup_range).mpr
    fun i => ?_
  rw [List.mem_map, List.mem_range]
  constructor
  · rintro ⟨j, hj, rfl⟩
    exact lt_of_lt hσ (List.mem_range.mp hj)
  · intro hi
    have hinv : ∀ k, n ≤ k → σ.symm k = k := fun k hk => by
      rw [Equiv.symm_apply_eq, hσ k hk]
    exact ⟨σ.symm i, List.mem_range.mpr (lt_of_lt hinv hi), σ.apply_symm_apply i⟩

end Rearranges

section Permuted

variable (less : α → α → Bool)

theorem le_bigChild (a : ℕ → α) (r stop : ℕ) : 2 * r + 1 ≤ bigChild less a r stop := by
  unfold bigChild
  split <;> omega

variable {less} in
theorem bigChild_lt {a : ℕ → α} {r stop : ℕ} (h : 2 * r + 1 < stop) :
    bigChild less a r stop < stop := by
  unfold bigChild
  split
  · rename_i hc
    simp only [Bool.and_eq_true, decide_eq_true_eq] at hc
    exact hc.1
  · exact h

theorem siftDown_rearranges (stop fuel : ℕ) (a : ℕ → α) (r : ℕ) :
    Rearranges stop a (siftDown less stop fuel a r) := by
  induction fuel generalizing a r with
  | zero => exact .refl _ _
  | succ fuel ih =>
    unfold siftDown
    split
    · exact .refl _ _
    rename_i hchild
    dsimp only
    split
    · have hlt : bigChild less a r stop < stop := bigChild_lt (not_le.mp hchild)
      exact (Rearranges.swap a (by omega) hlt).trans (ih _ _)
    · exact .refl _ _

theorem heapify_rearranges (n i : ℕ) (a : ℕ → α) : Rearranges n a (heapify less n i a) := by
  induction i generalizing a with
  | zero => exact .refl _ _
  | succ i ih => exact (siftDown_rearranges less n n a i).trans (ih _)

theorem extract_rearranges (stop : ℕ) (a : ℕ → α) : Rearranges stop a (extract less stop a) := by
  induction stop using Nat.twoStepInduction generalizing a with
  | zero => exact .refl _ _
  | one => exact .refl _ _
  | more stop _ ih =>
    have hswap : Rearranges (stop + 2) a (swap a 0 (stop + 1)) := .swap a (by omega) (by omega)
    have hsift := siftDown_rearranges less (stop + 1) (stop + 1) (swap a 0 (stop + 1)) 0
    exact (hswap.trans (hsift.mono (by omega))).trans ((ih _).mono (by omega))

/-- **Sorting permutes the cells.** -/
theorem heapsort_rearranges (n : ℕ) (a : ℕ → α) : Rearranges n a (heapsort less n a) := by
  unfold heapsort
  split
  · exact .refl _ _
  · exact (heapify_rearranges less n (n / 2) a).trans (extract_rearranges less n _)

end Permuted

/-! ## Heaps -/

/-- A test for less: no two values are less than each other, and not being less is
transitive. -/
structure WeakOrder (less : α → α → Bool) : Prop where
  /-- Of two values one is not less. -/
  asymm : ∀ x y, less x y = true → less y x = false
  /-- Not being less is transitive. -/
  trans : ∀ x y z, less x y = false → less y z = false → less x z = false

/-- `c` is a child of `p`. -/
def IsChild (c p : ℕ) : Prop := c = 2 * p + 1 ∨ c = 2 * p + 2

theorem IsChild.lt {c p : ℕ} (h : IsChild c p) : p < c := by
  unfold IsChild at h
  omega

theorem IsChild.unique {c p q : ℕ} (h : IsChild c p) (h' : IsChild c q) : p = q := by
  unfold IsChild at h h'
  omega

variable {less : α → α → Bool}

/-- No cell is smaller than a child, from cell `lo` on. -/
def HeapFrom (less : α → α → Bool) (lo stop : ℕ) (a : ℕ → α) : Prop :=
  ∀ p, lo ≤ p → ∀ c, IsChild c p → c < stop → less (a p) (a c) = false

/-- A heap but for cell `r`, whose value may be too small. -/
structure Hole (less : α → α → Bool) (lo stop : ℕ) (a : ℕ → α) (r : ℕ) : Prop where
  /-- The hole is in the heap. -/
  le : lo ≤ r
  /-- The other cells are no smaller than their children. -/
  except : ∀ p, lo ≤ p → p ≠ r → ∀ c, IsChild c p → c < stop → less (a p) (a c) = false
  /-- The parent of the hole is no smaller than its children. -/
  grand : ∀ p, lo ≤ p → IsChild r p → ∀ c, IsChild c r → c < stop → less (a p) (a c) = false

theorem swap_left (a : ℕ → α) (i j : ℕ) : swap a i j i = a j :=
  congrArg a (Equiv.swap_apply_left i j)

theorem swap_right (a : ℕ → α) (i j : ℕ) : swap a i j j = a i :=
  congrArg a (Equiv.swap_apply_right i j)

theorem swap_of_ne (a : ℕ → α) {i j k : ℕ} (hi : k ≠ i) (hj : k ≠ j) : swap a i j k = a k :=
  congrArg a (Equiv.swap_apply_of_ne_of_ne hi hj)

variable (less) in
theorem isChild_bigChild (a : ℕ → α) (r stop : ℕ) : IsChild (bigChild less a r stop) r := by
  unfold bigChild IsChild
  split <;> omega

/-- No child is larger than the one that is compared with. -/
theorem bigChild_max (hw : WeakOrder less) {a : ℕ → α} {r stop c : ℕ} (hc : IsChild c r)
    (hlt : c < stop) : less (a (bigChild less a r stop)) (a c) = false := by
  have hirrefl : ∀ x, less x x = false := fun x => by
    cases hx : less x x with
    | false => rfl
    | true => rw [← hw.asymm x x hx, hx]
  unfold bigChild
  split
  · rename_i hbig
    simp only [Bool.and_eq_true, decide_eq_true_eq] at hbig
    rcases hc with rfl | rfl
    · exact hw.asymm _ _ hbig.2
    · exact hirrefl _
  · rename_i hbig
    rcases hc with rfl | rfl
    · exact hirrefl _
    · cases hl : less (a (2 * r + 1)) (a (2 * r + 2)) with
      | false => rfl
      | true =>
        refine absurd ?_ hbig
        rw [Bool.and_eq_true, decide_eq_true_eq]
        exact ⟨hlt, hl⟩

/-- The hole moves to the larger child. -/
theorem Hole.move (hw : WeakOrder less) {lo stop r : ℕ} {a : ℕ → α} (h : Hole less lo stop a r)
    (hchild : 2 * r + 1 < stop) (hless : less (a r) (a (bigChild less a r stop)) = true) :
    Hole less lo stop (swap a r (bigChild less a r stop)) (bigChild less a r stop) := by
  have hm := isChild_bigChild less a r stop
  have hmax : ∀ c, IsChild c r → c < stop → less (a (bigChild less a r stop)) (a c) = false :=
    fun c hc hlt => bigChild_max hw hc hlt
  have hlt : bigChild less a r stop < stop := bigChild_lt hchild
  generalize bigChild less a r stop = m at hm hmax hlt hless ⊢
  have hrm := hm.lt
  refine ⟨by have := h.le; omega, ?_, ?_⟩
  · intro p hp hpm c hc hcs
    by_cases hpr : p = r
    · subst hpr
      rw [swap_left]
      by_cases hcm : c = m
      · rw [hcm, swap_right]
        exact hw.asymm _ _ hless
      · rw [swap_of_ne a (by have := hc.lt; omega) hcm]
        exact hmax c hc hcs
    · rw [swap_of_ne a hpr hpm]
      have hcm : c ≠ m := fun heq => hpr (hc.unique (heq ▸ hm))
      by_cases hcr : c = r
      · subst hcr
        rw [swap_left]
        exact h.grand p hp hc m hm hlt
      · rw [swap_of_ne a hcr hcm]
        exact h.except p hp hpr c hc hcs
  · intro p _ hmp c hc hcs
    obtain rfl := hm.unique hmp
    have := hc.lt
    rw [swap_left, swap_of_ne a (by omega) (by omega)]
    exact h.except m (by have := h.le; omega) (by omega) c hc hcs

/-- A hole whose value is not smaller than a child is none. -/
theorem Hole.close {lo stop r : ℕ} {a : ℕ → α} (h : Hole less lo stop a r)
    (hr : ∀ c, IsChild c r → c < stop → less (a r) (a c) = false) : HeapFrom less lo stop a := by
  intro p hp c hc hcs
  by_cases hpr : p = r
  · subst hpr
    exact hr c hc hcs
  · exact h.except p hp hpr c hc hcs

/-- **Sifting down fills the hole.** -/
theorem siftDown_heap (hw : WeakOrder less) {lo stop fuel r : ℕ} {a : ℕ → α}
    (h : Hole less lo stop a r) (hfuel : stop ≤ r + fuel) :
    HeapFrom less lo stop (siftDown less stop fuel a r) := by
  induction fuel generalizing a r with
  | zero =>
    refine h.close fun c hc hcs => ?_
    have := hc.lt
    omega
  | succ fuel ih =>
    unfold siftDown
    split
    · refine h.close fun c hc hcs => ?_
      unfold IsChild at hc
      omega
    rename_i hchild
    have hbig := le_bigChild less a r stop
    dsimp only
    split
    · rename_i hless
      exact ih (h.move hw (by omega) hless) (by omega)
    · rename_i hless
      refine h.close fun c hc hcs => ?_
      exact hw.trans _ _ _ (Bool.not_eq_true _ ▸ hless) (bigChild_max hw hc hcs)

/-- One more cell joins the heap. -/
theorem HeapFrom.hole {n i : ℕ} {a : ℕ → α} (h : HeapFrom less (i + 1) n a) :
    Hole less i n a i where
  le := le_rfl
  except p hp hpi := h p (by omega)
  grand p hp hc := by
    have := hc.lt
    omega

theorem heapify_heap (hw : WeakOrder less) {n i : ℕ} {a : ℕ → α} (h : HeapFrom less i n a) :
    HeapFrom less 0 n (heapify less n i a) := by
  induction i generalizing a with
  | zero => exact h
  | succ i ih => exact ih (siftDown_heap hw h.hole (by omega))

/-- The root is the largest. -/
theorem HeapFrom.root_max (hw : WeakOrder less) {stop : ℕ} {a : ℕ → α}
    (h : HeapFrom less 0 stop a) {i : ℕ} (hi : i < stop) : less (a 0) (a i) = false := by
  induction i using Nat.strongRecOn with
  | ind i ih =>
    by_cases hpos : i = 0
    · subst hpos
      cases hx : less (a 0) (a 0) with
      | false => rfl
      | true => rw [← hw.asymm _ _ hx, hx]
    · have hc : IsChild i ((i - 1) / 2) := by
        unfold IsChild
        omega
      exact hw.trans _ _ _ (ih _ hc.lt (by omega)) (h _ (Nat.zero_le _) i hc hi)

/-! ## Sorted -/

/-- From cell `lo` on no cell is smaller than one before it. -/
def SortedFrom (less : α → α → Bool) (lo n : ℕ) (a : ℕ → α) : Prop :=
  ∀ j, lo ≤ j → j < n → ∀ i < j, less (a j) (a i) = false

/-- Permuting the cells before `lo` keeps the rest sorted. -/
theorem SortedFrom.rearranges {lo n : ℕ} {a b : ℕ → α} (h : SortedFrom less lo n a)
    (hab : Rearranges lo a b) : SortedFrom less lo n b := by
  intro j hj hjn i hi
  rw [hab.eq_of_le hj]
  rcases lt_or_ge i lo with hlo | hlo
  · obtain ⟨k, hk, hik⟩ := hab.exists_lt hlo
    rw [hik]
    exact h j hj hjn k (by omega)
  · rw [hab.eq_of_le hlo]
    exact h j hj hjn i hi

/-- The root of the heap is put in front of what is sorted. -/
theorem SortedFrom.root (hw : WeakOrder less) {stop n : ℕ} {a : ℕ → α}
    (hheap : HeapFrom less 0 (stop + 1) a) (h : SortedFrom less (stop + 1) n a) :
    SortedFrom less stop n (swap a 0 stop) := by
  have hsorted := h.rearranges (Rearranges.swap a (Nat.succ_pos stop) (Nat.lt_succ_self stop))
  intro j hj hjn i hi
  rcases Nat.eq_or_lt_of_le hj with rfl | hlt
  · rw [swap_right]
    obtain ⟨k, hk, hik⟩ := (Rearranges.swap a (Nat.succ_pos stop)
      (Nat.lt_succ_self stop)).exists_lt (Nat.lt_succ_of_lt hi)
    rw [hik]
    exact hheap.root_max hw hk
  · exact hsorted j hlt hjn i hi

theorem extract_sorted (hw : WeakOrder less) {stop n : ℕ} {a : ℕ → α}
    (hheap : HeapFrom less 0 stop a) (h : SortedFrom less stop n a) :
    SortedFrom less 0 n (extract less stop a) := by
  induction stop using Nat.twoStepInduction generalizing a with
  | zero => exact h
  | one =>
    intro j _ hjn i hi
    exact h j (by omega) hjn i hi
  | more stop _ ih =>
    have hroot := SortedFrom.root hw hheap h
    have hsift := siftDown_rearranges less (stop + 1) (stop + 1) (swap a 0 (stop + 1)) 0
    refine ih (siftDown_heap hw ?_ (by omega)) (hroot.rearranges hsift)
    refine ⟨le_rfl, fun p _ hp c hc hcs => ?_, fun p _ hp => absurd hp.lt (Nat.not_lt_zero p)⟩
    have := hc.lt
    rw [swap_of_ne a hp (by omega), swap_of_ne a (by omega) (by omega)]
    exact hheap p (Nat.zero_le p) c hc (by omega)

/-- **Sorted cells do not decrease.** -/
theorem heapsort_sorted (hw : WeakOrder less) (n : ℕ) (a : ℕ → α) :
    SortedFrom less 0 n (heapsort less n a) := by
  unfold heapsort
  split
  · intro j _ hjn i hi
    omega
  · refine extract_sorted hw (heapify_heap hw fun p hp c hc hcs => ?_) fun j hj hjn => ?_
    · unfold IsChild at hc
      omega
    · omega

end Heapsort
