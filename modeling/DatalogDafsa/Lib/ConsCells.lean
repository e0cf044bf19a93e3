import Mathlib

/-!
# Lists in an array of cells

Cells hold an element and the number of the rest of a list; the number `0` is the empty
list, and the cell in place `p` has the number `p + 1`.  As long as the rest of a cell is
older than the cell, each number stands for one list, and as long as no cell is there
twice, each list has one number.  Nothing here is about how a cell is found.

## Main definitions

* `Denotes` — the list of a number.
* `Older` — the rest of each cell is older than the cell.
* `Older.denotes`, `Denotes.unique`, `Denotes.inj` — one list, one number.
* `Denotes.append` — more cells change nothing.
-/

namespace ConsCells

variable {α : Type*} {cells more : List (α × ℕ)} {i j : ℕ} {xs ys : List α}

/-- The list of a number. -/
inductive Denotes (cells : List (α × ℕ)) : ℕ → List α → Prop
  /-- The empty list. -/
  | nil : Denotes cells 0 []
  /-- A cell. -/
  | cons {p j : ℕ} {x : α} {xs : List α} :
      cells[p]? = some (x, j) → Denotes cells j xs → Denotes cells (p + 1) (x :: xs)

/-- The rest of each cell is older than the cell. -/
def Older (cells : List (α × ℕ)) : Prop :=
  ∀ (p : ℕ) (x : α) (j : ℕ), cells[p]? = some (x, j) → j ≤ p

theorem Denotes.le (h : Denotes cells i xs) : i ≤ cells.length := by
  cases h with
  | nil => exact Nat.zero_le _
  | cons hp _ => exact (List.getElem?_eq_some_iff.mp hp).1

/-- A number stands for one list. -/
theorem Denotes.unique (h : Denotes cells i xs) (h' : Denotes cells i ys) : xs = ys := by
  induction h generalizing ys with
  | nil =>
    cases h'
    rfl
  | cons hp _ ih =>
    cases h' with
    | cons hp' h' =>
      rw [hp] at hp'
      cases hp'
      rw [ih h']

/-- A list has one number. -/
theorem Denotes.inj (hnodup : cells.Nodup) (h : Denotes cells i xs) (h' : Denotes cells j xs) :
    i = j := by
  induction h generalizing j with
  | nil =>
    cases h'
    rfl
  | cons hp _ ih =>
    cases h' with
    | cons hp' h' =>
      obtain rfl := ih h'
      obtain ⟨hlt, hget⟩ := List.getElem?_eq_some_iff.mp hp
      obtain ⟨hlt', hget'⟩ := List.getElem?_eq_some_iff.mp hp'
      rw [(List.Nodup.getElem_inj_iff hnodup).mp (hget.trans hget'.symm)]

theorem Denotes.append (h : Denotes cells i xs) (more : List (α × ℕ)) :
    Denotes (cells ++ more) i xs := by
  induction h with
  | nil => exact .nil
  | cons hp _ ih =>
    refine .cons ?_ ih
    rw [List.getElem?_append_left (List.getElem?_eq_some_iff.mp hp).1]
    exact hp

/-- **Each number stands for a list**, which is not longer than the number. -/
theorem Older.denotes (h : Older cells) : ∀ i ≤ cells.length, ∃ xs, Denotes cells i xs ∧
    xs.length ≤ i := by
  intro i
  induction i using Nat.strong_induction_on with
  | _ i ih =>
    intro hi
    cases i with
    | zero => exact ⟨[], .nil, Nat.zero_le _⟩
    | succ p =>
      obtain ⟨⟨x, j⟩, hp⟩ : ∃ c, cells[p]? = some c := ⟨_, List.getElem?_eq_getElem hi⟩
      have hj := h p x j hp
      obtain ⟨xs, hxs, hlen⟩ := ih j (by omega) (by omega)
      exact ⟨x :: xs, .cons hp hxs, by rw [List.length_cons]; omega⟩

end ConsCells
