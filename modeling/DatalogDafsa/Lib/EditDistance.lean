import Mathlib

/-!
# Edit distance

The edit distance of two lists is the least number of insertions, deletions and
substitutions that turn one into the other.  It is computed here along the fronts of
the lists; the usual dynamic program runs along their ends, one row of prefixes for
each element read, so the file also gives the recursion at the ends.

## Main definitions

* `Edits` — edit scripts, with their number of edits.
* `editDist` — the distance, `editDist_le_iff` its meaning.
* `editDist_reverse`, `editDist_snoc_snoc` — the recursion at the ends.
* `distRow` — the distances from every prefix, as the dynamic program keeps them.
* `Far` — every prefix is too far away; it stays so (`Far.snoc`).
-/

namespace EditDistance

variable {α : Type*} [DecidableEq α]

/-- `ys` is made from `xs` with so many edits. -/
inductive Edits : List α → List α → ℕ → Prop
  /-- Nothing to do. -/
  | nil : Edits [] [] 0
  /-- Keep an element. -/
  | keep {xs ys : List α} {n : ℕ} (x : α) (h : Edits xs ys n) : Edits (x :: xs) (x :: ys) n
  /-- Replace an element. -/
  | subst {xs ys : List α} {n : ℕ} (x y : α) (h : Edits xs ys n) :
      Edits (x :: xs) (y :: ys) (n + 1)
  /-- Delete an element. -/
  | del {xs ys : List α} {n : ℕ} (x : α) (h : Edits xs ys n) : Edits (x :: xs) ys (n + 1)
  /-- Insert an element. -/
  | ins {xs ys : List α} {n : ℕ} (y : α) (h : Edits xs ys n) : Edits xs (y :: ys) (n + 1)

/-- What replacing `x` by `y` costs. -/
def cost (x y : α) : ℕ := if x = y then 0 else 1

/-- Distances from `x :: xs`, given those from `xs` and the length of `xs`. -/
def editCol (x : α) (prev : List α → ℕ) (n : ℕ) : List α → ℕ
  | [] => n + 1
  | y :: ys => min (min (prev (y :: ys) + 1) (editCol x prev n ys + 1)) (prev ys + cost x y)

/-- The edit distance. -/
def editDist : List α → List α → ℕ
  | [], ys => ys.length
  | x :: xs, ys => editCol x (editDist xs) xs.length ys

@[simp] theorem editDist_nil_left (ys : List α) : editDist [] ys = ys.length := rfl

@[simp] theorem editDist_nil_right (xs : List α) : editDist xs [] = xs.length := by
  cases xs <;> rfl

theorem editDist_cons_cons (x y : α) (xs ys : List α) :
    editDist (x :: xs) (y :: ys) =
      min (min (editDist xs (y :: ys) + 1) (editDist (x :: xs) ys + 1))
        (editDist xs ys + cost x y) := rfl

theorem editDist_del_le (x : α) (xs ys : List α) : editDist (x :: xs) ys ≤ editDist xs ys + 1 := by
  cases ys with
  | nil => simp
  | cons y ys =>
    rw [editDist_cons_cons]
    omega

theorem editDist_ins_le (y : α) (xs ys : List α) : editDist xs (y :: ys) ≤ editDist xs ys + 1 := by
  cases xs with
  | nil => simp
  | cons x xs =>
    rw [editDist_cons_cons]
    omega

/-- The distance is reached. -/
theorem edits_editDist (xs ys : List α) : Edits xs ys (editDist xs ys) := by
  induction xs generalizing ys with
  | nil =>
    induction ys with
    | nil => exact .nil
    | cons y ys ih => exact .ins y ih
  | cons x xs ih =>
    induction ys with
    | nil =>
      have := ih []
      rw [editDist_nil_right] at this ⊢
      exact .del x this
    | cons y ys ihy =>
      rw [editDist_cons_cons]
      rcases min_choice (min (editDist xs (y :: ys) + 1) (editDist (x :: xs) ys + 1))
        (editDist xs ys + cost x y) with h | h <;> rw [h]
      · rcases min_choice (editDist xs (y :: ys) + 1) (editDist (x :: xs) ys + 1) with h | h <;>
          rw [h]
        · exact .del x (ih _)
        · exact .ins y ihy
      · unfold cost
        split
        · rename_i heq
          subst heq
          exact .keep x (ih ys)
        · exact .subst x y (ih ys)

/-- No script is shorter. -/
theorem Edits.le {xs ys : List α} {n : ℕ} (h : Edits xs ys n) : editDist xs ys ≤ n := by
  induction h with
  | nil => exact le_rfl
  | keep x _ ih =>
    rw [editDist_cons_cons]
    have : cost x x = 0 := if_pos rfl
    omega
  | subst x y _ ih =>
    rw [editDist_cons_cons]
    have : cost x y ≤ 1 := by unfold cost; split <;> omega
    omega
  | del x _ ih => exact (editDist_del_le x _ _).trans (by omega)
  | ins y _ ih => exact (editDist_ins_le y _ _).trans (by omega)

/-- **The distance is the least number of edits.** -/
theorem editDist_le_iff {xs ys : List α} {n : ℕ} :
    editDist xs ys ≤ n ↔ ∃ m ≤ n, Edits xs ys m :=
  ⟨fun h => ⟨_, h, edits_editDist xs ys⟩, fun ⟨_, hm, he⟩ => he.le.trans hm⟩

/-! ## At the ends -/

omit [DecidableEq α] in
theorem Edits.append {xs ys xs' ys' : List α} {n n' : ℕ} (h : Edits xs ys n)
    (h' : Edits xs' ys' n') : Edits (xs ++ xs') (ys ++ ys') (n + n') := by
  induction h with
  | nil => rwa [Nat.zero_add]
  | keep x _ ih => exact .keep x ih
  | subst x y _ ih => rw [Nat.add_right_comm]; exact .subst x y ih
  | del x _ ih => rw [Nat.add_right_comm]; exact .del x ih
  | ins y _ ih => rw [Nat.add_right_comm]; exact .ins y ih

omit [DecidableEq α] in
theorem Edits.reverse {xs ys : List α} {n : ℕ} (h : Edits xs ys n) :
    Edits xs.reverse ys.reverse n := by
  induction h with
  | nil => exact .nil
  | keep x _ ih => simpa using ih.append (.keep x .nil)
  | subst x y _ ih => simpa using ih.append (.subst x y .nil)
  | del x _ ih => simpa using ih.append (.del x .nil)
  | ins y _ ih => simpa using ih.append (.ins y .nil)

@[simp] theorem editDist_reverse (xs ys : List α) :
    editDist xs.reverse ys.reverse = editDist xs ys := by
  have key : ∀ xs ys : List α, editDist xs.reverse ys.reverse ≤ editDist xs ys := fun xs ys =>
    (edits_editDist xs ys).reverse.le
  refine (key xs ys).antisymm ?_
  simpa using key xs.reverse ys.reverse

/-- **The recursion of the dynamic program.** -/
theorem editDist_snoc_snoc (x y : α) (xs ys : List α) :
    editDist (xs ++ [x]) (ys ++ [y]) =
      min (min (editDist xs (ys ++ [y]) + 1) (editDist (xs ++ [x]) ys + 1))
        (editDist xs ys + cost x y) := by
  rw [← editDist_reverse (xs ++ [x]), ← editDist_reverse xs (ys ++ [y]),
    ← editDist_reverse (xs ++ [x]) ys, ← editDist_reverse xs ys]
  simp only [List.reverse_append, List.reverse_singleton, List.singleton_append]
  exact editDist_cons_cons _ _ _ _

theorem editDist_comm (xs ys : List α) : editDist xs ys = editDist ys xs := by
  have key : ∀ xs ys : List α, editDist ys xs ≤ editDist xs ys := by
    intro xs ys
    have hswap : ∀ {xs ys : List α} {n : ℕ}, Edits xs ys n → Edits ys xs n := by
      intro xs ys n h
      induction h with
      | nil => exact .nil
      | keep x _ ih => exact .keep x ih
      | subst x y _ ih => exact .subst y x ih
      | del x _ ih => exact .ins x ih
      | ins y _ ih => exact .del y ih
    exact (hswap (edits_editDist xs ys)).le
  exact (key ys xs).antisymm (key xs ys)

/-- The lengths bound the distance. -/
theorem length_le_editDist (xs ys : List α) : ys.length ≤ xs.length + editDist xs ys := by
  have key : ∀ {xs ys : List α} {n : ℕ}, Edits xs ys n → ys.length ≤ xs.length + n := by
    intro xs ys n h
    induction h <;> simp only [List.length_nil, List.length_cons] <;> omega
  exact key (edits_editDist xs ys)

theorem editDist_le_max (xs ys : List α) : editDist xs ys ≤ max xs.length ys.length := by
  induction xs generalizing ys with
  | nil => simp
  | cons x xs ih =>
    cases ys with
    | nil => simp
    | cons y ys =>
      have := ih ys
      have hcost : cost x y ≤ 1 := by unfold cost; split <;> omega
      rw [editDist_cons_cons, List.length_cons, List.length_cons]
      omega

/-! ## Rows -/

/-- The distances from `pre`, `pre ++ xs.take 1`, … `pre ++ xs`. -/
def distRow (pre : List α) : List α → List α → List ℕ
  | [], ys => [editDist pre ys]
  | x :: xs, ys => editDist pre ys :: distRow (pre ++ [x]) xs ys

theorem distRow_eq_cons (pre xs ys : List α) :
    distRow pre xs ys = editDist pre ys :: (distRow pre xs ys).tail := by
  cases xs <;> rfl

theorem distRow_getLast (pre xs ys : List α) (d : ℕ) :
    (distRow pre xs ys).getLastD d = editDist (pre ++ xs) ys := by
  induction xs generalizing pre d with
  | nil => simp [distRow]
  | cons x xs ih =>
    rw [distRow, List.getLastD_cons, ih, List.append_assoc, List.singleton_append]

theorem mem_distRow {pre xs ys : List α} {d : ℕ} :
    d ∈ distRow pre xs ys ↔ ∃ p, p <+: xs ∧ d = editDist (pre ++ p) ys := by
  induction xs generalizing pre with
  | nil => simp [distRow]
  | cons x xs ih =>
    rw [distRow, List.mem_cons, ih]
    constructor
    · rintro (rfl | ⟨p, hp, rfl⟩)
      · exact ⟨[], List.nil_prefix, by rw [List.append_nil]⟩
      · exact ⟨x :: p, by simpa using hp, by rw [List.append_assoc, List.singleton_append]⟩
    · rintro ⟨p, hp, rfl⟩
      cases p with
      | nil => exact .inl (by rw [List.append_nil])
      | cons y p =>
        obtain ⟨rfl, hp'⟩ := List.cons_prefix_cons.mp hp
        exact .inr ⟨p, hp', by rw [List.append_assoc, List.singleton_append]⟩

theorem distRow_nil_right (pre xs : List α) :
    distRow pre xs [] = (List.range' pre.length (xs.length + 1)) := by
  induction xs generalizing pre with
  | nil => simp [distRow]
  | cons x xs ih =>
    rw [distRow, ih, List.length_cons, List.range'_succ (n := xs.length + 1)]
    simp

/-- Every prefix of `xs` is more than `k` edits away from `ys`. -/
def Far (k : ℕ) (xs ys : List α) : Prop := ∀ pre, pre <+: xs → k < editDist pre ys

/-- **What is too far stays too far.** -/
theorem Far.snoc {k : ℕ} {xs ys : List α} (h : Far k xs ys) (y : α) : Far k xs (ys ++ [y]) := by
  intro pre
  induction pre using List.reverseRecOn with
  | nil =>
    intro _
    have := h [] List.nil_prefix
    simp only [editDist_nil_left, List.length_append, List.length_singleton] at this ⊢
    omega
  | append_singleton pre x ih =>
    intro hpre
    have hpre' : pre <+: xs := (List.prefix_append pre [x]).trans hpre
    have h₁ := ih hpre'
    have h₂ := h _ hpre
    have h₃ := h _ hpre'
    rw [editDist_snoc_snoc]
    omega

theorem far_iff_distRow {k : ℕ} {xs ys : List α} :
    Far k xs ys ↔ ∀ d ∈ distRow [] xs ys, k < d := by
  constructor
  · intro h d hd
    obtain ⟨p, hp, rfl⟩ := mem_distRow.mp hd
    exact h p hp
  · exact fun h pre hpre => h _ (mem_distRow.mpr ⟨pre, hpre, rfl⟩)

instance (k : ℕ) (xs ys : List α) : Decidable (Far k xs ys) :=
  decidable_of_iff _ far_iff_distRow.symm

theorem Far.lt {k : ℕ} {xs ys : List α} (h : Far k xs ys) : k < editDist xs ys :=
  h xs List.prefix_rfl

theorem not_far_nil (k : ℕ) (xs : List α) : ¬ Far k xs [] := fun h => by
  simpa using h [] List.nil_prefix

theorem Far.append {k : ℕ} {xs ys : List α} (h : Far k xs ys) (zs : List α) :
    Far k xs (ys ++ zs) := by
  induction zs using List.reverseRecOn with
  | nil => simpa using h
  | append_singleton zs z ih =>
    rw [← List.append_assoc]
    exact ih.snoc z

end EditDistance
