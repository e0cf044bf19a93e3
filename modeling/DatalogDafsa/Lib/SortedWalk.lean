import Mathlib

/-!
# The difference of sorted lists

Two strictly sorted lists are walked side by side; an entry of one is compared with the
front of the other, and the front moves on past what is smaller.

## Main definitions

* `seek`, `diff` — the walk.
* `seek_spec`, `mem_diff` — what it computes.
-/

namespace SortedWalk

theorem not_mem_of_forall_lt {α : Type*} {lt : α → α → Prop} [Std.Irrefl lt] {a : α}
    {bs : List α} (h : ∀ b ∈ bs, lt a b) : a ∉ bs := fun hmem => irrefl_of lt a (h a hmem)

variable {α : Type*} (lt : α → α → Prop) [DecidableEq α] [DecidableRel lt]

/-- Move past the entries below `a`, and past `a` itself if it is there. -/
def seek (a : α) : List α → Bool × List α
  | [] => (false, [])
  | b :: bs => if a = b then (true, bs) else if lt b a then seek a bs else (false, b :: bs)

/-- The entries of the first list that are not in the second. -/
def diff : List α → List α → List α
  | [], _ => []
  | a :: as, bs =>
    if (seek lt a bs).1 then diff as (seek lt a bs).2 else a :: diff as (seek lt a bs).2

variable {lt} [Std.Irrefl lt] [IsTrans α lt] [Std.Trichotomous lt] {a : α} {as bs : List α}

/-- **Moving on** finds the entry, and drops only what is not above it. -/
theorem seek_spec (h : bs.Pairwise lt) (a : α) :
    ((seek lt a bs).1 = true ↔ a ∈ bs) ∧ (seek lt a bs).2.Pairwise lt ∧
      ∀ x, lt a x → (x ∈ (seek lt a bs).2 ↔ x ∈ bs) := by
  induction bs with
  | nil => simp [seek]
  | cons b bs ih =>
    obtain ⟨hb, hbs⟩ := List.pairwise_cons.mp h
    obtain ⟨hfound, hsorted, hkeep⟩ := ih hbs
    unfold seek
    by_cases hab : a = b
    · rw [if_pos hab]
      refine ⟨by simp [hab], hbs, fun x hx => ?_⟩
      have hne : x ≠ b := by
        rintro rfl
        exact irrefl_of lt a (hab ▸ hx)
      simp [hne]
    · rw [if_neg hab]
      by_cases hlt : lt b a
      · rw [if_pos hlt]
        refine ⟨by simp [hfound, hab], hsorted, fun x hx => ?_⟩
        have hne : x ≠ b := by
          rintro rfl
          exact irrefl_of lt x (trans_of lt hlt hx)
        rw [hkeep x hx]
        simp [hne]
      · rw [if_neg hlt]
        have hba : lt a b := ((trichotomous_of lt a b).resolve_right (by tauto))
        have hnot : a ∉ bs := not_mem_of_forall_lt fun c hc => trans_of lt hba (hb c hc)
        exact ⟨by simp [hab, hnot], h, fun x _ => Iff.rfl⟩

/-- **The difference.** -/
theorem mem_diff (ha : as.Pairwise lt) (hb : bs.Pairwise lt) {x : α} :
    x ∈ diff lt as bs ↔ x ∈ as ∧ x ∉ bs := by
  induction as generalizing bs with
  | nil => simp [diff]
  | cons a as ih =>
    obtain ⟨hlt, has⟩ := List.pairwise_cons.mp ha
    obtain ⟨hfound, hsorted, hkeep⟩ := seek_spec hb a
    have hrest : x ∈ diff lt as (seek lt a bs).2 ↔ x ∈ as ∧ x ∉ bs := by
      rw [ih has hsorted]
      exact and_congr_right fun hx => not_congr (hkeep x (hlt x hx))
    unfold diff
    by_cases hmem : a ∈ bs
    · rw [if_pos (hfound.mpr hmem), hrest, List.mem_cons]
      constructor
      · rintro ⟨hx, hxb⟩
        exact ⟨.inr hx, hxb⟩
      · rintro ⟨rfl | hx, hxb⟩
        · exact absurd hmem hxb
        · exact ⟨hx, hxb⟩
    · rw [if_neg fun h => hmem (hfound.mp h), List.mem_cons, List.mem_cons, hrest]
      constructor
      · rintro (rfl | ⟨hx, hxb⟩)
        · exact ⟨.inl rfl, hmem⟩
        · exact ⟨.inr hx, hxb⟩
      · rintro ⟨rfl | hx, hxb⟩
        · exact .inl rfl
        · exact .inr ⟨hx, hxb⟩

end SortedWalk
