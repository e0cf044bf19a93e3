import Mathlib

/-!
# Counting with an odometer

A list of digits, the most significant first, is stepped by adding one to the last and
carrying.  Read as a number it goes up by one a step, so from all zeros the steps pass
every list of that length once.

## Main definitions

* `bump` — one step, and the carry out of it.
* `value` — the number a list of digits stands for.
* `mem_turns_iff` — the lists passed by a full turn.
-/

namespace Odometer

variable {n : ℕ}

/-- One step: the digits, and whether all of them went over. -/
def bump (n : ℕ) : List ℕ → List ℕ × Bool
  | [] => ([], true)
  | d :: ds =>
    let r := bump n ds
    if r.2 then (if d + 1 < n then ((d + 1) :: r.1, false) else (0 :: r.1, true))
    else (d :: r.1, false)

/-- The digits are below the base. -/
def Digits (n : ℕ) (ds : List ℕ) : Prop := ∀ d ∈ ds, d < n

/-- The number that the digits stand for. -/
def value (n : ℕ) : List ℕ → ℕ
  | [] => 0
  | d :: ds => d * n ^ ds.length + value n ds

@[simp] theorem length_bump (ds : List ℕ) : (bump n ds).1.length = ds.length := by
  induction ds with
  | nil => rfl
  | cons d ds ih =>
    unfold bump
    dsimp only
    split_ifs <;> simp [ih]

theorem value_lt {ds : List ℕ} (h : Digits n ds) : value n ds < n ^ ds.length := by
  induction ds with
  | nil => exact Nat.one_pos
  | cons d ds ih =>
    obtain ⟨hd, hds⟩ := List.forall_mem_cons.mp h
    have hlt := ih hds
    calc d * n ^ ds.length + value n ds
        < d * n ^ ds.length + n ^ ds.length := Nat.add_lt_add_left hlt _
      _ = (d + 1) * n ^ ds.length := (Nat.succ_mul ..).symm
      _ ≤ n * n ^ ds.length := Nat.mul_le_mul_right _ hd
      _ = n ^ (d :: ds).length := (pow_succ' ..).symm

/-- Lists of digits of one length stand for different numbers. -/
theorem value_injective {ds es : List ℕ} (hlen : ds.length = es.length) (hd : Digits n ds)
    (he : Digits n es) (h : value n ds = value n es) : ds = es := by
  induction ds generalizing es with
  | nil => exact (List.length_eq_zero_iff.mp hlen.symm).symm
  | cons d ds ih =>
    cases es with
    | nil => cases hlen
    | cons e es =>
      obtain ⟨-, hds⟩ := List.forall_mem_cons.mp hd
      obtain ⟨-, hes⟩ := List.forall_mem_cons.mp he
      have hlen' : ds.length = es.length := Nat.succ_injective hlen
      have hlt := value_lt hds
      have hlt' := value_lt hes
      rw [value, value, hlen'] at h
      rw [hlen'] at hlt
      have hhead : d = e := by
        have hquot : ∀ x y, y < n ^ es.length → (x * n ^ es.length + y) / n ^ es.length = x := by
          intro x y hy
          rw [Nat.mul_comm, Nat.mul_add_div (Nat.zero_lt_of_lt hy), Nat.div_eq_of_lt hy,
            Nat.add_zero]
        rw [← hquot d _ hlt, h, hquot e _ hlt']
      subst hhead
      rw [ih hlen' hds hes (Nat.add_left_cancel h)]

/-- **One step** adds one, or turns all digits over to zeros. -/
theorem bump_spec {ds : List ℕ} (h : Digits n ds) : Digits n (bump n ds).1 ∧
    (if (bump n ds).2 then value n ds + 1 = n ^ ds.length ∧ value n (bump n ds).1 = 0
      else value n (bump n ds).1 = value n ds + 1) := by
  induction ds with
  | nil => exact ⟨List.forall_mem_nil _, rfl, rfl⟩
  | cons d ds ih =>
    obtain ⟨hd, hds⟩ := List.forall_mem_cons.mp h
    obtain ⟨hdigits, hval⟩ := ih hds
    unfold bump
    dsimp only
    by_cases hc : (bump n ds).2 = true
    · rw [if_pos hc] at hval ⊢
      by_cases hlt : d + 1 < n
      · -- the digit goes up
        rw [if_pos hlt]
        refine ⟨List.forall_mem_cons.mpr ⟨hlt, hdigits⟩, ?_⟩
        rw [if_neg (by simp), value, value, length_bump, hval.2, Nat.add_zero, Nat.add_assoc,
          hval.1, Nat.succ_mul]
      · -- it goes over
        obtain rfl : n = d + 1 := by omega
        rw [if_neg hlt]
        refine ⟨List.forall_mem_cons.mpr ⟨Nat.succ_pos d, hdigits⟩, ?_⟩
        rw [if_pos rfl]
        refine ⟨?_, ?_⟩
        · rw [value, Nat.add_assoc, hval.1, List.length_cons, pow_succ', Nat.succ_mul]
        · rw [value, hval.2, Nat.zero_mul]
    · rw [if_neg hc] at hval ⊢
      refine ⟨List.forall_mem_cons.mpr ⟨hd, hdigits⟩, ?_⟩
      rw [if_neg (by simp), value, value, length_bump, hval, Nat.add_assoc]

/-- The digits after some steps. -/
def steps (n : ℕ) : ℕ → List ℕ → List ℕ
  | 0, ds => ds
  | k + 1, ds => steps n k (bump n ds).1

/-- Before the turn is full the digits count the steps. -/
theorem steps_spec {k : ℕ} {ds : List ℕ} (h : Digits n ds)
    (hk : value n ds + k < n ^ ds.length) :
    Digits n (steps n k ds) ∧ (steps n k ds).length = ds.length ∧
      value n (steps n k ds) = value n ds + k := by
  induction k generalizing ds with
  | zero => exact ⟨h, rfl, rfl⟩
  | succ k ih =>
    obtain ⟨hdigits, hval⟩ := bump_spec h
    by_cases hc : (bump n ds).2 = true
    · rw [if_pos hc] at hval
      omega
    · rw [if_neg hc] at hval
      obtain ⟨hd, hl, hv⟩ := ih hdigits (by rw [hval, length_bump]; omega)
      exact ⟨hd, hl.trans (length_bump ds), by rw [steps, hv, hval]; omega⟩

theorem value_replicate_zero (len : ℕ) : value n (List.replicate len 0) = 0 := by
  induction len with
  | zero => rfl
  | succ len ih => rw [List.replicate_succ, value, ih, Nat.zero_mul]

/-- **A full turn** from all zeros passes every list of digits. -/
theorem mem_turns_iff (hn : 0 < n) {len : ℕ} {ds : List ℕ} :
    (∃ k < n ^ len, steps n k (List.replicate len 0) = ds) ↔ ds.length = len ∧ Digits n ds := by
  have hzero : Digits n (List.replicate len 0) := fun d hd => by
    rw [List.eq_of_mem_replicate hd]
    exact hn
  have hsteps : ∀ {k}, k < n ^ len → Digits n (steps n k (List.replicate len 0)) ∧
      (steps n k (List.replicate len 0)).length = len ∧
      value n (steps n k (List.replicate len 0)) = k := by
    intro k hk
    obtain ⟨hd, hl, hv⟩ := steps_spec hzero (k := k) (by
      rwa [value_replicate_zero, Nat.zero_add, List.length_replicate])
    rw [List.length_replicate] at hl
    rw [value_replicate_zero, Nat.zero_add] at hv
    exact ⟨hd, hl, hv⟩
  constructor
  · rintro ⟨k, hk, rfl⟩
    exact ⟨(hsteps hk).2.1, (hsteps hk).1⟩
  · rintro ⟨rfl, hd⟩
    have hlt := value_lt hd
    obtain ⟨hd', hl', hv'⟩ := hsteps hlt
    exact ⟨value n ds, hlt, value_injective hl' hd' hd hv'⟩

end Odometer
