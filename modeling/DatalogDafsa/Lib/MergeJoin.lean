import Mathlib

/-!
# Joining two sorted lists

Two lists, each sorted by a key, are joined by taking equal runs of keys off their
fronts and dropping what is below the other's front.  A list may be handed out one
entry at a time by a stream.

## Main definitions

* `pairs` — the pairs with equal keys.
* `pairs_skip_left`, `pairs_skip_right`, `pairs_run` — what each step does to them.
* `run`, `past` — the entries with the first key, and the others.
* `Yields` — a stream hands out the entries of a list, and then nothing for ever.
-/

namespace MergeJoin

/-! ## Pairs -/

section Pairs

variable {α β κ : Type*} [LinearOrder κ] (key : α → κ) (key' : β → κ)

/-- The pairs of entries with equal keys. -/
def pairs (L : List α) (R : List β) : List (α × β) :=
  L.flatMap fun l => (R.filter fun r => key' r = key l).map (l, ·)

/-- A list is sorted by a key. -/
abbrev Sorted (L : List α) : Prop := L.Pairwise fun a b => key a ≤ key b

variable {key key'} {L : List α} {R : List β}

@[simp] theorem pairs_nil_left : pairs key key' [] R = [] := rfl

@[simp] theorem pairs_nil_right : pairs key key' L [] = [] := by simp [pairs]

theorem mem_pairs {p : α × β} :
    p ∈ pairs key key' L R ↔ p.1 ∈ L ∧ p.2 ∈ R ∧ key p.1 = key' p.2 := by
  obtain ⟨l, r⟩ := p
  simp only [pairs, List.mem_flatMap, List.mem_map, List.mem_filter, decide_eq_true_eq,
    Prod.mk.injEq]
  constructor
  · rintro ⟨l', hl, r', ⟨hr, hk⟩, rfl, rfl⟩
    exact ⟨hl, hr, hk.symm⟩
  · rintro ⟨hl, hr, hk⟩
    exact ⟨l, hl, r, ⟨hr, hk.symm⟩, rfl, rfl⟩

theorem nodup_pairs (hL : L.Nodup) (hR : R.Nodup) : (pairs key key' L R).Nodup := by
  refine List.nodup_flatMap.mpr ⟨fun l _ => ?_, hL.imp fun {l l'} hne => ?_⟩
  · exact (hR.filter _).map fun r r' h => (Prod.mk.inj h).2
  · intro p hp hp'
    obtain ⟨r, -, rfl⟩ := List.mem_map.mp hp
    obtain ⟨r', -, heq⟩ := List.mem_map.mp hp'
    exact hne (Prod.mk.inj heq).1.symm

/-- An entry below all of the other list has no partner. -/
theorem pairs_skip_left {a : α} (h : ∀ r ∈ R, key a < key' r) :
    pairs key key' (a :: L) R = pairs key key' L R := by
  have hnone : R.filter (fun r => key' r = key a) = [] :=
    List.filter_eq_nil_iff.mpr fun r hr => by simpa using (h r hr).ne'
  rw [pairs, List.flatMap_cons, hnone]
  rfl

theorem pairs_skip_right {b : β} (h : ∀ l ∈ L, key' b < key l) :
    pairs key key' L (b :: R) = pairs key key' L R := by
  unfold pairs
  refine List.flatMap_congr fun l hl => ?_
  rw [List.filter_cons_of_neg (by simpa using (h l hl).ne)]

/-- **Two runs of one key**, with only larger keys after them. -/
theorem pairs_run {k : κ} {L₁ L₂ : List α} {R₁ R₂ : List β} (hL₁ : ∀ l ∈ L₁, key l = k)
    (hR₁ : ∀ r ∈ R₁, key' r = k) (hL₂ : ∀ l ∈ L₂, k < key l) (hR₂ : ∀ r ∈ R₂, k < key' r) :
    pairs key key' (L₁ ++ L₂) (R₁ ++ R₂) =
      (L₁.flatMap fun l => R₁.map (l, ·)) ++ pairs key key' L₂ R₂ := by
  unfold pairs
  rw [List.flatMap_append]
  congr 1
  · refine List.flatMap_congr fun l hl => ?_
    have hall : R₁.filter (fun r => key' r = key l) = R₁ :=
      List.filter_eq_self.mpr fun r hr => by simp [hR₁ r hr, hL₁ l hl]
    have hnone : R₂.filter (fun r => key' r = key l) = [] :=
      List.filter_eq_nil_iff.mpr fun r hr => by simpa [hL₁ l hl] using (hR₂ r hr).ne'
    rw [List.filter_append, hall, hnone, List.append_nil]
  · refine List.flatMap_congr fun l hl => ?_
    have hnone : R₁.filter (fun r => key' r = key l) = [] :=
      List.filter_eq_nil_iff.mpr fun r hr => by simpa [hR₁ r hr] using (hL₂ l hl).ne
    rw [List.filter_append, hnone, List.nil_append]

/-- The entries at the front with a key. -/
def run (key : α → κ) (k : κ) (L : List α) : List α := L.takeWhile fun a => key a = k

/-- What comes after them. -/
def past (key : α → κ) (k : κ) (L : List α) : List α := L.dropWhile fun a => key a = k

theorem run_append_past (k : κ) (L : List α) : run key k L ++ past key k L = L :=
  List.takeWhile_append_dropWhile

theorem key_of_mem_run {k : κ} {a : α} (h : a ∈ run key k L) : key a = k := by
  simpa using List.mem_takeWhile_imp h

/-- In a sorted list that starts with a key, all of the entries after its run have
larger keys. -/
theorem lt_of_mem_past {a : α} (hL : Sorted key (a :: L)) {l : α}
    (h : l ∈ past key (key a) L) : key a < key l := by
  induction L generalizing l with
  | nil => cases h
  | cons b L ih =>
    obtain ⟨ha, hb⟩ := List.pairwise_cons.mp hL
    by_cases hk : key b = key a
    · rw [past, List.dropWhile_cons_of_pos (by simpa using hk)] at h
      exact ih (List.pairwise_cons.mpr ⟨fun c hc => ha c (List.mem_cons_of_mem b hc),
        (List.pairwise_cons.mp hb).2⟩) h
    · rw [past, List.dropWhile_cons_of_neg (by simpa using hk)] at h
      have hlt : key a < key b := lt_of_le_of_ne (ha b List.mem_cons_self) fun h => hk h.symm
      rcases List.mem_cons.mp h with rfl | h
      · exact hlt
      · exact hlt.trans_le ((List.pairwise_cons.mp hb).1 l h)

theorem past_sublist (k : κ) (L : List α) : (past key k L).Sublist L := List.dropWhile_sublist _

end Pairs

/-! ## Streams -/

section Streams

variable {σ ε α : Type*}

/-- A stream hands out the entries of a list, and then nothing for ever. -/
def Yields (next : σ → Except ε (Option α × σ)) : List α → σ → Prop
  | [], s => ∃ s', next s = .ok (none, s') ∧ next s' = .ok (none, s')
  | a :: l, s => ∃ s', next s = .ok (some a, s') ∧ Yields next l s'

variable {next : σ → Except ε (Option α × σ)}

/-- The `n`-th entry a stream hands out, from one. -/
def nth (next : σ → Except ε (Option α × σ)) : ℕ → σ → Except ε (Option α)
  | 0, s => (next s).map Prod.fst
  | n + 1, s => (next s).bind fun r => nth next n r.2

/-- **The entries of a stream** are those of its list, in order. -/
theorem Yields.nth {l : List α} {s : σ} (h : Yields next l s) (n : ℕ) :
    nth next n s = .ok l[n]? := by
  induction l generalizing s n with
  | nil =>
    obtain ⟨s', h₁, h₂⟩ := h
    have hend : ∀ n, MergeJoin.nth next n s' = .ok none := by
      intro n
      induction n with
      | zero => rw [MergeJoin.nth, h₂]; rfl
      | succ n ih => rw [MergeJoin.nth, h₂]; exact ih
    cases n with
    | zero => rw [MergeJoin.nth, h₁]; rfl
    | succ n => rw [MergeJoin.nth, h₁]; exact hend n
  | cons a l ih =>
    obtain ⟨s', h₁, h₂⟩ := h
    cases n with
    | zero => rw [MergeJoin.nth, h₁]; rfl
    | succ n => rw [MergeJoin.nth, h₁]; exact ih h₂ n

end Streams

end MergeJoin
