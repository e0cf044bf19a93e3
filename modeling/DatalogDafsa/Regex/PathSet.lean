import DatalogDafsa.Lib.Probe
import DatalogDafsa.Regex.Walk

/-!
# The path of a walk

A pair is taken from the path by clearing its slot, so that a later probe may stop short of
a pair that is there, and a pair that was moved when the table grew may stay for good.  What
holds all the same is that a probe ends, that the table holds nothing that was not put in,
and that a pair it does not hold is put in as a new one.

## Main definitions

* `VisitedSet.content` — the keys in the slots.
* `VisitedSet.Ok` — there is an empty slot.
* `vsTryInsert_spec`, `vsRemove_spec` — the operations.
-/

namespace DatalogDafsa.Regex

/-- The slots that are not empty. -/
def occupied (keys : ℕ → ℕ) (cap : ℕ) : Finset ℕ :=
  (Finset.range cap).filter fun p => keys p ≠ 0

/-- The keys in the slots. -/
def VisitedSet.content (vs : VisitedSet) : Set ℕ :=
  {k | k ≠ 0 ∧ ∃ p < vs.cap, vs.keys p = k}

/-- There is room. -/
structure VisitedSet.Ok (vs : VisitedSet) : Prop where
  /-- There are a few slots. -/
  cap : 4 ≤ vs.cap
  /-- The count is not that of all slots. -/
  used : vs.used < vs.cap
  /-- No more slots are taken than were counted. -/
  card : (occupied vs.keys vs.cap).card ≤ vs.used

theorem content_vsInit : vsInit.content = ∅ := by
  ext k
  simp only [VisitedSet.content, vsInit, Set.mem_ofPred_eq, Set.mem_empty_iff_false, iff_false]
  rintro ⟨hne, p, -, hp⟩
  exact hne hp.symm

theorem vsInit_ok : vsInit.Ok where
  cap := by decide
  used := by decide
  card := by simp [occupied, vsInit]

/-- A table with fewer taken slots than slots has an empty one. -/
theorem exists_empty {keys : ℕ → ℕ} {cap : ℕ} (h : (occupied keys cap).card < cap) :
    ∃ p < cap, keys p = 0 := by
  by_contra hno
  have hall : occupied keys cap = Finset.range cap := by
    refine Finset.filter_true_of_mem fun p hp hzero => hno ⟨p, Finset.mem_range.mp hp, hzero⟩
  rw [hall, Finset.card_range] at h
  exact lt_irrefl _ h

/-- One more slot is taken. -/
theorem card_occupied_update (keys : ℕ → ℕ) (cap idx k : ℕ) :
    (occupied (Function.update keys idx k) cap).card ≤ (occupied keys cap).card + 1 := by
  have hsub : occupied (Function.update keys idx k) cap ⊆ insert idx (occupied keys cap) := by
    intro p hp
    obtain ⟨hlt, hne⟩ := Finset.mem_filter.mp hp
    rw [Finset.mem_insert]
    by_cases hidx : p = idx
    · exact .inl hidx
    · rw [Function.update_of_ne hidx] at hne
      exact .inr (Finset.mem_filter.mpr ⟨hlt, hne⟩)
  exact (Finset.card_le_card hsub).trans (Finset.card_insert_le _ _)

/-- A slot is cleared. -/
theorem card_occupied_clear {keys : ℕ → ℕ} {cap idx : ℕ} (hidx : idx < cap)
    (hne : keys idx ≠ 0) :
    (occupied (Function.update keys idx 0) cap).card + 1 ≤ (occupied keys cap).card := by
  have hsub : occupied (Function.update keys idx 0) cap ⊆ (occupied keys cap).erase idx := by
    intro p hp
    obtain ⟨hlt, hp⟩ := Finset.mem_filter.mp hp
    have hpidx : p ≠ idx := by
      rintro rfl
      exact hp (Function.update_self ..)
    rw [Function.update_of_ne hpidx] at hp
    exact Finset.mem_erase.mpr ⟨hpidx, Finset.mem_filter.mpr ⟨hlt, hp⟩⟩
  have hmem : idx ∈ occupied keys cap := Finset.mem_filter.mpr ⟨Finset.mem_range.mpr hidx, hne⟩
  have hcard := Finset.card_le_card hsub
  rw [Finset.card_erase_of_mem hmem] at hcard
  have hpos : 0 < (occupied keys cap).card := Finset.card_pos.mpr ⟨idx, hmem⟩
  omega

/-! ## Probes -/

/-- **A probe ends** where there is an empty slot. -/
theorem vsProbe_spec {keys : ℕ → ℕ} {cap : ℕ} (h : (occupied keys cap).card < cap)
    (stop : ℕ → Bool) (hash : ℕ) :
    ∃ r < cap, vsProbe keys cap stop cap (hash % cap) = some r ∧
      (keys r = 0 ∨ stop (keys r) = true) := by
  obtain ⟨p, hp, hempty⟩ := exists_empty h
  have key : ∀ fuel idx, idx < cap → (∃ d < fuel, (idx + d) % cap = p) →
      ∃ r < cap, vsProbe keys cap stop fuel idx = some r ∧
        (keys r = 0 ∨ stop (keys r) = true) := by
    intro fuel
    induction fuel with
    | zero => exact fun idx _ ⟨d, hd, _⟩ => absurd hd (Nat.not_lt_zero d)
    | succ fuel ih =>
      rintro idx hidx ⟨d, hd, hdp⟩
      unfold vsProbe
      by_cases hstop : keys idx = 0 ∨ stop (keys idx) = true
      · exact ⟨idx, hidx, if_pos hstop, hstop⟩
      · rw [if_neg hstop]
        refine ih _ (Nat.mod_lt _ (by omega)) ?_
        cases d with
        | zero =>
          rw [Nat.add_zero, Nat.mod_eq_of_lt hidx] at hdp
          exact absurd (.inl (hdp ▸ hempty)) hstop
        | succ d =>
          refine ⟨d, by omega, ?_⟩
          rw [Nat.mod_add_mod, ← hdp]
          congr 1
          omega
  obtain ⟨d, hd, hdp⟩ := @Probe.exists_dist cap (hash % cap) p hp
  exact key cap (hash % cap) (Nat.mod_lt _ (by omega)) ⟨d, hd, hdp⟩

/-- **The table grows** and holds nothing new. -/
theorem vsGrow_spec {vs : VisitedSet} (h : vs.Ok) :
    ∃ vs', vsGrow vs = some vs' ∧ vs'.cap = vs.cap * 2 ∧ vs'.used = vs.used ∧
      (occupied vs'.keys vs'.cap).card ≤ vs.used ∧ vs'.content ⊆ vs.content := by
  have key : ∀ n ≤ vs.cap, ∃ nk,
      (List.range n).foldlM (vsRehash vs.keys (vs.cap * 2)) (fun _ => 0) = some nk ∧
      (occupied nk (vs.cap * 2)).card ≤ (occupied vs.keys n).card ∧
      ∀ p, nk p ≠ 0 → ∃ q < vs.cap, vs.keys q = nk p := by
    intro n
    induction n with
    | zero => exact fun _ => ⟨fun _ => 0, rfl, by simp [occupied], fun p hp => absurd rfl hp⟩
    | succ n ih =>
      intro hn
      obtain ⟨nk, hfold, hcard, hold⟩ := ih (by omega)
      have hstep : (List.range (n + 1)).foldlM (vsRehash vs.keys (vs.cap * 2)) (fun _ => 0) =
          vsRehash vs.keys (vs.cap * 2) nk n := by
        rw [List.range_succ, List.foldlM_append, hfold]
        simp
      rw [hstep]
      have hmono : (occupied vs.keys n).card ≤ n := by
        have := Finset.card_filter_le (Finset.range n) fun p => vs.keys p ≠ 0
        rwa [Finset.card_range] at this
      unfold vsRehash
      by_cases hzero : vs.keys n = 0
      · rw [if_pos hzero]
        refine ⟨nk, rfl, hcard.trans (Finset.card_le_card ?_), hold⟩
        exact Finset.filter_subset_filter _ (Finset.range_mono (Nat.le_succ n))
      · rw [if_neg hzero]
        obtain ⟨r, -, hprobe, -⟩ := @vsProbe_spec nk (vs.cap * 2) (by have := h.cap; omega)
          (fun _ => false) (vsHashKey (vs.keys n))
        rw [hprobe, Option.map_some]
        refine ⟨_, rfl, (card_occupied_update ..).trans ?_, fun p hp => ?_⟩
        · have hsucc : occupied vs.keys (n + 1) = insert n (occupied vs.keys n) := by
            unfold occupied
            rw [Finset.range_add_one, Finset.filter_insert, if_pos hzero]
          rw [hsucc, Finset.card_insert_of_notMem (by simp [occupied])]
          omega
        · by_cases hpr : p = r
          · rw [hpr, Function.update_self]
            exact ⟨n, hn, rfl⟩
          · rw [Function.update_of_ne hpr] at hp ⊢
            exact hold p hp
  obtain ⟨nk, hfold, hcard, hold⟩ := key vs.cap le_rfl
  refine ⟨⟨nk, vs.cap * 2, vs.used⟩, ?_, rfl, rfl, hcard.trans h.card, ?_⟩
  · rw [vsGrow, hfold]
    rfl
  · rintro k ⟨hne, p, -, rfl⟩
    exact ⟨hne, hold p hne⟩

/-! ## Insertion and removal -/

/-- **A pair that the table does not hold is new.** -/
theorem vsTryInsert_spec {vs : VisitedSet} (h : vs.Ok) {key : ℕ} (hnew : key ∉ vs.content) :
    ∃ vs', vsTryInsert vs key = some (vs', false) ∧ vs'.Ok ∧
      vs'.content ⊆ insert key vs.content := by
  have hroom : ∃ vs₁, (if vs.cap * 3 ≤ vs.used * 4 then vsGrow vs else some vs) = some vs₁ ∧
      4 ≤ vs₁.cap ∧ vs₁.used + 1 < vs₁.cap ∧ (occupied vs₁.keys vs₁.cap).card ≤ vs₁.used ∧
      vs₁.content ⊆ vs.content := by
    have hcap := h.cap
    have hused := h.used
    by_cases hfull : vs.cap * 3 ≤ vs.used * 4
    · obtain ⟨vs₁, hgrow, hcap₁, hused₁, hcard₁, hsub₁⟩ := vsGrow_spec h
      refine ⟨vs₁, by rw [if_pos hfull, hgrow], by omega, by omega, by omega, hsub₁⟩
    · exact ⟨vs, if_neg hfull, hcap, by omega, h.card, Set.Subset.rfl⟩
  obtain ⟨vs₁, hgrow, hcap, hused, hcard, hsub⟩ := hroom
  obtain ⟨r, hr, hprobe, hstop⟩ := @vsProbe_spec vs₁.keys vs₁.cap (by omega) (· == key)
    (vsHashKey key)
  have hzero : vs₁.keys r = 0 := by
    by_contra hne
    have hkey : vs₁.keys r = key := beq_iff_eq.mp (hstop.resolve_left hne)
    exact hnew (hsub ⟨hkey ▸ hne, r, hr, hkey⟩)
  unfold vsTryInsert
  rw [hgrow]
  dsimp only
  rw [hprobe]
  dsimp only
  rw [if_neg (by rw [not_not]; exact hzero)]
  have hcard₁ := card_occupied_update vs₁.keys vs₁.cap r key
  refine ⟨_, rfl, ⟨hcap, hused, hcard₁.trans (Nat.succ_le_succ hcard)⟩, ?_⟩
  rintro k ⟨hne, p, hp, rfl⟩
  by_cases hpr : p = r
  · exact .inl (by rw [hpr]; exact Function.update_self ..)
  · refine .inr (hsub ⟨hne, p, hp, ?_⟩)
    exact (Function.update_of_ne hpr _ _).symm

/-- **A removal ends** and adds nothing. -/
theorem vsRemove_spec {vs : VisitedSet} (h : vs.Ok) (key : ℕ) :
    ∃ vs', vsRemove vs key = some vs' ∧ vs'.Ok ∧ vs'.content ⊆ vs.content := by
  obtain ⟨r, hr, hprobe, -⟩ := @vsProbe_spec vs.keys vs.cap (h.card.trans_lt h.used) (· == key)
    (vsHashKey key)
  unfold vsRemove
  rw [hprobe]
  dsimp only
  by_cases hne : vs.keys r ≠ 0
  · rw [if_pos hne]
    have hcard := card_occupied_clear hr hne
    have hle := h.card
    have hused := h.used
    refine ⟨_, rfl, ⟨h.cap, ?_, ?_⟩, ?_⟩
    · show vs.used - 1 < vs.cap
      omega
    · exact Nat.le_sub_one_of_lt (hcard.trans hle)
    · rintro k ⟨hk, p, hp, rfl⟩
      by_cases hpr : p = r
      · rw [hpr] at hk
        exact absurd (Function.update_self ..) hk
      · exact ⟨hk, p, hp, (Function.update_of_ne hpr _ _).symm⟩
  · rw [if_neg hne]
    exact ⟨vs, rfl, h, Set.Subset.rfl⟩

end DatalogDafsa.Regex
