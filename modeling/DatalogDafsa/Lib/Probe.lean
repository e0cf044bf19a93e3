import Mathlib

/-!
# Open addressing with linear probing

A table has slots, each empty or holding a key with a number.  A key is looked for
from its home slot on, slot after slot and around the end, up to the first empty one;
a new key is put there.  A table that gets full is copied into one twice as large.

The invariant is that no empty slot lies between the home of a stored key and its
slot, so a search that reaches an empty slot has missed nothing.

## Main definitions

* `Table`, `probe`, `Table.put`, `growTo`, `grow`, `rebuild` — the operations.
* `Inv` — the invariant, relative to the set of stored pairs.
* `Inv.probe`, `Inv.put`, `Inv.growTo`, `inv_rebuild` — a search is exact; the others keep the
  invariant.
-/

namespace Probe

variable {K : Type*}

/-- An open-addressing table. -/
structure Table (K : Type*) where
  /-- Number of slots. -/
  cap : ℕ
  /-- A key with its number, or nothing. -/
  slot : ℕ → Option (K × ℕ)
  /-- Slots in use. -/
  used : ℕ

/-- No slot is in use. -/
def Table.empty (cap : ℕ) : Table K := ⟨cap, fun _ => none, 0⟩

/-- Where a search ends. -/
inductive Hit
  /-- At a key it accepts, with its number. -/
  | found (id : ℕ)
  /-- At an empty slot. -/
  | empty (idx : ℕ)
  /-- Nowhere: there is no empty slot. -/
  | full
  deriving DecidableEq

/-- Search from slot `idx` on, for a key `accept` takes. -/
def probe (accept : K → Bool) (t : Table K) : ℕ → ℕ → Hit
  | 0, _ => .full
  | fuel + 1, idx =>
    match t.slot idx with
    | none => .empty idx
    | some (k, id) => if accept k then .found id else probe accept t fuel ((idx + 1) % t.cap)

/-- Put a key into a slot. -/
def Table.put (t : Table K) (idx : ℕ) (k : K) (id : ℕ) : Table K :=
  { t with slot := Function.update t.slot idx (some (k, id)), used := t.used + 1 }

/-- Copy the key of slot `i` into a larger table. -/
def copySlot (hash : K → ℕ) (old new : Table K) (i : ℕ) : Table K :=
  match old.slot i with
  | none => new
  | some (k, id) =>
    match probe (fun _ => false) new new.cap (hash k % new.cap) with
    | .empty idx => new.put idx k id
    | _ => new

/-- Copy a table into an empty one of `cap` slots. -/
def growTo (hash : K → ℕ) (cap : ℕ) (t : Table K) : Table K :=
  (List.range t.cap).foldl (copySlot hash t) (Table.empty cap)

/-- Copy a table into one twice as large. -/
def grow (hash : K → ℕ) (t : Table K) : Table K :=
  (List.range t.cap).foldl (copySlot hash t) (Table.empty (2 * t.cap))

/-- Put a key that is not there into the first empty slot on its path. -/
def putNew (hash : K → ℕ) (t : Table K) (pair : K × ℕ) : Table K :=
  match probe (fun _ => false) t t.cap (hash pair.1 % t.cap) with
  | .empty idx => t.put idx pair.1 pair.2
  | _ => t

/-- A table of keys that are stored elsewhere. -/
def rebuild (hash : K → ℕ) (cap : ℕ) (pairs : List (K × ℕ)) : Table K :=
  pairs.foldl (putNew hash) (Table.empty cap)

/-! ## Searching -/

section Search

variable {accept : K → Bool} {t : Table K}

/-- The slots from a home on are taken by keys that are not accepted. -/
def Passed (accept : K → Bool) (t : Table K) (h d : ℕ) : Prop :=
  ∀ e < d, ∃ k id, t.slot ((h + e) % t.cap) = some (k, id) ∧ accept k = false

/-- A search passes slots it does not accept, up to where it ends. -/
theorem probe_cases {h fuel d : ℕ} (hd : fuel + d = t.cap) (hpass : Passed accept t h d) :
    (∃ D k id, D < t.cap ∧ Passed accept t h D ∧ t.slot ((h + D) % t.cap) = some (k, id) ∧
        accept k = true ∧ probe accept t fuel ((h + d) % t.cap) = .found id) ∨
      (∃ D, D < t.cap ∧ Passed accept t h D ∧ t.slot ((h + D) % t.cap) = none ∧
        probe accept t fuel ((h + d) % t.cap) = .empty ((h + D) % t.cap)) ∨
      Passed accept t h t.cap := by
  induction fuel generalizing d with
  | zero =>
    obtain rfl : d = t.cap := by omega
    exact .inr (.inr hpass)
  | succ fuel ih =>
    unfold probe
    cases hs : t.slot ((h + d) % t.cap) with
    | none => exact .inr (.inl ⟨d, by omega, hpass, hs, rfl⟩)
    | some p =>
      obtain ⟨k, id⟩ := p
      cases hk : accept k with
      | true => exact .inl ⟨d, k, id, by omega, hpass, hs, hk, by simp [hk]⟩
      | false =>
        have hnext : ((h + d) % t.cap + 1) % t.cap = (h + (d + 1)) % t.cap := by
          rw [Nat.mod_add_mod, add_assoc]
        have hpass' : Passed accept t h (d + 1) := by
          intro e he
          rcases Nat.lt_succ_iff_lt_or_eq.mp he with he | rfl
          · exact hpass e he
          · exact ⟨k, id, hs, hk⟩
        simp only [hk, Bool.false_eq_true, if_false, hnext]
        exact ih (by omega) hpass'

/-- A number that is found is that of a key in a slot. -/
theorem probe_found {fuel idx id : ℕ} (hidx : idx < t.cap)
    (h : probe accept t fuel idx = .found id) :
    ∃ p < t.cap, ∃ k, t.slot p = some (k, id) ∧ accept k = true := by
  induction fuel generalizing idx with
  | zero => cases h
  | succ fuel ih =>
    unfold probe at h
    cases hs : t.slot idx with
    | none =>
      rw [hs] at h
      cases h
    | some pair =>
      rw [hs] at h
      dsimp only at h
      split at h
      · rename_i hk
        cases h
        exact ⟨idx, hidx, pair.1, hs, hk⟩
      · exact ih (Nat.mod_lt _ (by omega)) h

/-- Every slot is reached from every home. -/
theorem exists_dist {cap h p : ℕ} (hp : p < cap) : ∃ d < cap, (h + d) % cap = p := by
  refine ⟨(p + (cap - h % cap)) % cap, Nat.mod_lt _ (by omega), ?_⟩
  have hlt : h % cap < cap := Nat.mod_lt _ (by omega)
  rw [Nat.add_mod, Nat.mod_mod, ← Nat.add_mod, Nat.add_mod, Nat.add_mod_mod,
    show h % cap + (p + (cap - h % cap)) = p + cap by omega]
  simp [Nat.mod_eq_of_lt hp]

end Search

/-! ## The invariant -/

/-- The slots in use. -/
def Table.taken (t : Table K) : Finset ℕ := (Finset.range t.cap).filter fun p => (t.slot p).isSome

/-- A table holds the pairs of `S`. -/
structure Inv (hash : K → ℕ) (t : Table K) (S : Set (K × ℕ)) : Prop where
  /-- There are slots. -/
  cap_pos : 0 < t.cap
  /-- The slots hold the pairs. -/
  mem : ∀ pair, pair ∈ S ↔ ∃ p < t.cap, t.slot p = some pair
  /-- A key is stored once. -/
  once : ∀ p < t.cap, ∀ q < t.cap, ∀ k i j, t.slot p = some (k, i) → t.slot q = some (k, j) → p = q
  /-- No empty slot lies before a key. -/
  path : ∀ p < t.cap, ∀ k i, t.slot p = some (k, i) →
    ∃ D < t.cap, (hash k + D) % t.cap = p ∧ ∀ d < D, t.slot ((hash k + d) % t.cap) ≠ none
  /-- The slots in use are counted. -/
  count : t.taken.card = t.used

variable {hash : K → ℕ} {t : Table K} {S : Set (K × ℕ)}

theorem Inv.empty {cap : ℕ} (h : 0 < cap) : Inv hash (Table.empty cap : Table K) ∅ where
  cap_pos := h
  mem pair := by simp [Table.empty]
  once p _ q _ k i j hp := by simp [Table.empty] at hp
  path p _ k i hp := by simp [Table.empty] at hp
  count := by simp [Table.taken, Table.empty]

theorem Inv.used_le (h : Inv hash t S) : t.used ≤ t.cap := by
  rw [← h.count]
  exact (Finset.card_filter_le _ _).trans (Finset.card_range _).le

/-- **A search in a table that is not full** ends at the accepted key or at an empty
slot, and passes only what it does not accept. -/
theorem Inv.probe_cases (h : Inv hash t S) (hused : t.used < t.cap) (accept : K → Bool)
    (home : ℕ) :
    (∃ D k id, D < t.cap ∧ Passed accept t home D ∧ t.slot ((home + D) % t.cap) = some (k, id) ∧
        accept k = true ∧ probe accept t t.cap (home % t.cap) = .found id) ∨
      ∃ D, D < t.cap ∧ Passed accept t home D ∧ t.slot ((home + D) % t.cap) = none ∧
        probe accept t t.cap (home % t.cap) = .empty ((home + D) % t.cap) := by
  rcases @Probe.probe_cases K accept t home t.cap 0 (Nat.add_zero t.cap)
    (fun e he => absurd he (Nat.not_lt_zero e)) with hc | hc | hfull
  · exact .inl hc
  · exact .inr hc
  · exfalso
    have hall : t.taken = Finset.range t.cap := by
      refine Finset.filter_true_of_mem fun p hp => ?_
      obtain ⟨d, hd, rfl⟩ := exists_dist (h := home) (Finset.mem_range.mp hp)
      obtain ⟨k, id, hs, -⟩ := hfull d hd
      simp [hs]
    have := h.count
    rw [hall, Finset.card_range] at this
    omega

/-- **A search for a key** finds its number, or an empty slot on its path. -/
theorem Inv.probe [DecidableEq K] (h : Inv hash t S) (hused : t.used < t.cap) (k : K) :
    (∃ id, (k, id) ∈ S ∧
        Probe.probe (fun k' => k' = k) t t.cap (hash k % t.cap) = .found id) ∨
      (∀ id, (k, id) ∉ S) ∧ ∃ D < t.cap, t.slot ((hash k + D) % t.cap) = none ∧
        (∀ d < D, t.slot ((hash k + d) % t.cap) ≠ none) ∧
        Probe.probe (fun k' => k' = k) t t.cap (hash k % t.cap) =
          .empty ((hash k + D) % t.cap) := by
  rcases h.probe_cases hused (fun k' => k' = k) (hash k) with
    ⟨D, k', id, hD, -, hs, hacc, hres⟩ | ⟨D, hD, hpass, hs, hres⟩
  · obtain rfl : k' = k := by simpa using hacc
    exact .inl ⟨id, (h.mem _).mpr ⟨_, Nat.mod_lt _ h.cap_pos, hs⟩, hres⟩
  · have hne : ∀ d < D, t.slot ((hash k + d) % t.cap) ≠ none := fun d hd => by
      obtain ⟨k', id, hs', -⟩ := hpass d hd
      simp [hs']
    refine .inr ⟨fun id hid => ?_, D, hD, hs, hne, hres⟩
    obtain ⟨p, hp, hslot⟩ := (h.mem _).mp hid
    obtain ⟨D', hD', rfl, hpath⟩ := h.path p hp k id hslot
    rcases lt_trichotomy D D' with hlt | rfl | hlt
    · exact hpath D hlt hs
    · rw [hs] at hslot
      cases hslot
    · obtain ⟨k', id', hs', hacc⟩ := hpass D' hlt
      rw [hslot] at hs'
      simp only [Option.some.injEq, Prod.mk.injEq] at hs'
      simp [← hs'.1] at hacc

/-- **A new key goes into the empty slot** its search ended at. -/
theorem Inv.put (h : Inv hash t S) {k : K} (hk : ∀ id, (k, id) ∉ S) {D : ℕ}
    (hs : t.slot ((hash k + D) % t.cap) = none) (hD : D < t.cap)
    (hpath : ∀ d < D, t.slot ((hash k + d) % t.cap) ≠ none) (id : ℕ) :
    Inv hash (t.put ((hash k + D) % t.cap) k id) (insert (k, id) S) := by
  set idx := (hash k + D) % t.cap with hidx
  have hlt : idx < t.cap := Nat.mod_lt _ h.cap_pos
  have hself : (t.put idx k id).slot idx = some (k, id) := Function.update_self _ _ _
  have hother : ∀ p, p ≠ idx → (t.put idx k id).slot p = t.slot p := fun p hp =>
    Function.update_of_ne hp _ _
  have hkeep : ∀ p, t.slot p ≠ none → (t.put idx k id).slot p = t.slot p := fun p hp =>
    hother p fun heq => hp (heq ▸ hs)
  refine ⟨h.cap_pos, fun pair => ?_, ?_, ?_, ?_⟩
  · constructor
    · rintro (rfl | hin)
      · exact ⟨idx, hlt, hself⟩
      · obtain ⟨p, hp, hslot⟩ := (h.mem pair).mp hin
        exact ⟨p, hp, (hkeep p (by simp [hslot])).trans hslot⟩
    · rintro ⟨p, hp, hslot⟩
      by_cases hpi : p = idx
      · subst hpi
        rw [hself] at hslot
        exact .inl (Option.some.inj hslot).symm
      · rw [hother p hpi] at hslot
        exact .inr ((h.mem pair).mpr ⟨p, hp, hslot⟩)
  · intro p hp q hq k' i j hpk hqk
    have hnew : ∀ p < t.cap, p ≠ idx → (t.put idx k id).slot p = some (k', i) → k' ≠ k := by
      intro p hp hpi hslot heq
      rw [hother p hpi, heq] at hslot
      exact hk i ((h.mem _).mpr ⟨p, hp, hslot⟩)
    by_cases hpi : p = idx <;> by_cases hqi : q = idx
    · rw [hpi, hqi]
    · subst hpi
      rw [hself] at hpk
      rw [hother q hqi] at hqk
      obtain ⟨rfl, -⟩ := Prod.mk.inj (Option.some.inj hpk)
      exact absurd ((h.mem _).mpr ⟨q, hq, hqk⟩) (hk j)
    · subst hqi
      rw [hself] at hqk
      obtain ⟨rfl, -⟩ := Prod.mk.inj (Option.some.inj hqk)
      exact absurd rfl (hnew p hp hpi hpk)
    · rw [hother p hpi] at hpk
      rw [hother q hqi] at hqk
      exact h.once p hp q hq k' i j hpk hqk
  · intro p hp k' i hslot
    by_cases hpi : p = idx
    · subst hpi
      rw [hself] at hslot
      obtain ⟨rfl, -⟩ := Prod.mk.inj (Option.some.inj hslot)
      refine ⟨D, hD, rfl, fun d hd => ?_⟩
      rw [show (t.put idx k id).cap = t.cap from rfl, hkeep _ (hpath d hd)]
      exact hpath d hd
    · rw [hother p hpi] at hslot
      obtain ⟨D', hD', hp', hpath'⟩ := h.path p hp k' i hslot
      refine ⟨D', hD', hp', fun d hd => ?_⟩
      rw [show (t.put idx k id).cap = t.cap from rfl, hkeep _ (hpath' d hd)]
      exact hpath' d hd
  · have htaken : (t.put idx k id).taken = insert idx t.taken := by
      ext p
      simp only [Table.taken, Finset.mem_filter, Finset.mem_range, Finset.mem_insert]
      by_cases hpi : p = idx
      · subst hpi
        simp [hlt, Table.put]
      · simp [hpi, Table.put]
    have hnot : idx ∉ t.taken := by simp [Table.taken, hs]
    rw [htaken, Finset.card_insert_of_notMem hnot, h.count]
    rfl

/-- A key that is not there goes into the first empty slot on its path. -/
theorem Inv.putNew (h : Inv hash t S) (hused : t.used < t.cap) {k : K} (hk : ∀ id, (k, id) ∉ S)
    (id : ℕ) : Inv hash (putNew hash t (k, id)) (insert (k, id) S) ∧
      (putNew hash t (k, id)).cap = t.cap ∧ (putNew hash t (k, id)).used = t.used + 1 := by
  rcases h.probe_cases hused (fun _ => false) (hash k) with
    ⟨D, k', id', -, -, -, hacc, -⟩ | ⟨D, hD, hpass, hslot, hres⟩
  · cases hacc
  · have hpath : ∀ d < D, t.slot ((hash k + d) % t.cap) ≠ none := fun d hd => by
      obtain ⟨k', id', hs', -⟩ := hpass d hd
      simp [hs']
    unfold Probe.putNew
    simp only [hres]
    exact ⟨h.put hk hslot hD hpath id, rfl, rfl⟩

/-- **A table that is built anew** holds the keys it is built of. -/
theorem inv_rebuild {cap : ℕ} {pairs : List (K × ℕ)} (hlen : pairs.length < cap)
    (hnodup : (pairs.map Prod.fst).Nodup) :
    Inv hash (rebuild hash cap pairs) {pair | pair ∈ pairs} ∧
      (rebuild hash cap pairs).cap = cap ∧ (rebuild hash cap pairs).used = pairs.length := by
  induction pairs using List.reverseRecOn with
  | nil =>
    have hnone : {pair : K × ℕ | pair ∈ ([] : List (K × ℕ))} = ∅ := by simp
    rw [hnone]
    exact ⟨Inv.empty (by omega), rfl, rfl⟩
  | append_singleton pairs pair ih =>
    rw [List.length_append, List.length_singleton] at hlen
    rw [List.map_append, List.nodup_append] at hnodup
    obtain ⟨hinv, hcap, hused⟩ := ih (by omega) hnodup.1
    have hk : ∀ id, (pair.1, id) ∉ {p | p ∈ pairs} := fun id hid =>
      hnodup.2.2 pair.1 (List.mem_map.mpr ⟨_, hid, rfl⟩) pair.1 (by simp) rfl
    obtain ⟨hinv', hcap', hused'⟩ := hinv.putNew (by omega) hk pair.2
    have hset : {p | p ∈ pairs ++ [pair]} = insert (pair.1, pair.2) {p | p ∈ pairs} := by
      ext p
      simp [or_comm]
    unfold rebuild at hinv' hcap' hused' hcap hused ⊢
    rw [List.foldl_append, List.foldl_cons, List.foldl_nil, hset, List.length_append,
      List.length_singleton]
    exact ⟨hinv', hcap'.trans hcap, hused'.trans (congrArg (· + 1) hused)⟩

/-- The pairs in the first slots. -/
def firstPairs (t : Table K) (i : ℕ) : Set (K × ℕ) := {pair | ∃ p < i, t.slot p = some pair}

/-- Copying one more slot. -/
theorem Inv.copySlot {old new : Table K} (hold : Inv hash old S) {i : ℕ} (hi : i < old.cap)
    (hnew : Inv hash new (firstPairs old i)) (hcap : old.cap < new.cap)
    (hused : new.used = ((Finset.range i).filter fun p => (old.slot p).isSome).card) :
    Inv hash (copySlot hash old new i) (firstPairs old (i + 1)) ∧
      (Probe.copySlot hash old new i).cap = new.cap ∧
      (Probe.copySlot hash old new i).used =
        ((Finset.range (i + 1)).filter fun p => (old.slot p).isSome).card := by
  have hrange : Finset.range (i + 1) = insert i (Finset.range i) := Finset.range_add_one
  unfold Probe.copySlot
  cases hs : old.slot i with
  | none =>
    have hpairs : firstPairs old (i + 1) = firstPairs old i := by
      ext pair
      constructor
      · rintro ⟨p, hp, hslot⟩
        rcases Nat.lt_succ_iff_lt_or_eq.mp hp with hp | rfl
        · exact ⟨p, hp, hslot⟩
        · rw [hs] at hslot
          cases hslot
      · exact fun ⟨p, hp, hslot⟩ => ⟨p, by omega, hslot⟩
    refine ⟨hpairs ▸ hnew, rfl, ?_⟩
    rw [hrange, Finset.filter_insert, if_neg (by simp [hs]), hused]
  | some pair =>
    obtain ⟨k, id⟩ := pair
    have hlt : new.used < new.cap := by
      have := (Finset.card_filter_le (Finset.range i) fun p => (old.slot p).isSome).trans
        (Finset.card_range i).le
      omega
    have hk : ∀ id', (k, id') ∉ firstPairs old i := by
      rintro id' ⟨p, hp, hslot⟩
      have := hold.once p (by omega) i hi k id' id hslot hs
      omega
    have hpairs : firstPairs old (i + 1) = insert (k, id) (firstPairs old i) := by
      ext pair
      constructor
      · rintro ⟨p, hp, hslot⟩
        rcases Nat.lt_succ_iff_lt_or_eq.mp hp with hp | rfl
        · exact .inr ⟨p, hp, hslot⟩
        · rw [hs] at hslot
          exact .inl (Option.some.inj hslot).symm
      · rintro (rfl | ⟨p, hp, hslot⟩)
        · exact ⟨i, by omega, hs⟩
        · exact ⟨p, by omega, hslot⟩
    obtain ⟨hinv, hcap', hused'⟩ := hnew.putNew hlt hk id
    rw [hrange, Finset.filter_insert, if_pos (by simp [hs]),
      Finset.card_insert_of_notMem (by simp), ← hused]
    exact ⟨hpairs ▸ hinv, hcap', hused'⟩

/-- Copying the first slots. -/
theorem Inv.copySlots (h : Inv hash t S) {cap : ℕ} (hlt : t.cap < cap) {i : ℕ} (hi : i ≤ t.cap) :
    Inv hash ((List.range i).foldl (Probe.copySlot hash t) (Table.empty cap)) (firstPairs t i) ∧
      ((List.range i).foldl (Probe.copySlot hash t) (Table.empty cap)).cap = cap ∧
      ((List.range i).foldl (Probe.copySlot hash t) (Table.empty cap)).used =
        ((Finset.range i).filter fun p => (t.slot p).isSome).card := by
  induction i with
  | zero =>
    have hnone : firstPairs t 0 = ∅ :=
      Set.eq_empty_of_forall_notMem fun pair ⟨p, hp, _⟩ => Nat.not_lt_zero p hp
    rw [hnone]
    exact ⟨Inv.empty (by omega), rfl, rfl⟩
  | succ i ih =>
    obtain ⟨hinv, hcap, hused⟩ := ih (by omega)
    rw [List.range_succ, List.foldl_append, List.foldl_cons, List.foldl_nil]
    obtain ⟨hinv', hcap', hused'⟩ := h.copySlot (by omega) hinv (by omega) hused
    exact ⟨hinv', hcap'.trans hcap, hused'⟩

/-- **Copying into a larger table keeps the pairs.** -/
theorem Inv.growTo (h : Inv hash t S) {cap : ℕ} (hlt : t.cap < cap) :
    Inv hash (Probe.growTo hash cap t) S ∧ (Probe.growTo hash cap t).cap = cap ∧
      (Probe.growTo hash cap t).used = t.used := by
  obtain ⟨hinv, hcap, hused⟩ := h.copySlots hlt le_rfl
  have hall : firstPairs t t.cap = S := by
    ext pair
    exact (h.mem pair).symm
  rw [hall] at hinv
  exact ⟨hinv, hcap, hused.trans h.count⟩

/-- **Growing keeps the pairs**, and doubles the slots. -/
theorem Inv.grow (h : Inv hash t S) :
    Inv hash (Probe.grow hash t) S ∧ (Probe.grow hash t).cap = 2 * t.cap ∧
      (Probe.grow hash t).used = t.used := by
  have hpos := h.cap_pos
  exact h.growTo (by omega)

/-- The invariant is about the slots there are. -/
theorem Inv.congr {t' : Table K} (h : Inv hash t S) (hcap : t'.cap = t.cap)
    (hused : t'.used = t.used) (hslot : ∀ p < t.cap, t'.slot p = t.slot p) : Inv hash t' S := by
  have hmod : ∀ n, n % t.cap < t.cap := fun n => Nat.mod_lt _ h.cap_pos
  refine ⟨hcap ▸ h.cap_pos, fun pair => ?_, ?_, ?_, ?_⟩
  · rw [h.mem pair, hcap]
    refine exists_congr fun p => and_congr_right fun hp => ?_
    rw [hslot p hp]
  · rw [hcap]
    intro p hp q hq k i j hpk hqk
    rw [hslot p hp] at hpk
    rw [hslot q hq] at hqk
    exact h.once p hp q hq k i j hpk hqk
  · rw [hcap]
    intro p hp k i hpk
    rw [hslot p hp] at hpk
    obtain ⟨D, hD, hDp, hpath⟩ := h.path p hp k i hpk
    refine ⟨D, hD, hDp, fun d hd => ?_⟩
    rw [hslot _ (hmod _)]
    exact hpath d hd
  · rw [hused, ← h.count]
    refine congrArg Finset.card ?_
    unfold Table.taken
    rw [hcap]
    exact Finset.filter_congr fun p hp => by rw [hslot p (Finset.mem_range.mp hp)]

end Probe
