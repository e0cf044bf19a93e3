import DatalogDafsa.Lib.Probe
import DatalogDafsa.TupleTable

/-!
# Tuple sets keep their table

The table of row numbers is seen as an open-addressing table of rows with their numbers,
so what is known of those holds of it: `Indexed` says that it has the first rows.  From
there each call is exact on the rows, and so is a sequence of calls, up to the largest
table.

## Main definitions

* `Table.toProbe`, `Indexed` — the table, and what it holds.
* `Ok` — the invariant.
* `tsAdd_new`, `tsAdd_full`, `tsSort_spec`, `tsPrefixAt_spec` — the calls.
* `tupleTable_exact` — **sequences of calls**.
-/

namespace DatalogDafsa.TupleTable

/-! ## Sizes -/

theorem le_overSeventy (n : ℕ) : n * 2 ^ 53 / seventyPercent ≤ overSeventy n := by
  unfold overSeventy
  dsimp only
  generalize 52 - Nat.log2 (n * 2 ^ 53 / seventyPercent) = s
  have hpos : 0 < 2 ^ s := Nat.two_pow_pos s
  have hdiv : n * 2 ^ 53 * 2 ^ s / seventyPercent / 2 ^ s = n * 2 ^ 53 / seventyPercent := by
    rw [Nat.div_div_eq_div_mul, Nat.mul_div_mul_right _ _ hpos]
  rw [← hdiv]
  refine Nat.div_le_div_right ?_
  split <;> omega

theorem overSeventy_le (n : ℕ) : overSeventy n ≤ n * 2 ^ 53 / seventyPercent + 1 := by
  unfold overSeventy
  dsimp only
  generalize 52 - Nat.log2 (n * 2 ^ 53 / seventyPercent) = s
  have hpos : 0 < 2 ^ s := Nat.two_pow_pos s
  have hdiv : n * 2 ^ 53 * 2 ^ s / seventyPercent / 2 ^ s = n * 2 ^ 53 / seventyPercent := by
    rw [Nat.div_div_eq_div_mul, Nat.mul_div_mul_right _ _ hpos]
  rw [← hdiv, ← Nat.add_div_right _ hpos]
  refine Nat.div_le_div_right ?_
  split <;> omega

/-- What a full table of `4 * x` slots asks for lies between it and one twice as large. -/
theorem overSeventy_bounds {x : ℕ} (hx : 4 ≤ x) :
    4 * x < overSeventy (3 * x + 1) ∧ overSeventy (3 * x + 1) ≤ 8 * x := by
  have hlow := le_overSeventy (3 * x + 1)
  have hhigh := overSeventy_le (3 * x + 1)
  have hge : 4 * x + 1 ≤ (3 * x + 1) * 2 ^ 53 / seventyPercent := by
    rw [Nat.le_div_iff_mul_le (by decide)]
    unfold seventyPercent
    omega
  have hlt : (3 * x + 1) * 2 ^ 53 / seventyPercent < 8 * x := by
    rw [Nat.div_lt_iff_lt_mul (by decide)]
    unfold seventyPercent
    omega
  omega

/-- Doubling stops at the first power that is enough. -/
theorem growCap_eq {fuel j m need : ℕ} (hjm : j ≤ m) (hlow : j < m → 2 ^ (m - 1) < need)
    (hhigh : need ≤ 2 ^ m) (hm : m < 64) (hfuel : m - j ≤ fuel) :
    growCap fuel (2 ^ j) need = 2 ^ m := by
  induction fuel generalizing j with
  | zero =>
    obtain rfl : j = m := by omega
    rfl
  | succ fuel ih =>
    unfold growCap
    rcases Nat.eq_or_lt_of_le hjm with rfl | hlt
    · rw [if_neg (by omega)]
    · have hpow : 2 ^ j ≤ 2 ^ (m - 1) := Nat.pow_le_pow_right (by omega) (by omega)
      have hdouble : 2 * 2 ^ j % 2 ^ 64 = 2 ^ (j + 1) := by
        rw [← Nat.pow_succ', Nat.mod_eq_of_lt (Nat.pow_lt_pow_right (by omega) (by omega))]
      have hneed := hlow hlt
      rw [if_pos (by omega), hdouble]
      exact ih (by omega) (fun _ => hneed) (by omega)

/-! ## The table as a table of rows -/

/-- The hash of a row as a number. -/
def rowHash (r : Row) : ℕ := (tsHashCols r).toNat

/-- What the slots stand for: a row and its number. -/
def slots (data : ℕ → Row) (htab : ℕ → ℕ) (i : ℕ) : Option (Row × ℕ) :=
  if htab i = 0 then none else some (data (htab i - 1), htab i)

/-- The table of rows that a table of row numbers stands for. -/
def Table.toProbe (t : Table) : Probe.Table Row := ⟨t.hcap, slots t.data t.htab, t.hused⟩

@[simp] theorem toProbe_cap (t : Table) : t.toProbe.cap = t.hcap := rfl
@[simp] theorem toProbe_slot (t : Table) : t.toProbe.slot = slots t.data t.htab := rfl
@[simp] theorem toProbe_used (t : Table) : t.toProbe.used = t.hused := rfl

theorem slots_eq_none {data : ℕ → Row} {htab : ℕ → ℕ} {i : ℕ} :
    slots data htab i = none ↔ htab i = 0 := by
  unfold slots
  split
  · exact iff_of_true rfl ‹_›
  · exact iff_of_false (by simp) ‹_›

theorem slots_eq_some {data : ℕ → Row} {htab : ℕ → ℕ} {i n : ℕ} {r : Row} :
    slots data htab i = some (r, n) ↔ htab i ≠ 0 ∧ htab i = n ∧ data (n - 1) = r := by
  unfold slots
  split
  · rename_i h
    simp [h]
  · rename_i h
    simp only [Option.some.injEq, Prod.mk.injEq, ne_eq, h, not_false_eq_true, true_and]
    constructor
    · rintro ⟨rfl, rfl⟩
      exact ⟨rfl, rfl⟩
    · rintro ⟨rfl, rfl⟩
      exact ⟨rfl, rfl⟩

theorem slots_update {data : ℕ → Row} {htab : ℕ → ℕ} {i n : ℕ} (hn : n ≠ 0) :
    slots data (Function.update htab i n) =
      Function.update (slots data htab) i (some (data (n - 1), n)) := by
  funext p
  unfold slots
  by_cases hp : p = i
  · subst hp
    simp [hn]
  · simp [hp]

theorem home_eq {k : ℕ} (r : Row) : home (2 ^ k) r = rowHash r % 2 ^ k :=
  Nat.and_two_pow_sub_one_eq_mod _ k

/-- The number a search ends at; zero at an empty slot. -/
def hitNumber : Probe.Hit → Option ℕ
  | .found id => some id
  | .empty _ => some 0
  | .full => none

/-- The empty slot a search ends at. -/
def hitSlot : Probe.Hit → Option ℕ
  | .empty idx => some idx
  | _ => none

theorem findFrom_eq {t : Table} {k : ℕ} (hk : t.hcap = 2 ^ k) (r : Row) (fuel idx : ℕ) :
    findFrom t r fuel idx = hitNumber (Probe.probe (fun r' => r' = r) t.toProbe fuel idx) := by
  induction fuel generalizing idx with
  | zero => rfl
  | succ fuel ih =>
    have hnext : (idx + 1) &&& (t.hcap - 1) = (idx + 1) % t.hcap := by
      rw [hk]
      exact Nat.and_two_pow_sub_one_eq_mod _ k
    unfold findFrom Probe.probe
    rw [hnext, toProbe_slot, toProbe_cap]
    unfold slots
    by_cases hz : t.htab idx = 0
    · simp [hz, hitNumber]
    · by_cases hr : r = t.data (t.htab idx - 1)
      · simp [hz, hr, hitNumber]
      · have hr' : t.data (t.htab idx - 1) ≠ r := fun h => hr h.symm
        simp [hz, hr, hr', ih]

theorem freeFrom_eq {data : ℕ → Row} {htab : ℕ → ℕ} {P : Probe.Table Row} {k : ℕ}
    (hk : P.cap = 2 ^ k) (hslot : P.slot = slots data htab) (fuel idx : ℕ) :
    freeFrom htab (2 ^ k) fuel idx = hitSlot (Probe.probe (fun _ => false) P fuel idx) := by
  induction fuel generalizing idx with
  | zero => rfl
  | succ fuel ih =>
    unfold freeFrom Probe.probe
    rw [Nat.and_two_pow_sub_one_eq_mod, hslot, hk]
    unfold slots
    by_cases hz : htab idx = 0
    · simp [hz, hitSlot]
    · simp [hz, ih]

/-! ## What the table holds -/

/-- The first rows with their numbers. -/
def pairs (data : ℕ → Row) (n : ℕ) : Set (Row × ℕ) := {p | ∃ i < n, p = (data i, i + 1)}

theorem pairs_succ (data : ℕ → Row) (n : ℕ) :
    pairs data (n + 1) = insert (data n, n + 1) (pairs data n) := by
  ext p
  constructor
  · rintro ⟨i, hi, rfl⟩
    rcases Nat.lt_succ_iff_lt_or_eq.mp hi with hlt | rfl
    · exact .inr ⟨i, hlt, rfl⟩
    · exact .inl rfl
  · rintro (rfl | ⟨i, hi, rfl⟩)
    · exact ⟨n, Nat.lt_succ_self n, rfl⟩
    · exact ⟨i, by omega, rfl⟩

theorem pairs_congr {data data' : ℕ → Row} {n : ℕ} (h : ∀ i < n, data' i = data i) :
    pairs data' n = pairs data n := by
  ext p
  refine exists_congr fun i => and_congr_right fun hi => ?_
  rw [h i hi]

/-- The table holds the numbers of the first `n` rows. -/
structure Indexed (t : Table) (n : ℕ) : Prop where
  /-- A table has a power of two slots. -/
  pow : t.hcap = 0 ∨ ∃ k, 4 ≤ k ∧ k ≤ 30 ∧ t.hcap = 2 ^ k
  /-- Searches find the rows. -/
  inv : t.hcap ≠ 0 → Probe.Inv rowHash t.toProbe (pairs t.data n)
  /-- At most three quarters of the slots are in use. -/
  load : 4 * n ≤ 3 * t.hcap
  /-- The slots in use are counted. -/
  used : t.hused = n

namespace Indexed

variable {t t' : Table} {n : ℕ}

theorem zero (t : Table) (hpow : t.hcap = 0 ∨ ∃ k, 4 ≤ k ∧ k ≤ 30 ∧ t.hcap = 2 ^ k)
    (htab : t.htab = fun _ => 0) (hused : t.hused = 0) : Indexed t 0 where
  pow := hpow
  inv hcap := by
    have hempty : t.toProbe = Probe.Table.empty t.hcap := by
      unfold Table.toProbe slots Probe.Table.empty
      simp [htab, hused]
    have hnone : pairs t.data 0 = ∅ :=
      Set.eq_empty_of_forall_notMem fun p ⟨i, hi, _⟩ => Nat.not_lt_zero i hi
    rw [hempty, hnone]
    exact Probe.Inv.empty (Nat.pos_of_ne_zero hcap)
  load := Nat.zero_le _
  used := hused

/-- A number in the table is that of a row. -/
theorem number (h : Indexed t n) {p : ℕ} (hp : p < t.hcap) (hne : t.htab p ≠ 0) :
    t.htab p - 1 < n ∧ 1 ≤ t.htab p := by
  have hcap : t.hcap ≠ 0 := by omega
  obtain ⟨i, hi, heq⟩ := ((h.inv hcap).mem (t.data (t.htab p - 1), t.htab p)).mpr
    ⟨p, hp, slots_eq_some.mpr ⟨hne, rfl, rfl⟩⟩
  have := congrArg Prod.snd heq
  dsimp only at this
  omega

/-- Only the rows in the table matter. -/
theorem congr (h : Indexed t n) (hcap : t'.hcap = t.hcap) (hused : t'.hused = t.hused)
    (htab : t'.htab = t.htab) (hdata : ∀ i < n, t'.data i = t.data i) : Indexed t' n where
  pow := hcap ▸ h.pow
  inv hne := by
    rw [hcap] at hne
    rw [pairs_congr hdata]
    refine (h.inv hne).congr hcap hused fun p hp => ?_
    rw [toProbe_slot, toProbe_slot, htab]
    unfold slots
    split
    · rfl
    · rename_i hz
      rw [hdata _ (h.number hp hz).1]
  load := hcap ▸ h.load
  used := hused.trans h.used

theorem lt_hcap (h : Indexed t n) (hcap : t.hcap ≠ 0) : t.hused < t.hcap := by
  have := h.load
  have := h.used
  omega

/-- A table has at most `maxRows` numbers. -/
theorem le_maxRows (h : Indexed t n) : n ≤ maxRows := by
  have hload := h.load
  unfold maxRows
  rcases h.pow with hz | ⟨k, -, hk, hcap⟩
  · omega
  · have : 2 ^ k ≤ 2 ^ 30 := Nat.pow_le_pow_right (by omega) hk
    omega

end Indexed

/-! ## Searching -/

/-- **A search finds the number of a row**, or that it is not there. -/
theorem tsHashFind_spec {t : Table} {n : ℕ} (h : Indexed t n) (r : Row) :
    (∃ i < n, t.data i = r ∧ tsHashFind t r = some (i + 1)) ∨
      (∀ i < n, t.data i ≠ r) ∧ tsHashFind t r = some 0 := by
  unfold tsHashFind
  rcases h.pow with hz | ⟨k, -, -, hk⟩
  · have hload := h.load
    rw [if_pos hz]
    exact .inr ⟨fun i hi => by omega, rfl⟩
  have hcap : t.hcap ≠ 0 := by
    rw [hk]
    exact (Nat.two_pow_pos k).ne'
  have hhome : home t.hcap r = rowHash r % t.hcap := by
    rw [hk]
    exact home_eq r
  rw [if_neg hcap, findFrom_eq hk, hhome]
  rcases (h.inv hcap).probe (h.lt_hcap hcap) r with ⟨id, ⟨i, hi, heq⟩, hres⟩ | ⟨hno, D, -, -, -, hres⟩
  · obtain ⟨rfl, rfl⟩ := Prod.mk.inj heq
    rw [toProbe_cap] at hres
    exact .inl ⟨i, hi, rfl, by rw [hres]; rfl⟩
  · rw [toProbe_cap] at hres
    refine .inr ⟨fun i hi heq => hno (i + 1) ⟨i, hi, by rw [heq]⟩, ?_⟩
    rw [hres]
    rfl

/-! ## Entering a row -/

/-- A new row goes into the first empty slot on its path. -/
theorem tsHashInsert_spec {t : Table} {k n : ℕ} {S : Set (Row × ℕ)} (hk : t.hcap = 2 ^ k)
    (hinv : Probe.Inv rowHash t.toProbe S) (hused : t.hused < t.hcap)
    (hnew : ∀ id, (t.data n, id) ∉ S) :
    ∃ htab, tsHashInsert t (t.data n) (n + 1) = some { t with htab := htab } ∧
      Probe.Inv rowHash ({ t with htab := htab, hused := t.hused + 1 } : Table).toProbe
        (insert (t.data n, n + 1) S) := by
  have hhome : home t.hcap (t.data n) = rowHash (t.data n) % t.hcap := by
    rw [hk]
    exact home_eq _
  rcases hinv.probe_cases hused (fun _ => false) (rowHash (t.data n)) with
    ⟨D, r, id, -, -, -, hacc, -⟩ | ⟨D, hD, hpass, hslot, hres⟩
  · cases hacc
  have hfree : freeFrom t.htab t.hcap t.hcap (home t.hcap (t.data n)) =
      some ((rowHash (t.data n) + D) % t.hcap) := by
    rw [hhome]
    rw [toProbe_cap] at hres
    have hfrom := freeFrom_eq (P := t.toProbe) hk rfl t.hcap (rowHash (t.data n) % t.hcap)
    rw [← hk] at hfrom
    rw [hfrom, hres]
    rfl
  unfold tsHashInsert
  rw [hfree]
  refine ⟨_, rfl, ?_⟩
  have hpath : ∀ d < D, t.toProbe.slot ((rowHash (t.data n) + d) % t.toProbe.cap) ≠ none :=
    fun d hd => by
      obtain ⟨r, id, hs, -⟩ := hpass d hd
      rw [hs]
      exact Option.some_ne_none _
  have hput := hinv.put hnew hslot hD hpath (n + 1)
  have heq : ({ t with
      htab := Function.update t.htab ((rowHash (t.data n) + D) % t.hcap) (n + 1)
      hused := t.hused + 1 } : Table).toProbe =
        t.toProbe.put ((rowHash (t.data n) + D) % t.toProbe.cap) (t.data n) (n + 1) := by
    unfold Table.toProbe Probe.Table.put
    rw [slots_update (Nat.succ_ne_zero n)]
    rfl
  rw [heq]
  exact hput

/-- **Copying the numbers into a larger table** keeps them. -/
theorem rehash_spec {t : Table} {j : ℕ} {S : Set (Row × ℕ)}
    (hinv : Probe.Inv rowHash t.toProbe S) (hlt : t.hcap < 2 ^ j) {i : ℕ} (hi : i ≤ t.hcap) :
    ∃ new, (List.range i).foldlM (rehashSlot t (2 ^ j)) (fun _ => 0) = some new ∧
      ((List.range i).foldl (Probe.copySlot rowHash t.toProbe) (Probe.Table.empty (2 ^ j))).slot =
        slots t.data new := by
  induction i with
  | zero =>
    refine ⟨fun _ => 0, rfl, ?_⟩
    funext p
    simp [slots, Probe.Table.empty]
  | succ i ih =>
    obtain ⟨new, hnew, hslot⟩ := ih (by omega)
    obtain ⟨hcopied, hcap, hused⟩ := hinv.copySlots hlt (Nat.le_of_succ_le hi)
    rw [List.range_succ, List.foldlM_append, hnew, List.foldl_append]
    simp only [Option.bind_eq_bind, Option.bind_some, List.foldlM_cons, List.foldlM_nil,
      List.foldl_cons, List.foldl_nil]
    generalize (List.range i).foldl (Probe.copySlot rowHash t.toProbe) (Probe.Table.empty (2 ^ j)) =
      P at hslot hcopied hcap hused ⊢
    unfold rehashSlot Probe.copySlot
    by_cases hz : t.htab i = 0
    · have hs : t.toProbe.slot i = none := slots_eq_none.mpr hz
      rw [if_pos hz, hs]
      exact ⟨new, rfl, hslot⟩
    have hs : t.toProbe.slot i = some (t.data (t.htab i - 1), t.htab i) :=
      slots_eq_some.mpr ⟨hz, rfl, rfl⟩
    have hroom : P.used < P.cap := by
      have := (Finset.card_filter_le (Finset.range i) fun p => (t.toProbe.slot p).isSome).trans
        (Finset.card_range i).le
      omega
    rw [if_neg hz, hs]
    dsimp only
    rcases hcopied.probe_cases hroom (fun _ => false) (rowHash (t.data (t.htab i - 1))) with
      ⟨D, r, id, -, -, -, hacc, -⟩ | ⟨D, -, -, -, hres⟩
    · cases hacc
    have hfrom := freeFrom_eq hcap hslot (2 ^ j) (rowHash (t.data (t.htab i - 1)) % 2 ^ j)
    rw [hcap] at hres
    rw [hres] at hfrom
    rw [home_eq, hfrom, hcap, hres]
    refine ⟨_, rfl, ?_⟩
    rw [slots_update hz, ← hslot]
    rfl

/-- **Growing keeps the numbers.** -/
theorem tsHashGrow_spec {t : Table} {n need j : ℕ} (h : Indexed t n)
    (hneed : growCap 64 16 need = 2 ^ j) (hj : 4 ≤ j) (hj' : j ≤ 30) (hlt : t.hcap < 2 ^ j) :
    ∃ htab, tsHashGrow t need = some (0, { t with htab := htab, hcap := 2 ^ j }) ∧
      Indexed { t with htab := htab, hcap := 2 ^ j } n := by
  have hsize : ¬2 ^ 30 < 2 ^ j := not_lt.mpr (Nat.pow_le_pow_right (by omega) hj')
  unfold tsHashGrow
  dsimp only
  rw [hneed, if_neg hsize]
  by_cases hcap : t.hcap = 0
  · have hload := h.load
    obtain rfl : n = 0 := by omega
    rw [hcap]
    exact ⟨_, rfl, Indexed.zero _ (.inr ⟨j, hj, hj', rfl⟩) rfl h.used⟩
  · have hinv := h.inv hcap
    obtain ⟨new, hnew, hslot⟩ := rehash_spec hinv hlt le_rfl
    obtain ⟨hgrown, hgcap, hgused⟩ := hinv.growTo hlt
    rw [hnew]
    refine ⟨_, rfl, .inr ⟨j, hj, hj', rfl⟩, fun _ => ?_, ?_, h.used⟩
    · refine hgrown.congr hgcap.symm hgused.symm fun p _ => ?_
      exact congrFun hslot.symm p
    · have := h.load
      dsimp only
      omega

/-- A table that is full asks for one twice as large. -/
theorem growCap_full {k : ℕ} (hk : 4 ≤ k) (hk' : k ≤ 30) :
    growCap 64 16 (overSeventy (3 * 2 ^ (k - 2) + 1)) = 2 ^ (k + 1) := by
  have hx : 4 ≤ 2 ^ (k - 2) := Nat.pow_le_pow_right (n := 2) (by omega) (show 2 ≤ k - 2 by omega)
  have hfour : 4 * 2 ^ (k - 2) = 2 ^ k := by
    rw [← Nat.pow_add 2 2 (k - 2)]
    congr 1
    omega
  obtain ⟨hlow, hhigh⟩ := overSeventy_bounds hx
  refine growCap_eq (j := 4) (by omega) (fun _ => ?_) ?_ (by omega) (by omega)
  · rw [Nat.add_sub_cancel]
    omega
  · rw [Nat.pow_succ]
    omega

/-- The next row is entered, the table having room. -/
theorem tsIndex_room {t : Table} {n : ℕ} (h : Indexed t n) (hnew : ∀ i < n, t.data i ≠ t.data n)
    (hcap : t.hcap ≠ 0) (hroom : 4 * (n + 1) ≤ 3 * t.hcap) :
    ∃ htab, (tsHashInsert t (t.data n) (n + 1)).map
        (fun t' => ((0 : ℤ), { t' with hused := t'.hused + 1 })) =
          some (0, { t with htab := htab, hused := t.hused + 1 }) ∧
      Indexed { t with htab := htab, hused := t.hused + 1 } (n + 1) := by
  obtain ⟨k, -, -, hk⟩ := h.pow.resolve_left hcap
  have hno : ∀ id, (t.data n, id) ∉ pairs t.data n := fun id ⟨i, hi, heq⟩ =>
    hnew i hi (congrArg Prod.fst heq).symm
  obtain ⟨htab, hins, hinv⟩ := tsHashInsert_spec hk (h.inv hcap) (h.lt_hcap hcap) hno
  rw [hins]
  refine ⟨htab, rfl, h.pow, fun _ => ?_, hroom, congrArg (· + 1) h.used⟩
  rw [← pairs_succ] at hinv
  exact hinv

/-- **The next row is entered**, while there are fewer than `maxRows`. -/
theorem tsIndex_spec {t : Table} {n : ℕ} (h : Indexed t n) (hnew : ∀ i < n, t.data i ≠ t.data n)
    (hn : n < maxRows) :
    ∃ htab hcap, tsIndex t (n + 1) =
        some (0, { t with htab := htab, hcap := hcap, hused := t.hused + 1 }) ∧
      Indexed { t with htab := htab, hcap := hcap, hused := t.hused + 1 } (n + 1) := by
  have hload := h.load
  unfold tsIndex
  dsimp only
  by_cases hgrow : t.hcap = 0 ∨ t.hcap - t.hcap / 4 < n + 1
  · rw [if_pos hgrow]
    have hsize : ∃ j, 4 ≤ j ∧ j ≤ 30 ∧ t.hcap < 2 ^ j ∧ 4 * (n + 1) ≤ 3 * 2 ^ j ∧
        growCap 64 16 (if overSeventy (n + 1) < 16 then 16 else overSeventy (n + 1)) = 2 ^ j := by
      rcases h.pow with hz | ⟨k, hk, hk', hcap⟩
      · obtain rfl : n = 0 := by omega
        exact ⟨4, by omega, by omega, by omega, by omega, by decide⟩
      · have hfour : 4 * 2 ^ (k - 2) = 2 ^ k := by
          rw [← Nat.pow_add 2 2 (k - 2)]
          congr 1
          omega
        have hx : 4 ≤ 2 ^ (k - 2) :=
          Nat.pow_le_pow_right (n := 2) (by omega) (show 2 ≤ k - 2 by omega)
        have hfull : n = 3 * 2 ^ (k - 2) := by omega
        have hklt : k ≠ 30 := by
          rintro rfl
          unfold maxRows at hn
          omega
        have hneed := (overSeventy_bounds hx).1
        rw [← hfull] at hneed
        have hcap' := growCap_full hk hk'
        rw [← hfull] at hcap'
        rw [if_neg (by omega), hcap']
        refine ⟨k + 1, by omega, by omega, ?_, ?_, rfl⟩
        · rw [hcap]
          exact Nat.pow_lt_pow_right (by omega) (by omega)
        · rw [Nat.pow_succ]
          omega
    obtain ⟨j, hj, hj', hlt, hroom, hneed⟩ := hsize
    obtain ⟨htab, hgrown, hidx⟩ := tsHashGrow_spec h hneed hj hj' hlt
    rw [hgrown]
    obtain ⟨htab', hins, hidx'⟩ := tsIndex_room hidx hnew (Nat.two_pow_pos j).ne' hroom
    exact ⟨htab', 2 ^ j, hins, hidx'⟩
  · rw [if_neg hgrow]
    have hfour : 4 ∣ t.hcap := by
      rcases h.pow with hz | ⟨k, hk, -, hcap⟩
      · simp [hz]
      · rw [hcap]
        exact pow_dvd_pow 2 (show 2 ≤ k by omega)
    obtain ⟨htab, hins, hidx⟩ := tsIndex_room h hnew (by omega) (by omega)
    exact ⟨htab, t.hcap, hins, hidx⟩

/-- A row too many is refused. -/
theorem tsIndex_full {t : Table} (h : Indexed t maxRows) :
    tsIndex t (maxRows + 1) = some (-1, t) := by
  have hload := h.load
  have hcap : t.hcap = 2 ^ 30 := by
    unfold maxRows at hload
    rcases h.pow with hz | ⟨k, -, hk, hcap⟩
    · omega
    · have : 2 ^ k ≤ 2 ^ 30 := Nat.pow_le_pow_right (by omega) hk
      omega
  have hneed : growCap 64 16 (overSeventy (maxRows + 1)) = 2 ^ 31 := growCap_full (k := 30)
    (by omega) le_rfl
  have hbig : ¬overSeventy (maxRows + 1) < 16 := by
    have := (overSeventy_bounds (x := 2 ^ 28) (by norm_num)).1
    unfold maxRows
    omega
  have hfull : t.hcap - t.hcap / 4 < maxRows + 1 := by
    rw [hcap]
    unfold maxRows
    omega
  unfold tsIndex tsHashGrow
  dsimp only
  rw [if_pos (.inr hfull), if_neg hbig, hneed, if_pos (by norm_num)]
  rfl

/-! ## The invariant -/

/-- A tuple set between calls. -/
structure Ok (t : Table) : Prop where
  /-- There are columns. -/
  arity : 1 ≤ t.arity
  /-- No row is there twice. -/
  inj : ∀ i < t.count, ∀ j < t.count, t.data i = t.data j → i = j
  /-- Rows have the columns. -/
  len : ∀ i < t.count, (t.data i).length = t.arity
  /-- The table holds the rows. -/
  indexed : Indexed t t.count

theorem mem_rows {t : Table} {r : Row} : r ∈ t.rows ↔ ∃ i < t.count, t.data i = r := by
  unfold Table.rows
  simp [List.mem_map]

theorem length_rowAt (n : ℕ) (cols : ℕ → Val) : (rowAt n cols).length = n := by
  simp [rowAt]

theorem Ok.nodup {t : Table} (h : Ok t) : t.rows.Nodup := by
  unfold Table.rows
  refine List.Nodup.map_on (fun i hi j hj heq => ?_) List.nodup_range
  exact h.inj i (List.mem_range.mp hi) j (List.mem_range.mp hj) heq

/-- Only the rows in use matter. -/
theorem Ok.congr {t u : Table} (h : Ok t) (harity : u.arity = t.arity)
    (hcount : u.count = t.count) (hdata : ∀ i < t.count, u.data i = t.data i)
    (hind : Indexed u t.count) : Ok u ∧ u.rows = t.rows := by
  refine ⟨⟨harity ▸ h.arity, ?_, ?_, hcount ▸ hind⟩, ?_⟩
  · rw [hcount]
    intro i hi j hj heq
    rw [hdata i hi, hdata j hj] at heq
    exact h.inj i hi j hj heq
  · rw [hcount, harity]
    intro i hi
    rw [hdata i hi]
    exact h.len i hi
  · unfold Table.rows
    rw [hcount]
    exact List.map_congr_left fun i hi => hdata i (List.mem_range.mp hi)

theorem ok_zero {arity : ℕ} (h : 1 ≤ arity) : Ok (tsZero arity) where
  arity := h
  inj i hi := absurd hi (Nat.not_lt_zero i)
  len i hi := absurd hi (Nat.not_lt_zero i)
  indexed := .zero _ (.inl rfl) rfl rfl

theorem rows_zero (arity : ℕ) : (tsZero arity).rows = [] := rfl

/-- The table is emptied, not freed. -/
theorem hused_reset {t : Table} {n : ℕ} (h : Indexed t n) :
    (if t.hcap = 0 then t.hused else 0) = 0 := by
  split
  · have := h.load
    have := h.used
    omega
  · rfl

theorem Ok.reset {t : Table} (h : Ok t) : Ok (tsReset t) where
  arity := h.arity
  inj i hi := absurd hi (Nat.not_lt_zero i)
  len i hi := absurd hi (Nat.not_lt_zero i)
  indexed := .zero _ h.indexed.pow rfl (hused_reset h.indexed)

/-! ## `ts_contains` and `ts_add` -/

/-- **`ts_contains` answers whether the row is there.** -/
theorem tsContains_spec {t : Table} (h : Ok t) (cols : ℕ → Val) :
    tsContains t cols = some (if rowAt t.arity cols ∈ t.rows then 1 else 0) := by
  unfold tsContains
  rcases tsHashFind_spec h.indexed (rowAt t.arity cols) with ⟨i, hi, heq, hfind⟩ | ⟨hno, hfind⟩
  · rw [if_neg (by omega), hfind, if_pos (mem_rows.mpr ⟨i, hi, heq⟩)]
    rfl
  · have hr : rowAt t.arity cols ∉ t.rows := fun hmem => by
      obtain ⟨i, hi, heq⟩ := mem_rows.mp hmem
      exact hno i hi heq
    rw [hfind, if_neg hr]
    split <;> rfl

/-- A row that is there is not added. -/
theorem tsAdd_old {t : Table} (h : Ok t) {cols : ℕ → Val} (hr : rowAt t.arity cols ∈ t.rows) :
    tsAdd t cols = some (0, t) := by
  unfold tsAdd
  rcases tsHashFind_spec h.indexed (rowAt t.arity cols) with ⟨i, hi, heq, hfind⟩ | ⟨hno, -⟩
  · rw [hfind]
    rfl
  · obtain ⟨i, hi, heq⟩ := mem_rows.mp hr
    exact absurd heq (hno i hi)

section New

variable {t : Table} {cols : ℕ → Val}

/-- A new row is looked for in vain. -/
theorem tsHashFind_new (h : Ok t) (hr : rowAt t.arity cols ∉ t.rows) :
    tsHashFind t (rowAt t.arity cols) = some 0 := by
  rcases tsHashFind_spec h.indexed (rowAt t.arity cols) with ⟨i, hi, heq, -⟩ | ⟨-, hfind⟩
  · exact absurd (mem_rows.mpr ⟨i, hi, heq⟩) hr
  · exact hfind

theorem appendRow_old {i : ℕ} (r : Row) (hi : i < t.count) : (appendRow t r).data i = t.data i :=
  Function.update_of_ne (by omega) _ _

theorem appendRow_new (r : Row) : (appendRow t r).data t.count = r := Function.update_self _ _ _

theorem indexed_appendRow (h : Ok t) (r : Row) : Indexed (appendRow t r) t.count :=
  h.indexed.congr rfl rfl rfl fun _ hi => appendRow_old r hi

/-- The appended row differs from the others. -/
theorem appendRow_ne (hr : rowAt t.arity cols ∉ t.rows) :
    ∀ i < t.count, (appendRow t (rowAt t.arity cols)).data i ≠
      (appendRow t (rowAt t.arity cols)).data t.count := by
  intro i hi heq
  rw [appendRow_old _ hi, appendRow_new] at heq
  exact hr (mem_rows.mpr ⟨i, hi, heq⟩)

/-- **A new row is added** while there are fewer than `maxRows`. -/
theorem tsAdd_new (h : Ok t) (hr : rowAt t.arity cols ∉ t.rows) (hroom : t.count < maxRows) :
    ∃ t', tsAdd t cols = some (1, t') ∧ Ok t' ∧ t'.arity = t.arity ∧
      t'.rows = t.rows ++ [rowAt t.arity cols] := by
  obtain ⟨htab, hcap, hidx, hind⟩ := tsIndex_spec (indexed_appendRow h _) (appendRow_ne hr) hroom
  unfold tsAdd
  rw [tsHashFind_new h hr]
  simp only [Option.bind_some, ne_eq, not_true_eq_false, if_false]
  rw [hidx]
  refine ⟨_, rfl, ⟨h.arity, ?_, ?_, hind⟩, rfl, ?_⟩
  · intro i hi j hj heq
    have hne := appendRow_ne hr
    rcases Nat.lt_succ_iff_lt_or_eq.mp hi with hi | rfl <;>
      rcases Nat.lt_succ_iff_lt_or_eq.mp hj with hj | rfl
    · refine h.inj i hi j hj ?_
      rw [← appendRow_old (rowAt t.arity cols) hi, ← appendRow_old (rowAt t.arity cols) hj]
      exact heq
    · exact absurd heq (hne i hi)
    · exact absurd heq.symm (hne j hj)
    · rfl
  · intro i hi
    rcases Nat.lt_succ_iff_lt_or_eq.mp hi with hi | rfl
    · exact (congrArg List.length (appendRow_old _ hi)).trans (h.len i hi)
    · exact (congrArg List.length (appendRow_new _)).trans (length_rowAt _ _)
  · have hlast : (appendRow t (rowAt t.arity cols)).rows = t.rows ++ [rowAt t.arity cols] := by
      unfold Table.rows
      rw [show (appendRow t (rowAt t.arity cols)).count = t.count + 1 from rfl, List.range_succ,
        List.map_append, List.map_singleton, appendRow_new]
      refine congrArg (· ++ _) (List.map_congr_left fun i hi => ?_)
      exact appendRow_old _ (List.mem_range.mp hi)
    exact hlast

/-- **A row too many is refused**, and nothing changes. -/
theorem tsAdd_full (h : Ok t) (hr : rowAt t.arity cols ∉ t.rows) (hfull : t.count = maxRows) :
    ∃ t', tsAdd t cols = some (-1, t') ∧ Ok t' ∧ t'.arity = t.arity ∧ t'.rows = t.rows := by
  have hind := indexed_appendRow h (rowAt t.arity cols)
  have hidx : tsIndex (appendRow t (rowAt t.arity cols)) (t.count + 1) =
      some (-1, appendRow t (rowAt t.arity cols)) := by
    rw [hfull] at hind ⊢
    exact tsIndex_full hind
  unfold tsAdd
  rw [tsHashFind_new h hr]
  simp only [Option.bind_some, ne_eq, not_true_eq_false, if_false]
  rw [hidx]
  obtain ⟨hok, hrows⟩ := h.congr (u := { appendRow t (rowAt t.arity cols) with count := t.count })
    rfl rfl (fun _ hi => appendRow_old _ hi) (hind.congr rfl rfl rfl fun _ _ => rfl)
  exact ⟨_, rfl, hok, rfl, hrows⟩

end New

/-! ## `ts_sort` -/

/-- Rows are compared by their columns. -/
theorem weakOrder_rowLt : Heapsort.WeakOrder rowLt where
  asymm x y hxy := by
    cases hyx : rowLt y x with
    | false => rfl
    | true => rw [← rowLt_irrefl x, rowLt_trans hxy hyx]
  trans x y z hxy hyz := by
    cases hxz : rowLt x z with
    | false => rfl
    | true =>
      rcases rowLt_trichotomy x y with hlt | rfl | hlt
      · rw [hlt] at hxy
        cases hxy
      · rw [hxz] at hyz
        cases hyz
      · rw [rowLt_trans hlt hxz] at hyz
        cases hyz

/-- Rows that differ are all kept. -/
theorem dedup_eq {data : ℕ → Row} {count : ℕ} (hcount : 1 ≤ count)
    (h : ∀ i, i + 1 < count → data i ≠ data (i + 1)) : dedup data count = (data, count) := by
  have key : ∀ n, n + 1 ≤ count → (List.range n).foldl dedupRow (data, 1) = (data, n + 1) := by
    intro n
    induction n with
    | zero => exact fun _ => rfl
    | succ n ih =>
      intro hn
      rw [List.range_succ, List.foldl_append, ih (by omega), List.foldl_cons, List.foldl_nil]
      unfold dedupRow
      dsimp only
      rw [Nat.add_sub_cancel, if_neg (h n hn), if_neg (fun hne => hne rfl)]
  unfold dedup
  rw [key _ (by omega), Nat.sub_add_cancel hcount]

/-- **Entering the rows again.** -/
theorem reindex_spec {t : Table} {fuel i n : ℕ} (h : Indexed t i) (hfuel : i + fuel = n)
    (hn : n ≤ maxRows) (hinj : ∀ i < n, ∀ j < n, t.data i = t.data j → i = j) :
    ∃ htab hcap hused, reindex fuel i t =
        some { t with htab := htab, hcap := hcap, hused := hused } ∧
      Indexed { t with htab := htab, hcap := hcap, hused := hused } n := by
  induction fuel generalizing t i with
  | zero =>
    obtain rfl : i = n := by omega
    exact ⟨t.htab, t.hcap, t.hused, rfl, h⟩
  | succ fuel ih =>
    have hnew : ∀ j < i, t.data j ≠ t.data i := fun j hj heq => by
      have := hinj j (by omega) i (by omega) heq
      omega
    obtain ⟨htab, hcap, hidx, hind⟩ := tsIndex_spec h hnew (by omega)
    unfold reindex
    rw [hidx]
    exact ih hind (by omega) hinj

/-- **`ts_sort` puts the rows in order** and keeps the table. -/
theorem tsSort_spec {t : Table} (h : Ok t) :
    ∃ t', tsSort t = some t' ∧ Ok t' ∧ t'.arity = t.arity ∧ t'.rows.Perm t.rows ∧
      t'.rows.Pairwise fun a b => rowLt a b = true := by
  have hlt_of {data : ℕ → Row} (hinj : ∀ i < t.count, ∀ j < t.count, data i = data j → i = j)
      (hs : Heapsort.SortedFrom rowLt 0 t.count data) :
      ∀ i j, i < j → j < t.count → rowLt (data i) (data j) = true := by
    intro i j hij hj
    rcases rowLt_trichotomy (data i) (data j) with hlt | heq | hlt
    · exact hlt
    · have := hinj i (by omega) j hj heq
      omega
    · rw [hs j (Nat.zero_le j) hj i hij] at hlt
      cases hlt
  unfold tsSort
  by_cases hsmall : t.count ≤ 1 ∨ t.arity = 0
  · rw [if_pos hsmall]
    have harity := h.arity
    refine ⟨t, rfl, h, rfl, .refl _, ?_⟩
    unfold Table.rows
    rcases (by omega : t.count = 0 ∨ t.count = 1) with hc | hc <;> simp [hc, List.range_succ]
  rw [if_neg hsmall]
  dsimp only
  have harr := Heapsort.heapsort_rearranges rowLt t.count t.data
  have hsort := Heapsort.heapsort_sorted weakOrder_rowLt t.count t.data
  generalize Heapsort.heapsort rowLt t.count t.data = data at harr hsort ⊢
  have hinj : ∀ i < t.count, ∀ j < t.count, data i = data j → i = j := by
    obtain ⟨σ, hσ, rfl⟩ := harr
    intro i hi j hj heq
    exact σ.injective (h.inj _ (Heapsort.Rearranges.lt_of_lt hσ hi) _
      (Heapsort.Rearranges.lt_of_lt hσ hj) heq)
  have hlen : ∀ i < t.count, (data i).length = t.arity := fun i hi => by
    obtain ⟨j, hj, heq⟩ := harr.exists_lt hi
    rw [heq]
    exact h.len j hj
  have hlt := hlt_of hinj hsort
  have hkept : dedup data t.count = (data, t.count) := dedup_eq (by omega) fun i hi heq => by
    have := hinj i (by omega) (i + 1) hi heq
    omega
  rw [hkept]
  obtain ⟨htab, hcap, hused, hre, hind⟩ := reindex_spec (i := 0) (n := t.count)
    (t := { t with
      data := data
      htab := fun _ => 0
      hused := if t.hcap = 0 then t.hused else 0 })
    (.zero _ h.indexed.pow rfl (hused_reset h.indexed)) (Nat.zero_add _) h.indexed.le_maxRows hinj
  refine ⟨_, hre, ⟨h.arity, hinj, hlen, hind⟩, rfl, harr.perm, ?_⟩
  unfold Table.rows
  rw [List.pairwise_map]
  refine List.Pairwise.imp_of_mem (fun hi hj hij => ?_) List.pairwise_lt_range
  exact hlt _ _ hij (List.mem_range.mp hj)

/-! ## `ts_prefix` -/

/-- So many rows have the first columns `p`, from an index on, and no other row has. -/
def IsBlock (t : Table) (p : Row) (b : ℕ × ℕ) : Prop :=
  b.2 + b.1 ≤ t.count ∧
    ∀ i < t.count, (t.data i).take p.length = p ↔ b.2 ≤ i ∧ i < b.2 + b.1

theorem cmpCols_eq_iff_take {r p : Row} : cmpCols r p = .eq ↔ r.take p.length = p := by
  rw [cmpCols_eq_iff, List.prefix_iff_eq_take]
  exact eq_comm

theorem getElem_rows {t : Table} {i : ℕ} (hi : i < t.rows.length) : t.rows[i] = t.data i := by
  simp [Table.rows]

/-- Which part of a list a position is in. -/
theorem getElem_split {l m g : List Row} {i : ℕ} (hi : i < (l ++ m ++ g).length) :
    (i < l.length → (l ++ m ++ g)[i] ∈ l) ∧
      (l.length ≤ i → i < l.length + m.length → (l ++ m ++ g)[i] ∈ m) ∧
      (l.length + m.length ≤ i → (l ++ m ++ g)[i] ∈ g) := by
  refine ⟨fun hil => ?_, fun hil him => ?_, fun him => ?_⟩
  · simp only [List.append_assoc, List.getElem_append_left hil]
    exact List.getElem_mem hil
  · have him' : i < (l ++ m).length := by
      rw [List.length_append]
      exact him
    simp only [List.getElem_append_left him', List.getElem_append_right hil]
    exact List.getElem_mem _
  · have him' : (l ++ m).length ≤ i := by
      rw [List.length_append]
      exact him
    simp only [List.getElem_append_right him']
    exact List.getElem_mem _

/-- **`ts_prefix` finds the block of the rows** that begin with the given columns. -/
theorem tsPrefixAt_spec {t : Table} (h : Ok t)
    (hs : t.rows.Pairwise fun a b => rowLt a b = true) (p : ℕ → Val) (k : ℕ) :
    IsBlock t (rowAt k p) (tsPrefixAt t p k) := by
  have hcount : t.rows.length = t.count := by simp [Table.rows]
  have hnone (hno : ∀ i < t.count, (t.data i).take k ≠ rowAt k p) :
      IsBlock t (rowAt k p) (0, 0) := by
    refine ⟨Nat.zero_le _, fun i hi => ?_⟩
    rw [length_rowAt]
    exact iff_of_false (hno i hi) (by omega)
  unfold tsPrefixAt
  by_cases hout : t.count = 0 ∨ t.arity < k
  · rw [if_pos hout]
    refine hnone fun i hi heq => ?_
    have hlen := congrArg List.length heq
    rw [List.length_take, length_rowAt, h.len i hi] at hlen
    omega
  rw [if_neg hout]
  dsimp only
  obtain ⟨l, m, g, hrows, hl, hm, hg, hlo, hback, htake⟩ := prefix_search (rowAt k p) hs
  rw [hcount] at hlo
  rw [hlo]
  have hlen : t.count = l.length + m.length + g.length := by
    rw [← hcount, hrows, List.length_append, List.length_append]
  -- where a row stands says how it compares
  have hat : ∀ i < t.count, (t.data i).take k = rowAt k p ↔
      l.length ≤ i ∧ i < l.length + m.length := by
    intro i hi
    have hi' : i < (l ++ m ++ g).length := by
      rw [List.length_append, List.length_append]
      omega
    have hget : t.data i = (l ++ m ++ g)[i] := by
      rw [← getElem_rows (hcount.symm ▸ hi)]
      simp only [hrows]
    have hcmp := cmpCols_eq_iff_take (r := t.data i) (p := rowAt k p)
    rw [length_rowAt] at hcmp
    rw [← hcmp, hget]
    obtain ⟨hil, him, hig⟩ := getElem_split hi'
    rcases lt_or_ge i l.length with hlt | hge
    · rw [hl _ (hil hlt)]
      exact iff_of_false (by decide) (by omega)
    rcases lt_or_ge i (l.length + m.length) with hlt | hge'
    · rw [hm _ (him hge hlt)]
      exact iff_of_true rfl ⟨hge, hlt⟩
    · rw [hg _ (hig hge')]
      exact iff_of_false (by decide) (by omega)
  by_cases hend : t.count ≤ l.length
  · rw [if_pos hend]
    refine hnone fun i hi heq => ?_
    have := (hat i hi).mp heq
    omega
  rw [if_neg hend]
  have hfirst := hat l.length (by omega)
  have hcmp := cmpCols_eq_iff_take (r := t.data l.length) (p := rowAt k p)
  rw [length_rowAt] at hcmp
  rw [← hcmp] at hfirst
  split
  · rename_i hne
    refine hnone fun i hi heq => ?_
    have := (hat i hi).mp heq
    exact hne (hfirst.mpr (by omega))
  · rw [hback, htake]
    refine ⟨by dsimp only; omega, fun i hi => ?_⟩
    rw [length_rowAt, hat i hi]
    dsimp only
    omega

/-! ## Sequences of calls -/

/-- The rows and the table of a tuple set agree. -/
structure Consistent (t : Table) (S : Finset Row) : Prop where
  /-- No row is there twice. -/
  nodup : t.rows.Nodup
  /-- The rows are those of the set. -/
  mem : ∀ r, r ∈ t.rows ↔ r ∈ S
  /-- Every row has its number in one slot. -/
  once : ∀ i, 1 ≤ i → i ≤ t.count → ∃! p, p < t.hcap ∧ t.htab p = i
  /-- A slot in use has the number of a row, and no empty slot comes before it on the path
  from the home of that row. -/
  chain : ∀ p < t.hcap, t.htab p ≠ 0 → t.htab p ≤ t.count ∧
    ∃ d < t.hcap, (home t.hcap (t.data (t.htab p - 1)) + d) % t.hcap = p ∧
      ∀ e < d, t.htab ((home t.hcap (t.data (t.htab p - 1)) + e) % t.hcap) ≠ 0
  /-- A table has an empty slot. -/
  free : t.hcap ≠ 0 → ∃ p < t.hcap, t.htab p = 0

theorem Ok.consistent {t : Table} (h : Ok t) {S : Finset Row} (hS : ∀ r, r ∈ t.rows ↔ r ∈ S) :
    Consistent t S := by
  have hind := h.indexed
  have hload := hind.load
  refine ⟨h.nodup, hS, fun i hi hcount => ?_, fun p hp hne => ?_, fun hcap => ?_⟩
  · have hinv := hind.inv (by omega)
    obtain ⟨p, hp, hslot⟩ := (hinv.mem (t.data (i - 1), i)).mp
      ⟨i - 1, by omega, by rw [Nat.sub_add_cancel hi]⟩
    refine ⟨p, ⟨hp, (slots_eq_some.mp hslot).2.1⟩, fun q hq => ?_⟩
    exact hinv.once q hq.1 p hp (t.data (i - 1)) i i
      (slots_eq_some.mpr ⟨by omega, hq.2, rfl⟩) hslot
  · have hcap : t.hcap ≠ 0 := by omega
    have hnum := hind.number hp hne
    obtain ⟨k, -, -, hk⟩ := hind.pow.resolve_left hcap
    obtain ⟨d, hd, hdp, hpath⟩ := (hind.inv hcap).path p hp (t.data (t.htab p - 1)) (t.htab p)
      (slots_eq_some.mpr ⟨hne, rfl, rfl⟩)
    have hhome : home t.hcap (t.data (t.htab p - 1)) =
        rowHash (t.data (t.htab p - 1)) % t.hcap := by
      rw [hk]
      exact home_eq _
    refine ⟨by omega, d, hd, ?_, fun e he hz => hpath e he ?_⟩
    · rw [hhome, Nat.mod_add_mod]
      exact hdp
    · rw [hhome, Nat.mod_add_mod] at hz
      exact slots_eq_none.mpr hz
  · obtain ⟨D, k, id, -, -, -, hacc, -⟩ | ⟨D, -, -, hslot, -⟩ :=
      (hind.inv hcap).probe_cases (hind.lt_hcap hcap) (fun _ => false) 0
    · cases hacc
    · exact ⟨_, Nat.mod_lt _ (Nat.pos_of_ne_zero hcap), slots_eq_none.mp hslot⟩

/-- A tuple set after calls, and the rows that were added. -/
structure Follows (t : Table) (st : ℕ × Finset Row) : Prop where
  /-- The set is in order. -/
  ok : Ok t
  /-- The arity. -/
  arity : t.arity = st.1
  /-- The rows. -/
  mem : ∀ r, r ∈ t.rows ↔ r ∈ st.2

theorem Follows.card {t : Table} {st : ℕ × Finset Row} (h : Follows t st) :
    st.2.card = t.count := by
  have hset : st.2 = t.rows.toFinset := by
    ext r
    rw [List.mem_toFinset, h.mem]
  rw [hset, List.toFinset_card_of_nodup h.ok.nodup]
  simp [Table.rows]

/-- **One call.** -/
theorem step_follows {t : Table} {st : ℕ × Finset Row} (h : Follows t st) (op : Op) :
    ∃ t', step t op = some t' ∧ Follows t' (since st op) := by
  cases op with
  | init arity =>
    unfold step tsInit since
    dsimp only
    split
    · exact ⟨t, rfl, h⟩
    · refine ⟨_, rfl, ok_zero (by omega), rfl, fun r => ?_⟩
      simp [rows_zero]
  | add cols =>
    unfold step since
    dsimp only
    rw [h.card, ← h.arity]
    by_cases hr : rowAt t.arity cols ∈ t.rows
    · rw [tsAdd_old h.ok hr]
      refine ⟨t, rfl, ?_⟩
      split
      · rw [Finset.insert_eq_self.mpr ((h.mem _).mp hr), h.arity]
        exact h
      · exact h
    · by_cases hroom : t.count < maxRows
      · obtain ⟨t', hadd, hok, harity, hrows⟩ := tsAdd_new h.ok hr hroom
        rw [hadd, if_pos hroom]
        refine ⟨t', rfl, hok, harity, fun r => ?_⟩
        rw [hrows, List.mem_append, List.mem_singleton, h.mem, Finset.mem_insert, or_comm]
      · have hfull : t.count = maxRows := le_antisymm h.ok.indexed.le_maxRows (not_lt.mp hroom)
        obtain ⟨t', hadd, hok, harity, hrows⟩ := tsAdd_full h.ok hr hfull
        rw [hadd, if_neg hroom]
        exact ⟨t', rfl, hok, harity.trans h.arity, fun r => by rw [hrows, h.mem]⟩
  | sort =>
    obtain ⟨t', hsort, hok, harity, hperm, -⟩ := tsSort_spec h.ok
    exact ⟨t', hsort, hok, harity.trans h.arity, fun r => hperm.mem_iff.trans (h.mem r)⟩
  | reset =>
    refine ⟨_, rfl, h.ok.reset, h.arity, fun r => ?_⟩
    simp [Table.rows, tsReset, since]

/-- **Sequences of calls** keep the set in order. -/
theorem run_follows {t : Table} {st : ℕ × Finset Row} (h : Follows t st) (ops : List Op) :
    ∃ t', run t ops = some t' ∧ Follows t' (ops.foldl since st) := by
  unfold run
  induction ops generalizing t st with
  | nil => exact ⟨t, rfl, h⟩
  | cons op ops ih =>
    obtain ⟨t₁, hstep, h₁⟩ := step_follows h op
    rw [List.foldlM_cons, hstep]
    exact ih h₁

theorem follows_zero {arity : ℕ} (h : 1 ≤ arity) : Follows (tsZero arity) (arity, ∅) :=
  ⟨ok_zero h, rfl, fun r => by simp [rows_zero]⟩

/-- **After every sequence of calls** the rows and the table agree, `ts_contains` and
`ts_add` answer for the rows that were added, a new row being refused only by a set of
`maxRows` rows, and `ts_sort` orders the rows so that `ts_prefix` finds their blocks. -/
theorem tupleTable_exact {arity : ℕ} (h : arity ≠ 0 ∧ arity ≤ 8) (ops : List Op) :
    ∃ t S, run (tsZero arity) ops = some t ∧ ops.foldl since (arity, ∅) = (t.arity, S) ∧
      Consistent t S ∧
      (∀ cols, tsContains t cols = some (if rowAt t.arity cols ∈ S then 1 else 0)) ∧
      (∀ cols, ∃ t', tsAdd t cols = some
        (if rowAt t.arity cols ∈ S then 0 else if S.card < maxRows then 1 else -1, t')) ∧
      ∃ t', tsSort t = some t' ∧ Consistent t' S ∧
        (t'.rows.Pairwise fun a b => rowLt a b = true) ∧
        ∀ p k, IsBlock t' (rowAt k p) (tsPrefixAt t' p k) := by
  obtain ⟨t, hrun, hf⟩ := run_follows (follows_zero (show 1 ≤ arity by omega)) ops
  obtain ⟨t', hsort, hok, -, hperm, hlt⟩ := tsSort_spec hf.ok
  refine ⟨t, _, hrun, Prod.ext hf.arity.symm rfl, hf.ok.consistent hf.mem, fun cols => ?_,
    fun cols => ?_, t', hsort, hok.consistent fun r => hperm.mem_iff.trans (hf.mem r), hlt,
    tsPrefixAt_spec hok hlt⟩
  · simp only [tsContains_spec hf.ok, hf.mem]
  · rw [hf.card]
    by_cases hr : rowAt t.arity cols ∈ t.rows
    · rw [if_pos ((hf.mem _).mp hr)]
      exact ⟨t, tsAdd_old hf.ok hr⟩
    · rw [if_neg fun hmem => hr ((hf.mem _).mpr hmem)]
      by_cases hroom : t.count < maxRows
      · rw [if_pos hroom]
        obtain ⟨u, hadd, -⟩ := tsAdd_new hf.ok hr hroom
        exact ⟨u, hadd⟩
      · rw [if_neg hroom]
        have hfull := le_antisymm hf.ok.indexed.le_maxRows (not_lt.mp hroom)
        obtain ⟨u, hadd, -⟩ := tsAdd_full hf.ok hr hfull
        exact ⟨u, hadd⟩

/-- A set of pairs that is filled, sorted and emptied. -/
def sampleOps : List Op :=
  [.add fun i => if i = 0 then 5 else 2, .add fun i => if i = 0 then 3 else 9, .sort,
    .add fun i => if i = 0 then 3 else 9, .reset, .add fun _ => 7]

theorem tupleTable_exact_sample :
    ∃ t S, run (tsZero 2) sampleOps = some t ∧ sampleOps.foldl since (2, ∅) = (t.arity, S) ∧
      Consistent t S := by
  obtain ⟨t, S, hrun, hsince, hcons, -⟩ := tupleTable_exact ⟨two_ne_zero, by omega⟩ sampleOps
  exact ⟨t, S, hrun, hsince, hcons⟩

/-! ## The largest table -/

/-- Add the first numbers. -/
def fillOps (n : ℕ) : List Op := (List.range n).map fun i => .add fun _ => UInt32.ofNat i

theorem rowAt_one (v : Val) : rowAt 1 (fun _ => v) = [v] := rfl

/-- As many rows as numbers. -/
theorem since_fillOps {n : ℕ} (hn : n ≤ maxRows) :
    (fillOps n).foldl since (1, ∅) = (1, (Finset.range n).image fun i => [UInt32.ofNat i]) := by
  induction n with
  | zero => rfl
  | succ n ih =>
    have hcard : ((Finset.range n).image fun i => [UInt32.ofNat i]).card < maxRows :=
      (Finset.card_image_le.trans (Finset.card_range n).le).trans_lt hn
    unfold fillOps at ih ⊢
    rw [List.range_succ, List.map_append, List.foldl_append, ih (by omega), List.map_singleton,
      List.foldl_cons, List.foldl_nil]
    unfold since
    dsimp only
    rw [if_pos hcard, rowAt_one, Finset.range_add_one, Finset.image_insert]

theorem ofNat_row_inj {i j : ℕ} (hi : i ≤ maxRows) (hj : j ≤ maxRows)
    (h : [UInt32.ofNat i] = [UInt32.ofNat j]) : i = j := by
  have hmod := congrArg UInt32.toNat (List.singleton_inj.mp h)
  have hsize : maxRows < UInt32.size := by
    unfold maxRows UInt32.size
    norm_num
  rwa [UInt32.toNat_ofNat_of_lt' (hi.trans_lt hsize),
    UInt32.toNat_ofNat_of_lt' (hj.trans_lt hsize)] at hmod

/-- A set of `maxRows` rows refuses a new one. -/
theorem not_tsAdd_new :
    ∃ t, run (tsZero 1) (fillOps maxRows) = some t ∧
      rowAt t.arity (fun _ => UInt32.ofNat maxRows) ∉ t.rows ∧
      ∃ t', tsAdd t (fun _ => UInt32.ofNat maxRows) = some (-1, t') := by
  obtain ⟨t, hrun, hf⟩ := run_follows (follows_zero le_rfl) (fillOps maxRows)
  rw [since_fillOps le_rfl] at hf
  have hnew : rowAt t.arity (fun _ => UInt32.ofNat maxRows) ∉ t.rows := by
    rw [hf.mem, hf.arity, rowAt_one, Finset.mem_image]
    rintro ⟨i, hi, heq⟩
    have hlt := Finset.mem_range.mp hi
    exact hlt.ne (ofNat_row_inj hlt.le le_rfl heq)
  have hfull : t.count = maxRows := by
    rw [← hf.card, Finset.card_image_of_injOn, Finset.card_range]
    intro i hi j hj heq
    exact ofNat_row_inj (Finset.mem_range.mp hi).le (Finset.mem_range.mp hj).le heq
  obtain ⟨t', hadd, -⟩ := tsAdd_full hf.ok hnew hfull
  exact ⟨t, hrun, hnew, t', hadd⟩

/-! ## As a set of rows -/

/-- The set of rows that a tuple set is. -/
def Ok.toSet {t : Table} (h : Ok t) : TupleSet := ⟨t.arity, t.rows, h.nodup⟩

/-- Up to the largest table a row is added as to the set. -/
theorem toSet_tsAdd {t : Table} (h : Ok t) (cols : ℕ → Val) (hroom : t.count < maxRows) :
    ∃ rc t', tsAdd t cols = some (rc, t') ∧
      ∃ h' : Ok t', h'.toSet = h.toSet.add (rowAt t.arity cols) := by
  by_cases hr : rowAt t.arity cols ∈ t.rows
  · refine ⟨0, t, tsAdd_old h hr, h, ?_⟩
    have hin : rowAt t.arity cols ∈ h.toSet.rows := hr
    rw [TupleSet.add, dif_pos hin]
  · obtain ⟨t', hadd, h', harity, hrows⟩ := tsAdd_new h hr hroom
    refine ⟨1, t', hadd, h', ?_⟩
    have hout : rowAt t.arity cols ∉ h.toSet.rows := hr
    rw [TupleSet.add, dif_neg hout]
    unfold Ok.toSet
    simp only [harity, hrows]

/-- Sorting is sorting the set. -/
theorem toSet_tsSort {t : Table} (h : Ok t) :
    ∃ t', tsSort t = some t' ∧ ∃ h' : Ok t', h'.toSet = h.toSet.sort := by
  obtain ⟨t', hsort, h', harity, hperm, hlt⟩ := tsSort_spec h
  refine ⟨t', hsort, h', ?_⟩
  have hkeys : (⟨t'.rows, hlt⟩ : Dafsa) = Dafsa.ofRows t.rows := Dafsa.ext_mem fun r => by
    rw [Dafsa.mem_ofRows]
    exact hperm.mem_iff
  unfold TupleSet.sort Ok.toSet
  simp only [harity, ← hkeys]

end DatalogDafsa.TupleTable
