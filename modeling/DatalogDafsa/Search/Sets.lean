import DatalogDafsa.Dafsa
import DatalogDafsa.Lib.Probe

/-!
# The sets of the search tier

A set of 64-bit keys is an open-addressing table in which zero marks an empty slot.
A set of document numbers is an array in insertion order beside such a table, whose
keys are the numbers plus one.

## Main definitions

* `U64Set`, `u64SetContains`, `u64SetAdd` — keys.
* `IntSet`, `intSetContains`, `intSetAdd` — document numbers.
* `U64Set.Holds`, `IntSet.Ok` — the invariants.
-/

namespace DatalogDafsa.Search

/-! ## Keys -/

/-- `u64SetHash`. -/
def u64SetHash (k : UInt64) : UInt64 :=
  let k := k ^^^ (k >>> 33)
  let k := k * 0xff51afd7ed558ccd
  k ^^^ (k >>> 33)

/-- The hash as a number. The number of slots is a power of two, so masking it is
taking it modulo the slots. -/
def home (k : UInt64) : ℕ := (u64SetHash k).toNat

/-- `U64Set`: no table before the first key. The second entry of a slot is not used. -/
structure U64Set where
  /-- The slots. -/
  slots : Option (Probe.Table UInt64)

/-- A set without keys. -/
def U64Set.empty : U64Set := ⟨none⟩

/-- `u64SetContains`. -/
def u64SetContains (s : U64Set) (k : UInt64) : Bool :=
  s.slots.elim false fun t =>
    match Probe.probe (fun k' => k' = k) t t.cap (home k % t.cap) with
    | .found _ => true
    | _ => false

/-- The slots a key is added to: the first 64, or twice as many when three quarters
are in use. -/
def U64Set.roomy (s : U64Set) : Probe.Table UInt64 :=
  s.slots.elim (.empty 64) fun t =>
    if (t.used + 1) * 4 ≥ t.cap * 3 then Probe.grow home t else t

/-- `u64SetAdd`, with its answer: was the key new? -/
def u64SetAdd (s : U64Set) (k : UInt64) : Bool × U64Set :=
  if k = 0 then (false, s)
  else
    let t := s.roomy
    match Probe.probe (fun k' => k' = k) t t.cap (home k % t.cap) with
    | .empty idx => (true, ⟨some (t.put idx k 0)⟩)
    | _ => (false, ⟨some t⟩)

/-- The entries of the keys of `S`. -/
def entries (S : Set UInt64) : Set (UInt64 × ℕ) := {p | p.1 ∈ S ∧ p.2 = 0}

/-- A set holds the keys of `S`, and fewer than three quarters of its slots are in
use. -/
def U64Set.Holds (s : U64Set) (S : Set UInt64) : Prop :=
  s.slots.elim (S = ∅) fun t => Probe.Inv home t (entries S) ∧ t.used * 4 < t.cap * 3

theorem holds_empty : U64Set.empty.Holds ∅ := rfl

/-- **A probe is exact.** -/
theorem u64SetContains_iff {s : U64Set} {S : Set UInt64} (h : s.Holds S) (k : UInt64) :
    u64SetContains s k = true ↔ k ∈ S := by
  obtain ⟨slots⟩ := s
  cases slots with
  | none =>
    obtain rfl : S = ∅ := h
    simp [u64SetContains]
  | some t =>
    obtain ⟨hinv, hload⟩ : Probe.Inv home t (entries S) ∧ t.used * 4 < t.cap * 3 := h
    rcases hinv.probe (by omega) k with ⟨id, hid, hp⟩ | ⟨hno, D, -, -, -, hp⟩
    · simp [u64SetContains, hp, hid.1]
    · have hk : k ∉ S := fun hk => hno 0 ⟨hk, rfl⟩
      simp [u64SetContains, hp, hk]

/-- Growing keeps the keys and leaves room for one more. -/
theorem roomy_spec {s : U64Set} {S : Set UInt64} (h : s.Holds S) :
    Probe.Inv home s.roomy (entries S) ∧ (s.roomy.used + 1) * 4 < s.roomy.cap * 3 := by
  obtain ⟨slots⟩ := s
  cases slots with
  | none =>
    obtain rfl : S = ∅ := h
    have hnone : entries ∅ = ∅ := by simp [entries]
    rw [hnone]
    exact ⟨Probe.Inv.empty (by norm_num), by decide⟩
  | some t =>
    obtain ⟨hinv, hload⟩ : Probe.Inv home t (entries S) ∧ t.used * 4 < t.cap * 3 := h
    change Probe.Inv home (if (t.used + 1) * 4 ≥ t.cap * 3 then Probe.grow home t else t) _ ∧
      ((if (t.used + 1) * 4 ≥ t.cap * 3 then Probe.grow home t else t).used + 1) * 4 <
        (if (t.used + 1) * 4 ≥ t.cap * 3 then Probe.grow home t else t).cap * 3
    split
    · obtain ⟨hgrow, hcap, hused⟩ := hinv.grow
      refine ⟨hgrow, ?_⟩
      rw [hcap, hused]
      have hlt : t.used < t.cap := by omega
      omega
    · exact ⟨hinv, by omega⟩

/-- **A key is added once.** -/
theorem u64SetAdd_spec {s : U64Set} {S : Set UInt64} (h : s.Holds S) {k : UInt64} (hk : k ≠ 0) :
    ((u64SetAdd s k).1 = true ↔ k ∉ S) ∧ (u64SetAdd s k).2.Holds (insert k S) := by
  obtain ⟨hinv, hload⟩ := roomy_spec h
  unfold u64SetAdd
  rw [if_neg hk]
  dsimp only
  rcases hinv.probe (by omega) k with ⟨id, hid, hp⟩ | ⟨hno, D, hD, hs, hpath, hp⟩
  · rw [hp]
    refine ⟨by simp [hid.1], ?_⟩
    rw [Set.insert_eq_of_mem hid.1]
    exact ⟨hinv, by omega⟩
  · rw [hp]
    have hnk : k ∉ S := fun hk => hno 0 ⟨hk, rfl⟩
    have hset : entries (insert k S) = insert (k, 0) (entries S) := by
      ext ⟨k', i⟩
      simp only [entries, Set.mem_ofPred_eq, Set.mem_insert_iff, Prod.mk.injEq]
      tauto
    refine ⟨by simp [hnk], ?_⟩
    change Probe.Inv home _ _ ∧ _
    rw [hset]
    exact ⟨hinv.put hno hs hD hpath 0, hload⟩

/-! ## Document numbers -/

/-- `IntSet`. -/
structure IntSet where
  /-- The numbers, in insertion order. -/
  data : List Val
  /-- Their keys. -/
  idx : U64Set

/-- A set without numbers. -/
def IntSet.empty : IntSet := ⟨[], .empty⟩

/-- `obsKey`: the key of a number, which is never zero. -/
def obsKey (val : Val) : UInt64 := val.toUInt64 + 1

/-- `intSetContains`. -/
def intSetContains (s : IntSet) (val : Val) : Bool := u64SetContains s.idx (obsKey val)

/-- `intSetAdd`. -/
def intSetAdd (s : IntSet) (val : Val) : IntSet :=
  if u64SetContains s.idx (obsKey val) then s
  else ⟨s.data ++ [val], (u64SetAdd s.idx (obsKey val)).2⟩

/-- The table has the keys of the numbers, and each number is there once. -/
structure IntSet.Ok (s : IntSet) : Prop where
  /-- The table. -/
  keys : s.idx.Holds (obsKey '' {v | v ∈ s.data})
  /-- Each number once. -/
  nodup : s.data.Nodup

theorem toNat_obsKey (val : Val) : (obsKey val).toNat = val.toNat + 1 := by
  have hlt := val.toNat_lt
  simp only [obsKey, UInt64.toNat_add, UInt32.toNat_toUInt64]
  rw [Nat.mod_eq_of_lt]
  · rfl
  · change val.toNat + 1 < 2 ^ 64
    omega

theorem obsKey_ne_zero (val : Val) : obsKey val ≠ 0 := by
  intro h
  have hn := congrArg UInt64.toNat h
  rw [toNat_obsKey] at hn
  exact absurd hn (Nat.succ_ne_zero _)

theorem obsKey_injective : Function.Injective obsKey := by
  intro a b h
  have hn := congrArg UInt64.toNat h
  rw [toNat_obsKey, toNat_obsKey] at hn
  exact UInt32.toNat_inj.mp (Nat.succ_injective hn)

theorem IntSet.ok_empty : IntSet.empty.Ok :=
  ⟨by simpa [IntSet.empty] using holds_empty, List.nodup_nil⟩

theorem intSetContains_iff {s : IntSet} (h : s.Ok) (val : Val) :
    intSetContains s val = true ↔ val ∈ s.data := by
  rw [intSetContains, u64SetContains_iff h.keys]
  exact obsKey_injective.mem_set_image

theorem mem_intSetAdd {s : IntSet} (h : s.Ok) (val x : Val) :
    x ∈ (intSetAdd s val).data ↔ x = val ∨ x ∈ s.data := by
  unfold intSetAdd
  split
  · rename_i hin
    have hval : val ∈ s.data := (intSetContains_iff h val).mp hin
    constructor
    · exact .inr
    · rintro (rfl | hx)
      · exact hval
      · exact hx
  · simp [or_comm]

/-- **Adding a number keeps the invariant.** -/
theorem IntSet.Ok.add {s : IntSet} (h : s.Ok) (val : Val) : (intSetAdd s val).Ok := by
  unfold intSetAdd
  split
  · exact h
  · rename_i hin
    have hval : val ∉ s.data := fun hx => hin ((intSetContains_iff h val).mpr hx)
    refine ⟨?_, ?_⟩
    · have hset : obsKey '' {v | v ∈ s.data ++ [val]} =
          insert (obsKey val) (obsKey '' {v | v ∈ s.data}) := by
        rw [← Set.image_insert_eq]
        congr 1
        ext v
        simp [or_comm]
      rw [hset]
      exact (u64SetAdd_spec h.keys (obsKey_ne_zero val)).2
    · exact List.nodup_append.mpr ⟨h.nodup, List.nodup_singleton val, by
        rintro a ha b hb rfl
        exact hval (List.mem_singleton.mp hb ▸ ha)⟩

/-- Adding the numbers of a list. -/
theorem IntSet.Ok.addAll {s : IntSet} (h : s.Ok) (vals : List Val) :
    (vals.foldl intSetAdd s).Ok ∧
      ∀ x, x ∈ (vals.foldl intSetAdd s).data ↔ x ∈ vals ∨ x ∈ s.data := by
  induction vals generalizing s with
  | nil => exact ⟨h, fun x => by simp⟩
  | cons val vals ih =>
    obtain ⟨hok, hmem⟩ := ih (h.add val)
    refine ⟨hok, fun x => ?_⟩
    rw [List.foldl_cons, hmem, mem_intSetAdd h, List.mem_cons]
    tauto

end DatalogDafsa.Search
