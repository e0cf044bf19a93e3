import DatalogDafsa.Term.Store
import DatalogDafsa.Lib.ConsCells

/-!
# A list has one handle

The nodes of a store are cells whose rest is older, none of them twice, and the table has
them all.  So a handle stands for one list and a list has one handle; that stays so through
every sequence of calls, and through saving and loading, as long as the store has no more
nodes than the reader takes.

## Main definitions

* `TermOk` — the invariant.
* `termCons_spec`, `termAppend_spec`, `termRun_spec` — the calls keep it.
* `termLoad_termSave` — what is saved is read back.
* `ListsOk`, `lists_iff` — what is asked of a store, and when it holds.
-/

namespace DatalogDafsa

open ConsCells (Denotes Older)

/-! ## Handles -/

/-- Room for nodes in the largest table. -/
def termRoom : ℕ := 2 ^ 31 - 2 ^ 29

theorem termRoom_eq : termRoom = 1610612736 := rfl

theorem toNat_handle {i : ℕ} (hi : i < 2 ^ 31) : (handle i).toNat = 2 ^ 31 + i := by
  have hbase : termBase.toNat = 2 ^ 31 := rfl
  rw [handle, UInt32.toNat_add, UInt32.toNat_ofNat', hbase]
  omega

theorem handle_inj {i j : ℕ} (hi : i < 2 ^ 31) (hj : j < 2 ^ 31) (h : handle i = handle j) :
    i = j := by
  have := congrArg UInt32.toNat h
  rw [toNat_handle hi, toNat_handle hj] at this
  omega

theorem handle_ne_zero {i : ℕ} (hi : i < 2 ^ 31) : handle i ≠ 0 := by
  intro h
  have := congrArg UInt32.toNat h
  rw [toNat_handle hi] at this
  simp at this

theorem handle_zero : handle 0 = termNil := rfl

theorem handle_lt {i j : ℕ} (hi : i < 2 ^ 31) (hj : j < 2 ^ 31) : handle i < handle j ↔ i < j := by
  rw [UInt32.lt_iff_toNat_lt, toNat_handle hi, toNat_handle hj]
  omega

theorem handle_sub {i : ℕ} (hi : i < 2 ^ 31) : (handle i - termBase).toNat = i := by
  have hbase : termBase.toNat = 2 ^ 31 := rfl
  have hle : termBase ≤ handle i := by
    rw [UInt32.le_iff_toNat_le, toNat_handle hi, hbase]
    omega
  rw [UInt32.toNat_sub_of_le _ _ hle, toNat_handle hi, hbase]
  omega

/-- The handles of the lists. -/
theorem termIsList_iff {t : Termstore} (hfew : t.nodes.length ≤ 2 ^ 31) (v : Val) :
    termIsList t v = true ↔ ∃ i < t.nodes.length, v = handle i := by
  have hbase : termBase.toNat = 2 ^ 31 := rfl
  rw [termIsList, Bool.and_eq_true, decide_eq_true_eq, decide_eq_true_eq]
  constructor
  · rintro ⟨hle, hlt⟩
    refine ⟨_, hlt, ?_⟩
    rw [← UInt32.toNat_inj, toNat_handle (by omega), UInt32.toNat_sub_of_le _ _ hle, hbase]
    rw [UInt32.le_iff_toNat_le, hbase] at hle
    omega
  · rintro ⟨i, hi, rfl⟩
    rw [handle_sub (by omega), UInt32.le_iff_toNat_le, toNat_handle (by omega), hbase]
    exact ⟨by omega, hi⟩

/-! ## The invariant -/

/-- The nodes but the first, as cells. -/
def Termstore.cells (t : Termstore) : List (Val × ℕ) :=
  t.nodes.tail.map fun c => (c.1, (c.2 - termBase).toNat)

/-- A power of two that 32 bits hold. -/
def Pow32 (n : ℕ) : Prop := ∃ j ≤ 31, n = 2 ^ j

/-- What holds of a store. -/
structure TermOk (t : Termstore) : Prop where
  /-- The first node is the empty list. -/
  first : t.nodes = (0, 0) :: t.nodes.tail
  /-- The rest of a node is older. -/
  tails : ∀ (p : ℕ) (c : Cell), t.nodes.tail[p]? = some c → ∃ j ≤ p, c.2 = handle j
  /-- No node is there twice. -/
  nodup : t.nodes.tail.Nodup
  /-- The table has the nodes. -/
  table : Probe.Inv cellHash t.ht {pair | pair ∈ numbered t.nodes}
  /-- They are counted. -/
  used : t.ht.used + 1 = t.nodes.length
  /-- The table is not too full. -/
  load : t.nodes.length ≤ t.ht.cap - t.ht.cap / 4
  /-- The slots of the table. -/
  slots : Pow32 t.ht.cap
  /-- There are more than a few. -/
  many : 128 ≤ t.ht.cap
  /-- The room for nodes. -/
  room : Pow32 t.cap
  /-- There is room. -/
  le : t.nodes.length ≤ t.cap

theorem numbered_cons (c : Cell) (nodes : List Cell) :
    numbered (c :: nodes) = (nodes.zipIdx 1).map fun p => (p.1, p.2 + 1) := rfl

theorem mem_numbered {c₀ c : Cell} {nodes : List Cell} {id : ℕ} :
    (c, id) ∈ numbered (c₀ :: nodes) ↔ ∃ p, nodes[p]? = some c ∧ id = p + 2 := by
  rw [numbered_cons, List.mem_map]
  constructor
  · rintro ⟨⟨c', i⟩, hmem, heq⟩
    cases heq
    obtain ⟨hle, hget⟩ := List.mk_mem_zipIdx_iff_le_and_getElem?_sub.mp hmem
    exact ⟨i - 1, hget, by omega⟩
  · rintro ⟨p, hp, rfl⟩
    refine ⟨(c, p + 1), List.mk_mem_zipIdx_iff_le_and_getElem?_sub.mpr ⟨by omega, ?_⟩, rfl⟩
    simpa using hp

theorem map_fst_numbered (c : Cell) (nodes : List Cell) :
    (numbered (c :: nodes)).map Prod.fst = nodes := by
  rw [numbered_cons, List.map_map]
  exact List.zipIdx_map_fst 1 nodes

theorem length_numbered (c : Cell) (nodes : List Cell) :
    (numbered (c :: nodes)).length = nodes.length := by
  rw [numbered_cons, List.length_map, List.length_zipIdx]

theorem numbered_append (c : Cell) (nodes : List Cell) (new : Cell) :
    numbered (c :: nodes ++ [new]) = numbered (c :: nodes) ++ [(new, nodes.length + 2)] := by
  rw [List.cons_append, numbered_cons, numbered_cons, List.zipIdx_append, List.map_append]
  simp only [List.map_cons, List.map_nil, List.zipIdx_cons, List.zipIdx_nil]
  rw [show 1 + nodes.length + 1 = nodes.length + 2 by omega]

theorem termOk_create : TermOk termCreate where
  first := rfl
  tails p c h := by
    rw [show termCreate.nodes.tail = [] from rfl, List.getElem?_nil] at h
    cases h
  nodup := List.nodup_nil
  table := by
    have hnone : {pair : Cell × ℕ | pair ∈ numbered termCreate.nodes} = ∅ := by
      rw [show numbered termCreate.nodes = [] from rfl]
      simp
    rw [hnone]
    exact Probe.Inv.empty (by decide)
  used := rfl
  load := by decide
  slots := ⟨7, by decide, rfl⟩
  many := by decide
  room := ⟨6, by decide, rfl⟩
  le := by decide

variable {t t' : Termstore}

theorem TermOk.length_pos (ok : TermOk t) : 0 < t.nodes.length := by
  have := ok.used
  omega

theorem TermOk.length_tail (ok : TermOk t) : t.nodes.tail.length + 1 = t.nodes.length := by
  have := ok.length_pos
  rw [List.length_tail]
  omega

/-- There are not too many nodes. -/
theorem TermOk.few (ok : TermOk t) : t.nodes.length ≤ termRoom := by
  obtain ⟨j, hj, hcap⟩ := ok.slots
  have hload := ok.load
  have hpow : 2 ^ j ≤ 2 ^ 31 := Nat.pow_le_pow_right (by decide) hj
  have := termRoom_eq
  omega

theorem TermOk.isList_iff (ok : TermOk t) (v : Val) :
    termIsList t v = true ↔ ∃ i < t.nodes.length, v = handle i :=
  termIsList_iff (by have := ok.few; have := termRoom_eq; omega) v

/-! ## What handles stand for -/

theorem TermOk.getElem_cells (ok : TermOk t) {p j : ℕ} {x : Val} :
    t.cells[p]? = some (x, j) ↔ j ≤ p ∧ t.nodes[p + 1]? = some (x, handle j) := by
  have hlen : ∀ {c : Cell}, t.nodes.tail[p]? = some c → p < 2 ^ 31 := by
    intro c h
    have := (List.getElem?_eq_some_iff.mp h).1
    have := ok.few
    have := termRoom_eq
    have := ok.length_tail
    omega
  rw [← List.getElem?_tail, Termstore.cells, List.getElem?_map, Option.map_eq_some_iff]
  constructor
  · rintro ⟨⟨y, v⟩, hp, heq⟩
    obtain ⟨k, hk, hv⟩ := ok.tails p _ hp
    have hkp := hlen hp
    simp only [Prod.mk.injEq] at heq hv
    rw [hv, handle_sub (by omega)] at heq
    obtain ⟨rfl, rfl⟩ := heq
    exact ⟨hk, hv ▸ hp⟩
  · rintro ⟨hj, hp⟩
    have hkp := hlen hp
    exact ⟨_, hp, by rw [handle_sub (by omega)]⟩

theorem TermOk.older (ok : TermOk t) : Older t.cells := fun _ _ _ h => (ok.getElem_cells.mp h).1

theorem TermOk.nodup_cells (ok : TermOk t) : t.cells.Nodup := by
  refine ok.nodup.map fun c d h => ?_
  simp only [Prod.mk.injEq, UInt32.toNat_inj] at h
  exact Prod.ext h.1 (sub_left_injective h.2)

theorem TermOk.length_cells (ok : TermOk t) : t.cells.length + 1 = t.nodes.length := by
  rw [Termstore.cells, List.length_map, ok.length_tail]

/-- **A node is a cell.** -/
theorem TermOk.node (ok : TermOk t) {p j : ℕ} {x : Val} (h : t.cells[p]? = some (x, j)) :
    handle (p + 1) ≠ termNil ∧ termCar t (handle (p + 1)) = x ∧
      termCdr t (handle (p + 1)) = handle j := by
  obtain ⟨hj, hp⟩ := ok.getElem_cells.mp h
  have hlt : p + 1 < t.nodes.length := (List.getElem?_eq_some_iff.mp hp).1
  have hfew := ok.few
  have hroom := termRoom_eq
  have hlist : termIsList t (handle (p + 1)) = true := (ok.isList_iff _).mpr ⟨_, hlt, rfl⟩
  have hne : handle (p + 1) ≠ termNil := fun heq =>
    absurd (handle_inj (by omega) (by decide) (heq.trans handle_zero.symm)) (Nat.succ_ne_zero p)
  have hnot : ¬ (termIsList t (handle (p + 1)) = false ∨ handle (p + 1) = termNil) := by
    rw [hlist]
    simpa using hne
  rw [termCar, termCdr, if_neg hnot, if_neg hnot, handle_sub (by omega), hp]
  exact ⟨hne, rfl, rfl⟩

/-- **The loops walk along the list.** -/
theorem TermOk.walk (ok : TermOk t) {i : ℕ} {xs : List Val} (h : Denotes t.cells i xs) :
    ∀ {fuel : ℕ}, xs.length < fuel → collect t fuel (handle i) = some xs ∧
      ∀ n < 2 ^ 32, lengthLoop t fuel n (handle i) = some ((n + xs.length) % 2 ^ 32) := by
  induction h with
  | nil =>
    intro fuel hfuel
    obtain ⟨fuel, rfl⟩ : ∃ f, fuel = f + 1 := ⟨fuel - 1, by simp at hfuel; omega⟩
    refine ⟨if_pos rfl, fun n hn => ?_⟩
    rw [lengthLoop, if_pos handle_zero, List.length_nil, Nat.add_zero, Nat.mod_eq_of_lt hn]
  | @cons p j x xs hp _ ih =>
    intro fuel hfuel
    rw [List.length_cons] at hfuel
    obtain ⟨fuel, rfl⟩ : ∃ f, fuel = f + 1 := ⟨fuel - 1, by omega⟩
    obtain ⟨hne, hcar, hcdr⟩ := ok.node hp
    obtain ⟨hcollect, hlength⟩ := @ih fuel (by omega)
    constructor
    · rw [collect, if_neg hne, hcar, hcdr, hcollect]
      rfl
    · intro n hn
      rw [lengthLoop, if_neg hne, hcdr, hlength _ (Nat.mod_lt _ (by decide)), List.length_cons,
        Nat.mod_add_mod]
      congr 2
      omega

/-! ## Making a node -/

/-- The table has room for one more node, unless it cannot be doubled. -/
theorem TermOk.grow (ok : TermOk t) :
    (∃ t₁, (if t.ht.cap - t.ht.cap / 4 < t.nodes.length + 1 then htGrow t else some t) = some t₁ ∧
        TermOk t₁ ∧ t₁.nodes = t.nodes ∧ t.nodes.length + 1 ≤ t₁.ht.cap - t₁.ht.cap / 4) ∨
      (if t.ht.cap - t.ht.cap / 4 < t.nodes.length + 1 then htGrow t else some t) = none ∧
        termRoom < t.nodes.length + 1 := by
  by_cases hfull : t.ht.cap - t.ht.cap / 4 < t.nodes.length + 1
  · rw [if_pos hfull]
    obtain ⟨j, hj, hcap⟩ := ok.slots
    have hmany := ok.many
    have hload := ok.load
    unfold htGrow
    dsimp only
    rcases Nat.lt_or_ge j 31 with hlt | hge
    · have hpow : 2 ^ (j + 1) < 2 ^ 32 := Nat.pow_lt_pow_right (by decide) (by omega)
      have hdouble : t.ht.cap * 2 % 2 ^ 32 = t.ht.cap * 2 := by
        rw [hcap, ← pow_succ, Nat.mod_eq_of_lt hpow]
      rw [hdouble, if_neg (by omega)]
      have hlen : (numbered t.nodes).length + 1 = t.nodes.length := by
        rw [ok.first, length_numbered, List.length_cons]
      have hnodup : ((numbered t.nodes).map Prod.fst).Nodup := by
        rw [ok.first, map_fst_numbered]
        exact ok.nodup
      obtain ⟨hinv, hcap', hused⟩ := @Probe.inv_rebuild _ cellHash _ _
        (show (numbered t.nodes).length < t.ht.cap * 2 by omega) hnodup
      refine .inl ⟨_, rfl, ⟨ok.first, ok.tails, ok.nodup, hinv, ?_, ?_, ?_, ?_, ok.room, ok.le⟩,
        rfl, ?_⟩
      · show (Probe.rebuild _ _ _).used + 1 = _
        rw [hused, hlen]
      · show t.nodes.length ≤ (Probe.rebuild _ _ _).cap - (Probe.rebuild _ _ _).cap / 4
        rw [hcap']
        omega
      · show Pow32 (Probe.rebuild _ _ _).cap
        rw [hcap', hcap, ← pow_succ]
        exact ⟨j + 1, by omega, rfl⟩
      · show 128 ≤ (Probe.rebuild _ _ _).cap
        rw [hcap']
        omega
      · show t.nodes.length + 1 ≤ (Probe.rebuild _ _ _).cap - (Probe.rebuild _ _ _).cap / 4
        rw [hcap']
        omega
    · obtain rfl : j = 31 := by omega
      rw [hcap] at hfull ⊢
      exact .inr ⟨rfl, hfull⟩
  · rw [if_neg hfull]
    exact .inl ⟨t, rfl, ok, rfl, not_lt.mp hfull⟩

/-- There is room for one more node. -/
theorem TermOk.growNodes (ok : TermOk t) :
    ∃ t₁, (if t.cap ≤ t.nodes.length then nodesGrow t else some t) = some t₁ ∧
      t₁.nodes = t.nodes ∧ t₁.ht = t.ht ∧ Pow32 t₁.cap ∧ t.nodes.length + 1 ≤ t₁.cap := by
  by_cases hfull : t.cap ≤ t.nodes.length
  · rw [if_pos hfull]
    obtain ⟨j, hj, hcap⟩ := ok.room
    have hfew := ok.few
    have hroom := termRoom_eq
    have hlt : j < 31 := by
      by_contra hge
      obtain rfl : j = 31 := by omega
      omega
    have hpow : 2 ^ (j + 1) < 2 ^ 32 := Nat.pow_lt_pow_right (by decide) (by omega)
    have hdouble : t.cap * 2 % 2 ^ 32 = t.cap * 2 := by
      rw [hcap, ← pow_succ, Nat.mod_eq_of_lt hpow]
    have hle := ok.le
    have hpos := ok.length_pos
    unfold nodesGrow
    dsimp only
    rw [hdouble, if_neg (by omega)]
    refine ⟨_, rfl, rfl, rfl, ⟨j + 1, by omega, ?_⟩, ?_⟩
    · show t.cap * 2 = _
      rw [hcap, ← pow_succ]
    · show t.nodes.length + 1 ≤ t.cap * 2
      omega
  · rw [if_neg hfull]
    exact ⟨t, rfl, rfl, rfl, ok.room, by omega⟩

/-- The number of a stored node. -/
theorem TermOk.numbered_iff (ok : TermOk t) {c : Cell} {id : ℕ} :
    (c, id) ∈ {pair | pair ∈ numbered t.nodes} ↔ 2 ≤ id ∧ t.nodes[id - 1]? = some c := by
  rw [Set.mem_ofPred_eq, ok.first, mem_numbered]
  constructor
  · rintro ⟨p, hp, rfl⟩
    exact ⟨by omega, hp⟩
  · rintro ⟨hid, hget⟩
    refine ⟨id - 2, ?_, by omega⟩
    rw [show id - 1 = id - 2 + 1 by omega, List.getElem?_cons_succ] at hget
    exact hget

/-- **A node is found, or made**, unless the table cannot be doubled. -/
theorem termCons_spec (ok : TermOk t) (x : Val) {j : ℕ} (hj : j < t.nodes.length) :
    (∃ t' i, termCons t x (handle j) = some (t', handle i) ∧ TermOk t' ∧ 0 < i ∧
        t'.nodes[i]? = some (x, handle j) ∧
        t'.nodes = if (x, handle j) ∈ t.nodes.tail then t.nodes
          else t.nodes ++ [(x, handle j)]) ∨
      termCons t x (handle j) = some (t, 0) ∧ termRoom < t.nodes.length + 1 := by
  have hlist : termIsList t (handle j) = true := (ok.isList_iff _).mpr ⟨j, hj, rfl⟩
  unfold termCons
  rw [if_neg (by rw [hlist]; exact Bool.noConfusion)]
  rcases ok.grow with ⟨t₁, hgrow, ok₁, hnodes, hload⟩ | ⟨hgrow, hfull⟩
  swap
  · rw [hgrow]
    exact .inr ⟨rfl, hfull⟩
  rw [hgrow]
  dsimp only
  rw [← hnodes] at hj hload ⊢
  have hused : t₁.ht.used < t₁.ht.cap := by
    have := ok₁.used
    omega
  have hmem : (x, handle j) ∈ t₁.nodes.tail ↔
      ∃ id, ((x, handle j), id) ∈ {pair | pair ∈ numbered t₁.nodes} := by
    rw [List.mem_iff_getElem?]
    constructor
    · rintro ⟨p, hp⟩
      rw [List.getElem?_tail] at hp
      exact ⟨p + 2, ok₁.numbered_iff.mpr ⟨by omega, hp⟩⟩
    · rintro ⟨id, hid⟩
      obtain ⟨hle, hget⟩ := ok₁.numbered_iff.mp hid
      refine ⟨id - 2, ?_⟩
      rw [List.getElem?_tail, show id - 2 + 1 = id - 1 by omega]
      exact hget
  rcases ok₁.table.probe hused (x, handle j) with ⟨id, hid, hprobe⟩ | ⟨hnew, D, hD, hslot, hpath, hprobe⟩
  · rw [hprobe, if_pos (hmem.mpr ⟨id, hid⟩)]
    obtain ⟨hle, hget⟩ := ok₁.numbered_iff.mp hid
    exact .inl ⟨t₁, id - 1, rfl, ok₁, by omega, hget, rfl⟩
  · have hnot : (x, handle j) ∉ t₁.nodes.tail := fun h => (hmem.mp h).elim hnew
    rw [hprobe, if_neg hnot]
    obtain ⟨t₂, hroom, hnodes₂, hht₂, hpow₂, hle₂⟩ := ok₁.growNodes
    dsimp only
    rw [hroom]
    dsimp only
    rw [hnodes₂, hht₂]
    have htail : (t₁.nodes ++ [(x, handle j)]).tail = t₁.nodes.tail ++ [(x, handle j)] := by
      rw [ok₁.first]
      rfl
    have hlentail := ok₁.length_tail
    have hput := ok₁.table.put hnew hslot hD hpath (t₁.nodes.length + 1)
    refine .inl ⟨_, t₁.nodes.length, rfl, ⟨?_, ?_, ?_, ?_, ?_, ?_, ok₁.slots, ok₁.many, hpow₂, ?_⟩,
      ok₁.length_pos, List.getElem?_concat_length, rfl⟩
    · dsimp only
      rw [htail]
      conv_lhs => rw [ok₁.first]
      rfl
    · intro p c hp
      dsimp only at hp
      rw [htail] at hp
      rcases lt_trichotomy p t₁.nodes.tail.length with hlt | rfl | hlt
      · rw [List.getElem?_append_left hlt] at hp
        exact ok₁.tails p c hp
      · rw [List.getElem?_concat_length] at hp
        cases hp
        exact ⟨j, by omega, rfl⟩
      · rw [List.getElem?_eq_none (by simp; omega)] at hp
        cases hp
    · dsimp only
      rw [htail, List.nodup_append]
      refine ⟨ok₁.nodup, List.nodup_singleton _, fun a ha b hb hab => ?_⟩
      rw [List.mem_singleton.mp hb] at hab
      exact hnot (hab ▸ ha)
    · have hset : {pair | pair ∈ numbered (t₁.nodes ++ [(x, handle j)])} =
          insert ((x, handle j), t₁.nodes.length + 1) {pair | pair ∈ numbered t₁.nodes} := by
        ext pair
        rw [ok₁.first, numbered_append]
        simp [or_comm]
      dsimp only
      rw [hset]
      exact hput
    · have hused₁ := ok₁.used
      show t₁.ht.used + 1 + 1 = _
      rw [List.length_append, List.length_singleton]
      omega
    · show (t₁.nodes ++ [(x, handle j)]).length ≤ t₁.ht.cap - t₁.ht.cap / 4
      rw [List.length_append, List.length_singleton]
      exact hload
    · show (t₁.nodes ++ [(x, handle j)]).length ≤ t₂.cap
      rw [List.length_append, List.length_singleton]
      exact hle₂

/-! ## Handles keep their meaning -/

/-- The elements of a list, as the loops find them. -/
def Termstore.elements (t : Termstore) (h : Val) : Option (List Val) :=
  collect t t.nodes.length h

/-- More nodes are more cells. -/
theorem TermOk.cells_append (ok : TermOk t) (h : t.nodes <+: t'.nodes) :
    ∃ more, t'.cells = t.cells ++ more := by
  obtain ⟨more, hmore⟩ := h
  have htail : t'.nodes.tail = t.nodes.tail ++ more := by
    rw [← hmore, ok.first]
    rfl
  exact ⟨_, by rw [Termstore.cells, htail, List.map_append]; rfl⟩

theorem TermOk.denotes_mono (ok : TermOk t) (h : t.nodes <+: t'.nodes) {i : ℕ} {xs : List Val}
    (hxs : Denotes t.cells i xs) : Denotes t'.cells i xs := by
  obtain ⟨more, hmore⟩ := ok.cells_append h
  rw [hmore]
  exact hxs.append more

theorem TermOk.lt_of_denotes (ok : TermOk t) {i : ℕ} {xs : List Val}
    (h : Denotes t.cells i xs) : i < t.nodes.length := by
  have hlen := ok.length_cells
  have hle := h.le
  omega

/-- **What the loops find** is the list of the handle. -/
theorem TermOk.elements_eq (ok : TermOk t) {i : ℕ} {xs : List Val} (h : Denotes t.cells i xs) :
    t.elements (handle i) = some xs ∧ termLength t (handle i) = some xs.length := by
  have hlt := ok.lt_of_denotes h
  have hfew := ok.few
  have hroom := termRoom_eq
  have hlen : xs.length ≤ i := by
    obtain ⟨ys, hys, hle⟩ := ok.older.denotes i h.le
    rwa [h.unique hys]
  obtain ⟨hcollect, hlength⟩ := ok.walk h (show xs.length < t.nodes.length by omega)
  refine ⟨hcollect, ?_⟩
  have hlist : termIsList t (handle i) = true := (ok.isList_iff _).mpr ⟨i, hlt, rfl⟩
  rw [termLength, if_neg (by rw [hlist]; exact Bool.noConfusion), hlength 0 (by decide),
    Nat.zero_add, Nat.mod_eq_of_lt (by omega)]

/-- Every list has elements. -/
theorem TermOk.denotes (ok : TermOk t) {h : Val} (hh : termIsList t h = true) :
    ∃ i xs, h = handle i ∧ Denotes t.cells i xs := by
  obtain ⟨i, hi, rfl⟩ := (ok.isList_iff h).mp hh
  have hlen := ok.length_cells
  obtain ⟨xs, hxs, -⟩ := ok.older.denotes i (by omega)
  exact ⟨i, xs, rfl, hxs⟩

/-- The handles of one store are handles of the other, and stand for the same lists. -/
def Keeps (t t' : Termstore) : Prop :=
  ∀ h, termIsList t h = true → termIsList t' h = true ∧ t'.elements h = t.elements h

theorem TermOk.keeps (ok : TermOk t) (ok' : TermOk t') (h : t.nodes <+: t'.nodes) :
    Keeps t t' := by
  intro v hv
  obtain ⟨i, xs, rfl, hxs⟩ := ok.denotes hv
  have hxs' := ok.denotes_mono h hxs
  rw [(ok.elements_eq hxs).1, (ok'.elements_eq hxs').1]
  exact ⟨(ok'.isList_iff _).mpr ⟨i, ok'.lt_of_denotes hxs', rfl⟩, rfl⟩

/-! ## The calls -/

/-- A node that is made is a cell. -/
theorem TermOk.cell_of_node (ok : TermOk t) {p j : ℕ} {x : Val} (hj : j < 2 ^ 31)
    (h : t.nodes[p + 1]? = some (x, handle j)) : t.cells[p]? = some (x, j) := by
  have hlt : p + 1 < t.nodes.length := (List.getElem?_eq_some_iff.mp h).1
  have hfew := ok.few
  have hroom := termRoom_eq
  obtain ⟨k, hk, heq⟩ := ok.tails p (x, handle j) (by rw [List.getElem?_tail]; exact h)
  obtain rfl := handle_inj hj (by omega) heq
  exact ok.getElem_cells.mpr ⟨hk, h⟩

/-- **A new list.** -/
theorem TermOk.cons (ok : TermOk t) (x : Val) {j : ℕ} {ys : List Val}
    (hys : Denotes t.cells j ys) :
    ∃ t' v, termCons t x (handle j) = some (t', v) ∧ TermOk t' ∧ t.nodes <+: t'.nodes ∧
      t'.nodes.length ≤ t.nodes.length + 1 ∧
      ((∃ r, v = handle r ∧ Denotes t'.cells r (x :: ys)) ∨
        v = 0 ∧ termRoom < t.nodes.length + 1) := by
  have hj := ok.lt_of_denotes hys
  have hfew := ok.few
  have hroom := termRoom_eq
  rcases termCons_spec ok x hj with ⟨t', i, hcons, ok', hi, hget, hnodes⟩ | ⟨hcons, hfull⟩
  · have hgrows : t.nodes <+: t'.nodes := by
      rw [hnodes]
      split
      · exact List.prefix_rfl
      · exact List.prefix_append _ _
    have hlen : t'.nodes.length ≤ t.nodes.length + 1 := by
      rw [hnodes]
      split
      · exact Nat.le_succ _
      · rw [List.length_append, List.length_singleton]
    obtain ⟨p, rfl⟩ : ∃ p, i = p + 1 := ⟨i - 1, by omega⟩
    have hcell := ok'.cell_of_node (by omega) hget
    exact ⟨t', _, hcons, ok', hgrows, hlen,
      .inl ⟨p + 1, rfl, .cons hcell (ok.denotes_mono hgrows hys)⟩⟩
  · exact ⟨t, 0, hcons, ok, List.prefix_rfl, Nat.le_succ _, .inr ⟨rfl, hfull⟩⟩

/-- `term_cons` of anything keeps the invariant. -/
theorem TermOk.termCons (ok : TermOk t) (head tail : Val) :
    ∃ t' v, termCons t head tail = some (t', v) ∧ TermOk t' ∧ t.nodes <+: t'.nodes := by
  cases hlist : termIsList t tail with
  | false => exact ⟨t, 0, by rw [DatalogDafsa.termCons, if_pos hlist], ok, List.prefix_rfl⟩
  | true =>
    obtain ⟨j, ys, rfl, hys⟩ := ok.denotes hlist
    obtain ⟨t', v, hcons, ok', hgrows, -⟩ := ok.cons head hys
    exact ⟨t', v, hcons, ok', hgrows⟩

/-- **Nodes are made from the last on.** -/
theorem TermOk.consAll (ok : TermOk t) (xs : List Val) {b : ℕ} {ys : List Val}
    (hys : Denotes t.cells b ys) :
    ∃ t' v, consAll t xs (handle b) = some (t', v) ∧ TermOk t' ∧ t.nodes <+: t'.nodes ∧
      t'.nodes.length ≤ t.nodes.length + xs.length ∧
      ((∃ r, v = handle r ∧ Denotes t'.cells r (xs ++ ys)) ∨
        v = 0 ∧ termRoom < t.nodes.length + xs.length) := by
  induction xs with
  | nil => exact ⟨t, _, rfl, ok, List.prefix_rfl, le_rfl, .inl ⟨b, rfl, hys⟩⟩
  | cons x xs ih =>
    obtain ⟨t₁, v, hrest, ok₁, hgrows, hlen, hres⟩ := ih
    rw [DatalogDafsa.consAll, hrest, List.length_cons]
    dsimp only
    rcases hres with ⟨r, rfl, hr⟩ | ⟨rfl, hfull⟩
    · have hlt := ok₁.lt_of_denotes hr
      have hfew := ok₁.few
      have hroom := termRoom_eq
      rw [if_neg (handle_ne_zero (by omega))]
      obtain ⟨t₂, w, hcons, ok₂, hgrows₂, hlen₂, hres₂⟩ := ok₁.cons x hr
      refine ⟨t₂, w, hcons, ok₂, hgrows.trans hgrows₂, by omega, ?_⟩
      exact hres₂.imp_right fun h => ⟨h.1, by omega⟩
    · rw [if_pos rfl]
      exact ⟨t₁, 0, rfl, ok₁, hgrows, by omega, .inr ⟨rfl, by omega⟩⟩

/-- **The concatenation.** -/
theorem termAppend_spec (ok : TermOk t) {a b : ℕ} {xs ys : List Val}
    (hxs : Denotes t.cells a xs) (hys : Denotes t.cells b ys) :
    ∃ t' v, termAppend t (handle a) (handle b) = some (t', v) ∧ TermOk t' ∧
      t.nodes <+: t'.nodes ∧ ((∃ r, v = handle r ∧ Denotes t'.cells r (xs ++ ys)) ∨
        v = 0 ∧ termRoom < t.nodes.length + xs.length) := by
  have ha := ok.lt_of_denotes hxs
  have hb := ok.lt_of_denotes hys
  have hfew := ok.few
  have hroom := termRoom_eq
  have hlen : xs.length ≤ a := by
    obtain ⟨zs, hzs, hle⟩ := ok.older.denotes a hxs.le
    rwa [hxs.unique hzs]
  have hlists : ¬ (termIsList t (handle a) = false ∨ termIsList t (handle b) = false) := by
    rw [(ok.isList_iff _).mpr ⟨a, ha, rfl⟩, (ok.isList_iff _).mpr ⟨b, hb, rfl⟩]
    simp
  unfold termAppend
  rw [if_neg hlists]
  by_cases hnil : handle a = termNil
  · rw [if_pos hnil]
    obtain rfl : a = 0 := handle_inj (by omega) (by decide) (hnil.trans handle_zero.symm)
    cases hxs
    exact ⟨t, _, rfl, ok, List.prefix_rfl, .inl ⟨b, rfl, hys⟩⟩
  · rw [if_neg hnil, (ok.walk hxs (show xs.length < t.nodes.length by omega)).1]
    dsimp only
    rw [if_neg (by omega)]
    obtain ⟨t', v, hcons, ok', hgrows, -, hres⟩ := ok.consAll xs hys
    exact ⟨t', v, hcons, ok', hgrows, hres⟩

/-- **A call** keeps the invariant, and what handles stand for. -/
theorem TermOk.step (ok : TermOk t) (call : TermCall) :
    ∃ t', termStep t call = some t' ∧ TermOk t' ∧ t.nodes <+: t'.nodes := by
  cases call with
  | cons head tail =>
    obtain ⟨t', v, hcons, ok', hgrows⟩ := ok.termCons head tail
    exact ⟨t', by rw [termStep, hcons]; rfl, ok', hgrows⟩
  | append a b =>
    by_cases hlists : termIsList t a = false ∨ termIsList t b = false
    · refine ⟨t, ?_, ok, List.prefix_rfl⟩
      rw [termStep, termAppend, if_pos hlists]
      rfl
    · rw [not_or, Bool.not_eq_false, Bool.not_eq_false] at hlists
      obtain ⟨i, xs, rfl, hxs⟩ := ok.denotes hlists.1
      obtain ⟨j, ys, rfl, hys⟩ := ok.denotes hlists.2
      obtain ⟨t', v, happ, ok', hgrows, -⟩ := termAppend_spec ok hxs hys
      exact ⟨t', by rw [termStep, happ]; rfl, ok', hgrows⟩

/-- **So does a run.** -/
theorem termRun_spec (ok : TermOk t) (calls : List TermCall) :
    ∃ t', termRun t calls = some t' ∧ TermOk t' ∧ t.nodes <+: t'.nodes := by
  unfold termRun
  induction calls generalizing t with
  | nil => exact ⟨t, rfl, ok, List.prefix_rfl⟩
  | cons call calls ih =>
    obtain ⟨t₁, hstep, ok₁, hgrows₁⟩ := ok.step call
    obtain ⟨t', hrun, ok', hgrows⟩ := ih ok₁
    exact ⟨t', by rw [List.foldlM_cons, hstep]; exact hrun, ok', hgrows₁.trans hgrows⟩

end DatalogDafsa
