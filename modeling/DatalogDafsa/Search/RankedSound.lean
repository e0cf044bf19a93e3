import DatalogDafsa.Search.Ranked

/-!
# Ranked search is exact

The documents of a term are collected into a set; the smallest of the sets, filtered
by the others, is their intersection; and the number of distinct keys of a document
among the sorted packed keys is the number of terms it matches.  Both searches thus
emit the documents that match enough terms, by descending number of matches.

## Main definitions

* `Postings.matched` — the terms of a query that a document matches.
* `Ranks` — what a ranked search has to emit.
* `dlSearchRanked_exact` — it does.
-/

namespace DatalogDafsa.Search

/-! ## Collecting -/

/-- The documents of a term, among rows. -/
def docs (S : Set Row) (t : Val) : Set Val := {o | ∃ cols ∈ S, [t] <+: cols ∧ cols.getD 1 0 = o}

/-- A set is that of the documents of a term. -/
def Collected (S : Set Row) (t : Val) (s : IntSet) : Prop := s.Ok ∧ ∀ o, o ∈ s.data ↔ o ∈ docs S t

/-- **The documents of a term.** -/
theorem collectTermObsIds_spec {r : LazyRelation} (harity : r.arity = 2) (t : Val) :
    (∃ s, (collectTermObsIds r t).1 = some s ∧ Collected r.sets.view t s) ∧
      (collectTermObsIds r t).2.arity = 2 ∧ (collectTermObsIds r t).2.sets.view = r.sets.view := by
  have hready := r.ready_spec
  have hview : r.ready.sets.view = r.sets.view := by
    rw [hready.sets]
    rfl
  refine ⟨?_, hready.arity.trans harity, hview⟩
  have hp : ¬ r.ready.arity < [t].length := by
    rw [hready.arity, harity, List.length_singleton]
    omega
  obtain ⟨rows, hrows, -, hmem⟩ : ∃ rows, (r.relPrefix [t]).1 = some rows ∧ rows.Nodup ∧
      ∀ x, x ∈ rows ↔ x ∈ Sets.matching r.sets.view [t] := by
    have hl := lists_relPrefixD r.ready.arity (S := r.sets.view) hready.mem_d [t]
    rw [Sets.Lists, if_neg hp] at hl
    obtain ⟨rows, hrows, hnodup, hmem⟩ := hl
    refine ⟨rows, ?_, hnodup, hmem⟩
    change (relPrefixD r.ready.arity r.ready.d [t]).map
      (· ++ r.ready.ov.rows.filter fun x => [t].isPrefixOf x) = _
    rw [hrows, hready.ov]
    simp
  refine ⟨(rows.map fun cols => cols.getD 1 0).foldl intSetAdd .empty, ?_, ?_, fun o => ?_⟩
  · change (r.relPrefix [t]).1.map _ = _
    rw [hrows]
    rfl
  · exact (IntSet.ok_empty.addAll _).1
  · rw [(IntSet.ok_empty.addAll _).2, List.mem_map]
    constructor
    · rintro (⟨cols, hcols, rfl⟩ | hnil)
      · obtain ⟨hin, hpre⟩ := (hmem cols).mp hcols
        exact ⟨cols, hin, hpre, rfl⟩
      · exact absurd hnil List.not_mem_nil
    · rintro ⟨cols, hin, hpre, rfl⟩
      exact .inl ⟨cols, (hmem cols).mpr ⟨hin, hpre⟩, rfl⟩

/-- **A set for each term.** -/
theorem collectTermSets_spec {r : LazyRelation} (harity : r.arity = 2) (terms : List Val) :
    ∃ sets, (collectTermSets r terms).1 = some sets ∧
      List.Forall₂ (Collected r.sets.view) terms sets := by
  induction terms generalizing r with
  | nil => exact ⟨[], rfl, .nil⟩
  | cons t terms ih =>
    obtain ⟨⟨s, hs, hcol⟩, harity', hview⟩ := collectTermObsIds_spec harity t
    obtain ⟨sets, hsets, hall⟩ := ih harity'
    rw [hview] at hall
    refine ⟨s :: sets, ?_, .cons hcol hall⟩
    unfold collectTermSets
    dsimp only
    rw [hs, Option.elim_some, hsets]
    rfl

/-! ## Intersecting -/

theorem smallestIdx_lt {sets : List IntSet} (h : sets ≠ []) : smallestIdx sets < sets.length := by
  have hpos : 0 < sets.length := List.length_pos_iff.mpr h
  have key : ∀ l : List ℕ, (∀ i ∈ l, i < sets.length) → ∀ b < sets.length,
      l.foldl (fun b i => if countAt sets i < countAt sets b then i else b) b < sets.length := by
    intro l
    induction l with
    | nil => exact fun _ b hb => hb
    | cons i l ih =>
      intro hl b hb
      refine ih (fun j hj => hl j (List.mem_cons_of_mem i hj)) _ ?_
      dsimp only
      split
      · exact hl i List.mem_cons_self
      · exact hb
  exact key _ (fun i hi => List.mem_range.mp hi) 0 hpos

/-- Filtering one set into another. -/
theorem foldl_addIf {q : Val → Bool} (l : List Val) {s : IntSet} (h : s.Ok) :
    (l.foldl (fun res obs => if q obs then intSetAdd res obs else res) s).Ok ∧
      ∀ x, x ∈ (l.foldl (fun res obs => if q obs then intSetAdd res obs else res) s).data ↔
        x ∈ s.data ∨ x ∈ l ∧ q x = true := by
  induction l generalizing s with
  | nil => exact ⟨h, fun x => by simp⟩
  | cons v l ih =>
    rw [List.foldl_cons]
    by_cases hv : q v = true
    · rw [if_pos hv]
      obtain ⟨hok, hmem⟩ := ih (h.add v)
      refine ⟨hok, fun x => ?_⟩
      rw [hmem, mem_intSetAdd h, List.mem_cons]
      constructor
      · rintro ((rfl | hx) | hx)
        · exact .inr ⟨.inl rfl, hv⟩
        · exact .inl hx
        · exact .inr ⟨.inr hx.1, hx.2⟩
      · rintro (hx | ⟨rfl | hx, hq⟩)
        · exact .inl (.inr hx)
        · exact .inl (.inl rfl)
        · exact .inr ⟨hx, hq⟩
    · rw [if_neg hv]
      obtain ⟨hok, hmem⟩ := ih h
      refine ⟨hok, fun x => ?_⟩
      rw [hmem, List.mem_cons]
      constructor
      · rintro (hx | hx)
        · exact .inl hx
        · exact .inr ⟨.inr hx.1, hx.2⟩
      · rintro (hx | ⟨rfl | hx, hq⟩)
        · exact .inl hx
        · exact absurd hq hv
        · exact .inr ⟨hx, hq⟩

/-- **The intersection** has the documents of all the sets, each once. -/
theorem intSetIntersect_spec {sets : List IntSet} (hne : sets ≠ []) (hok : ∀ s ∈ sets, s.Ok) :
    (intSetIntersect sets).data.Nodup ∧
      ∀ o, o ∈ (intSetIntersect sets).data ↔ ∀ s ∈ sets, o ∈ s.data := by
  unfold intSetIntersect
  split
  · rename_i hone
    obtain ⟨s, rfl⟩ := List.length_eq_one_iff.mp hone
    exact ⟨(hok s List.mem_cons_self).nodup, fun o => by simp⟩
  · dsimp only
    set least := smallestIdx sets with hleast
    have hlt : least < sets.length := smallestIdx_lt hne
    obtain ⟨hres, hmem⟩ := foldl_addIf (q := inAllOthers sets least)
      (sets.getD least .empty).data IntSet.ok_empty
    refine ⟨hres.nodup, fun o => ?_⟩
    rw [hmem, List.getD_eq_getElem sets _ hlt]
    have hothers : inAllOthers sets least o = true ↔
        ∀ i (hi : i < sets.length), i ≠ least → o ∈ (sets[i]).data := by
      simp only [inAllOthers, List.all_eq_true, List.mem_range, Bool.or_eq_true, decide_eq_true_eq]
      refine forall_congr' fun i => forall_congr' fun hi => ?_
      rw [List.getD_eq_getElem sets _ hi, intSetContains_iff (hok _ (List.getElem_mem hi))]
      tauto
    rw [hothers]
    constructor
    · rintro (hnil | ⟨ho, hoth⟩) s hs
      · exact absurd hnil List.not_mem_nil
      · obtain ⟨i, hi, rfl⟩ := List.mem_iff_getElem.mp hs
        by_cases hil : i = least
        · subst hil
          exact ho
        · exact hoth i hi hil
    · exact fun h => .inr ⟨h _ (List.getElem_mem hlt), fun i hi _ => h _ (List.getElem_mem hi)⟩

/-! ## The order of the results -/

theorem scoredResultLt_iff (a b : ScoredResult) :
    scoredResultLt a b = true ↔
      b.score < a.score ∨ a.score = b.score ∧ a.obsId.toNat < b.obsId.toNat := by
  unfold scoredResultLt
  split
  · rename_i hne
    simp only [decide_eq_true_eq]
    exact ⟨.inl, fun h => h.resolve_right fun h => hne h.1⟩
  · rename_i heq
    push Not at heq
    simp only [decide_eq_true_eq, heq, lt_irrefl, true_and, false_or, UInt32.lt_iff_toNat_lt]

theorem not_scoredResultLt_iff (a b : ScoredResult) :
    (!scoredResultLt a b) = true ↔
      a.score ≤ b.score ∧ (a.score = b.score → b.obsId.toNat ≤ a.obsId.toNat) := by
  rw [Bool.not_eq_true', Bool.eq_false_iff, ne_eq, scoredResultLt_iff]
  push Not
  exact Iff.rfl

/-- **Sorting** results of different documents. -/
theorem sortResults_spec {rs : List ScoredResult} (h : (rs.map (·.obsId)).Nodup) :
    (sortResults rs).Pairwise (fun a b => scoredResultLt a b = true) ∧
      ∀ x, x ∈ sortResults rs ↔ x ∈ rs := by
  refine ⟨?_, fun x => List.mem_mergeSort⟩
  have hle : (sortResults rs).Pairwise fun a b => (!scoredResultLt b a) = true := by
    refine List.pairwise_mergeSort (fun a b c hab hbc => ?_) (fun a b => ?_) rs
    · rw [not_scoredResultLt_iff] at hab hbc ⊢
      omega
    · rw [Bool.or_eq_true, not_scoredResultLt_iff, not_scoredResultLt_iff]
      omega
  have hnodup : ((sortResults rs).map (·.obsId)).Nodup :=
    (((List.mergeSort_perm rs _).map _).nodup_iff).mpr h
  refine (hle.and (List.pairwise_map.mp hnodup)).imp fun {a b} hab => ?_
  obtain ⟨hle, hne⟩ := hab
  rw [not_scoredResultLt_iff] at hle
  rw [scoredResultLt_iff]
  have hid : a.obsId.toNat ≠ b.obsId.toNat := fun h => hne (UInt32.toNat_inj.mp h)
  omega

/-! ## Packed keys -/

theorem toNat_pack (obs : Val) {rank : ℕ} (h : rank < 2 ^ 32) :
    (pack obs rank).toNat = obs.toNat * 2 ^ 32 + rank := by
  have hobs := obs.toNat_lt
  have hrank : (UInt32.ofNat rank).toNat = rank := UInt32.toNat_ofNat_of_lt' h
  have hshift : (obs.toUInt64 <<< 32).toNat = obs.toNat * 2 ^ 32 := by
    rw [UInt64.toNat_shiftLeft, UInt32.toNat_toUInt64, Nat.shiftLeft_eq]
    refine Nat.mod_eq_of_lt ?_
    change obs.toNat * 2 ^ 32 < 2 ^ 64
    omega
  rw [pack, UInt64.toNat_or, hshift, UInt32.toNat_toUInt64, hrank, mul_comm,
    ← Nat.two_pow_add_eq_or_of_lt h]

theorem toNat_unpackObs (k : UInt64) : (unpackObs k).toNat = k.toNat / 2 ^ 32 := by
  have hk := k.toNat_lt
  rw [unpackObs, UInt64.toNat_toUInt32, UInt64.toNat_shiftRight, Nat.shiftRight_eq_div_pow]
  refine Nat.mod_eq_of_lt ?_
  change k.toNat / 2 ^ 32 < 2 ^ 32
  omega

theorem toNat_unpackRank (k : UInt64) : (unpackRank k).toNat = k.toNat % 2 ^ 32 := by
  rw [unpackRank, UInt64.toNat_and]
  exact Nat.and_two_pow_sub_one_eq_mod k.toNat 32

theorem unpackObs_pack (obs : Val) {rank : ℕ} (h : rank < 2 ^ 32) :
    unpackObs (pack obs rank) = obs := by
  refine UInt32.toNat_inj.mp ?_
  rw [toNat_unpackObs, toNat_pack obs h]
  omega

theorem unpackRank_pack (obs : Val) {rank : ℕ} (h : rank < 2 ^ 32) :
    (unpackRank (pack obs rank)).toNat = rank := by
  rw [toNat_unpackRank, toNat_pack obs h]
  omega

/-! ## Counting -/

/-- The ranks of a document among some keys. -/
def ranksIn (ks : List UInt64) (obs : Val) : Finset UInt64 :=
  ((ks.filter fun k => unpackObs k = obs).map unpackRank).toFinset

theorem mem_ranksIn {ks : List UInt64} {obs : Val} {r : UInt64} :
    r ∈ ranksIn ks obs ↔ ∃ k ∈ ks, unpackObs k = obs ∧ unpackRank k = r := by
  simp [ranksIn, and_assoc]

theorem ranksIn_cons_self (k : UInt64) (ks : List UInt64) :
    ranksIn (k :: ks) (unpackObs k) = insert (unpackRank k) (ranksIn ks (unpackObs k)) := by
  ext r
  simp only [mem_ranksIn, Finset.mem_insert, List.mem_cons]
  constructor
  · rintro ⟨k', rfl | hk', hobs, hr⟩
    · exact .inl hr.symm
    · exact .inr ⟨k', hk', hobs, hr⟩
  · rintro (rfl | ⟨k', hk', hobs, hr⟩)
    · exact ⟨k, .inl rfl, rfl, rfl⟩
    · exact ⟨k', .inr hk', hobs, hr⟩

/-- Sorted keys. -/
abbrev KeysSorted (ks : List UInt64) : Prop := ks.Pairwise fun a b => a.toNat ≤ b.toNat

/-- **The inner loop** counts the ranks of a document other than the one before, and
stops at the first key of another. -/
theorem countRanks_spec {obs : Val} {ks : List UInt64} (hs : KeysSorted ks)
    (hlow : ∀ k ∈ ks, obs.toNat ≤ (unpackObs k).toNat) {prev : UInt64}
    (hprev : prev ∉ ranksIn ks obs ∨ ∀ r ∈ ranksIn ks obs, prev.toNat ≤ r.toNat) (matched : ℕ) :
    (countRanks obs matched prev ks).1 = matched + ((ranksIn ks obs).erase prev).card ∧
      (countRanks obs matched prev ks).2 = ks.filter fun k => unpackObs k ≠ obs := by
  induction ks generalizing matched prev with
  | nil => simp [countRanks, ranksIn]
  | cons k ks ih =>
    obtain ⟨hk, hs'⟩ := List.pairwise_cons.mp hs
    have hlow' : ∀ k' ∈ ks, obs.toNat ≤ (unpackObs k').toNat := fun k' hk' =>
      hlow k' (List.mem_cons_of_mem k hk')
    unfold countRanks
    by_cases hobs : unpackObs k = obs
    · subst hobs
      rw [if_pos rfl]
      -- the ranks of the keys after `k` are not below its own
      have hmin : ∀ r ∈ ranksIn ks (unpackObs k), (unpackRank k).toNat ≤ r.toNat := by
        intro r hr
        obtain ⟨k', hk', hobs', rfl⟩ := mem_ranksIn.mp hr
        have hle := hk k' hk'
        have heq := congrArg UInt32.toNat hobs'
        rw [toNat_unpackObs, toNat_unpackObs] at heq
        rw [toNat_unpackRank, toNat_unpackRank]
        omega
      have hfilter : (k :: ks).filter (fun k' => unpackObs k' ≠ unpackObs k) =
          ks.filter fun k' => unpackObs k' ≠ unpackObs k := by
        rw [List.filter_cons_of_neg (by simp)]
      rw [hfilter]
      by_cases hr : unpackRank k = prev
      · rw [if_neg (not_not.mpr hr)]
        obtain ⟨hc, ht⟩ := ih hs' hlow' (.inr (hr ▸ hmin)) matched
        refine ⟨?_, ht⟩
        rw [hc, ranksIn_cons_self, hr, Finset.erase_insert_eq_erase]
      · rw [if_pos hr]
        obtain ⟨hc, ht⟩ := ih hs' hlow' (.inr hmin) (matched + 1)
        refine ⟨?_, ht⟩
        have hnot : prev ∉ ranksIn (k :: ks) (unpackObs k) := by
          rcases hprev with hprev | hprev
          · exact hprev
          · intro hin
            have hkin : unpackRank k ∈ ranksIn (k :: ks) (unpackObs k) :=
              mem_ranksIn.mpr ⟨k, List.mem_cons_self, rfl, rfl⟩
            have hle := hprev _ hkin
            rw [ranksIn_cons_self] at hin
            rcases Finset.mem_insert.mp hin with heq | hin
            · exact hr heq.symm
            · exact hr (UInt64.toNat_inj.mp (le_antisymm (hmin _ hin) hle))
        have hcard := Finset.card_erase_add_one
          (Finset.mem_insert_self (unpackRank k) (ranksIn ks (unpackObs k)))
        rw [Finset.erase_insert_eq_erase] at hcard
        rw [hc, Finset.erase_eq_of_notMem hnot, ranksIn_cons_self]
        omega
    · rw [if_neg hobs]
      -- from here on all keys are those of later documents
      have hlt : obs.toNat < (unpackObs k).toNat :=
        lt_of_le_of_ne (hlow k List.mem_cons_self) fun h => hobs (UInt32.toNat_inj.mp h).symm
      have hall : ∀ k' ∈ k :: ks, unpackObs k' ≠ obs := by
        intro k' hk' heq
        have hle : k.toNat ≤ k'.toNat := by
          rcases List.mem_cons.mp hk' with rfl | hk'
          · exact le_rfl
          · exact hk k' hk'
        have hobs' := congrArg UInt32.toNat heq
        rw [toNat_unpackObs] at hobs' hlt
        omega
      have hnone : ranksIn (k :: ks) obs = ∅ := by
        refine Finset.eq_empty_of_forall_notMem fun r hr => ?_
        obtain ⟨k', hk', heq, -⟩ := mem_ranksIn.mp hr
        exact hall k' hk' heq
      refine ⟨by simp [hnone], ?_⟩
      symm
      exact List.filter_eq_self.mpr fun k' hk' => decide_eq_true (hall k' hk')

/-- The keys of the first document. -/
theorem countRanks_first {k : UInt64} {ks : List UInt64} (hs : KeysSorted (k :: ks)) :
    (countRanks (unpackObs k) 0 (~~~0) (k :: ks)).1 = (ranksIn (k :: ks) (unpackObs k)).card ∧
      (countRanks (unpackObs k) 0 (~~~0) (k :: ks)).2 =
        (k :: ks).filter fun k' => unpackObs k' ≠ unpackObs k := by
  have hlow : ∀ k' ∈ k :: ks, (unpackObs k).toNat ≤ (unpackObs k').toNat := by
    intro k' hk'
    rw [toNat_unpackObs, toNat_unpackObs]
    refine Nat.div_le_div_right ?_
    rcases List.mem_cons.mp hk' with rfl | hk'
    · exact le_rfl
    · exact (List.pairwise_cons.mp hs).1 k' hk'
  have hnot : ~~~0 ∉ ranksIn (k :: ks) (unpackObs k) := by
    intro hin
    obtain ⟨k', -, -, hr⟩ := mem_ranksIn.mp hin
    have hn := congrArg UInt64.toNat hr
    rw [toNat_unpackRank] at hn
    have hlt : k'.toNat % 2 ^ 32 < 2 ^ 32 := Nat.mod_lt _ (by norm_num)
    rw [hn] at hlt
    exact absurd hlt (by decide)
  obtain ⟨hc, ht⟩ := countRanks_spec hs hlow (.inl hnot) 0
  rw [Finset.erase_eq_of_notMem hnot, Nat.zero_add] at hc
  exact ⟨hc, ht⟩

theorem ranksIn_filter_ne {ks : List UInt64} {obs obs' : Val} (h : obs ≠ obs') :
    ranksIn (ks.filter fun k => unpackObs k ≠ obs') obs = ranksIn ks obs := by
  ext r
  simp only [mem_ranksIn, List.mem_filter, decide_eq_true_eq]
  constructor
  · rintro ⟨k, ⟨hk, -⟩, hobs, hr⟩
    exact ⟨k, hk, hobs, hr⟩
  · rintro ⟨k, hk, hobs, hr⟩
    exact ⟨k, ⟨hk, fun heq => h (hobs.symm.trans heq)⟩, hobs, hr⟩

theorem ranksIn_filter_self (ks : List UInt64) (obs : Val) :
    ranksIn (ks.filter fun k => unpackObs k ≠ obs) obs = ∅ := by
  refine Finset.eq_empty_of_forall_notMem fun r hr => ?_
  obtain ⟨k, hk, hobs, -⟩ := mem_ranksIn.mp hr
  exact of_decide_eq_true (List.mem_filter.mp hk).2 hobs

/-- What the pass gives for some keys. -/
def Grouped (min : ℕ) (ks : List UInt64) (x : ScoredResult) : Prop :=
  0 < x.score ∧ min ≤ x.score ∧ x.score = (ranksIn ks x.obsId).card

theorem grouped_filter_ne {min : ℕ} {ks : List UInt64} {obs : Val} {x : ScoredResult} :
    Grouped min (ks.filter fun k => unpackObs k ≠ obs) x ↔ x.obsId ≠ obs ∧ Grouped min ks x := by
  unfold Grouped
  by_cases hx : x.obsId = obs
  · rw [hx, ranksIn_filter_self, Finset.card_empty]
    exact ⟨fun h => absurd h.2.2 h.1.ne', fun h => absurd rfl h.1⟩
  · rw [ranksIn_filter_ne hx]
    exact ⟨fun h => ⟨hx, h⟩, fun h => h.2⟩

theorem Grouped.exists_key {min : ℕ} {ks : List UInt64} {x : ScoredResult}
    (h : Grouped min ks x) : ∃ k ∈ ks, unpackObs k = x.obsId := by
  obtain ⟨hpos, -, hx⟩ := h
  obtain ⟨r, hr⟩ := Finset.card_pos.mp (hx ▸ hpos)
  obtain ⟨k, hk, hobs, -⟩ := mem_ranksIn.mp hr
  exact ⟨k, hk, hobs⟩

/-- The result for the document of the first key, if it has enough ranks. -/
def headResult (min : ℕ) (k : UInt64) (ks : List UInt64) : List ScoredResult :=
  if min ≤ (ranksIn (k :: ks) (unpackObs k)).card then
    [⟨unpackObs k, (ranksIn (k :: ks) (unpackObs k)).card⟩]
  else []

theorem groupDocs_cons (min : ℕ) {k : UInt64} {ks : List UInt64} (hs : KeysSorted (k :: ks)) :
    groupDocs min (k :: ks) = headResult min k ks ++
      groupDocs min ((k :: ks).filter fun k' => unpackObs k' ≠ unpackObs k) := by
  obtain ⟨hc, ht⟩ := countRanks_first hs
  rw [groupDocs, hc, ht, headResult]
  split
  · rfl
  · rfl

theorem mem_headResult {min : ℕ} {k : UInt64} {ks : List UInt64} {x : ScoredResult} :
    x ∈ headResult min k ks ↔ x.obsId = unpackObs k ∧ Grouped min (k :: ks) x := by
  have hpos : 0 < (ranksIn (k :: ks) (unpackObs k)).card :=
    Finset.card_pos.mpr ⟨_, mem_ranksIn.mpr ⟨k, List.mem_cons_self, rfl, rfl⟩⟩
  obtain ⟨obs, score⟩ := x
  unfold headResult Grouped
  dsimp only
  split
  · rename_i hmin
    rw [List.mem_singleton, ScoredResult.mk.injEq]
    constructor
    · rintro ⟨rfl, rfl⟩
      exact ⟨rfl, hpos, hmin, rfl⟩
    · rintro ⟨rfl, -, -, rfl⟩
      exact ⟨rfl, rfl⟩
  · rename_i hmin
    refine ⟨fun h => absurd h List.not_mem_nil, ?_⟩
    rintro ⟨rfl, -, hle, rfl⟩
    exact absurd hle hmin

/-- **The pass over the sorted keys** gives the documents with enough ranks, in
ascending order. -/
theorem groupDocs_spec (min : ℕ) {ks : List UInt64} (hs : KeysSorted ks) :
    (groupDocs min ks).Pairwise (fun a b => a.obsId.toNat < b.obsId.toNat) ∧
      ∀ x, x ∈ groupDocs min ks ↔ Grouped min ks x := by
  induction hn : ks.length using Nat.strong_induction_on generalizing ks with
  | _ n ih =>
    cases ks with
    | nil =>
      rw [groupDocs]
      refine ⟨.nil, fun x => ⟨fun h => absurd h List.not_mem_nil, fun h => ?_⟩⟩
      obtain ⟨k, hk, -⟩ := h.exists_key
      exact absurd hk List.not_mem_nil
    | cons k ks =>
      have hlt : ((k :: ks).filter fun k' => unpackObs k' ≠ unpackObs k).length < n := by
        rw [← hn, List.filter_cons_of_neg (by simp)]
        exact Nat.lt_succ_of_le (List.length_filter_le _ _)
      obtain ⟨hsorted, hmem⟩ := ih _ hlt (hs.filter _) rfl
      rw [groupDocs_cons min hs]
      refine ⟨List.pairwise_append.mpr ⟨?_, hsorted, fun a ha b hb => ?_⟩, fun x => ?_⟩
      · unfold headResult
        split
        · exact List.pairwise_singleton _ _
        · exact .nil
      · -- the later documents are those of later keys
        obtain ⟨ha, -⟩ := mem_headResult.mp ha
        obtain ⟨hne, hb⟩ := grouped_filter_ne.mp ((hmem b).mp hb)
        obtain ⟨k', hk', hobs⟩ := hb.exists_key
        have hle : k.toNat ≤ k'.toNat := by
          rcases List.mem_cons.mp hk' with rfl | hk'
          · exact le_rfl
          · exact (List.pairwise_cons.mp hs).1 k' hk'
        have hne' : (unpackObs k).toNat ≠ (unpackObs k').toNat := fun h =>
          hne (hobs.symm.trans (UInt32.toNat_inj.mp h).symm)
        rw [ha, ← hobs]
        rw [toNat_unpackObs, toNat_unpackObs] at hne' ⊢
        omega
      · rw [List.mem_append, mem_headResult, hmem, grouped_filter_ne]
        tauto

/-! ## Ranks -/

/-- Distinct terms are ranked in order. -/
theorem ranksOf_eq {terms : List Val} (h : terms.Nodup) :
    ranksOf terms = List.range terms.length := by
  have key : ∀ n ≤ terms.length,
      (List.range n).foldl (rankStep terms) ([], 0) = (List.range n, n) := by
    intro n
    induction n with
    | zero => exact fun _ => rfl
    | succ n ih =>
      intro hn
      have hnone : ((List.range n).find? fun j => terms[j]? = terms[n]?) = none := by
        rw [List.find?_eq_none]
        intro j hj heq
        have hjn : j < n := List.mem_range.mp hj
        rw [decide_eq_true_eq, List.getElem?_eq_getElem (by omega),
          List.getElem?_eq_getElem (by omega), Option.some.injEq] at heq
        exact absurd ((h.getElem_inj_iff).mp heq) (by omega)
      rw [List.range_succ, List.foldl_append, ih (by omega), List.foldl_cons, List.foldl_nil,
        rankStep, hnone]
  rw [ranksOf, key _ le_rfl]

/-- The ranks of a document are the positions of its terms. -/
theorem mem_ranksIn_packedKeys {S : Set Row} {terms : List Val} {sets : List IntSet}
    (hshort : terms.length < 2 ^ 31) (h : List.Forall₂ (Collected S) terms sets) {o : Val}
    {r : UInt64} :
    r ∈ ranksIn (packedKeys sets (List.range terms.length)) o ↔
      ∃ t, terms[r.toNat]? = some t ∧ o ∈ docs S t := by
  obtain ⟨hlen, hget⟩ := List.forall₂_iff_get.mp h
  have hrank : ∀ i < terms.length, i < 2 ^ 32 := fun i hi => by omega
  rw [mem_ranksIn]
  constructor
  · rintro ⟨k, hk, hobs, hr⟩
    obtain ⟨⟨s, i⟩, hzip, hin⟩ := List.mem_flatMap.mp hk
    obtain ⟨obs, hdata, rfl⟩ := List.mem_map.mp hin
    obtain ⟨j, hj, hpair⟩ := List.mem_iff_getElem.mp hzip
    rw [List.getElem_zip, List.getElem_range, Prod.mk.injEq] at hpair
    obtain ⟨hs, rfl⟩ := hpair
    have hjs : j < sets.length := by
      rw [List.length_zip, List.length_range] at hj
      omega
    have hjt : j < terms.length := by omega
    rw [unpackObs_pack obs (hrank j hjt)] at hobs
    have hrj : r.toNat = j := by rw [← hr, unpackRank_pack obs (hrank j hjt)]
    subst hobs hs
    refine ⟨terms[j], ?_, ((hget j hjt hjs).2 obs).mp hdata⟩
    rw [hrj, List.getElem?_eq_getElem hjt]
  · rintro ⟨t, ht, ho⟩
    obtain ⟨hrt, rfl⟩ := List.getElem?_eq_some_iff.mp ht
    have hrs : r.toNat < sets.length := by omega
    have hdata : o ∈ (sets[r.toNat]).data := ((hget r.toNat hrt hrs).2 o).mpr ho
    refine ⟨pack o r.toNat, ?_, unpackObs_pack o (hrank _ hrt), ?_⟩
    · refine List.mem_flatMap.mpr ⟨(sets[r.toNat], r.toNat), ?_, List.mem_map.mpr ⟨o, hdata, rfl⟩⟩
      refine List.mem_iff_getElem.mpr ⟨r.toNat, ?_, ?_⟩
      · rw [List.length_zip, List.length_range]
        omega
      · rw [List.getElem_zip, List.getElem_range]
    · exact UInt64.toNat_inj.mp (unpackRank_pack o (hrank _ hrt))

/-- **The number of ranks of a document** is the number of terms it matches. -/
theorem card_ranksIn {S : Set Row} {terms : List Val} {sets : List IntSet} (hnodup : terms.Nodup)
    (hshort : terms.length < 2 ^ 31) (h : List.Forall₂ (Collected S) terms sets) (o : Val) :
    (ranksIn (packedKeys sets (List.range terms.length)) o).card =
      {t | t ∈ terms ∧ o ∈ docs S t}.ncard := by
  have hset : {t | t ∈ terms ∧ o ∈ docs S t} =
      ((ranksIn (packedKeys sets (List.range terms.length)) o).image
        fun r => terms.getD r.toNat 0 : Finset Val) := by
    ext t
    simp only [Set.mem_ofPred_eq, Finset.coe_image, Set.mem_image, Finset.mem_coe,
      mem_ranksIn_packedKeys hshort h]
    constructor
    · rintro ⟨ht, ho⟩
      obtain ⟨i, hi, rfl⟩ := List.mem_iff_getElem.mp ht
      have hr : (UInt64.ofNat i).toNat = i := UInt64.toNat_ofNat_of_lt' (by
        change i < 2 ^ 64
        omega)
      refine ⟨UInt64.ofNat i, ⟨terms[i], ?_, ho⟩, ?_⟩
      · rw [hr, List.getElem?_eq_getElem hi]
      · rw [hr, List.getD_eq_getElem terms _ hi]
    · rintro ⟨r, ⟨t', ht', ho⟩, rfl⟩
      have hget : terms.getD r.toNat 0 = t' := by rw [List.getD_eq_getElem?_getD, ht']; rfl
      rw [hget]
      exact ⟨List.mem_of_getElem? ht', ho⟩
  rw [hset, Set.ncard_coe_finset, Finset.card_image_of_injOn]
  intro r hr r' hr' heq
  obtain ⟨t, ht, -⟩ := (mem_ranksIn_packedKeys hshort h).mp hr
  obtain ⟨t', ht', -⟩ := (mem_ranksIn_packedKeys hshort h).mp hr'
  dsimp only at heq
  rw [List.getD_eq_getElem?_getD, List.getD_eq_getElem?_getD, ht, ht', Option.getD_some,
    Option.getD_some] at heq
  obtain ⟨hlt, hr⟩ := List.getElem?_eq_some_iff.mp ht
  obtain ⟨hlt', hr'⟩ := List.getElem?_eq_some_iff.mp ht'
  exact UInt64.toNat_inj.mp ((hnodup.getElem_inj_iff).mp (hr.trans (heq.trans hr'.symm)))

/-! ## The searches -/

/-- **The conjunctive search** gives the documents of all terms. -/
theorem searchImpl_spec {r : LazyRelation} (harity : r.arity = 2) {terms : List Val}
    (hne : terms ≠ []) :
    ∃ rs, (searchImpl r terms).1 = some rs ∧
      rs.Pairwise (fun a b => scoredResultLt a b = true) ∧
      ∀ x, x ∈ rs ↔ x.score = terms.length ∧ ∀ t ∈ terms, x.obsId ∈ docs r.sets.view t := by
  obtain ⟨sets, hsets, hall⟩ := collectTermSets_spec harity terms
  obtain ⟨hlen, hget⟩ := List.forall₂_iff_get.mp hall
  have hsne : sets ≠ [] := fun h => hne (List.length_eq_zero_iff.mp (by rw [hlen, h]; rfl))
  have hok : ∀ s ∈ sets, s.Ok := by
    intro s hs
    obtain ⟨i, hi, rfl⟩ := List.mem_iff_getElem.mp hs
    exact (hget i (by omega) hi).1
  have hdocs : ∀ o, (∀ s ∈ sets, o ∈ s.data) ↔ ∀ t ∈ terms, o ∈ docs r.sets.view t := by
    intro o
    constructor
    · intro h t ht
      obtain ⟨i, hi, rfl⟩ := List.mem_iff_getElem.mp ht
      exact ((hget i hi (by omega)).2 o).mp (h _ (List.getElem_mem _))
    · intro h s hs
      obtain ⟨i, hi, rfl⟩ := List.mem_iff_getElem.mp hs
      exact ((hget i (by omega) hi).2 o).mpr (h _ (List.getElem_mem _))
  obtain ⟨hnodup, hmem⟩ := intSetIntersect_spec hsne hok
  have hids : ((intSetIntersect sets).data.map fun o => (⟨o, terms.length⟩ : ScoredResult)).map
      (·.obsId) = (intSetIntersect sets).data := by
    rw [List.map_map]
    exact List.map_id _
  obtain ⟨hsorted, hres⟩ := sortResults_spec (by rw [hids]; exact hnodup)
  have hx : ∀ x, x ∈ sortResults ((intSetIntersect sets).data.map (⟨·, terms.length⟩)) ↔
      x.score = terms.length ∧ ∀ t ∈ terms, x.obsId ∈ docs r.sets.view t := by
    rintro ⟨o, score⟩
    rw [hres, List.mem_map, ← hdocs]
    constructor
    · rintro ⟨o', ho', heq⟩
      cases heq
      exact ⟨rfl, (hmem o).mp ho'⟩
    · rintro ⟨rfl, ho⟩
      exact ⟨o, (hmem o).mpr ho, rfl⟩
  unfold searchImpl
  dsimp only
  rw [hsets, Option.map_some]
  split
  · rename_i hempty
    refine ⟨[], rfl, .nil, fun x => ⟨fun h => absurd h List.not_mem_nil, fun h => ?_⟩⟩
    obtain ⟨s, hs⟩ := List.exists_mem_of_ne_nil sets hsne
    have hin := (hdocs x.obsId).mpr h.2 s hs
    rw [List.isEmpty_iff.mp (List.all_eq_true.mp hempty s hs)] at hin
    exact absurd hin List.not_mem_nil
  · exact ⟨_, rfl, hsorted, hx⟩

/-- **The counting search** gives the documents of enough terms. -/
theorem searchRankedImpl_spec {r : LazyRelation} (harity : r.arity = 2) {terms : List Val}
    (hnodup : terms.Nodup) (hshort : terms.length < 2 ^ 31) {min : ℕ} (hmin : 1 ≤ min) :
    ∃ rs, (searchRankedImpl r terms min).1 = some rs ∧
      rs.Pairwise (fun a b => scoredResultLt a b = true) ∧
      ∀ x, x ∈ rs ↔ min ≤ x.score ∧
        x.score = {t | t ∈ terms ∧ x.obsId ∈ docs r.sets.view t}.ncard := by
  obtain ⟨sets, hsets, hall⟩ := collectTermSets_spec harity terms
  set pk := packedKeys sets (List.range terms.length) with hpk
  have hperm := List.mergeSort_perm pk fun a b => decide (a ≤ b)
  have hsorted : KeysSorted (pk.mergeSort fun a b => decide (a ≤ b)) := by
    refine (List.pairwise_mergeSort (fun a b c hab hbc => ?_) (fun a b => ?_) pk).imp
      fun {a b} h => UInt64.le_iff_toNat_le.mp (of_decide_eq_true h)
    · rw [decide_eq_true_eq, UInt64.le_iff_toNat_le] at hab hbc ⊢
      omega
    · rw [Bool.or_eq_true, decide_eq_true_eq, decide_eq_true_eq, UInt64.le_iff_toNat_le,
        UInt64.le_iff_toNat_le]
      omega
  have hranks : ∀ o, ranksIn (pk.mergeSort fun a b => decide (a ≤ b)) o = ranksIn pk o := by
    intro o
    ext k
    simp only [mem_ranksIn, hperm.mem_iff]
  obtain ⟨hasc, hmem⟩ := groupDocs_spec min hsorted
  have hids : ((groupDocs min (pk.mergeSort fun a b => decide (a ≤ b))).map (·.obsId)).Nodup :=
    List.pairwise_map.mpr (hasc.imp fun {a b} h heq => absurd h (by rw [heq]; exact lt_irrefl _))
  obtain ⟨hout, hres⟩ := sortResults_spec hids
  refine ⟨_, ?_, hout, fun x => ?_⟩
  · unfold searchRankedImpl
    dsimp only
    rw [hsets, ranksOf_eq hnodup]
    rfl
  · rw [hres, hmem, Grouped, hranks, card_ranksIn hnodup hshort hall]
    constructor
    · exact fun h => h.2
    · exact fun h => ⟨by omega, h⟩

/-! ## The query -/

/-- Each term of a query is kept once. -/
theorem uniqTerms_spec (terms : List Val) :
    (uniqTerms terms).Nodup ∧ ∀ t, t ∈ uniqTerms terms ↔ t ∈ terms := by
  have key : ∀ l uniq : List Val, uniq.Nodup →
      (l.foldl (fun uniq t => if t ∈ uniq then uniq else uniq ++ [t]) uniq).Nodup ∧
        ∀ t, t ∈ l.foldl (fun uniq t => if t ∈ uniq then uniq else uniq ++ [t]) uniq ↔
          t ∈ uniq ∨ t ∈ l := by
    intro l
    induction l with
    | nil => exact fun uniq h => ⟨h, fun t => by simp⟩
    | cons a l ih =>
      intro uniq h
      rw [List.foldl_cons]
      by_cases ha : a ∈ uniq
      · rw [if_pos ha]
        obtain ⟨hnodup, hmem⟩ := ih uniq h
        refine ⟨hnodup, fun t => ?_⟩
        rw [hmem, List.mem_cons]
        constructor
        · rintro (ht | ht)
          · exact .inl ht
          · exact .inr (.inr ht)
        · rintro (ht | rfl | ht)
          · exact .inl ht
          · exact .inl ha
          · exact .inr ht
      · rw [if_neg ha]
        have hnew : (uniq ++ [a]).Nodup := List.nodup_append.mpr ⟨h, List.nodup_singleton a, by
          rintro x hx y hy rfl
          exact ha (List.mem_singleton.mp hy ▸ hx)⟩
        obtain ⟨hnodup, hmem⟩ := ih _ hnew
        refine ⟨hnodup, fun t => ?_⟩
        rw [hmem, List.mem_append, List.mem_singleton, List.mem_cons, or_assoc]
  obtain ⟨hnodup, hmem⟩ := key terms [] List.nodup_nil
  exact ⟨hnodup, fun t => by rw [uniqTerms, hmem]; simp⟩

theorem length_uniqTerms (terms : List Val) :
    (uniqTerms terms).length = terms.toFinset.card := by
  obtain ⟨hnodup, hmem⟩ := uniqTerms_spec terms
  rw [← List.toFinset_card_of_nodup hnodup]
  congr 1
  ext t
  simp [hmem]

theorem uniqTerms_of_nodup {terms : List Val} (h : terms.Nodup) : uniqTerms terms = terms := by
  have key : ∀ l uniq : List Val, (uniq ++ l).Nodup →
      l.foldl (fun uniq t => if t ∈ uniq then uniq else uniq ++ [t]) uniq = uniq ++ l := by
    intro l
    induction l with
    | nil => exact fun uniq _ => (List.append_nil uniq).symm
    | cons a l ih =>
      intro uniq hn
      have ha : a ∉ uniq := fun ha =>
        (List.nodup_append.mp hn).2.2 a ha a List.mem_cons_self rfl
      rw [List.foldl_cons, if_neg ha, ih _ (by simpa using hn), List.append_assoc]
      rfl
  exact key terms [] h

/-- The terms of a query that a document matches. -/
def Postings.matched (p : Postings) (q : Query) (o : Val) : Set Val :=
  {t | t ∈ q.terms ∧ [t, o] ∈ p.rel.sets.view}

/-- A list has the documents that match at least `min` terms, each once and with
their number of matches, by descending number and ascending document. -/
structure Ranks (p : Postings) (q : Query) (min : ℕ) (rs : List ScoredResult) : Prop where
  /-- The documents and their scores. -/
  mem : ∀ x, x ∈ rs ↔ min ≤ x.score ∧ x.score = (p.matched q x.obsId).ncard
  /-- The order, which is strict. -/
  ordered : rs.Pairwise fun a b => b.score < a.score ∨ a.score = b.score ∧ a.obsId < b.obsId

theorem mem_docs (p : Postings) (t o : Val) :
    o ∈ docs p.rel.sets.view t ↔ [t, o] ∈ p.rel.sets.view := by
  constructor
  · rintro ⟨cols, hcols, hpre, rfl⟩
    obtain ⟨a, b, rfl⟩ := List.length_eq_two.mp (p.wide cols hcols)
    obtain ⟨rfl, -⟩ := List.cons_prefix_cons.mp hpre
    exact hcols
  · exact fun h => ⟨[t, o], h, by simp, rfl⟩

/-- The terms a document matches, among those of a query without repetitions. -/
theorem matched_eq (p : Postings) (q : Query) (o : Val) :
    {t | t ∈ uniqTerms q.terms ∧ o ∈ docs p.rel.sets.view t} = p.matched q o := by
  ext t
  rw [Postings.matched, Set.mem_ofPred_eq, Set.mem_ofPred_eq, (uniqTerms_spec q.terms).2, mem_docs]

theorem ncard_matched_le (p : Postings) (q : Query) (o : Val) :
    (p.matched q o).ncard ≤ q.terms.toFinset.card := by
  rw [← Set.ncard_coe_finset]
  refine Set.ncard_le_ncard (fun t ht => ?_) (Finset.finite_toSet _)
  simpa using ht.1

/-- A document that matches as many terms as there are matches all of them. -/
theorem ncard_matched_eq_iff (p : Postings) (q : Query) (o : Val) :
    (p.matched q o).ncard = q.terms.toFinset.card ↔
      ∀ t ∈ q.terms, [t, o] ∈ p.rel.sets.view := by
  have hsub : p.matched q o ⊆ (q.terms.toFinset : Set Val) := fun t ht => by simpa using ht.1
  constructor
  · intro h t ht
    have heq := Set.eq_of_subset_of_ncard_le hsub
      (by rw [Set.ncard_coe_finset, h]) (Finset.finite_toSet _)
    have hin : t ∈ p.matched q o := heq ▸ (by simpa using ht)
    exact hin.2
  · intro h
    rw [← Set.ncard_coe_finset]
    congr 1
    exact Set.Subset.antisymm hsub fun t ht => ⟨by simpa using ht, h t (by simpa using ht)⟩

/-- A list in the order of the results. -/
theorem ordered_of_sorted {rs : List ScoredResult}
    (h : rs.Pairwise fun a b => scoredResultLt a b = true) :
    rs.Pairwise fun a b => b.score < a.score ∨ a.score = b.score ∧ a.obsId < b.obsId :=
  h.imp fun {a b} hab => by
    rw [scoredResultLt_iff] at hab
    rwa [UInt32.lt_iff_toNat_lt]

/-- **Ranked search is exact**, for every threshold from one up to the number of
distinct terms; with as many terms as there are, it is the conjunctive search. -/
theorem dlSearchRanked_exact (p : Postings) (q : Query) (hne : q.terms ≠ []) :
    (∀ min : ℕ, 1 ≤ min → min ≤ q.terms.toFinset.card →
      ∃ rs, dlSearchRanked p q min = some rs ∧ Ranks p q min rs) ∧
    (q.terms.Nodup → dlSearch p q = dlSearchRanked p q q.terms.length) := by
  obtain ⟨hnodup, hmem⟩ := uniqTerms_spec q.terms
  have hlen := length_uniqTerms q.terms
  have hune : uniqTerms q.terms ≠ [] := fun h => by
    obtain ⟨t, ht⟩ := List.exists_mem_of_ne_nil _ hne
    rw [← hmem, h] at ht
    exact List.not_mem_nil ht
  have hle : q.terms.toFinset.card ≤ q.terms.length := List.toFinset_card_le _
  have hentry : ∀ min : ℕ, 1 ≤ min → min ≤ q.terms.toFinset.card → dlSearchRanked p q min =
      if min = (uniqTerms q.terms).length then (searchImpl p.rel (uniqTerms q.terms)).1
      else (searchRankedImpl p.rel (uniqTerms q.terms) min).1 := by
    intro min hpos hmin
    unfold dlSearchRanked
    rw [if_neg hne, if_neg (by omega)]
    dsimp only
    rw [Int.toNat_natCast, if_neg (by omega)]
  refine ⟨fun min hpos hmin => ?_, fun h => ?_⟩
  · rw [hentry min hpos hmin]
    split
    · rename_i heq
      obtain ⟨rs, hrs, hsorted, hx⟩ := searchImpl_spec p.arity hune
      refine ⟨rs, hrs, ⟨fun x => ?_, ordered_of_sorted hsorted⟩⟩
      have hall : (∀ t ∈ uniqTerms q.terms, x.obsId ∈ docs p.rel.sets.view t) ↔
          (p.matched q x.obsId).ncard = q.terms.toFinset.card := by
        simp only [ncard_matched_eq_iff, hmem, mem_docs]
      have hbound := ncard_matched_le p q x.obsId
      rw [hx, hall]
      omega
    · obtain ⟨rs, hrs, hsorted, hx⟩ :=
        searchRankedImpl_spec p.arity hnodup (by have := q.short; omega) hpos
      refine ⟨rs, hrs, ⟨fun x => ?_, ordered_of_sorted hsorted⟩⟩
      rw [hx, matched_eq]
  · have hpos : 1 ≤ q.terms.length := List.length_pos_iff.mpr hne
    have hcard : q.terms.toFinset.card = q.terms.length := List.toFinset_card_of_nodup h
    rw [hentry q.terms.length hpos hcard.ge, if_pos (by rw [hlen, hcard]), uniqTerms_of_nodup h]
    unfold dlSearch
    rw [if_neg hne]

/-- Term 1 in the documents 10 and 11, term 2 in 11. -/
def samplePostings : Postings where
  rel := ⟨2, .owned (.aliased (.ofRows [[1, 10], [1, 11], [2, 11]])), .init 2, false,
    Nat.two_pos, fun _ => rfl⟩
  arity := rfl
  wide := by
    rintro x (hx | hx)
    · have hrows : x ∈ [[1, 10], [1, 11], [2, 11]] := Dafsa.mem_ofRows.mp hx
      fin_cases hrows <;> rfl
    · exact absurd hx List.not_mem_nil

/-- Terms 1 and 2. -/
def sampleQuery : Query := ⟨[1, 2], by decide⟩

theorem dlSearchRanked_exact_sample :
    (∃ rs, dlSearchRanked samplePostings sampleQuery 1 = some rs ∧
      Ranks samplePostings sampleQuery 1 rs) ∧
      dlSearch samplePostings sampleQuery = dlSearchRanked samplePostings sampleQuery 2 :=
  have h := dlSearchRanked_exact samplePostings sampleQuery (by decide)
  ⟨h.1 1 le_rfl (by decide), h.2 (by decide)⟩

end DatalogDafsa.Search
