import DatalogDafsa.ViewAgree
import DatalogDafsa.Wfs.Complement

/-!
# The complements are exact

Between two rounds the relation of either parity shows the rows over the domain that the
assignment of its round does not have.  Writing the changes of two rounds to it, or
building it anew, makes that the last assignment, so every round sees the same rows as
one that builds all complements anew.

## Main definitions

* `Shows` — a relation is the complement of an assignment.
* `Right` — a maintenance step that makes it so.
* `complement_exact` — the complements of every round, and the end of the rounds.
-/

namespace DatalogDafsa.Wfs

instance : Std.Trichotomous RowBefore :=
  ⟨fun a b hab hba => by
    rcases rowLt_trichotomy a b with h | h | h
    · exact absurd h hab
    · exact h
    · exact absurd h hba⟩

/-! ## The domain product -/

theorem productTotal_eq {m arity total : ℕ} (h : productTotal m arity = some total) :
    total = m ^ arity := by
  induction arity generalizing total with
  | zero => exact (Option.some.inj h).symm
  | succ arity ih =>
    obtain ⟨t, ht, hstep⟩ := Option.bind_eq_some_iff.mp h
    split at hstep
    · cases hstep
    · rw [← Option.some.inj hstep, ih ht, pow_succ]

/-- The loop adds the rows of the lists of digits it passes. -/
theorem mem_productLoop {dom : List Val} {t : ℕ} {idx : List ℕ} {out : TupleSet} {x : Row} :
    x ∈ (productLoop dom t idx out).rows ↔ x ∈ out.rows ∨
      ∃ k < t, (Odometer.steps dom.length k idx).map (fun i => dom.getD i 0) = x := by
  induction t generalizing idx out with
  | zero => simp [productLoop]
  | succ t ih =>
    rw [productLoop, ih, TupleSet.mem_rows_add, or_assoc]
    refine or_congr_right ⟨?_, ?_⟩
    · rintro (rfl | ⟨k, hk, rfl⟩)
      · exact ⟨0, Nat.succ_pos t, rfl⟩
      · exact ⟨k + 1, Nat.succ_lt_succ hk, rfl⟩
    · rintro ⟨k, hk, rfl⟩
      cases k with
      | zero => exact .inl rfl
      | succ k => exact .inr ⟨k, Nat.lt_of_succ_lt_succ hk, rfl⟩

theorem arity_productLoop (dom : List Val) (t : ℕ) (idx : List ℕ) (out : TupleSet) :
    (productLoop dom t idx out).arity = out.arity := by
  induction t generalizing idx out with
  | zero => rfl
  | succ t ih => rw [productLoop, ih, TupleSet.arity_add]

/-- A row over a domain is that of a list of digits. -/
theorem exists_digits_iff {dom : List Val} {arity : ℕ} {x : Row} :
    (∃ ds, (ds.length = arity ∧ Odometer.Digits dom.length ds) ∧
      ds.map (fun i => dom.getD i 0) = x) ↔ x.length = arity ∧ ∀ v ∈ x, v ∈ dom := by
  constructor
  · rintro ⟨ds, ⟨rfl, hds⟩, rfl⟩
    refine ⟨List.length_map .., fun v hv => ?_⟩
    obtain ⟨i, hi, rfl⟩ := List.mem_map.mp hv
    rw [List.getD_eq_getElem _ _ (hds i hi)]
    exact List.getElem_mem _
  · rintro ⟨rfl, hx⟩
    refine ⟨x.map fun v => dom.idxOf v, ⟨List.length_map .., fun d hd => ?_⟩, ?_⟩
    · obtain ⟨v, hv, rfl⟩ := List.mem_map.mp hd
      exact List.idxOf_lt_length_of_mem (hx v hv)
    · rw [List.map_map]
      refine (List.map_congr_left fun v hv => ?_).trans (List.map_id x)
      have hlt := List.idxOf_lt_length_of_mem (hx v hv)
      change dom.getD (dom.idxOf v) 0 = v
      rw [List.getD_eq_getElem _ _ hlt, List.getElem_idxOf]

/-- **The domain product** has the rows over the domain. -/
theorem enumerateProduct_spec {dom : List Val} {arity : ℕ} {full : TupleSet} (hpos : 0 < arity)
    (h : enumerateProduct dom arity = some full) : full.arity = arity ∧ full.Sorted ∧
      ∀ x, x ∈ full.rows ↔ x.length = arity ∧ ∀ v ∈ x, v ∈ dom := by
  unfold enumerateProduct at h
  split at h
  · rename_i hempty
    obtain rfl := Option.some.inj h
    obtain rfl := List.length_eq_zero_iff.mp hempty
    refine ⟨rfl, TupleSet.sorted_init arity, fun x => ⟨fun hx => absurd hx List.not_mem_nil, ?_⟩⟩
    rintro ⟨rfl, hx⟩
    obtain ⟨v, hv⟩ := List.exists_mem_of_length_pos hpos
    exact absurd (hx v hv) List.not_mem_nil
  · rename_i hne
    obtain ⟨total, htotal, rfl⟩ := Option.map_eq_some_iff.mp h
    refine ⟨arity_productLoop .., TupleSet.sorted_sort _, fun x => ?_⟩
    rw [TupleSet.mem_rows_sort, mem_productLoop, productTotal_eq htotal, ← exists_digits_iff]
    constructor
    · rintro (hx | ⟨k, hk, rfl⟩)
      · cases hx
      · exact ⟨_, (Odometer.mem_turns_iff (by omega)).mp ⟨k, hk, rfl⟩, rfl⟩
    · rintro ⟨ds, hds, rfl⟩
      obtain ⟨k, hk, rfl⟩ := (Odometer.mem_turns_iff (by omega)).mpr hds
      exact .inr ⟨k, hk, rfl⟩

/-! ## One relation -/

/-- A relation in memory without unflushed facts. -/
structure Plain (arity : ℕ) (r : LazyRelation) : Prop where
  /-- The number of columns. -/
  arity : r.arity = arity
  /-- In memory. -/
  owned : ∃ s, r.state = .owned s
  /-- Nothing unflushed. -/
  flat : r.ov.rows = []

theorem Plain.own {arity : ℕ} {r : LazyRelation} (h : Plain arity r) (s : Store) :
    Plain arity (r.own s) :=
  ⟨h.arity, ⟨s, rfl⟩, h.flat⟩

/-- A scan shows the view. -/
theorem Plain.scan_eq {arity : ℕ} {r : LazyRelation} (h : Plain arity r) :
    scan r = r.store.view.keys := by
  obtain ⟨s, hs⟩ := h.owned
  have hready : r.ready = r := by
    have hread : r.relEnsureReadable = r := by
      unfold LazyRelation.relEnsureReadable
      split <;> simp_all
    rw [LazyRelation.ready, hread, hs]
    simp [ReadState.isView, LazyRelation.ovConsolidateForRead, h.flat]
  have hd : r.d = r.store.view := by
    rw [LazyRelation.d, LazyRelation.store, hs]
    rfl
  unfold scan LazyRelation.relPrefix
  rw [hready]
  dsimp only
  rw [h.flat, hd]
  simp [relPrefixD, Dafsa.walk, List.isPrefixOf?]

/-- A relation is the complement of an assignment to a head. -/
structure Shows (full s : TupleSet) (r : LazyRelation) : Prop where
  /-- It is in memory. -/
  plain : Plain full.arity r
  /-- It has the other rows over the domain. -/
  mem : ∀ x, x ∈ r.store.view ↔ x ∈ full.rows ∧ x ∉ s.rows

/-- What a scan of a complement gives. -/
def others (full s : TupleSet) : List Row := full.rows.filter fun r => !s.contains r

theorem Shows.scan_eq {full s : TupleSet} {r : LazyRelation} (h : Shows full s r)
    (hfull : full.Sorted) : scan r = others full s := by
  rw [h.plain.scan_eq]
  have hsub : (others full s).Sublist full.rows := List.filter_sublist
  have heq : r.store.view = ⟨others full s, hfull.sublist hsub⟩ := by
    refine Dafsa.ext_mem fun x => (h.mem x).trans ?_
    change _ ↔ x ∈ others full s
    simp [others, TupleSet.contains]
  rw [heq]

theorem mem_missing {arity : ℕ} {a b : TupleSet} {x : Row} :
    x ∈ (missing arity a b).rows ↔ x ∈ a.rows ∧ x ∉ b.rows := by
  simp [missing, TupleSet.contains]

/-- Rows deleted one after another. -/
theorem foldl_relDelete {arity : ℕ} {r : LazyRelation} (h : Plain arity r) (rows : List Row) :
    Plain arity (rows.foldl (fun r row => (r.relDelete row).2) r) ∧
      ∀ x, x ∈ (rows.foldl (fun r row => (r.relDelete row).2) r).store.view ↔
        x ∈ r.store.view ∧ x ∉ rows := by
  induction rows generalizing r with
  | nil => simpa using h
  | cons row rows ih =>
    obtain ⟨hplain, hmem⟩ := ih (h.own (r.store.delete row))
    refine ⟨hplain, fun x => (hmem x).trans ?_⟩
    have hview : x ∈ (r.own (r.store.delete row)).store.view ↔ x ∈ r.store.view ∧ x ≠ row := by
      rw [LazyRelation.store_own]
      cases r.store <;> simp [Store.delete]
    rw [hview, List.mem_cons]
    tauto

/-- Rows added one after another, where the domain has them. -/
theorem foldl_relAdd {arity : ℕ} (full : TupleSet) {r : LazyRelation} (h : Plain arity r)
    (rows : List Row) :
    let add := fun (r : LazyRelation) row => if full.contains row then (r.relAdd row).2 else r
    Plain arity (rows.foldl add r) ∧ ∀ x, x ∈ (rows.foldl add r).store.view ↔
      x ∈ r.store.view ∨ x ∈ rows ∧ x ∈ full.rows := by
  intro add
  induction rows generalizing r with
  | nil => simpa using h
  | cons row rows ih =>
    rw [List.foldl_cons]
    by_cases hfull : row ∈ full.rows
    · have hadd : add r row = r.own (r.store.add row) :=
        if_pos (TupleSet.contains_iff.mpr hfull)
      rw [hadd]
      obtain ⟨hplain, hmem⟩ := ih (h.own (r.store.add row))
      refine ⟨hplain, fun x => (hmem x).trans ?_⟩
      rw [LazyRelation.store_own, Store.mem_view_add, List.mem_cons]
      constructor
      · rintro ((rfl | hx) | hx)
        · exact .inr ⟨.inl rfl, hfull⟩
        · exact .inl hx
        · exact .inr ⟨.inr hx.1, hx.2⟩
      · rintro (hx | ⟨rfl | hx, hx'⟩)
        · exact .inl (.inr hx)
        · exact .inl (.inl rfl)
        · exact .inr ⟨hx, hx'⟩
    · have hskip : add r row = r := if_neg fun hc => hfull (TupleSet.contains_iff.mp hc)
      rw [hskip]
      obtain ⟨hplain, hmem⟩ := ih h
      refine ⟨hplain, fun x => (hmem x).trans ?_⟩
      rw [List.mem_cons]
      constructor
      · rintro (hx | hx)
        · exact .inl hx
        · exact .inr ⟨.inr hx.1, hx.2⟩
      · rintro (hx | ⟨rfl | hx, hx'⟩)
        · exact .inl hx
        · exact absurd hx' hfull
        · exact .inr ⟨hx, hx'⟩

/-- **Writing the changes** turns the complement of one assignment into that of another. -/
theorem applyDelta_spec {arity : ℕ} {full old s : TupleSet} {r : LazyRelation}
    (h : Shows full old r) :
    Shows full s (applyDelta full (missing arity s old) (missing arity old s) r) := by
  obtain ⟨hdel, hmemdel⟩ := foldl_relDelete h.plain (missing arity s old).rows
  obtain ⟨hadd, hmemadd⟩ := foldl_relAdd full hdel (missing arity old s).rows
  refine ⟨hadd, fun x => (hmemadd x).trans ?_⟩
  rw [hmemdel, h.mem, mem_missing, mem_missing]
  tauto

/-- **Building anew** makes the complement. -/
theorem rebuild_spec {n : ℕ} {c : CompRel n} {s : TupleSet} {r : LazyRelation}
    (harity : c.full.arity = c.arity) (hfull : c.full.Sorted) (hs : s.Sorted)
    (h : Plain c.full.arity r) :
    (rebuild c s r).1 = true ∧ Shows c.full s (rebuild c s r).2 := by
  have hbuild : ∀ ts : TupleSet, ts.arity = c.full.arity →
      (∀ x, x ∈ ts.rows ↔ x ∈ c.full.rows ∧ x ∉ s.rows) →
      (r.relBuildFromTupleset ts).1 = true ∧ Shows c.full s (r.relBuildFromTupleset ts).2 := by
    intro ts hts hmem
    rw [LazyRelation.relBuildFromTupleset, if_neg (by rw [hts, h.arity]; simp)]
    refine ⟨rfl, h.own _, fun x => ?_⟩
    rw [LazyRelation.store_own, ← hmem]
    cases r.state.promote <;> simp [Store.buildView]
  unfold rebuild
  split
  · rename_i hempty
    exact hbuild _ rfl fun x => by simp [hempty]
  · refine hbuild _ ?_ fun x => ?_
    · rw [TupleSet.arity_sort, TupleSet.arity_addAll, TupleSet.arity_init, harity]
    · rw [TupleSet.mem_rows_sort, TupleSet.mem_rows_addAll, TupleSet.rows_init,
        SortedWalk.mem_diff hfull hs]
      simp

/-! ## One round -/

variable {n : ℕ}

/-- A complement as it is made, and kept by the rounds. -/
structure CompRel.Ok (c : CompRel n) : Prop where
  /-- The rows over the domain have its columns. -/
  arity : c.full.arity = c.arity
  /-- They are sorted. -/
  sorted : c.full.Sorted
  /-- Both relations are in memory. -/
  plain : ∀ p, Plain c.full.arity (c.rels p)

/-- What a maintenance step does to a complement. -/
structure Maintained (round : ℕ) (prev : Snaps n) (c c' : CompRel n) : Prop where
  /-- The columns. -/
  arity : c'.arity = c.arity
  /-- The head. -/
  slot : c'.slot = c.slot
  /-- The rows over the domain. -/
  full : c'.full = c.full
  /-- The relation of the other parity is left alone. -/
  other : c'.rels (par (round + 1)) = c.rels (par (round + 1))
  /-- That of the round is the complement of the last assignment. -/
  shows : Shows c.full (prev c.slot) (c'.rels (par round))

theorem par_succ (round : ℕ) : par (round + 1) = !par round := by
  unfold par
  rcases Nat.mod_two_eq_zero_or_one round with h | h <;>
    simp [h, Nat.add_mod]

theorem Maintained.ok {round : ℕ} {prev : Snaps n} {c c' : CompRel n}
    (h : Maintained round prev c c') (hc : c.Ok) : c'.Ok where
  arity := by rw [h.full, h.arity, hc.arity]
  sorted := h.full ▸ hc.sorted
  plain p := by
    rw [h.full]
    by_cases hp : p = par round
    · rw [hp]
      exact h.shows.plain
    · have hother : p = par (round + 1) := by
        rw [par_succ]
        cases p <;> cases hr : par round <;> simp_all
      rw [hother, h.other]
      exact hc.plain _

/-- Another relation for the parity of the round. -/
theorem maintained_setRel {round : ℕ} {prev : Snaps n} {c : CompRel n} {r : LazyRelation}
    (h : Shows c.full (prev c.slot) r) : Maintained round prev c (c.setRel (par round) r) where
  arity := rfl
  slot := rfl
  full := rfl
  other := by
    change Function.update c.rels (par round) r (par (round + 1)) = c.rels (par (round + 1))
    have hne : par (round + 1) ≠ par round := by
      rw [par_succ]
      cases par round <;> simp
    exact Function.update_of_ne hne r c.rels
  shows := by
    change Shows c.full (prev c.slot) (Function.update c.rels (par round) r (par round))
    rwa [Function.update_self]

/-- A step that makes the complement of the last assignment from that of two rounds
before. -/
def Right (step : Maintain n) : Prop :=
  ∀ (round : ℕ) (prev : Snaps n) (prev3 : Option (Snaps n)) (c : CompRel n), c.Ok →
    (prev c.slot).Sorted →
    (∀ old, prev3 = some old → Shows c.full (old c.slot) (c.rels (par round))) →
    ∃ c', step round prev prev3 c = some c' ∧ Maintained round prev c c'

/-- **Building anew is right.** -/
theorem right_maintainScratch : Right (maintainScratch (n := n)) := by
  intro round prev prev3 c hc hprev _
  obtain ⟨hok, hshows⟩ := rebuild_spec hc.arity hc.sorted hprev (hc.plain (par round))
  refine ⟨_, ?_, maintained_setRel hshows⟩
  rw [maintainScratch]
  exact if_pos hok

/-- **The maintenance step is right**, on either of its ways. -/
theorem right_maintain : Right (maintain (n := n)) := by
  intro round prev prev3 c hc hprev hold
  have hscratch := right_maintainScratch round prev prev3 c hc hprev hold
  cases prev3 with
  | none => exact hscratch
  | some old =>
    unfold maintain
    dsimp only
    split
    · exact ⟨_, rfl, maintained_setRel (applyDelta_spec (hold old rfl))⟩
    · exact hscratch

/-! ## All complements -/

/-- What holds before a round. -/
structure Inv (round : ℕ) (st : St n) : Prop where
  /-- The complements are as they were made. -/
  ok : ∀ c ∈ st.comps, c.Ok
  /-- The assignment is sorted. -/
  sorted : ∀ k, (st.prev k).Sorted
  /-- The relation used last shows the assignment of its round. -/
  last : ∀ old, st.prev2 = some old → ∀ c ∈ st.comps,
    Shows c.full (old c.slot) (c.rels (par (round + 1)))
  /-- And so does the one used before. -/
  idle : ∀ old, st.prev3 = some old → ∀ c ∈ st.comps,
    Shows c.full (old c.slot) (c.rels (par round))

/-- What the rounds do not change of a complement. -/
def CompRel.key (c : CompRel n) : ℕ × Fin n × TupleSet := (c.arity, c.slot, c.full)

/-- What the rules of a round have to see. -/
def shouldSee (prev : Snaps n) (keys : List (ℕ × Fin n × TupleSet)) : List (List Row) :=
  keys.map fun k => others k.2.2 (prev k.2.1)

theorem mapM_of_forall {α β : Type} {f : α → Option β} {R : α → β → Prop} {l : List α}
    (h : ∀ a ∈ l, ∃ b, f a = some b ∧ R a b) :
    ∃ l', l.mapM f = some l' ∧ List.Forall₂ R l l' := by
  induction l with
  | nil => exact ⟨[], rfl, .nil⟩
  | cons a l ih =>
    obtain ⟨b, hb, hab⟩ := h a List.mem_cons_self
    obtain ⟨l', hl', hrest⟩ := ih fun a' ha' => h a' (List.mem_cons_of_mem a ha')
    exact ⟨b :: l', by rw [List.mapM_cons, hb, hl']; rfl, .cons hab hrest⟩

theorem map_eq_of_forall₂ {α β γ : Type} {R : α → β → Prop} {f : α → γ} {g : β → γ}
    {l : List α} {l' : List β} (h : List.Forall₂ R l l') (hfg : ∀ a b, R a b → g b = f a) :
    l'.map g = l.map f := by
  induction h with
  | nil => rfl
  | cons hab _ ih => rw [List.map_cons, List.map_cons, hfg _ _ hab, ih]

/-- **One round.**  All complements are made, the rules see the rows that the last
assignment does not have, and the next state is as this one. -/
theorem maintainAll_spec {step : Maintain n} (hstep : Right step) {round : ℕ} {st : St n}
    (h : Inv round st) : ∃ comps, st.maintainAll step round = some comps ∧
      (∀ c ∈ comps, Shows c.full (st.prev c.slot) (c.rels (par round))) ∧
      comps.map CompRel.key = st.comps.map CompRel.key ∧
      installed round comps = shouldSee st.prev (st.comps.map CompRel.key) ∧
      ∀ cur : Snaps n, (∀ k, (cur k).Sorted) → Inv (round + 1) (st.rotate comps cur) := by
  obtain ⟨comps, hcomps, hall⟩ := mapM_of_forall
    (R := fun c c' => c.Ok ∧ Maintained round st.prev c c') fun c hc => by
      obtain ⟨c', hc', hm⟩ := hstep round st.prev st.prev3 c (h.ok c hc) (h.sorted _)
        fun old hold => h.idle old hold c hc
      exact ⟨c', hc', h.ok c hc, hm⟩
  have hback : ∀ c' ∈ comps, ∃ c ∈ st.comps, Maintained round st.prev c c' := by
    intro c' hc'
    obtain ⟨i, hi, rfl⟩ := List.getElem_of_mem hc'
    have hlen := hall.length_eq
    exact ⟨st.comps[i], List.getElem_mem _, (hall.get (by omega) hi).2⟩
  have hkeys : comps.map CompRel.key = st.comps.map CompRel.key :=
    map_eq_of_forall₂ hall fun c c' hm => by
      rw [CompRel.key, CompRel.key, hm.2.arity, hm.2.slot, hm.2.full]
  refine ⟨comps, hcomps, fun c' hc' => ?_, hkeys, ?_, fun cur hcur => ?_⟩
  · obtain ⟨c, -, hm⟩ := hback c' hc'
    rw [hm.full, hm.slot]
    exact hm.shows
  · rw [shouldSee, List.map_map]
    exact map_eq_of_forall₂ hall fun c c' hm => hm.2.shows.scan_eq hm.1.sorted
  · exact {
      ok := fun c' hc' => by
        obtain ⟨c, hc, hm⟩ := hback c' hc'
        exact hm.ok (h.ok c hc)
      sorted := hcur
      last := fun old hold c' hc' => by
        obtain ⟨c, hc, hm⟩ := hback c' hc'
        obtain rfl : st.prev = old := Option.some.inj hold
        have hpar : par (round + 1 + 1) = par round := by simp [par_succ]
        rw [hpar, hm.full, hm.slot]
        exact hm.shows
      idle := fun old hold c' hc' => by
        obtain ⟨c, hc, hm⟩ := hback c' hc'
        rw [hm.other, hm.full, hm.slot]
        exact h.last old hold c hc }

/-! ## The rounds -/

theorem sorted_snapRel (arity : ℕ) (rows : List Row) : (snapRel arity rows).Sorted :=
  TupleSet.sorted_sort _

/-- **Two runs** with right steps go through the same assignments. -/
theorem wfsLoop_congr {arity : Fin n → ℕ} {eval : Eval n} {step step' : Maintain n}
    (hstep : Right step) (hstep' : Right step') {left round : ℕ} {st st' : St n}
    (h : Inv round st) (h' : Inv round st') (hprev : st.prev = st'.prev)
    (hprev2 : st.prev2 = st'.prev2)
    (hkeys : st.comps.map CompRel.key = st'.comps.map CompRel.key) :
    wfsLoop arity eval step left round st = wfsLoop arity eval step' left round st' := by
  induction left generalizing round st st' with
  | zero => rfl
  | succ left ih =>
    obtain ⟨comps, hcomps, -, hkey, hsee, hnext⟩ := maintainAll_spec hstep h
    obtain ⟨comps', hcomps', -, hkey', hsee', hnext'⟩ := maintainAll_spec hstep' h'
    have hsnap : snapshot arity eval round comps = snapshot arity eval round comps' := by
      unfold snapshot
      rw [hsee, hsee', hprev, hkeys]
    have hsorted : ∀ k, (snapshot arity eval round comps' k).Sorted := fun k => sorted_snapRel ..
    have hrest := ih (hnext _ hsorted) (hnext' _ hsorted) rfl (congrArg some hprev)
      (hkey.trans (hkeys.trans hkey'.symm))
    unfold wfsLoop
    rw [hcomps, hcomps']
    dsimp only
    rw [hsnap, hprev, hprev2, hrest]

/-- The state before each round. -/
theorem stateAt_inv (arity : Fin n → ℕ) (eval : Eval n) {step : Maintain n}
    (hstep : Right step) {st : St n} (h : Inv 0 st) (k : ℕ) :
    ∃ st', stateAt arity eval step st k = some st' ∧ Inv k st' ∧
      st'.comps.map CompRel.key = st.comps.map CompRel.key := by
  induction k with
  | zero => exact ⟨st, rfl, h, rfl⟩
  | succ k ih =>
    obtain ⟨st', hst', hinv, hkeys⟩ := ih
    obtain ⟨comps, hcomps, -, hkey, -, hnext⟩ := maintainAll_spec hstep hinv
    have hstate : stateAt arity eval step st (k + 1) =
        some (st'.rotate comps (snapshot arity eval k comps)) := by
      rw [stateAt, hst', Option.bind_some, hcomps]
      rfl
    exact ⟨_, hstate, hnext _ fun i => sorted_snapRel _ _, hkey.trans hkeys⟩

/-- A complement that was just made. -/
theorem newComp_spec {arity : Fin n → ℕ} {dom : List Val} {slot : Fin n} {c : CompRel n}
    (h : newComp arity dom slot = some c) : c.Ok ∧ c.slot = slot ∧
      ∀ x, x ∈ c.full.rows ↔ x.length = arity slot ∧ ∀ v ∈ x, v ∈ dom := by
  unfold newComp at h
  split at h
  · rename_i hpos
    split at h
    · cases h
    · obtain ⟨full, hfull, rfl⟩ := Option.map_eq_some_iff.mp h
      obtain ⟨harity, hsorted, hmem⟩ := enumerateProduct_spec hpos hfull
      exact ⟨⟨harity, hsorted, fun p => ⟨harity.symm, ⟨_, rfl⟩, rfl⟩⟩, rfl, hmem⟩
  · cases h

theorem forall₂_of_mapM {α β : Type} {f : α → Option β} {l : List α} {l' : List β}
    (h : l.mapM f = some l') : List.Forall₂ (fun a b => f a = some b) l l' := by
  induction l generalizing l' with
  | nil =>
    rw [List.mapM_nil] at h
    cases h
    exact .nil
  | cons a l ih =>
    rw [List.mapM_cons] at h
    obtain ⟨b, hb, h⟩ := Option.bind_eq_some_iff.mp h
    obtain ⟨bs, hbs, h⟩ := Option.bind_eq_some_iff.mp h
    cases h
    exact .cons hb (ih hbs)

/-- The state before the first round. -/
theorem inv_init (arity : Fin n → ℕ) {comps : List (CompRel n)} (h : ∀ c ∈ comps, c.Ok)
    (rows : Fin n → List Row) : Inv 0 (St.init arity comps rows) where
  ok := h
  sorted k := sorted_snapRel _ _
  last old hold := by cases hold
  idle old hold := by cases hold

/-- **Incremental complements.**  Whatever the rules compute in each round, the maintenance
step succeeds in every round and leaves each complement with the rows over the domain
that the last assignment does not have; and the rounds end as they do when every
complement is built anew. -/
theorem complement_exact {arity : Fin n → ℕ} {dom : List Val} {preds : List (Fin n)}
    {comps : List (CompRel n)} (hcomps : preds.mapM (newComp arity dom) = some comps)
    (rows : Fin n → List Row) (eval : Eval n) :
    (∀ k, ∃ st comps', stateAt arity eval maintain (St.init arity comps rows) k = some st ∧
      st.maintainAll maintain k = some comps' ∧ comps'.map CompRel.slot = preds ∧
      ∀ c ∈ comps', ∀ x, x ∈ (c.rels (par k)).sets.view ↔
        (x.length = arity c.slot ∧ ∀ v ∈ x, v ∈ dom) ∧ x ∉ (st.prev c.slot).rows) ∧
    wfsRounds arity eval maintain (St.init arity comps rows) =
      wfsRounds arity eval maintainScratch (St.init arity comps rows) := by
  have hall := forall₂_of_mapM hcomps
  have hmade : ∀ c ∈ comps, c.Ok ∧
      ∀ x, x ∈ c.full.rows ↔ x.length = arity c.slot ∧ ∀ v ∈ x, v ∈ dom := by
    intro c hc
    obtain ⟨i, hi, rfl⟩ := List.getElem_of_mem hc
    obtain ⟨hok, hslot, hmem⟩ := newComp_spec (hall.get (hall.length_eq ▸ hi) hi)
    exact ⟨hok, hslot ▸ hmem⟩
  have hslots : comps.map CompRel.slot = preds := by
    rw [map_eq_of_forall₂ hall fun a b hab => (newComp_spec hab).2.1, List.map_id']
  have hinv := inv_init arity (fun c hc => (hmade c hc).1) rows
  refine ⟨fun k => ?_, wfsLoop_congr right_maintain right_maintainScratch hinv hinv rfl rfl rfl⟩
  obtain ⟨st, hst, hk, hkeys⟩ := stateAt_inv arity eval right_maintain hinv k
  obtain ⟨comps', hcomps', hshows, hkeys', -⟩ := maintainAll_spec right_maintain hk
  have hkeep : comps'.map CompRel.key = comps.map CompRel.key := hkeys'.trans hkeys
  refine ⟨st, comps', hst, hcomps', ?_, fun c hc x => ?_⟩
  · have hslot := congrArg (List.map fun k => k.2.1) hkeep
    rw [List.map_map, List.map_map] at hslot
    exact hslot.trans hslots
  · obtain ⟨c₀, hc₀, heq⟩ := List.mem_map.mp (hkeep ▸ List.mem_map_of_mem hc)
    have hfull : c₀.full = c.full := congrArg (fun k => k.2.2) heq
    have hslot : c₀.slot = c.slot := congrArg (fun k => k.2.1) heq
    have hmem := (hmade c₀ hc₀).2 x
    rw [hfull, hslot] at hmem
    rw [← hmem, ← (hshows c hc).mem x]
    change x ∈ (c.rels (par k)).store.view ∨ x ∈ (c.rels (par k)).ov.rows ↔ _
    simp [(hshows c hc).plain.flat]

/-- `win(X) :- move(X, Y), !win(Y)`, over a chain of moves from `8` down to `1`. -/
def chainEval : Eval 1 := fun _ rows _ =>
  rows.flatten.filterMap fun r => (r.head?.filter (· < 8)).map fun v => [v + 1]

/-- The complement of `win` over the chain. -/
def chainComps : List (CompRel 1) :=
  ([0].mapM (newComp (fun _ => 1) [1, 2, 3, 4, 5, 6, 7, 8])).getD []

/-- The rounds before the third one leave `win(2)`, and two rounds before it nothing was won: the
complement of the third round is made by one deletion. -/
theorem complement_exact_sample :
    wfsRounds (fun _ => 1) chainEval maintain (St.init (fun _ => 1) chainComps fun _ => []) =
        wfsRounds (fun _ => 1) chainEval maintainScratch
          (St.init (fun _ => 1) chainComps fun _ => []) ∧
      ∃ st comps', stateAt (fun _ => 1) chainEval maintain
          (St.init (fun _ => 1) chainComps fun _ => []) 2 = some st ∧
        (st.prev 0).rows = [[2]] ∧ (st.prev3.map fun old => (old 0).rows) = some [] ∧
        st.maintainAll maintain 2 = some comps' ∧
        ∀ c ∈ comps', ∀ x, x ∈ (c.rels false).sets.view ↔
          (x.length = 1 ∧ ∀ v ∈ x, v ∈ ([1, 2, 3, 4, 5, 6, 7, 8] : List Val)) ∧ x ∉ [[2]] := by
  have hcomps : [0].mapM (newComp (fun _ : Fin 1 => 1) [1, 2, 3, 4, 5, 6, 7, 8]) =
      some chainComps := rfl
  obtain ⟨hround, hends⟩ := complement_exact hcomps (fun _ => []) chainEval
  obtain ⟨st, comps', hst, hcomps', -, hshows⟩ := hround 2
  have hprev : ((stateAt (fun _ => 1) chainEval maintain
      (St.init (fun _ => 1) chainComps fun _ => []) 2).map fun st =>
        ((st.prev 0).rows, st.prev3.map fun old => (old 0).rows)) = some ([[2]], some []) := by
    decide +kernel
  rw [hst, Option.map_some, Option.some.injEq, Prod.mk.injEq] at hprev
  refine ⟨hends, st, comps', hst, hprev.1, hprev.2, hcomps', fun c hc x => ?_⟩
  have := hshows c hc x
  rw [show c.slot = 0 from Subsingleton.elim _ _, hprev.1] at this
  exact this

end DatalogDafsa.Wfs
