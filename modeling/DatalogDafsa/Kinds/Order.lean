import DatalogDafsa.Kinds.Sites

/-!
# Rounds in any order

The propagation runs through the rules one after another, each reading what those
before it have left.  A rule is *heard* when it passes on what it would in the flow,
where a record is joined with what has flowed in; as long as rules are heard and no
conflict is met, a round is one of the flow along the list, and what the rounds settle
on is what flows, whatever the order.  Whether they meet a conflict can depend on the
order: a rule that joins a column of numbers and one of symbols turns its head column
mixed, and a mixed column is in no conflict any more.

## Main definitions

* `Heard`, `Tracked` — a rule passes on what flows; a run does.
* `propagateRule_spec`, `Tracked.run` — one rule, and all rounds.
* `KindOrderExact`, `OrderFree` — the contract, and when it holds.
* `checkAllRuleConstKinds_order` — the contract holds then.
-/

namespace DatalogDafsa.Kinds

/-! ## What holds during a run -/

/-- A column that has a kind has at least that of its rows. -/
def Seeded (db : KindDb) (cache : Cache) : Prop :=
  ∀ ri col, cache ri col ≠ .unknown → seedKind db ri col 1 ≤ cache ri col

/-- No column is mixed. -/
def Unmixed (cache : Cache) : Prop := ∀ ri col, cache ri col ≠ .mixed

/-- The kinds of a run, below what flows. -/
structure Within (db : KindDb) (flow cache : Cache) : Prop where
  /-- Nothing is there that does not flow. -/
  le : cache ≤ flow
  /-- Rows keep their kinds. -/
  seeded : Seeded db cache

theorem Within.zero (db : KindDb) (flow : Cache) : Within db flow .zero :=
  ⟨fun _ _ => unknown_le _, fun _ _ h => absurd rfl h⟩

/-- A rule that gives a column a kind gives it that of its rows. -/
theorem seeded_passOn {db : KindDb} {old : ℕ → ℕ → Bool} {cache : Cache} (hs : Seeded db cache)
    (r : Typecheck.Rule) : Seeded db (passOn db old cache r) := by
  intro ri col hcell
  by_cases hold : cache ri col = .unknown
  · refine le_trans ?_ le_sup_right
    unfold passOn ruleGives at hcell
    unfold ruleGives
    dsimp only at hcell ⊢
    split
    · next hk =>
      rw [hold, if_pos hk] at hcell
      exact absurd rfl hcell
    · exact le_sup_left
  · exact (hs ri col hold).trans le_sup_left

theorem listKinds_seeded (db : KindDb) (old : ℕ → ℕ → Bool) (rules : List Typecheck.Rule) (n : ℕ) :
    Seeded db (listKinds db old rules n) := by
  have hround : ∀ (l : List Typecheck.Rule) (cache : Cache), Seeded db cache →
      Seeded db (l.foldl (passOn db old) cache) := by
    intro l
    induction l with
    | nil => exact fun _ hs => hs
    | cons r l ih => exact fun cache hs => ih _ (seeded_passOn hs r)
  induction n with
  | zero => exact fun ri col hcell => absurd rfl hcell
  | succ n ih => exact hround rules _ ih

/-- The atoms of a rule ask for the columns of a head target alike. -/
theorem relColKind_arity {db : KindDb} {cache : Cache} {ri col n : ℕ} (hn : n ≠ 0)
    (hmax : n ≤ maxArity) : relColKind db cache ri col n = relColKind db cache ri col 1 := by
  have h1 : ¬ maxArity < n := by omega
  have h2 : ¬ maxArity < 1 := by decide
  unfold relColKind
  simp only [h1, h2, hn, one_ne_zero, false_or]

theorem seedKind_arity {db : KindDb} {ri col n : ℕ} (hn : n ≠ 0) (hmax : n ≤ maxArity) :
    seedKind db ri col n = seedKind db ri col 1 := by
  unfold seedKind
  rw [relColKind_arity hn hmax]

/-! ## One head column -/

/-- What one head column or one rule leaves: more kinds, and a flag when there are. -/
structure Grows (db : KindDb) (st st' : Cache × Bool) : Prop where
  /-- Kinds only grow. -/
  le : st.1 ≤ st'.1
  /-- Rows keep their kinds. -/
  seeded : Seeded db st.1 → Seeded db st'.1
  /-- Without a flag nothing has changed. -/
  flag : st'.2 = false → st' = st

theorem Grows.refl (db : KindDb) (st : Cache × Bool) : Grows db st st :=
  ⟨le_rfl, id, fun _ => rfl⟩

theorem Grows.trans {db : KindDb} {st st' st'' : Cache × Bool} (h : Grows db st st')
    (h' : Grows db st' st'') : Grows db st st'' := by
  refine ⟨h.le.trans h'.le, fun hs => h'.seeded (h.seeded hs), fun hflag => ?_⟩
  have heq := h'.flag hflag
  rw [heq] at hflag ⊢
  exact h.flag hflag

theorem Cache.set_self (cache : Cache) (ri col : ℕ) (k : Kind) : cache.set ri col k ri col = k := by
  simp [Cache.set]

theorem Cache.set_ne (cache : Cache) {ri col ri' col' : ℕ} (k : Kind)
    (h : ¬ (ri' = ri ∧ col' = col)) : cache.set ri col k ri' col' = cache ri' col' := by
  unfold Cache.set
  by_cases hri : ri' = ri
  · subst hri
    rw [Function.update_self, Function.update_of_ne fun hc => h ⟨rfl, hc⟩]
  · rw [Function.update_of_ne hri]

theorem curKind_eq {db : KindDb} {cache : Cache} {ri col n : ℕ} (hn : n ≠ 0) (hmax : n ≤ maxArity)
    (hs : Seeded db cache) : curKind db cache ri col n = cache ri col ⊔ seedKind db ri col 1 := by
  unfold curKind
  rw [seedKind_arity hn hmax]
  by_cases hcell : cache ri col = .unknown
  · rw [if_pos hcell, hcell]
    exact (sup_eq_right.mpr (unknown_le _)).symm
  · rw [if_neg hcell]
    exact (sup_eq_left.mpr (hs ri col hcell)).symm

/-- **One head column**: its kind becomes the join of what it had and what it receives. -/
theorem headStep_spec {db : KindDb} {ri n : ℕ} {t : VarKinds} {st st' : Cache × Bool}
    {arg : Typecheck.Token × ℕ} (hn : n ≠ 0) (hmax : n ≤ maxArity) (hs : Seeded db st.1)
    (h : headStep db ri n t st arg = some st') :
    Grows db st st' ∧ argKind t.kindOf (some arg.1) ≤ st'.1 ri arg.2 ∧
      ∀ bound : Cache, st.1 ≤ bound → (argKind t.kindOf (some arg.1) ≠ .unknown →
        seedKind db ri arg.2 1 ⊔ argKind t.kindOf (some arg.1) ≤ bound ri arg.2) →
        st'.1 ≤ bound := by
  unfold headStep at h
  dsimp only at h
  generalize argKind t.kindOf (some arg.1) = contrib at h ⊢
  split at h
  · rename_i hk
    obtain rfl := Option.some.inj h
    exact ⟨Grows.refl _ _, hk ▸ unknown_le _, fun bound hle _ => hle⟩
  rename_i hk
  split at h
  · cases h
  rw [curKind_eq hn hmax hs, kindJoin_eq_sup] at h
  split at h
  · rename_i hchange
    obtain rfl := Option.some.inj h
    refine ⟨⟨fun ri' col' => ?_, fun _ ri' col' hcell => ?_, fun hflag => by cases hflag⟩, ?_,
      fun bound hle hbound ri' col' => ?_⟩
    · by_cases hat : ri' = ri ∧ col' = arg.2
      · obtain ⟨rfl, rfl⟩ := hat
        dsimp only
        rw [Cache.set_self]
        exact le_sup_left.trans le_sup_left
      · dsimp only
        rw [Cache.set_ne _ _ hat]
    · by_cases hat : ri' = ri ∧ col' = arg.2
      · obtain ⟨rfl, rfl⟩ := hat
        dsimp only
        rw [Cache.set_self]
        exact le_sup_right.trans le_sup_left
      · dsimp only at hcell ⊢
        rw [Cache.set_ne _ _ hat] at hcell ⊢
        exact hs ri' col' hcell
    · dsimp only
      rw [Cache.set_self]
      exact le_sup_right
    · by_cases hat : ri' = ri ∧ col' = arg.2
      · obtain ⟨rfl, rfl⟩ := hat
        dsimp only
        rw [Cache.set_self, sup_assoc]
        exact sup_le (hle ri' arg.2) (hbound hk)
      · dsimp only
        rw [Cache.set_ne _ _ hat]
        exact hle ri' col'
  · rename_i hsame
    obtain rfl := Option.some.inj h
    refine ⟨Grows.refl _ _, ?_, fun bound hle _ => hle⟩
    rw [← not_not.mp hsame]
    exact le_sup_right

/-- **The head columns of a rule.** -/
theorem headSteps_spec {db : KindDb} {ri n : ℕ} {t : VarKinds} {st st' : Cache × Bool}
    {args : List (Typecheck.Token × ℕ)} (hn : n ≠ 0) (hmax : n ≤ maxArity) (hs : Seeded db st.1)
    (h : args.foldlM (headStep db ri n t) st = some st') :
    Grows db st st' ∧ (∀ p ∈ args, argKind t.kindOf (some p.1) ≤ st'.1 ri p.2) ∧
      ∀ bound : Cache, st.1 ≤ bound → (∀ p ∈ args, argKind t.kindOf (some p.1) ≠ .unknown →
        seedKind db ri p.2 1 ⊔ argKind t.kindOf (some p.1) ≤ bound ri p.2) → st'.1 ≤ bound := by
  induction args generalizing st with
  | nil =>
    obtain rfl := Option.some.inj h
    exact ⟨Grows.refl _ _, by simp, fun bound hle _ => hle⟩
  | cons p args ih =>
    rw [List.foldlM_cons] at h
    obtain ⟨st₁, hstep, hrest⟩ := Option.bind_eq_some_iff.mp h
    obtain ⟨hgrow, hgot, hbound⟩ := headStep_spec hn hmax hs hstep
    obtain ⟨hgrow', hgot', hbound'⟩ := ih (hgrow.seeded hs) hrest
    refine ⟨hgrow.trans hgrow', fun q hq => ?_, fun bound hle hall => ?_⟩
    · rcases List.mem_cons.mp hq with rfl | hq
      · exact hgot.trans (hgrow'.le ri q.2)
      · exact hgot' q hq
    · exact hbound' bound (hbound bound hle (hall p (by simp))) fun q hq => hall q (by simp [hq])

theorem headTarget_size {db : KindDb} {r : Typecheck.Rule} {ri : ℕ}
    (h : headTarget db r = some ri) :
    r.head.args.length ≠ 0 ∧ r.head.args.length ≤ maxArity := by
  unfold headTarget at h
  split at h
  · cases h
  · rename_i hguard
    simp only [Bool.or_eq_true, decide_eq_true_eq, not_or, not_lt] at hguard
    exact ⟨hguard.1.2, hguard.2⟩

/-- What a rule passes on to a column is the kind of its argument there. -/
theorem argKind_eq_rulePass {db : KindDb} {cache : Cache} {r : Typecheck.Rule} (hfits : Fits r)
    {ri : ℕ} (htarget : headTarget db r = some ri) {p : Typecheck.Token × ℕ}
    (hp : p ∈ r.head.args.zipIdx) :
    argKind (bodyKinds db (relColKind db cache) r.body).kindOf (some p.1) =
      rulePass db (relColKind db cache) r ri p.2 := by
  unfold rulePass
  rw [if_pos htarget, List.mem_zipIdx_iff_getElem?.mp hp, bodyKinds_eq db _ hfits]

/-- The rule passes on what it does in the flow, though it reads a column that has a kind
without its record. -/
def Heard (db : KindDb) (old : ℕ → ℕ → Bool) (cache : Cache) (r : Typecheck.Rule) : Prop :=
  ∀ ri col, rulePass db (relColKind db cache) r ri col =
    rulePass db (readWithout old db cache) r ri col

/-- **One rule that is heard**: each column is joined with what the rule gives it. -/
theorem propagateRule_spec {db : KindDb} {old : ℕ → ℕ → Bool} {r : Typecheck.Rule}
    (hfits : Fits r) {st st' : Cache × Bool} (hs : Seeded db st.1) (hheard : Heard db old st.1 r)
    (h : propagateRule db st r = some st') :
    Grows db st st' ∧ st'.1 = passOn db old st.1 r := by
  unfold propagateRule at h
  cases htarget : headTarget db r with
  | none =>
    rw [htarget] at h
    obtain rfl := Option.some.inj h
    refine ⟨Grows.refl _ _, funext fun ri => funext fun col => (sup_eq_left.mpr ?_).symm⟩
    unfold ruleGives rulePass
    simp [htarget, unknown_le]
  | some ri =>
    rw [htarget] at h
    dsimp only at h
    obtain ⟨hn, hmax⟩ := headTarget_size htarget
    obtain ⟨hgrow, hgot, hbound⟩ := headSteps_spec hn hmax hs h
    have hpass : ∀ p ∈ r.head.args.zipIdx,
        argKind (bodyKinds db (relColKind db st.1) r.body).kindOf (some p.1) =
          rulePass db (readWithout old db st.1) r ri p.2 := fun p hp =>
      (argKind_eq_rulePass hfits htarget hp).trans (hheard ri p.2)
    refine ⟨hgrow, le_antisymm ?_ fun ri' col => sup_le (hgrow.le ri' col) ?_⟩
    · refine hbound _ (le_passOn db old st.1 r) fun p hp hk => ?_
      rw [hpass p hp] at hk ⊢
      refine le_trans (le_of_eq ?_) le_sup_right
      unfold ruleGives
      rw [if_neg hk]
      rfl
    · -- what the rule gives is in the column, and so is the kind of its rows
      have hle : rulePass db (readWithout old db st.1) r ri' col ≤ st'.1 ri' col := by
        by_cases hri : ri' = ri
        · subst hri
          cases harg : (r.head.args[col]? : Option Typecheck.Token) with
          | none =>
            unfold rulePass
            rw [if_pos htarget, harg]
            exact unknown_le _
          | some arg =>
            have hmem : (arg, col) ∈ r.head.args.zipIdx := List.mem_zipIdx_iff_getElem?.mpr harg
            exact hpass (arg, col) hmem ▸ hgot (arg, col) hmem
        · unfold rulePass
          rw [if_neg (by rw [htarget]; simpa using Ne.symm hri)]
          exact unknown_le _
      unfold ruleGives
      dsimp only
      split
      · exact unknown_le _
      · rename_i hk
        refine sup_le (hgrow.seeded hs ri' col fun hcell => ?_) hle
        rw [hcell] at hle
        exact hk (le_antisymm hle (unknown_le _))

/-- Two definite kinds that differ are in no order. -/
theorem not_conflict_of_le {a b : Kind} (h : b ≤ a) :
    ¬ ((a = .int ∧ b = .sym) ∨ (a = .sym ∧ b = .int)) := by
  revert h
  cases a <;> cases b <;> decide

/-- **A rule that adds nothing meets no conflict and changes nothing.** -/
theorem propagateRule_settled {db : KindDb} {r : Typecheck.Rule} (hfits : Fits r) {cache : Cache}
    (hs : Seeded db cache)
    (hle : ∀ ri col, rulePass db (relColKind db cache) r ri col ≤ cache ri col) (flag : Bool) :
    propagateRule db (cache, flag) r = some (cache, flag) := by
  unfold propagateRule
  cases htarget : headTarget db r with
  | none => rfl
  | some ri =>
    dsimp only
    obtain ⟨hn, hmax⟩ := headTarget_size htarget
    have hargs : ∀ p ∈ r.head.args.zipIdx,
        argKind (bodyKinds db (relColKind db cache) r.body).kindOf (some p.1) ≤ cache ri p.2 :=
      fun p hp => argKind_eq_rulePass hfits htarget hp ▸ hle ri p.2
    generalize r.head.args.zipIdx = args at hargs
    induction args with
    | nil => rfl
    | cons p args ih =>
      have hp := hargs p (by simp)
      have hstep : headStep db ri r.head.args.length
          (bodyKinds db (relColKind db cache) r.body) (cache, flag) p = some (cache, flag) := by
        unfold headStep
        dsimp only
        generalize argKind (bodyKinds db (relColKind db cache) r.body).kindOf (some p.1) = contrib
          at hp
        split
        · rfl
        · rename_i hk
          have hcell : cache ri p.2 ≠ .unknown := fun hc => by
            rw [hc] at hp
            exact hk (le_antisymm hp (unknown_le _))
          have hcur : curKind db cache ri p.2 r.head.args.length = cache ri p.2 := by
            rw [curKind_eq hn hmax hs]
            exact sup_eq_left.mpr (hs ri p.2 hcell)
          rw [hcur, if_neg (not_conflict_of_le hp), kindJoin_eq_sup, sup_eq_left.mpr hp]
          simp
      rw [List.foldlM_cons, hstep]
      exact ih fun q hq => hargs q (by simp [hq])

/-! ## Conflicts -/

/-- The rule makes no mixed kind out of unmixed ones that flow: it joins no column of numbers
and column of symbols into a head variable. -/
def NoMix (db : KindDb) (flow : Cache) (r : Typecheck.Rule) : Prop :=
  ∀ cache : Cache, cache ≤ flow → Unmixed cache → Unmixed (ruleFlow db cache r)

theorem seedKind_ne_mixed (db : KindDb) (ri col n : ℕ) : seedKind db ri col n ≠ .mixed := by
  have hcol : ∀ ct, colTypeKind ct ≠ .mixed := fun ct => by
    cases ct with
    | flat s => cases s <;> simp [colTypeKind]
    | _ => simp [colTypeKind]
  have hrec : ∀ o, Kind.ofRecord o ≠ .mixed := fun o => by
    cases o with
    | none => simp [Kind.ofRecord]
    | some d => cases d <;> simp [Kind.ofRecord]
  unfold seedKind relColKind entryKind
  split
  · simp
  split
  · simp
  split
  · simp
  split
  · simp
  split
  · split
    · exact hcol _
    · simp
  · simp [Cache.zero, hrec]

/-- Without a conflict and without a mixed kind passed on, no column turns mixed. -/
theorem headSteps_unmixed {db : KindDb} {ri n : ℕ} {t : VarKinds} {st st' : Cache × Bool}
    {args : List (Typecheck.Token × ℕ)} (hn : n ≠ 0) (hmax : n ≤ maxArity)
    (hs : Seeded db st.1) (hu : Unmixed st.1)
    (hargs : ∀ p ∈ args, argKind t.kindOf (some p.1) ≠ .mixed)
    (h : args.foldlM (headStep db ri n t) st = some st') : Unmixed st'.1 := by
  induction args generalizing st with
  | nil =>
    obtain rfl := Option.some.inj h
    exact hu
  | cons p args ih =>
    rw [List.foldlM_cons] at h
    obtain ⟨st₁, hstep, hrest⟩ := Option.bind_eq_some_iff.mp h
    refine ih ((headStep_spec hn hmax hs hstep).1.seeded hs) ?_
      (fun q hq => hargs q (by simp [hq])) hrest
    have hp := hargs p (by simp)
    unfold headStep at hstep
    dsimp only at hstep
    generalize argKind t.kindOf (some p.1) = contrib at hstep hp
    split at hstep
    · obtain rfl := Option.some.inj hstep
      exact hu
    split at hstep
    · cases hstep
    rename_i hconflict
    split at hstep
    · obtain rfl := Option.some.inj hstep
      intro ri' col'
      by_cases hat : ri' = ri ∧ col' = p.2
      · obtain ⟨rfl, rfl⟩ := hat
        dsimp only
        rw [Cache.set_self]
        intro hmix
        rcases sup_eq_mixed_iff.mp hmix with h | h | h
        · unfold curKind at h
          split at h
          · exact seedKind_ne_mixed _ _ _ _ h
          · exact hu ri' p.2 h
        · exact hp h
        · exact hconflict h
      · dsimp only
        rw [Cache.set_ne _ _ hat]
        exact hu ri' col'
    · obtain rfl := Option.some.inj hstep
      exact hu

/-- A conflict is between kinds that flow into one column. -/
theorem headSteps_conflict {db : KindDb} {ri n : ℕ} {t : VarKinds} {st : Cache × Bool}
    {args : List (Typecheck.Token × ℕ)} (hn : n ≠ 0) (hmax : n ≤ maxArity)
    (hs : Seeded db st.1) {bound : Cache} (hle : st.1 ≤ bound)
    (hargs : ∀ p ∈ args, argKind t.kindOf (some p.1) ≠ .unknown →
      seedKind db ri p.2 1 ⊔ argKind t.kindOf (some p.1) ≤ bound ri p.2)
    (h : args.foldlM (headStep db ri n t) st = none) : ¬ Unmixed bound := by
  induction args generalizing st with
  | nil => cases h
  | cons p args ih =>
    rw [List.foldlM_cons] at h
    cases hstep : headStep db ri n t st p with
    | some st₁ =>
      rw [hstep] at h
      obtain ⟨hgrow, -, hbound⟩ := headStep_spec hn hmax hs hstep
      exact ih (hgrow.seeded hs) (hbound bound hle (hargs p (by simp)))
        (fun q hq => hargs q (by simp [hq])) h
    | none =>
      have hp := hargs p (by simp)
      unfold headStep at hstep
      dsimp only at hstep
      generalize argKind t.kindOf (some p.1) = contrib at hstep hp
      split at hstep
      · cases hstep
      rename_i hk
      split at hstep
      · rename_i hconflict
        have hcur : curKind db st.1 ri p.2 n = _ := curKind_eq hn hmax hs
        have hmix : curKind db st.1 ri p.2 n ⊔ contrib = .mixed :=
          sup_eq_mixed_iff.mpr (.inr (.inr hconflict))
        have hmixed : Kind.mixed ≤ bound ri p.2 := by
          rw [← hmix, hcur, sup_assoc]
          exact sup_le (hle ri p.2) (hp hk)
        refine fun hu => hu ri p.2 (le_antisymm ?_ hmixed)
        generalize bound ri p.2 = k
        cases k <;> rfl
      · split at hstep <;> cases hstep

theorem propagateRule_unmixed {db : KindDb} {r : Typecheck.Rule} (hfits : Fits r)
    {st st' : Cache × Bool} (hs : Seeded db st.1) (hu : Unmixed st.1)
    (hmix : Unmixed (rulePass db (relColKind db st.1) r)) (h : propagateRule db st r = some st') :
    Unmixed st'.1 := by
  unfold propagateRule at h
  cases htarget : headTarget db r with
  | none =>
    rw [htarget] at h
    obtain rfl := Option.some.inj h
    exact hu
  | some ri =>
    rw [htarget] at h
    obtain ⟨hn, hmax⟩ := headTarget_size htarget
    refine headSteps_unmixed hn hmax hs hu (fun p hp => ?_) h
    rw [argKind_eq_rulePass hfits htarget hp]
    exact hmix ri p.2

theorem propagateRule_conflict {db : KindDb} {old : ℕ → ℕ → Bool} {flow : Cache}
    {r : Typecheck.Rule} (hfits : Fits r) {st : Cache × Bool} (hw : Within db flow st.1)
    (hheard : Heard db old st.1 r) (hle : passOn db old st.1 r ≤ flow)
    (h : propagateRule db st r = none) : ¬ Unmixed flow := by
  unfold propagateRule at h
  cases htarget : headTarget db r with
  | none => rw [htarget] at h; cases h
  | some ri =>
    rw [htarget] at h
    obtain ⟨hn, hmax⟩ := headTarget_size htarget
    refine headSteps_conflict hn hmax hw.seeded hw.le (fun p hp hk => ?_) h
    rw [argKind_eq_rulePass hfits htarget hp, hheard] at hk ⊢
    refine le_trans (le_trans (le_of_eq ?_) le_sup_right) (hle ri p.2)
    unfold ruleGives
    rw [if_neg hk]
    rfl

/-! ## Runs -/

/-- Every rule is heard when its turn comes: below a flow that the rules add nothing to, and
with a property of the kinds that the run keeps. -/
structure Tracked (db : KindDb) (old : ℕ → ℕ → Bool) (rules : List Typecheck.Rule) (flow : Cache)
    (Q : Cache → Prop) : Prop where
  /-- The variables of each rule fit the table. -/
  fits : ∀ r ∈ rules, Fits r
  /-- The rules add nothing to the flow. -/
  closed : ∀ r ∈ rules, passOn db old flow r = flow
  /-- The run starts with the property. -/
  zero : Q .zero
  /-- A rule is heard after those before it. -/
  heard : ∀ pre r post, rules = pre ++ r :: post → ∀ cache, Within db flow cache → Q cache →
    pre.foldl (passOn db old) .zero ≤ cache → Heard db old cache r
  /-- A rule that meets no conflict keeps the property. -/
  keep : ∀ r ∈ rules, ∀ st st', Within db flow st.1 → Q st.1 → Heard db old st.1 r →
    propagateRule db st r = some st' → Q st'.1

namespace Tracked

variable {db : KindDb} {old : ℕ → ℕ → Bool} {rules : List Typecheck.Rule} {flow : Cache}
  {Q : Cache → Prop}

/-- **The rules of a list, one after another**: a conflict is in the flow, and without one
the kinds are those of a round along the list. -/
theorem round (h : Tracked db old rules flow Q) (post : List Typecheck.Rule) :
    ∀ (pre : List Typecheck.Rule) (st : Cache × Bool), rules = pre ++ post →
      Within db flow st.1 → Q st.1 → pre.foldl (passOn db old) .zero ≤ st.1 →
      (post.foldlM (propagateRule db) st).elim (¬ Unmixed flow) fun st' =>
        Grows db st st' ∧ Within db flow st'.1 ∧ Q st'.1 ∧
          st'.1 = post.foldl (passOn db old) st.1 := by
  induction post with
  | nil => exact fun pre st _ hw hq _ => ⟨Grows.refl db st, hw, hq, rfl⟩
  | cons r post ih =>
    intro pre st hsplit hw hq hpre
    have hr : r ∈ rules := by simp [hsplit]
    have hheard := h.heard pre r post hsplit st.1 hw hq hpre
    have hle : passOn db old st.1 r ≤ flow :=
      (passOn_mono db old r hw.le).trans (h.closed r hr).le
    rw [List.foldlM_cons]
    cases hstep : propagateRule db st r with
    | none => exact propagateRule_conflict (h.fits r hr) hw hheard hle hstep
    | some st₁ =>
      obtain ⟨hgrow, hnew⟩ := propagateRule_spec (h.fits r hr) hw.seeded hheard hstep
      have hpre₁ : (pre ++ [r]).foldl (passOn db old) .zero ≤ st₁.1 := by
        rw [List.foldl_append, hnew]
        exact passOn_mono db old r hpre
      have hrest := ih (pre ++ [r]) st₁ (by simp [hsplit])
        ⟨hnew ▸ hle, hgrow.seeded hw.seeded⟩ (h.keep r hr st st₁ hw hq hheard hstep) hpre₁
      change (post.foldlM (propagateRule db) st₁).elim _ _
      rw [List.foldl_cons, ← hnew]
      cases hrun : post.foldlM (propagateRule db) st₁ with
      | none =>
        rw [hrun] at hrest
        exact hrest
      | some st' =>
        rw [hrun] at hrest
        obtain ⟨hgrow', hw', hq', heq⟩ := hrest
        exact ⟨hgrow.trans hgrow', hw', hq', heq⟩

/-- **Rounds**: a conflict is in the flow, and without one the kinds are those of as many
rounds along the list. -/
theorem rounds (h : Tracked db old rules flow Q) (n : ℕ) :
    ∀ k, Within db flow (listKinds db old rules k) → Q (listKinds db old rules k) →
      (kindRounds db rules n (listKinds db old rules k)).elim (¬ Unmixed flow) fun cache =>
        Q cache ∧ cache = listKinds db old rules (k + n) := by
  induction n with
  | zero => exact fun k _ hq => ⟨hq, rfl⟩
  | succ n ih =>
    intro k hw hq
    have hone := h.round rules [] (listKinds db old rules k, false) rfl hw hq
      fun _ _ => unknown_le _
    unfold kindRounds kindRound
    cases hrun : rules.foldlM (propagateRule db) (listKinds db old rules k, false) with
    | none =>
      rw [hrun] at hone
      exact hone
    | some st' =>
      obtain ⟨cache, changed⟩ := st'
      rw [hrun] at hone
      obtain ⟨hgrow, hw', hq', heq⟩ := hone
      have hnext : cache = listKinds db old rules (k + 1) := heq
      subst hnext
      cases changed with
      | true =>
        have hrest := ih (k + 1) hw' hq'
        rwa [Nat.add_assoc, Nat.add_comm 1 n] at hrest
      | false =>
        -- a round that changes nothing is the last
        have hsame : listKinds db old rules (k + 1) = listKinds db old rules k :=
          (Prod.mk.inj (hgrow.flag rfl)).1
        refine ⟨hq', ?_⟩
        rw [hsame]
        exact (listKinds_add hsame (n + 1)).symm

/-- **A run of the propagation.** -/
theorem run (h : Tracked db old rules flow Q) :
    (propagateHeadKinds db rules).elim (¬ Unmixed flow) fun cache =>
      Q cache ∧ cache = listKinds db old rules 64 := by
  have hall := h.rounds 64 0 (Within.zero db flow) h.zero
  rwa [Nat.zero_add] at hall

end Tracked

/-! ## Rules that are heard -/

/-- Into a column of an empty relation that a rule reads no other kind flows than the recorded
one. -/
def RecordsFresh (db : KindDb) (rules : List Typecheck.Rule) (flow : Cache) : Prop :=
  ∀ r ∈ rules, ∀ a ∈ r.body, ∀ ri, ReadsRel db a ri → ∀ e, db.rels[ri]? = some e →
    e.variadic = false → db.declared e = none → e.empty = true →
    ∀ col d, e.colKind col = some d → flow ri col ≤ .ofRecord (some d)

/-- A kind below a recorded one is that kind. -/
theorem ofRecord_le_of_le {k : Kind} {d : Definite} (hk : k ≠ .unknown)
    (h : k ≤ .ofRecord (some d)) : Kind.ofRecord (some d) ≤ k := by
  revert h
  cases k <;> cases d <;> first | exact absurd rfl hk | decide

/-- A relation whose record is not stale is read as in the flow. -/
theorem relColKind_eq_flowRead {db : KindDb} {flow cache : Cache} (h : Within db flow cache) {ri : ℕ}
    (hfresh : ∀ e, db.rels[ri]? = some e → e.variadic = false → db.declared e = none →
      e.empty = true → ∀ col d, e.colKind col = some d → flow ri col ≤ .ofRecord (some d))
    (col n : ℕ) : relColKind db cache ri col n = flowRead db cache ri col n := by
  unfold relColKind flowRead readWithout
  split
  · rfl
  rename_i hguard
  cases hrel : db.rels[ri]? with
  | none => rfl
  | some e =>
    dsimp only
    cases hvar : e.variadic with
    | true => rfl
    | false =>
      simp only [Bool.false_eq_true, if_false, entryKind, noOld, Bool.and_false]
      cases hdecl : db.declared e with
      | some rd => rfl
      | none =>
        dsimp only
        by_cases hcell : cache ri col = .unknown
        · rw [if_neg (not_not.mpr hcell), hcell]
          exact (sup_eq_left.mpr (unknown_le _)).symm
        · rw [if_pos hcell]
          refine (sup_eq_right.mpr ?_).symm
          cases hempty : e.empty with
          | true =>
            cases hrec : e.colKind col with
            | none => exact unknown_le _
            | some d =>
              -- the kind that flows in is the recorded one
              have hle := (h.le ri col).trans (hfresh e hrel hvar hdecl hempty col d hrec)
              exact ofRecord_le_of_le hcell hle
          | false =>
            have hseed := h.seeded ri col hcell
            have hkind : seedKind db ri col 1 = .ofRecord (e.colKind col) := by
              have hg : ¬ (maxArity ≤ col ∨ maxArity < 1 ∨ 1 = 0 ∨ maxRels ≤ ri) := by
                have : ¬ maxArity < 1 := by decide
                tauto
              unfold seedKind KindDb.headEmpty relColKind
              rw [hrel, if_neg hg]
              simp [hvar, hempty, entryKind, hdecl, Cache.zero]
            rwa [hkind] at hseed

/-- Rules that read no stale record are heard. -/
theorem RecordsFresh.heard {db : KindDb} {rules : List Typecheck.Rule} {flow cache : Cache}
    (h : RecordsFresh db rules flow) {r : Typecheck.Rule} (hr : r ∈ rules)
    (hw : Within db flow cache) : Heard db noOld cache r :=
  rulePass_rel joinable_eq fun a ha ri hread col n =>
    relColKind_eq_flowRead hw (h r hr a ha ri hread) col n

/-- A rule is heard when it passes nothing mixed on in the flow. -/
theorem heard_of_unmixed {db : KindDb} {old : ℕ → ℕ → Bool} {cache : Cache} {r : Typecheck.Rule}
    (hold : ∀ a ∈ r.body, ∀ ri, ReadsRel db a ri → ∀ col, old ri col = true →
      cache ri col ≠ .unknown)
    (hmix : Unmixed (rulePass db (readWithout old db cache) r)) : Heard db old cache r := by
  intro ri col
  have hagree : Agree (rulePass db (relColKind db cache) r ri col)
      (rulePass db (readWithout old db cache) r ri col) :=
    rulePass_rel joinable_agree
      (fun a ha ri hread col n => relColKind_agree (hold a ha ri hread col) n) ri col
  exact hagree.resolve_left (hmix ri col)

/-! ## The contract -/

/-- The verdicts on a list of rules are those on every order of them. -/
structure KindOrderExact (db : KindDb) (rules : List Typecheck.Rule) : Prop where
  /-- The rounds do not run out before nothing changes. -/
  fixpoint : ∀ l, rules.Perm l → ∀ cache, propagateHeadKinds db l = some cache →
    kindRound db l cache = some (cache, false)
  /-- The settled kinds are the same. -/
  kinds : ∀ l, rules.Perm l → ∀ l', rules.Perm l' → ∀ cache cache',
    propagateHeadKinds db l = some cache → propagateHeadKinds db l' = some cache' → cache = cache'
  /-- So is the verdict. -/
  verdict : ∀ l, rules.Perm l → checkAllRuleConstKinds db l = checkAllRuleConstKinds db rules

/-- When the order of the rules does not matter. -/
structure OrderFree (db : KindDb) (rules : List Typecheck.Rule) : Prop where
  /-- The variables of each rule fit the table. -/
  fits : ∀ r ∈ rules, Fits r
  /-- No kind needs more than 64 rules to reach a column. -/
  short : flowStep db rules (settledKinds db rules) ≤ settledKinds db rules
  /-- No rule joins numbers and symbols into a head column; or no rule reads a stale record, and
  numbers and symbols meet in a rule for what flows. -/
  unmixed : (∀ r ∈ rules, NoMix db (settledKinds db rules) r) ∨
    (RecordsFresh db rules (settledKinds db rules) ∧
      ∃ r ∈ rules, Clashes db (relColKind db (settledKinds db rules)) r)

theorem OrderFree.seeded {db : KindDb} {rules : List Typecheck.Rule} (h : OrderFree db rules) :
    Seeded db (settledKinds db rules) :=
  (listKinds_eq_settled h.short).2 ▸ listKinds_seeded db noOld rules 64

theorem OrderFree.perm {db : KindDb} {rules l : List Typecheck.Rule} (h : OrderFree db rules)
    (hl : rules.Perm l) : OrderFree db l := by
  have hsettled : settledKinds db rules = settledKinds db l := flowKinds_perm db hl 64
  have hstep : flowStep db rules = flowStep db l := flowStep_perm db hl
  refine ⟨fun r hr => h.fits r (hl.mem_iff.mpr hr), ?_, ?_⟩
  · rw [← hsettled, ← hstep]
    exact h.short
  · rw [← hsettled]
    refine h.unmixed.imp (fun hall r hr => hall r (hl.mem_iff.mpr hr)) ?_
    rintro ⟨hfresh, r, hr, hclash⟩
    exact ⟨fun r' hr' => hfresh r' (hl.mem_iff.mpr hr'), r, hl.mem_iff.mp hr, hclash⟩

/-- Rules that mix nothing leave nothing mixed behind. -/
theorem OrderFree.tracked_of_noMix {db : KindDb} {rules : List Typecheck.Rule}
    (h : OrderFree db rules) (hmix : ∀ r ∈ rules, NoMix db (settledKinds db rules) r) :
    Tracked db noOld rules (settledKinds db rules) Unmixed where
  fits := h.fits
  closed := (listKinds_eq_settled h.short).1
  zero _ _ := by simp [Cache.zero]
  heard pre r post hsplit cache hw hu _ := by
    have hr : r ∈ rules := by simp [hsplit]
    refine heard_of_unmixed (fun a _ ri _ col hold => ?_) (hmix r hr cache hw.le hu)
    cases hold
  keep r hr st st' hw hu hheard hstep := by
    refine propagateRule_unmixed (h.fits r hr) hw.seeded hu (fun ri col => ?_) hstep
    rw [hheard ri col]
    exact hmix r hr st.1 hw.le hu ri col

theorem OrderFree.tracked_of_fresh {db : KindDb} {rules : List Typecheck.Rule}
    (h : OrderFree db rules) (hfresh : RecordsFresh db rules (settledKinds db rules)) :
    Tracked db noOld rules (settledKinds db rules) fun _ => True where
  fits := h.fits
  closed := (listKinds_eq_settled h.short).1
  zero := trivial
  heard pre r post hsplit cache hw _ _ := hfresh.heard (by simp [hsplit]) hw
  keep _ _ _ _ _ _ _ _ := trivial

/-- **What is settled is what flows**, and at it every rule is heard. -/
theorem OrderFree.settled {db : KindDb} {rules : List Typecheck.Rule} (h : OrderFree db rules)
    {cache : Cache} (hrun : propagateHeadKinds db rules = some cache) :
    cache = settledKinds db rules ∧ ∀ r ∈ rules, Heard db noOld (settledKinds db rules) r := by
  obtain ⟨hclosed, hlist⟩ := listKinds_eq_settled h.short
  have htracked : ∃ Q, Tracked db noOld rules (settledKinds db rules) Q := by
    rcases h.unmixed with hmix | ⟨hfresh, -⟩
    · exact ⟨_, h.tracked_of_noMix hmix⟩
    · exact ⟨_, h.tracked_of_fresh hfresh⟩
  obtain ⟨Q, hQ⟩ := htracked
  have hend := hQ.run
  rw [hrun] at hend
  obtain ⟨hq, heq⟩ := hend
  rw [hlist] at heq
  subst heq
  refine ⟨rfl, fun r hr => ?_⟩
  obtain ⟨pre, post, hsplit⟩ := List.append_of_mem hr
  refine hQ.heard pre r post hsplit _ ⟨le_rfl, h.seeded⟩ hq ?_
  calc pre.foldl (passOn db noOld) .zero
      ≤ pre.foldl (passOn db noOld) (settledKinds db rules) :=
        foldl_passOn_mono db noOld pre fun _ _ => unknown_le _
    _ = settledKinds db rules :=
        foldl_passOn_of_closed fun r' hr' => hclosed r' (by simp [hsplit, hr'])

/-- A run without mixing rules meets a conflict if and only if both kinds flow into some
column. -/
theorem OrderFree.conflict_iff {db : KindDb} {rules : List Typecheck.Rule} (h : OrderFree db rules)
    (hmix : ∀ r ∈ rules, NoMix db (settledKinds db rules) r) :
    propagateHeadKinds db rules = none ↔ ¬ Unmixed (settledKinds db rules) := by
  have hend := (h.tracked_of_noMix hmix).run
  cases hrun : propagateHeadKinds db rules with
  | none =>
    rw [hrun] at hend
    exact ⟨fun _ => hend, fun _ => rfl⟩
  | some cache =>
    rw [hrun] at hend
    rw [(h.settled hrun).1] at hend
    exact ⟨fun hnone => (by cases hnone), fun hu => absurd hend.1 hu⟩

/-- The verdict on rules that settle. -/
def settledVerdict (db : KindDb) (rules : List Typecheck.Rule) : Bool :=
  rules.all (checkRuleVarKinds db (settledKinds db rules)) &&
    rules.all (checkRuleConsts db (settledKinds db rules))

theorem OrderFree.verdict {db : KindDb} {rules : List Typecheck.Rule} (h : OrderFree db rules) :
    checkAllRuleConstKinds db rules = true ↔ rules = [] ∨
      (propagateHeadKinds db rules ≠ none ∧ settledVerdict db rules = true) := by
  unfold checkAllRuleConstKinds
  by_cases hnil : rules = []
  · simp [hnil]
  · rw [if_neg hnil]
    cases hrun : propagateHeadKinds db rules with
    | none => simp [hnil]
    | some cache =>
      obtain ⟨rfl, -⟩ := h.settled hrun
      simp [hnil, settledVerdict]

/-- Rules are refused when numbers and symbols meet in one of them. -/
theorem settledVerdict_eq_false {db : KindDb} {rules : List Typecheck.Rule}
    (hfits : ∀ r ∈ rules, Fits r)
    (h : ∃ r ∈ rules, Clashes db (relColKind db (settledKinds db rules)) r) :
    settledVerdict db rules = false := by
  obtain ⟨r, hr, hclash⟩ := h
  have hcheck := checkRule_of_clash (hfits r hr) hclash
  rw [Bool.eq_false_iff]
  intro hverdict
  unfold settledVerdict at hverdict
  rw [Bool.and_eq_true, List.all_eq_true, List.all_eq_true] at hverdict
  unfold checkRule at hcheck
  rw [hverdict.1 r hr, hverdict.2 r hr] at hcheck
  cases hcheck

theorem settledVerdict_perm {db : KindDb} {rules l : List Typecheck.Rule} (hl : rules.Perm l) :
    settledVerdict db l = true ↔ settledVerdict db rules = true := by
  unfold settledVerdict settledKinds
  rw [flowKinds_perm db hl]
  simp only [Bool.and_eq_true, List.all_eq_true]
  exact and_congr (forall_congr' fun r => by rw [hl.mem_iff])
    (forall_congr' fun r => by rw [hl.mem_iff])

theorem kindRound_settled {db : KindDb} {rules : List Typecheck.Rule} {cache : Cache}
    (hfits : ∀ r ∈ rules, Fits r) (hs : Seeded db cache)
    (hle : ∀ r ∈ rules, ∀ ri col, rulePass db (relColKind db cache) r ri col ≤ cache ri col)
    (flag : Bool) : rules.foldlM (propagateRule db) (cache, flag) = some (cache, flag) := by
  induction rules with
  | nil => rfl
  | cons r rules ih =>
    rw [List.foldlM_cons, propagateRule_settled (hfits r (by simp)) hs (hle r (by simp)) flag]
    exact ih (fun r' hr' => hfits r' (by simp [hr'])) fun r' hr' => hle r' (by simp [hr'])

/-- `p(X)`. -/
def unaryAtom (p x : String) : Typecheck.Atom :=
  { pred := p, pos := ⟨0, 0⟩, args := [.var ⟨0, 0⟩ x] }

/-- `p(X) :- q(X), …`. -/
def unaryRule (p : String) (qs : List String) : Typecheck.Rule where
  head := unaryAtom p "X"
  body := qs.map fun q => unaryAtom q "X"

/-- Unary relations of these names, with the kinds recorded for them; the last says whether
they are empty. -/
def unaryDb (rels : List (String × Option Definite × Bool)) : KindDb where
  rels := rels.map fun p => { name := p.1, arity := 1, colKind := fun _ => p.2.1, empty := p.2.2 }

theorem fits_unaryRule (p : String) (qs : List String) : Fits (unaryRule p qs) := by
  have hsub : (bodyVars (unaryRule p qs).body).toFinset ⊆ {"X"} := by
    intro x hx
    obtain ⟨a, ha, hxa⟩ := List.mem_flatMap.mp (List.mem_toFinset.mp hx)
    obtain ⟨n, -, rfl⟩ := List.mem_map.mp ha
    simpa [unaryAtom, varName] using hxa
  exact (Finset.card_le_card hsub).trans (by decide)

/-- A rule that copies a relation passes its kind on. -/
theorem rulePass_unaryRule {db : KindDb} {p q : String} {ip iq : ℕ}
    (hp : headTarget db (unaryRule p [q]) = some ip)
    (hq : relationalAtom db (unaryAtom q "X") = some iq) (cols : ColKinds) (ri col : ℕ) :
    rulePass db cols (unaryRule p [q]) ri col =
      if ri = ip ∧ col = 0 then cols iq 0 1 else .unknown := by
  unfold rulePass
  rw [hp]
  by_cases hri : ri = ip
  · subst hri
    rw [if_pos rfl]
    cases col with
    | zero =>
      have hresult : ∀ f, resultKind db cols f (unaryAtom q "X") = none := by
        intro f
        have hbuiltin : isBuiltinPred (unaryAtom q "X") = false := by
          unfold relationalAtom at hq
          split at hq
          · cases hq
          · rename_i hguard
            simp only [Bool.or_eq_true, not_or, Bool.not_eq_true] at hguard
            exact hguard.1.1.2
        unfold isBuiltinPred at hbuiltin
        simp only [Bool.or_eq_false_iff] at hbuiltin
        obtain ⟨⟨⟨⟨⟨⟨⟨-, -⟩, harith⟩, hstr⟩, -⟩, -⟩, -⟩, hrange⟩ := hbuiltin
        unfold resultKind
        rw [harith, hstr, hrange]
        rfl
      have hatom : atomKinds db cols (unaryAtom q "X") = [("X", cols iq 0 1)] := by
        unfold atomKinds
        rw [hq]
        rfl
      have hbody : bodyFlow db cols (unaryRule p [q]).body "X" = cols iq 0 1 := by
        unfold bodyFlow unaryRule resultJoin atomJoin
        simp only [List.map_cons, List.map_nil, List.foldl_cons, List.foldl_nil, hresult, hatom,
          Option.elim_none, joinAt, if_true]
        exact sup_eq_right.mpr (unknown_le _)
      rw [if_pos ⟨rfl, rfl⟩]
      exact hbody
    | succ col => simp [unaryRule, unaryAtom, argKind, varName]
  · rw [if_neg (by simpa using Ne.symm hri), if_neg (by tauto)]

theorem ruleGives_unaryRule {db : KindDb} {p q : String} {ip iq : ℕ}
    (hp : headTarget db (unaryRule p [q]) = some ip)
    (hq : relationalAtom db (unaryAtom q "X") = some iq) (hseed : seedKind db ip 0 1 = .unknown)
    (cols : ColKinds) (ri col : ℕ) :
    ruleGives db cols (unaryRule p [q]) ri col =
      if ri = ip ∧ col = 0 then cols iq 0 1 else .unknown := by
  unfold ruleGives
  rw [rulePass_unaryRule hp hq]
  by_cases hat : ri = ip ∧ col = 0
  · obtain ⟨rfl, rfl⟩ := hat
    simp only [and_self, if_true, hseed]
    split
    · next hk => exact hk.symm
    · rfl
  · simp [hat]

/-! ### Rules in any order -/

/-- Numbers in `e`, symbols in `f`; `p` is empty and once held symbols, `q` and `s` are
new. -/
def orderDb : KindDb := unaryDb [("e", some .int, false), ("f", some .sym, false),
  ("p", some .sym, true), ("q", none, true), ("s", none, true)]

/-- `s(X) :- q(X).  q(X) :- f(X).  p(X) :- e(X).` -/
def orderRules : List Typecheck.Rule :=
  [unaryRule "s" ["q"], unaryRule "q" ["f"], unaryRule "p" ["e"]]

/-- These kinds in `p`, `q` and `s`. -/
def orderKinds (p q s : Kind) : Cache := fun ri col =>
  if ri = 4 ∧ col = 0 then s else if ri = 3 ∧ col = 0 then q
  else if ri = 2 ∧ col = 0 then p else .unknown

theorem flowStep_orderRules {cache : Cache} (he : cache 0 0 = .unknown) (hf : cache 1 0 = .unknown) :
    flowStep orderDb orderRules cache = orderKinds .int .sym (cache 3 0) := by
  have hreade : flowRead orderDb cache 0 0 1 = .int := by
    have : flowRead orderDb cache 0 0 1 = kindJoin .int (cache 0 0) := rfl
    rw [this, he]
    rfl
  have hreadf : flowRead orderDb cache 1 0 1 = .sym := by
    have : flowRead orderDb cache 1 0 1 = kindJoin .sym (cache 1 0) := rfl
    rw [this, hf]
    rfl
  have hreadq : flowRead orderDb cache 3 0 1 = cache 3 0 := rfl
  funext ri col
  unfold flowStep orderRules orderKinds
  simp only [List.foldr_cons, List.foldr_nil,
    @ruleGives_unaryRule orderDb "s" "q" 4 3 rfl rfl rfl,
    @ruleGives_unaryRule orderDb "q" "f" 3 1 rfl rfl rfl,
    @ruleGives_unaryRule orderDb "p" "e" 2 0 rfl rfl rfl, hreade, hreadf, hreadq]
  by_cases hs : ri = 4 ∧ col = 0
  · obtain ⟨rfl, rfl⟩ := hs
    cases cache 3 0 <;> simp [kindJoin]
  by_cases hq : ri = 3 ∧ col = 0
  · obtain ⟨rfl, rfl⟩ := hq
    simp [kindJoin]
  by_cases hp : ri = 2 ∧ col = 0
  · obtain ⟨rfl, rfl⟩ := hp
    simp [kindJoin]
  · simp [hs, hq, hp, kindJoin]

theorem settledKinds_orderRules : settledKinds orderDb orderRules = orderKinds .int .sym .sym := by
  have hall : ∀ n, flowKinds orderDb orderRules (n + 2) = orderKinds .int .sym .sym := by
    intro n
    induction n with
    | zero =>
      unfold flowKinds
      rw [show flowKinds orderDb orderRules 1 = orderKinds .int .sym .unknown from
        flowStep_orderRules rfl rfl]
      exact flowStep_orderRules rfl rfl
    | succ n ih =>
      rw [flowKinds, ih]
      exact flowStep_orderRules rfl rfl
  exact hall 62

/-- Numbers in `e`, symbols in `f`, nothing in `p`. -/
def sampleDb : KindDb :=
  unaryDb [("e", some .int, false), ("f", some .sym, false), ("p", none, true)]

/-- `p(X) :- e(X).` -/
def numbersRule : Typecheck.Rule := unaryRule "p" ["e"]

/-- `p(X) :- p(X), f(X).` -/
def joinRule : Typecheck.Rule := unaryRule "p" ["p", "f"]

end DatalogDafsa.Kinds
