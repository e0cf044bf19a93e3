import Mathlib

/-!
# Sweeping operators over an acyclic program

A rule is seen from outside as an operator on the contents of relations: it reads
some relations monotonically, others *strictly* (any change there may retract an
output), and adds its output to its head.  A program that never retracts is swept
in a fixed order until nothing changes.

For an acyclic program the intended contents are unique.  This file shows when the
sweeps compute them: if the rows of every strict read have a derivation *in order*, by
rules at ascending places before that of the reading rule, then no output is ever
premature, and as many sweeps as there are rules, and one, are enough.  That is so
whatever the facts when every strict read is *settled* at its place: all rules for the
relation come earlier with settled reads of their own.

## Main definitions

* `Oper`, `Oper.step`, `pass` — an operator, one firing, one sweep.
* `IsModel`, `PerfectModel` — the intended contents, as a fixed point and as the
  least closed contents level by level.
* `perfect`, `Stratified.perfectModel` — a stratified program has them.
* `PerfectModel.append`, `IsModel.append` — the models of two layers.
* `Dep`, `exists_rank`, `exists_model` — acyclic programs have a rank bounded by their
  length, and a model.
* `Settled`, `Scheduled` — orders that are safe whatever the facts.
* `Early`, `InOrder`, `SweepInv` — when an order is safe, and its invariant.
* `inOrder_iff` — else the first sweep reads an incomplete relation strictly.
* `SweepInv.pass`, `eq_of_stable`, `Upto.pass` — the sweeps reach the model.
-/

namespace Operators

variable {R T : Type*}

/-- A rule as an operator on contents. -/
structure Oper (R T : Type*) where
  /-- The relation it adds to. -/
  head : R
  /-- Relations read monotonically. -/
  pos : Set R
  /-- Relations read strictly. -/
  strict : Set R
  /-- What it adds. -/
  out : (R → Set T) → Set T
  /-- More in the monotone reads and the same in the strict ones gives more. -/
  mono : ∀ V V' : R → Set T, (∀ s ∈ pos, V s ⊆ V' s) → (∀ s ∈ strict, V s = V' s) → out V ⊆ out V'

namespace Oper

/-- All relations an operator reads. -/
def reads (r : Oper R T) : Set R := r.pos ∪ r.strict

theorem out_congr (r : Oper R T) {V V' : R → Set T} (h : ∀ s ∈ r.reads, V s = V' s) :
    r.out V = r.out V' :=
  (r.mono V V' (fun s hs => (h s (.inl hs)).le) fun s hs => h s (.inr hs)).antisymm
    (r.mono V' V (fun s hs => (h s (.inl hs)).ge) fun s hs => (h s (.inr hs)).symm)

/-- One firing. -/
def step (r : Oper R T) (V : R → Set T) (s : R) : Set T := V s ∪ {t | s = r.head ∧ t ∈ r.out V}

theorem le_step (r : Oper R T) (V : R → Set T) (s : R) : V s ⊆ r.step V s :=
  Set.subset_union_left

theorem out_subset_step (r : Oper R T) (V : R → Set T) : r.out V ⊆ r.step V r.head :=
  fun _ ht => .inr ⟨rfl, ht⟩

end Oper

/-- One sweep. -/
def pass (rs : List (Oper R T)) (V : R → Set T) : R → Set T := rs.foldl (fun V r => r.step V) V

theorem le_pass (rs : List (Oper R T)) (V : R → Set T) (s : R) : V s ⊆ pass rs V s := by
  induction rs generalizing V with
  | nil => exact subset_rfl
  | cons r rs ih => exact (r.le_step V s).trans (ih (r.step V))

theorem pass_take_succ {rs : List (Oper R T)} {i : ℕ} {r : Oper R T} (hr : rs[i]? = some r)
    (V : R → Set T) : pass (rs.take (i + 1)) V = r.step (pass (rs.take i) V) := by
  rw [pass, List.take_add_one, hr, List.foldl_append]
  rfl

/-! ## Intended contents -/

/-- Contents that hold the facts and what the rules derive from them, and no more. -/
def IsModel (rules : List (Oper R T)) (B M : R → Set T) : Prop :=
  ∀ s, M s = B s ∪ {t | ∃ r ∈ rules, r.head = s ∧ t ∈ r.out M}

/-- The perfect model along a level mapping: level by level, the least contents
that hold the facts and are closed under the rules of the level. -/
structure PerfectModel (rules : List (Oper R T)) (lv : R → ℕ) (B M : R → Set T) : Prop where
  /-- It holds the facts. -/
  base : ∀ s, B s ⊆ M s
  /-- It is closed under the rules. -/
  closed : ∀ r ∈ rules, r.out M ⊆ M r.head
  /-- It is least on each level, given the levels below. -/
  least : ∀ k (N : R → Set T), (∀ s, lv s < k → N s = M s) → (∀ s, B s ⊆ N s) →
    (∀ r ∈ rules, lv r.head = k → r.out N ⊆ N r.head) → ∀ s, lv s = k → M s ⊆ N s

/-- A level mapping under which strict reads come from lower levels. -/
def Stratified (rules : List (Oper R T)) (lv : R → ℕ) : Prop :=
  ∀ r ∈ rules, (∀ s ∈ r.pos, lv s ≤ lv r.head) ∧ ∀ s ∈ r.strict, lv s < lv r.head

theorem PerfectModel.unique {rules : List (Oper R T)} {lv : R → ℕ} {B M M' : R → Set T}
    (h : PerfectModel rules lv B M) (h' : PerfectModel rules lv B M') : M = M' := by
  have key : ∀ k s, lv s = k → M s = M' s := by
    intro k
    induction k using Nat.strong_induction_on with
    | _ k ih =>
      intro s hs
      have hbelow : ∀ s, lv s < k → M s = M' s := fun s hlt => ih _ hlt s rfl
      refine Set.Subset.antisymm ?_ ?_
      · exact h.least k M' (fun s hlt => (hbelow s hlt).symm) h'.base
          (fun r hr _ => h'.closed r hr) s hs
      · exact h'.least k M hbelow h.base (fun r hr _ => h.closed r hr) s hs
  funext s
  exact key _ s rfl

/-- On one level, starting from more facts that hold anyway changes nothing. -/
theorem PerfectModel.eq_of_between {rules : List (Oper R T)} {B B' M M' : R → Set T}
    (h : PerfectModel rules (fun _ => 0) B M) (h' : PerfectModel rules (fun _ => 0) B' M')
    (hle : ∀ s, B s ⊆ B' s) (hM : ∀ s, B' s ⊆ M s) : M = M' := by
  funext s
  refine Set.Subset.antisymm ?_ ?_
  · exact h.least 0 M' (fun _ hlt => absurd hlt (Nat.not_lt_zero _))
      (fun s => (hle s).trans (h'.base s)) (fun r hr _ => h'.closed r hr) s rfl
  · exact h'.least 0 M (fun _ hlt => absurd hlt (Nat.not_lt_zero _)) hM
      (fun r hr _ => h.closed r hr) s rfl

/-! ## The perfect model -/

section Perfect

variable {rules : List (Oper R T)} {lv : R → ℕ} {B : R → Set T}

/-- What a level may hold, when `V` are the contents of the levels below. -/
structure Admits (rules : List (Oper R T)) (lv : R → ℕ) (B V : R → Set T) (k : ℕ)
    (N : R → Set T) : Prop where
  /-- The levels below are as they are. -/
  below : ∀ s, lv s < k → N s = V s
  /-- The facts are there. -/
  base : ∀ s, B s ⊆ N s
  /-- The rules of the level add nothing. -/
  closed : ∀ r ∈ rules, lv r.head = k → r.out N ⊆ N r.head

theorem Admits.congr {V V' N : R → Set T} {k : ℕ} (h : Admits rules lv B V k N)
    (hV : ∀ s, lv s < k → V s = V' s) : Admits rules lv B V' k N :=
  ⟨fun s hs => (h.below s hs).trans (hV s hs), h.base, h.closed⟩

/-- The levels below `k`, each with the least contents it may hold. -/
noncomputable def upTo (rules : List (Oper R T)) (lv : R → ℕ) (B : R → Set T) : ℕ → R → Set T
  | 0 => B
  | k + 1 => fun s =>
    if lv s = k then {t | ∀ N, Admits rules lv B (upTo rules lv B k) k N → t ∈ N s}
    else upTo rules lv B k s

theorem upTo_succ (k : ℕ) (s : R) : upTo rules lv B (k + 1) s =
    if lv s = k then {t | ∀ N, Admits rules lv B (upTo rules lv B k) k N → t ∈ N s}
    else upTo rules lv B k s := rfl

/-- The perfect model, level by level. -/
noncomputable def perfect (rules : List (Oper R T)) (lv : R → ℕ) (B : R → Set T) (s : R) : Set T :=
  upTo rules lv B (lv s + 1) s

theorem upTo_of_lt {k : ℕ} {s : R} (h : lv s < k) :
    upTo rules lv B k s = perfect rules lv B s := by
  induction k with
  | zero => exact absurd h (Nat.not_lt_zero _)
  | succ k ih =>
    rcases Nat.lt_succ_iff_lt_or_eq.mp h with hlt | rfl
    · rw [upTo_succ, if_neg hlt.ne, ih hlt]
    · rfl

theorem mem_perfect {s : R} {t : T} : t ∈ perfect rules lv B s ↔
    ∀ N, Admits rules lv B (perfect rules lv B) (lv s) N → t ∈ N s := by
  have hcongr : ∀ N, Admits rules lv B (upTo rules lv B (lv s)) (lv s) N ↔
      Admits rules lv B (perfect rules lv B) (lv s) N := fun N =>
    ⟨fun h => h.congr fun s' hs' => upTo_of_lt hs', fun h => h.congr fun s' hs' => (upTo_of_lt hs').symm⟩
  rw [perfect, upTo_succ, if_pos rfl]
  exact forall_congr' fun N => by rw [hcongr N]

/-- **A stratified program has a perfect model.** -/
theorem Stratified.perfectModel (hlv : Stratified rules lv) :
    PerfectModel rules lv B (perfect rules lv B) where
  base s t ht := mem_perfect.mpr fun N hN => hN.base s ht
  closed r hr t ht := by
    refine mem_perfect.mpr fun N hN => hN.closed r hr rfl (r.mono _ N ?_ ?_ ht)
    · intro s hs
      rcases ((hlv r hr).1 s hs).lt_or_eq with hlt | heq
      · exact (hN.below s hlt).ge
      · rw [← heq] at hN
        exact fun t' ht' => mem_perfect.mp ht' N hN
    · exact fun s hs => (hN.below s ((hlv r hr).2 s hs)).symm
  least k N hbelow hB hclosed s hs t ht := by
    subst hs
    exact mem_perfect.mp ht N ⟨hbelow, hB, hclosed⟩

end Perfect

/-! ## Layers -/

section Layers

variable {rules lower upper : List (Oper R T)} {lv : R → ℕ} {B V M : R → Set T}

/-- **Layer by layer.**  When no lower rule reads or derives what the upper rules derive,
the perfect model of the upper rules over that of the lower ones is perfect for both. -/
theorem PerfectModel.append (h₁ : PerfectModel lower lv B V) (h₂ : PerfectModel upper lv V M)
    (hlv : Stratified rules lv) (hrules : ∀ r, r ∈ rules ↔ r ∈ lower ∨ r ∈ upper)
    (hlow : ∀ r ∈ lower, ∀ r' ∈ upper, r.head ≠ r'.head ∧ r'.head ∉ r.reads)
    (hB : ∀ r ∈ upper, V r.head = B r.head) (hV : ∀ s, (∀ r ∈ upper, r.head ≠ s) → M s = V s) :
    PerfectModel rules lv B M where
  base s := (h₁.base s).trans (h₂.base s)
  closed r hr := by
    rcases (hrules r).mp hr with hr | hr
    · rw [r.out_congr fun s hs => hV s fun r' hr' heq => (hlow r hr r' hr').2 (heq ▸ hs)]
      exact (h₁.closed r hr).trans (h₂.base r.head)
    · exact h₂.closed r hr
  least k N hbelow hNB hclosed := by
    classical
    -- the lower layer: contents that agree with `N` off the upper heads
    have hlower : ∀ s, lv s = k → (∀ r ∈ upper, r.head ≠ s) → V s ⊆ N s := by
      intro s hs hno
      set N' : R → Set T := fun s => if ∃ r ∈ upper, r.head = s then V s else N s with hN'
      have hoff : ∀ s, (∀ r ∈ upper, r.head ≠ s) → N' s = N s := by
        intro s hs
        simp only [hN', if_neg (show ¬ ∃ r ∈ upper, r.head = s by push Not; exact hs)]
      have hon : ∀ s, (∃ r ∈ upper, r.head = s) → N' s = V s := fun s hs => if_pos hs
      rw [← hoff s hno]
      refine h₁.least k N' (fun s' hs' => ?_) (fun s' => ?_) (fun r hr hk => ?_) s hs
      · by_cases hup : ∃ r ∈ upper, r.head = s'
        · exact hon s' hup
        · push Not at hup
          rw [hoff s' hup, hbelow s' hs', hV s' hup]
      · by_cases hup : ∃ r ∈ upper, r.head = s'
        · rw [hon s' hup]
          exact h₁.base s'
        · push Not at hup
          rw [hoff s' hup]
          exact hNB s'
      · rw [hoff _ fun r' hr' => (hlow r hr r' hr').1.symm,
          r.out_congr fun s hs => hoff s fun r' hr' heq => (hlow r hr r' hr').2 (heq ▸ hs)]
        exact hclosed r ((hrules r).mpr (.inl hr)) hk
    -- the upper layer: contents that hold the lower layer above the level
    have hle : ∀ s, lv s ≤ k → V s ⊆ N s := by
      intro s hs
      rcases hs.lt_or_eq with hlt | heq
      · rw [hbelow s hlt]
        exact h₂.base s
      · by_cases hup : ∃ r ∈ upper, r.head = s
        · obtain ⟨r, hr, rfl⟩ := hup
          rw [hB r hr]
          exact hNB r.head
        · push Not at hup
          exact hlower s heq hup
    intro s hs
    set N' : R → Set T := fun s => if lv s ≤ k then N s else V s with hN'
    have hupto : ∀ s, lv s ≤ k → N' s = N s := fun s hs => if_pos hs
    rw [← hupto s hs.le]
    refine h₂.least k N' (fun s' hs' => ?_) (fun s' => ?_) (fun r hr hk => ?_) s hs
    · rw [hupto s' hs'.le, hbelow s' hs']
    · by_cases hs' : lv s' ≤ k
      · rw [hupto s' hs']
        exact hle s' hs'
      · rw [hN']
        simp only [if_neg hs', subset_rfl]
    · have hin := (hrules r).mpr (.inr hr)
      rw [hupto _ hk.le, r.out_congr fun s hs => hupto s ?_]
      · exact hclosed r hin hk
      · rcases hs with hs | hs
        · exact ((hlv r hin).1 s hs).trans hk.le
        · exact ((hlv r hin).2 s hs).le.trans hk.le

/-- **Layer by layer, for models.**  The model of the upper rules over that of the lower
ones is a model of both, when no lower rule reads what the upper rules derive. -/
theorem IsModel.append (h₁ : IsModel lower B V) (h₂ : IsModel upper V M)
    (hrules : ∀ r, r ∈ rules ↔ r ∈ lower ∨ r ∈ upper)
    (hlow : ∀ r ∈ lower, ∀ r' ∈ upper, r'.head ∉ r.reads) : IsModel rules B M := by
  have hoff : ∀ s, (∀ r ∈ upper, r.head ≠ s) → M s = V s := by
    intro s hs
    rw [h₂ s]
    refine Set.union_eq_self_of_subset_right ?_
    rintro t ⟨r, hr, heq, -⟩
    exact absurd heq (hs r hr)
  have hsame : ∀ r ∈ lower, r.out V = r.out M := by
    intro r hr
    refine r.out_congr fun s hs => (hoff s ?_).symm
    intro r' hr' heq
    exact hlow r hr r' hr' (heq ▸ hs)
  intro s
  ext t
  rw [h₂ s, h₁ s]
  constructor
  · rintro ((ht | ⟨r, hr, heq, ht⟩) | ⟨r, hr, heq, ht⟩)
    · exact .inl ht
    · exact .inr ⟨r, (hrules r).mpr (.inl hr), heq, hsame r hr ▸ ht⟩
    · exact .inr ⟨r, (hrules r).mpr (.inr hr), heq, ht⟩
  · rintro (ht | ⟨r, hr, heq, ht⟩)
    · exact .inl (.inl ht)
    · rcases (hrules r).mp hr with hr | hr
      · exact .inl (.inr ⟨r, hr, heq, (hsame r hr).symm ▸ ht⟩)
      · exact .inr ⟨r, hr, heq, ht⟩

end Layers

/-! ## Acyclic programs -/

/-- `s` is read by a rule for `s'`. -/
def Dep (rules : List (Oper R T)) (s s' : R) : Prop := ∃ r ∈ rules, r.head = s' ∧ s ∈ r.reads

/-- A rank that grows along the reads. -/
def Ranked (rules : List (Oper R T)) (rk : R → ℕ) : Prop :=
  ∀ r ∈ rules, ∀ s ∈ r.reads, rk s < rk r.head

/-- **An acyclic program has a rank no larger than its number of rules**: count the
heads a relation depends on. -/
theorem exists_rank {rules : List (Oper R T)}
    (hacyc : ∀ s, ¬ Relation.TransGen (Dep rules) s s) :
    ∃ rk : R → ℕ, Ranked rules rk ∧ ∀ s, rk s ≤ rules.length := by
  classical
  refine ⟨fun s => ((rules.map Oper.head).toFinset.filter fun h =>
    Relation.ReflTransGen (Dep rules) h s).card, fun r hr s hs => ?_, fun s => ?_⟩
  · have hdep : Dep rules s r.head := ⟨r, hr, rfl, hs⟩
    refine Finset.card_lt_card ⟨fun h hh => ?_, fun hsub => ?_⟩
    · rw [Finset.mem_filter] at hh ⊢
      exact ⟨hh.1, hh.2.tail hdep⟩
    · have hself : r.head ∈ (rules.map Oper.head).toFinset.filter fun h =>
          Relation.ReflTransGen (Dep rules) h r.head := by
        rw [Finset.mem_filter]
        exact ⟨List.mem_toFinset.mpr (List.mem_map_of_mem hr), Relation.ReflTransGen.refl⟩
      have hback := (Finset.mem_filter.mp (hsub hself)).2
      exact hacyc s (Relation.TransGen.head' hdep hback)
  · calc _ ≤ (rules.map Oper.head).toFinset.card := Finset.card_filter_le _ _
      _ ≤ (rules.map Oper.head).length := List.toFinset_card_le _
      _ = rules.length := List.length_map _

/-- The facts and what the rules derive from given contents. -/
def derive (rules : List (Oper R T)) (B V : R → Set T) (s : R) : Set T :=
  B s ∪ {t | ∃ r ∈ rules, r.head = s ∧ t ∈ r.out V}

theorem derive_congr {rules : List (Oper R T)} {rk : R → ℕ} (hrk : Ranked rules rk)
    {B V V' : R → Set T} {s : R} (h : ∀ s', rk s' < rk s → V s' = V' s') :
    derive rules B V s = derive rules B V' s := by
  ext t
  refine or_congr_right (exists_congr fun r => and_congr_right fun hr => and_congr_right ?_)
  rintro rfl
  rw [r.out_congr fun s' hs' => h s' (hrk r hr s' hs')]

/-- **A ranked program has a model**: derive once more than the rank of each relation. -/
theorem exists_model {rules : List (Oper R T)} {rk : R → ℕ} (hrk : Ranked rules rk)
    (B : R → Set T) : ∃ M, IsModel rules B M := by
  have hstable : ∀ n s, rk s < n → ∀ m, n ≤ m →
      (derive rules B)^[m] B s = (derive rules B)^[n] B s := by
    intro n
    induction n with
    | zero => intro s hs; exact absurd hs (Nat.not_lt_zero _)
    | succ n ih =>
      intro s hs m hm
      obtain ⟨m, rfl⟩ : ∃ k, m = k + 1 := ⟨m - 1, by omega⟩
      rw [Function.iterate_succ_apply', Function.iterate_succ_apply']
      exact derive_congr hrk fun s' hs' => ih s' (by omega) m (by omega)
  refine ⟨fun s => (derive rules B)^[rk s + 1] B s, fun s => ?_⟩
  show (derive rules B)^[rk s + 1] B s = derive rules B _ s
  rw [Function.iterate_succ_apply']
  refine derive_congr hrk fun s' hs' => ?_
  exact hstable (rk s' + 1) s' (by omega) (rk s) hs'

/-- Along a rank, closed contents between the facts and a model are the model. -/
theorem eq_of_closed {rules : List (Oper R T)} {rk : R → ℕ} (hrk : Ranked rules rk)
    {B M V : R → Set T} (hM : IsModel rules B M) (hB : ∀ s, B s ⊆ V s) (hV : ∀ s, V s ⊆ M s)
    (hclosed : ∀ r ∈ rules, r.out V ⊆ V r.head) : V = M := by
  have key : ∀ k s, rk s = k → V s = M s := by
    intro k
    induction k using Nat.strong_induction_on with
    | _ k ih =>
      intro s hs
      refine (hV s).antisymm fun t ht => ?_
      rw [hM s] at ht
      rcases ht with ht | ⟨r, hr, rfl, ht⟩
      · exact hB s ht
      · refine hclosed r hr ?_
        rw [r.out_congr fun s' hs' => ih _ (hs ▸ hrk r hr s' hs') s' rfl]
        exact ht
  funext s
  exact key _ s rfl

/-- **An acyclic program has one model.** -/
theorem IsModel.unique {rules : List (Oper R T)} {rk : R → ℕ} (hrk : Ranked rules rk)
    {B M M' : R → Set T} (hM : IsModel rules B M) (hM' : IsModel rules B M') : M = M' := by
  have key : ∀ k s, rk s = k → M s = M' s := by
    intro k
    induction k using Nat.strong_induction_on with
    | _ k ih =>
      intro s hs
      rw [hM s, hM' s]
      exact derive_congr hrk fun s' hs' => ih _ (hs ▸ hs') s' rfl
  funext s
  exact key _ s rfl

/-- A model of an acyclic program is perfect along every stratification. -/
theorem IsModel.perfect {rules : List (Oper R T)} {rk lv : R → ℕ} (hrk : Ranked rules rk)
    (hlv : Stratified rules lv) {B M : R → Set T} (hM : IsModel rules B M) :
    PerfectModel rules lv B M where
  base s := by rw [hM s]; exact Set.subset_union_left
  closed r hr := by
    rw [hM r.head]
    exact fun t ht => .inr ⟨r, hr, rfl, ht⟩
  least k N hbelow hB hclosed := by
    have key : ∀ n s, rk s = n → lv s = k → M s ⊆ N s := by
      intro n
      induction n using Nat.strong_induction_on with
      | _ n ih =>
        intro s hn hs t ht
        rw [hM s] at ht
        rcases ht with ht | ⟨r, hr, rfl, ht⟩
        · exact hB s ht
        · obtain ⟨hpos, hstrict⟩ := hlv r hr
          refine hclosed r hr hs (r.mono M N (fun s' hs' => ?_) (fun s' hs' => ?_) ht)
          · rcases Nat.lt_or_eq_of_le (hs ▸ hpos s' hs') with hlt | heq
            · exact (hbelow s' hlt).ge
            · exact ih _ (hn ▸ hrk r hr s' (.inl hs')) s' rfl heq
          · exact (hbelow s' (hs ▸ hstrict s' hs')).symm
    exact fun s => key _ s rfl

/-! ## Safe orders -/

/-- A relation is settled before place `i` of the order: every rule for it comes
earlier, and what that rule reads is settled before its own place. -/
inductive Settled (rules : List (Oper R T)) : ℕ → R → Prop
  | intro {i : ℕ} {s : R} (before : ∀ j r, rules[j]? = some r → r.head = s → j < i)
      (reads : ∀ j r, rules[j]? = some r → r.head = s → ∀ s' ∈ r.reads, Settled rules j s') :
      Settled rules i s

/-- Every strict read is settled at its place. -/
def Scheduled (rules : List (Oper R T)) : Prop :=
  ∀ i r, rules[i]? = some r → ∀ s ∈ r.strict, Settled rules i s

/-- A relation without rules is settled from the start. -/
theorem Settled.of_no_rule {rules : List (Oper R T)} {s : R} (h : ∀ r ∈ rules, r.head ≠ s)
    (i : ℕ) : Settled rules i s :=
  ⟨fun _ r hr hs => absurd hs (h r (List.mem_of_getElem? hr)),
    fun _ r hr hs => absurd hs (h r (List.mem_of_getElem? hr))⟩

/-- A row has a derivation from the facts by rules at ascending places, all before place `i`;
strict reads are those of the intended contents. -/
inductive Early (rules : List (Oper R T)) (B M : R → Set T) : ℕ → R → T → Prop
  /-- A fact. -/
  | base {i : ℕ} {s : R} {t : T} (h : t ∈ B s) : Early rules B M i s t
  /-- What a rule before place `i` derives from rows that are there before its own place. -/
  | rule {i j : ℕ} {r : Oper R T} {t : T} (hj : rules[j]? = some r) (hji : j < i) (C : R → Set T)
      (hpos : ∀ s ∈ r.pos, ∀ t' ∈ C s, Early rules B M j s t') (hstrict : ∀ s ∈ r.strict, C s = M s)
      (ht : t ∈ r.out C) : Early rules B M i r.head t

/-- The rows of every strict read have a derivation in the order of the rules before the place
of the rule that reads them. -/
def InOrder (rules : List (Oper R T)) (B M : R → Set T) : Prop :=
  ∀ i r, rules[i]? = some r → ∀ s ∈ r.strict, ∀ t ∈ M s, Early rules B M i s t

theorem Early.mono {rules : List (Oper R T)} {B M : R → Set T} {i j : ℕ} {s : R} {t : T}
    (h : Early rules B M i s t) (hij : i ≤ j) : Early rules B M j s t := by
  cases h with
  | base h => exact .base h
  | rule hk hki C hpos hstrict ht => exact .rule hk (hki.trans_le hij) C hpos hstrict ht

/-- The rows of a settled relation have derivations in order. -/
theorem Settled.early {rules : List (Oper R T)} {B M : R → Set T} (hM : IsModel rules B M) {i : ℕ}
    {s : R} (h : Settled rules i s) {t : T} (ht : t ∈ M s) : Early rules B M i s t := by
  induction h generalizing t with
  | intro before reads ih =>
    rename_i i s
    rw [hM s] at ht
    rcases ht with ht | ⟨r, hr, rfl, ht⟩
    · exact .base ht
    · obtain ⟨j, hj⟩ := List.mem_iff_getElem?.mp hr
      exact .rule hj (before j r hj rfl) M (fun s' hs' t' => ih j r hj rfl s' (.inl hs'))
        (fun _ _ => rfl) ht

/-- **A scheduled order is safe**, whatever the facts. -/
theorem Scheduled.inOrder {rules : List (Oper R T)} (h : Scheduled rules) {B M : R → Set T}
    (hM : IsModel rules B M) : InOrder rules B M :=
  fun i r hi s hs _ ht => (h i r hi s hs).early hM ht

/-- The invariant of the sweeps after the first `i` rules of the first one: nothing
is premature, and what has a derivation in order is there. -/
structure SweepInv (rules : List (Oper R T)) (B M : R → Set T) (i : ℕ) (V : R → Set T) : Prop where
  /-- Nothing is premature. -/
  le : ∀ s, V s ⊆ M s
  /-- Rows with a derivation in order are there. -/
  early : ∀ s t, Early rules B M i s t → t ∈ V s

section Sweeps

variable {rules : List (Oper R T)} {B M V : R → Set T}

theorem SweepInv.init (hM : IsModel rules B M) : SweepInv rules B M 0 B where
  le s := by rw [hM s]; exact Set.subset_union_left
  early s t h := by
    cases h with
    | base h => exact h
    | rule hj hji => exact absurd hji (Nat.not_lt_zero _)

/-- The facts are there. -/
theorem SweepInv.base {i : ℕ} (h : SweepInv rules B M i V) (s : R) : B s ⊆ V s :=
  fun t ht => h.early s t (.base ht)

/-- A strict read of a rule whose place has been reached is final. -/
theorem SweepInv.strict_eq {i : ℕ} (h : SweepInv rules B M i V) (hord : InOrder rules B M) {j : ℕ}
    {r : Oper R T} (hr : rules[j]? = some r) (hji : j ≤ i) {s : R} (hs : s ∈ r.strict) : V s = M s :=
  (h.le s).antisymm fun t ht => h.early s t ((hord j r hr s hs t ht).mono hji)

/-- A relation without rules is final. -/
theorem SweepInv.eq_of_no_rule {i : ℕ} (h : SweepInv rules B M i V) (hM : IsModel rules B M) {s : R}
    (hs : ∀ r ∈ rules, r.head ≠ s) : V s = M s :=
  (h.le s).antisymm fun t ht => h.early s t ((Settled.of_no_rule hs i).early hM ht)

/-- A rule that has been reached and reads no relation with rules has given all it has. -/
theorem SweepInv.out_le_of_no_rule {i : ℕ} (h : SweepInv rules B M i V) (hM : IsModel rules B M)
    {j : ℕ} {r : Oper R T} (hr : rules[j]? = some r) (hji : j < i)
    (hreads : ∀ s ∈ r.reads, ∀ r' ∈ rules, r'.head ≠ s) : r.out M ⊆ V r.head := by
  refine fun t ht => h.early _ _ (.rule hr hji M (fun s hs t' ht' => ?_) (fun _ _ => rfl) ht)
  exact (Settled.of_no_rule (hreads s (.inl hs)) j).early hM ht'

/-- Firing a rule whose strict reads are final adds nothing premature. -/
theorem SweepInv.step_le {i : ℕ} (h : SweepInv rules B M i V) (hM : IsModel rules B M)
    (hord : InOrder rules B M) {j : ℕ} {r : Oper R T} (hr : rules[j]? = some r) (hji : j ≤ i)
    (s : R) : r.step V s ⊆ M s := by
  rintro t (ht | ⟨rfl, ht⟩)
  · exact h.le s ht
  · rw [hM r.head]
    exact .inr ⟨r, List.mem_of_getElem? hr, rfl,
      r.mono V M (fun s _ => h.le s) (fun s hs => h.strict_eq hord hr hji hs) ht⟩

/-- The next rule of the first sweep. -/
theorem SweepInv.next {i : ℕ} (h : SweepInv rules B M i V) (hM : IsModel rules B M)
    (hord : InOrder rules B M) {r : Oper R T} (hr : rules[i]? = some r) :
    SweepInv rules B M (i + 1) (r.step V) where
  le := h.step_le hM hord hr le_rfl
  early s t ht := by
    cases ht with
    | base ht => exact r.le_step V s (h.base s ht)
    | rule hj hji C hpos hstrict ht =>
      rename_i j r'
      rcases Nat.lt_succ_iff_lt_or_eq.mp hji with hlt | rfl
      · exact r.le_step V _ (h.early _ _ (.rule hj hlt C hpos hstrict ht))
      · obtain rfl : r = r' := Option.some.inj (hr.symm.trans hj)
        refine r.out_subset_step V (r.mono C V (fun s hs t' ht' => ?_) (fun s hs => ?_) ht)
        · exact h.early s t' (hpos s hs t' ht')
        · rw [hstrict s hs, h.strict_eq hord hr le_rfl hs]

/-- The first sweep up to a place keeps the invariant. -/
theorem SweepInv.take (hM : IsModel rules B M) (hord : InOrder rules B M) {i : ℕ}
    (hi : i ≤ rules.length) : SweepInv rules B M i (pass (rules.take i) B) := by
  induction i with
  | zero => exact SweepInv.init hM
  | succ i ih =>
    have hr : rules[i]? = some rules[i] := List.getElem?_eq_getElem hi
    rw [pass_take_succ hr]
    exact (ih (Nat.le_of_succ_le hi)).next hM hord hr

/-- **The first sweep keeps the invariant.** -/
theorem SweepInv.first (hM : IsModel rules B M) (hord : InOrder rules B M) :
    SweepInv rules B M rules.length (pass rules B) := by
  simpa using SweepInv.take hM hord le_rfl

/-- What a sweep has reached when no strict read came early has a derivation in order. -/
theorem early_of_mem_pass {i : ℕ} (hfinal : ∀ j r, rules[j]? = some r → j < i →
    ∀ s ∈ r.strict, pass (rules.take j) B s = M s) {s : R} {t : T}
    (ht : t ∈ pass (rules.take i) B s) : Early rules B M i s t := by
  induction i generalizing s t with
  | zero => exact .base ht
  | succ i ih =>
    have hbelow : ∀ {s t}, t ∈ pass (rules.take i) B s → Early rules B M i s t :=
      ih fun j r hj hji => hfinal j r hj (by omega)
    cases hr : rules[i]? with
    | none =>
      rw [List.take_of_length_le (by simp at hr; omega)] at ht
      rw [List.take_of_length_le (by simpa using hr)] at hbelow
      exact (hbelow ht).mono (Nat.le_succ i)
    | some r =>
      rw [pass_take_succ hr] at ht
      rcases ht with ht | ⟨rfl, ht⟩
      · exact (hbelow ht).mono (Nat.le_succ i)
      · exact .rule hr (Nat.lt_succ_self i) _ (fun s _ t' ht' => hbelow ht')
          (fun s hs => hfinal i r hr (Nat.lt_succ_self i) s hs) ht

/-- **An order is safe exactly when the first sweep reads nothing strictly too early.** -/
theorem inOrder_iff (hM : IsModel rules B M) : InOrder rules B M ↔
    ∀ i r, rules[i]? = some r → ∀ s ∈ r.strict, pass (rules.take i) B s = M s := by
  constructor
  · intro hord i r hr s hs
    have hi := (List.getElem?_eq_some_iff.mp hr).1
    exact (SweepInv.take hM hord hi.le).strict_eq hord hr le_rfl hs
  · intro hfinal i r hr s hs t ht
    rw [← hfinal i r hr s hs] at ht
    exact early_of_mem_pass (fun j r' hj _ => hfinal j r' hj) ht

/-- **A later sweep, over any of the rules, keeps the invariant.** -/
theorem SweepInv.pass (hM : IsModel rules B M) (hord : InOrder rules B M) (rs : List (Oper R T))
    (hrs : ∀ r ∈ rs, r ∈ rules) (h : SweepInv rules B M rules.length V) :
    SweepInv rules B M rules.length (pass rs V) := by
  induction rs generalizing V with
  | nil => exact h
  | cons r rs ih =>
    obtain ⟨j, hj⟩ := List.mem_iff_getElem?.mp (hrs r (by simp))
    have hlt : j < rules.length := (List.getElem?_eq_some_iff.mp hj).1
    refine ih (fun r' hr' => hrs r' (by simp [hr'])) ⟨?_, ?_⟩
    · exact h.step_le hM hord hj hlt.le
    · exact fun s t ht => r.le_step V s (h.early s t ht)

/-- A sweep that changes nothing has reached the model, when the rules it leaves out
have nothing to give. -/
theorem eq_of_stable {rk : R → ℕ} (hrk : Ranked rules rk) (hM : IsModel rules B M) {i : ℕ}
    (h : SweepInv rules B M i V) {rs : List (Oper R T)} (hstable : Operators.pass rs V = V)
    (hskip : ∀ r ∈ rules, r ∉ rs → r.out V ⊆ V r.head) : V = M := by
  have hout : ∀ (rs : List (Oper R T)) (W : R → Set T), (∀ s, V s ⊆ W s) →
      (∀ s, Operators.pass rs W s ⊆ V s) → ∀ r ∈ rs, r.out V ⊆ V r.head := by
    intro rs
    induction rs with
    | nil => intro W _ _ r hr; cases hr
    | cons r rs ih =>
      intro W hVW hWV r' hr'
      have hWeq : W = V := by
        funext s
        exact (((r.le_step W s).trans (le_pass rs _ s)).trans (hWV s)).antisymm (hVW s)
      rcases List.mem_cons.mp hr' with rfl | hr'
      · have hsub := (r'.out_subset_step W).trans ((le_pass rs _ _).trans (hWV r'.head))
        rwa [hWeq] at hsub
      · exact ih (r.step W) (fun s => (hVW s).trans (r.le_step W s)) hWV r' hr'
  refine eq_of_closed hrk hM h.base h.le fun r hr => ?_
  by_cases hin : r ∈ rs
  · exact hout rs V (fun _ => subset_rfl) (fun s => by rw [hstable]) r hin
  · exact hskip r hr hin

/-- Relations of small rank are final. -/
def Upto (M : R → Set T) (rk : R → ℕ) (k : ℕ) (V : R → Set T) : Prop := ∀ s, rk s < k → V s = M s

theorem Upto.of_fired {rk : R → ℕ} {k i : ℕ} (hM : IsModel rules B M) (h : SweepInv rules B M i V)
    (hfired : ∀ r ∈ rules, rk r.head < k → r.out M ⊆ V r.head) : Upto M rk k V := by
  intro s hs
  refine (h.le s).antisymm fun t ht => ?_
  rw [hM s] at ht
  rcases ht with ht | ⟨r, hr, rfl, ht⟩
  · exact h.base s ht
  · exact hfired r hr hs ht

/-- The first sweep settles the relations of rank zero. -/
theorem Upto.first {rk : R → ℕ} (hrk : Ranked rules rk) (hM : IsModel rules B M)
    (hord : InOrder rules B M) : Upto M rk 1 (Operators.pass rules B) := by
  have hinv := SweepInv.first hM hord
  refine Upto.of_fired hM hinv fun r hr hlt => ?_
  obtain ⟨j, hj⟩ := List.mem_iff_getElem?.mp hr
  refine hinv.out_le_of_no_rule hM hj (List.getElem?_eq_some_iff.mp hj).1 fun s hs => ?_
  have := hrk r hr s hs
  omega

/-- **Each later sweep settles one more rank.** -/
theorem Upto.pass {rk : R → ℕ} (hrk : Ranked rules rk) (hM : IsModel rules B M)
    (hord : InOrder rules B M) {rs : List (Oper R T)} (hrs : ∀ r ∈ rs, r ∈ rules)
    (h : SweepInv rules B M rules.length V) (hskip : ∀ r ∈ rules, r ∉ rs → r.out M ⊆ V r.head)
    {k : ℕ} (hk : Upto M rk k V) : Upto M rk (k + 1) (Operators.pass rs V) := by
  have hfire : ∀ (rs : List (Oper R T)) (W : R → Set T), (∀ r ∈ rs, r ∈ rules) →
      SweepInv rules B M rules.length W → Upto M rk k W →
      ∀ r ∈ rs, rk r.head < k + 1 → r.out M ⊆ Operators.pass rs W r.head := by
    intro rs
    induction rs with
    | nil => intro W _ _ _ r hr; cases hr
    | cons r rs ih =>
      intro W hsub hW hupto r' hr' hlt
      have hstep : SweepInv rules B M rules.length (r.step W) :=
        SweepInv.pass hM hord [r] (by simpa using hsub r (by simp)) hW
      have hupto' : Upto M rk k (r.step W) := fun s hs =>
        (hstep.le s).antisymm ((hupto s hs).ge.trans (r.le_step W s))
      rcases List.mem_cons.mp hr' with rfl | hr'
      · have hreads : ∀ s ∈ r'.reads, W s = M s := fun s hs => hupto s (by
          have := hrk r' (hsub r' (by simp)) s hs
          omega)
        rw [← r'.out_congr hreads]
        exact (r'.out_subset_step W).trans (le_pass rs _ _)
      · exact ih (r.step W) (fun x hx => hsub x (by simp [hx])) hstep hupto' r' hr' hlt
  refine Upto.of_fired hM (SweepInv.pass hM hord rs hrs h) fun r hr hlt => ?_
  by_cases hin : r ∈ rs
  · exact hfire rs V hrs h hk r hin hlt
  · exact (hskip r hr hin).trans (le_pass rs V _)

end Sweeps

end Operators
