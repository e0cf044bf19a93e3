import DatalogDafsa.Lib.Operators
import DatalogDafsa.Lib.Backtrack

/-!
# Worklists

A worklist run takes items from a queue, and each item may queue more.  When every
item weighs more than what it queues, the queue drains.  An incremental evaluation
is such a run: the items are the rows that were added and not joined yet, and what
carries it is that every derivable row that is still missing reads a row that waits.

## Main definitions

* `drain` — the loop, with `drain_settles` and `drain_inv`.
* `saturate` — passes until one changes nothing, with `saturate_settles` and
  `saturate_inv`.
* `Join`, `Join.out`, `Join.outAt` — rules that join rows of relations.
* `Covered` — what is missing reads a row that waits; `Covered.advance` is one round,
  `Covered.fire` one firing.
-/

namespace Worklist

open Backtrack Operators

/-! ## The loop -/

section Loop

variable {S Q Err : Type*}

/-- Take items until none is left; the first argument bounds how many. -/
def drain (step : Q → S → Final (S × List Q) Err) : ℕ → List Q → S → Option (Final S Err)
  | _, [], s => some (.done s)
  | 0, _ :: _, _ => none
  | fuel + 1, w :: q, s =>
    match step w s with
    | .failed err r => some (.failed err r.1)
    | .done r => drain step fuel (q ++ r.2) r.1

variable {step : Q → S → Final (S × List Q) Err}

@[simp] theorem drain_nil (n : ℕ) (s : S) : drain step n [] s = some (.done s) := by
  cases n <;> rfl

theorem drain_failed {w : Q} {s : S} {err : Err} {r : S × List Q}
    (h : step w s = .failed err r) (n : ℕ) (q : List Q) :
    drain step (n + 1) (w :: q) s = some (.failed err r.1) := by
  simp only [drain, h]

theorem drain_done {w : Q} {s : S} {r : S × List Q} (h : step w s = .done r) (n : ℕ)
    (q : List Q) : drain step (n + 1) (w :: q) s = drain step n (q ++ r.2) r.1 := by
  simp only [drain, h]

/-- More fuel changes nothing once the queue has drained. -/
theorem drain_mono {n m : ℕ} (hnm : n ≤ m) {q : List Q} {s : S} {r : Final S Err}
    (h : drain step n q s = some r) : drain step m q s = some r := by
  induction n generalizing m q s with
  | zero =>
    cases q with
    | nil => rwa [drain_nil] at h ⊢
    | cons w q => cases h
  | succ n ih =>
    cases q with
    | nil => rwa [drain_nil] at h ⊢
    | cons w q =>
      obtain ⟨m, rfl⟩ : ∃ k, m = k + 1 := ⟨m - 1, by omega⟩
      cases hw : step w s with
      | failed err r' =>
        rw [drain_failed hw] at h ⊢
        exact h
      | done r' =>
        rw [drain_done hw] at h ⊢
        exact ih (by omega) h

/-- **The queue drains** when every item makes a measure of the queue and the state
smaller. -/
theorem drain_settles_of (μ : List Q → S → ℕ) {I : List Q → S → Prop}
    (hstep : ∀ w q s r, I (w :: q) s → step w s = .done r →
      I (q ++ r.2) r.1 ∧ μ (q ++ r.2) r.1 < μ (w :: q) s) (n : ℕ) (q : List Q) (s : S)
    (hI : I q s) (hn : μ q s < n) : ∃ r, ∀ m, n ≤ m → drain step m q s = some r := by
  induction n generalizing q s with
  | zero => exact absurd hn (Nat.not_lt_zero _)
  | succ n ih =>
    cases q with
    | nil => exact ⟨.done s, fun m _ => drain_nil m s⟩
    | cons w q =>
      cases hr : step w s with
      | failed err r =>
        refine ⟨.failed err r.1, fun m hm => ?_⟩
        obtain ⟨m, rfl⟩ : ∃ k, m = k + 1 := ⟨m - 1, by omega⟩
        exact drain_failed hr m q
      | done r =>
        obtain ⟨hI', hlt⟩ := hstep w q s r hI hr
        obtain ⟨f, hf⟩ := ih (q ++ r.2) r.1 hI' (by omega)
        refine ⟨f, fun m hm => ?_⟩
        obtain ⟨m, rfl⟩ : ∃ k, m = k + 1 := ⟨m - 1, by omega⟩
        rw [drain_done hr]
        exact hf m (by omega)

/-- The queue drains when every item weighs more than what it queues. -/
theorem drain_settles (weight : Q → ℕ)
    (hstep : ∀ w s r, step w s = .done r → (r.2.map weight).sum < weight w) (q : List Q) (s : S) :
    ∃ n r, ∀ m, n ≤ m → drain step m q s = some r := by
  refine ⟨_, drain_settles_of (fun q _ => (q.map weight).sum) (I := fun _ _ => True)
    (fun w q s r _ hr => ⟨trivial, ?_⟩) _ q s trivial (Nat.lt_succ_self _)⟩
  have hlt := hstep w s r hr
  simp only [List.map_append, List.sum_append, List.map_cons, List.sum_cons]
  omega

/-- **What every item keeps holds at the end.** -/
theorem drain_inv {I : List Q → S → Prop}
    (hstep : ∀ w q s r, I (w :: q) s → step w s = .done r → I (q ++ r.2) r.1) (n : ℕ)
    (q : List Q) (s : S) {s' : S} (hI : I q s) (h : drain step n q s = some (.done s')) :
    I [] s' := by
  induction n generalizing q s with
  | zero =>
    cases q with
    | nil =>
      rw [drain_nil] at h
      cases h
      exact hI
    | cons w q => cases h
  | succ n ih =>
    cases q with
    | nil =>
      rw [drain_nil] at h
      cases h
      exact hI
    | cons w q =>
      cases hr : step w s with
      | failed err r =>
        rw [drain_failed hr] at h
        cases h
      | done r =>
        rw [drain_done hr] at h
        exact ih _ _ (hstep w q s r hI hr) h

/-- At most `K` items of a higher rank weigh less than one of this rank. -/
theorem sum_weight_lt (rank : Q → ℕ) {K N : ℕ} {w : Q} {new : List Q} (hlen : new.length ≤ K)
    (hrank : ∀ v ∈ new, rank w < rank v ∧ rank v ≤ N) :
    (new.map fun v => (K + 1) ^ (N - rank v)).sum < (K + 1) ^ (N - rank w) := by
  cases new with
  | nil => simp
  | cons v rest =>
    obtain ⟨hlt, hle⟩ := hrank v (by simp)
    obtain ⟨e, he⟩ : ∃ e, N - rank w = e + 1 := ⟨N - rank w - 1, by omega⟩
    have hone : ∀ x ∈ ((v :: rest).map fun v => (K + 1) ^ (N - rank v)), x ≤ (K + 1) ^ e := by
      intro x hx
      obtain ⟨u, hu, rfl⟩ := List.mem_map.mp hx
      obtain ⟨hlt', -⟩ := hrank u hu
      exact Nat.pow_le_pow_right (Nat.succ_pos K) (by omega)
    have hsum := List.sum_le_card_nsmul _ _ hone
    rw [List.length_map, smul_eq_mul] at hsum
    calc _ ≤ (v :: rest).length * (K + 1) ^ e := hsum
      _ ≤ K * (K + 1) ^ e := Nat.mul_le_mul_right _ hlen
      _ < (K + 1) * (K + 1) ^ e := Nat.mul_lt_mul_of_pos_right (Nat.lt_succ_self K)
          (Nat.pow_pos (Nat.succ_pos K))
      _ = (K + 1) ^ (N - rank w) := by rw [he, pow_succ, mul_comm]

/-! ## Passes -/

/-- Repeat a pass until it changes nothing; the first argument bounds the passes. -/
def saturate (pass : S → Final (S × Bool) Err) : ℕ → S → Option (Final S Err)
  | 0, _ => none
  | fuel + 1, s =>
    match pass s with
    | .failed err r => some (.failed err r.1)
    | .done (s', false) => some (.done s')
    | .done (s', true) => saturate pass fuel s'

variable {sweep : S → Final (S × Bool) Err}

theorem saturate_failed {s : S} {err : Err} {r : S × Bool} (h : sweep s = .failed err r) (n : ℕ) :
    saturate sweep (n + 1) s = some (.failed err r.1) := by
  simp only [saturate, h]

theorem saturate_same {s s' : S} (h : sweep s = .done (s', false)) (n : ℕ) :
    saturate sweep (n + 1) s = some (.done s') := by
  simp only [saturate, h]

theorem saturate_changed {s s' : S} (h : sweep s = .done (s', true)) (n : ℕ) :
    saturate sweep (n + 1) s = saturate sweep n s' := by
  simp only [saturate, h]

/-- **The passes come to an end** when each one that changes something climbs, and none
climbs beyond `N`. -/
theorem saturate_settles {I : ℕ → S → Prop} {N : ℕ}
    (hstep : ∀ k s s', I k s → sweep s = .done (s', true) → k < N ∧ I (k + 1) s') (n k : ℕ)
    (hk : k ≤ N) (hn : N < k + n) (s : S) (hI : I k s) :
    ∃ r, ∀ m, n ≤ m → saturate sweep m s = some r := by
  induction n generalizing k s with
  | zero => omega
  | succ n ih =>
    have hsucc : ∀ {m}, n + 1 ≤ m → ∃ j, m = j + 1 ∧ n ≤ j := fun {m} hm => ⟨m - 1, by omega⟩
    cases hs : sweep s with
    | failed err r =>
      refine ⟨.failed err r.1, fun m hm => ?_⟩
      obtain ⟨j, rfl, -⟩ := hsucc hm
      exact saturate_failed hs j
    | done r =>
      obtain ⟨s', changed⟩ := r
      cases changed with
      | false =>
        refine ⟨.done s', fun m hm => ?_⟩
        obtain ⟨j, rfl, -⟩ := hsucc hm
        exact saturate_same hs j
      | true =>
        obtain ⟨hlt, hI'⟩ := hstep k s s' hI hs
        obtain ⟨f, hf⟩ := ih (k + 1) (by omega) (by omega) s' hI'
        refine ⟨f, fun m hm => ?_⟩
        obtain ⟨j, rfl, hj⟩ := hsucc hm
        rw [saturate_changed hs]
        exact hf j hj

/-- **What every pass keeps holds at the end**, and the last pass changed nothing. -/
theorem saturate_inv {I : S → Prop}
    (hstep : ∀ s s' b, I s → sweep s = .done (s', b) → I s') (n : ℕ) (s : S) {s' : S} (hI : I s)
    (h : saturate sweep n s = some (.done s')) :
    I s' ∧ ∃ s₀, I s₀ ∧ sweep s₀ = .done (s', false) := by
  induction n generalizing s with
  | zero => cases h
  | succ n ih =>
    cases hs : sweep s with
    | failed err r =>
      rw [saturate_failed hs] at h
      cases h
    | done r =>
      obtain ⟨s₁, changed⟩ := r
      cases changed with
      | false =>
        rw [saturate_same hs] at h
        cases h
        exact ⟨hstep s s' false hI hs, s, hI, hs⟩
      | true =>
        rw [saturate_changed hs] at h
        exact ih s₁ (hstep s s₁ true hI hs) h

end Loop

/-! ## Rules that join rows -/

variable {R T : Type*}

/-- A rule that joins rows: each atom, by its name, reads one row of its relation. -/
structure Join (R T : Type*) where
  /-- What it derives rows for. -/
  head : R
  /-- Names and relations of the atoms. -/
  atoms : List (ℕ × R)
  /-- The rows derived from one row for each atom. -/
  inst : (ℕ → T) → Set T

namespace Join

/-- Each atom reads a row of its relation. -/
def Reads (r : Join R T) (V : R → Set T) (ρ : ℕ → T) : Prop := ∀ a ∈ r.atoms, ρ a.1 ∈ V a.2

/-- The rows a rule derives. -/
def out (r : Join R T) (V : R → Set T) : Set T := {t | ∃ ρ, r.Reads V ρ ∧ t ∈ r.inst ρ}

/-- The rows a rule derives while one atom reads `D`. -/
def outAt (r : Join R T) (a : ℕ × R) (D : Set T) (V : R → Set T) : Set T :=
  {t | ∃ ρ, r.Reads V ρ ∧ ρ a.1 ∈ D ∧ t ∈ r.inst ρ}

theorem Reads.mono {r : Join R T} {V V' : R → Set T} (hle : ∀ s, V s ⊆ V' s) {ρ : ℕ → T}
    (h : r.Reads V ρ) : r.Reads V' ρ := fun a ha => hle a.2 (h a ha)

/-- More rows to read give more. -/
theorem out_mono (r : Join R T) {V V' : R → Set T} (hle : ∀ s, V s ⊆ V' s) : r.out V ⊆ r.out V' :=
  fun _ ⟨ρ, hρ, ht⟩ => ⟨ρ, hρ.mono hle, ht⟩

theorem outAt_mono (r : Join R T) (a : ℕ × R) {D D' : Set T} (hD : D ⊆ D') (V : R → Set T) :
    r.outAt a D V ⊆ r.outAt a D' V := fun _ ⟨ρ, hρ, hx, ht⟩ => ⟨ρ, hρ, hD hx, ht⟩

end Join

/-- A row that is derivable and missing reads a row that waits to be joined. -/
def Covered (rules : Set (Join R T)) (waits : Join R T → ℕ × R → T → Prop) (V : R → Set T) :
    Prop :=
  ∀ r ∈ rules, ∀ ρ, r.Reads V ρ → ∀ t ∈ r.inst ρ, t ∈ V r.head ∨ ∃ a ∈ r.atoms, waits r a (ρ a.1)

section Covered

variable {rules : Set (Join R T)} {waits waits' : Join R T → ℕ × R → T → Prop} {V V' : R → Set T}

/-- **When nothing waits, nothing is missing.** -/
theorem Covered.closed (h : Covered rules waits V) (hnone : ∀ r a x, ¬ waits r a x)
    {r : Join R T} (hr : r ∈ rules) : r.out V ⊆ V r.head := by
  rintro t ⟨ρ, hρ, ht⟩
  rcases h r hr ρ hρ t ht with hin | ⟨a, -, hw⟩
  · exact hin
  · exact absurd hw (hnone r a _)

/-- Rows may wait in another way. -/
theorem Covered.imp (h : Covered rules waits V)
    (hw : ∀ r ∈ rules, ∀ a ∈ r.atoms, ∀ x, waits r a x → waits' r a x) :
    Covered rules waits' V := by
  intro r hr ρ hρ t ht
  exact (h r hr ρ hρ t ht).imp_right fun ⟨a, ha, hx⟩ => ⟨a, ha, hw r hr a ha _ hx⟩

/-- A reading of larger contents that is not one of smaller contents reads a new row. -/
theorem Join.Reads.new {r : Join R T} {ρ : ℕ → T} (h : r.Reads V' ρ) (hold : ¬ r.Reads V ρ) :
    ∃ a ∈ r.atoms, ρ a.1 ∈ V' a.2 ∧ ρ a.1 ∉ V a.2 := by
  unfold Join.Reads at hold
  push Not at hold
  obtain ⟨a, ha, hx⟩ := hold
  exact ⟨a, ha, h a ha, hx⟩

/-- Closed contents stay covered when the rows added to them wait. -/
theorem Covered.start (hclosed : ∀ r ∈ rules, r.out V ⊆ V r.head) (hle : ∀ s, V s ⊆ V' s)
    (hnew : ∀ r a x, x ∈ V' a.2 → x ∉ V a.2 → waits r a x) : Covered rules waits V' := by
  intro r hr ρ hρ t ht
  by_cases hold : r.Reads V ρ
  · exact .inl (hle _ (hclosed r hr ⟨ρ, hold, ht⟩))
  · obtain ⟨a, ha, hin, hx⟩ := hρ.new hold
    exact .inr ⟨a, ha, hnew r a _ hin hx⟩

/-- **What waited has been joined**: contents grow by what the rows that stop waiting
derive, and the rows added wait from then on. -/
theorem Covered.advance (h : Covered rules waits V) (hle : ∀ s, V s ⊆ V' s)
    (hdone : ∀ r ∈ rules, ∀ a ∈ r.atoms, r.outAt a {x | waits r a x ∧ ¬ waits' r a x} V ⊆ V' r.head)
    (hnew : ∀ r a x, x ∈ V' a.2 → x ∉ V a.2 → waits' r a x) : Covered rules waits' V' := by
  intro r hr ρ hρ t ht
  by_cases hold : r.Reads V ρ
  · rcases h r hr ρ hold t ht with hin | ⟨a, ha, hw⟩
    · exact .inl (hle _ hin)
    · by_cases hw' : waits' r a (ρ a.1)
      · exact .inr ⟨a, ha, hw'⟩
      · exact .inl (hdone r hr a ha ⟨ρ, hold, ⟨hw, hw'⟩, ht⟩)
  · obtain ⟨a, ha, hin, hx⟩ := hρ.new hold
    exact .inr ⟨a, ha, hnew r a _ hin hx⟩

/-- **One firing keeps the cover**: the rows it reads at its atom need not wait for it
any more. -/
theorem Covered.fire (h : Covered rules waits V) (hle : ∀ s, V s ⊆ V' s) {r₀ : Join R T}
    {a₀ : ℕ × R} {D : Set T} (hout : r₀.outAt a₀ D V ⊆ V' r₀.head)
    (hnew : ∀ r a x, x ∈ V' a.2 → x ∉ V a.2 → waits' r a x)
    (hkeep : ∀ r a x, waits r a x → waits' r a x ∨ (r = r₀ ∧ a = a₀ ∧ x ∈ D)) :
    Covered rules waits' V' := by
  refine h.advance hle (fun r _ a _ => ?_) hnew
  rintro t ⟨ρ, hρ, ⟨hw, hno⟩, ht⟩
  rcases hkeep r a _ hw with hw' | ⟨rfl, rfl, hx⟩
  · exact absurd hw' hno
  · exact hout ⟨ρ, hρ, hx, ht⟩

end Covered

/-! ## Models of positive rules -/

/-- Without strict reads, more facts give a larger model. -/
theorem model_mono {rules : List (Oper R T)} {rk : R → ℕ} (hrk : Ranked rules rk)
    (hpos : ∀ r ∈ rules, r.strict = ∅) {B B' M M' : R → Set T} (hM : IsModel rules B M)
    (hM' : IsModel rules B' M') (hB : ∀ s, B s ⊆ B' s) (s : R) : M s ⊆ M' s := by
  have key : ∀ k s, rk s = k → M s ⊆ M' s := by
    intro k
    induction k using Nat.strong_induction_on with
    | _ k ih =>
      intro s hs t ht
      rw [hM s] at ht
      rw [hM' s]
      rcases ht with ht | ⟨r, hr, rfl, ht⟩
      · exact .inl (hB s ht)
      · refine .inr ⟨r, hr, rfl, r.mono M M' (fun s' hs' => ?_) (fun s' hs' => ?_) ht⟩
        · exact ih _ (hs ▸ hrk r hr s' (.inl hs')) s' rfl
        · rw [hpos r hr] at hs'
          exact absurd hs' (Set.notMem_empty s')
  exact key _ s rfl

end Worklist
