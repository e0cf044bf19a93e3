import DatalogDafsa.Lib.Worklist

/-!
# Deleting and deriving again

After deletions, first everything that some derivation lost is taken out, and then the
rules for what changed are run again.  Taking out too much does no harm: it is derived
again.  Taking out too little does: nothing removes it later.  So the overdeletion must
find every derivation that lost a row, and it looks for them one atom at a time, with the
other atoms reading what is there: a derivation that lost two stored rows at once is
missed.

## Main definitions

* `Join.outWith` — what a rule derives while one atom reads other rows.
* `Overdeleted`, `Overdeleted.reads` — what is left does not read anything taken out.
* `IsModel.rederive` — deriving again over what is left gives the new model.
-/

namespace Worklist

open Operators

variable {R T : Type*}

/-! ## Overdeletion -/

/-- The rows a rule derives while one atom reads `D` and the others `V`. -/
def Join.outWith (r : Join R T) (a : ℕ × R) (D : Set T) (V : R → Set T) : Set T :=
  {t | ∃ ρ, ρ a.1 ∈ D ∧ (∀ b ∈ r.atoms, b ≠ a → ρ b.1 ∈ V b.2) ∧ t ∈ r.inst ρ}

theorem Join.outWith_mono (r : Join R T) (a : ℕ × R) {D D' : Set T} (hD : D ⊆ D')
    (V : R → Set T) : r.outWith a D V ⊆ r.outWith a D' V :=
  fun _ ⟨ρ, hx, hρ, ht⟩ => ⟨ρ, hD hx, hρ, ht⟩

/-- What the rules derive from a row that is out, next to rows of `V`, is out. -/
def Overdeleted (rules : Set (Join R T)) (V O : R → Set T) : Prop :=
  ∀ r ∈ rules, ∀ a ∈ r.atoms, r.outWith a (O a.2) V ⊆ O r.head

/-- No derivation from the old contents lost rows at two atoms. -/
def LosesOne (r : Join R T) (old V : R → Set T) : Prop :=
  ∀ ρ, r.Reads old ρ → (r.inst ρ).Nonempty → ∀ a ∈ r.atoms, ∀ b ∈ r.atoms,
    ρ a.1 ∉ V a.2 → ρ b.1 ∉ V b.2 → a = b

/-- **A derivation of a row that stays reads nothing that is out**, when the rows lost are
out and no derivation lost two. -/
theorem Overdeleted.reads {rules : Set (Join R T)} {V O old : R → Set T}
    (h : Overdeleted rules V O) (hlost : ∀ s, ∀ x ∈ old s, x ∉ V s → x ∈ O s) {r : Join R T}
    (hr : r ∈ rules) (hone : LosesOne r old V) {ρ : ℕ → T} (hρ : r.Reads old ρ) {t : T}
    (ht : t ∈ r.inst ρ) (hstay : t ∉ O r.head) : ∀ a ∈ r.atoms, ρ a.1 ∉ O a.2 := by
  intro a ha hout
  refine hstay ?_
  by_cases hany : ∃ b ∈ r.atoms, ρ b.1 ∉ V b.2
  · -- the atom whose row is lost: the others are there
    obtain ⟨b, hb, hgone⟩ := hany
    refine h r hr b hb ⟨ρ, hlost _ _ (hρ b hb) hgone, fun c hc hne => ?_, ht⟩
    by_contra hno
    exact hne (hone ρ hρ ⟨t, ht⟩ c hc b hb hno hgone)
  · push Not at hany
    exact h r hr a ha ⟨ρ, hout, fun c hc _ => hany c hc, ht⟩

end Worklist

namespace Operators

variable {R T : Type*}

/-! ## Deriving again -/

/-- **Deriving again over what is left gives the new model**: where nothing changed the
old contents stay, and elsewhere a row is left only if it is stored or some positive
rule derives it from what is left. -/
theorem IsModel.rederive {rules derived : List (Oper R T)} {B₀ B M₀ W F : R → Set T}
    {affected : Set R} (hM₀ : IsModel rules B₀ M₀) (hF : IsModel derived W F)
    (hderived : ∀ r, r ∈ derived ↔ r ∈ rules ∧ r.head ∈ affected)
    (hstill : ∀ s ∉ affected, W s = M₀ s ∧ B s = B₀ s)
    (hclosed : ∀ r ∈ rules, r.head ∉ affected → ∀ s ∈ r.reads, s ∉ affected)
    (hB : ∀ s, B s ⊆ W s)
    (hleft : ∀ s ∈ affected, ∀ t ∈ W s, t ∈ B s ∨
      ∃ r ∈ rules, r.head = s ∧ r.strict = ∅ ∧ t ∈ r.out W) : IsModel rules B F := by
  have hWF : ∀ s, W s ⊆ F s := by
    intro s
    rw [hF s]
    exact Set.subset_union_left
  have hold : ∀ s ∉ affected, F s = M₀ s := by
    intro s hs
    rw [hF s, (hstill s hs).1]
    refine Set.union_eq_self_of_subset_right ?_
    rintro t ⟨r, hr, rfl, -⟩
    exact absurd ((hderived r).mp hr).2 hs
  have hsame : ∀ r ∈ rules, r.head ∉ affected → r.out F = r.out M₀ := by
    intro r hr hhead
    exact r.out_congr fun s hs => hold s (hclosed r hr hhead s hs)
  intro s
  ext t
  by_cases hs : s ∈ affected
  · constructor
    · intro ht
      rw [hF s] at ht
      rcases ht with ht | ⟨r, hr, heq, ht⟩
      · rcases hleft s hs t ht with ht | ⟨r, hr, heq, hpos, ht⟩
        · exact .inl ht
        · refine .inr ⟨r, hr, heq, r.mono W F (fun s' _ => hWF s') (fun s' hs' => ?_) ht⟩
          rw [hpos] at hs'
          exact absurd hs' (Set.notMem_empty s')
      · exact .inr ⟨r, ((hderived r).mp hr).1, heq, ht⟩
    · rintro (ht | ⟨r, hr, heq, ht⟩)
      · exact hWF s (hB s ht)
      · rw [hF s]
        exact .inr ⟨r, (hderived r).mpr ⟨hr, heq ▸ hs⟩, heq, ht⟩
  · rw [hold s hs, hM₀ s, (hstill s hs).2]
    refine or_congr_right (exists_congr fun r => and_congr_right fun hr => and_congr_right ?_)
    rintro rfl
    rw [hsame r hr hs]

end Operators
