import DatalogDafsa.Kinds.Check

/-!
# Kinds that flow along rules

Kinds form a semilattice: no kind, the two definite ones, and both.  Kinds *flow*
when rules are applied, without the test for conflicts, to a reading of the columns
that joins the record of a column with what has flowed into it: all rules at once,
which needs no order of them, or one after another.  A rule only ever passes more on
when it reads more, as long as its variables fit the table.

## Main definitions

* `Fits` — the variables of a rule fit the table.
* `readWithout`, `rulePass`, `ruleGives` — what a rule reads, passes on and gives.
* `flowStep`, `settledKinds` — the flow, all rules at once.
* `passOn`, `listKinds` — the flow along a list.

## Main results

* `bodyFlow_rel` — what is passed on is related when what is read is.
* `listKinds_eq_settled` — the flow that has settled is that along every list.
* `relColKind_agree` — how the propagation reads a column.
-/

namespace DatalogDafsa.Kinds

/-! ## The order of kinds -/

instance : SemilatticeSup Kind where
  sup := kindJoin
  le a b := kindJoin a b = b
  le_refl a := by cases a <;> rfl
  le_trans a b c := by cases a <;> cases b <;> cases c <;> decide
  le_antisymm a b := by cases a <;> cases b <;> decide
  le_sup_left a b := by cases a <;> cases b <;> rfl
  le_sup_right a b := by cases a <;> cases b <;> rfl
  sup_le a b c := by cases a <;> cases b <;> cases c <;> decide

instance : OrderBot Kind where
  bot := .unknown
  bot_le a := by cases a <;> rfl

instance : DecidableLE Kind := fun a b => inferInstanceAs (Decidable (kindJoin a b = b))

theorem kindJoin_eq_sup (a b : Kind) : kindJoin a b = a ⊔ b := rfl

theorem unknown_le (a : Kind) : Kind.unknown ≤ a := by cases a <;> rfl

/-- Kinds that are not joined to `mixed` are equal, or one of them is unknown. -/
theorem sup_eq_mixed_iff {a b : Kind} : a ⊔ b = .mixed ↔
    a = .mixed ∨ b = .mixed ∨ (a = .int ∧ b = .sym) ∨ (a = .sym ∧ b = .int) := by
  cases a <;> cases b <;> decide

/-! ## The variables of a body -/

/-- The names that a body may enter into the table. -/
def bodyVars (body : List Typecheck.Atom) : List String :=
  body.flatMap fun a =>
    (if a.aggregate then [a.pred] else []) ++ a.args.filterMap fun t => varName (some t)

/-- The variables of a rule fit the table. -/
def Fits (r : Typecheck.Rule) : Prop := (bodyVars r.body).toFinset.card ≤ maxVars

/-- A table that holds no name twice and only names of a set. -/
structure InNames (S : Finset String) (t : VarKinds) : Prop where
  /-- No name twice. -/
  nodup : (t.map Prod.fst).Nodup
  /-- Names of the set. -/
  sub : ∀ p ∈ t, p.1 ∈ S

theorem lookup_join (t : VarKinds) (x y : String) (k : Kind) :
    (t.map fun p => if p.1 = x then (p.1, kindJoin p.2 k) else p).lookup y =
      (t.lookup y).map fun k' => if y = x then kindJoin k' k else k' := by
  induction t with
  | nil => rfl
  | cons p t ih =>
    obtain ⟨z, kz⟩ := p
    rw [List.map_cons]
    by_cases hy : y = z
    · subst hy
      by_cases hx : y = x
      · simp [hx]
      · simp [hx]
    · have hne : (y == z) = false := by simpa using hy
      by_cases hz : z = x
      · rw [if_pos hz, List.lookup_cons, List.lookup_cons, hne]
        exact ih
      · rw [if_neg hz, List.lookup_cons, List.lookup_cons, hne]
        exact ih

/-- **What is entered for a name is joined to its kind**: the table has room for it. -/
theorem note_spec {S : Finset String} (hS : S.card ≤ maxVars) {t : VarKinds} (ht : InNames S t)
    {x : String} (hx : x ∈ S) (k : Kind) :
    InNames S (t.note x k) ∧ ∀ y, (t.note x k).kindOf y =
      if y = x then t.kindOf y ⊔ k else t.kindOf y := by
  unfold VarKinds.note
  by_cases hfind : (t.lookup x).isSome
  · rw [if_pos hfind]
    have hfst : (t.map fun p => if p.1 = x then (p.1, kindJoin p.2 k) else p).map Prod.fst =
        t.map Prod.fst := by
      rw [List.map_map]
      refine List.map_congr_left fun p _ => ?_
      dsimp only [Function.comp]
      split <;> rfl
    refine ⟨⟨hfst ▸ ht.nodup, fun p hp => ?_⟩, fun y => ?_⟩
    · obtain ⟨q, hq, rfl⟩ := List.mem_map.mp hp
      have := ht.sub q hq
      split <;> exact this
    · unfold VarKinds.kindOf
      rw [lookup_join]
      by_cases hy : y = x
      · subst hy
        obtain ⟨k', hk'⟩ := Option.isSome_iff_exists.mp hfind
        simp [hk', kindJoin_eq_sup]
      · simp [hy]
  · have hnone : t.lookup x = none := Option.not_isSome_iff_eq_none.mp hfind
    have hnot : x ∉ t.map Prod.fst := fun hmem => by
      obtain ⟨p, hp, rfl⟩ := List.mem_map.mp hmem
      simpa using List.lookup_eq_none_iff.mp hnone p hp
    have hroom : ¬ maxVars ≤ t.length := by
      have hsub : insert x (t.map Prod.fst).toFinset ⊆ S := by
        intro y hy
        rcases Finset.mem_insert.mp hy with rfl | hy
        · exact hx
        · obtain ⟨p, hp, rfl⟩ := List.mem_map.mp (List.mem_toFinset.mp hy)
          exact ht.sub p hp
      have hcard := Finset.card_le_card hsub
      rw [Finset.card_insert_of_notMem (by simpa using hnot), List.toFinset_card_of_nodup ht.nodup,
        List.length_map] at hcard
      omega
    rw [if_neg hfind, if_neg hroom]
    refine ⟨⟨?_, fun p hp => ?_⟩, fun y => ?_⟩
    · rw [List.map_append, List.nodup_append]
      refine ⟨ht.nodup, by simp, fun a ha b hb => ?_⟩
      obtain rfl : b = x := by simpa using hb
      exact fun h => hnot (h ▸ ha)
    · rcases List.mem_append.mp hp with hp | hp
      · exact ht.sub p hp
      · obtain rfl := List.mem_singleton.mp hp
        exact hx
    · unfold VarKinds.kindOf
      rw [List.lookup_append]
      by_cases hy : y = x
      · subst hy
        rw [hnone, if_pos rfl]
        have hbot : Kind.unknown ⊔ k = k := sup_eq_right.mpr (unknown_le k)
        simp [hbot]
      · rw [if_neg hy]
        have hne : (y == x) = false := by simpa using hy
        simp [List.lookup_cons, hne]

/-! ### The kinds without the table -/

/-- Join a kind into the kind of a name. -/
def joinAt (f : String → Kind) (x : String) (k : Kind) : String → Kind :=
  fun y => if y = x then f y ⊔ k else f y

theorem joinAt_unknown (f : String → Kind) (x : String) : joinAt f x .unknown = f := by
  funext y
  unfold joinAt
  split
  · exact sup_eq_left.mpr (unknown_le _)
  · rfl

/-- The kinds that a relation atom adds. -/
def atomJoin (db : KindDb) (cols : ColKinds) (f : String → Kind) (a : Typecheck.Atom) :
    String → Kind :=
  (atomKinds db cols a).foldl (fun f p => joinAt f p.1 p.2) f

/-- The kind that the result of an atom adds. -/
def resultJoin (db : KindDb) (cols : ColKinds) (f : String → Kind) (a : Typecheck.Atom) :
    String → Kind :=
  (resultKind db cols f a).elim f fun p => joinAt f p.1 p.2

/-- The kinds of the variables of a body, as many as there may be. -/
def bodyFlow (db : KindDb) (cols : ColKinds) (body : List Typecheck.Atom) : String → Kind :=
  body.foldl (resultJoin db cols) (body.foldl (atomJoin db cols) fun _ => .unknown)

/-- The names that an atom enters are variables of it. -/
theorem mem_atomKinds {db : KindDb} {cols : ColKinds} {a : Typecheck.Atom} {p : String × Kind}
    (hp : p ∈ atomKinds db cols a) : p.1 ∈ a.args.filterMap fun t => varName (some t) := by
  unfold atomKinds at hp
  split at hp
  · cases hp
  · split at hp
    · cases hp
    · obtain ⟨q, hq, hsome⟩ := List.mem_filterMap.mp hp
      obtain ⟨x, hx, rfl⟩ := Option.map_eq_some_iff.mp hsome
      exact List.mem_filterMap.mpr ⟨q.1, (List.mem_zipIdx' hq).2 ▸ List.getElem_mem _, hx⟩

/-- The name of a result is a variable of its atom. -/
theorem resultKind_name {db : KindDb} {cols : ColKinds} {f : String → Kind} {a : Typecheck.Atom}
    {p : String × Kind} (hp : resultKind db cols f a = some p) : p.1 ∈ bodyVars [a] := by
  have hvar : ∀ x, varName a.args[0]? = some x → x ∈ bodyVars [a] := fun x hx => by
    cases harg : (a.args[0]? : Option Typecheck.Token) with
    | none => rw [harg] at hx; cases hx
    | some t =>
      rw [harg] at hx
      unfold bodyVars
      rw [List.flatMap_singleton]
      exact List.mem_append_right _ (List.mem_filterMap.mpr ⟨t, List.mem_of_getElem? harg, hx⟩)
  have hagg : a.aggregate = true → a.pred ∈ bodyVars [a] := fun h => by
    simp [bodyVars, h]
  unfold resultKind at hp
  split at hp
  · cases hp
  split at hp
  · rename_i hag
    dsimp only at hp
    split at hp
    · cases hp
      exact hagg hag
    · split at hp
      · cases hp
        exact hagg hag
      · cases hp
  split at hp
  · obtain ⟨x, hx, rfl⟩ := Option.map_eq_some_iff.mp hp
    exact hvar x hx
  split at hp
  · obtain ⟨x, hx, rfl⟩ := Option.map_eq_some_iff.mp hp
    exact hvar x hx
  split at hp
  · obtain ⟨x, hx, hr⟩ := Option.bind_eq_some_iff.mp hp
    obtain ⟨k, -, rfl⟩ := Option.map_eq_some_iff.mp hr
    exact hvar x hx
  · cases hp

/-- **A table with room holds the kinds of the body.** -/
theorem bodyKinds_eq (db : KindDb) (cols : ColKinds) {r : Typecheck.Rule} (hfits : Fits r) :
    (bodyKinds db cols r.body).kindOf = bodyFlow db cols r.body := by
  have hS : (bodyVars r.body).toFinset.card ≤ maxVars := hfits
  generalize hSdef : (bodyVars r.body).toFinset = S at hS
  have hnames : ∀ a ∈ r.body, ∀ x ∈ bodyVars [a], x ∈ S := fun a ha x hx => by
    rw [← hSdef, List.mem_toFinset]
    exact List.mem_flatMap.mpr ⟨a, ha, by simpa [bodyVars] using hx⟩
  -- one pair
  have hpairs : ∀ (l : List (String × Kind)) (t : VarKinds) (f : String → Kind),
      InNames S t → t.kindOf = f → (∀ p ∈ l, p.1 ∈ S) →
      InNames S (l.foldl (fun t p => t.note p.1 p.2) t) ∧
        (l.foldl (fun t p => t.note p.1 p.2) t).kindOf =
          l.foldl (fun f p => joinAt f p.1 p.2) f := by
    intro l
    induction l with
    | nil => exact fun t f ht hf _ => ⟨ht, hf⟩
    | cons p l ih =>
      intro t f ht hf hl
      obtain ⟨ht', hkind⟩ := note_spec hS ht (hl p (by simp)) p.2
      refine ih _ _ ht' ?_ fun q hq => hl q (by simp [hq])
      subst hf
      funext y
      exact hkind y
  -- the relation atoms
  have hatoms : ∀ (l : List Typecheck.Atom) (t : VarKinds) (f : String → Kind),
      InNames S t → t.kindOf = f → (∀ a ∈ l, a ∈ r.body) →
      InNames S (l.foldl (noteAtom db cols) t) ∧
        (l.foldl (noteAtom db cols) t).kindOf = l.foldl (atomJoin db cols) f := by
    intro l
    induction l with
    | nil => exact fun t f ht hf _ => ⟨ht, hf⟩
    | cons a l ih =>
      intro t f ht hf hl
      obtain ⟨ht', hkind⟩ := hpairs (atomKinds db cols a) t f ht hf fun p hp =>
        hnames a (hl a (by simp)) p.1 (by
          unfold bodyVars
          rw [List.flatMap_singleton]
          exact List.mem_append_right _ (mem_atomKinds hp))
      exact ih _ _ ht' hkind fun b hb => hl b (by simp [hb])
  -- the results
  have hresults : ∀ (l : List Typecheck.Atom) (t : VarKinds) (f : String → Kind),
      InNames S t → t.kindOf = f → (∀ a ∈ l, a ∈ r.body) →
      (l.foldl (noteResult db cols) t).kindOf = l.foldl (resultJoin db cols) f := by
    intro l
    induction l with
    | nil => exact fun t f ht hf _ => hf
    | cons a l ih =>
      intro t f ht hf hl
      have hl' : ∀ b ∈ l, b ∈ r.body := fun b hb => hl b (by simp [hb])
      rw [List.foldl_cons, List.foldl_cons]
      unfold noteResult resultJoin
      rw [hf]
      cases hres : resultKind db cols f a with
      | none => exact ih t f ht hf hl'
      | some p =>
        obtain ⟨x, k⟩ := p
        dsimp only [Option.elim]
        by_cases hk : k = .unknown
        · subst hk
          rw [if_pos rfl, joinAt_unknown]
          exact ih t f ht hf hl'
        · rw [if_neg hk]
          obtain ⟨ht', hkind⟩ := note_spec hS ht
            (hnames a (hl a (by simp)) x (resultKind_name hres)) k
          refine ih _ _ ht' ?_ hl'
          subst hf
          funext y
          exact hkind y
  obtain ⟨ht, hkind⟩ := hatoms r.body [] (fun _ => .unknown) ⟨by simp, by simp⟩ rfl fun a ha => ha
  exact hresults r.body _ _ ht hkind fun a ha => ha

/-! ### What is read is passed on -/

/-- An atom reads the kinds of a relation: it is a positive atom of it, or a range over it. -/
def ReadsRel (db : KindDb) (a : Typecheck.Atom) (ri : ℕ) : Prop :=
  a.negated = false ∧
    (relationalAtom db a = some ri ∨
      (isRange a = true ∧ (identName a.args[1]?).bind db.find = some ri))

/-- A relation between kinds that joins keep. -/
structure Joinable (R : Kind → Kind → Prop) : Prop where
  /-- Every kind is related to itself. -/
  refl : ∀ k, R k k
  /-- Joins of related kinds are related. -/
  sup : ∀ {a a' b b'}, R a a' → R b b' → R (a ⊔ b) (a' ⊔ b')

theorem joinable_le : Joinable (· ≤ ·) := ⟨le_refl, fun h h' => sup_le_sup h h'⟩

theorem joinable_eq : Joinable (· = ·) := ⟨fun _ => rfl, fun h h' => by rw [h, h']⟩

/-- The first kind is the second one, unless that is mixed. -/
def Agree (a b : Kind) : Prop := b = .mixed ∨ a = b

instance (a b : Kind) : Decidable (Agree a b) := inferInstanceAs (Decidable (_ ∨ _))

theorem joinable_agree : Joinable Agree where
  refl k := .inr rfl
  sup {a a' b b'} h h' := by
    rcases h with rfl | rfl
    · exact .inl (by cases b' <;> rfl)
    · rcases h' with rfl | rfl
      · exact .inl (by cases a <;> rfl)
      · exact .inr rfl

section Related

variable {R : Kind → Kind → Prop} (hR : Joinable R) {db : KindDb} {cols cols' : ColKinds}
  {f g : String → Kind}
include hR

theorem argKind_rel (hfg : ∀ x, R (f x) (g x)) (arg : Option Typecheck.Token) :
    R (argKind f arg) (argKind g arg) := by
  unfold argKind
  cases varName arg with
  | none => exact hR.refl _
  | some x => exact hfg x

theorem joinAt_rel (hfg : ∀ x, R (f x) (g x)) (x : String) {k k' : Kind} (hk : R k k')
    (y : String) : R (joinAt f x k y) (joinAt g x k' y) := by
  unfold joinAt
  split
  · exact hR.sup (hfg y) hk
  · exact hfg y

theorem atomJoin_rel (hfg : ∀ x, R (f x) (g x)) {a : Typecheck.Atom}
    (hcols : ∀ ri, ReadsRel db a ri → ∀ col n, R (cols ri col n) (cols' ri col n)) (y : String) :
    R (atomJoin db cols f a y) (atomJoin db cols' g a y) := by
  unfold atomJoin atomKinds
  split
  · exact hfg y
  rename_i hpos
  cases hrel : relationalAtom db a with
  | none => exact hfg y
  | some ri =>
    have hread : ∀ col n, R (cols ri col n) (cols' ri col n) :=
      hcols ri ⟨by simpa using hpos, .inl hrel⟩
    dsimp only
    generalize a.args.zipIdx = args
    induction args generalizing f g with
    | nil => exact hfg y
    | cons p args ih =>
      rw [List.filterMap_cons, List.filterMap_cons]
      cases varName (some p.1) with
      | none => exact ih hfg
      | some x => exact ih (joinAt_rel hR hfg x (hread p.2 _))

/-- The results of an atom have the same name and related kinds. -/
theorem resultKind_rel (hfg : ∀ x, R (f x) (g x)) {a : Typecheck.Atom}
    (hcols : ∀ ri, ReadsRel db a ri → ∀ col n, R (cols ri col n) (cols' ri col n)) :
    (resultKind db cols f a = none ∧ resultKind db cols' g a = none) ∨
      ∃ x k k', resultKind db cols f a = some (x, k) ∧ resultKind db cols' g a = some (x, k') ∧
        R k k' := by
  have hsame : ∀ (o : Option String) (k : Kind),
      (o.map (·, k) = none ∧ o.map (·, k) = none) ∨
        ∃ x k' k'', o.map (·, k) = some (x, k') ∧ o.map (·, k) = some (x, k'') ∧ R k' k'' := by
    intro o k
    cases o with
    | none => exact .inl ⟨rfl, rfl⟩
    | some x => exact .inr ⟨x, k, k, rfl, rfl, hR.refl k⟩
  unfold resultKind
  split
  · exact .inl ⟨rfl, rfl⟩
  rename_i hpos
  split
  · dsimp only
    split
    · exact .inr ⟨_, _, _, rfl, rfl, hR.refl _⟩
    · split
      · exact .inr ⟨_, _, _, rfl, rfl, argKind_rel hR hfg _⟩
      · exact .inl ⟨rfl, rfl⟩
  split
  · exact hsame _ _
  split
  · exact hsame _ _
  split
  · rename_i hrange
    cases varName a.args[0]? with
    | none => exact .inl ⟨rfl, rfl⟩
    | some x =>
      unfold rangeKind
      split
      · cases hname : identName a.args[1]? with
        | none => exact .inl ⟨rfl, rfl⟩
        | some rel =>
          simp only [Option.bind_some]
          cases hfind : db.find rel with
          | none => exact .inl ⟨rfl, rfl⟩
          | some ri =>
            refine .inr ⟨x, _, _, rfl, rfl, hcols ri ⟨by simpa using hpos, .inr ⟨hrange, ?_⟩⟩ 0 _⟩
            rw [hname, Option.bind_some, hfind]
      · exact .inl ⟨rfl, rfl⟩
  · exact .inl ⟨rfl, rfl⟩

theorem resultJoin_rel (hfg : ∀ x, R (f x) (g x)) {a : Typecheck.Atom}
    (hcols : ∀ ri, ReadsRel db a ri → ∀ col n, R (cols ri col n) (cols' ri col n)) (y : String) :
    R (resultJoin db cols f a y) (resultJoin db cols' g a y) := by
  unfold resultJoin
  rcases resultKind_rel hR hfg hcols with ⟨h, h'⟩ | ⟨x, k, k', h, h', hk⟩
  · rw [h, h']
    exact hfg y
  · rw [h, h']
    exact joinAt_rel hR hfg x hk y

/-- **The kinds of the variables of a body are related** when those of the relations it reads
are. -/
theorem bodyFlow_rel {body : List Typecheck.Atom}
    (hcols : ∀ a ∈ body, ∀ ri, ReadsRel db a ri → ∀ col n, R (cols ri col n) (cols' ri col n))
    (x : String) : R (bodyFlow db cols body x) (bodyFlow db cols' body x) := by
  have hfold : ∀ (l : List Typecheck.Atom)
      (step step' : (String → Kind) → Typecheck.Atom → String → Kind) (f g : String → Kind),
      (∀ a ∈ l, ∀ f g : String → Kind, (∀ x, R (f x) (g x)) → ∀ x, R (step f a x) (step' g a x)) →
      (∀ x, R (f x) (g x)) → ∀ x, R (l.foldl step f x) (l.foldl step' g x) := by
    intro l step step'
    induction l with
    | nil => exact fun f g _ hfg => hfg
    | cons a l ih =>
      intro f g hstep hfg
      exact ih _ _ (fun b hb => hstep b (List.mem_cons_of_mem _ hb))
        (hstep a List.mem_cons_self f g hfg)
  refine hfold body (resultJoin db cols) (resultJoin db cols') _ _
    (fun a ha f g hfg => resultJoin_rel hR hfg (hcols a ha)) ?_ x
  exact hfold body (atomJoin db cols) (atomJoin db cols') _ _
    (fun a ha f g hfg => atomJoin_rel hR hfg (hcols a ha)) fun _ => hR.refl _

end Related

/-! ## The flow -/

/-- The kind of a column, its record joined with what has flowed into it.  The records of the
columns `old` of empty relations are left out. -/
def readWithout (old : ℕ → ℕ → Bool) (db : KindDb) (cache : Cache) : ColKinds :=
  fun ri col arity =>
    if maxArity ≤ col ∨ maxArity < arity ∨ arity = 0 ∨ maxRels ≤ ri then .unknown
    else
      match db.rels[ri]? with
      | none => .unknown
      | some e =>
        if e.variadic then .unknown
        else
          match db.declared e with
          | some rd =>
            match rd.cols[col]? with
            | some ct => colTypeKind ct
            | none => .unknown
          | none =>
            kindJoin (if e.empty && old ri col then .unknown else .ofRecord (e.colKind col))
              (cache ri col)

/-- No record is left out. -/
def noOld : ℕ → ℕ → Bool := fun _ _ => false

/-- The kind of a column, its record joined with what has flowed into it. -/
def flowRead (db : KindDb) (cache : Cache) : ColKinds := readWithout noOld db cache

/-- The kind that a rule passes on to a column when the columns have the kinds `cols`. -/
def rulePass (db : KindDb) (cols : ColKinds) (r : Typecheck.Rule) (ri col : ℕ) : Kind :=
  if headTarget db r = some ri then argKind (bodyFlow db cols r.body) r.head.args[col]?
  else .unknown

/-- The kind that a rule passes on to a column. -/
def ruleFlow (db : KindDb) (cache : Cache) (r : Typecheck.Rule) (ri col : ℕ) : Kind :=
  rulePass db (flowRead db cache) r ri col

/-- What a rule passes on is related when what it reads is. -/
theorem rulePass_rel {R : Kind → Kind → Prop} (hR : Joinable R) {db : KindDb}
    {cols cols' : ColKinds} {r : Typecheck.Rule}
    (hcols : ∀ a ∈ r.body, ∀ ri, ReadsRel db a ri → ∀ col n, R (cols ri col n) (cols' ri col n))
    (ri col : ℕ) : R (rulePass db cols r ri col) (rulePass db cols' r ri col) := by
  unfold rulePass
  split
  · exact argKind_rel hR (bodyFlow_rel hR hcols) _
  · exact hR.refl _

/-- What a rule gives a column: what it passes on, joined with the kind of the rows. -/
def ruleGives (db : KindDb) (cols : ColKinds) (r : Typecheck.Rule) (ri col : ℕ) : Kind :=
  let k := rulePass db cols r ri col
  if k = .unknown then .unknown else kindJoin (seedKind db ri col 1) k

/-- All rules applied at once. -/
def flowStep (db : KindDb) (rules : List Typecheck.Rule) (cache : Cache) : Cache :=
  fun ri col => rules.foldr
    (fun r k => kindJoin (ruleGives db (flowRead db cache) r ri col) k) .unknown

/-- What has flowed after so many steps. -/
def flowKinds (db : KindDb) (rules : List Typecheck.Rule) : ℕ → Cache
  | 0 => .zero
  | n + 1 => flowStep db rules (flowKinds db rules n)

/-- What has flowed after as many steps as the propagation has rounds. -/
def settledKinds (db : KindDb) (rules : List Typecheck.Rule) : Cache := flowKinds db rules 64

/-- One rule applied, its columns joined with what it gives them. -/
def passOn (db : KindDb) (old : ℕ → ℕ → Bool) (cache : Cache) (r : Typecheck.Rule) : Cache :=
  fun ri col => kindJoin (cache ri col) (ruleGives db (readWithout old db cache) r ri col)

/-- What has flowed after so many rounds through the list, rule after rule. -/
def listKinds (db : KindDb) (old : ℕ → ℕ → Bool) (rules : List Typecheck.Rule) : ℕ → Cache
  | 0 => .zero
  | n + 1 => rules.foldl (passOn db old) (listKinds db old rules n)

theorem readWithout_mono (old : ℕ → ℕ → Bool) (db : KindDb) {cache cache' : Cache}
    (h : cache ≤ cache') : readWithout old db cache ≤ readWithout old db cache' := by
  intro ri col arity
  unfold readWithout
  split
  · exact le_rfl
  cases db.rels[ri]? with
  | none => exact le_rfl
  | some e =>
    dsimp only
    split
    · exact le_rfl
    cases db.declared e with
    | some rd => exact le_rfl
    | none => exact sup_le_sup le_rfl (h ri col)

theorem rulePass_readWithout_mono (old : ℕ → ℕ → Bool) (db : KindDb) {cache cache' : Cache}
    (h : cache ≤ cache') (r : Typecheck.Rule) (ri col : ℕ) :
    rulePass db (readWithout old db cache) r ri col ≤
      rulePass db (readWithout old db cache') r ri col :=
  rulePass_rel joinable_le (fun _ _ ri _ col n => readWithout_mono old db h ri col n) ri col

theorem rulePass_le_ruleGives (db : KindDb) (cols : ColKinds) (r : Typecheck.Rule) (ri col : ℕ) :
    rulePass db cols r ri col ≤ ruleGives db cols r ri col := by
  unfold ruleGives
  dsimp only
  split
  · next hk => exact hk.le
  · exact le_sup_right

theorem ruleGives_mono (old : ℕ → ℕ → Bool) (db : KindDb) {cache cache' : Cache}
    (h : cache ≤ cache') (r : Typecheck.Rule) (ri col : ℕ) :
    ruleGives db (readWithout old db cache) r ri col ≤
      ruleGives db (readWithout old db cache') r ri col := by
  have hle := rulePass_readWithout_mono old db h r ri col
  unfold ruleGives
  dsimp only
  split
  · exact unknown_le _
  · rename_i hk
    split
    · rename_i hk'
      rw [hk'] at hle
      exact absurd (le_antisymm hle (unknown_le _)) hk
    · exact sup_le_sup le_rfl hle

/-- A column that is read with what has flowed, or else its record, agrees with the join of
the two, where a record that is left out is one that is not read. -/
theorem relColKind_agree {old : ℕ → ℕ → Bool} {db : KindDb} {cache : Cache} {ri col : ℕ}
    (hold : old ri col = true → cache ri col ≠ .unknown) (n : ℕ) :
    Agree (relColKind db cache ri col n) (readWithout old db cache ri col n) := by
  unfold relColKind readWithout
  split
  · exact .inr rfl
  cases db.rels[ri]? with
  | none => exact .inr rfl
  | some e =>
    dsimp only
    split
    · exact .inr rfl
    unfold entryKind
    cases db.declared e with
    | some rd => exact .inr rfl
    | none =>
      dsimp only
      by_cases hcell : cache ri col = .unknown
      · rw [if_neg (not_not.mpr hcell), if_neg (by simp [mt hold (not_not.mpr hcell)]), hcell]
        exact .inr (sup_eq_left.mpr (unknown_le _)).symm
      · rw [if_pos hcell]
        generalize (if (e.empty && old ri col) = true then Kind.unknown
          else .ofRecord (e.colKind col)) = k
        generalize cache ri col = k' at hcell
        revert hcell
        cases k <;> cases k' <;> decide

/-! ### Rules at once -/

/-- The join over the rules: it is above each, and below what is above each. -/
theorem flowStep_le_iff {db : KindDb} {rules : List Typecheck.Rule} {cache cache' : Cache} :
    flowStep db rules cache ≤ cache' ↔
      ∀ r ∈ rules, ∀ ri col, ruleGives db (flowRead db cache) r ri col ≤ cache' ri col := by
  have hfold : ∀ ri col k, rules.foldr
      (fun r k => kindJoin (ruleGives db (flowRead db cache) r ri col) k) .unknown ≤ k ↔
        ∀ r ∈ rules, ruleGives db (flowRead db cache) r ri col ≤ k := by
    intro ri col k
    induction rules with
    | nil => simp [unknown_le]
    | cons r rules ih =>
      rw [List.foldr_cons, kindJoin_eq_sup, sup_le_iff, ih]
      simp
  constructor
  · intro h r hr ri col
    exact (hfold ri col _).mp (h ri col) r hr
  · intro h ri col
    exact (hfold ri col _).mpr fun r hr => h r hr ri col

theorem flowStep_mono (db : KindDb) (rules : List Typecheck.Rule) {cache cache' : Cache}
    (h : cache ≤ cache') : flowStep db rules cache ≤ flowStep db rules cache' :=
  flowStep_le_iff.mpr fun r hr ri col =>
    (ruleGives_mono _ db h r ri col).trans (flowStep_le_iff.mp le_rfl r hr ri col)

theorem flowStep_perm (db : KindDb) {rules rules' : List Typecheck.Rule}
    (h : rules.Perm rules') : flowStep db rules = flowStep db rules' := by
  funext cache
  refine le_antisymm ?_ ?_
  · exact flowStep_le_iff.mpr fun r hr => flowStep_le_iff.mp le_rfl r (h.mem_iff.mp hr)
  · exact flowStep_le_iff.mpr fun r hr => flowStep_le_iff.mp le_rfl r (h.mem_iff.mpr hr)

/-- The flow does not depend on the order of the rules. -/
theorem flowKinds_perm (db : KindDb) {rules rules' : List Typecheck.Rule}
    (h : rules.Perm rules') (n : ℕ) : flowKinds db rules n = flowKinds db rules' n := by
  induction n with
  | zero => rfl
  | succ n ih =>
    unfold flowKinds
    rw [ih, flowStep_perm db h]

/-! ### Rule after rule -/

section List

variable (db : KindDb) (old : ℕ → ℕ → Bool)

theorem le_passOn (cache : Cache) (r : Typecheck.Rule) : cache ≤ passOn db old cache r :=
  fun _ _ => le_sup_left

theorem passOn_mono (r : Typecheck.Rule) {cache cache' : Cache} (h : cache ≤ cache') :
    passOn db old cache r ≤ passOn db old cache' r :=
  fun ri col => sup_le_sup (h ri col) (ruleGives_mono old db h r ri col)

theorem le_foldl_passOn (rules : List Typecheck.Rule) (cache : Cache) :
    cache ≤ rules.foldl (passOn db old) cache := by
  induction rules generalizing cache with
  | nil => exact le_rfl
  | cons r rules ih => exact (le_passOn db old cache r).trans (ih _)

theorem foldl_passOn_mono (rules : List Typecheck.Rule) {cache cache' : Cache}
    (h : cache ≤ cache') :
    rules.foldl (passOn db old) cache ≤ rules.foldl (passOn db old) cache' := by
  induction rules generalizing cache cache' with
  | nil => exact h
  | cons r rules ih => exact ih (passOn_mono db old r h)

variable {db old}

/-- What no rule adds to stays as it is. -/
theorem foldl_passOn_of_closed {rules : List Typecheck.Rule} {cache : Cache}
    (h : ∀ r ∈ rules, passOn db old cache r = cache) :
    rules.foldl (passOn db old) cache = cache := by
  induction rules with
  | nil => rfl
  | cons r rules ih =>
    rw [List.foldl_cons, h r List.mem_cons_self]
    exact ih fun r' hr' => h r' (List.mem_cons_of_mem r hr')

/-- What is closed under the rules has all that flows. -/
theorem listKinds_le {rules : List Typecheck.Rule} {cache : Cache}
    (h : ∀ r ∈ rules, passOn db old cache r = cache) (n : ℕ) :
    listKinds db old rules n ≤ cache := by
  induction n with
  | zero => exact fun _ _ => unknown_le _
  | succ n ih =>
    unfold listKinds
    calc rules.foldl (passOn db old) (listKinds db old rules n)
        ≤ rules.foldl (passOn db old) cache := foldl_passOn_mono db old rules ih
      _ = cache := foldl_passOn_of_closed h

/-- Rounds that change nothing any more. -/
theorem listKinds_add {rules : List Typecheck.Rule} {k : ℕ}
    (h : rules.foldl (passOn db old) (listKinds db old rules k) = listKinds db old rules k)
    (n : ℕ) : listKinds db old rules (k + n) = listKinds db old rules k := by
  induction n with
  | zero => rfl
  | succ n ih =>
    rw [← Nat.add_assoc, listKinds, ih, h]

end List

/-- A step of all rules at once gives no more than a round through the list. -/
theorem flowStep_le_foldl (db : KindDb) (rules : List Typecheck.Rule) (cache : Cache) :
    flowStep db rules cache ≤ rules.foldl (passOn db noOld) cache := by
  refine flowStep_le_iff.mpr fun r hr ri col => ?_
  obtain ⟨pre, post, rfl⟩ := List.append_of_mem hr
  rw [List.foldl_append, List.foldl_cons]
  have hpre := le_foldl_passOn db noOld pre cache
  generalize pre.foldl (passOn db noOld) cache = cache₁ at hpre ⊢
  calc ruleGives db (flowRead db cache) r ri col
      ≤ ruleGives db (flowRead db cache₁) r ri col := ruleGives_mono _ db hpre r ri col
    _ ≤ passOn db noOld cache₁ r ri col := le_sup_right
    _ ≤ post.foldl (passOn db noOld) (passOn db noOld cache₁ r) ri col :=
      le_foldl_passOn db noOld post _ ri col

/-- **Kinds that have settled are those of every list of the rules.** -/
theorem listKinds_eq_settled {db : KindDb} {rules : List Typecheck.Rule}
    (h : flowStep db rules (settledKinds db rules) ≤ settledKinds db rules) :
    (∀ r ∈ rules, passOn db noOld (settledKinds db rules) r = settledKinds db rules) ∧
      listKinds db noOld rules 64 = settledKinds db rules := by
  have hclosed : ∀ r ∈ rules, passOn db noOld (settledKinds db rules) r = settledKinds db rules :=
    fun r hr => funext fun ri => funext fun col =>
      sup_eq_left.mpr (flowStep_le_iff.mp h r hr ri col)
  refine ⟨hclosed, le_antisymm (listKinds_le hclosed 64) ?_⟩
  have hle : ∀ n, flowKinds db rules n ≤ listKinds db noOld rules n := by
    intro n
    induction n with
    | zero => exact le_rfl
    | succ n ih => exact (flowStep_mono db rules ih).trans (flowStep_le_foldl db rules _)
  exact hle 64

end DatalogDafsa.Kinds
