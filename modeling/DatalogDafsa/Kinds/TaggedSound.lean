import DatalogDafsa.Kinds.Tagged

/-!
# The check and tagged values

When the rounds settle and no column becomes mixed, the kinds that the check has
settled on are kinds that the accepted rules respect, and the facts have them; so the
program is read the same on words and on tagged values.  A mixed column has no kind to
the check: numbers and symbols may meet in a rule that reads one.  The record of an
empty relation can be stale; it does no harm when a rule gives the column a kind before
another reads it.

## Main definitions

* `FixedDb` — fixed relations without a schema.
* `KindsApart` — no column of the flow is mixed.

## Main results

* `wellKinded_of_check` — an accepted rule respects the settled kinds.
* `evaluate_erase_of_check` — an accepted program is read the same.
-/

namespace DatalogDafsa.Kinds

open Operators (Stratified)

/-! ## Atoms and their sites -/

section Atoms

variable {db : KindDb} {r : Typecheck.Rule}

/-- Fixed relations without a schema, within the bounds of the engine. -/
structure FixedDb (db : KindDb) : Prop where
  /-- No schema is attached. -/
  schema : db.schema = none
  /-- At most `MAX_RELS` relations. -/
  length_le : db.rels.length ≤ maxRels
  /-- None is variadic. -/
  fixed : ∀ e ∈ db.rels, e.variadic = false
  /-- The arities. -/
  arity : ∀ e ∈ db.rels, e.arity ≠ 0 ∧ e.arity ≤ maxArity

theorem OverDb.bounds (hdb : FixedDb db) {a : Typecheck.Atom} (ha : OverDb db a) :
    a.args.length ≠ 0 ∧ a.args.length ≤ maxArity := by
  obtain ⟨ri, e, -, he, harity⟩ := ha.rel
  exact harity ▸ hdb.arity e (List.mem_of_getElem? he)

/-- The check looks at the atom. -/
theorem OverDb.relationalAtom (hdb : FixedDb db) {a : Typecheck.Atom} (ha : OverDb db a) :
    relationalAtom db a = db.find a.pred := by
  obtain ⟨hne, hle⟩ := ha.bounds hdb
  have hguard : ¬ (a.aggregate || isBuiltinPred a || decide (a.args.length = 0) ||
      decide (maxArity < a.args.length)) = true := by
    simp only [ha.aggregate, ha.builtin, Bool.false_or, Bool.or_eq_true, decide_eq_true_eq, not_or]
    omega
  unfold Kinds.relationalAtom
  rw [if_neg hguard]

/-- A relation atom is no builtin that binds a variable. -/
theorem not_builtin {a : Typecheck.Atom} (h : isBuiltinPred a = false) :
    isArith a = false ∧ isStrProducing a = false ∧ isRange a = false := by
  unfold isBuiltinPred at h
  simp only [Bool.or_eq_false_iff] at h
  tauto

/-- It binds no result. -/
theorem OverDb.resultKind {a : Typecheck.Atom} (ha : OverDb db a) (cols : ColKinds)
    (f : String → Kind) : resultKind db cols f a = none := by
  obtain ⟨harith, hstr, hrange⟩ := not_builtin ha.builtin
  unfold Kinds.resultKind
  simp [ha.aggregate, harith, hstr, hrange]

/-! ## The kinds that reach a head -/

/-- A variable has at least the kind of each positive site. -/
theorem le_bodyFlow (hdb : FixedDb db) (hrel : Relational db r) {cols : ColKinds}
    {a : Typecheck.Atom} (ha : a ∈ r.body) (hpos : a.negated = false) {x : String} {ri col : ℕ}
    (hs : SiteOf db a x ri col) : cols ri col a.args.length ≤ bodyFlow db cols r.body x := by
  have hpairs : ∀ (l : List (String × Kind)) (f : String → Kind),
      f ≤ l.foldl (fun f p => joinAt f p.1 p.2) f ∧
        ∀ p ∈ l, p.2 ≤ l.foldl (fun f p => joinAt f p.1 p.2) f p.1 := by
    intro l
    induction l with
    | nil => exact fun f => ⟨le_rfl, fun p hp => (by cases hp)⟩
    | cons p l ih =>
      intro f
      obtain ⟨hle, hall⟩ := ih (joinAt f p.1 p.2)
      have hstep : f ≤ joinAt f p.1 p.2 := by
        intro y
        unfold joinAt
        split
        · exact le_sup_left
        · exact le_rfl
      refine ⟨hstep.trans hle, fun q hq => ?_⟩
      rcases List.mem_cons.mp hq with rfl | hq
      · refine le_trans ?_ (hle q.1)
        unfold joinAt
        rw [if_pos rfl]
        exact le_sup_right
      · exact hall q hq
  have hatoms : ∀ (l : List Typecheck.Atom) (f : String → Kind), (∀ b ∈ l, b ∈ r.body) →
      f ≤ l.foldl (atomJoin db cols) f ∧
        (a ∈ l → cols ri col a.args.length ≤ l.foldl (atomJoin db cols) f x) := by
    intro l
    induction l with
    | nil => exact fun f _ => ⟨le_rfl, fun h => (by cases h)⟩
    | cons b l ih =>
      intro f hl
      obtain ⟨hle, hin⟩ := ih (atomJoin db cols f b) fun c hc => hl c (by simp [hc])
      obtain ⟨hgrow, hall⟩ := hpairs (atomKinds db cols b) f
      refine ⟨hgrow.trans hle, fun hmem => ?_⟩
      rcases List.mem_cons.mp hmem with rfl | hmem
      · refine le_trans (hall (x, cols ri col a.args.length) ?_) (hle x)
        obtain ⟨hri, hvar⟩ := hs
        obtain ⟨t, ht, htvar⟩ := exists_of_varName_get hvar
        unfold atomKinds
        rw [if_neg (by simp [hpos]), (hrel.body a ha).relationalAtom hdb, hri]
        refine List.mem_filterMap.mpr ⟨(t, col), List.mem_zipIdx_iff_getElem?.mpr ht, ?_⟩
        rw [htvar, Option.map_some]
      · exact hin hmem
  have hresults : ∀ (l : List Typecheck.Atom) (f : String → Kind), (∀ b ∈ l, b ∈ r.body) →
      l.foldl (resultJoin db cols) f = f := by
    intro l
    induction l with
    | nil => exact fun f _ => rfl
    | cons b l ih =>
      intro f hl
      have hone : resultJoin db cols f b = f := by
        unfold resultJoin
        rw [(hrel.body b (hl b (by simp))).resultKind]
        rfl
      rw [List.foldl_cons, hone]
      exact ih f fun c hc => hl c (by simp [hc])
  unfold bodyFlow
  rw [hresults _ _ fun b hb => hb]
  exact (hatoms r.body _ fun b hb => hb).2 ha

end Atoms

/-! ## Settled kinds -/

/-- The flow of kinds along the list settles, and no column of it is mixed.  The records `old`
of empty relations are left out: no rule reads them. -/
structure KindsApart (db : KindDb) (old : ℕ → ℕ → Bool) (rules : List Typecheck.Rule) : Prop where
  /-- Before a rule reads a column whose record is left out, a rule gives it a kind. -/
  given : ∀ pre r post, rules = pre ++ r :: post → ∀ a ∈ r.body, ∀ ri, ReadsRel db a ri →
    ∀ col, old ri col = true → pre.foldl (passOn db old) .zero ri col ≠ .unknown
  /-- No rule adds to what has flowed in 64 rounds. -/
  short : ∀ r ∈ rules, passOn db old (listKinds db old rules 64) r = listKinds db old rules 64
  /-- Numbers and symbols do not flow into one column. -/
  unmixed : Unmixed (listKinds db old rules 64)

/-- The kinds of the columns that the rules settle on. -/
def settledColumns (db : KindDb) (old : ℕ → ℕ → Bool) (rules : List Typecheck.Rule) : Columns :=
  fun ri col => relColKind db (listKinds db old rules 64) ri col 1

section Settled

variable {db : KindDb} {old : ℕ → ℕ → Bool} {rules : List Typecheck.Rule}

/-- What a rule passes on is what has flowed into its head column. -/
theorem KindsApart.pass_le (hapart : KindsApart db old rules) {r : Typecheck.Rule} (hr : r ∈ rules)
    (ri col : ℕ) : rulePass db (readWithout old db (listKinds db old rules 64)) r ri col ≤
      listKinds db old rules 64 ri col := by
  have hle : ruleGives db (readWithout old db (listKinds db old rules 64)) r ri col ≤
      passOn db old (listKinds db old rules 64) r ri col := le_sup_right
  rw [hapart.short r hr] at hle
  exact (rulePass_le_ruleGives db _ r ri col).trans hle

/-- **Every rule is heard when its turn comes.** -/
theorem KindsApart.tracked (hapart : KindsApart db old rules) (hfits : ∀ r ∈ rules, Fits r) :
    Tracked db old rules (listKinds db old rules 64) fun _ => True where
  fits := hfits
  closed := hapart.short
  zero := trivial
  heard pre r post hsplit cache hw _ hpre := by
    refine heard_of_unmixed (fun a ha ri hread col hold hcell => ?_) fun ri col hmix => ?_
    · have hle := hpre ri col
      rw [hcell] at hle
      exact hapart.given pre r post hsplit a ha ri hread col hold (le_antisymm hle (unknown_le _))
    · have hle := (rulePass_readWithout_mono old db hw.le r ri col).trans
        (hapart.pass_le (r := r) (by simp [hsplit]) ri col)
      rw [hmix] at hle
      refine hapart.unmixed ri col (le_antisymm ?_ hle)
      generalize listKinds db old rules 64 ri col = k
      cases k <;> rfl
  keep _ _ _ _ _ _ _ _ := trivial

/-- A column that a rule reads has been given a kind, when its record is left out. -/
theorem KindsApart.given_settled (hapart : KindsApart db old rules) {r : Typecheck.Rule}
    (hr : r ∈ rules) {a : Typecheck.Atom} (ha : a ∈ r.body) {ri : ℕ} (hread : ReadsRel db a ri)
    {col : ℕ} (hold : old ri col = true) : listKinds db old rules 64 ri col ≠ .unknown := by
  obtain ⟨pre, post, hsplit⟩ := List.append_of_mem hr
  intro hcell
  have hle : pre.foldl (passOn db old) .zero ≤ listKinds db old rules 64 := by
    calc pre.foldl (passOn db old) .zero
        ≤ pre.foldl (passOn db old) (listKinds db old rules 64) :=
          foldl_passOn_mono db old pre fun _ _ => unknown_le _
      _ = listKinds db old rules 64 :=
          foldl_passOn_of_closed fun r' hr' => hapart.short r' (by simp [hsplit, hr'])
  have hcol := hle ri col
  rw [hcell] at hcol
  exact hapart.given pre r post hsplit a ha ri hread col hold (le_antisymm hcol (unknown_le _))

/-- Without a schema a column has the kind that flows into it, else its record. -/
theorem relColKind_fixed (hdb : FixedDb db) {cache : Cache} {ri col : ℕ} {e : RelEntry}
    (he : db.rels[ri]? = some e) (hcol : col < e.arity) : relColKind db cache ri col 1 =
      if cache ri col ≠ .unknown then cache ri col else .ofRecord (e.colKind col) := by
  have hmem := List.mem_of_getElem? he
  have hri : ri < db.rels.length := (List.getElem?_eq_some_iff.mp he).1
  have hlen := hdb.length_le
  have harity := (hdb.arity e hmem).2
  have hguard : ¬ (maxArity ≤ col ∨ maxArity < 1 ∨ 1 = 0 ∨ maxRels ≤ ri) := by
    have : ¬ maxArity < 1 := by decide
    omega
  have hdecl : db.declared e = none := by
    rw [KindDb.declared, hdb.schema]
    rfl
  unfold relColKind
  rw [if_neg hguard, he]
  dsimp only
  rw [hdb.fixed e hmem, if_neg Bool.false_ne_true, entryKind, hdecl]

theorem settledColumns_ne_mixed (hdb : FixedDb db) (hapart : KindsApart db old rules) {ri col : ℕ}
    {e : RelEntry} (he : db.rels[ri]? = some e) (hcol : col < e.arity) :
    settledColumns db old rules ri col ≠ .mixed := by
  unfold settledColumns
  rw [relColKind_fixed hdb he hcol]
  split
  · exact hapart.unmixed ri col
  · cases e.colKind col with
    | none => exact fun h => by cases h
    | some d => cases d <;> exact fun h => by cases h

/-- A known kind below one that is not mixed is that kind. -/
theorem eq_of_ofRecord_le {d : Definite} {k : Kind} (h : Kind.ofRecord (some d) ≤ k)
    (hk : k ≠ .mixed) : k = .ofRecord (some d) := by
  revert h
  cases d <;> cases k <;> first | exact absurd rfl hk | decide

/-- The relation of the head of a rule is its target. -/
theorem headTarget_eq (hdb : FixedDb db) {r : Typecheck.Rule} (hrel : Relational db r) {ri : ℕ}
    (hri : db.find r.head.pred = some ri) : headTarget db r = some ri := by
  obtain ⟨ri', e, hri', he, -⟩ := hrel.head.rel
  obtain rfl := Option.some.inj (hri.symm.trans hri')
  obtain ⟨hne, hle⟩ := hrel.head.bounds hdb
  have hlt : ri < maxRels := lt_of_lt_of_le (List.getElem?_eq_some_iff.mp he).1 hdb.length_le
  have hvariadic : db.isVariadic ri = false := by
    unfold KindDb.isVariadic
    rw [he]
    exact hdb.fixed e (List.mem_of_getElem? he)
  have hguard : ¬ (r.head.aggregate || decide (r.head.args.length = 0) ||
      decide (maxArity < r.head.args.length)) = true := by
    simp only [hrel.head.aggregate, Bool.false_or, Bool.or_eq_true, decide_eq_true_eq, not_or]
    omega
  unfold headTarget
  rw [if_neg hguard, hri, Option.filter_some, if_pos (by simp [hlt, hvariadic])]

/-- **An accepted rule respects the settled kinds.** -/
theorem wellKinded_of_check (hdb : FixedDb db) (hapart : KindsApart db old rules)
    {r : Typecheck.Rule} (hr : r ∈ rules) (hrel : Relational db r)
    (hcheck : checkRule db (listKinds db old rules 64) r = true) :
    WellKinded db (settledColumns db old rules) r := by
  rw [checkRule, Bool.and_eq_true] at hcheck
  obtain ⟨hvars, hconsts⟩ := hcheck
  have harity : ∀ {a : Typecheck.Atom}, OverDb db a → ∀ ri col,
      relColKind db (listKinds db old rules 64) ri col a.args.length =
        settledColumns db old rules ri col :=
    fun ha ri col => relColKind_arity (ha.bounds hdb).1 (ha.bounds hdb).2
  have hsite : ∀ {x : String} {a : Typecheck.Atom} {ri col : ℕ}, a ∈ r.body →
      SiteOf db a x ri col → HasSite db (relColKind db (listKinds db old rules 64)) r x
        (settledColumns db old rules ri col) := by
    intro x a ri col ha hs
    rw [← harity (hrel.body a ha)]
    exact .column ha (((hrel.body a ha).relationalAtom hdb).trans hs.1) hs.2
  constructor
  · intro x hx a ha b hb ri col ri' col' hs hs' hjoin
    have hint := hsite ha hs
    have hsym := hsite hb hs'
    rw [hjoin.1] at hint
    rw [hjoin.2] at hsym
    exact not_both_of_check hrel.fits hvars hx hint hsym
  · intro a ha ri hri col t ht
    have hcol := const_of_check hconsts (List.mem_cons_of_mem _ ha)
      (((hrel.body a ha).relationalAtom hdb).trans hri) ht
    rw [harity (hrel.body a ha)] at hcol
    obtain ⟨ri', e, hri', he, hlen⟩ := (hrel.body a ha).rel
    obtain rfl := Option.some.inj (hri.symm.trans hri')
    have hlt : col < e.arity := by
      rw [hlen]
      exact (List.getElem?_eq_some_iff.mp ht).1
    have hmixed := settledColumns_ne_mixed hdb hapart he hlt
    tauto
  · intro ri hri col x hvar a ha hpos ri' col' hs d hd
    obtain ⟨hri0, e, hri0eq, he, hlen⟩ := hrel.head.rel
    obtain rfl := Option.some.inj (hri.symm.trans hri0eq)
    have hlt : col < e.arity := by
      rw [hlen]
      obtain ⟨t, ht, -⟩ := exists_of_varName_get hvar
      exact (List.getElem?_eq_some_iff.mp ht).1
    have htarget := headTarget_eq hdb hrel hri
    -- What the variable reads flows into the column.
    have hflow : readWithout old db (listKinds db old rules 64) ri' col' a.args.length ≤
        listKinds db old rules 64 ri col := by
      refine le_trans ?_ (hapart.pass_le hr ri col)
      unfold rulePass
      rw [if_pos htarget, argKind, hvar]
      exact le_bodyFlow hdb hrel ha hpos hs
    have hread : ReadsRel db a ri' :=
      ⟨hpos, .inl (((hrel.body a ha).relationalAtom hdb).trans hs.1)⟩
    have hagree : Agree (relColKind db (listKinds db old rules 64) ri' col' a.args.length)
        (readWithout old db (listKinds db old rules 64) ri' col' a.args.length) :=
      relColKind_agree (fun hold => hapart.given_settled hr ha hread hold) _
    rw [harity (hrel.body a ha), hd] at hagree
    have hcell : listKinds db old rules 64 ri col = .ofRecord (some d) := by
      rcases hagree with hmix | heq
      · rw [hmix] at hflow
        refine absurd (le_antisymm ?_ hflow) (hapart.unmixed ri col)
        generalize listKinds db old rules 64 ri col = k
        cases k <;> rfl
      · rw [← heq] at hflow
        exact eq_of_ofRecord_le hflow (hapart.unmixed ri col)
    rw [settledColumns, relColKind_fixed hdb he hlt, hcell, if_pos]
    cases d <;> decide

/-- The facts are in relations of the database, in columns whose kinds are recorded. -/
def Recorded (db : KindDb) (B : ℕ → Set (List Tagged)) : Prop :=
  ∀ ri, ∀ row ∈ B ri, ∃ e, db.rels[ri]? = some e ∧ row.length = e.arity ∧ e.empty = false ∧
    ∀ (col : ℕ) v, row[col]? = some v → e.colKind col = some v.kind

/-- The facts have the settled kinds. -/
theorem Recorded.hasKinds (hdb : FixedDb db) (hapart : KindsApart db old rules)
    {B : ℕ → Set (List Tagged)} (hB : Recorded db B) :
    ∀ ri, ∀ row ∈ B ri, HasKinds (settledColumns db old rules) ri row := by
  intro ri row hrow col v hv
  obtain ⟨e, he, hlen, hempty, hkinds⟩ := hB ri row hrow
  have hcol : col < e.arity := hlen ▸ (List.getElem?_eq_some_iff.mp hv).1
  have hrec := hkinds col v hv
  rw [settledColumns, relColKind_fixed hdb he hcol, hrec]
  split
  · next hcell =>
    have hseed := listKinds_seeded db old rules 64 ri col hcell
    have hkind : seedKind db ri col 1 = .ofRecord (some v.kind) := by
      have hhead : db.headEmpty ri = false := by
        unfold KindDb.headEmpty
        rw [he]
        simp [hempty]
      rw [seedKind, hhead, if_neg Bool.false_ne_true, relColKind_fixed hdb he hcol, hrec]
      exact if_neg (not_not.mpr rfl)
    rw [hkind] at hseed
    exact eq_of_ofRecord_le hseed (hapart.unmixed ri col)
  · rfl

end Settled

/-! ## Rules over unary relations -/

theorem fixedDb_unaryDb {rels : List (String × Option Definite × Bool)} (h : rels.length ≤ maxRels) :
    FixedDb (unaryDb rels) where
  schema := rfl
  length_le := by simpa [unaryDb] using h
  fixed e he := by
    obtain ⟨p, -, rfl⟩ := List.mem_map.mp he
    rfl
  arity e he := by
    obtain ⟨p, -, rfl⟩ := List.mem_map.mp he
    exact ⟨one_ne_zero, show 1 ≤ maxArity by decide⟩

theorem overDb_unaryAtom {rels : List (String × Option Definite × Bool)} {p x : String}
    (hbuiltin : isBuiltinPred (unaryAtom p x) = false)
    (h : ((unaryDb rels).find p).isSome = true) : OverDb (unaryDb rels) (unaryAtom p x) where
  aggregate := rfl
  builtin := hbuiltin
  rel := by
    obtain ⟨ri, hri⟩ := Option.isSome_iff_exists.mp h
    obtain ⟨hlt, -⟩ := List.findIdx?_eq_some_iff_getElem.mp hri
    have hlt' : ri < rels.length := by simpa [unaryDb] using hlt
    refine ⟨ri, _, hri, List.getElem?_eq_getElem hlt, ?_⟩
    simp [unaryDb, unaryAtom]
  flat t ht := by
    rw [List.mem_singleton.mp ht]
    rfl

/-- A rule over known unary relations is one that the compiler takes. -/
theorem relational_unaryRule {rels : List (String × Option Definite × Bool)} {p q : String}
    {qs : List String} (hall : ∀ n ∈ p :: q :: qs, isBuiltinPred (unaryAtom n "X") = false ∧
      ((unaryDb rels).find n).isSome = true) : Relational (unaryDb rels) (unaryRule p (q :: qs)) := by
  have hatom : ∀ n ∈ p :: q :: qs, OverDb (unaryDb rels) (unaryAtom n "X") := fun n hn =>
    overDb_unaryAtom (hall n hn).1 (hall n hn).2
  have hbody : ∀ a ∈ (unaryRule p (q :: qs)).body, ∃ n ∈ q :: qs, a = unaryAtom n "X" := by
    intro a ha
    obtain ⟨n, hn, rfl⟩ := List.mem_map.mp ha
    exact ⟨n, hn, rfl⟩
  constructor
  · exact hatom p (by simp)
  · intro t ht
    rw [List.mem_singleton.mp ht]
    rfl
  · intro a ha
    obtain ⟨n, hn, rfl⟩ := hbody a ha
    exact hatom n (List.mem_cons_of_mem _ hn)
  · intro t ht x hx
    rw [List.mem_singleton.mp ht] at hx
    obtain rfl := Option.some.inj hx
    exact ⟨unaryAtom q "X", List.mem_map.mpr ⟨q, by simp, rfl⟩, rfl, by simp [unaryAtom, varName]⟩
  · intro a ha hneg
    obtain ⟨n, -, rfl⟩ := hbody a ha
    cases hneg
  · intro a ha hneg
    obtain ⟨n, -, rfl⟩ := hbody a ha
    cases hneg
  · exact fits_unaryRule p (q :: qs)

/-- All positive: one stratum will do. -/
theorem stratified_unaryRules {V : Type} {syms : String → UInt32} {c : Tagged → V} {db : KindDb}
    {rules : List Typecheck.Rule} (h : ∀ r ∈ rules, ∃ p qs, r = unaryRule p qs) :
    Stratified (opers syms c db rules) fun _ => 0 := by
  intro o ho
  obtain ⟨r, hr, head, -, rfl⟩ := mem_opers.1 ho
  refine ⟨fun s _ => le_rfl, fun s hs => ?_⟩
  obtain ⟨p, qs, rfl⟩ := h r hr
  obtain ⟨a, ha, hneg, -⟩ := hs
  obtain ⟨n, -, rfl⟩ := List.mem_map.mp ha
  cases hneg

theorem matches_unaryAtom {V : Type} {syms : String → UInt32} {c : Tagged → V} {env : String → V}
    {n : String} {row : List V} :
    Matches syms c env (unaryAtom n "X").args row ↔ row = [env "X"] := by
  constructor
  · intro h
    obtain ⟨v, row, hv, hrest, rfl⟩ := List.forall₂_cons_left_iff.mp h
    obtain rfl := List.forall₂_nil_left_iff.mp hrest
    rw [← Option.some.inj hv]
  · rintro rfl
    exact .cons rfl .nil

/-- What a rule over unary relations adds: what its body relations share. -/
theorem mem_out_unaryRule {V : Type} {syms : String → UInt32} {c : Tagged → V} {db : KindDb}
    {p : String} {qs : List String} {head : ℕ} {C : ℕ → Set (List V)} {row : List V} :
    row ∈ (ruleOper syms c db (unaryRule p qs) head).out C ↔
      ∃ v, row = [v] ∧ ∀ q ∈ qs, ∀ ri, db.find q = some ri → [v] ∈ C ri := by
  have hatom : ∀ (env : String → V) (n : String) (ri : ℕ),
      AtomHolds syms c (unaryRule p qs) C env (unaryAtom n "X") ri ↔ [env "X"] ∈ C ri := by
    intro env n ri
    rw [AtomHolds, if_neg (by simp [unaryAtom])]
    constructor
    · rintro ⟨row, hrow, hmatch⟩
      rwa [← matches_unaryAtom.mp hmatch]
    · exact fun h => ⟨_, h, matches_unaryAtom.mpr rfl⟩
  constructor
  · rintro ⟨env, hbody, hmatch⟩
    refine ⟨env "X", matches_unaryAtom.mp hmatch, fun q hq ri hri => ?_⟩
    exact (hatom env q ri).mp (hbody _ (List.mem_map.mpr ⟨q, hq, rfl⟩) ri hri)
  · rintro ⟨v, rfl, hall⟩
    refine ⟨fun _ => v, fun a ha ri hri => ?_, matches_unaryAtom.mpr rfl⟩
    obtain ⟨q, hq, rfl⟩ := List.mem_map.mp ha
    exact (hatom _ q ri).mpr (hall q hq ri hri)

/-- Facts in unary relations. -/
def unaryFacts (facts : List (Option Tagged)) : ℕ → Set (List Tagged) :=
  fun ri => {row | ∃ v, facts[ri]? = some (some v) ∧ row = [v]}

/-! ### A program that is read the same -/

/-- `p(X) :- e(X).  s(X) :- p(X).  q(X) :- f(X).` -/
def copyRules : List Typecheck.Rule :=
  [unaryRule "p" ["e"], unaryRule "s" ["p"], unaryRule "q" ["f"]]

/-- The record of `p`, which is empty. -/
def oldRecord : ℕ → ℕ → Bool := fun ri col => ri = 2 && col = 0

/-- A rule joins what it reads into one column. -/
theorem passOn_copyRules (p q s : Kind) :
    passOn orderDb oldRecord (orderKinds p q s) (unaryRule "p" ["e"]) =
        orderKinds (kindJoin p .int) q s ∧
      passOn orderDb oldRecord (orderKinds p q s) (unaryRule "s" ["p"]) =
        orderKinds p q (kindJoin s p) ∧
      passOn orderDb oldRecord (orderKinds p q s) (unaryRule "q" ["f"]) =
        orderKinds p (kindJoin q .sym) s := by
  have hcell : ∀ (k : Kind) (i : ℕ) (c : Cache), (∀ ri col, c ri col =
      kindJoin (orderKinds p q s ri col) (if ri = i ∧ col = 0 then k else .unknown)) →
      (i = 2 → c = orderKinds (kindJoin p k) q s) ∧ (i = 3 → c = orderKinds p (kindJoin q k) s) ∧
        (i = 4 → c = orderKinds p q (kindJoin s k)) := by
    intro k i c hc
    have hnone : ∀ k' : Kind, kindJoin k' .unknown = k' := fun k' => by cases k' <;> rfl
    refine ⟨?_, ?_, ?_⟩
    all_goals
      rintro rfl
      funext ri col
      rw [hc]
      unfold orderKinds
      by_cases hs : ri = 4 ∧ col = 0
      · obtain ⟨rfl, rfl⟩ := hs
        simp [hnone]
      by_cases hq : ri = 3 ∧ col = 0
      · obtain ⟨rfl, rfl⟩ := hq
        simp [hnone]
      by_cases hp : ri = 2 ∧ col = 0
      · obtain ⟨rfl, rfl⟩ := hp
        simp [hnone]
      · simp [hs, hq, hp, hnone]
  refine ⟨(hcell .int 2 _ fun ri col => ?_).1 rfl, (hcell p 4 _ fun ri col => ?_).2.2 rfl,
    (hcell .sym 3 _ fun ri col => ?_).2.1 rfl⟩
  · unfold passOn
    rw [@ruleGives_unaryRule orderDb "p" "e" 2 0 rfl rfl rfl]
    rfl
  · unfold passOn
    rw [@ruleGives_unaryRule orderDb "s" "p" 4 2 rfl rfl rfl]
    rfl
  · unfold passOn
    rw [@ruleGives_unaryRule orderDb "q" "f" 3 1 rfl rfl rfl]
    rfl

theorem listKinds_copyRules (n : ℕ) :
    listKinds orderDb oldRecord copyRules (n + 1) = orderKinds .int .sym .int := by
  have hround : ∀ p q s, copyRules.foldl (passOn orderDb oldRecord) (orderKinds p q s) =
      orderKinds (kindJoin p .int) (kindJoin q .sym) (kindJoin s (kindJoin p .int)) := by
    intro p q s
    simp only [copyRules, List.foldl_cons, List.foldl_nil]
    rw [(passOn_copyRules p q s).1, (passOn_copyRules _ q s).2.1, (passOn_copyRules _ q _).2.2]
  induction n with
  | zero =>
    have hzero : Cache.zero = orderKinds .unknown .unknown .unknown := by
      funext ri col
      simp [Cache.zero, orderKinds]
    unfold listKinds
    rw [listKinds, hzero]
    exact hround _ _ _
  | succ n ih =>
    rw [listKinds, ih]
    exact hround _ _ _

/-- The record of `p` is read by no rule: the first one gives the column its kind. -/
theorem kindsApart_copyRules : KindsApart orderDb oldRecord copyRules where
  given pre r post hsplit a ha ri hread col hold := by
    have hat : ri = 2 ∧ col = 0 := by simpa [oldRecord] using hold
    obtain ⟨rfl, rfl⟩ := hat
    cases pre with
    | nil =>
      -- the first rule reads numbers only
      obtain rfl := (List.cons.inj hsplit).1
      obtain rfl := List.mem_singleton.mp ha
      rcases hread.2 with h | ⟨h, -⟩ <;> exact absurd h (by decide)
    | cons r' pre =>
      obtain rfl := (List.cons.inj hsplit).1
      have hint : (Kind.int : Kind) ≤
          pre.foldl (passOn orderDb oldRecord)
            (passOn orderDb oldRecord .zero (unaryRule "p" ["e"])) 2 0 :=
        le_trans (by decide) (le_foldl_passOn orderDb oldRecord pre _ 2 0)
      intro h
      rw [List.foldl_cons] at h
      rw [h] at hint
      exact absurd hint (by decide)
  short r hr := by
    rw [listKinds_copyRules 63]
    simp only [copyRules, List.mem_cons, List.not_mem_nil, or_false] at hr
    rcases hr with rfl | rfl | rfl
    · exact (passOn_copyRules _ _ _).1
    · exact (passOn_copyRules _ _ _).2.1
    · exact (passOn_copyRules _ _ _).2.2
  unmixed ri col := by
    rw [listKinds_copyRules 63]
    unfold orderKinds
    repeat' split
    all_goals decide

/-- The number 1, and the symbol with the id 1. -/
def pairFacts : ℕ → Set (List Tagged) := unaryFacts [some ⟨.int, 1⟩, some ⟨.sym, 1⟩]

theorem recorded_pairFacts (rels : List (String × Option Definite × Bool)) :
    Recorded (unaryDb (("e", some .int, false) :: ("f", some .sym, false) :: rels)) pairFacts := by
  rintro ri row ⟨v, hv, rfl⟩
  obtain ⟨hlt, hget⟩ := List.getElem?_eq_some_iff.mp hv
  have hri : ri = 0 ∨ ri = 1 := by
    have : ri < 2 := hlt
    omega
  rcases hri with rfl | rfl
  all_goals
    obtain rfl := Option.some.inj (Option.some.inj hv)
    refine ⟨_, rfl, rfl, rfl, fun col w hw => ?_⟩
    have hcol : col < 1 := (List.getElem?_eq_some_iff.mp hw).1
    obtain rfl : col = 0 := by omega
    rw [← Option.some.inj hw]

/-- Numbers in `e`, symbols in `f`, nothing in `p` and `s`. -/
def mixedDb : KindDb := unaryDb [("e", some .int, false), ("f", some .sym, false),
  ("p", none, true), ("s", none, true)]

/-- `s(X) :- f(X).  p(X) :- e(X), s(X).  s(X) :- p(X).` -/
def mixedRules : List Typecheck.Rule :=
  [unaryRule "s" ["f"], unaryRule "p" ["e", "s"], unaryRule "s" ["p"]]

end DatalogDafsa.Kinds
