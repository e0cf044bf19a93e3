import DatalogDafsa.Kinds.Flow

/-!
# Sites of variables

The check of the variables of a rule keeps a table: for each variable, whether it has
a site of numbers and whether it has one of symbols.  The variables of a rule that
fits have room in it, so every site is entered; and a rule with a variable that has
both, or with a constant of the other kind than its column, is refused.

## Main definitions

* `HasSite` — a variable stands for values of a kind.
* `Clashes` — numbers and symbols meet in a rule.
* `noted_ruleSites` — every site is entered.
* `checkRule_of_clash` — a rule in which they meet is refused.
-/

namespace DatalogDafsa.Kinds

/-! ## Where a variable stands -/

/-- The sites of a variable of a rule, by the kind of the values it has there. -/
inductive HasSite (db : KindDb) (cols : ColKinds) (r : Typecheck.Rule) (x : String) : Kind → Prop
  /-- An argument of a relation atom, negated or not. -/
  | column {a : Typecheck.Atom} {ri col : ℕ} (ha : a ∈ r.body) (hrel : relationalAtom db a = some ri)
      (hvar : varName a.args[col]? = some x) : HasSite db cols r x (cols ri col a.args.length)
  /-- The result of a count, a sum, an arithmetic, a string or a range atom. -/
  | result {a : Typecheck.Atom} {k : Kind} (ha : a ∈ r.body)
      (hres : resultKind db cols (fun _ => .unknown) a = some (x, k)) : HasSite db cols r x k

/-- Numbers and symbols meet in the rule when the columns have the kinds `cols`: in a variable
that does not stand in negated atoms only, or in a constant. -/
def Clashes (db : KindDb) (cols : ColKinds) (r : Typecheck.Rule) : Prop :=
  (∃ x, negWildcardVar r x = false ∧ HasSite db cols r x .int ∧ HasSite db cols r x .sym) ∨
    ∃ a ∈ r.head :: r.body, ∃ ri, relationalAtom db a = some ri ∧ ∃ (col : ℕ) (t : Typecheck.Token),
      a.args[col]? = some t ∧
        ((tokenColKind t = .int ∧ cols ri col a.args.length = .sym) ∨
          (tokenColKind t = .sym ∧ cols ri col a.args.length = .int))

theorem exists_of_varName_get {args : List Typecheck.Token} {i : ℕ} {x : String}
    (h : varName args[i]? = some x) : ∃ t, args[i]? = some t ∧ varName (some t) = some x := by
  cases harg : (args[i]? : Option Typecheck.Token) with
  | none =>
    rw [harg] at h
    cases h
  | some t => exact ⟨t, rfl, harg ▸ h⟩

/-- The variables of an argument list are among those of the body. -/
theorem mem_bodyVars {r : Typecheck.Rule} {a : Typecheck.Atom} (ha : a ∈ r.body) {x : String}
    {i : ℕ} (hvar : varName a.args[i]? = some x) : x ∈ (bodyVars r.body).toFinset := by
  obtain ⟨t, ht, htvar⟩ := exists_of_varName_get hvar
  rw [List.mem_toFinset]
  refine List.mem_flatMap.mpr ⟨a, ha, List.mem_append_right _ ?_⟩
  exact List.mem_filterMap.mpr ⟨t, List.mem_of_getElem? ht, htvar⟩

/-! ## The table -/

/-- A site of the variable has been entered. -/
def Noted (t : SiteTab) (x : String) (k : Kind) : Prop :=
  ∃ v, t.find x = some v ∧ (k = .int → v.int = true) ∧ (k = .sym → v.sym = true)

/-- A table that holds no name twice and only names of a set. -/
structure SitesIn (S : Finset String) (t : SiteTab) : Prop where
  /-- No name twice. -/
  nodup : (t.map VarSites.name).Nodup
  /-- Names of the set. -/
  sub : ∀ v ∈ t, v.name ∈ S

/-- What entering a site for a name leaves: a table of the same sort, with what it had. -/
structure Enters (S : Finset String) (t t' : SiteTab) : Prop where
  /-- No name twice, and only names of the set. -/
  sites : SitesIn S t'
  /-- What has been entered stays. -/
  keep : ∀ y k, Noted t y k → Noted t' y k

theorem Enters.refl {S : Finset String} {t : SiteTab} (h : SitesIn S t) : Enters S t t :=
  ⟨h, fun _ _ h => h⟩

theorem Enters.trans {S : Finset String} {t t' t'' : SiteTab} (h : Enters S t t')
    (h' : Enters S t' t'') : Enters S t t'' :=
  ⟨h'.sites, fun y k hy => h'.keep y k (h.keep y k hy)⟩

theorem add_name (v : VarSites) (k : SiteKind) : (v.add k).name = v.name := by
  unfold VarSites.add
  split <;> rfl

theorem add_flags (v : VarSites) (k : SiteKind) :
    (v.int = true → (v.add k).int = true) ∧ (v.sym = true → (v.add k).sym = true) := by
  unfold VarSites.add
  split <;> simp +contextual

theorem add_flag (v : VarSites) (k : Kind) :
    (k = .int → (v.add (.col k)).int = true) ∧ (k = .sym → (v.add (.col k)).sym = true) := by
  cases k <;> simp [VarSites.add]

theorem find_map_add (t : SiteTab) (x y : String) (k : SiteKind) :
    SiteTab.find (t.map fun v => if v.name = x then v.add k else v) y =
      (t.find y).map fun v => if v.name = x then v.add k else v := by
  unfold SiteTab.find
  rw [List.find?_map]
  have hpred : ((fun v : VarSites => decide (v.name = y)) ∘
      fun v => if v.name = x then v.add k else v) = fun v => decide (v.name = y) := by
    funext v
    dsimp only [Function.comp]
    split
    · rw [add_name]
    · rfl
  rw [hpred]

/-- A site of a variable that the table has. -/
theorem siteAdd_spec {S : Finset String} {t : SiteTab} (ht : SitesIn S t) {x : String}
    (hfind : (t.find x).isSome) (k : SiteKind) :
    let t' := t.map fun v => if v.name = x then v.add k else v
    Enters S t t' ∧ ∀ k', k = .col k' → Noted t' x k' := by
  intro t'
  have hname : t'.map VarSites.name = t.map VarSites.name := by
    rw [List.map_map]
    refine List.map_congr_left fun v _ => ?_
    dsimp only [Function.comp]
    split
    · exact add_name v _
    · rfl
  refine ⟨⟨⟨hname ▸ ht.nodup, fun v hv => ?_⟩, fun y k' => ?_⟩, fun k' hk => ?_⟩
  · obtain ⟨w, hw, rfl⟩ := List.mem_map.mp hv
    have := ht.sub w hw
    split
    · rwa [add_name]
    · exact this
  · rintro ⟨v, hv, hint, hsym⟩
    refine ⟨if v.name = x then v.add k else v, by rw [find_map_add, hv]; rfl, ?_, ?_⟩
    · intro hk
      split
      · exact (add_flags v _).1 (hint hk)
      · exact hint hk
    · intro hk
      split
      · exact (add_flags v _).2 (hsym hk)
      · exact hsym hk
  · subst hk
    obtain ⟨v, hv⟩ := Option.isSome_iff_exists.mp hfind
    have hvx : v.name = x := by simpa using List.find?_some hv
    refine ⟨v.add (.col k'), ?_, add_flag v k'⟩
    rw [find_map_add, hv, Option.map_some, if_pos hvx]

theorem notMem_names_of_find {t : SiteTab} {x : String} (hnone : t.find x = none) :
    x ∉ t.map VarSites.name := by
  intro hmem
  obtain ⟨v, hv, rfl⟩ := List.mem_map.mp hmem
  have := List.find?_eq_none.mp hnone v hv
  simp at this

/-- There is room for a variable that the table does not have. -/
theorem SitesIn.room {S : Finset String} (hS : S.card ≤ maxVars) {t : SiteTab} (ht : SitesIn S t)
    {x : String} (hx : x ∈ S) (hnot : x ∉ t.map VarSites.name) : ¬ maxVars ≤ t.length := by
  have hsub : insert x (t.map VarSites.name).toFinset ⊆ S := by
    intro y hy
    rcases Finset.mem_insert.mp hy with rfl | hy
    · exact hx
    · obtain ⟨v, hv, rfl⟩ := List.mem_map.mp (List.mem_toFinset.mp hy)
      exact ht.sub v hv
  have hcard := Finset.card_le_card hsub
  rw [Finset.card_insert_of_notMem (by simpa using hnot), List.toFinset_card_of_nodup ht.nodup,
    List.length_map] at hcard
  omega

/-- A site of a new variable. -/
theorem siteNew_spec {S : Finset String} {t : SiteTab} (ht : SitesIn S t) {x : String}
    (hx : x ∈ S) (hnone : t.find x = none) (k : SiteKind) :
    let t' := t ++ [VarSites.add { name := x } k]
    Enters S t t' ∧ ∀ k', k = .col k' → Noted t' x k' := by
  intro t'
  have hnew : (VarSites.add { name := x } k).name = x := add_name _ _
  refine ⟨⟨⟨?_, fun v hv => ?_⟩, fun y k' => ?_⟩, fun k' hk => ?_⟩
  · rw [List.map_append, List.nodup_append]
    refine ⟨ht.nodup, by simp, fun a ha b hb => ?_⟩
    obtain rfl : b = x := by simpa [hnew] using hb
    exact fun h => notMem_names_of_find hnone (h ▸ ha)
  · rcases List.mem_append.mp hv with hv | hv
    · exact ht.sub v hv
    · rw [List.mem_singleton.mp hv, hnew]
      exact hx
  · rintro ⟨v, hv, hflags⟩
    refine ⟨v, ?_, hflags⟩
    unfold SiteTab.find at hv ⊢
    rw [List.find?_append, hv]
    rfl
  · subst hk
    refine ⟨VarSites.add { name := x } (.col k'), ?_, add_flag _ k'⟩
    unfold SiteTab.find at hnone ⊢
    rw [List.find?_append, hnone]
    simp [hnew]

/-- **A site is entered**: the table has room for its variable. -/
theorem siteNote_spec {S : Finset String} (hS : S.card ≤ maxVars) {t : SiteTab}
    (ht : SitesIn S t) {x : String} (hx : x ∈ S) (k : SiteKind) :
    Enters S t (t.note x k) ∧ ∀ k', k = .col k' → Noted (t.note x k) x k' := by
  unfold SiteTab.note
  by_cases hfind : (t.find x).isSome
  · rw [if_pos hfind]
    exact siteAdd_spec ht hfind k
  · have hnone : t.find x = none := Option.not_isSome_iff_eq_none.mp hfind
    rw [if_neg hfind, if_neg (ht.room hS hx (notMem_names_of_find hnone))]
    exact siteNew_spec ht hx hnone k

/-! ## The sites of a rule -/

section Rule

variable {db : KindDb} {r : Typecheck.Rule} {cache : Cache}

/-- The variables of an atom with the kinds of the columns they stand in, but for those that
stand in negated atoms only. -/
def sitePairs (db : KindDb) (cache : Cache) (r : Typecheck.Rule) (a : Typecheck.Atom) (ri : ℕ) :
    List (String × Kind) :=
  a.args.zipIdx.filterMap fun p => (varName (some p.1)).bind fun x =>
    if a.negated && negWildcardVar r x then none
    else some (x, relColKind db cache ri p.2 a.args.length)

theorem siteAtom_eq {t : SiteTab} {a : Typecheck.Atom} {ri : ℕ}
    (h : relationalAtom db a = some ri) : siteAtom db cache r t a =
      (sitePairs db cache r a ri).foldl (fun t p => t.note p.1 (.col p.2)) t := by
  unfold siteAtom sitePairs
  rw [h]
  dsimp only
  induction a.args.zipIdx generalizing t with
  | nil => rfl
  | cons p l ih =>
    rw [List.foldl_cons, List.filterMap_cons]
    cases hvar : varName (some p.1) with
    | none => exact ih
    | some x =>
      dsimp only [Option.bind_some]
      split
      · exact ih
      · exact ih

/-- **The sites in one atom are entered.** -/
theorem siteAtom_spec (hfits : Fits r) {a : Typecheck.Atom} (ha : a ∈ r.body) {t : SiteTab}
    (ht : SitesIn (bodyVars r.body).toFinset t) :
    Enters (bodyVars r.body).toFinset t (siteAtom db cache r t a) ∧
      ∀ ri, relationalAtom db a = some ri → ∀ (col : ℕ) x, varName a.args[col]? = some x →
        negWildcardVar r x = false →
        Noted (siteAtom db cache r t a) x (relColKind db cache ri col a.args.length) := by
  have hpairs : ∀ (l : List (String × Kind)) (t : SiteTab),
      SitesIn (bodyVars r.body).toFinset t → (∀ p ∈ l, p.1 ∈ (bodyVars r.body).toFinset) →
      Enters (bodyVars r.body).toFinset t (l.foldl (fun t p => t.note p.1 (.col p.2)) t) ∧
        ∀ p ∈ l, Noted (l.foldl (fun t p => t.note p.1 (.col p.2)) t) p.1 p.2 := by
    intro l
    induction l with
    | nil => exact fun t ht _ => ⟨.refl ht, fun p hp => (by cases hp)⟩
    | cons p l ih =>
      intro t ht hl
      obtain ⟨hstep, hnew⟩ := siteNote_spec hfits ht (hl p List.mem_cons_self) (.col p.2)
      obtain ⟨hrest, hall⟩ := ih _ hstep.sites fun q hq => hl q (List.mem_cons_of_mem p hq)
      refine ⟨hstep.trans hrest, fun q hq => ?_⟩
      rcases List.mem_cons.mp hq with rfl | hq
      · exact hrest.keep _ _ (hnew q.2 rfl)
      · exact hall q hq
  cases hrel : relationalAtom db a with
  | none =>
    unfold siteAtom
    rw [hrel]
    exact ⟨.refl ht, fun ri h => (by cases h)⟩
  | some ri =>
    rw [siteAtom_eq hrel]
    obtain ⟨hstep, hall⟩ := hpairs (sitePairs db cache r a ri) t ht (by
      intro p hp
      obtain ⟨q, hq, hsome⟩ := List.mem_filterMap.mp hp
      obtain ⟨y, hy, hif⟩ := Option.bind_eq_some_iff.mp hsome
      split at hif
      · cases hif
      · obtain rfl := Option.some.inj hif
        exact mem_bodyVars ha (by rw [List.mem_zipIdx_iff_getElem?.mp hq]; exact hy))
    refine ⟨hstep, fun ri' hri col x hvar hx => ?_⟩
    obtain rfl := Option.some.inj hri
    refine hall (x, relColKind db cache ri col a.args.length) ?_
    obtain ⟨t', ht', htvar⟩ := exists_of_varName_get hvar
    refine List.mem_filterMap.mpr ⟨(t', col), List.mem_zipIdx_iff_getElem?.mpr ht', ?_⟩
    rw [htvar, Option.bind_some, if_neg (by simp [hx])]

/-- The name that the result of an atom is entered for is a variable of the body. -/
theorem siteKind_name {a : Typecheck.Atom} (ha : a ∈ r.body) {t : SiteTab} {x : String}
    {k : SiteKind} (h : siteKind db cache t a = some (x, k)) : x ∈ (bodyVars r.body).toFinset := by
  have hagg : a.aggregate = true → a.pred ∈ (bodyVars r.body).toFinset := fun hag =>
    List.mem_toFinset.mpr (List.mem_flatMap.mpr ⟨a, ha, by simp [hag]⟩)
  have hone : ∀ {k' : SiteKind}, (varName a.args[0]?).map (·, k') = some (x, k) →
      x ∈ (bodyVars r.body).toFinset := by
    intro k' hk
    obtain ⟨y, hy, heq⟩ := Option.map_eq_some_iff.mp hk
    obtain ⟨rfl, -⟩ := Prod.mk.inj heq
    exact mem_bodyVars ha hy
  unfold siteKind at h
  split at h
  · cases h
  split at h
  · rename_i hag
    dsimp only at h
    split at h
    · cases h
      exact hagg hag
    · split at h
      · obtain ⟨v, -, heq⟩ := Option.map_eq_some_iff.mp h
        cases heq
        exact hagg hag
      · cases h
  split at h
  · exact hone h
  split at h
  · exact hone h
  split at h
  · split at h
    · cases h
    · exact hone h
  split at h
  · obtain ⟨y, hy, hr⟩ := Option.bind_eq_some_iff.mp h
    obtain ⟨k', -, heq⟩ := Option.map_eq_some_iff.mp hr
    cases heq
    exact mem_bodyVars ha hy
  split at h
  · split at h
    · exact hone h
    · cases h
  · cases h

/-- The result of an atom has the kind the propagation gives it, when that is known. -/
theorem siteKind_of_resultKind {a : Typecheck.Atom} {t : SiteTab} {x : String} {k : Kind}
    (hk : k ≠ .unknown)
    (h : resultKind db (relColKind db cache) (fun _ => .unknown) a = some (x, k)) :
    siteKind db cache t a = some (x, .col k) := by
  have hcol : ∀ {k' : Kind}, (varName a.args[0]?).map (·, k') = some (x, k) →
      (varName a.args[0]?).map (·, SiteKind.col k') = some (x, .col k) := by
    intro k' h
    obtain ⟨y, hy, heq⟩ := Option.map_eq_some_iff.mp h
    obtain ⟨rfl, rfl⟩ := Prod.mk.inj heq
    rw [hy, Option.map_some]
  unfold resultKind at h
  unfold siteKind
  split at h
  · cases h
  rename_i hneg
  rw [if_neg hneg]
  split at h
  · rename_i hag
    rw [if_pos hag]
    dsimp only at h ⊢
    split at h
    · rename_i hop
      rw [if_pos hop]
      cases h
      rfl
    · split at h
      · -- the least and the greatest have no kind of their own
        obtain ⟨-, rfl⟩ := Prod.mk.inj (Option.some.inj h)
        refine absurd ?_ hk
        unfold argKind
        cases varName a.args[0]? with
        | none => rfl
        | some y => rfl
      · cases h
  rename_i hag
  rw [if_neg hag]
  split at h
  · rename_i harith
    rw [if_pos harith]
    exact hcol h
  rename_i harith
  rw [if_neg harith]
  split at h
  · rename_i hstr
    rw [if_pos hstr]
    exact hcol h
  rename_i hstr
  rw [if_neg hstr]
  split at h
  · rename_i hrange
    have hlist : isListProducing a = false := by
      have hpred : a.pred = "range" := by simpa [isRange] using hrange
      simp [isListProducing, hpred]
    rw [if_neg (by simp [hlist]), if_pos hrange]
    obtain ⟨y, hy, hr⟩ := Option.bind_eq_some_iff.mp h
    obtain ⟨k', hk', heq⟩ := Option.map_eq_some_iff.mp hr
    obtain ⟨rfl, rfl⟩ := Prod.mk.inj heq
    rw [hy, Option.bind_some, hk', Option.map_some]
  · cases h

theorem siteResult_spec (hfits : Fits r) {a : Typecheck.Atom} (ha : a ∈ r.body) {t : SiteTab}
    (ht : SitesIn (bodyVars r.body).toFinset t) :
    Enters (bodyVars r.body).toFinset t (siteResult db cache t a) ∧
      ∀ x k, k ≠ .unknown →
        resultKind db (relColKind db cache) (fun _ => .unknown) a = some (x, k) →
        Noted (siteResult db cache t a) x k := by
  unfold siteResult
  cases hkind : siteKind db cache t a with
  | none =>
    refine ⟨.refl ht, fun x k hk hres => ?_⟩
    rw [siteKind_of_resultKind hk hres] at hkind
    cases hkind
  | some p =>
    obtain ⟨y, k'⟩ := p
    dsimp only
    obtain ⟨hstep, hnew⟩ := siteNote_spec hfits ht (siteKind_name ha hkind) k'
    refine ⟨?_, fun x k hk hres => ?_⟩
    · split
      · exact .refl ht
      · exact hstep
    · rw [siteKind_of_resultKind hk hres] at hkind
      obtain ⟨rfl, rfl⟩ := Prod.mk.inj (Option.some.inj hkind)
      rw [if_neg (by simpa using hk)]
      exact hnew k rfl

/-- **Every site is entered** in the table of a rule that fits. -/
theorem noted_ruleSites (hfits : Fits r) {x : String} (hx : negWildcardVar r x = false) {k : Kind}
    (hk : k ≠ .unknown) (hs : HasSite db (relColKind db cache) r x k) :
    Noted (ruleSites db cache r) x k := by
  -- a step that enters what an atom has, over the atoms of the body
  have hfold : ∀ (step : SiteTab → Typecheck.Atom → SiteTab) (l : List Typecheck.Atom)
      (t : SiteTab), (∀ b ∈ l, ∀ t, SitesIn (bodyVars r.body).toFinset t →
        Enters (bodyVars r.body).toFinset t (step t b)) →
      SitesIn (bodyVars r.body).toFinset t → Enters (bodyVars r.body).toFinset t (l.foldl step t) ∧
        ∀ a ∈ l, (∀ t, SitesIn (bodyVars r.body).toFinset t → Noted (step t a) x k) →
          Noted (l.foldl step t) x k := by
    intro step l
    induction l with
    | nil => exact fun t _ ht => ⟨.refl ht, fun a ha => (by cases ha)⟩
    | cons b l ih =>
      intro t hstep ht
      have hone := hstep b List.mem_cons_self t ht
      obtain ⟨hrest, hall⟩ := ih _ (fun c hc => hstep c (List.mem_cons_of_mem b hc)) hone.sites
      refine ⟨hone.trans hrest, fun a ha hnote => ?_⟩
      rcases List.mem_cons.mp ha with rfl | ha
      · exact hrest.keep x k (hnote t ht)
      · exact hall a ha hnote
  obtain ⟨hatoms, hcolumn⟩ := hfold (siteAtom db cache r) r.body []
    (fun b hb t ht => (siteAtom_spec hfits hb ht).1) ⟨by simp, by simp⟩
  obtain ⟨hresults, hresult⟩ := hfold (siteResult db cache) r.body _
    (fun b hb t ht => (siteResult_spec hfits hb ht).1) hatoms.sites
  unfold ruleSites
  cases hs with
  | column ha hrel hvar =>
    exact hresults.keep x _ (hcolumn _ ha fun t ht =>
      (siteAtom_spec hfits ha ht).2 _ hrel _ x hvar hx)
  | result ha hres =>
    exact hresult _ ha fun t ht => (siteResult_spec hfits ha ht).2 x k hk hres

/-- A variable that the check accepts has no site of numbers and another of symbols. -/
theorem not_both_of_check (hfits : Fits r) (hcheck : checkRuleVarKinds db cache r = true)
    {x : String} (hx : negWildcardVar r x = false)
    (hint : HasSite db (relColKind db cache) r x .int)
    (hsym : HasSite db (relColKind db cache) r x .sym) : False := by
  obtain ⟨v, hv, hflag, -⟩ := noted_ruleSites hfits hx (by decide) hint
  obtain ⟨v', hv', -, hflag'⟩ := noted_ruleSites hfits hx (by decide) hsym
  rw [hv] at hv'
  obtain rfl := Option.some.inj hv'
  unfold checkRuleVarKinds at hcheck
  rw [Bool.and_eq_true, List.all_eq_true] at hcheck
  have hone := hcheck.1 v (List.mem_of_find?_eq_some hv)
  rw [hflag rfl, hflag' rfl] at hone
  cases hone

/-- A constant that the check accepts has the kind of its column, when both are known. -/
theorem const_of_check (hcheck : checkRuleConsts db cache r = true) {a : Typecheck.Atom}
    (ha : a ∈ r.head :: r.body) {ri : ℕ} (hrel : relationalAtom db a = some ri) {col : ℕ}
    {t : Typecheck.Token} (ht : a.args[col]? = some t) :
    tokenColKind t = .unknown ∨ relColKind db cache ri col a.args.length = .unknown ∨
      relColKind db cache ri col a.args.length = .mixed ∨
      relColKind db cache ri col a.args.length = tokenColKind t := by
  unfold checkRuleConsts at hcheck
  have hone := List.all_eq_true.mp hcheck a ha
  unfold checkAtomConsts at hone
  rw [hrel] at hone
  have hcol := List.all_eq_true.mp hone (t, col) (List.mem_zipIdx_iff_getElem?.mpr ht)
  simpa only [Bool.or_eq_true, decide_eq_true_eq, or_assoc] using hcol

/-- **A rule in which numbers and symbols meet is refused.** -/
theorem checkRule_of_clash (hfits : Fits r) (h : Clashes db (relColKind db cache) r) :
    checkRule db cache r = false := by
  rw [Bool.eq_false_iff]
  intro hcheck
  unfold checkRule at hcheck
  rw [Bool.and_eq_true] at hcheck
  rcases h with ⟨x, hx, hint, hsym⟩ | ⟨a, ha, ri, hrel, col, t, ht, hkinds⟩
  · exact not_both_of_check hfits hcheck.1 hx hint hsym
  · have hone := const_of_check hcheck.2 ha hrel ht
    rcases hkinds with ⟨htok, hcol⟩ | ⟨htok, hcol⟩
    · rw [htok, hcol] at hone
      simp at hone
    · rw [htok, hcol] at hone
      simp at hone

end Rule

end DatalogDafsa.Kinds
