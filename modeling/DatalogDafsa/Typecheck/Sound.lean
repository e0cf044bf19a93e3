import DatalogDafsa.Typecheck.Typed

/-!
# The typechecker is sound

A step of the pass that succeeds keeps the types in the table and adds some; under
any assignment that agrees with the table after it, the occurrences it looked at
fit.  Such steps compose, so a rule that passes is well typed under the types of its
last table.

## Main definitions

* `Models` — an assignment agrees with a table.
* `Passed` — what a successful step gives.
* `typecheck_sound` — the rules that pass are well typed, up to the occurrences that
  the pass leaves alone.
* `not_typecheck_sound_full` — those are not always well typed.
-/

namespace DatalogDafsa.Typecheck

/-! ## The table -/

namespace VTab

theorem find_append (t : VTab) (e : VarEnt) (x : String) :
    (t ++ [e]).find x = (t.find x).or (if e.name = x then some e else none) := by
  rw [find, find, List.find?_append]
  by_cases h : e.name = x <;> simp [h]

@[simp] theorem typeOf_get (t : VTab) (name x : String) : (t.get name).typeOf x = t.typeOf x := by
  unfold get
  split
  · rfl
  · rw [typeOf, typeOf, find_append]
    cases t.find x with
    | some e => rfl
    | none =>
      rw [Option.none_or]
      split <;> rfl

theorem find_get (t : VTab) (name : String) : ((t.get name).find name).isSome := by
  unfold get
  split
  · assumption
  · rw [find_append]
    simp

theorem find_set (t : VTab) (e : VarEnt) (x : String) :
    (t.set e).find x = if x = e.name then (t.find x).map fun _ => e else t.find x := by
  induction t with
  | nil => simp [set, find]
  | cons e' t ih =>
    simp only [set, find, List.map_cons, List.find?_cons] at ih ⊢
    by_cases hx : x = e.name
    · subst hx
      by_cases he : e'.name = e.name
      · simp [he]
      · simp only [he, if_false, decide_false]
        simpa using ih
    · by_cases he : e'.name = e.name
      · have hne : e.name ≠ x := fun h => hx h.symm
        simp only [he, if_true, hx, if_false, hne, decide_false]
        simpa [hx] using ih
      · simp only [he, if_false, hx] at ih ⊢
        rw [ih]

theorem typeOf_set (t : VTab) (name x : String) (c : ColSpec) (pos : Pos) (site : String)
    (h : (t.find name).isSome) :
    (t.set ⟨name, some c, pos, site⟩).typeOf x = if x = name then some c else t.typeOf x := by
  rw [typeOf, find_set]
  split
  · rename_i heq
    obtain ⟨e, he⟩ := Option.isSome_iff_exists.mp h
    rw [heq, he]
    rfl
  · rfl

end VTab

/-- An assignment agrees with a table. -/
def Models (Γ : String → ColSpec) (t : VTab) : Prop := ∀ x c, t.typeOf x = some c → Γ x = c

/-- The assignment of a table. -/
def VTab.assign (t : VTab) (x : String) : ColSpec := (t.typeOf x).getD natural

theorem VTab.models_assign (t : VTab) : Models t.assign t := by
  intro x c hx
  rw [VTab.assign, hx]
  rfl

/-- What a successful step of the pass gives: no type is lost, the variables in
`names` have one, and `P` holds under any assignment that agrees with the table. -/
structure Passed (t t' : VTab) (names : List String) (P : (String → ColSpec) → Prop) : Prop where
  /-- No type is lost. -/
  mono : ∀ x c, t.typeOf x = some c → t'.typeOf x = some c
  /-- The variables with a type now. -/
  given : ∀ x ∈ names, (t'.typeOf x).isSome
  /-- The occurrences that were looked at. -/
  holds : ∀ Γ, Models Γ t' → P Γ

namespace Passed

variable {t t₁ t₂ : VTab} {names names₁ names₂ : List String} {P P₁ P₂ : (String → ColSpec) → Prop}

theorem models (h : Passed t t₁ names P) {Γ : String → ColSpec} (hΓ : Models Γ t₁) : Models Γ t :=
  fun x c hx => hΓ x c (h.mono x c hx)

theorem isSome (h : Passed t t₁ names P) {x : String} (hx : (t.typeOf x).isSome) :
    (t₁.typeOf x).isSome := by
  obtain ⟨c, hc⟩ := Option.isSome_iff_exists.mp hx
  rw [h.mono x c hc]
  rfl

/-- A step that looks at nothing. -/
theorem refl (t : VTab) (hP : ∀ Γ, P Γ) : Passed t t [] P :=
  ⟨fun _ _ h => h, fun _ hx => absurd hx List.not_mem_nil, fun Γ _ => hP Γ⟩

/-- Two steps after each other. -/
theorem trans (h₁ : Passed t t₁ names₁ P₁) (h₂ : Passed t₁ t₂ names₂ P₂) :
    Passed t t₂ (names₁ ++ names₂) fun Γ => P₁ Γ ∧ P₂ Γ where
  mono x c hx := h₂.mono x c (h₁.mono x c hx)
  given x hx := by
    rcases List.mem_append.mp hx with hx | hx
    · exact h₂.isSome (h₁.given x hx)
    · exact h₂.given x hx
  holds Γ hΓ := ⟨h₁.holds Γ (h₂.models hΓ), h₂.holds Γ hΓ⟩

/-- A variable that fits under every assignment has that type in the table. -/
theorem typed {x : String} {want : ColSpec} (h : Passed t t₁ names fun Γ => Γ x = want)
    (hx : x ∈ names) : t₁.typeOf x = some want := by
  obtain ⟨c, hc⟩ := Option.isSome_iff_exists.mp (h.given x hx)
  have hwant : (t₁.typeOf x).getD natural = want := h.holds t₁.assign t₁.models_assign
  rw [hc, ← hwant, hc]
  rfl

/-- A step gives less than it gives. -/
theorem weaken (h : Passed t t₁ names₁ P₁) (hnames : ∀ x ∈ names₂, x ∈ names₁)
    (hP : ∀ Γ, P₁ Γ → P₂ Γ) : Passed t t₁ names₂ P₂ :=
  ⟨h.mono, fun x hx => h.given x (hnames x hx), fun Γ hΓ => hP Γ (h.holds Γ hΓ)⟩

end Passed

/-- A step after a step. -/
theorem bind_eq_ok {ε α β : Type} {x : Except ε α} {f : α → Except ε β} {b : β}
    (h : x.bind f = .ok b) : ∃ a, x = .ok a ∧ f a = .ok b := by
  cases x with
  | error e => cases h
  | ok a => exact ⟨a, rfl, h⟩

/-- A step for each entry of a list. -/
theorem passed_foldlM {α : Type} {f : VTab → α → Pass} {names : α → List String}
    {P : α → (String → ColSpec) → Prop} {l : List α}
    (hstep : ∀ a ∈ l, ∀ t t', f t a = .ok t' → Passed t t' (names a) (P a)) {t t' : VTab}
    (h : l.foldlM f t = .ok t') : Passed t t' (l.flatMap names) fun Γ => ∀ a ∈ l, P a Γ := by
  induction l generalizing t with
  | nil =>
    cases h
    exact .refl _ fun Γ a ha => absurd ha List.not_mem_nil
  | cons a l ih =>
    rw [List.foldlM_cons] at h
    obtain ⟨t₁, h₁, h₂⟩ := bind_eq_ok h
    have hone := hstep a List.mem_cons_self t t₁ h₁
    have hrest := ih (fun b hb => hstep b (List.mem_cons_of_mem a hb)) h₂
    refine (hone.trans hrest).weaken (fun x hx => by simpa using hx) fun Γ hΓ b hb => ?_
    rcases List.mem_cons.mp hb with rfl | hb
    · exact hΓ.1
    · exact hΓ.2 b hb

/-! ## Names -/

theorem mem_vars_of_name {a : Token} {x : String} (hx : x ∈ a.names) : x ∈ a.vars := by
  cases a with
  | list pos children tail => cases hx
  | _ => exact hx

theorem mem_vars_of_names {args : List Token} {x : String} (hx : x ∈ args.flatMap Token.names) :
    x ∈ args.flatMap Token.vars := by
  obtain ⟨a, ha, hx⟩ := List.mem_flatMap.mp hx
  exact List.mem_flatMap.mpr ⟨a, ha, mem_vars_of_name hx⟩

/-- The names of the first arguments. -/
theorem mem_take_two {args : List Token} {x : String} :
    x ∈ (args.take 2).flatMap Token.names ↔
      x ∈ args[0]?.toList.flatMap Token.names ++ args[1]?.toList.flatMap Token.names := by
  rcases args with _ | ⟨a, _ | ⟨b, args⟩⟩ <;> simp

/-! ## Occurrences -/

variable {t t' : VTab} {site : String}

/-- **A variable** gets the type, or has it. -/
theorem constrainVar_spec {x : String} {want : ColSpec} {pos : Pos}
    (h : constrainVar t x want pos site = .ok t') : Passed t t' [x] fun Γ => Γ x = want := by
  have hsome := t.find_get x
  unfold constrainVar at h
  split at h
  · rename_i name was wasPos wasSite hfind
    have htype : t.typeOf x = some was := by
      rw [← t.typeOf_get x x, VTab.typeOf, hfind]
      rfl
    split at h
    · rename_i heq
      cases h
      refine ⟨fun y c hy => by rwa [VTab.typeOf_get], fun y hy => ?_, fun Γ hΓ => ?_⟩
      · rw [List.mem_singleton.mp hy, VTab.typeOf_get, htype]
        rfl
      · exact hΓ x want (by rw [VTab.typeOf_get, htype, heq])
    · cases h
  · rename_i hnone
    cases h
    have hset : ∀ y, ((t.get x).set ⟨x, some want, pos, site⟩).typeOf y =
        if y = x then some want else t.typeOf y := by
      intro y
      rw [VTab.typeOf_set _ _ _ _ _ _ hsome, VTab.typeOf_get]
    have hnew : t.typeOf x = none := by
      rw [← t.typeOf_get x x, VTab.typeOf]
      obtain ⟨e, he⟩ := Option.isSome_iff_exists.mp hsome
      obtain ⟨name, type, p, s⟩ := e
      rw [he]
      cases type with
      | none => rfl
      | some was => exact absurd he (hnone name was p s)
    refine ⟨fun y c hy => ?_, fun y hy => ?_, fun Γ hΓ => hΓ x want (by rw [hset, if_pos rfl])⟩
    · rw [hset, if_neg]
      · exact hy
      · rintro rfl
        rw [hnew] at hy
        cases hy
    · rw [List.mem_singleton.mp hy, hset, if_pos rfl]
      rfl

/-- An element of a list literal. -/
theorem constrainListElem_spec {e : Token} {elem : Scalar}
    (h : constrainListElem t e elem site = .ok t') :
    Passed t t' e.names fun Γ => FitsFlat False Γ e (.flat elem) := by
  cases e with
  | var pos x => exact constrainVar_spec h
  | int pos n =>
    simp only [constrainListElem] at h
    split at h
    · rename_i heq
      cases h
      exact .refl _ fun Γ => congrArg ColSpec.flat heq
    · cases h
  | ident pos x | string pos x =>
    simp only [constrainListElem] at h
    split at h
    · rename_i heq
      cases h
      exact .refl _ fun Γ => congrArg ColSpec.flat heq
    · cases h
  | list pos children tail => cases h
  | aggregate pos x =>
    cases h
    exact .refl _ fun Γ hfull => hfull.elim

/-- What comes after the bar. -/
theorem constrainTail_spec {tail : Option Token} {elem : Scalar} (htail : TailOk tail)
    (h : constrainTail t tail elem site = .ok t') :
    Passed t t' (tail.toList.flatMap Token.names)
      fun Γ => ∀ tl, tail = some tl → FitsFlat False Γ tl (.list elem) := by
  cases tail with
  | none =>
    cases h
    exact .refl _ fun Γ tl htl => (by cases htl)
  | some tl =>
    obtain ⟨pos, x, rfl⟩ := htail tl rfl
    refine (constrainVar_spec h).weaken (fun y hy => by simpa [Token.names] using hy)
      fun Γ hx tl htl => ?_
    cases htl
    exact hx

/-- **A list literal** of a known element type. -/
theorem typeListLiteralKnown_spec {pos : Pos} {children : List Token} {tail : Option Token}
    {elem : Scalar} (htail : TailOk tail)
    (h : typeListLiteralKnown t children tail elem site = .ok t') :
    Passed t t' (Token.list pos children tail).vars
      fun Γ => Fits False Γ (.list pos children tail) (.list elem) := by
  obtain ⟨t₁, h₁, h₂⟩ := bind_eq_ok h
  have hchildren : Passed t t₁ (children.flatMap Token.names)
      fun Γ => ∀ c ∈ children, FitsFlat False Γ c (.flat elem) :=
    passed_foldlM (fun e _ _ _ he => constrainListElem_spec he) h₁
  exact (hchildren.trans (constrainTail_spec htail h₂)).weaken (fun _ hx => hx)
    fun Γ hΓ => ⟨elem, rfl, hΓ.1, hΓ.2⟩

/-- **An argument** of a known type. -/
theorem constrainArg_spec {a : Token} {want : ColSpec} (ha : a.Parsed)
    (h : constrainArg t a want site = .ok t') :
    Passed t t' a.vars fun Γ => Fits False Γ a want := by
  cases a with
  | var pos x => exact constrainVar_spec h
  | int pos n =>
    simp only [constrainArg] at h
    split at h
    · rename_i heq
      cases h
      exact .refl _ fun Γ => heq
    · cases h
  | ident pos x | string pos x =>
    simp only [constrainArg] at h
    split at h
    · rename_i heq
      cases h
      exact .refl _ fun Γ => heq
    · cases h
  | list pos children tail =>
    cases want with
    | list elem => exact typeListLiteralKnown_spec ha.2 h
    | flat s => cases h
    | optional s => cases h
    | enum values => cases h
  | aggregate pos x =>
    cases h
    exact .refl _ fun Γ hfull => hfull.elim

/-- The result position of a builtin. -/
theorem constrainResult_spec {a : Option Token} {want : ColSpec}
    (h : constrainResult t a want site = .ok t') :
    Passed t t' (a.toList.flatMap Token.names) fun Γ => FitsResult False Γ a want := by
  have hother : ∀ tok : Token, tok.names = [] → a = some tok → t' = t →
      Passed t t' (a.toList.flatMap Token.names) fun Γ => FitsResult False Γ a want := by
    rintro tok hnames rfl rfl
    refine ⟨fun _ _ hx => hx, fun x hx => ?_, fun Γ _ tok' htok' hvar => ?_⟩
    · simp [hnames] at hx
    · cases htok'
      rcases hvar with ⟨pos, x, rfl⟩ | hfull
      · simp [Token.names] at hnames
      · exact hfull.elim
  cases a with
  | none =>
    cases h
    exact .refl _ fun Γ tok htok => (by cases htok)
  | some tok =>
    cases tok with
    | var pos x =>
      refine (constrainVar_spec h).weaken (fun y hy => by simpa [Token.names] using hy)
        fun Γ hx tok' htok' _ => ?_
      cases htok'
      exact hx
    | int pos n => cases h; exact hother _ rfl rfl rfl
    | ident pos x => cases h; exact hother _ rfl rfl rfl
    | string pos x => cases h; exact hother _ rfl rfl rfl
    | list pos children tail => cases h; exact hother _ rfl rfl rfl
    | aggregate pos x => cases h; exact hother _ rfl rfl rfl

/-- Arguments that all have one type. -/
theorem constrainAll_spec {args : List Token} {want : ColSpec} (hargs : ∀ a ∈ args, a.Parsed)
    (h : constrainAll t args want site = .ok t') :
    Passed t t' (args.flatMap Token.vars) fun Γ => ∀ a ∈ args, Fits False Γ a want :=
  passed_foldlM (fun a ha _ _ he => constrainArg_spec (hargs a ha) he) h

/-- Registering variables gives no types. -/
theorem typeOf_registerAll (t : VTab) (args : List Token) (x : String) :
    (registerAll t args).typeOf x = t.typeOf x := by
  induction args generalizing t with
  | nil => rfl
  | cons a args ih =>
    refine (ih (registerSide t (some a))).trans ?_
    cases a with
    | var pos y => exact t.typeOf_get y x
    | _ => rfl

/-! ## Relation atoms and expressions -/

/-- **A relation atom** names a declared relation and fits its columns. -/
theorem typeRelational_spec {σ : Schema} {a : Atom} {isHead : Bool}
    (hargs : ∀ b ∈ a.args, b.Parsed) (h : typeRelational σ t a isHead = .ok t') :
    Passed t t' (a.args.flatMap Token.vars) fun Γ => RelTyped False σ Γ a := by
  unfold typeRelational at h
  split at h
  · cases h
  split at h
  · cases h
  rename_i rd hrd
  split at h
  · cases h
  rename_i hlen
  have hlen : a.args.length = rd.cols.length := not_not.mp hlen
  have hall : Passed t t' ((a.args.zip rd.cols).flatMap fun p => p.1.vars)
      fun Γ => ∀ p ∈ a.args.zip rd.cols, Fits False Γ p.1 p.2 :=
    passed_foldlM (fun p hp _ _ he => constrainArg_spec (hargs p.1 (List.of_mem_zip hp).1) he) h
  refine hall.weaken (fun x hx => ?_) fun Γ hΓ => ⟨rd, hrd, hlen, hΓ⟩
  obtain ⟨b, hb, hx⟩ := List.mem_flatMap.mp hx
  have hfst : (a.args.zip rd.cols).map Prod.fst = a.args := List.map_fst_zip hlen.le
  rw [← hfst] at hb
  obtain ⟨p, hp, rfl⟩ := List.mem_map.mp hb
  exact List.mem_flatMap.mpr ⟨p, hp, hx⟩

/-- An expression over numbers. -/
theorem typeExpr_spec {e : Expr} {pos : Pos} (h : typeExpr t e pos site = .ok t') :
    Passed t t' e.vars fun Γ => ExprTyped Γ e := by
  induction e generalizing t t' with
  | int n =>
    cases h
    exact .refl _ fun Γ => trivial
  | var x => exact constrainVar_spec h
  | binop op l r ihl ihr =>
    obtain ⟨t₁, h₁, h₂⟩ := bind_eq_ok h
    exact (ihl h₁).trans (ihr h₂)

/-- A variable in a result position fits. -/
theorem FitsResult.opt {Γ : String → ColSpec} {pos : Pos} {x : String} {want : ColSpec}
    (h : FitsResult False Γ (some (.var pos x)) want) : FitsOpt False Γ (some (.var pos x)) want := by
  intro tok htok
  cases htok
  exact h _ rfl (Or.inl ⟨pos, x, rfl⟩)

/-! ## List operands -/

/-- The constants of a literal have the type that was inferred. -/
theorem inferElems_spec {pos : Pos} {got : Option Scalar} {es : List Token} {e : Scalar}
    (h : inferElems pos got es = .ok (some e)) :
    (∀ g, got = some g → g = e) ∧
      ∀ Γ, ∀ c ∈ es, FitsFlat False Γ c (.flat e) ∧ c.names = [] := by
  have hconst : ∀ (c : Token) (ec : Scalar), elemOfConst c = some ec → c.names = [] →
      ∀ Γ, FitsFlat False Γ c (.flat ec) := by
    intro c ec hc hnames Γ
    cases c with
    | var p x => cases hc
    | int p n => cases hc; rfl
    | ident p x => cases hc; rfl
    | string p x => cases hc; rfl
    | aggregate p x => cases hc
    | list p cs tl => cases hc
  induction es generalizing got with
  | nil =>
    cases h
    exact ⟨fun g hg => (Option.some.inj hg).symm, fun Γ c hc => absurd hc List.not_mem_nil⟩
  | cons c es ih =>
    have hcons : ∀ {ec : Scalar}, elemOfConst c = some ec → c.names = [] → ec = e →
        (∀ Γ, ∀ c ∈ es, FitsFlat False Γ c (.flat e) ∧ c.names = []) →
        ∀ Γ, ∀ c' ∈ c :: es, FitsFlat False Γ c' (.flat e) ∧ c'.names = [] := by
      rintro ec hc hnames rfl hrest Γ c' hc'
      rcases List.mem_cons.mp hc' with rfl | hc'
      · exact ⟨hconst c' ec hc hnames Γ, hnames⟩
      · exact hrest Γ c' hc'
    have hstep : ∀ {ec : Scalar}, elemOfConst c = some ec → c.names = [] →
        (got.elim (inferElems pos (some ec) es) fun g =>
          if g = ec then inferElems pos (some g) es else .error (.mixed pos g ec)) =
            .ok (some e) →
        (∀ g, got = some g → g = e) ∧
          ∀ Γ, ∀ c' ∈ c :: es, FitsFlat False Γ c' (.flat e) ∧ c'.names = [] := by
      intro ec hc hnames h
      cases got with
      | none =>
        obtain ⟨hgot, hrest⟩ := ih h
        exact ⟨fun g hg => (by cases hg), hcons hc hnames (hgot ec rfl) hrest⟩
      | some g =>
        rw [Option.elim_some] at h
        split at h
        · rename_i heq
          obtain ⟨hgot, hrest⟩ := ih h
          refine ⟨fun g' hg' => ?_, hcons hc hnames (heq ▸ hgot g rfl) hrest⟩
          cases hg'
          exact hgot g rfl
        · cases h
    cases c with
    | var p x => cases h
    | list p cs tl => cases h
    | int p n => exact hstep rfl rfl (by cases got <;> exact h)
    | ident p x => exact hstep rfl rfl (by cases got <;> exact h)
    | string p x => exact hstep rfl rfl (by cases got <;> exact h)
    | aggregate p x =>
      have h' : inferElems pos got es = .ok (some e) := by cases got <;> exact h
      obtain ⟨hgot, hrest⟩ := ih h'
      refine ⟨hgot, fun Γ c' hc' => ?_⟩
      rcases List.mem_cons.mp hc' with rfl | hc'
      · exact ⟨fun hfull => hfull.elim, rfl⟩
      · exact hrest Γ c' hc'

/-- **A list operand** is a list of the elements that were found. -/
theorem resolveListOperand_spec {tok : Option Token} {pred : String} {elem : Scalar}
    (h : resolveListOperand t tok pred = .ok elem) :
    Passed t t (tok.toList.flatMap Token.names) fun Γ => FitsOpt False Γ tok (.list elem) := by
  cases tok with
  | none => cases h
  | some tok =>
    cases tok with
    | int p n => cases h
    | ident p x => cases h
    | string p x => cases h
    | aggregate p x => cases h
    | var p x =>
      simp only [resolveListOperand] at h
      split at h
      · rename_i s hs
        cases h
        refine ⟨fun _ _ hx => hx, fun y hy => ?_, fun Γ hΓ tok htok => ?_⟩
        · have hy : y = x := by simpa [Token.names] using hy
          rw [hy, hs]
          rfl
        · cases htok
          exact hΓ x _ hs
      · cases h
      · cases h
    | list p cs tl =>
      simp only [resolveListOperand, inferListLiteralElem] at h
      split at h
      · cases h
      · rename_i htail
        obtain ⟨got, hgot, hsome⟩ := bind_eq_ok h
        cases got with
        | none => cases hsome
        | some e =>
          cases hsome
          have hnone : tl = none := by simpa using htail
          subst hnone
          have hall := (inferElems_spec hgot).2
          refine ⟨fun _ _ hx => hx, fun y hy => ?_, fun Γ _ tok htok => ?_⟩
          · simp [Token.names] at hy
          · cases htok
            exact ⟨elem, rfl, fun c hc => (hall Γ c hc).1, fun tl' htl' => (by cases htl')⟩

/-! ## Equalities -/

/-- A variable with a type that an assignment agrees with. -/
theorem Models.eq {Γ : String → ColSpec} (hΓ : Models Γ t) {x : String} {c : ColSpec}
    (h : t.typeOf x = some c) : Γ x = c := hΓ x c h

/-- A list pattern and what it is matched with. -/
theorem typeListAssignment_spec {a : Atom} {K : List String} {p : Pos} {children : List Token}
    {tail : Option Token} {r : Token} (hargs : a.args = [.list p children tail, r])
    (htail : TailOk tail) (h : typeListAssignment t a children tail = .ok t') :
    Passed t t' (eqGives K a.args) fun Γ => EqTyped False Γ K a := by
  obtain ⟨elem, hr, h⟩ := bind_eq_ok h
  obtain ⟨t₁, h₁, h₂⟩ := bind_eq_ok h
  rw [hargs] at hr
  have hchildren : Passed t t₁ (children.flatMap Token.names)
      fun Γ => ∀ c ∈ children, FitsResult False Γ (some c) (.flat elem) := by
    refine passed_foldlM (fun c _ _ _ he => ?_) h₁
    exact (constrainResult_spec he).weaken (fun x hx => by simpa using hx) fun _ hc => hc
  refine ((resolveListOperand_spec hr).trans
    (hchildren.trans (constrainTail_spec htail h₂))).weaken (fun x hx => ?_) fun Γ hΓ => ?_
  · rw [hargs] at hx
    simp only [eqGives, Token.vars, List.mem_append] at hx
    simp only [List.mem_append]
    rcases hx with (hx | hx) | hx
    · exact Or.inr (Or.inl hx)
    · exact Or.inr (Or.inr hx)
    · exact Or.inl (by simpa using hx)
  · rw [EqTyped, hargs]
    refine ⟨elem, hΓ.1 r rfl, hΓ.2.1, fun tl htl => ?_⟩
    have hfits := hΓ.2.2 tl htl
    obtain ⟨pos, x, rfl⟩ := htail tl htl
    exact hfits

/-- Two variables, when one of them has a type. -/
theorem typeEquality_var {a : Atom} {K : List String} {p q : Pos} {x y : String}
    (hargs : a.args = [.var p x, .var q y]) (hK : ∀ z ∈ K, (t.typeOf z).isSome)
    (h : typeEquality t a = .ok t') :
    Passed t t' (eqGives K a.args) fun Γ => EqTyped False Γ K a := by
  have hboth : ∀ {lt rt : ColSpec}, t'.typeOf x = some lt → t'.typeOf y = some rt → lt = rt →
      (∀ z c, t.typeOf z = some c → t'.typeOf z = some c) →
        Passed t t' (eqGives K a.args) fun Γ => EqTyped False Γ K a := by
    rintro lt rt hx hy rfl hmono
    refine ⟨hmono, fun z hz => ?_, fun Γ hΓ => ?_⟩
    · rw [hargs, eqGives] at hz
      split at hz
      · rcases List.mem_cons.mp hz with rfl | hz
        · rw [hx]
          rfl
        · rw [List.mem_singleton.mp hz, hy]
          rfl
      · cases hz
    · rw [EqTyped, hargs]
      exact fun _ => (hΓ.eq hx).trans (hΓ.eq hy).symm
  unfold typeEquality at h
  simp only [hargs, List.getElem?_cons_zero, List.getElem?_cons_succ, sideType] at h
  cases hx : t.typeOf x with
  | none =>
    cases hy : t.typeOf y with
    | none =>
      rw [hx, hy] at h
      cases h
      have hno : ¬ (x ∈ K ∨ y ∈ K) := by
        rintro (hk | hk)
        · have := hK x hk
          rw [hx] at this
          cases this
        · have := hK y hk
          rw [hy] at this
          cases this
      refine ⟨fun z c hz => ?_, fun z hz => ?_, fun Γ _ => ?_⟩
      · simpa [registerSide] using hz
      · rw [hargs, eqGives, if_neg hno] at hz
        cases hz
      · rw [EqTyped, hargs]
        rintro (hk | hk | hfull)
        · exact absurd (Or.inl hk) hno
        · exact absurd (Or.inr hk) hno
        · exact hfull.elim
    | some rt =>
      rw [hx, hy] at h
      have hpass := constrainVar_spec h
      exact hboth (hpass.typed (List.mem_singleton_self x)) (hpass.mono y rt hy) rfl hpass.mono
  | some lt =>
    cases hy : t.typeOf y with
    | none =>
      rw [hx, hy] at h
      have hpass := constrainVar_spec h
      exact hboth (hpass.mono x lt hx) (hpass.typed (List.mem_singleton_self y)) rfl hpass.mono
    | some rt =>
      rw [hx, hy] at h
      dsimp only at h
      split at h
      · rename_i heq
        cases h
        exact hboth hx hy heq fun _ _ hz => hz
      · have hpass := constrainVar_spec h
        exact hboth (hpass.mono x lt hx) (hpass.typed (List.mem_singleton_self y)) rfl hpass.mono

/-- The other side of an equality with a constant of type `T`. -/
def constSide (t : VTab) (T : ColSpec) (r : Token) (a : Atom) : Pass :=
  match r, sideType t (some r) with
  | .var pos y, some rt => if T = rt then .ok t else constrainVar t y T pos a.pred
  | .var pos y, none => constrainVar t y T pos a.pred
  | _, some rt => if T = rt then .ok t else .error (.mismatched a.pos)
  | _, none => .ok t

theorem constSide_spec {T : ColSpec} {r : Token} {a : Atom} (hr : r.isPlain = true)
    (h : constSide t T r a = .ok t') : Passed t t' r.names fun Γ => Fits False Γ r T := by
  cases r with
  | list p cs tl => cases hr
  | aggregate p x => cases hr
  | var p y =>
    cases hy : t.typeOf y with
    | none =>
      simp only [constSide, sideType, hy] at h
      exact constrainVar_spec h
    | some rt =>
      simp only [constSide, sideType, hy] at h
      split at h
      · rename_i heq
        cases h
        refine ⟨fun _ _ hz => hz, fun z hz => ?_, fun Γ hΓ => hΓ.eq (heq ▸ hy)⟩
        rw [List.mem_singleton.mp hz, hy]
        rfl
      · exact constrainVar_spec h
  | int p n =>
    simp only [constSide, sideType, tokenInherentType] at h
    split at h
    · rename_i heq
      cases h
      exact .refl _ fun Γ => heq
    · cases h
  | ident p x | string p x =>
    simp only [constSide, sideType, tokenInherentType] at h
    split at h
    · rename_i heq
      cases h
      exact .refl _ fun Γ => heq
    · cases h

/-- A constant has a type, and an equality with it on the left is about the other
side. -/
theorem const_left {a : Atom} {c r : Token} (hargs : a.args = [c, r]) (hc : c.IsConst)
    (hr : r.isPlain = true) (t : VTab) (K : List String) :
    ∃ T, typeEquality t a = constSide t T r a ∧ eqGives K a.args = r.names ∧
      ∀ Γ, Fits False Γ r T → EqTyped False Γ K a := by
  cases c with
  | var p x => exact hc.elim
  | list p cs tl => exact hc.elim
  | aggregate p x => exact hc.elim
  | int p n =>
    refine ⟨natural, ?_, ?_, fun Γ hΓ => by rw [EqTyped, hargs]; exact fun _ => ⟨_, rfl, hΓ⟩⟩
    swap
    · rw [hargs]
      exact if_pos hr
    unfold typeEquality constSide
    rw [hargs]
    cases r with
    | var q y => cases hy : t.typeOf y <;> simp [sideType, tokenInherentType, hy, constrainResult]
    | list q cs tl => cases hr
    | aggregate q x => cases hr
    | int q m => rfl
    | ident q x => rfl
    | string q x => rfl
  | ident p x | string p x =>
    refine ⟨text, ?_, ?_, fun Γ hΓ => by rw [EqTyped, hargs]; exact fun _ => ⟨_, rfl, hΓ⟩⟩
    swap
    · rw [hargs]
      exact if_pos hr
    unfold typeEquality constSide
    rw [hargs]
    cases r with
    | var q y => cases hy : t.typeOf y <;> simp [sideType, tokenInherentType, hy, constrainResult]
    | list q cs tl => cases hr
    | aggregate q x => cases hr
    | int q m => rfl
    | ident q x => rfl
    | string q x => rfl

/-- **A constant and the other side.** -/
theorem typeEquality_const {a : Atom} {K : List String} {c r : Token} (hargs : a.args = [c, r])
    (hc : c.IsConst) (hr : r.isPlain = true) (h : typeEquality t a = .ok t') :
    Passed t t' (eqGives K a.args) fun Γ => EqTyped False Γ K a := by
  obtain ⟨T, heq, hgives, htyped⟩ := const_left hargs hc hr t K
  rw [heq] at h
  rw [hgives]
  exact (constSide_spec hr h).weaken (fun _ hx => hx) htyped

/-- A variable and a constant of type `T`. -/
theorem typeEquality_varConst {a : Atom} {K : List String} {p : Pos} {x : String} {r : Token}
    (hargs : a.args = [.var p x, r]) (hr : r.IsConst) (h : typeEquality t a = .ok t') :
    Passed t t' (eqGives K a.args) fun Γ => EqTyped False Γ K a := by
  have hside : ∃ T, sideType t (some r) = some T ∧ (∀ Γ, Fits False Γ r T) ∧
      (∀ pos y, r ≠ .var pos y) ∧ eqGives K a.args = [x] ∧
      ∀ Γ, EqTyped False Γ K a ↔ ∃ T, Fits False Γ (.var p x) T ∧ Fits False Γ r T := by
    rw [hargs]
    cases r with
    | var q y => exact hr.elim
    | list q cs tl => exact hr.elim
    | aggregate q y => exact hr.elim
    | int q n =>
      refine ⟨natural, rfl, fun Γ => rfl, fun _ _ => Token.noConfusion, rfl, fun Γ => ?_⟩
      rw [EqTyped, hargs]
      exact ⟨fun hT => hT (.inl rfl), fun hT _ => hT⟩
    | ident q y | string q y =>
      refine ⟨text, rfl, fun Γ => rfl, fun _ _ => Token.noConfusion, rfl, fun Γ => ?_⟩
      rw [EqTyped, hargs]
      exact ⟨fun hT => hT (.inl rfl), fun hT _ => hT⟩
  obtain ⟨T, hT, hfits, hvar, hgives, htyped⟩ := hside
  rw [hgives]
  unfold typeEquality at h
  simp only [hargs, List.getElem?_cons_zero, List.getElem?_cons_succ, hT] at h
  have hpass : Passed t t' [x] fun Γ => Γ x = T := by
    cases hx : t.typeOf x with
    | none =>
      simp only [sideType, hx] at h
      exact constrainVar_spec h
    | some lt =>
      simp only [sideType, hx] at h
      split at h
      · rename_i heq
        cases h
        refine ⟨fun _ _ hz => hz, fun z hz => ?_, fun Γ hΓ => hΓ.eq (heq ▸ hx)⟩
        rw [List.mem_singleton.mp hz, hx]
        rfl
      · split at h
        · rename_i heq
          exact absurd (Option.some.inj heq) (hvar _ _)
        · rename_i heq _
          cases heq
          exact constrainVar_spec h
        · cases h
  exact hpass.weaken (fun _ hz => hz) fun Γ hΓ => (htyped Γ).mpr ⟨T, hΓ, hfits Γ⟩

@[simp] theorem typeOf_registerSide (t : VTab) (s : Option Token) (x : String) :
    (registerSide t s).typeOf x = t.typeOf x := by
  unfold registerSide
  split
  · exact t.typeOf_get _ x
  · rfl

/-- No type is lost. -/
theorem typeEquality_mono {a : Atom} (hl : ∀ p cs tl, a.args[0]? ≠ some (.list p cs tl))
    (h : typeEquality t a = .ok t') {x : String} {c : ColSpec} (hx : t.typeOf x = some c) :
    t'.typeOf x = some c := by
  unfold typeEquality at h
  split at h
  · rename_i heq
    exact absurd heq (hl _ _ _)
  dsimp only at h
  split at h
  · split at h
    · cases h
      exact hx
    split at h
    · exact (constrainVar_spec h).mono x c hx
    · exact (constrainVar_spec h).mono x c hx
    · cases h
  · exact (constrainResult_spec h).mono x c hx
  · exact (constrainResult_spec h).mono x c hx
  · cases h
    simpa using hx

/-- **An equality the pass does not look into**: a list on the right only, or the word of an
aggregate. -/
theorem typeEquality_loose {a : Atom} {K : List String} {l r : Token} (hargs : a.args = [l, r])
    (hl : ∀ p cs tl, l ≠ .list p cs tl) (hplain : (l.isPlain && r.isPlain) = false)
    (h : typeEquality t a = .ok t') :
    Passed t t' (eqGives K a.args) fun Γ => EqTyped False Γ K a := by
  have hshape : eqGives K [l, r] = [] ∧ ∀ Γ, EqTyped False Γ K { a with args := [l, r] } := by
    cases l with
    | list p cs tl => exact absurd rfl (hl p cs tl)
    | var p x =>
      cases r with
      | list | aggregate => exact ⟨rfl, fun Γ hor => hor.elim Bool.noConfusion False.elim⟩
      | _ => cases hplain
    | aggregate p x => exact ⟨rfl, fun Γ hor => hor.elim Bool.noConfusion False.elim⟩
    | int | ident | string =>
      cases r with
      | list | aggregate => exact ⟨rfl, fun Γ hor => hor.elim Bool.noConfusion False.elim⟩
      | _ => cases hplain
  obtain ⟨hgives, htyped⟩ := hshape
  have hfirst : ∀ p cs tl, a.args[0]? ≠ some (.list p cs tl) := by
    intro p cs tl heq
    rw [hargs] at heq
    exact hl p cs tl (Option.some.inj heq)
  rw [hargs, hgives]
  refine ⟨fun x c hx => typeEquality_mono hfirst h hx, fun _ hx => absurd hx List.not_mem_nil,
    fun Γ _ => ?_⟩
  have htyped := htyped Γ
  rw [EqTyped] at htyped ⊢
  rwa [hargs]

/-! ## Builtins -/

/-- An aggregate as it is parsed. -/
theorem Atom.Parsed.aggregate_shape {a : Atom} (hp : a.Parsed) (hagg : a.aggregate = true) :
    a.args = [] ∧ a.aggOp = some "count" ∨
      ∃ p y op, a.args = [.var p y] ∧ a.aggOp = some op ∧ op ≠ "count" := by
  cases hp with
  | count pos x negated => exact Or.inl ⟨rfl, rfl⟩
  | agg pos p x y op negated hop =>
    refine Or.inr ⟨p, y, op, rfl, rfl, ?_⟩
    rintro rfl
    simp at hop
  | plain pred pos args negated pattern hargs => cases hagg
  | eqVar pos p q x y negated => cases hagg
  | eqConst pos c r negated hc hr => cases hagg
  | listAssign pos p children tail r negated hc htail hr => cases hagg
  | builtin pred pos p x args negated hname hargs => cases hagg
  | arith pos p x e negated => cases hagg
  | compare op pos p x r negated hop hr => cases hagg

/-- **An aggregate.** -/
theorem typeAggregate_spec {a : Atom} (hp : a.Parsed) (hagg : a.aggregate = true)
    (h : typeAggregate t a = .ok t') :
    Passed t t' (a.pred :: a.args.head?.toList.flatMap Token.names) fun Γ => AggTyped False Γ a := by
  unfold typeAggregate at h
  rcases hp.aggregate_shape hagg with ⟨hargs, hop⟩ | ⟨p, y, op, hargs, hop, hne⟩
  · have hmin : ¬ ("count" = "min" ∨ "count" = "max") := by decide
    simp only [hop, Option.getD_some, if_neg hmin, if_true] at h
    obtain ⟨t₁, h₁, h₂⟩ := bind_eq_ok h
    cases h₂
    refine (constrainVar_spec h₁).weaken (fun y hy => ?_) fun Γ hx => ?_
    · simpa [hargs] using hy
    · rw [AggTyped, hop, Option.getD_some, if_neg hmin]
      exact ⟨hx, fun hne => absurd rfl hne⟩
  · have hfits : ∀ {Γ : String → ColSpec} {T : ColSpec}, Γ y = T →
        FitsOpt False Γ (some (.var p y)) T := by
      intro Γ T hy tok htok
      cases htok
      exact hy
    simp only [hop, hargs, Option.getD_some, List.head?_cons, if_neg hne] at h
    rw [hargs, List.head?_cons]
    split at h
    · rename_i hmin
      cases hy : t.typeOf y with
      | none =>
        rw [hy] at h
        cases h
      | some T =>
        rw [hy] at h
        dsimp only at h
        split at h
        · rename_i hT
          have hpass := constrainVar_spec h
          refine ⟨hpass.mono, fun z hz => ?_, fun Γ hΓ => ?_⟩
          · rcases List.mem_cons.mp hz with rfl | hz
            · exact hpass.given _ (List.mem_singleton_self _)
            · have hz : z = y := by simpa [Token.names] using hz
              rw [hz, hpass.mono y T hy]
              rfl
          · rw [AggTyped, hop, Option.getD_some, if_pos hmin, hargs, List.head?_cons]
            exact ⟨T, hT, hfits (hΓ.eq (hpass.mono y T hy)), hpass.holds Γ hΓ⟩
        · cases h
    · rename_i hmin
      obtain ⟨t₁, h₁, h₂⟩ := bind_eq_ok h
      refine ((constrainVar_spec h₁).trans (constrainVar_spec h₂)).weaken (fun z hz => ?_)
        fun Γ hΓ => ?_
      · simpa [Token.names] using hz
      · rw [AggTyped, hop, Option.getD_some, if_neg hmin, hargs, List.head?_cons]
        exact ⟨hΓ.1, fun _ => hfits hΓ.2⟩

/-- A comparison picks an orderable type. -/
theorem typeComparison_spec {a : Atom} (hargs : ∀ b ∈ a.args, b.Parsed)
    (h : typeComparison t a = .ok t') :
    Passed t t' (a.args.flatMap Token.names) fun Γ => CompareTyped False Γ a := by
  have hwant : ∀ lc rc : Option ColSpec,
      isOrderable (some (if isOrderable lc then lc.getD natural
        else if isOrderable rc then rc.getD natural else natural)) = true := by
    intro lc rc
    split
    · rename_i hlc
      cases lc with
      | none => cases hlc
      | some c => exact hlc
    · split
      · rename_i hrc
        cases rc with
        | none => cases hrc
        | some c => exact hrc
      · rfl
  refine (constrainAll_spec hargs h).weaken (fun x hx => ?_) fun Γ hΓ => ⟨_, hwant _ _, hΓ⟩
  exact mem_vars_of_names hx

/-- A string builtin. -/
theorem typeStrProducing_spec {a : Atom} (hargs : ∀ b ∈ a.args, b.Parsed)
    (h : typeStrProducing t a = .ok t') :
    Passed t t' (if a.pred = "length" then (a.args.take 2).flatMap Token.names
      else a.args.flatMap Token.names) fun Γ => StrTyped False Γ a := by
  unfold typeStrProducing at h
  split at h
  · rename_i hlen
    rw [if_pos hlen]
    obtain ⟨t₁, h₁, h₂⟩ := bind_eq_ok h
    have hsecond : Passed t₁ t' (a.args[1]?.toList.flatMap Token.names)
        fun Γ => FitsOpt False Γ a.args[1]? text := by
      cases hs : a.args[1]? with
      | none =>
        rw [hs] at h₂
        cases h₂
        exact .refl _ fun Γ tok htok => (by cases htok)
      | some s =>
        rw [hs] at h₂
        refine (constrainArg_spec (hargs s (List.mem_of_getElem? hs)) h₂).weaken
          (fun x hx => ?_) fun Γ hΓ tok htok => ?_
        · exact mem_vars_of_name (by simpa using hx)
        · cases htok
          exact hΓ
    refine ((constrainResult_spec h₁).trans hsecond).weaken (fun x hx => ?_) fun Γ hΓ => ?_
    · exact mem_take_two.mp hx
    · rw [StrTyped, if_pos hlen]
      exact hΓ
  · rename_i hlen
    rw [if_neg hlen]
    refine (constrainAll_spec hargs h).weaken (fun x hx => mem_vars_of_names hx) fun Γ hΓ => ?_
    rw [StrTyped, if_neg hlen]
    exact hΓ

/-- The head operand of `cons`. -/
theorem typeConsHead_spec {b : Option Token} {elem : Scalar}
    (h : typeConsHead t b elem site = .ok t') :
    Passed t t' (b.toList.flatMap Token.names) fun Γ => FitsOpt False Γ b (.flat elem) := by
  cases b with
  | none =>
    cases h
    exact .refl _ fun Γ tok htok => (by cases htok)
  | some b =>
    have hflat : (∀ pos cs tl, b ≠ .list pos cs tl) → constrainListElem t b elem site = .ok t' →
        Passed t t' ((some b).toList.flatMap Token.names)
          fun Γ => FitsOpt False Γ (some b) (.flat elem) := by
      intro hlist h
      refine (constrainListElem_spec h).weaken (fun x hx => by simpa using hx)
        fun Γ hΓ tok htok => ?_
      cases htok
      cases b with
      | list pos cs tl => exact absurd rfl (hlist pos cs tl)
      | _ => exact hΓ
    cases b with
    | list pos cs tl => cases h
    | _ => exact hflat (fun _ _ _ he => (by cases he)) h

/-- The second operand of `append`. -/
theorem typeAppendOperand_spec {b : Option Token} {elem : Scalar}
    (hb : ∀ tok, b = some tok → tok.Parsed) (h : typeAppendOperand t b elem site = .ok t') :
    Passed t t' (b.toList.flatMap Token.vars) fun Γ => FitsOpt False Γ b (.list elem) := by
  cases b with
  | none =>
    cases h
    exact .refl _ fun Γ tok htok => (by cases htok)
  | some b =>
    cases b with
    | var pos x =>
      refine (constrainVar_spec h).weaken (fun y hy => by simpa [Token.vars, Token.names] using hy)
        fun Γ hx tok htok => ?_
      cases htok
      exact hx
    | list pos cs tl =>
      have hpass := @typeListLiteralKnown_spec t t' site pos cs tl elem (hb _ rfl).2 h
      refine hpass.weaken (fun y hy => by simpa using hy) fun Γ hΓ tok htok => ?_
      cases htok
      exact hΓ
    | int pos n => cases h
    | ident pos x => cases h
    | string pos x => cases h
    | aggregate pos x => cases h

/-- The variables of the first arguments of a list builtin. -/
theorem mem_take_three {args : List Token} {x : String} :
    x ∈ (args.take 3).flatMap Token.names ↔
      x ∈ args[0]?.toList.flatMap Token.names ++ (args[1]?.toList.flatMap Token.names ++
        args[2]?.toList.flatMap Token.names) := by
  rcases args with _ | ⟨a, _ | ⟨b, _ | ⟨c, args⟩⟩⟩ <;> simp

/-- **A list builtin.** -/
theorem typeListBuiltin_spec {a : Atom} (hargs : ∀ b ∈ a.args, b.Parsed)
    (h : typeListBuiltin t a = .ok t') :
    Passed t t' (if a.pred = "cons" then (a.args.take 3).flatMap Token.names
      else if a.pred = "append" then
        (a.args.take 2).flatMap Token.names ++ a.args[2]?.toList.flatMap Token.vars
      else (a.args.take 2).flatMap Token.names) fun Γ => ListTyped False Γ a := by
  unfold typeListBuiltin at h
  dsimp only at h
  by_cases hcar : a.pred = "member" ∨ a.pred = "car"
  · rw [if_pos hcar] at h
    obtain ⟨elem, h₁, h₂⟩ := bind_eq_ok h
    have hcons : a.pred ≠ "cons" := by rcases hcar with hp | hp <;> simp [hp]
    have happend : a.pred ≠ "append" := by rcases hcar with hp | hp <;> simp [hp]
    rw [if_neg hcons, if_neg happend]
    refine ((resolveListOperand_spec h₁).trans (constrainResult_spec h₂)).weaken (fun x hx => ?_)
      fun Γ hΓ => ⟨elem, ?_⟩
    · have hx := List.mem_append.mp (mem_take_two.mp hx)
      exact hx.elim (List.mem_append_right _) (List.mem_append_left _)
    · rw [if_pos hcar]
      exact hΓ
  rw [if_neg hcar] at h
  by_cases hcdr : a.pred = "cdr"
  · rw [if_pos hcdr] at h
    obtain ⟨elem, h₁, h₂⟩ := bind_eq_ok h
    have hcons : a.pred ≠ "cons" := by simp [hcdr]
    have happend : a.pred ≠ "append" := by simp [hcdr]
    rw [if_neg hcons, if_neg happend]
    refine ((resolveListOperand_spec h₁).trans (constrainResult_spec h₂)).weaken (fun x hx => ?_)
      fun Γ hΓ => ⟨elem, ?_⟩
    · have hx := List.mem_append.mp (mem_take_two.mp hx)
      exact hx.elim (List.mem_append_right _) (List.mem_append_left _)
    · rw [if_neg hcar, if_pos hcdr]
      exact hΓ
  rw [if_neg hcdr] at h
  by_cases hcons : a.pred = "cons"
  · rw [if_pos hcons] at h
    obtain ⟨elem, h₁, h⟩ := bind_eq_ok h
    obtain ⟨t₁, h₂, h₃⟩ := bind_eq_ok h
    rw [if_pos hcons]
    refine ((resolveListOperand_spec h₁).trans ((typeConsHead_spec h₂).trans
      (constrainResult_spec h₃))).weaken (fun x hx => ?_) fun Γ hΓ => ⟨elem, ?_⟩
    · have hx := mem_take_three.mp hx
      simp only [List.mem_append] at hx ⊢
      tauto
    · rw [if_neg hcar, if_neg hcdr, if_pos hcons]
      exact hΓ
  · rw [if_neg hcons] at h
    obtain ⟨elem, h₁, h⟩ := bind_eq_ok h
    obtain ⟨t₁, h₂, h₃⟩ := bind_eq_ok h
    rw [if_neg hcons]
    have hsecond : ∀ tok, a.args[2]? = some tok → tok.Parsed := fun tok htok =>
      hargs tok (List.mem_of_getElem? htok)
    refine ((resolveListOperand_spec h₁).trans ((typeAppendOperand_spec hsecond h₂).trans
      (constrainResult_spec h₃))).weaken (fun x hx => ?_) fun Γ hΓ => ⟨elem, ?_⟩
    · have htwo : x ∈ (a.args.take 2).flatMap Token.names ∨
          x ∈ a.args[2]?.toList.flatMap Token.vars := by
        split at hx
        · exact List.mem_append.mp hx
        · exact Or.inl hx
      rw [mem_take_two] at htwo
      simp only [List.mem_append] at htwo ⊢
      tauto
    · rw [if_neg hcar, if_neg hcdr, if_neg hcons]
      exact hΓ

/-- A range. -/
theorem typeRange_spec {a : Atom} (hargs : ∀ b ∈ a.args, b.Parsed)
    (h : typeRange t a = .ok t') :
    Passed t t' (a.args.flatMap Token.names) fun Γ => RangeTyped False Γ a := by
  unfold typeRange at h
  split at h
  · rename_i x rl lo hi heq
    split at h
    · rename_i pos rel
      obtain ⟨t₁, h₁, h⟩ := bind_eq_ok h
      obtain ⟨t₂, h₂, h₃⟩ := bind_eq_ok h
      have hlo : lo.Parsed := hargs lo (by simp [heq])
      have hhi : hi.Parsed := hargs hi (by simp [heq])
      refine ((constrainResult_spec h₁).trans ((constrainArg_spec hlo h₂).trans
        (constrainArg_spec hhi h₃))).weaken (fun z hz => ?_) fun Γ hΓ =>
          ⟨x, pos, rel, lo, hi, heq, hΓ⟩
      have hz : z ∈ x.names ∨ z ∈ lo.names ∨ z ∈ hi.names := by
        simpa [heq, Token.names] using hz
      simp only [List.mem_append]
      rcases hz with hz | hz | hz
      · exact Or.inl (by simpa using hz)
      · exact Or.inr (Or.inl (mem_vars_of_name hz))
      · exact Or.inr (Or.inr (mem_vars_of_name hz))
    · cases h
  · cases h

/-! ## Bodies and rules -/

/-- The arguments of an atom are tokens as they are parsed. -/
theorem Atom.Parsed.args {a : Atom} (hp : a.Parsed) : ∀ b ∈ a.args, b.Parsed := by
  have hplain : ∀ {r : Token}, r.isPlain = true → r.Parsed := by
    intro r hr
    cases r with
    | list pos cs tl => cases hr
    | _ => exact trivial
  cases hp with
  | plain pred pos args negated pattern hargs => exact hargs
  | eqVar pos p q x y negated =>
    intro b hb
    rcases List.mem_pair.mp hb with rfl | rfl <;> exact trivial
  | eqConst pos c r negated hc hr =>
    intro b hb
    rcases List.mem_pair.mp hb with rfl | rfl
    · cases b with
      | list pos cs tl => exact hc.elim
      | _ => exact trivial
    · exact hplain hr
  | listAssign pos p children tail r negated hc htail hr =>
    intro b hb
    rcases List.mem_pair.mp hb with rfl | rfl
    · exact ⟨hc, htail⟩
    · exact hr
  | count pos x negated => exact fun b hb => absurd hb List.not_mem_nil
  | agg pos p x y op negated hop =>
    intro b hb
    rw [List.mem_singleton.mp hb]
    exact trivial
  | builtin pred pos p x args negated hname hargs =>
    intro b hb
    rcases List.mem_cons.mp hb with rfl | hb
    · exact trivial
    · exact hargs b hb
  | arith pos p x e negated =>
    intro b hb
    rw [List.mem_singleton.mp hb]
    exact trivial
  | compare op pos p x r negated hop hr =>
    intro b hb
    rcases List.mem_pair.mp hb with rfl | rfl
    · exact trivial
    · exact hplain hr

/-- An arithmetic atom as it is parsed. -/
theorem Atom.Parsed.arith_shape {a : Atom} (hp : a.Parsed) {e : Expr} (he : a.arith = some e) :
    ∃ p x, a.args = [.var p x] := by
  cases hp with
  | arith pos p x e negated => exact ⟨p, x, rfl⟩
  | plain pred pos args negated pattern hargs => cases he
  | eqVar pos p q x y negated => cases he
  | eqConst pos c r negated hc hr => cases he
  | listAssign pos p children tail r negated hc htail hr => cases he
  | count pos x negated => cases he
  | agg pos p x y op negated hop => cases he
  | builtin pred pos p x args negated hname hargs => cases he
  | compare op pos p x r negated hop hr => cases he

/-- **An equality.** -/
theorem typeEquality_spec {a : Atom} {K : List String} (hp : ∀ b ∈ a.args, b.Parsed)
    (hlen : a.args.length = 2) (hK : ∀ z ∈ K, (t.typeOf z).isSome)
    (h : typeEquality t a = .ok t') :
    Passed t t' (eqGives K a.args) fun Γ => EqTyped False Γ K a := by
  obtain ⟨l, r, hargs⟩ := List.length_eq_two.mp hlen
  have hl : l.Parsed := hp l (by simp [hargs])
  cases l with
  | list p cs tl =>
    refine typeListAssignment_spec hargs hl.2 ?_
    simpa [typeEquality, hargs] using h
  | aggregate p x => exact typeEquality_loose hargs (fun _ _ _ => Token.noConfusion) rfl h
  | var p x =>
    cases r with
    | var q y => exact typeEquality_var hargs hK h
    | int | ident | string => exact typeEquality_varConst hargs trivial h
    | list | aggregate => exact typeEquality_loose hargs (fun _ _ _ => Token.noConfusion) rfl h
  | int | ident | string =>
    cases r with
    | list | aggregate => exact typeEquality_loose hargs (fun _ _ _ => Token.noConfusion) rfl h
    | _ => exact typeEquality_const hargs trivial rfl h

/-- **A body atom**, after atoms that typed the variables `K`. -/
theorem typeBodyAtom_spec {σ : Schema} {a : Atom} {K : List String} (hp : a.Parsed)
    (hK : ∀ z ∈ K, (t.typeOf z).isSome) (h : typeBodyAtom σ t a = .ok t') :
    Passed t t' (a.gives K) fun Γ => AtomTyped False σ Γ K a := by
  unfold typeBodyAtom at h
  unfold Atom.gives AtomTyped
  by_cases hagg : a.aggregate = true
  · rw [if_pos hagg] at h ⊢
    simp only [if_pos hagg]
    exact typeAggregate_spec hp hagg h
  simp only [if_neg hagg] at h ⊢
  by_cases hpat : a.pattern.isSome = true
  · simp only [if_pos hpat] at h ⊢
    exact (constrainAll_spec hp.args h).weaken (fun x hx => mem_vars_of_names hx)
      fun Γ hΓ => ⟨hΓ, fun hfull => hfull.elim⟩
  simp only [if_neg hpat] at h ⊢
  cases harith : a.arith with
  | some e =>
    rw [harith] at h
    obtain ⟨p, x, hargs⟩ := hp.arith_shape harith
    obtain ⟨t₁, h₁, h₂⟩ := bind_eq_ok h
    rw [hargs] at h₁ ⊢
    exact ((constrainResult_spec h₁).trans (typeExpr_spec h₂)).weaken (fun _ hx => hx)
      fun Γ hΓ => ⟨hΓ.1.opt, hΓ.2⟩
  | none =>
    rw [harith] at h
    dsimp only at h ⊢
    split at h
    · rename_i hne
      cases h
      simp only [if_pos hne]
      refine ⟨fun x c hx => ?_, fun _ hx => absurd hx List.not_mem_nil, fun Γ _ => trivial⟩
      rwa [typeOf_registerAll]
    rename_i hne
    simp only [if_neg hne]
    split at h
    · rename_i hcmp
      simp only [if_pos hcmp]
      exact typeComparison_spec hp.args h
    rename_i hcmp
    simp only [if_neg hcmp]
    split at h
    · rename_i heq
      simp only [if_pos heq]
      exact typeEquality_spec hp.args heq.2 hK h
    rename_i heq
    simp only [if_neg heq]
    split at h
    · rename_i hstr
      simp only [if_pos hstr]
      exact typeStrProducing_spec hp.args h
    rename_i hstr
    simp only [if_neg hstr]
    split at h
    · rename_i hfil
      simp only [if_pos hfil]
      exact (constrainAll_spec hp.args h).weaken (fun x hx => mem_vars_of_names hx)
        fun Γ hΓ => hΓ
    rename_i hfil
    simp only [if_neg hfil]
    split at h
    · rename_i hlist
      simp only [if_pos hlist]
      exact typeListBuiltin_spec hp.args h
    rename_i hlist
    simp only [if_neg hlist]
    split at h
    · rename_i hrange
      simp only [if_pos hrange]
      exact typeRange_spec hp.args h
    · rename_i hrange
      simp only [if_neg hrange]
      exact typeRelational_spec hp.args h

/-- **A body**, from left to right. -/
theorem typeBody_spec {σ : Schema} {body : List Atom} {K : List String}
    (hp : ∀ a ∈ body, a.Parsed) (hK : ∀ z ∈ K, (t.typeOf z).isSome)
    (h : body.foldlM (typeBodyAtom σ) t = .ok t') :
    Passed t t' [] fun Γ => BodyTyped False σ Γ K body := by
  induction body generalizing t K with
  | nil =>
    cases h
    exact .refl _ fun Γ => trivial
  | cons a body ih =>
    rw [List.foldlM_cons] at h
    obtain ⟨t₁, h₁, h₂⟩ := bind_eq_ok h
    have hone := typeBodyAtom_spec (hp a List.mem_cons_self) hK h₁
    have hK₁ : ∀ z ∈ K ++ a.gives K, (t₁.typeOf z).isSome := by
      intro z hz
      rcases List.mem_append.mp hz with hz | hz
      · exact hone.isSome (hK z hz)
      · exact hone.given z hz
    have hrest := ih (fun b hb => hp b (List.mem_cons_of_mem a hb)) hK₁ h₂
    exact (hone.trans hrest).weaken (fun _ hx => absurd hx List.not_mem_nil) fun _ hΓ => hΓ

/-- A rule that passes is well typed under the types of its last table. -/
theorem typeRule_spec {σ : Schema} {r : Rule} (hp : r.Parsed) (h : typeRule σ r = .ok ()) :
    ∃ Γ, RuleTyped False σ Γ r := by
  obtain ⟨t, h₁, h⟩ := bind_eq_ok h
  obtain ⟨t', h₂, -⟩ := bind_eq_ok h
  have hhead := typeRelational_spec hp.head h₁
  have hbody := typeBody_spec hp.body hhead.given h₂
  exact ⟨t'.assign, hhead.holds _ (hbody.models t'.models_assign), hbody.holds _ t'.models_assign⟩

/-- **The typechecker is sound** for what it looks at: each rule of a program that
passes has one assignment of types to its variables under which it is well typed. -/
theorem typecheck_sound {σ : Schema} {rules : List Rule} (hp : ∀ r ∈ rules, r.Parsed)
    (h : dlTypecheckRules σ rules = .ok ()) : ∀ r ∈ rules, ∃ Γ, RuleTyped False σ Γ r := by
  induction rules with
  | nil => exact fun r hr => absurd hr List.not_mem_nil
  | cons r rules ih =>
    obtain ⟨⟨⟩, h₁, h₂⟩ := bind_eq_ok (f := fun _ => rules.forM (typeRule σ)) h
    intro r' hr'
    rcases List.mem_cons.mp hr' with rfl | hr'
    · exact typeRule_spec (hp _ List.mem_cons_self) h₁
    · exact ih (fun q hq => hp q (List.mem_cons_of_mem r hq)) h₂ r' hr'

/-! ## A rule it accepts -/

/-- `q(List<Text>)`, `r(Text)` and `p(List<Text>, Natural)`. -/
def sampleSchema : Schema :=
  [⟨"q", [.list .text]⟩, ⟨"r", [text]⟩, ⟨"p", [.list .text, natural]⟩]

/-- A variable token. -/
def sampleVar (x : String) : Token := .var ⟨1, 1⟩ x

/-- `p(Xs, N) :- q(L), [X | Xs] = L, r(X), N = length(X), N >= 2.` -/
def sampleRule : Rule where
  head := { pred := "p", pos := ⟨1, 1⟩, args := [sampleVar "Xs", sampleVar "N"] }
  body :=
    [{ pred := "q", pos := ⟨1, 1⟩, args := [sampleVar "L"] },
      { pred := "=", pos := ⟨1, 1⟩,
        args := [.list ⟨1, 1⟩ [sampleVar "X"] (some (sampleVar "Xs")), sampleVar "L"] },
      { pred := "r", pos := ⟨1, 1⟩, args := [sampleVar "X"] },
      { pred := "length", pos := ⟨1, 1⟩, args := [sampleVar "N", sampleVar "X"] },
      { pred := ">=", pos := ⟨1, 1⟩, args := [sampleVar "N", .int ⟨1, 1⟩ 2] }]

theorem parsed_sampleVar (x : String) : (sampleVar x).Parsed := trivial

theorem sampleRule_parsed : sampleRule.Parsed where
  head := by simp [sampleRule, parsed_sampleVar]
  body := by
    have hvars : ∀ xs : List String, ∀ a ∈ xs.map sampleVar, a.Parsed := by
      intro xs a ha
      obtain ⟨x, -, rfl⟩ := List.mem_map.mp ha
      exact parsed_sampleVar x
    intro a ha
    simp only [sampleRule, List.mem_cons, List.not_mem_nil, or_false] at ha
    rcases ha with rfl | rfl | rfl | rfl | rfl
    · exact .plain "q" _ _ _ none (hvars ["L"])
    · refine .listAssign _ _ _ _ _ _ (fun c hc => ?_) (fun tl htl => ?_) trivial
      · obtain rfl := List.mem_singleton.mp hc
        trivial
      · exact ⟨_, _, (Option.some.inj htl).symm⟩
    · exact .plain "r" _ _ _ none (hvars ["X"])
    · exact .builtin "length" _ _ _ _ _ (by decide) (hvars ["X"])
    · exact .compare ">=" _ _ _ _ _ (by decide) rfl

theorem typecheck_sound_sample :
    dlTypecheckRules sampleSchema [sampleRule] = .ok () ∧
      ∀ r ∈ [sampleRule], ∃ Γ, RuleTyped False sampleSchema Γ r :=
  have h : dlTypecheckRules sampleSchema [sampleRule] = .ok () := rfl
  ⟨h, typecheck_sound (fun _ hr => List.mem_singleton.mp hr ▸ sampleRule_parsed) h⟩

/-! ## An occurrence it leaves alone -/

/-- `q(Xs) :- q(L), [1 | Xs] = L.` over a list of texts. -/
def skippedRule : Rule where
  head := { pred := "q", pos := ⟨1, 1⟩, args := [sampleVar "Xs"] }
  body :=
    [{ pred := "q", pos := ⟨1, 1⟩, args := [sampleVar "L"] },
      { pred := "=", pos := ⟨1, 1⟩,
        args := [.list ⟨1, 1⟩ [.int ⟨1, 1⟩ 1] (some (sampleVar "Xs")), sampleVar "L"] }]

theorem skippedRule_parsed : skippedRule.Parsed where
  head := by simp [skippedRule, parsed_sampleVar]
  body := by
    intro a ha
    simp only [skippedRule, List.mem_cons, List.not_mem_nil, or_false] at ha
    rcases ha with rfl | rfl
    · exact .plain "q" _ _ _ none (by simp [parsed_sampleVar])
    · refine .listAssign _ _ _ _ _ _ (fun c hc => ?_) (fun tl htl => ?_) trivial
      · obtain rfl := List.mem_singleton.mp hc
        trivial
      · exact ⟨_, _, (Option.some.inj htl).symm⟩

/-- No assignment makes the number in its pattern an element of a list of texts. -/
theorem skippedRule_not_typed (Γ : String → ColSpec) : ¬ RuleTyped True sampleSchema Γ skippedRule := by
  rintro ⟨-, hq, heq, -⟩
  obtain ⟨rd, hrd, -, hfits⟩ : RelTyped True sampleSchema Γ
    { pred := "q", pos := ⟨1, 1⟩, args := [sampleVar "L"] } := hq
  obtain rfl : (⟨"q", [.list .text]⟩ : RelDef) = rd := Option.some.inj hrd
  have hL : Γ "L" = .list .text := hfits (sampleVar "L", .list .text) (by simp)
  obtain ⟨e, hr, hone, -⟩ : EqTyped True Γ ["Xs", "L"] skippedRule.body[1] := heq
  have he : Γ "L" = .list e := hr
  have hnat : ColSpec.flat e = natural := hone (.int ⟨1, 1⟩ 1) (by simp) _ rfl (.inr trivial)
  rw [hL] at he
  cases he
  cases hnat

/-- **A number in a pattern over a list of texts is accepted.** -/
theorem not_typecheck_sound_full :
    ¬ ∀ (σ : Schema) (rules : List Rule), (∀ r ∈ rules, r.Parsed) →
      dlTypecheckRules σ rules = .ok () → ∀ r ∈ rules, ∃ Γ, RuleTyped True σ Γ r := by
  intro h
  obtain ⟨Γ, hΓ⟩ := h sampleSchema [skippedRule]
    (fun _ hr => List.mem_singleton.mp hr ▸ skippedRule_parsed) rfl skippedRule List.mem_cons_self
  exact skippedRule_not_typed Γ hΓ

end DatalogDafsa.Typecheck
