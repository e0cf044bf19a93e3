import DatalogDafsa.Search.Index
import DatalogDafsa.Search.RankedSound

/-!
# When the index is complete

The call decides by a count whether anything is missing, and takes a content with one
posting for indexed.  Both are right as long as the contents with postings are among the
observed ones and have all of their postings; a deleted observation, or a posting by hand,
can make either of them wrong.

## Main definitions

* `Whole` — a content has a posting for each of its tokens.
* `Safe`, `CallComplete` — the condition on a call, and what it leaves.
* `Tame` — calls after which the condition holds.
* `dlIndexObservations_complete` — over all histories.
-/

namespace DatalogDafsa.Search

open Intern (Interner Enum Str internStr internStrOf ensureFwd TableOk Grows Enumerates)

/-! ## Tokens -/

theorem toLowerAscii_ne_zero {ch : UInt8} (h : isAlnumAscii ch = true) : toLowerAscii ch ≠ 0 := by
  intro h0
  unfold toLowerAscii at h0
  unfold isAlnumAscii at h
  simp only [Bool.or_eq_true, Bool.and_eq_true, decide_eq_true_eq, UInt8.le_iff_toNat_le,
    UInt8.reduceToNat] at h h0
  split at h0
  · rename_i hup
    have := congrArg UInt8.toNat h0
    simp only [UInt8.toNat_add, UInt8.toNat_sub, UInt8.reduceToNat] at this
    omega
  · subst h0
    simp at h

/-- Tokens have no zero byte. -/
theorem zero_notMem_tokenizeFrom {p cur : Str} (hcur : 0 ∉ cur) {tok : Str}
    (h : tok ∈ tokenizeFrom p cur) : 0 ∉ tok := by
  induction p generalizing cur with
  | nil =>
    unfold tokenizeFrom at h
    split at h
    · cases h
    · rw [List.mem_singleton.mp h, List.mem_reverse]
      exact hcur
  | cons ch p ih =>
    unfold tokenizeFrom at h
    split at h
    · rename_i hch
      refine ih ?_ h
      rw [List.mem_cons, not_or]
      exact ⟨(toLowerAscii_ne_zero hch).symm, hcur⟩
    · split at h
      · exact ih List.not_mem_nil h
      · rcases List.mem_cons.mp h with rfl | h
        · rwa [List.mem_reverse]
        · exact ih List.not_mem_nil h

theorem zero_notMem_tokenize {text tok : Str} (h : tok ∈ tokenize text) : 0 ∉ tok :=
  zero_notMem_tokenizeFrom List.not_mem_nil h

theorem tokenizeFrom_eq_nil_iff {p cur : Str} :
    tokenizeFrom p cur = [] ↔ cur = [] ∧ p.any isAlnumAscii = false := by
  induction p generalizing cur with
  | nil => by_cases hcur : cur = [] <;> simp [tokenizeFrom, hcur]
  | cons ch p ih =>
    unfold tokenizeFrom
    by_cases hch : isAlnumAscii ch = true
    · rw [if_pos hch, ih]
      simp [hch]
    · by_cases hcur : cur = []
      · rw [if_neg hch, if_pos hcur, ih]
        simp [hch, hcur]
      · rw [if_neg hch, if_neg hcur]
        simp [hcur]

/-- **A text has tokens** when one of its bytes is a letter or a digit. -/
theorem tokenize_eq_nil_iff {text : Str} : tokenize text = [] ↔ text.any isAlnumAscii = false := by
  rw [tokenize, tokenizeFrom_eq_nil_iff]
  exact and_iff_right rfl

/-! ## Counting -/

/-- The contents of some rows; the number 0 is none. -/
def contents (d : Dafsa) : Finset Val := (d.keys.map contentOf).toFinset.erase 0

theorem mem_contents {d : Dafsa} {c : Val} :
    c ∈ contents d ↔ c ≠ 0 ∧ ∃ cols ∈ d, contentOf cols = c := by
  simp [contents, Dafsa.mem_def]

theorem toUInt64_injective : Function.Injective UInt32.toUInt64 := fun a b h =>
  UInt32.toNat_inj.mp (by
    have := congrArg UInt64.toNat h
    simpa using this)

theorem toUInt64_eq_zero {c : Val} : c.toUInt64 = 0 ↔ c = 0 :=
  ⟨fun h => toUInt64_injective h, fun h => h ▸ rfl⟩

/-- The keys of some contents. -/
def keySet (S : Finset Val) : Set UInt64 := {k | ∃ c ∈ S, c.toUInt64 = k}

theorem mem_keySet {S : Finset Val} {c : Val} : c.toUInt64 ∈ keySet S ↔ c ∈ S := by
  constructor
  · rintro ⟨c', hc', heq⟩
    exact toUInt64_injective heq ▸ hc'
  · exact fun hc => ⟨c, hc, rfl⟩

theorem keySet_insert (c : Val) (S : Finset Val) :
    keySet (insert c S) = insert c.toUInt64 (keySet S) := by
  ext k
  simp only [keySet, Set.mem_ofPred_eq, Set.mem_insert_iff, Finset.mem_insert]
  constructor
  · rintro ⟨c', rfl | hc', rfl⟩
    · exact .inl rfl
    · exact .inr ⟨c', hc', rfl⟩
  · rintro (rfl | ⟨c', hc', rfl⟩)
    · exact ⟨c, .inl rfl, rfl⟩
    · exact ⟨c', .inr hc', rfl⟩

/-- The contents that have been met, and how many of them count. -/
def Counted (counts : Val → Bool) (S : Finset Val) (acc : U64Set × ℕ) : Prop :=
  acc.1.Holds (keySet S) ∧ acc.2 = (S.filter (counts · = true)).card

/-- One row. -/
theorem Counted.step {counts : Val → Bool} {S : Finset Val} {acc : U64Set × ℕ}
    (h : Counted counts S acc) (cols : Row) :
    Counted counts (if contentOf cols = 0 then S else insert (contentOf cols) S)
      (countNew counts acc cols) := by
  obtain ⟨hset, hcount⟩ := h
  by_cases hzero : contentOf cols = 0
  · -- the key 0 is never added
    have hadd : u64SetAdd acc.1 (contentOf cols).toUInt64 = (false, acc.1) := by
      rw [u64SetAdd, if_pos (toUInt64_eq_zero.mpr hzero)]
    rw [if_pos hzero, countNew, hadd]
    exact ⟨hset, hcount⟩
  · obtain ⟨hnew, hset'⟩ := u64SetAdd_spec hset (fun h => hzero (toUInt64_eq_zero.mp h))
    rw [if_neg hzero, countNew]
    refine ⟨by rwa [keySet_insert], ?_⟩
    dsimp only
    rw [mem_keySet] at hnew
    by_cases hmem : contentOf cols ∈ S
    · rw [Bool.eq_false_iff.mpr (fun h => hnew.mp h hmem), Finset.insert_eq_of_mem hmem]
      exact hcount
    · rw [hnew.mpr hmem, Bool.true_and, Finset.filter_insert]
      split
      · rw [Finset.card_insert_of_notMem fun h => hmem (Finset.mem_of_mem_filter _ h), hcount]
      · exact hcount

/-- **Counting contents** counts each one once. -/
theorem counted_contents (counts : Val → Bool) (d : Dafsa) :
    Counted counts (contents d) (d.keys.foldl (countNew counts) (.empty, 0)) := by
  have key : ∀ (rows : List Row) (acc : U64Set × ℕ) (S : Finset Val), Counted counts S acc →
      Counted counts (S ∪ (rows.map contentOf).toFinset.erase 0)
        (rows.foldl (countNew counts) acc) := by
    intro rows
    induction rows with
    | nil =>
      intro acc S h
      simpa using h
    | cons cols rows ih =>
      intro acc S h
      have hunion : S ∪ ((cols :: rows).map contentOf).toFinset.erase 0 =
          (if contentOf cols = 0 then S else insert (contentOf cols) S) ∪
            (rows.map contentOf).toFinset.erase 0 := by
        ext c
        split <;>
          simp only [List.map_cons, List.toFinset_cons, Finset.mem_union, Finset.mem_erase,
            Finset.mem_insert] <;>
          grind
      rw [List.foldl_cons, hunion]
      exact ih _ _ (h.step cols)
  have hstart : Counted counts ∅ (.empty, 0) := by
    refine ⟨?_, rfl⟩
    have hnone : keySet ∅ = ∅ := by simp [keySet]
    rw [hnone]
    exact holds_empty
  have := key d.keys _ ∅ hstart
  rwa [Finset.empty_union] at this

/-! ## Whole contents -/

/-- A content has text, and a posting for each of its tokens. -/
def Full (ir : Interner) (held : Row → Prop) (c : Val) : Prop :=
  ∃ text, internStrOf ir c.toNat = some text ∧
    ∀ tok ∈ tokenize text, ∃ id, internStrOf ir id = some tok ∧ held [UInt32.ofNat id, c]

/-- A content, if it held text, held a posting for each of its tokens. -/
def Whole (ir : Interner) (held : Row → Prop) (c : Val) : Prop :=
  ∀ text, internStrOf ir c.toNat = some text →
    ∀ tok ∈ tokenize text, ∃ id, internStrOf ir id = some tok ∧ held [UInt32.ofNat id, c]

variable {ir ir' : Interner} {held held' : Row → Prop} {c : Val}

theorem Full.whole (h : Full ir held c) : Whole ir held c := by
  obtain ⟨text, htext, hall⟩ := h
  intro text' htext'
  obtain rfl := Option.some.inj (htext.symm.trans htext')
  exact hall

/-- Symbols keep their text, and postings are only added. -/
theorem Full.mono (h : Full ir held c) (hok : TableOk ir) (hok' : TableOk ir')
    (hg : Grows ir ir') (hle : ∀ r, held r → held' r) : Full ir' held' c := by
  obtain ⟨text, htext, hall⟩ := h
  refine ⟨text, hg.nameOf hok.room hok'.room htext, fun tok htok => ?_⟩
  obtain ⟨id, hid, hpost⟩ := hall tok htok
  exact ⟨id, hg.nameOf hok.room hok'.room hid, hle _ hpost⟩

/-- A content with a token. -/
theorem hasAlnum_iff : hasAlnum ir c = true ↔
    ∃ text, internStrOf ir c.toNat = some text ∧ tokenize text ≠ [] := by
  unfold hasAlnum
  cases internStrOf ir c.toNat with
  | none => simp
  | some text => simp [tokenize_eq_nil_iff]

theorem hasAlnum_mono (hok : TableOk ir) (hok' : TableOk ir') (hg : Grows ir ir')
    (h : hasAlnum ir c = true) : hasAlnum ir' c = true := by
  obtain ⟨text, htext, hne⟩ := hasAlnum_iff.mp h
  exact hasAlnum_iff.mpr ⟨text, hg.nameOf hok.room hok'.room htext, hne⟩

/-! ## One content -/

variable {enum : Enum} {env : Env} {postings : Dafsa} {ctx : IndexObsCtx}

/-- A posting is there, or waits for the commit. -/
def IndexObsCtx.Has (ctx : IndexObsCtx) (postings : Dafsa) (r : Row) : Prop :=
  r ∈ postings ∨ r ∈ ctx.buffer

/-- The symbols are sound, and what has been seen is posted. -/
structure IndexObsCtx.Ok (ctx : IndexObsCtx) (postings : Dafsa) : Prop where
  /-- The symbols. -/
  table : TableOk ctx.ir
  /-- The pairs. -/
  seen : ∃ S, ctx.seen.Holds S ∧ ∀ t c : Val, pack t c.toNat ∈ S → ctx.Has postings [t, c]

/-- What a part of the enumeration adds: symbols, and postings of contents with `P`. -/
structure Adds (P : Val → Prop) (ctx ctx' : IndexObsCtx) : Prop where
  /-- Symbols. -/
  grows : Grows ctx.ir ctx'.ir
  /-- Postings. -/
  more : ∃ rows, ctx'.buffer = ctx.buffer ++ rows ∧ ∀ r ∈ rows, P (contentOf r)

theorem Adds.refl (P : Val → Prop) (ctx : IndexObsCtx) : Adds P ctx ctx :=
  ⟨.refl _, [], (List.append_nil _).symm, fun _ h => absurd h List.not_mem_nil⟩

theorem Adds.trans {P : Val → Prop} {ctx₁ ctx₂ ctx₃ : IndexObsCtx} (h : Adds P ctx₁ ctx₂)
    (h' : Adds P ctx₂ ctx₃) : Adds P ctx₁ ctx₃ := by
  obtain ⟨hg, rows, hrows, hP⟩ := h
  obtain ⟨hg', rows', hrows', hP'⟩ := h'
  refine ⟨hg.trans hg', rows ++ rows', by rw [hrows', hrows, List.append_assoc], fun r hr => ?_⟩
  exact (List.mem_append.mp hr).elim (hP r) (hP' r)

theorem Adds.imp {P Q : Val → Prop} {ctx ctx' : IndexObsCtx} (h : Adds P ctx ctx')
    (hPQ : ∀ c, P c → Q c) : Adds Q ctx ctx' := by
  obtain ⟨hg, rows, hrows, hP⟩ := h
  exact ⟨hg, rows, hrows, fun r hr => hPQ _ (hP r hr)⟩

theorem Adds.keeps {P : Val → Prop} {ctx ctx' : IndexObsCtx} (h : Adds P ctx ctx') {r : Row}
    (hr : ctx.Has postings r) : ctx'.Has postings r := by
  obtain ⟨-, rows, hrows, -⟩ := h
  exact hr.imp_right fun hr => by
    rw [hrows]
    exact List.mem_append_left _ hr

theorem pack_injective {t t' c c' : Val} (h : pack t c.toNat = pack t' c'.toNat) :
    t = t' ∧ c = c' := by
  have hlt := c.toNat_lt
  have hlt' := c'.toNat_lt
  have hobs := congrArg unpackObs h
  have hrank := congrArg (fun k => (unpackRank k).toNat) h
  rw [unpackObs_pack t hlt, unpackObs_pack t' hlt'] at hobs
  rw [unpackRank_pack t hlt, unpackRank_pack t' hlt'] at hrank
  exact ⟨hobs, UInt32.toNat_inj.mp hrank⟩

theorem pack_ne_zero {t c : Val} (ht : t ≠ 0) : pack t c.toNat ≠ 0 := fun h => by
  have hzero : pack 0 (0 : Val).toNat = 0 := by decide
  exact ht (pack_injective (h.trans hzero.symm)).1

/-- A pair that was just seen, and is posted. -/
theorem IndexObsCtx.Ok.see (h : ctx.Ok postings) {t content : Val} (ht : t ≠ 0)
    {ctx' : IndexObsCtx} (htable : TableOk ctx'.ir)
    (hseen : ctx'.seen = (u64SetAdd ctx.seen (pack t content.toNat)).2)
    (hhas : ∀ r, ctx.Has postings r → ctx'.Has postings r) (hnew : ctx'.Has postings [t, content]) :
    ctx'.Ok postings := by
  obtain ⟨S, hS, hall⟩ := h.seen
  refine ⟨htable, insert (pack t content.toNat) S, ?_, fun t' c' hmem => ?_⟩
  · rw [hseen]
    exact (u64SetAdd_spec hS (pack_ne_zero ht)).2
  · rcases Set.mem_insert_iff.mp hmem with heq | hmem
    · obtain ⟨rfl, rfl⟩ := pack_injective heq
      exact hnew
    · exact hhas _ (hall t' c' hmem)

/-- **The loop over the tokens** leaves each with a symbol and a posting, unless it stops at
an error. -/
theorem tokenLoop_spec (henum : Enumerates enum) (env : Env) (content : Val) (toks : List Str)
    (htoks : ∀ tok ∈ toks, 0 ∉ tok) {ctx : IndexObsCtx} (h : ctx.Ok postings) :
    let ctx' := tokenLoop enum env postings content toks ctx
    Adds (fun c => c = content ∧ toks ≠ []) ctx ctx' ∧
      TableOk ctx'.ir ∧ (ctx'.errorOccurred = false → ctx'.Ok postings ∧ ∀ tok ∈ toks, ∃ id,
        internStrOf ctx'.ir id = some tok ∧
          ctx'.Has postings [UInt32.ofNat id, content]) := by
  intro ctx'
  induction toks generalizing ctx with
  | nil => exact ⟨.refl _ _, h.table, fun _ => ⟨h, fun tok htok => by cases htok⟩⟩
  | cons tok toks ih =>
    obtain ⟨htok, htoks'⟩ := List.forall_mem_cons.mp htoks
    have hrest := fun {ctx : IndexObsCtx} (h : ctx.Ok postings) => ih htoks' h
    have hne : tok :: toks ≠ [] := List.cons_ne_nil tok toks
    -- what is left of the tokens is posted for the same content
    have hwiden : ∀ c, c = content ∧ toks ≠ [] → c = content ∧ tok :: toks ≠ [] :=
      fun c hc => ⟨hc.1, hne⟩
    simp only [ctx', tokenLoop]
    cases hnew : internStr enum ctx.ir tok with
    | none => exact ⟨⟨.refl _, [], (List.append_nil _).symm, fun r hr => by cases hr⟩, h.table,
        fun herr => by cases herr⟩
    | some res =>
      obtain ⟨ir, termSym⟩ := res
      obtain ⟨-, hg, hname⟩ := h.table.namesOk.intern henum htok hnew
      have htable := h.table.intern henum htok hnew
      dsimp only
      by_cases hzero : termSym = 0
      · rw [if_pos hzero]
        exact ⟨⟨hg, [], (List.append_nil _).symm, fun r hr => by cases hr⟩, htable,
          fun herr => by cases herr⟩
      · obtain ⟨hid, hle⟩ := hname hzero
        have hterm : UInt32.ofNat termSym ≠ 0 := by
          intro h0
          have := congrArg UInt32.toNat h0
          have hmax : Intern.maxStrings = 2147483648 := rfl
          rw [UInt32.toNat_ofNat_of_lt' (by change _ < 4294967296; omega)] at this
          exact hzero this
        rw [if_neg hzero]
        obtain ⟨S, hS, hall⟩ := h.seen
        obtain ⟨hisnew, -⟩ := u64SetAdd_spec hS
          (pack_ne_zero hterm : pack (UInt32.ofNat termSym) content.toNat ≠ 0)
        -- after the pair is posted the loop goes on
        have hgo : ∀ next : IndexObsCtx, next.ir = ir →
            next.seen = (u64SetAdd ctx.seen (pack (UInt32.ofNat termSym) content.toNat)).2 →
            Adds (fun c => c = content ∧ tok :: toks ≠ []) ctx next →
            next.Has postings [UInt32.ofNat termSym, content] →
            let ctx' := tokenLoop enum env postings content toks next
            Adds (fun c => c = content ∧ tok :: toks ≠ []) ctx ctx' ∧
              TableOk ctx'.ir ∧ (ctx'.errorOccurred = false → ctx'.Ok postings ∧
                ∀ tok' ∈ tok :: toks, ∃ id, internStrOf ctx'.ir id = some tok' ∧
                  ctx'.Has postings [UInt32.ofNat id, content]) := by
          intro next hir hseen hadds hhas
          have hok : next.Ok postings := h.see hterm (hir ▸ htable) hseen (fun r => hadds.keeps) hhas
          obtain ⟨hadds', htable', hdone⟩ := hrest hok
          refine ⟨hadds.trans (hadds'.imp hwiden), htable', fun herr => ?_⟩
          obtain ⟨hok', hposted⟩ := hdone herr
          refine ⟨hok', List.forall_mem_cons.mpr ⟨⟨termSym, ?_, hadds'.keeps hhas⟩, hposted⟩⟩
          exact hadds'.grows.nameOf hok.table.room htable'.room (hir ▸ hid)
        have hstay : Adds (fun c => c = content ∧ tok :: toks ≠ []) ctx
            { ctx with
              ir, seen := (u64SetAdd ctx.seen (pack (UInt32.ofNat termSym) content.toNat)).2 } :=
          ⟨hg, [], (List.append_nil _).symm, fun r hr => by cases hr⟩
        split
        · split
          · -- a new posting is buffered
            refine hgo _ rfl rfl ⟨hg, [[UInt32.ofNat termSym, content]], rfl, fun r hr => ?_⟩
              (.inr (List.mem_append_right _ (List.mem_singleton.mpr rfl)))
            rw [List.mem_singleton.mp hr]
            exact ⟨rfl, hne⟩
          · exact ⟨⟨hg, [], (List.append_nil _).symm, fun r hr => by cases hr⟩, htable,
              fun herr => by cases herr⟩
        · -- it was seen before, or is there
          rename_i hold
          refine hgo _ rfl rfl hstay ?_
          by_cases hin : pack (UInt32.ofNat termSym) content.toNat ∈ S
          · exact hall _ _ hin
          · rw [hisnew.mpr hin, Bool.true_and, Bool.not_eq_true', Bool.not_eq_false] at hold
            exact .inl (Dafsa.lookup_iff.mp hold)

/-! ## The enumeration -/

/-- **The enumeration** leaves the contents that were not skipped with all of their postings,
unless it stops at an error. -/
theorem indexObs_spec (henum : Enumerates enum) (env : Env) (indexed : U64Set) (rows : List Row)
    {ctx : IndexObsCtx} (h : ctx.Ok postings) (hfine : ctx.errorOccurred = false) :
    let ctx' := indexObs enum env postings indexed rows ctx
    let skipped := fun c : Val => u64SetContains indexed c.toUInt64 = true
    TableOk ctx'.ir ∧
      Adds (fun c => (∃ cols ∈ rows, contentOf cols = c) ∧ ¬ skipped c ∧
        hasAlnum ctx'.ir c = true) ctx ctx' ∧
      (ctx'.errorOccurred = false → ∀ cols ∈ rows, ¬ skipped (contentOf cols) →
        Full ctx'.ir (ctx'.Has postings) (contentOf cols)) := by
  intro ctx' skipped
  induction rows generalizing ctx with
  | nil => exact ⟨h.table, .refl _ _, fun _ cols hcols => by cases hcols⟩
  | cons cols rows ih =>
    simp only [ctx', indexObs]
    by_cases hskip : u64SetContains indexed (contentOf cols).toUInt64 = true
    · rw [if_pos hskip]
      obtain ⟨htable, hadds, hdone⟩ := ih h hfine
      refine ⟨htable, hadds.imp fun c hc => ⟨?_, hc.2⟩, fun herr => ?_⟩
      · obtain ⟨⟨cols', hmem, heq⟩, -⟩ := hc
        exact ⟨cols', List.mem_cons_of_mem _ hmem, heq⟩
      · exact List.forall_mem_cons.mpr ⟨fun hno => absurd hskip hno, hdone herr⟩
    · rw [if_neg hskip]
      cases htext : internStrOf ctx.ir (contentOf cols).toNat with
      | none =>
        exact ⟨h.table, ⟨.refl _, [], (List.append_nil _).symm, fun r hr => by cases hr⟩,
          fun herr => by cases herr⟩
      | some text =>
        dsimp only
        obtain ⟨hadds, htable, hdone⟩ := tokenLoop_spec henum env (contentOf cols)
          (tokenize text) (fun tok => zero_notMem_tokenize) h
        have halnum : ∀ ir', Grows ctx.ir ir' → TableOk ir' → tokenize text ≠ [] →
            hasAlnum ir' (contentOf cols) = true := fun ir' hg hok hne =>
          hasAlnum_iff.mpr ⟨text, hg.nameOf h.table.room hok.room htext, hne⟩
        by_cases herr :
            (tokenLoop enum env postings (contentOf cols) (tokenize text) ctx).errorOccurred = true
        · rw [if_pos herr]
          refine ⟨htable, hadds.imp ?_, fun hfalse => absurd (herr.symm.trans hfalse) (by simp)⟩
          rintro c ⟨rfl, hne⟩
          exact ⟨⟨cols, List.mem_cons_self, rfl⟩, hskip, halnum _ hadds.grows htable hne⟩
        · rw [if_neg herr]
          have hfine' := Bool.eq_false_iff.mpr herr
          obtain ⟨hok, hposted⟩ := hdone hfine'
          obtain ⟨htable', hadds', hdone'⟩ := ih hok hfine'
          refine ⟨htable', Adds.trans (hadds.imp ?_) (hadds'.imp ?_), fun herr' => ?_⟩
          · rintro c ⟨rfl, hne⟩
            exact ⟨⟨cols, List.mem_cons_self, rfl⟩, hskip,
              halnum _ (hadds.grows.trans hadds'.grows) htable' hne⟩
          · rintro c ⟨⟨cols', hmem, heq⟩, hc⟩
            exact ⟨⟨cols', List.mem_cons_of_mem _ hmem, heq⟩, hc⟩
          · refine List.forall_mem_cons.mpr ⟨fun _ => ?_, hdone' herr'⟩
            have hfull : Full
                (tokenLoop enum env postings (contentOf cols) (tokenize text) ctx).ir
                ((tokenLoop enum env postings (contentOf cols) (tokenize text) ctx).Has postings)
                (contentOf cols) :=
              ⟨text, hadds.grows.nameOf h.table.room htable.room htext, hposted⟩
            exact hfull.mono htable htable' hadds'.grows fun r => hadds'.keeps

/-! ## One call -/

namespace IndexDb

/-- The observations. -/
def obs (db : IndexDb) : Dafsa := db.observation.getD .create

/-- The postings. -/
def posts (db : IndexDb) : Dafsa := db.postings.getD .create

/-- Every observed content has a posting for each of its tokens. -/
def Covered (db : IndexDb) : Prop :=
  ∀ cols ∈ db.obs, Whole db.ir (· ∈ db.posts) (contentOf cols)

/-- The observed contents with a token. -/
def tokenizable (db : IndexDb) : Finset Val := (contents db.obs).filter (hasAlnum db.ir · = true)

/-- What the call relies on: if there are as many contents with a posting as observed
contents with a token, then each of the latter has a posting; and an observed content
that has a posting has them all. -/
structure Safe (db : IndexDb) : Prop where
  /-- The count tells whether a content is missing. -/
  count : db.tokenizable.card ≤ (contents db.posts).card → db.tokenizable ⊆ contents db.posts
  /-- A content with a posting is not looked at again. -/
  skip : ∀ c ∈ contents db.obs, c ∈ contents db.posts → Full db.ir (· ∈ db.posts) c

end IndexDb

/-- What every call keeps. -/
structure Later (db db' : IndexDb) : Prop where
  /-- The observations. -/
  observation : db'.observation = db.observation
  /-- The symbols are sound. -/
  table : TableOk db'.ir
  /-- They keep their texts. -/
  grows : Grows db.ir db'.ir
  /-- The postings stay. -/
  stay : ∀ r ∈ db.posts, r ∈ db'.posts

theorem Later.obs_eq {db db' : IndexDb} (h : Later db db') : db'.obs = db.obs := by
  rw [IndexDb.obs, h.observation, IndexDb.obs]

/-- What a rebuild leaves: new postings are of observed contents with tokens, and every
observed content without a posting gets them all. -/
structure Rebuilt (db db' : IndexDb) : Prop where
  /-- The new postings. -/
  fresh : ∀ c ∈ contents db'.posts, c ∈ contents db.posts ∨
    c ∈ contents db.obs ∧ hasAlnum db'.ir c = true
  /-- The contents without a posting. -/
  full : ∀ cols ∈ db.obs, contentOf cols ∉ contents db.posts →
    Full db'.ir (· ∈ db'.posts) (contentOf cols)

/-- The transaction. -/
theorem rebuildIndex_spec (henum : Enumerates enum) (env : Env) {db : IndexDb} {obs : Dafsa}
    (h : TableOk db.ir) (hobs : db.observation = some obs) {indexed : U64Set}
    (hindexed : indexed.Holds (keySet (contents db.posts))) :
    let r := rebuildIndex enum env obs db.posts indexed ⟨db.ir, some obs, some db.posts⟩
    Later db r.2 ∧ ((r.1 = none ∧ r.2.posts = db.posts) ∨ (∃ n, r.1 = some n) ∧ Rebuilt db r.2) := by
  intro r
  have hobs' : db.obs = obs := by rw [IndexDb.obs, hobs]; rfl
  have hbuild := (h.build true).1
  have hgbuild : Grows db.ir (ensureFwd db.ir true) := by
    unfold Intern.ensureFwd
    split <;> exact .refl _
  have hstart : (⟨ensureFwd db.ir true, [], 0, false, .empty⟩ : IndexObsCtx).Ok db.posts :=
    ⟨hbuild, ∅, holds_empty, fun _ _ hmem => by cases hmem⟩
  obtain ⟨htable, hadds, hdone⟩ := indexObs_spec henum env indexed obs.keys hstart rfl
  have hg := hgbuild.trans hadds.grows
  simp only [r, rebuildIndex]
  by_cases hbegins : env.begins = true
  · rw [if_pos hbegins]
    split
    · exact ⟨⟨hobs.symm, htable, hg, fun _ hr => hr⟩, .inl ⟨rfl, rfl⟩⟩
    · rename_i hfine
      split
      · obtain ⟨-, rows, hrows, hall⟩ := hadds
        rw [List.nil_append] at hrows
        refine ⟨⟨hobs.symm, htable, hg, fun row hrow => ?_⟩, .inr ⟨⟨_, rfl⟩, fun c hc => ?_,
          fun cols hcols hno => ?_⟩⟩
        · exact (Dafsa.mem_foldl_add _ _ _).mpr (.inr hrow)
        · obtain ⟨hzero, row, hrow, rfl⟩ := mem_contents.mp hc
          rcases (Dafsa.mem_foldl_add _ _ _).mp hrow with hrow | hrow
          · rw [hrows] at hrow
            obtain ⟨⟨cols, hcols, heq⟩, -, halnum⟩ := hall row hrow
            exact .inr ⟨mem_contents.mpr ⟨hzero, cols, hobs' ▸ hcols, heq⟩, halnum⟩
          · exact .inl (mem_contents.mpr ⟨hzero, row, hrow, rfl⟩)
        · rw [hobs'] at hcols
          have hskip : ¬ u64SetContains indexed (contentOf cols).toUInt64 = true := by
            rwa [u64SetContains_iff hindexed, mem_keySet]
          refine (hdone (Bool.eq_false_iff.mpr hfine) cols hcols hskip).mono htable htable
            (.refl _) fun row hrow => ?_
          exact (Dafsa.mem_foldl_add _ _ _).mpr hrow.symm
      · exact ⟨⟨hobs.symm, htable, hg, fun _ hr => hr⟩, .inl ⟨rfl, rfl⟩⟩
  · rw [if_neg hbegins]
    exact ⟨⟨hobs.symm, hbuild, hgbuild, fun _ hr => hr⟩, .inl ⟨rfl, rfl⟩⟩

/-- **What a call does**: it fails, finds enough postings, or builds the missing ones. -/
theorem dlIndexObservations_cases (henum : Enumerates enum) (env : Env) {db : IndexDb}
    (h : TableOk db.ir) :
    let r := dlIndexObservations enum env db
    Later db r.2 ∧ ((r.1 = none ∧ r.2.posts = db.posts) ∨
      (r.1 = some 0 ∧ r.2.posts = db.posts ∧ r.2.ir = db.ir ∧
        db.tokenizable.card ≤ (contents db.posts).card) ∨
      (∃ n, r.1 = some n) ∧ Rebuilt db r.2) := by
  intro r
  by_cases hdeclares : env.declares = true
  · have hr : r = db.observation.elim (some 0, { db with postings := some db.posts }) fun obs =>
        if (obs.keys.foldl (tokenObsCb db.ir) (.empty, 0)).2 ≤
          (db.posts.keys.foldl distinctObsCb (.empty, 0)).2
        then (some 0, { db with postings := some db.posts })
        else rebuildIndex enum env obs db.posts
          (db.posts.keys.foldl distinctObsCb (.empty, 0)).1
          { db with postings := some db.posts } := by
      simp only [r, dlIndexObservations, auxIndexEnsurePostings]
      rw [if_pos hdeclares]
      rfl
    rw [hr]
    cases hobs : db.observation with
    | none =>
      have hempty : db.tokenizable = ∅ := by
        rw [IndexDb.tokenizable, IndexDb.obs, hobs]
        rfl
      refine ⟨⟨hobs.symm, h, .refl _, fun _ hr => hr⟩, .inr (.inl ⟨rfl, rfl, rfl, ?_⟩)⟩
      rw [hempty]
      exact Nat.zero_le _
    | some obs =>
      have hobs' : db.obs = obs := by rw [IndexDb.obs, hobs]; rfl
      have hoc := (counted_contents (hasAlnum db.ir) obs).2
      obtain ⟨hindexed, hdc⟩ := counted_contents (fun _ => true) db.posts
      have htrue : (contents db.posts).filter (fun _ => true = true) = contents db.posts :=
        Finset.filter_true_of_mem fun _ _ => rfl
      rw [htrue] at hdc
      rw [Option.elim_some]
      by_cases hle : (obs.keys.foldl (tokenObsCb db.ir) (.empty, 0)).2 ≤
          (db.posts.keys.foldl distinctObsCb (.empty, 0)).2
      · rw [if_pos hle]
        change (obs.keys.foldl (countNew (hasAlnum db.ir)) (.empty, 0)).2 ≤
          (db.posts.keys.foldl (countNew fun _ => true) (.empty, 0)).2 at hle
        rw [hoc, hdc, ← hobs'] at hle
        exact ⟨⟨hobs.symm, h, .refl _, fun _ hr => hr⟩, .inr (.inl ⟨rfl, rfl, rfl, hle⟩)⟩
      · rw [if_neg hle]
        obtain ⟨hlater, hrest⟩ := rebuildIndex_spec henum env h hobs hindexed
        exact ⟨hlater, hrest.imp_right .inr⟩
  · have hr : r = (none, db) := by
      simp only [r, dlIndexObservations, auxIndexEnsurePostings]
      rw [if_neg hdeclares]
      rfl
    rw [hr]
    exact ⟨⟨rfl, h, .refl _, fun _ hr => hr⟩, .inl ⟨rfl, rfl⟩⟩

/-- **One call** that is answered leaves the index complete if the database was safe. -/
theorem dlIndexObservations_covered (henum : Enumerates enum) (env : Env) {db : IndexDb}
    (h : TableOk db.ir) (hsafe : db.Safe) {n : ℕ}
    (hn : (dlIndexObservations enum env db).1 = some n) :
    (dlIndexObservations enum env db).2.Covered := by
  obtain ⟨hlater, hcases⟩ := dlIndexObservations_cases henum env h
  intro cols hcols
  rw [hlater.obs_eq] at hcols
  have hold : contentOf cols ∈ contents db.posts →
      contentOf cols ∈ contents db.obs → Full (dlIndexObservations enum env db).2.ir
        (· ∈ (dlIndexObservations enum env db).2.posts) (contentOf cols) := fun hp ho =>
    (hsafe.skip _ ho hp).mono h hlater.table hlater.grows hlater.stay
  rcases hcases with ⟨hnone, -⟩ | ⟨-, hposts, hir, hle⟩ | ⟨-, hrebuilt⟩
  · rw [hnone] at hn
    cases hn
  · -- enough postings: every content with a token has one
    intro text htext tok htok
    rw [hir] at htext
    have hzero : contentOf cols ≠ 0 := fun h0 => by
      rw [h0] at htext
      cases htext
    have hmem : contentOf cols ∈ contents db.obs := mem_contents.mpr ⟨hzero, cols, hcols, rfl⟩
    have htokenizable : contentOf cols ∈ db.tokenizable :=
      Finset.mem_filter.mpr ⟨hmem, hasAlnum_iff.mpr ⟨text, htext, List.ne_nil_of_mem htok⟩⟩
    exact (hold (hsafe.count hle htokenizable) hmem).whole text (hir ▸ htext) tok htok
  · by_cases hp : contentOf cols ∈ contents db.posts
    · have hzero := (mem_contents.mp hp).1
      exact (hold hp (mem_contents.mpr ⟨hzero, cols, hcols, rfl⟩)).whole
    · exact (hrebuilt.full cols hcols hp).whole

/-! ## Searching -/

/-- A string has one symbol. -/
theorem internStrOf_injective (h : TableOk ir) {i j : ℕ} {str : Str}
    (hi : internStrOf ir i = some str) (hj : internStrOf ir j = some str) : i = j := by
  rw [Intern.internStrOf_room h.room] at hi hj
  split at hi
  · cases hi
  · split at hj
    · cases hj
    · obtain ⟨hlt, hget⟩ := List.getElem?_eq_some_iff.mp hi
      obtain ⟨hlt', hget'⟩ := List.getElem?_eq_some_iff.mp hj
      have := (h.table.nodup.getElem_inj_iff).mp (hget.trans hget'.symm)
      omega

/-- The terms of a query are symbols of tokens of a content. -/
def AsksFor (ir : Interner) (q : Query) (c : Val) : Prop :=
  ∃ text, internStrOf ir c.toNat = some text ∧
    ∀ t ∈ q.terms, ∃ tok ∈ tokenize text, internStrOf ir t.toNat = some tok

/-- **A search** for tokens of a whole content finds it. -/
theorem Whole.found (hok : TableOk ir) {posts : Dafsa} (h : Whole ir (· ∈ posts) c) {p : Postings}
    (hp : ∀ x, x ∈ p.rel.sets.view ↔ x ∈ posts) {q : Query} (hne : q.terms ≠ [])
    (hq : AsksFor ir q c) : ∃ rs, dlSearch p q = some rs ∧ ∃ x ∈ rs, x.obsId = c := by
  obtain ⟨text, htext, hterms⟩ := hq
  obtain ⟨rs, hrs, -, hmem⟩ := searchImpl_spec p.arity hne
  refine ⟨rs, ?_, ⟨c, q.terms.length⟩, (hmem _).mpr ⟨rfl, fun t ht => ?_⟩, rfl⟩
  · rw [dlSearch, if_neg hne]
    exact hrs
  · obtain ⟨tok, htok, ht⟩ := hterms t ht
    obtain ⟨id, hid, hpost⟩ := h text htext tok htok
    obtain rfl := internStrOf_injective hok hid ht
    rw [UInt32.ofNat_toNat] at hpost
    exact ⟨[t, c], (hp _).mpr hpost, ⟨[c], rfl⟩, rfl⟩

/-! ## Histories -/

/-- Something holds of every call of a history, in the database it is made in. -/
def Throughout (enum : Enum) (P : IndexDb → IndexOp → Prop) : IndexDb → List IndexOp → Prop
  | _, [] => True
  | db, op :: ops => P db op ∧ Throughout enum P (op.apply enum db) ops

/-- The index is called in a safe database. -/
def CallSafe (db : IndexDb) : IndexOp → Prop
  | .index _ => db.Safe
  | _ => True

/-- A call of the index that is answered leaves it complete, and searches find what is
observed. -/
def CallComplete (enum : Enum) (db : IndexDb) : IndexOp → Prop
  | .index env => ∀ n, (dlIndexObservations enum env db).1 = some n →
      let db := (dlIndexObservations enum env db).2
      db.Covered ∧ ∀ (p : Postings) (q : Query), (∀ x, x ∈ p.rel.sets.view ↔ x ∈ db.posts) →
        q.terms ≠ [] → ∀ cols ∈ db.obs, AsksFor db.ir q (contentOf cols) →
          ∃ rs, dlSearch p q = some rs ∧ ∃ x ∈ rs, x.obsId = contentOf cols
  | _ => True

/-- A call that does not spoil the index: the last observation of a content with a posting is
not deleted, and a posting by hand is the last one an observed content lacks. -/
def Tame (enum : Enum) (db : IndexDb) : IndexOp → Prop
  | .delete entity content ok => content ∈ contents db.posts →
      content ∈ contents ((IndexOp.delete entity content ok).apply enum db).obs
  | .addPosting env t c => (auxIndexAddPosting env t c db).posts = db.posts ∨
      c ∈ contents db.obs ∧ hasAlnum db.ir c = true ∧
        Full db.ir (· ∈ (auxIndexAddPosting env t c db).posts) c
  | _ => True

/-- The contents with postings are observed, and have all of their postings. -/
structure Indexed (db : IndexDb) : Prop where
  /-- The symbols are sound. -/
  table : TableOk db.ir
  /-- The contents with a posting. -/
  posted : ∀ c ∈ contents db.posts, c ∈ contents db.obs ∧ hasAlnum db.ir c = true ∧
    Full db.ir (· ∈ db.posts) c

theorem Indexed.safe {db : IndexDb} (h : Indexed db) : db.Safe where
  count hle := by
    have hsub : contents db.posts ⊆ db.tokenizable := fun c hc => by
      obtain ⟨hobs, halnum, -⟩ := h.posted c hc
      exact Finset.mem_filter.mpr ⟨hobs, halnum⟩
    exact (Finset.eq_of_subset_of_card_le hsub hle).ge
  skip c _ hc := (h.posted c hc).2.2

/-- Calls keep the symbols sound. -/
theorem tableOk_apply (henum : Enumerates enum) {db : IndexDb} (h : TableOk db.ir)
    (op : IndexOp) : TableOk (op.apply enum db).ir ∧ Grows db.ir (op.apply enum db).ir := by
  cases op with
  | intern str =>
    change TableOk ((internStr enum db.ir str).elim db.ir Prod.fst) ∧
      Grows db.ir ((internStr enum db.ir str).elim db.ir Prod.fst)
    cases hnew : internStr enum db.ir str with
    | none => exact ⟨h, .refl _⟩
    | some res => exact ⟨h.intern henum str.2 hnew, (h.namesOk.intern henum str.2 hnew).2.1⟩
  | declare => exact ⟨h, .refl _⟩
  | add entity content ok => cases ok <;> exact ⟨h, .refl _⟩
  | delete entity content ok => cases ok <;> exact ⟨h, .refl _⟩
  | addPosting env t c =>
    have hir : (auxIndexAddPosting env t c db).ir = db.ir := by
      unfold auxIndexAddPosting auxIndexEnsurePostings
      split
      · rfl
      · split
        · rw [Option.elim_some]
          split <;> rfl
        · rfl
    exact ⟨hir.symm ▸ h, hir.symm ▸ .refl _⟩
  | index env =>
    obtain ⟨hlater, -⟩ := dlIndexObservations_cases henum env h
    exact ⟨hlater.table, hlater.grows⟩

theorem addPosting_posts (env : Env) (t c : Val) (db : IndexDb) :
    (auxIndexAddPosting env t c db).observation = db.observation ∧
      ∀ r, r ∈ (auxIndexAddPosting env t c db).posts → r ∈ db.posts ∨ r = [t, c] := by
  unfold auxIndexAddPosting auxIndexEnsurePostings
  split
  · exact ⟨rfl, fun r hr => .inl hr⟩
  · split
    · rw [Option.elim_some]
      split
      · exact ⟨rfl, fun r hr => (Dafsa.mem_add.mp hr).symm⟩
      · exact ⟨rfl, fun r hr => .inl hr⟩
    · exact ⟨rfl, fun r hr => .inl hr⟩

theorem posts_subset_addPosting (env : Env) (t c : Val) (db : IndexDb) :
    ∀ r ∈ db.posts, r ∈ (auxIndexAddPosting env t c db).posts := by
  intro r hr
  unfold auxIndexAddPosting auxIndexEnsurePostings
  split
  · exact hr
  · split
    · rw [Option.elim_some]
      split
      · exact Dafsa.mem_add.mpr (.inr hr)
      · exact hr
    · exact hr

/-- Contents that stay observed, or are new and whole. -/
theorem Indexed.of_posted {db db' : IndexDb} (h : Indexed db) (hok : TableOk db'.ir)
    (hg : Grows db.ir db'.ir) (hstay : ∀ r ∈ db.posts, r ∈ db'.posts)
    (hposted : ∀ c ∈ contents db'.posts, c ∈ contents db'.obs ∧ (c ∈ contents db.posts ∨
      hasAlnum db'.ir c = true ∧ Full db'.ir (· ∈ db'.posts) c)) : Indexed db' where
  table := hok
  posted c hc := by
    obtain ⟨hobs, hold | hnew⟩ := hposted c hc
    · obtain ⟨-, halnum, hfull⟩ := h.posted c hold
      exact ⟨hobs, hasAlnum_mono h.table hok hg halnum, hfull.mono h.table hok hg hstay⟩
    · exact ⟨hobs, hnew⟩

/-- More observations. -/
theorem contents_subset {d d' : Dafsa} (h : ∀ r ∈ d, r ∈ d') : contents d ⊆ contents d' := by
  intro c hc
  obtain ⟨hzero, r, hr, rfl⟩ := mem_contents.mp hc
  exact mem_contents.mpr ⟨hzero, r, h r hr, rfl⟩

/-- **A tame call** keeps the index sound. -/
theorem Indexed.apply (henum : Enumerates enum) {db : IndexDb} (h : Indexed db) {op : IndexOp}
    (htame : Tame enum db op) : Indexed (op.apply enum db) := by
  obtain ⟨hok, hg⟩ := tableOk_apply henum h.table op
  cases op with
  | intern str =>
    exact h.of_posted hok hg (fun _ hr => hr) fun c hc => ⟨(h.posted c hc).1, .inl hc⟩
  | declare =>
    exact h.of_posted hok hg (fun _ hr => hr) fun c hc => ⟨(h.posted c hc).1, .inl hc⟩
  | add entity content ok =>
    cases ok with
    | false => exact h
    | true =>
      refine h.of_posted hok hg (fun _ hr => hr) fun c hc => ⟨?_, .inl hc⟩
      refine contents_subset (fun r hr => ?_) (h.posted c hc).1
      change r ∈ db.observation.getD .create at hr
      change r ∈ (db.observation.map (·.add [entity, content])).getD .create
      cases hobs : db.observation with
      | none =>
        rw [hobs] at hr
        exact hr
      | some obs =>
        rw [hobs] at hr
        exact Dafsa.mem_add.mpr (.inr hr)
  | delete entity content ok =>
    refine h.of_posted hok hg (fun r hr => ?_) fun c hc => ?_
    · cases ok <;> exact hr
    · have hc' : c ∈ contents db.posts := by cases ok <;> exact hc
      refine ⟨?_, .inl hc'⟩
      by_cases heq : c = content
      · exact heq ▸ htame (heq ▸ hc')
      · obtain ⟨hzero, r, hr, rfl⟩ := mem_contents.mp (h.posted c hc').1
        refine mem_contents.mpr ⟨hzero, r, ?_, rfl⟩
        cases ok with
        | false => exact hr
        | true =>
          change r ∈ db.observation.getD .create at hr
          change r ∈ (db.observation.map (·.delete [entity, content])).getD .create
          cases hobs : db.observation with
          | none =>
            rw [hobs] at hr
            exact hr
          | some obs =>
            rw [hobs] at hr
            exact Dafsa.mem_delete.mpr ⟨hr, fun h => heq (by rw [h]; rfl)⟩
  | addPosting env t content =>
    obtain ⟨hobs, hposts⟩ := addPosting_posts env t content db
    have hobs' : (auxIndexAddPosting env t content db).obs = db.obs := by
      rw [IndexDb.obs, hobs, IndexDb.obs]
    refine h.of_posted hok hg (posts_subset_addPosting env t content db) fun c hc => ?_
    change c ∈ contents (auxIndexAddPosting env t content db).obs ∧ _
    rw [hobs']
    rcases htame with hsame | ⟨hseen, halnum, hfull⟩
    · have hc' : c ∈ contents db.posts := hsame ▸ hc
      exact ⟨(h.posted c hc').1, .inl hc'⟩
    · obtain ⟨hzero, r, hr, rfl⟩ := mem_contents.mp hc
      rcases hposts r hr with hr | rfl
      · have hc' := mem_contents.mpr ⟨hzero, r, hr, rfl⟩
        exact ⟨(h.posted _ hc').1, .inl hc'⟩
      · obtain ⟨-, hgrows⟩ := tableOk_apply henum h.table (.addPosting env t content)
        exact ⟨hseen, .inr ⟨hasAlnum_mono h.table hok hgrows halnum,
          hfull.mono h.table hok hgrows fun _ hr => hr⟩⟩
  | index env =>
    obtain ⟨hlater, hcases⟩ := dlIndexObservations_cases henum env h.table
    refine h.of_posted hok hg hlater.stay fun c hc => ?_
    change c ∈ contents (dlIndexObservations enum env db).2.obs ∧ _
    rw [hlater.obs_eq]
    have hkept : (dlIndexObservations enum env db).2.posts = db.posts →
        c ∈ contents db.obs ∧ c ∈ contents db.posts := fun hsame => by
      have hc' : c ∈ contents db.posts := hsame ▸ hc
      exact ⟨(h.posted c hc').1, hc'⟩
    rcases hcases with ⟨-, hsame⟩ | ⟨-, hsame, -⟩ | ⟨-, hrebuilt⟩
    · exact ⟨(hkept hsame).1, .inl (hkept hsame).2⟩
    · exact ⟨(hkept hsame).1, .inl (hkept hsame).2⟩
    · by_cases hold : c ∈ contents db.posts
      · exact ⟨(h.posted c hold).1, .inl hold⟩
      · obtain ⟨hobs, halnum⟩ := (hrebuilt.fresh c hc).resolve_left hold
        obtain ⟨-, cols, hcols, rfl⟩ := mem_contents.mp hobs
        exact ⟨hobs, .inr ⟨halnum, hrebuilt.full cols hcols hold⟩⟩

theorem indexed_init : Indexed .init where
  table := Intern.tableOk_create
  posted c hc := absurd hc (Finset.notMem_empty c)

/-- Calls of the index are right where the database is safe, and it is safe after tame
calls. -/
theorem throughout_of_safe (henum : Enumerates enum) {db : IndexDb} (h : TableOk db.ir)
    {ops : List IndexOp} (hsafe : Throughout enum CallSafe db ops) :
    Throughout enum (CallComplete enum) db ops := by
  induction ops generalizing db with
  | nil => trivial
  | cons op ops ih =>
    obtain ⟨hop, hrest⟩ := hsafe
    refine ⟨?_, ih (tableOk_apply henum h op).1 hrest⟩
    cases op with
    | index env =>
      intro n hn
      have hcovered := dlIndexObservations_covered henum env h hop hn
      obtain ⟨hlater, -⟩ := dlIndexObservations_cases henum env h
      exact ⟨hcovered, fun p q hp hne cols hcols hq =>
        (hcovered cols hcols).found hlater.table hp hne hq⟩
    | _ => trivial

theorem throughout_safe_of_tame (henum : Enumerates enum) {db : IndexDb} (h : Indexed db)
    {ops : List IndexOp} (htame : Throughout enum (Tame enum) db ops) :
    Throughout enum CallSafe db ops := by
  induction ops generalizing db with
  | nil => trivial
  | cons op ops ih =>
    obtain ⟨hop, hrest⟩ := htame
    refine ⟨?_, ih (h.apply henum hop) hrest⟩
    cases op with
    | index env => exact h.safe
    | _ => trivial

/-- **The index over histories.**  In every history whose calls of the index are all made in
a safe database, each that is answered leaves a posting for every token of every observed
content, so that searches find it; and a history of tame calls is such a history. -/
theorem dlIndexObservations_complete (henum : Enumerates enum) (ops : List IndexOp) :
    (Throughout enum CallSafe .init ops → Throughout enum (CallComplete enum) .init ops) ∧
      (Throughout enum (Tame enum) .init ops → Throughout enum CallSafe .init ops) :=
  ⟨throughout_of_safe henum indexed_init.table, throughout_safe_of_tame henum indexed_init⟩

/-- Every write is taken. -/
def allow : Env := ⟨true, true, fun _ => true, true⟩

/-- The contents `ab c` and `d` are observed, the first one twice, and indexed; one of the two
observations is deleted; `g` is observed and its posting made by hand; `h` is observed, and
the index is called again. -/
def sampleOps : List IndexOp :=
  [.intern ⟨[97, 98, 32, 99], by decide⟩, .intern ⟨[100], by decide⟩, .declare,
    .add 1 1 true, .add 2 1 true, .add 3 2 true, .index allow, .delete 2 1 true,
    .intern ⟨[103], by decide⟩, .add 4 5 true, .addPosting allow 5 5,
    .intern ⟨[104], by decide⟩, .add 5 6 true, .index allow]

theorem tame_sampleOps :
    Throughout Intern.sortedEnum (Tame Intern.sortedEnum) .init sampleOps := by
  refine ⟨trivial, trivial, trivial, trivial, trivial, trivial, trivial, ?_, trivial, trivial, ?_,
    trivial, trivial, trivial, trivial⟩
  · -- the other observation is still there
    exact fun _ => by decide +kernel
  · refine .inr ⟨by decide +kernel, by decide +kernel, [103], by decide +kernel, ?_⟩
    intro tok htok
    have hone : tokenize [103] = [[103]] := by decide
    rw [hone, List.mem_singleton] at htok
    subst htok
    exact ⟨5, by decide +kernel, by decide +kernel⟩

/-- The two calls of the index make three postings, and one. -/
theorem dlIndexObservations_complete_sample :
    Throughout Intern.sortedEnum (CallComplete Intern.sortedEnum) .init sampleOps ∧
      (dlIndexObservations Intern.sortedEnum allow
        (.after Intern.sortedEnum (sampleOps.take 6))).1 = some 3 ∧
      (dlIndexObservations Intern.sortedEnum allow
        (.after Intern.sortedEnum sampleOps.dropLast)).1 = some 1 := by
  obtain ⟨hsafe, htame⟩ := dlIndexObservations_complete Intern.enumerates_sortedEnum sampleOps
  exact ⟨hsafe (htame tame_sampleOps), by decide +kernel, by decide +kernel⟩

/-- The observation of `a` is deleted after a posting was made for it, and `b` is observed. -/
def replaced : List IndexOp :=
  [.intern ⟨[97], by decide⟩, .intern ⟨[98], by decide⟩, .declare, .add 1 1 true,
    .addPosting allow 1 1, .delete 1 1 true, .add 1 2 true, .index allow]

/-- **The count is deceived** by a content that is no longer observed. -/
theorem not_dlIndexObservations_complete : ¬ ∀ enum, Enumerates enum → ∀ ops : List IndexOp,
    Throughout enum (CallComplete enum) .init ops := by
  intro h
  obtain ⟨-, -, -, -, -, -, -, hindex, -⟩ :=
    h Intern.sortedEnum Intern.enumerates_sortedEnum replaced
  obtain ⟨hcovered, -⟩ := hindex 0 (by rfl)
  obtain ⟨id, -, hpost⟩ := hcovered [1, 2] (by decide) [98] (by rfl) [98] (by decide)
  have hrow : [UInt32.ofNat id, 2] ∈ ([[1, 1]] : List Row) := hpost
  simp at hrow

end DatalogDafsa.Search
