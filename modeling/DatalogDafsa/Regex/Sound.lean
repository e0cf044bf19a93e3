import DatalogDafsa.Regex.Class
import DatalogDafsa.Regex.Nfa

/-!
# What the descent accepts

Each function of the descent, when it succeeds, has read a part of the grammar and has
built a piece of automaton with its language.  Where the recursion takes fuel, all of
them are shown together by induction on it.

## Main results

* `SoundAt`, `soundAt` — the functions of the descent.
* `rxRegex_sound` — a pattern that is taken is read by the grammar.
-/

namespace DatalogDafsa.Regex

open Thompson
open scoped Computability

/-- A part of the grammar was read, and a piece with its language built. -/
def Sound (part : Part) (n n' : Nfa) (p p' : RxParser) (e : NfaFrag) : Prop :=
  Sane p' ∧ ∀ tail, Upcoming p' tail →
    ∃ ys r, Upcoming p (ys ++ tail) ∧ Reads codeClass part ys r ∧ Built n n' e r.lang

/-- More of a row of parts was read, and joined to the piece there was. -/
def SoundLoop (part : Part) (sep : List Sym)
    (join : Language UInt8 → Language UInt8 → Language UInt8) (n n' : Nfa) (p p' : RxParser)
    (left e : NfaFrag) : Prop :=
  Sane p' ∧ ∀ tail, Upcoming p' tail →
    (Upcoming p tail ∧ n' = n ∧ e = left) ∨
      ∃ ys r, Upcoming p (sep ++ (ys ++ tail)) ∧ Reads codeClass part ys r ∧
        ∀ n₀ L, Built n₀ n left L → Built n₀ n' e (join L r.lang)

/-- What the functions of the descent do with some fuel. -/
structure SoundAt (fuel : ℕ) : Prop where
  /-- `rxAlt`. -/
  alt : ∀ {n p n' p' e}, Sane p → rxAlt fuel n p = .ok (n', p', e) → Sound .alt n n' p p' e
  /-- Its loop. -/
  altLoop : ∀ {n p left n' p' e}, Sane p → rxAltLoop fuel n p left = .ok (n', p', e) →
    SoundLoop .alt [op '|'] (· + ·) n n' p p' left e
  /-- `rxSeq`. -/
  seq : ∀ {n p n' p' e}, Sane p → rxSeq fuel n p = .ok (n', p', e) → Sound .seq n n' p p' e
  /-- Its loop. -/
  seqLoop : ∀ {n p left n' p' e}, Sane p → rxSeqLoop fuel n p left = .ok (n', p', e) →
    SoundLoop .seq [] (· * ·) n n' p p' left e
  /-- `rxPostfix`. -/
  item : ∀ {n p n' p' e}, Sane p → rxPostfix fuel n p = .ok (n', p', e) → Sound .item n n' p p' e
  /-- `rxAtom`. -/
  atom : ∀ {n p n' p' e}, Sane p → rxAtom fuel n p = .ok (n', p', e) → Sound .atom n n' p p' e

/-- A result with something put beside it. -/
theorem map_ok {ε α β : Type} {x : Except ε α} {f : α → β} {b : β} (h : x.map f = .ok b) :
    ∃ a, x = .ok a ∧ f a = b := by
  cases x with
  | error e => cases h
  | ok a => exact ⟨a, rfl, Except.ok.inj h⟩

variable {fuel : ℕ} {n n' : Nfa} {p p' : RxParser} {e left : NfaFrag}

theorem rxAlt_sound (ih : SoundAt fuel) (hsane : Sane p)
    (h : rxAlt (fuel + 1) n p = .ok (n', p', e)) : Sound .alt n n' p p' e := by
  rw [rxAlt] at h
  split at h
  · cases h
  rename_i n₁ p₁ left hseq
  obtain ⟨hsane₁, hback⟩ := ih.seq hsane hseq
  obtain ⟨hsane', hloop⟩ := ih.altLoop hsane₁ h
  refine ⟨hsane', fun tail htail => ?_⟩
  rcases hloop tail htail with ⟨hup, rfl, rfl⟩ | ⟨zs, r', hup, hreads', hbuilt'⟩
  · obtain ⟨ys, r, hup', hreads, hbuilt⟩ := hback tail hup
    exact ⟨ys, r, hup', .only hreads, hbuilt⟩
  · obtain ⟨ys, r, hup', hreads, hbuilt⟩ := hback _ hup
    exact ⟨_, _, by simpa using hup', .either hreads hreads', hbuilt' n _ hbuilt⟩

theorem rxAltLoop_sound (ih : SoundAt fuel) (hsane : Sane p)
    (h : rxAltLoop (fuel + 1) n p left = .ok (n', p', e)) :
    SoundLoop .alt [op '|'] (· + ·) n n' p p' left e := by
  rw [rxAltLoop] at h
  split at h
  · rename_i q hmatch
    cases h
    obtain ⟨rfl, -⟩ := rxMatch_false hmatch
    exact ⟨hsane.peek, fun tail htail => .inl ⟨htail.of_peek, rfl, rfl⟩⟩
  · rename_i q hmatch
    obtain ⟨hsaneq, hpipe⟩ := rxMatch_true hsane (c := '|') rfl hmatch
    split at h
    · cases h
    rename_i n₁ p₁ right hseq
    split at h
    · cases h
    rename_i n₂ left' halt
    obtain ⟨hsane₁, hback⟩ := ih.seq hsaneq hseq
    obtain ⟨hsane', hloop⟩ := ih.altLoop hsane₁ h
    refine ⟨hsane', fun tail htail => .inr ?_⟩
    rcases hloop tail htail with ⟨hup, rfl, rfl⟩ | ⟨zs, r', hup, hreads', hbuilt'⟩
    · obtain ⟨ys, r, hup', hreads, hbuilt⟩ := hback tail hup
      exact ⟨ys, r, hpipe _ hup', .only hreads, fun n₀ L hL => hL.alt hbuilt halt⟩
    · obtain ⟨ys, r, hup', hreads, hbuilt⟩ := hback _ hup
      refine ⟨_, _, by simpa using hpipe _ hup', .either hreads hreads', fun n₀ L hL => ?_⟩
      show Built n₀ n' e (L + (r.lang + r'.lang))
      rw [← add_assoc]
      exact hbuilt' n₀ _ (hL.alt hbuilt halt)

theorem rxSeq_sound (ih : SoundAt fuel) (hsane : Sane p)
    (h : rxSeq (fuel + 1) n p = .ok (n', p', e)) : Sound .seq n n' p p' e := by
  rw [rxSeq] at h
  split at h
  · cases h
  rename_i n₁ p₁ left hitem
  obtain ⟨hsane₁, hback⟩ := ih.item hsane hitem
  obtain ⟨hsane', hloop⟩ := ih.seqLoop hsane₁ h
  refine ⟨hsane', fun tail htail => ?_⟩
  rcases hloop tail htail with ⟨hup, rfl, rfl⟩ | ⟨zs, r', hup, hreads', hbuilt'⟩
  · obtain ⟨ys, r, hup', hreads, hbuilt⟩ := hback tail hup
    exact ⟨ys, r, hup', .last hreads, hbuilt⟩
  · obtain ⟨ys, r, hup', hreads, hbuilt⟩ := hback _ hup
    exact ⟨_, _, by simpa using hup', .next hreads hreads', hbuilt' n _ hbuilt⟩

theorem rxSeqLoop_sound (ih : SoundAt fuel) (hsane : Sane p)
    (h : rxSeqLoop (fuel + 1) n p left = .ok (n', p', e)) :
    SoundLoop .seq [] (· * ·) n n' p p' left e := by
  rw [rxSeqLoop] at h
  split at h
  · cases h
    exact ⟨hsane.peek, fun tail htail => .inl ⟨htail.of_peek, rfl, rfl⟩⟩
  · split at h
    · cases h
    rename_i n₁ p₁ right hitem
    split at h
    · cases h
    rename_i n₂ left' hseq
    obtain ⟨hsane₁, hback⟩ := ih.item hsane.peek hitem
    obtain ⟨hsane', hloop⟩ := ih.seqLoop hsane₁ h
    refine ⟨hsane', fun tail htail => .inr ?_⟩
    rcases hloop tail htail with ⟨hup, rfl, rfl⟩ | ⟨zs, r', hup, hreads', hbuilt'⟩
    · obtain ⟨ys, r, hup', hreads, hbuilt⟩ := hback tail hup
      exact ⟨ys, r, hup'.of_peek, .last hreads, fun n₀ L hL => hL.seq hbuilt hseq⟩
    · obtain ⟨ys, r, hup', hreads, hbuilt⟩ := hback _ hup
      refine ⟨_, _, by simpa using hup'.of_peek, .next hreads hreads', fun n₀ L hL => ?_⟩
      show Built n₀ n' e (L * (r.lang * r'.lang))
      rw [← mul_assoc]
      exact hbuilt' n₀ _ (hL.seq hbuilt hseq)

/-- The languages of the repetitions. -/
theorem wrapped_lang (L : Language UInt8) :
    Frag.wrapped true true L = L∗ ∧ Frag.wrapped false true L = L * L∗ ∧
      Frag.wrapped true false L = 1 + L :=
  ⟨Language.one_add_self_mul_kstar_eq_kstar L, by simp [Frag.wrapped], by simp [Frag.wrapped]⟩

theorem rxPostfix_sound (ih : SoundAt fuel) (hsane : Sane p)
    (h : rxPostfix (fuel + 1) n p = .ok (n', p', e)) : Sound .item n n' p p' e := by
  rw [rxPostfix] at h
  split at h
  · cases h
  rename_i n₁ p₁ a hatom
  obtain ⟨hsane₁, hback⟩ := ih.atom hsane hatom
  -- an atom with what stands behind it
  have hwith : ∀ {q : RxParser} {c : Char} {k : RxTokenKind} {q₀ : RxParser} {skip loop : Bool}
      {f : Rx → Rx}, Sane q₀ → kindChar k = some c → rxMatch q₀ k = (true, q) →
      (∀ ys, Upcoming q₀ ys → Upcoming p₁ ys) → Suffix [op c] f →
      (∀ r, (f r).lang = Frag.wrapped skip loop r.lang) →
      (nfaWrap skip loop n₁ a).map (fun r => (r.1, q, r.2)) = .ok (n', p', e) →
      Sound .item n n' p p' e := by
    intro q c k q₀ skip loop f hq₀ hk hmatch hq hsuffix hlang hres
    obtain ⟨⟨m, b⟩, hwrap, heq⟩ := map_ok hres
    cases heq
    obtain ⟨hsaneq, hop⟩ := rxMatch_true hq₀ hk hmatch
    refine ⟨hsaneq, fun tail htail => ?_⟩
    obtain ⟨ys, r, hup, hreads, hbuilt⟩ := hback _ (hq _ (hop tail htail))
    refine ⟨_, _, by simpa using hup, .item hreads hsuffix, ?_⟩
    rw [hlang]
    exact hbuilt.wrap hwrap
  split at h
  · rename_i q hstar
    exact hwith hsane₁ rfl hstar (fun _ => id) .star (fun r => (wrapped_lang _).1.symm) h
  rename_i q₁ hstar
  obtain ⟨rfl, -⟩ := rxMatch_false hstar
  split at h
  · rename_i q hplus
    exact hwith hsane₁.peek rfl hplus (fun _ hys => hys.of_peek) .plus
      (fun r => (wrapped_lang _).2.1.symm) h
  rename_i q₂ hplus
  obtain ⟨rfl, -⟩ := rxMatch_false hplus
  split at h
  · rename_i q hques
    exact hwith hsane₁.peek.peek rfl hques (fun _ hys => hys.of_peek.of_peek) .opt
      (fun r => (wrapped_lang _).2.2.symm) h
  · rename_i q₃ hques
    obtain ⟨rfl, -⟩ := rxMatch_false hques
    cases h
    refine ⟨hsane₁.peek.peek.peek, fun tail htail => ?_⟩
    obtain ⟨ys, r, hup, hreads, hbuilt⟩ := hback _ htail.of_peek.of_peek.of_peek
    exact ⟨ys ++ [], r, by simpa using hup, .item hreads .once, hbuilt⟩

theorem isBare_of_misplaced {t : RxToken} (h : rxMisplacedAnchor t = none) :
    t.isBare '^' = false ∧ t.isBare '$' = false := by
  unfold rxMisplacedAnchor at h
  split at h
  · cases h
  · split at h
    · cases h
    · simp_all

theorem rxAtom_sound (ih : SoundAt fuel) (hsane : Sane p)
    (h : rxAtom (fuel + 1) n p = .ok (n', p', e)) : Sound .atom n n' p p' e := by
  rw [rxAtom] at h
  split at h
  · cases h
  rename_i hanchor
  -- one symbol, and an edge for it
  have hone : ∀ {sym : SymEdge} {f : Sym → Rx}, (rxPeek p).tok.kind ≠ .eof →
      (∀ y, TokIs (rxPeek p).tok y → Reads codeClass .atom [y] (f y) ∧ (f y).lang = sym.words) →
      (nfaSingle n sym).map (fun r => (r.1, rxNext (rxPeek p), r.2)) = .ok (n', p', e) →
      Sound .atom n n' p p' e := by
    intro sym f hne hread hres
    obtain ⟨⟨m, b⟩, hsingle, heq⟩ := map_ok hres
    cases heq
    refine ⟨sane_rxNext, fun tail htail => ?_⟩
    obtain ⟨y, hy, hup⟩ := htail.of_next hsane hne
    obtain ⟨hreads, hlang⟩ := hread y hy
    refine ⟨[y], f y, hup, hreads, ?_⟩
    rw [hlang]
    exact built_single hsingle
  split at h
  · rename_i hkind
    split at h
    · cases h
    rename_i n₁ p₁ a halt
    split at h
    · cases h
    split at h
    · rename_i q hmatch
      cases h
      obtain ⟨hsane₁, hback⟩ := ih.alt sane_rxNext halt
      obtain ⟨hsane', hclose⟩ := rxMatch_true hsane₁ (c := ')') rfl hmatch
      refine ⟨hsane', fun tail htail => ?_⟩
      obtain ⟨ys, r, hup, hreads, hbuilt⟩ := hback _ (hclose tail htail)
      obtain ⟨y, hy, hup'⟩ := hup.of_next hsane (by rw [hkind]; decide)
      rw [hy.eq_op (c := '(') (by rw [hkind]; rfl)] at hup'
      exact ⟨_, r, by simpa using hup', .group hreads, hbuilt⟩
    · cases h
  · rename_i hkind
    split at h
    · cases h
    rename_i bitmap q hclass
    obtain ⟨⟨m, b⟩, hsingle, heq⟩ := map_ok h
    cases heq
    obtain ⟨hsane', hback⟩ := parseCharClass_spec sane_rxNext hclass
    refine ⟨hsane', fun tail htail => ?_⟩
    obtain ⟨ys, hup, hcls⟩ := hback tail htail
    obtain ⟨y, hy, hup'⟩ := hup.of_next hsane (by rw [hkind]; decide)
    rw [hy.eq_op (c := '[') (by rw [hkind]; rfl)] at hup'
    exact ⟨_, _, by simpa using hup', .cls hcls, built_single hsingle⟩
  · rename_i hkind
    refine hone (f := fun _ => .bytes fun _ => true) (by rw [hkind]; decide)
      (fun y hy => ?_) h
    rw [hy.eq_op (c := '.') (by rw [hkind]; rfl)]
    refine ⟨.any, ?_⟩
    simp only [Rx.lang, SymEdge.words, true_and]
    rfl
  · rename_i hkind
    obtain ⟨hcaret, hdollar⟩ := isBare_of_misplaced hanchor
    refine hone (f := fun y => .bytes fun b => b == y.byte)
      (by rw [hkind]; decide) (fun y hy => ?_) h
    refine ⟨.byte (hy.isLiteral hkind hcaret hdollar), ?_⟩
    ext w
    simp only [Rx.lang, SymEdge.words, hy.byte hkind, beq_iff_eq, exists_eq_left]
    exact Iff.rfl
  · cases h

/-- **The descent is sound.** -/
theorem soundAt (fuel : ℕ) : SoundAt fuel := by
  induction fuel with
  | zero =>
    exact ⟨fun _ h => (by cases h), fun _ h => (by cases h), fun _ h => (by cases h),
      fun _ h => (by cases h), fun _ h => (by cases h), fun _ h => (by cases h)⟩
  | succ fuel ih =>
    exact ⟨rxAlt_sound ih, rxAltLoop_sound ih, rxSeq_sound ih, rxSeqLoop_sound ih,
      rxPostfix_sound ih, rxAtom_sound ih⟩

/-! ## Whole patterns -/

theorem rxBody_sound (hsane : Sane p) (h : rxBody fuel n p = .ok (n', p', e)) :
    Sane p' ∧ ∀ tail, Upcoming p' tail → ∃ ys r, Upcoming p (ys ++ tail) ∧
      (Reads codeClass .alt ys r ∨ ys = [] ∧ r = .empty) ∧ Built n n' e r.lang := by
  rw [rxBody] at h
  split at h
  · obtain ⟨⟨m, b⟩, hsingle, heq⟩ := map_ok h
    cases heq
    exact ⟨hsane.peek, fun tail htail =>
      ⟨[], .empty, htail.of_peek, .inr ⟨rfl, rfl⟩, built_single hsingle⟩⟩
  · obtain ⟨hsane', hback⟩ := (soundAt fuel).alt hsane.peek h
    refine ⟨hsane', fun tail htail => ?_⟩
    obtain ⟨ys, r, hup, hreads, hbuilt⟩ := hback tail htail
    exact ⟨ys, r, hup.of_peek, .inl hreads, hbuilt⟩

/-- A token is taken when it is a certain bare character. -/
theorem Upcoming.of_taken {q : RxParser} {c : Char} {ys : List Sym} (hc : rxKind c.toUInt8 = .char)
    (hsane : Sane q)
    (h : Upcoming (if (rxPeek q).tok.isBare c then rxNext (rxPeek q) else rxPeek q) ys) :
    ∃ zs, (zs = [] ∨ zs = [op c]) ∧ Upcoming q (zs ++ ys) := by
  split at h
  · rename_i hbare
    have hne : (rxPeek q).tok.kind ≠ .eof := by
      intro heof
      simp [RxToken.isBare, heof] at hbare
    obtain ⟨y, hy, hup⟩ := h.of_next hsane hne
    obtain rfl := (hy.isBare_iff hc).mp hbare
    exact ⟨[op c], .inr rfl, hup⟩
  · exact ⟨[], .inl rfl, h.of_peek⟩

/-- **A pattern that is taken without an error is read by the grammar**, and its automaton
has the language of the reading. -/
theorem rxRegex_sound {s : List UInt8} {tok : RxToken} (hne : s ≠ [])
    (h : rxRegex fuel n ⟨s, tok, false, none⟩ = .ok (n', p', e)) (herr : p'.errmsg = none) :
    ∃ r, ReadsPattern codeClass s r ∧ Built n n' e r.lang := by
  set p : RxParser := ⟨s, tok, false, none⟩ with hp
  have hsane : Sane p := fun htok => by cases htok
  unfold rxRegex at h
  dsimp only at h
  set p₁ := if (rxPeek p).tok.isBare '^' then rxNext (rxPeek p) else rxPeek p with hp₁
  have hsane₁ : Sane p₁ := by
    rw [hp₁]
    split
    · exact sane_rxNext
    · exact hsane.peek
  split at h
  · cases h
  rename_i n₂ p₂ e₂ hbody
  obtain ⟨hsane₂, hback⟩ := rxBody_sound hsane₁ hbody
  set p₃ := if (rxPeek p₂).tok.isBare '$' then rxNext (rxPeek p₂) else rxPeek p₂ with hp₃
  have hsane₃ : Sane p₃ := by
    rw [hp₃]
    split
    · exact sane_rxNext
    · exact hsane₂.peek
  split at h
  · rename_i heof
    cases h
    have hend : Upcoming (rxPeek p₃) [] := by
      rcases hsane₃.peek hasTok_rxPeek herr with ⟨-, hpos⟩ | ⟨y, hy⟩
      · exact .eof herr hasTok_rxPeek heof hpos
      · exact absurd heof hy.kind_ne_eof
    obtain ⟨post, hpost, hup⟩ := hend.of_peek.of_taken (by decide) hsane₂
    obtain ⟨body, r, hup, hreads, hbuilt⟩ := hback _ hup
    obtain ⟨pre, hpre, hup⟩ := hup.of_taken (by decide) hsane
    refine ⟨r, ⟨hne, pre, body, post, ?_, hpre, hpost, hreads⟩, hbuilt⟩
    rw [List.append_nil] at hup
    generalize pre ++ (body ++ post) = ys at hup ⊢
    cases hup with
    | ahead _ htok _ _ => cases htok
    | eof _ htok _ _ => cases htok
    | fresh _ _ hscan => exact hscan
  · split at h
    · cases h
    · split at h
      · cases h
      · cases h

end DatalogDafsa.Regex
