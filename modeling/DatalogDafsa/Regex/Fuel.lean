import DatalogDafsa.Regex.Lexer

/-!
# The descent ends

A token that is taken makes the rest of the pattern shorter, and the descent takes one
in every round of its loops and on the way from a group to what stands in it.  So four
calls for each byte, and four more, are enough.

## Main definitions

* `ahead` — how many tokens may still be taken.
* `EnoughAt`, `enoughAt` — the functions of the descent do not run out of fuel.
* `rxRegex_ne_fuel` — nor does the whole parser.
-/

namespace DatalogDafsa.Regex

/-! ## What is still ahead -/

/-- The bytes that may still be read; none after an error. -/
def unread (p : RxParser) : ℕ := if p.errmsg.isSome then 0 else p.pos.length

/-- The tokens that may still be taken. -/
def ahead (p : RxParser) : ℕ :=
  (if p.hasTok ∧ p.tok.kind ≠ .eof then 1 else 0) + unread p

section Ahead

variable {p p' : RxParser}

theorem unread_rxError (msg : String) : unread (rxError msg p) = 0 := by
  unfold unread rxError
  cases p.errmsg <;> rfl

theorem unread_escaped_le {ch : UInt8} {s t : List UInt8} (h : s.length ≤ t.length) :
    unread (p.escaped ch s) ≤ t.length := by
  unfold unread
  split
  · exact Nat.zero_le _
  · exact h

theorem length_rxOctal (n : ℕ) (val : UInt32) (s : List UInt8) :
    (rxOctal n val s).2.length ≤ s.length := by
  rw [(rxOctal_spec n val s).2, List.length_drop]
  exact Nat.sub_le ..

/-- An escape takes bytes, or is an error. -/
theorem unread_rxEscape (s : List UInt8) : unread (rxEscape p s) ≤ s.length := by
  have herr : ∀ (msg : String) (q : RxParser) (t : List UInt8),
      unread (rxError msg q) ≤ t.length := by
    intro msg q t
    rw [unread_rxError]
    exact Nat.zero_le _
  have hone : ∀ (c : UInt8) (s : List UInt8), s.length ≤ (c :: s).length :=
    fun c s => (Nat.lt_succ_self _).le
  cases s with
  | nil => exact herr ..
  | cons c s =>
    unfold rxEscape
    dsimp only
    split_ifs with hslash hzero hdigit hx hn hr ht
    · exact unread_escaped_le (hone c s)
    · exact unread_escaped_le ((length_rxOctal ..).trans (hone c s))
    · exact unread_escaped_le (hone c s)
    · unfold rxHexEscape
      split
      · split_ifs
        · refine unread_escaped_le ?_
          simp only [List.length_cons]
          omega
        · exact herr ..
      · exact herr ..
    · exact unread_escaped_le (hone c s)
    · exact unread_escaped_le (hone c s)
    · exact unread_escaped_le (hone c s)
    · exact unread_escaped_le (hone c s)

/-- A token takes bytes, or it is the end. -/
theorem unread_rxLex (htok : p.hasTok = false) :
    (rxLex p).tok.kind = .eof ∧ unread (rxLex p) = 0 ∨ unread (rxLex p) < unread p := by
  unfold rxLex
  rw [if_neg (by rw [htok]; decide)]
  by_cases herr : p.errmsg.isSome
  · rw [if_pos herr]
    exact .inl ⟨rfl, if_pos herr⟩
  · have hunread : unread p = p.pos.length := if_neg herr
    rw [if_neg herr, hunread]
    split
    · rename_i hpos
      exact .inl ⟨rfl, by simp [unread, hpos]⟩
    · rename_i b s hpos
      rw [hpos, List.length_cons]
      refine .inr (Nat.lt_succ_of_le ?_)
      split
      · exact unread_rxEscape s
      · simp [unread, herr]

/-- Reading a token does not bring tokens. -/
theorem ahead_rxPeek : ahead (rxPeek p) ≤ ahead p := by
  cases htok : p.hasTok with
  | true => rw [rxPeek_of_hasTok htok]
  | false =>
    have hpeek : rxPeek p = { rxLex p with hasTok := true } := by simp [rxPeek, htok]
    have hahead : ahead p = unread p := by simp [ahead, htok]
    rw [hpeek, hahead, ahead]
    show (if _ ∧ (rxLex p).tok.kind ≠ .eof then 1 else 0) + unread (rxLex p) ≤ unread p
    rcases unread_rxLex htok with ⟨heof, hzero⟩ | hlt
    · simp [heof, hzero]
    · split_ifs <;> omega

/-- Taking a token leaves fewer. -/
theorem ahead_rxNext (h : (rxPeek p).tok.kind ≠ .eof) : ahead (rxNext (rxPeek p)) < ahead p := by
  refine lt_of_lt_of_le ?_ ahead_rxPeek
  have hnext : rxNext (rxPeek p) = { rxPeek p with hasTok := false } := by simp [rxNext]
  rw [hnext]
  simp [ahead, h, unread]

theorem ahead_rxMatch_true {k : RxTokenKind} (hk : k ≠ .eof) (h : rxMatch p k = (true, p')) :
    ahead p' < ahead p := by
  unfold rxMatch at h
  split at h
  · rename_i hkind
    cases h
    exact ahead_rxNext (hkind ▸ hk)
  · cases h

theorem ahead_rxMatch_false {k : RxTokenKind} (h : rxMatch p k = (false, p')) :
    ahead p' ≤ ahead p := by
  rw [(rxMatch_false h).1]
  exact ahead_rxPeek

/-- Taking a token that is a certain character, if it is. -/
theorem ahead_taken {q : RxParser} {b : Bool} (hq : ahead q ≤ ahead p)
    (hb : b = true → (rxPeek q).tok.kind ≠ .eof) :
    ahead (if b then rxNext (rxPeek q) else rxPeek q) ≤ ahead p := by
  split
  · exact (ahead_rxNext (hb ‹_›)).le.trans hq
  · exact ahead_rxPeek.trans hq

end Ahead

/-! ## Errors of the automaton -/

section Errors

variable {α β : Type} {x : Except RxErr α}

/-- An error that is passed on. -/
theorem error_ne_fuel {e : RxErr} (hx : x ≠ .error .fuel) (he : x = .error e) :
    (.error e : Except RxErr β) ≠ .error .fuel :=
  fun h => hx (he.trans (congrArg _ (Except.error.inj h)))

theorem bind_ne_fuel {f : α → Except RxErr β} (hx : x ≠ .error .fuel)
    (hf : ∀ a, f a ≠ .error .fuel) : x >>= f ≠ .error .fuel := by
  cases x with
  | error e => exact error_ne_fuel hx rfl
  | ok a => exact hf a

theorem map_ne_fuel {f : α → β} (hx : x ≠ .error .fuel) : x.map f ≠ .error .fuel := by
  cases x with
  | error e => exact error_ne_fuel hx rfl
  | ok a => exact nofun

theorem rxFail_ne_fuel {p : RxParser} {msg : String} :
    (rxFail p msg : Except RxErr α) ≠ .error .fuel := nofun

variable {n : Nfa} {e l r : NfaFrag}

theorem nfaAddEdge_ne_fuel {src dst : ℕ} {sym : SymEdge} :
    nfaAddEdge n src dst sym ≠ .error .fuel := by
  unfold nfaAddEdge
  split
  · exact nofun
  · exact nofun

theorem nfaSingle_ne_fuel {sym : SymEdge} : nfaSingle n sym ≠ .error .fuel :=
  bind_ne_fuel nfaAddEdge_ne_fuel fun _ => nofun

theorem nfaSeq_ne_fuel : nfaSeq n l r ≠ .error .fuel :=
  bind_ne_fuel nfaAddEdge_ne_fuel fun _ => nofun

theorem nfaAlt_ne_fuel : nfaAlt n l r ≠ .error .fuel :=
  bind_ne_fuel nfaAddEdge_ne_fuel fun _ => bind_ne_fuel nfaAddEdge_ne_fuel fun _ =>
    bind_ne_fuel nfaAddEdge_ne_fuel fun _ => bind_ne_fuel nfaAddEdge_ne_fuel fun _ => nofun

theorem nfaSilentIf_ne_fuel {b : Bool} {src dst : ℕ} :
    nfaSilentIf b n src dst ≠ .error .fuel := by
  unfold nfaSilentIf
  split
  · exact nfaAddEdge_ne_fuel
  · exact nofun

theorem nfaWrap_ne_fuel {skip loop : Bool} : nfaWrap skip loop n e ≠ .error .fuel :=
  bind_ne_fuel nfaAddEdge_ne_fuel fun _ => bind_ne_fuel nfaSilentIf_ne_fuel fun _ =>
    bind_ne_fuel nfaSilentIf_ne_fuel fun _ => bind_ne_fuel nfaAddEdge_ne_fuel fun _ => nofun

end Errors

/-! ## The functions -/

/-- Fuel was not missing, and what is left to take is below a bound. -/
def Within {α : Type} (parser : α → RxParser) (bound : ℕ) (x : Except RxErr α) : Prop :=
  x ≠ .error .fuel ∧ ∀ a, x = .ok a → ahead (parser a) < bound

section Within

variable {α : Type} {parser : α → RxParser} {bound bound' : ℕ} {x : Except RxErr α}

theorem Within.mono (h : Within parser bound x) (hle : bound ≤ bound') : Within parser bound' x :=
  ⟨h.1, fun a ha => (h.2 a ha).trans_le hle⟩

theorem within_fail {p : RxParser} {msg : String} : Within parser bound (rxFail p msg) :=
  ⟨rxFail_ne_fuel, fun _ h => by cases h⟩

theorem within_ok {a : α} (h : ahead (parser a) < bound) : Within parser bound (.ok a) :=
  ⟨nofun, fun _ hb => Except.ok.inj hb ▸ h⟩

theorem within_error {β : Type} {e : RxErr} {y : Except RxErr β} (hy : y ≠ .error .fuel)
    (he : y = .error e) : Within parser bound (.error e) :=
  ⟨error_ne_fuel hy he, nofun⟩

end Within

/-- The loop over a class. -/
theorem classLoop_within {fuel : ℕ} {p : RxParser} {bitmap : UInt8 → Bool} {prev : Option UInt8}
    (hfuel : ahead p < fuel) : Within Prod.snd (ahead p + 1) (classLoop fuel p bitmap prev) := by
  induction fuel generalizing p bitmap prev with
  | zero => omega
  | succ fuel ih =>
    have hrec : ∀ (q : RxParser) (b : UInt8 → Bool) (prev : Option UInt8), ahead q < ahead p →
        Within Prod.snd (ahead p + 1) (classLoop fuel q b prev) :=
      fun q b prev hq => (ih (by omega)).mono (by omega)
    rw [classLoop]
    dsimp only
    by_cases hend : (rxPeek p).tok.kind = .rbracket ∨ (rxPeek p).tok.kind = .eof
    · rw [if_pos hend]
      exact within_ok (Nat.lt_succ_of_le ahead_rxPeek)
    rw [if_neg hend]
    have hlt : ahead (rxNext (rxPeek p)) < ahead p := ahead_rxNext fun h => hend (.inr h)
    split
    · exact within_fail
    · split_ifs with hrange hdash hclose
      · exact hrec _ _ _ hlt
      · refine hrec _ _ _ (lt_of_le_of_lt ahead_rxPeek (lt_trans (ahead_rxNext ?_) hlt))
        rw [hdash.1]
        decide
      · refine hrec _ _ _ (lt_of_le_of_lt ahead_rxPeek (lt_trans (ahead_rxNext ?_) hlt))
        rw [hdash.1]
        decide
      · split
        · exact hrec _ _ _ (lt_of_le_of_lt ahead_rxPeek hlt)
        · exact hrec _ _ _ (lt_of_le_of_lt ahead_rxPeek hlt)

theorem parseCharClass_within {fuel : ℕ} {p : RxParser} (hfuel : ahead p < fuel) :
    Within Prod.snd (ahead p + 1) (parseCharClass fuel p) := by
  unfold parseCharClass
  dsimp only
  set p₁ := if (decide ((rxPeek p).tok.kind = .char ∧ (rxPeek p).tok.ch = '^'.toUInt8)) = true
    then rxNext (rxPeek p) else rxPeek p with hp₁
  have hle₁ : ahead p₁ ≤ ahead p :=
    ahead_taken le_rfl fun h => by rw [(of_decide_eq_true h).1]; decide
  rcases hfirst : rxMatch p₁ .rbracket with ⟨first, p₂⟩
  have hle₂ : ahead p₂ ≤ ahead p := by
    cases first with
    | true => exact (ahead_rxMatch_true (by decide) hfirst).le.trans hle₁
    | false => exact (ahead_rxMatch_false hfirst).trans hle₁
  dsimp only
  have hloop : Within Prod.snd (ahead p₂ + 1)
      (classLoop fuel p₂ (fun b => first && b == ']'.toUInt8) none) :=
    classLoop_within (by omega)
  split
  · rename_i e herr
    exact within_error hloop.1 herr
  · rename_i bitmap p₃ hok
    have hlt₃ := hloop.2 _ hok
    split
    · exact within_fail
    · rename_i p₄ hclose
      have := ahead_rxMatch_true (by decide) hclose
      exact within_ok (by dsimp only at hlt₃ ⊢; omega)

/-- The parser a function of the descent leaves. -/
abbrev left (r : Nfa × RxParser × NfaFrag) : RxParser := r.2.1

theorem Within.lt {x : RxResult} {bound : ℕ} {n : Nfa} {p : RxParser} {e : NfaFrag}
    (h : Within left bound x) (hx : x = .ok (n, p, e)) : ahead p < bound :=
  h.2 _ hx

/-- Some fuel is enough for the functions of the descent. -/
structure EnoughAt (fuel : ℕ) : Prop where
  /-- `rxAlt`. -/
  alt : ∀ {n p}, 4 * ahead p + 4 ≤ fuel → Within left (ahead p) (rxAlt fuel n p)
  /-- Its loop. -/
  altLoop : ∀ {n p e}, 4 * ahead p + 1 ≤ fuel → Within left (ahead p + 1) (rxAltLoop fuel n p e)
  /-- `rxSeq`. -/
  seq : ∀ {n p}, 4 * ahead p + 3 ≤ fuel → Within left (ahead p) (rxSeq fuel n p)
  /-- Its loop. -/
  seqLoop : ∀ {n p e}, 4 * ahead p + 3 ≤ fuel → Within left (ahead p + 1) (rxSeqLoop fuel n p e)
  /-- `rxPostfix`. -/
  item : ∀ {n p}, 4 * ahead p + 2 ≤ fuel → Within left (ahead p) (rxPostfix fuel n p)
  /-- `rxAtom`. -/
  atom : ∀ {n p}, 4 * ahead p + 1 ≤ fuel → Within left (ahead p) (rxAtom fuel n p)

variable {fuel : ℕ} {n : Nfa} {p : RxParser} {e : NfaFrag}

theorem rxAlt_within (ih : EnoughAt fuel) (hfuel : 4 * ahead p + 4 ≤ fuel + 1) :
    Within left (ahead p) (rxAlt (fuel + 1) n p) := by
  rw [rxAlt]
  have hseq := ih.seq (n := n) (p := p) (by omega)
  split
  · exact within_error hseq.1 ‹_›
  · have hlt := hseq.lt ‹_›
    exact (ih.altLoop (by omega)).mono hlt

theorem rxAltLoop_within (ih : EnoughAt fuel) (hfuel : 4 * ahead p + 1 ≤ fuel + 1) :
    Within left (ahead p + 1) (rxAltLoop (fuel + 1) n p e) := by
  rw [rxAltLoop]
  split
  · rename_i q hmatch
    exact within_ok (Nat.lt_succ_of_le (ahead_rxMatch_false hmatch))
  · rename_i q hmatch
    have hltq := ahead_rxMatch_true (by decide) hmatch
    have hseq := ih.seq (n := n) (p := q) (by omega)
    split
    · exact within_error hseq.1 ‹_›
    · have hlt := hseq.lt ‹_›
      split
      · exact within_error nfaAlt_ne_fuel ‹_›
      · exact (ih.altLoop (by omega)).mono (by omega)

theorem rxSeq_within (ih : EnoughAt fuel) (hfuel : 4 * ahead p + 3 ≤ fuel + 1) :
    Within left (ahead p) (rxSeq (fuel + 1) n p) := by
  rw [rxSeq]
  have hitem := ih.item (n := n) (p := p) (by omega)
  split
  · exact within_error hitem.1 ‹_›
  · have hlt := hitem.lt ‹_›
    exact (ih.seqLoop (by omega)).mono hlt

theorem rxSeqLoop_within (ih : EnoughAt fuel) (hfuel : 4 * ahead p + 3 ≤ fuel + 1) :
    Within left (ahead p + 1) (rxSeqLoop (fuel + 1) n p e) := by
  have hpeek : ahead (rxPeek p) ≤ ahead p := ahead_rxPeek
  rw [rxSeqLoop]
  split
  · exact within_ok (Nat.lt_succ_of_le hpeek)
  · have hitem := ih.item (n := n) (p := rxPeek p) (by omega)
    split
    · exact within_error hitem.1 ‹_›
    · have hlt := hitem.lt ‹_›
      split
      · exact within_error nfaSeq_ne_fuel ‹_›
      · exact (ih.seqLoop (by omega)).mono (by omega)

theorem within_map {α : Type} {x : Except RxErr α} {f : α → Nfa × RxParser × NfaFrag} {bound : ℕ}
    (hx : x ≠ .error .fuel) (hf : ∀ a, ahead (left (f a)) < bound) :
    Within left bound (x.map f) := by
  cases x with
  | error e => exact within_error hx rfl
  | ok a => exact within_ok (hf a)

theorem rxPostfix_within (ih : EnoughAt fuel) (hfuel : 4 * ahead p + 2 ≤ fuel + 1) :
    Within left (ahead p) (rxPostfix (fuel + 1) n p) := by
  rw [rxPostfix]
  have hatom := ih.atom (n := n) (p := p) (by omega)
  split
  · exact within_error hatom.1 ‹_›
  rename_i n₁ p₁ a hok
  have hlt := hatom.lt hok
  have hwith : ∀ {q q' : RxParser} {k : RxTokenKind} {skip loop : Bool}, k ≠ .eof →
      ahead q ≤ ahead p₁ → rxMatch q k = (true, q') →
      Within left (ahead p) ((nfaWrap skip loop n₁ a).map fun r => (r.1, q', r.2)) :=
    fun hk hq hmatch => within_map nfaWrap_ne_fuel fun _ =>
      ((ahead_rxMatch_true hk hmatch).le.trans hq).trans_lt hlt
  split
  · exact hwith (k := .star) (by decide) le_rfl ‹_›
  · have hle₁ := ahead_rxMatch_false ‹_›
    split
    · exact hwith (k := .plus) (by decide) hle₁ ‹_›
    · have hle₂ := (ahead_rxMatch_false ‹_›).trans hle₁
      split
      · exact hwith (k := .ques) (by decide) hle₂ ‹_›
      · exact within_ok (((ahead_rxMatch_false ‹_›).trans hle₂).trans_lt hlt)

theorem rxAtom_within (ih : EnoughAt fuel) (hfuel : 4 * ahead p + 1 ≤ fuel + 1) :
    Within left (ahead p) (rxAtom (fuel + 1) n p) := by
  rw [rxAtom]
  split
  · exact within_fail
  have hnext : ∀ {k : RxTokenKind}, (rxPeek p).tok.kind = k → k ≠ .eof →
      ahead (rxNext (rxPeek p)) < ahead p := fun hk hne => ahead_rxNext (hk ▸ hne)
  split
  · have hlt := hnext ‹_› (by decide)
    have halt := ih.alt (n := n) (p := rxNext (rxPeek p)) (by omega)
    split
    · exact within_error halt.1 ‹_›
    · have hlt' := halt.lt ‹_›
      split
      · exact within_fail
      · split
        · exact within_ok (lt_trans (ahead_rxMatch_true (k := .rparen) (by decide) ‹_›) (hlt'.trans hlt))
        · exact within_fail
  · have hlt := hnext ‹_› (by decide)
    have hclass : Within Prod.snd (ahead (rxNext (rxPeek p)) + 1)
        (parseCharClass fuel (rxNext (rxPeek p))) := parseCharClass_within (by omega)
    split
    · exact within_error hclass.1 ‹_›
    · have hlt' := hclass.2 _ ‹_›
      exact within_map nfaSingle_ne_fuel fun _ => by dsimp only [left] at hlt' ⊢; omega
  · exact within_map nfaSingle_ne_fuel fun _ => hnext ‹_› (by decide)
  · exact within_map nfaSingle_ne_fuel fun _ => hnext ‹_› (by decide)
  · exact within_fail

/-- **The descent ends.** -/
theorem enoughAt (fuel : ℕ) : EnoughAt fuel := by
  induction fuel with
  | zero =>
    exact ⟨fun h => (by omega), fun h => (by omega), fun h => (by omega), fun h => (by omega),
      fun h => (by omega), fun h => (by omega)⟩
  | succ fuel ih =>
    exact ⟨rxAlt_within ih, rxAltLoop_within ih, rxSeq_within ih, rxSeqLoop_within ih,
      rxPostfix_within ih, rxAtom_within ih⟩

/-- **The parser does not run out of fuel.** -/
theorem rxRegex_ne_fuel (hfuel : 4 * ahead p + 4 ≤ fuel) : rxRegex fuel n p ≠ .error .fuel := by
  unfold rxRegex
  dsimp only
  set p₁ := if (rxPeek p).tok.isBare '^' then rxNext (rxPeek p) else rxPeek p with hp₁
  have hle₁ : ahead p₁ ≤ ahead p := ahead_taken le_rfl fun h heof => by
    simp [RxToken.isBare, heof] at h
  have hbody : rxBody fuel n p₁ ≠ .error .fuel := by
    have := ahead_rxPeek (p := p₁)
    rw [rxBody]
    split
    · exact map_ne_fuel nfaSingle_ne_fuel
    · exact ((enoughAt fuel).alt (by omega)).1
  split
  · exact error_ne_fuel hbody ‹_›
  · rename_i n₂ p₂ e₂ _
    set p₃ := if (rxPeek p₂).tok.isBare '$' then rxNext (rxPeek p₂) else rxPeek p₂ with hp₃
    split
    · intro h
      cases h
    · split
      · exact rxFail_ne_fuel
      · split <;> exact rxFail_ne_fuel

end DatalogDafsa.Regex
