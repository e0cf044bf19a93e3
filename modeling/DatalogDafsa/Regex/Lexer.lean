import DatalogDafsa.Regex.Parse

/-!
# What the lexer reads

The tokens a parser goes on to read, as symbols of the pattern.  Once the lexer has
reported an error nothing is said of it any more, so the facts about one operation go
backwards: what is to be read before it, from what is to be read after it.

## Main definitions

* `TokIs`, `Sane`, `Upcoming` — a token is a symbol; the state of a parser; the symbols
  it goes on to read.
* `Upcoming.peek`, `Upcoming.next`, `Upcoming.match` — the operations.
-/

namespace DatalogDafsa.Regex

/-! ## Escapes -/

theorem rxOctal_spec (n : ℕ) (val : UInt32) (s : List UInt8) :
    (rxOctal n val s).1.toUInt8 =
        ((s.take n).takeWhile isOctal).foldl (fun v d => v * 8 + (d - '0'.toUInt8)) val.toUInt8 ∧
      (rxOctal n val s).2 = s.drop ((s.take n).takeWhile isOctal).length := by
  induction n generalizing val s with
  | zero => simp [rxOctal]
  | succ n ih =>
    cases s with
    | nil => simp [rxOctal]
    | cons d s =>
      rw [rxOctal, List.take_succ_cons]
      by_cases hd : rxIsOctalDigit d = true
      · rw [if_pos hd, List.takeWhile_cons_of_pos (p := isOctal) hd]
        obtain ⟨hval, hrest⟩ := ih (val * 8 + (d - '0'.toUInt8).toUInt32) s
        refine ⟨?_, by simpa using hrest⟩
        rw [hval, List.foldl_cons, UInt32.toUInt8_add, UInt32.toUInt8_mul,
          UInt8.toUInt8_toUInt32]
        rfl
      · rw [if_neg hd, List.takeWhile_cons_of_neg (p := isOctal) hd]
        simp

theorem hexValue_eq (ch : UInt8) :
    hexValue ch = if rxIsHexDigit ch then some (rxHexVal ch) else none := by
  have key : ∀ i < 256, hexValue (UInt8.ofNat i) =
      if rxIsHexDigit (UInt8.ofNat i) then some (rxHexVal (UInt8.ofNat i)) else none := by
    decide +kernel
  have := key ch.toNat ch.toNat_lt
  rwa [UInt8.ofNat_toNat] at this

theorem rxHexVal_lt (ch : UInt8) : rxHexVal ch < 16 := by
  have key : ∀ i < 256, rxHexVal (UInt8.ofNat i) < 16 := by decide +kernel
  have := key ch.toNat ch.toNat_lt
  rwa [UInt8.ofNat_toNat] at this

/-- Two digits make a byte. -/
theorem hexPair {a b : UInt8} (ha : a < 16) (hb : b < 16) :
    (a.toUInt32 <<< 4 ||| b.toUInt32).toUInt8 = a * 16 + b := by
  have key : ∀ i < 16, ∀ j < 16, ((UInt8.ofNat i).toUInt32 <<< 4 |||
      (UInt8.ofNat j).toUInt32).toUInt8 = UInt8.ofNat i * 16 + UInt8.ofNat j := by
    decide +kernel
  have := key a.toNat ha b.toNat hb
  rwa [UInt8.ofNat_toNat, UInt8.ofNat_toNat] at this

/-- **An escape the lexer takes** is one of the grammar. -/
theorem rxEscape_spec {p : RxParser} {s : List UInt8} (h : (rxEscape p s).errmsg = none) :
    ∃ b s', escape s = some (b, s') ∧ rxEscape p s = p.escaped b s' := by
  have herr : ∀ msg (q : RxParser), (rxError msg q).errmsg ≠ none := by
    intro msg q
    unfold rxError
    cases q.errmsg <;> simp
  cases s with
  | nil => exact absurd h (herr _ _)
  | cons c s =>
    by_cases hzero : c = '0'.toUInt8
    · subst hzero
      obtain ⟨hval, hrest⟩ := rxOctal_spec 2 0 s
      refine ⟨_, _, by rw [escape, if_pos rfl], ?_⟩
      rw [rxEscape, if_neg (by decide), if_pos rfl]
      by_cases hoct : s.head?.any rxIsOctalDigit = true
      · rw [if_pos hoct, hval, hrest]
        rfl
      · rw [if_neg hoct]
        have hnone : (s.take 2).takeWhile isOctal = [] := by
          cases s with
          | nil => rfl
          | cons d s =>
            rw [List.take_succ_cons]
            exact List.takeWhile_cons_of_neg (p := isOctal) hoct
        rw [hnone]
        rfl
    · by_cases hx : c = 'x'.toUInt8 ∨ c = 'X'.toUInt8
      · have hbs : c ≠ backslash := by rcases hx with rfl | rfl <;> decide
        rw [escape, if_neg hzero, if_pos hx]
        rw [rxEscape, if_neg hbs, if_neg hzero, if_pos hx] at h ⊢
        rcases s with _ | ⟨d, _ | ⟨e, s⟩⟩
        · exact absurd h (herr _ _)
        · exact absurd h (herr _ _)
        · rw [rxHexEscape] at h ⊢
          by_cases hhex : (rxIsHexDigit d && rxIsHexDigit e) = true
          · rw [if_pos hhex, hexPair (rxHexVal_lt d) (rxHexVal_lt e)]
            rw [Bool.and_eq_true] at hhex
            refine ⟨_, _, ?_, rfl⟩
            rw [hexByte, hexValue_eq, hexValue_eq, if_pos hhex.1, if_pos hhex.2]
          · rw [if_neg hhex] at h
            exact absurd h (herr _ _)
      · refine ⟨named c, s, by rw [escape, if_neg hzero, if_neg hx], ?_⟩
        rw [rxEscape]
        by_cases hbs : c = backslash
        · subst hbs
          rw [if_pos rfl, show named backslash = backslash by decide]
        · rw [if_neg hbs, if_neg hzero, if_neg hx]
          unfold named
          split_ifs <;> rfl

/-! ## Tokens -/

/-- A token is a symbol. -/
def TokIs (t : RxToken) : Sym → Prop
  | .bare b => t.kind = rxKind b ∧ (rxKind b = .char → t.ch = b) ∧ t.quoted = false
  | .quoted b => t.kind = .char ∧ t.ch = b ∧ t.quoted = true

/-- What `rxLex` does when it reads on. -/
theorem rxLex_spec {p : RxParser} (htok : p.hasTok = false) (herr : (rxLex p).errmsg = none) :
    p.errmsg = none ∧ (rxLex p).hasTok = false ∧
      ((p.pos = [] ∧ (rxLex p).tok.kind = .eof ∧ (rxLex p).pos = []) ∨
        ∃ y, scanOne p.pos = some (y, (rxLex p).pos) ∧ TokIs (rxLex p).tok y) := by
  cases hmsg : p.errmsg with
  | some msg =>
    have : (rxLex p).errmsg = some msg := by simp [rxLex, htok, hmsg]
    rw [this] at herr
    cases herr
  | none =>
    cases hpos : p.pos with
    | nil => exact ⟨rfl, by simp [rxLex, htok, hmsg, hpos], .inl ⟨rfl, by simp [rxLex, htok, hmsg, hpos],
        by simp [rxLex, htok, hmsg, hpos]⟩⟩
    | cons b s =>
      by_cases hb : b = backslash
      · have hlex : rxLex p = rxEscape p s := by simp [rxLex, htok, hmsg, hpos, hb]
        rw [hlex] at herr ⊢
        obtain ⟨c, s', hesc, heq⟩ := rxEscape_spec herr
        refine ⟨rfl, by rw [heq]; exact htok, .inr ⟨.quoted c, ?_, ?_⟩⟩
        · rw [scanOne, if_pos hb, hesc, heq]
          rfl
        · rw [heq]
          exact ⟨rfl, rfl, rfl⟩
      · have hlex : rxLex p = { p with
            pos := s
            tok := ⟨rxKind b, if rxKind b = .char then b else p.tok.ch, false⟩ } := by
          simp [rxLex, htok, hmsg, hpos, hb]
        rw [hlex]
        refine ⟨rfl, htok, .inr ⟨.bare b, ?_, ?_⟩⟩
        · rw [scanOne, if_neg hb]
        · exact ⟨rfl, fun hchar => if_pos hchar, rfl⟩

/-- The character of a kind. -/
def kindChar : RxTokenKind → Option Char
  | .dot => some '.'
  | .star => some '*'
  | .plus => some '+'
  | .ques => some '?'
  | .pipe => some '|'
  | .lparen => some '('
  | .rparen => some ')'
  | .lbracket => some '['
  | .rbracket => some ']'
  | _ => none

theorem rxKind_eq {b : UInt8} {c : Char} (h : kindChar (rxKind b) = some c) : b = c.toUInt8 := by
  unfold rxKind at h
  split_ifs at h <;> cases h <;> assumption

theorem rxKind_ne_eof (b : UInt8) : rxKind b ≠ .eof := by
  unfold rxKind
  split_ifs <;> decide

theorem kindChar_ne_none {k : RxTokenKind} (hchar : k ≠ .char) (heof : k ≠ .eof) :
    ∃ c, kindChar k = some c := by
  cases k <;> simp_all [kindChar]

theorem TokIs.kind_ne_eof {t : RxToken} {y : Sym} (h : TokIs t y) : t.kind ≠ .eof := by
  cases y with
  | bare b => exact h.1 ▸ rxKind_ne_eof b
  | quoted b => rw [h.1]; decide

/-- A token of an operator is that operator. -/
theorem TokIs.eq_op {t : RxToken} {y : Sym} (h : TokIs t y) {c : Char}
    (hc : kindChar t.kind = some c) : y = op c := by
  cases y with
  | bare b =>
    rw [h.1] at hc
    rw [rxKind_eq hc]
  | quoted b =>
    rw [h.1] at hc
    cases hc

theorem TokIs.byte {t : RxToken} {y : Sym} (h : TokIs t y) (hchar : t.kind = .char) :
    y.byte = t.ch := by
  cases y with
  | bare b => exact (h.2.1 (h.1.symm.trans hchar)).symm
  | quoted b => exact h.2.1.symm

theorem TokIs.unique {t : RxToken} {y z : Sym} (h : TokIs t y) (h' : TokIs t z) : y = z := by
  by_cases hchar : t.kind = .char
  · have hbyte := (h.byte hchar).trans (h'.byte hchar).symm
    cases y <;> cases z
    · exact congrArg Sym.bare hbyte
    · exact absurd (h.2.2.symm.trans h'.2.2) (by decide)
    · exact absurd (h.2.2.symm.trans h'.2.2) (by decide)
    · exact congrArg Sym.quoted hbyte
  · obtain ⟨c, hc⟩ := kindChar_ne_none hchar h.kind_ne_eof
    rw [h.eq_op hc, h'.eq_op hc]

/-- Is a token a bare character? -/
theorem TokIs.isBare_iff {t : RxToken} {y : Sym} (h : TokIs t y) {c : Char}
    (hc : rxKind c.toUInt8 = .char) : t.isBare c = true ↔ y = op c := by
  have hbare : t.isBare c = true ↔ (t.kind = .char ∧ t.quoted = false) ∧ t.ch = c.toUInt8 := by
    simp [RxToken.isBare]
  rw [hbare]
  constructor
  · rintro ⟨⟨hchar, hq⟩, hch⟩
    cases y with
    | bare b => rw [op, ← hch, h.2.1 (h.1.symm.trans hchar)]
    | quoted b => exact absurd (hq.symm.trans h.2.2) (by decide)
  · rintro rfl
    exact ⟨⟨h.1.trans hc, h.2.2⟩, h.2.1 hc⟩

/-- A character that is no anchor stands for itself. -/
theorem TokIs.isLiteral {t : RxToken} {y : Sym} (h : TokIs t y) (hchar : t.kind = .char)
    (hcaret : t.isBare '^' = false) (hdollar : t.isBare '$' = false) : y.isLiteral = true := by
  cases y with
  | quoted b => rfl
  | bare b =>
    have hkind : rxKind b = .char := h.1.symm.trans hchar
    have hne : ∀ c, rxKind c.toUInt8 = .char → t.isBare c = false → b ≠ c.toUInt8 := by
      rintro c hc hbare rfl
      exact Bool.false_ne_true (hbare.symm.trans ((h.isBare_iff hc).mpr rfl))
    have h₁ := hne '^' (by decide) hcaret
    have h₂ := hne '$' (by decide) hdollar
    unfold rxKind at hkind
    simp only [Sym.isLiteral, isOperator, List.any_cons, List.any_nil, Bool.or_false,
      Bool.not_eq_true', Bool.or_eq_false_iff, beq_eq_false_iff_ne, ne_eq]
    split_ifs at hkind
    exact ⟨Ne.symm ‹_›, Ne.symm ‹_›, Ne.symm ‹_›, Ne.symm ‹_›, Ne.symm ‹_›, Ne.symm ‹_›,
      Ne.symm ‹_›, Ne.symm ‹_›, Ne.symm ‹_›, h₁.symm, h₂.symm⟩

/-! ## What is to be read -/

/-- A token that was read without an error is a symbol, or the end. -/
def Sane (p : RxParser) : Prop :=
  p.hasTok = true → p.errmsg = none →
    p.tok.kind = .eof ∧ p.pos = [] ∨ ∃ y, TokIs p.tok y

/-- The symbols a parser goes on to read, without an error. -/
inductive Upcoming : RxParser → List Sym → Prop
  /-- A token that was read, and the rest. -/
  | ahead {p : RxParser} {y : Sym} {ys : List Sym} : p.errmsg = none → p.hasTok = true →
      TokIs p.tok y → Scan p.pos ys → Upcoming p (y :: ys)
  /-- The end, that was read. -/
  | eof {p : RxParser} : p.errmsg = none → p.hasTok = true → p.tok.kind = .eof → p.pos = [] →
      Upcoming p []
  /-- The rest. -/
  | fresh {p : RxParser} {ys : List Sym} : p.errmsg = none → p.hasTok = false → Scan p.pos ys →
      Upcoming p ys

variable {p : RxParser}

@[simp] theorem hasTok_rxPeek : (rxPeek p).hasTok = true := by
  unfold rxPeek
  split
  · assumption
  · rfl

@[simp] theorem hasTok_rxNext : (rxNext p).hasTok = false := rfl

@[simp] theorem rxPeek_rxPeek : rxPeek (rxPeek p) = rxPeek p := by
  conv_lhs => rw [rxPeek, if_pos hasTok_rxPeek]

theorem rxPeek_of_hasTok (h : p.hasTok = true) : rxPeek p = p := if_pos h

theorem sane_rxNext : Sane (rxNext p) := fun h => by
  rw [hasTok_rxNext] at h
  cases h

theorem Sane.peek (h : Sane p) : Sane (rxPeek p) := by
  cases htok : p.hasTok with
  | true =>
    rw [rxPeek_of_hasTok htok]
    exact h
  | false =>
    have hpeek : rxPeek p = { rxLex p with hasTok := true } := by simp [rxPeek, htok]
    rw [hpeek]
    intro _ herr
    obtain ⟨-, -, ⟨-, hkind, hpos⟩ | ⟨y, -, hy⟩⟩ := rxLex_spec htok herr
    · exact .inl ⟨hkind, hpos⟩
    · exact .inr ⟨y, hy⟩

/-- Looking at the next token takes nothing. -/
theorem Upcoming.of_peek {ys : List Sym} (h : Upcoming (rxPeek p) ys) : Upcoming p ys := by
  cases htok : p.hasTok with
  | true => rwa [rxPeek_of_hasTok htok] at h
  | false =>
    have hpeek : rxPeek p = { rxLex p with hasTok := true } := by simp [rxPeek, htok]
    rw [hpeek] at h
    cases h with
    | ahead herr _ hy hrest =>
      obtain ⟨hmsg, -, ⟨-, hkind, -⟩ | ⟨z, hone, hz⟩⟩ := rxLex_spec htok herr
      · exact absurd hkind hy.kind_ne_eof
      · rw [hy.unique hz]
        exact .fresh hmsg htok (.cons hone hrest)
    | eof herr _ hkind hpos =>
      obtain ⟨hmsg, -, ⟨hnil, -⟩ | ⟨z, hone, hz⟩⟩ := rxLex_spec htok herr
      · exact .fresh hmsg htok (hnil ▸ .nil)
      · exact absurd hkind hz.kind_ne_eof
    | fresh _ hfalse _ => cases hfalse

/-- Taking a token that was looked at. -/
theorem Upcoming.of_next {ys : List Sym} (hsane : Sane p)
    (hkind : (rxPeek p).tok.kind ≠ .eof) (h : Upcoming (rxNext (rxPeek p)) ys) :
    ∃ y, TokIs (rxPeek p).tok y ∧ Upcoming p (y :: ys) := by
  have hnext : rxNext (rxPeek p) = { rxPeek p with hasTok := false } := by simp [rxNext]
  rw [hnext] at h
  cases h with
  | ahead _ htrue _ _ => cases htrue
  | eof _ htrue _ _ => cases htrue
  | fresh herr _ hscan =>
    rcases hsane.peek hasTok_rxPeek herr with ⟨heof, -⟩ | ⟨y, hy⟩
    · exact absurd heof hkind
    · exact ⟨y, hy, (Upcoming.ahead (p := rxPeek p) herr hasTok_rxPeek hy hscan).of_peek⟩

/-- What was looked at. -/
theorem Upcoming.peeked {ys : List Sym} (h : Upcoming (rxPeek p) ys) :
    (rxPeek p).tok.kind = .eof ∧ ys = [] ∨ ∃ y ys', ys = y :: ys' ∧ TokIs (rxPeek p).tok y := by
  cases h with
  | ahead _ _ hy _ => exact .inr ⟨_, _, rfl, hy⟩
  | eof _ _ hkind _ => exact .inl ⟨hkind, rfl⟩
  | fresh _ hfalse _ =>
    rw [hasTok_rxPeek] at hfalse
    cases hfalse

/-- An operator that is taken. -/
theorem rxMatch_true {p' : RxParser} {k : RxTokenKind} {c : Char} (hsane : Sane p)
    (hk : kindChar k = some c) (h : rxMatch p k = (true, p')) :
    Sane p' ∧ ∀ ys, Upcoming p' ys → Upcoming p (op c :: ys) := by
  unfold rxMatch at h
  split at h
  · rename_i hkind
    cases h
    refine ⟨sane_rxNext, fun ys hys => ?_⟩
    have hne : (rxPeek p).tok.kind ≠ .eof := by
      rw [hkind]
      rintro rfl
      cases hk
    obtain ⟨y, hy, hup⟩ := Upcoming.of_next hsane hne hys
    rwa [hy.eq_op (hkind ▸ hk)] at hup
  · cases h

theorem rxMatch_false {p' : RxParser} {k : RxTokenKind} (h : rxMatch p k = (false, p')) :
    p' = rxPeek p ∧ (rxPeek p).tok.kind ≠ k := by
  unfold rxMatch at h
  split at h
  · cases h
  · rename_i hkind
    cases h
    exact ⟨rfl, hkind⟩

end DatalogDafsa.Regex
