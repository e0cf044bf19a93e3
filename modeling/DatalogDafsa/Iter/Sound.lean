import DatalogDafsa.Iter.Cursor
import DatalogDafsa.ViewAgree
import DatalogDafsa.Lib.OrderedWalk

/-!
# Iterators are exact

The stack of an iterator stands for the tuples it still has to hand out.  A turn of
its loop either hands out the first of them or leaves them as they are and makes the
remaining work less, so a call ends, and the calls give the tuples with the bound
prefix in ascending order.

## Main definitions

* `Source` — an automaton that holds the keys of a relation, and how it is read.
* `Opened` — an iterator that was opened, or sought.
* `yields_of_opened` — it hands out the tuples with its prefix.
-/

namespace DatalogDafsa.Iter

open Regex (Auto)
open OrderedWalk (Net)
open MergeJoin (Yields)

/-! ## Keys -/

theorem or_eq_add {a b i : ℕ} (h : b < 2 ^ i) : a * 2 ^ i ||| b = a * 2 ^ i + b := by
  rw [mul_comm, Nat.two_pow_add_eq_or_of_lt h]

theorem toNat_readCol (b₀ b₁ b₂ b₃ : UInt8) : (readCol b₀ b₁ b₂ b₃).toNat =
    b₀.toNat * 2 ^ 24 + b₁.toNat * 2 ^ 16 + b₂.toNat * 2 ^ 8 + b₃.toNat := by
  have h₀ := b₀.toNat_lt
  have h₁ := b₁.toNat_lt
  have h₂ := b₂.toNat_lt
  have h₃ := b₃.toNat_lt
  simp only [readCol, UInt32.toNat_or, UInt32.toNat_shiftLeft, UInt8.toNat_toUInt32,
    Nat.shiftLeft_eq, UInt32.reduceToNat, Nat.reduceMod]
  rw [Nat.mod_eq_of_lt (by omega), Nat.mod_eq_of_lt (a := b₁.toNat * 2 ^ 16) (by omega),
    Nat.mod_eq_of_lt (a := b₂.toNat * 2 ^ 8) (by omega), or_eq_add (i := 24) (by omega)]
  have hhigh : b₀.toNat * 2 ^ 24 + b₁.toNat * 2 ^ 16 = (b₀.toNat * 2 ^ 8 + b₁.toNat) * 2 ^ 16 := by
    ring
  rw [hhigh, or_eq_add (i := 16) (by omega)]
  have hmid : (b₀.toNat * 2 ^ 8 + b₁.toNat) * 2 ^ 16 + b₂.toNat * 2 ^ 8 =
      ((b₀.toNat * 2 ^ 8 + b₁.toNat) * 2 ^ 8 + b₂.toNat) * 2 ^ 8 := by
    ring
  rw [hmid, or_eq_add (i := 8) (by omega)]

/-- **A column is read back.** -/
theorem readCol_colBe (v : Val) :
    readCol (v >>> 24).toUInt8 (v >>> 16).toUInt8 (v >>> 8).toUInt8 v.toUInt8 = v := by
  have hv := v.toNat_lt
  refine UInt32.toNat_inj.mp ?_
  rw [toNat_readCol]
  simp only [UInt32.toNat_toUInt8, UInt32.toNat_shiftRight, Nat.shiftRight_eq_div_pow,
    UInt32.reduceToNat, Nat.reduceMod]
  omega

@[simp] theorem length_colBe (v : Val) : (colBe v).length = 4 := rfl

@[simp] theorem length_flatMap_colBe (r : Row) : (r.flatMap colBe).length = 4 * r.length := by
  induction r with
  | nil => rfl
  | cons v r ih =>
    rw [List.flatMap_cons, List.length_append, ih, length_colBe, List.length_cons]
    omega

@[simp] theorem length_encodeRow (r : Row) : (encodeRow r).length = 4 * r.length + 1 := by
  rw [encodeRow, List.length_append, length_flatMap_colBe]
  rfl

theorem encodeRow_append (p s : Row) : encodeRow (p ++ s) = p.flatMap colBe ++ encodeRow s := by
  simp [encodeRow]

/-- **The columns are read back** from a buffer that starts with their bytes. -/
theorem readColsBe_eq {buf : ℕ → UInt8} {r : Row}
    (h : ∀ i b, (r.flatMap colBe)[i]? = some b → buf i = b) : readColsBe buf r.length = r := by
  induction r generalizing buf with
  | nil => rfl
  | cons v r ih =>
    have hfirst : ∀ i b, (colBe v)[i]? = some b → buf i = b := by
      intro i b hb
      have hi : i < 4 := (List.getElem?_eq_some_iff.mp hb).1
      exact h i b (by rw [List.flatMap_cons, List.getElem?_append_left hi, hb])
    have hrest := @ih (fun i => buf (i + 4)) fun i b hb => h (i + 4) b (by
      rw [List.flatMap_cons, List.getElem?_append_right (by simp)]
      simpa using hb)
    unfold readColsBe at hrest ⊢
    rw [List.length_cons, List.range_succ_eq_map, List.map_cons, List.map_map]
    refine congrArg₂ List.cons ?_ hrest
    rw [hfirst 0 _ rfl, hfirst 1 _ rfl, hfirst 2 _ rfl, hfirst 3 _ rfl]
    exact readCol_colBe v

theorem colBe_lex {a b : Val} (h : a < b) (s t : List UInt8) :
    List.Lex (· < ·) (colBe a ++ s) (colBe b ++ t) := by
  have ha := a.toNat_lt
  have hb := b.toNat_lt
  rw [UInt32.lt_iff_toNat_lt] at h
  have hlt : ∀ {x y : UInt8}, x.toNat < y.toNat → x < y := UInt8.lt_iff_toNat_lt.mpr
  have heq : ∀ {x y : UInt8}, x.toNat = y.toNat → x = y := UInt8.toNat_inj.mp
  have hbyte : ∀ v : Val, ((v >>> 24).toUInt8.toNat = v.toNat / 2 ^ 24 % 2 ^ 8 ∧
      (v >>> 16).toUInt8.toNat = v.toNat / 2 ^ 16 % 2 ^ 8 ∧
      (v >>> 8).toUInt8.toNat = v.toNat / 2 ^ 8 % 2 ^ 8) ∧ v.toUInt8.toNat = v.toNat % 2 ^ 8 := by
    intro v
    simp [UInt32.toNat_toUInt8, UInt32.toNat_shiftRight, Nat.shiftRight_eq_div_pow]
  obtain ⟨⟨ha₀, ha₁, ha₂⟩, ha₃⟩ := hbyte a
  obtain ⟨⟨hb₀, hb₁, hb₂⟩, hb₃⟩ := hbyte b
  -- the first byte that differs decides
  by_cases h₀ : a.toNat / 2 ^ 24 % 2 ^ 8 = b.toNat / 2 ^ 24 % 2 ^ 8
  · unfold colBe
    rw [heq (ha₀.trans (h₀.trans hb₀.symm))]
    refine .cons ?_
    by_cases h₁ : a.toNat / 2 ^ 16 % 2 ^ 8 = b.toNat / 2 ^ 16 % 2 ^ 8
    · rw [heq (ha₁.trans (h₁.trans hb₁.symm))]
      refine .cons ?_
      by_cases h₂ : a.toNat / 2 ^ 8 % 2 ^ 8 = b.toNat / 2 ^ 8 % 2 ^ 8
      · rw [heq (ha₂.trans (h₂.trans hb₂.symm))]
        exact .cons (.rel (hlt (by omega)))
      · exact .rel (hlt (by omega))
    · exact .rel (hlt (by omega))
  · exact .rel (hlt (by omega))

theorem lex_of_rowLt {x y : Row} (hlen : x.length = y.length) (h : RowBefore x y) :
    List.Lex (· < ·) (encodeRow x) (encodeRow y) := by
  induction x generalizing y with
  | nil =>
    obtain rfl := List.length_eq_zero_iff.mp hlen.symm
    exact absurd h (by simp [RowBefore, rowLt_irrefl])
  | cons a x ih =>
    cases y with
    | nil => cases hlen
    | cons b y =>
      have hcons : ∀ v (r : Row), encodeRow (v :: r) = colBe v ++ encodeRow r := fun v r => by
        simp [encodeRow]
      rw [hcons, hcons]
      rw [RowBefore, rowLt_cons] at h
      split at h
      · rename_i hab
        subst hab
        exact List.Lex.append_left _ (ih (Nat.succ_injective hlen) h) _
      · exact colBe_lex (of_decide_eq_true h) _ _

/-- **The order of the keys** is that of the rows. -/
theorem rowLt_of_lex {x y : Row} (hlen : x.length = y.length)
    (h : List.Lex (· < ·) (encodeRow x) (encodeRow y)) : RowBefore x y := by
  rcases rowLt_trichotomy x y with hxy | rfl | hyx
  · exact hxy
  · exact absurd h (List.lex_irrefl (fun a => UInt8.lt_irrefl a) _)
  · exact absurd h (List.lex_asymm (fun h => UInt8.lt_asymm h) (lex_of_rowLt hlen.symm hyx))

/-! ## What is read -/

variable {C C' : Type}

/-- An engine reads an automaton: `rest` gives the edges from a place on. -/
structure Engine.Reads (E : Engine C) (A : Auto) (rest : ℕ → C → List (UInt8 × ℕ)) : Prop where
  /-- The initial state. -/
  initial : E.initial = A.initial
  /-- The final states. -/
  isFinal : ∀ q, E.isFinal q = A.final q
  /-- The edge on a byte. -/
  find : ∀ q b, E.find q b = (A.edges q).lookup b
  /-- From the first place on, all of the edges. -/
  first : ∀ q, rest q (E.first q) = A.edges q
  /-- The edge at a place. -/
  next : ∀ q c, (E.next q c = none ∧ rest q c = []) ∨
    ∃ e c', E.next q c = some (e, c') ∧ rest q c = e :: rest q c'

/-- The array of edges is read by index. -/
theorem live_reads (A : Auto) : (live A).Reads A fun q i => (A.edges q).drop i where
  initial := rfl
  isFinal _ := rfl
  find _ _ := rfl
  first _ := rfl
  next q i := by
    cases hi : (A.edges q)[i]? with
    | none =>
      refine .inl ⟨?_, List.drop_eq_nil_of_le (List.getElem?_eq_none_iff.mp hi)⟩
      change (A.edges q)[i]?.map _ = none
      rw [hi]
      rfl
    | some e =>
      obtain ⟨hlt, rfl⟩ := List.getElem?_eq_some_iff.mp hi
      refine .inr ⟨_, i + 1, ?_, List.drop_eq_getElem_cons hlt⟩
      change (A.edges q)[i]?.map _ = _
      rw [hi]
      rfl

/-- An automaton with the keys of a relation, and how it is read. In memory it is that of
the view; a mapped file shows the view that was published. -/
structure Source (C : Type) where
  /-- How it is read. -/
  engine : Engine C
  /-- The number of columns. -/
  arity : ℕ
  /-- At most eight. -/
  arity_le : arity ≤ 8
  /-- The tuples. -/
  rows : Dafsa
  /-- They have that many columns. -/
  wide : ∀ r ∈ rows, r.length = arity
  /-- The automaton. -/
  auto : Auto
  /-- It holds the keys of the tuples. -/
  stores : auto.Stores (rows.keys.map encodeRow).toFinset
  /-- Its edges are sorted. -/
  sorted : ∀ q, (auto.edges q).Pairwise fun e e' => e.1 < e'.1
  /-- The edges from a place on. -/
  rest : ℕ → C → List (UInt8 × ℕ)
  /-- The engine reads this automaton. -/
  reads : engine.Reads auto rest

namespace Source

variable (src : Source C)

/-- The automaton as the library has it. -/
def net : Net UInt8 ℕ := ⟨src.auto.edges, src.auto.final⟩

theorem accepts_iff (w : List UInt8) :
    (∃ q, src.auto.run src.auto.initial w = some q ∧ src.auto.final q = true) ↔
      ∃ r ∈ src.rows, encodeRow r = w := by
  rw [← src.stores.mem, List.mem_toFinset, List.mem_map]
  rfl

/-- The keys have one length. -/
theorem length_of_accepts {w : List UInt8} {q : ℕ}
    (h : src.auto.run src.auto.initial w = some q) (hq : src.auto.final q = true) :
    w.length = 4 * src.arity + 1 := by
  obtain ⟨r, hr, rfl⟩ := (src.accepts_iff w).mp ⟨q, h, hq⟩
  rw [length_encodeRow, src.wide r hr]

/-- A state is at a final one after as many edges as its word lacks, and not before. -/
theorem exact_of_run {n : ℕ} {w : List UInt8} {q : ℕ}
    (h : src.auto.run src.auto.initial w = some q) (hlen : w.length + n = 4 * src.arity + 1)
    (hlast : n = 0 → src.auto.final q = true) : src.net.Exact n q := by
  induction n generalizing w q with
  | zero => exact hlast rfl
  | succ n ih =>
    refine ⟨?_, fun e he => ?_⟩
    · refine Bool.eq_false_iff.mpr fun hfinal => ?_
      have := src.length_of_accepts h hfinal
      omega
    · obtain ⟨b, t⟩ := e
      have hrun := src.stores.run_snoc h he
      refine ih hrun (by rw [List.length_append, List.length_singleton]; omega) fun hn => ?_
      obtain ⟨x, p, hx, hp⟩ := src.stores.trim w q b t h he
      have hx' : src.auto.run src.auto.initial ((w ++ [b]) ++ x) = some p := by
        rw [Auto.run_append, hrun]
        exact hx
      have hlen' := src.length_of_accepts hx' hp
      rw [List.length_append, List.length_append, List.length_singleton] at hlen'
      obtain rfl : x = [] := List.length_eq_zero_iff.mp (by omega)
      cases hx
      exact hp

/-- The words from a state are the tails of the keys. -/
theorem mem_words {n : ℕ} {w v : List UInt8} {q : ℕ}
    (h : src.auto.run src.auto.initial w = some q) (hlen : w.length + n = 4 * src.arity + 1)
    (hlast : n = 0 → src.auto.final q = true) :
    v ∈ src.net.words n q ↔ ∃ r ∈ src.rows, encodeRow r = w ++ v := by
  induction n generalizing w q v with
  | zero =>
    rw [Net.words, List.mem_singleton]
    constructor
    · rintro rfl
      exact (src.accepts_iff _).mp ⟨q, by rwa [List.append_nil], hlast rfl⟩
    · rintro ⟨r, hr, heq⟩
      have hl := congrArg List.length heq
      rw [length_encodeRow, src.wide r hr, List.length_append] at hl
      exact List.length_eq_zero_iff.mp (by omega)
  | succ n ih =>
    have hexact := src.exact_of_run h hlen hlast
    cases v with
    | nil =>
      constructor
      · exact fun hv => absurd (Net.length_of_mem_words hv) (by simp)
      · rintro ⟨r, hr, heq⟩
        have hl := congrArg List.length heq
        rw [length_encodeRow, src.wide r hr, List.append_nil] at hl
        omega
    | cons b v =>
      rw [Net.mem_words_succ]
      have hstep : ∀ t, (b, t) ∈ src.auto.edges q →
          (v ∈ src.net.words n t ↔ ∃ r ∈ src.rows, encodeRow r = w ++ b :: v) := by
        intro t ht
        have hlast' : n = 0 → src.auto.final t = true := by
          rintro rfl
          exact hexact.2 (b, t) ht
        rw [ih (src.stores.run_snoc h ht)
          (by rw [List.length_append, List.length_singleton]; omega) hlast', List.append_assoc]
        rfl
      constructor
      · rintro ⟨t, ht, hv⟩
        exact (hstep t ht).mp hv
      · intro hr
        obtain ⟨p, hp, -⟩ := (src.accepts_iff _).mpr hr
        rw [Auto.run_append, h, Option.bind_some, Auto.run] at hp
        cases hl : (src.auto.edges q).lookup b with
        | none =>
          rw [hl] at hp
          cases hp
        | some t =>
          have ht := Regex.mem_of_lookup_eq_some hl
          exact ⟨t, ht, (hstep t ht).mpr hr⟩

/-- The stack of an iterator, with the edges each state still has. -/
def stack (frames : List (ℕ × C)) : List (OrderedWalk.Frame UInt8 ℕ) :=
  frames.map fun f => (f.1, src.rest f.1 f.2)

end Source

/-! ## One call -/

/-- An iterator whose top state is `n` bytes away from the end of a key; `path` has the bytes
taken since the prefix, the last one first. -/
structure Tracks (src : Source C) (it : DlIter C) (n : ℕ) (path : List UInt8) : Prop where
  /-- It reads the source. -/
  engine : it.engine = src.engine
  /-- The columns. -/
  arity : it.arity = src.arity
  /-- The bound columns. -/
  short : it.leading.length ≤ src.arity
  /-- It is not at the end. -/
  positioned : it.exhausted = false
  /-- Every state on the stack is as far from the end as its place says. -/
  live : src.net.Live n (src.stack it.frames)
  /-- A byte for each edge on the stack. -/
  depth : path.length + 1 = it.frames.length
  /-- A key has that many bytes after the prefix. -/
  total : path.length + n = 4 * (src.arity - it.leading.length) + 1
  /-- The bytes are in the buffer. -/
  bytes : ∀ i b, path.reverse[i]? = some b → it.buf i = b

/-- An iterator that still has to hand out the words `ws`, within some turns. -/
def Ready (src : Source C) (fuel : ℕ) (it : DlIter C) (ws : List (List UInt8)) : Prop :=
  (it.exhausted = true ∧ ws = []) ∨
    ∃ n path, Tracks src it n path ∧ src.net.todo n path (src.stack it.frames) = ws ∧
      src.net.work n (src.stack it.frames) ≤ fuel

variable {src : Source C}

theorem Ready.mono {fuel fuel' : ℕ} {it : DlIter C} {ws : List (List UInt8)}
    (h : Ready src fuel it ws) (hle : fuel ≤ fuel') : Ready src fuel' it ws := by
  rcases h with h | ⟨n, path, ht, hws, hwork⟩
  · exact .inl h
  · exact .inr ⟨n, path, ht, hws, hwork.trans hle⟩

/-- Taking a frame off the stack. -/
theorem Tracks.pop {it : DlIter C} {n : ℕ} {path : List UInt8} (h : Tracks src it n path)
    {f : ℕ × C} {fs : List (ℕ × C)} (hf : it.frames = f :: fs)
    (hlive : src.net.Live (n + 1) (src.stack fs)) {fuel : ℕ}
    (hwork : src.net.work (n + 1) (src.stack fs) ≤ fuel) :
    Ready src fuel (it.popTo fs) (src.net.todo (n + 1) path.tail (src.stack fs)) ∧
      (fs ≠ [] → Tracks src (it.popTo fs) (n + 1) path.tail) := by
  have hdepth := h.depth
  rw [hf, List.length_cons] at hdepth
  have htracks : fs ≠ [] → Tracks src (it.popTo fs) (n + 1) path.tail := by
    intro hne
    have hpos : 0 < fs.length := List.length_pos_iff.mpr hne
    have htotal := h.total
    exact {
      engine := h.engine
      arity := h.arity
      short := h.short
      positioned := by
        rw [DlIter.popTo, if_neg hne]
        exact h.positioned
      live := hlive
      depth := by
        change path.tail.length + 1 = fs.length
        rw [List.length_tail]
        omega
      total := by
        change path.tail.length + (n + 1) = 4 * (src.arity - it.leading.length) + 1
        rw [List.length_tail]
        omega
      bytes := by
        intro i b hb
        refine h.bytes i b ?_
        cases path with
        | nil => exact hb
        | cons c path =>
          change path.reverse[i]? = some b at hb
          rw [List.reverse_cons, List.getElem?_append_left (List.getElem?_eq_some_iff.mp hb).1]
          exact hb }
  refine ⟨?_, htracks⟩
  by_cases hne : fs = []
  · subst hne
    exact .inl ⟨rfl, rfl⟩
  · exact .inr ⟨n + 1, path.tail, htracks hne, rfl, hwork⟩

/-- Taking an edge. -/
theorem Tracks.push {it : DlIter C} {n : ℕ} {path : List UInt8} (h : Tracks src it (n + 1) path)
    {state : ℕ} {place place' : C} {fs : List (ℕ × C)} {e : UInt8 × ℕ}
    (hf : it.frames = (state, place) :: fs) (hrest : src.rest state place = e :: src.rest state place')
    {it' : DlIter C}
    (hit : it' = { it with
      frames := (e.2, it.engine.first e.2) :: (state, place') :: fs
      buf := Function.update it.buf (it.frames.length - 1) e.1 }) :
    src.stack it'.frames =
        (e.2, src.net.edges e.2) :: (state, src.rest state place') :: src.stack fs ∧
      src.stack it.frames = (state, e :: src.rest state place') :: src.stack fs ∧
      Tracks src it' n (e.1 :: path) := by
  subst hit
  have hold : src.stack it.frames = (state, e :: src.rest state place') :: src.stack fs := by
    rw [hf, Source.stack, List.map_cons, hrest]
    rfl
  have hnew : src.stack ((e.2, it.engine.first e.2) :: (state, place') :: fs) =
      (e.2, src.net.edges e.2) :: (state, src.rest state place') :: src.stack fs := by
    rw [Source.stack, List.map_cons, List.map_cons, h.engine, src.reads.first]
    rfl
  have hdepth := h.depth
  have htotal := h.total
  refine ⟨hnew, hold, ?_⟩
  exact {
    engine := h.engine
    arity := h.arity
    short := h.short
    positioned := h.positioned
    live := by
      change src.net.Live n (src.stack ((e.2, it.engine.first e.2) :: (state, place') :: fs))
      rw [hnew]
      exact Net.live_push (hold ▸ h.live)
    depth := by
      rw [hf] at hdepth
      simpa using hdepth
    total := by
      change (e.1 :: path).length + n = 4 * (src.arity - it.leading.length) + 1
      rw [List.length_cons]
      omega
    bytes := by
      intro i b hb
      rw [List.reverse_cons] at hb
      change Function.update it.buf (it.frames.length - 1) e.1 i = b
      have hlen : it.frames.length - 1 = path.reverse.length := by
        rw [List.length_reverse]
        omega
      rw [hlen]
      rcases lt_or_ge i path.reverse.length with hi | hi
      · rw [Function.update_of_ne hi.ne]
        rw [List.getElem?_append_left hi] at hb
        exact h.bytes i b hb
      · rw [List.getElem?_append_right hi] at hb
        have hlast := (List.getElem?_eq_some_iff.mp hb).1
        rw [List.length_singleton] at hlast
        obtain rfl : i = path.reverse.length := by omega
        rw [Nat.sub_self] at hb
        rw [Function.update_self]
        exact Option.some.inj hb }

/-- **One call** hands out the next word and leaves the others, or ends. -/
theorem iterLoop_spec {fuel : ℕ} {it : DlIter C} {n : ℕ} {path : List UInt8}
    (h : Tracks src it n path) (hwork : src.net.work n (src.stack it.frames) ≤ fuel) :
    (∃ it', src.net.todo n path (src.stack it.frames) = [] ∧
        iterLoop fuel it = .ok (none, it') ∧ it'.exhausted = true) ∨
      ∃ w ws buf it', src.net.todo n path (src.stack it.frames) = w :: ws ∧
        iterLoop fuel it =
          .ok (some (it.leading ++ readColsBe buf (it.arity - it.leading.length)), it') ∧
        (∀ i b, w[i]? = some b → buf i = b) ∧ it'.leading = it.leading ∧
        it'.arity = it.arity ∧ Ready src fuel it' ws := by
  induction fuel generalizing it n path with
  | zero =>
    have hdepth := h.depth
    cases hf : it.frames with
    | nil =>
      rw [hf, List.length_nil] at hdepth
      omega
    | cons f fs =>
      rw [hf] at hwork
      cases n <;> simp [Source.stack, Net.work] at hwork
  | succ fuel ih =>
    have hdepth := h.depth
    have htotal := h.total
    cases hf : it.frames with
    | nil =>
      rw [hf, List.length_nil] at hdepth
      omega
    | cons f fs =>
      obtain ⟨state, place⟩ := f
      have hlive := h.live
      have hshort := h.short
      have harity := src.arity_le
      rw [hf] at hlive hwork hdepth
      have hstate : it.engine.isFinal state = src.net.final state := by
        rw [h.engine, src.reads.isFinal]
        rfl
      unfold iterLoop
      rw [hf]
      dsimp only
      cases n with
      | zero =>
        -- a whole key: hand it out
        have hle : src.net.work 1 (src.stack fs) ≤ fuel + 1 :=
          (Net.work_final _ _).le.trans hwork
        rw [hstate, if_pos hlive.1]
        exact .inr ⟨path.reverse, _, it.buf, it.popTo fs, rfl, rfl, h.bytes, rfl, rfl,
          (h.pop hf hlive.2 hle).1⟩
      | succ n =>
        have hnot : ¬ src.net.final state = true := Bool.eq_false_iff.mp hlive.1
        have hroom : ¬ dlIterMaxFrames ≤ ((state, place) :: fs).length := by
          rw [← hdepth]
          unfold dlIterMaxFrames
          omega
        rw [hstate, if_neg hnot, if_neg hroom]
        rcases src.reads.next state place with ⟨hnone, hrest⟩ | ⟨e, place', hsome, hrest⟩
        · -- no more edges
          have hold : src.stack ((state, place) :: fs) = (state, []) :: src.stack fs := by
            rw [Source.stack, List.map_cons, hrest]
            rfl
          rw [hold] at hwork
          have hless := Net.work_pop n state (src.stack fs) (G := src.net)
          obtain ⟨-, hpop⟩ := h.pop hf hlive.2.2 (Nat.le_of_lt_succ (hless.trans_le hwork))
          rw [h.engine, hnone, hold, Net.todo_pop]
          dsimp only
          by_cases hfs : fs = []
          · subst hfs
            rw [if_pos rfl]
            exact .inl ⟨_, rfl, rfl, rfl⟩
          · rw [if_neg hfs]
            rcases ih (hpop hfs) (Nat.le_of_lt_succ (hless.trans_le hwork)) with
              ⟨it', htodo, hrun, hex⟩ | ⟨w, ws, buf, it', htodo, hrun, hbuf, hl, ha, hready⟩
            · exact .inl ⟨it', htodo, hrun, hex⟩
            · exact .inr ⟨w, ws, buf, it', htodo, hrun, hbuf, hl, ha,
                hready.mono (Nat.le_succ fuel)⟩
        · -- down an edge
          obtain ⟨hnew, hold, htracks⟩ := h.push hf hrest rfl
          rw [hf] at hold
          rw [hold] at hwork
          have hless := Net.work_push n state e (src.rest state place') (src.stack fs)
            (G := src.net)
          rw [h.engine, hsome, hold, Net.todo_push]
          dsimp only
          have hgo := ih htracks (by rw [hnew]; exact Nat.le_of_lt_succ (hless.trans_le hwork))
          rw [hnew, h.engine, hf] at hgo
          rcases hgo with
              ⟨it', htodo, hrun, hex⟩ | ⟨w, ws, buf, it', htodo, hrun, hbuf, hl, ha, hready⟩
          · exact .inl ⟨it', htodo, hrun, hex⟩
          · exact .inr ⟨w, ws, buf, it', htodo, hrun, hbuf, hl, ha,
              hready.mono (Nat.le_succ fuel)⟩

/-! ## All calls -/

theorem dlIterNext_of_exhausted {fuel : ℕ} {it : DlIter C} (h : it.exhausted = true) :
    dlIterNext fuel it = .ok (none, it) := by
  rw [dlIterNext, if_pos h]

theorem yields_nil {fuel : ℕ} {it it' : DlIter C} (h : dlIterNext fuel it = .ok (none, it'))
    (hex : it'.exhausted = true) : Yields (dlIterNext fuel) [] it :=
  ⟨it', h, dlIterNext_of_exhausted hex⟩

/-- **The calls** hand out the tuples of the words that are left. -/
theorem yields_of_ready {fuel : ℕ} {it : DlIter C} {tails : List Row}
    (h : Ready src fuel it (tails.map encodeRow)) (harity : it.arity = src.arity)
    (hlen : ∀ s ∈ tails, s.length = src.arity - it.leading.length) :
    Yields (dlIterNext fuel) (tails.map (it.leading ++ ·)) it := by
  induction tails generalizing it with
  | nil =>
    rcases h with ⟨hex, -⟩ | ⟨n, path, ht, htodo, hwork⟩
    · exact yields_nil (dlIterNext_of_exhausted hex) hex
    · have hnext : dlIterNext fuel it = iterLoop fuel it := by
        rw [dlIterNext, ht.positioned]
        rfl
      rcases iterLoop_spec ht hwork with ⟨it', -, hrun, hex⟩ | ⟨w, ws, buf, it', hw, -⟩
      · exact yields_nil (hnext.trans hrun) hex
      · rw [htodo] at hw
        cases hw
  | cons s tails ih =>
    rcases h with ⟨-, hnil⟩ | ⟨n, path, ht, htodo, hwork⟩
    · cases hnil
    · have hnext : dlIterNext fuel it = iterLoop fuel it := by
        rw [dlIterNext, ht.positioned]
        rfl
      rcases iterLoop_spec ht hwork with
        ⟨it', hnil, -⟩ | ⟨w, ws, buf, it', hw, hrun, hbuf, hl, ha, hready⟩
      · rw [htodo] at hnil
        cases hnil
      · rw [htodo, List.map_cons, List.cons.injEq] at hw
        obtain ⟨rfl, rfl⟩ := hw
        have hcols : readColsBe buf (it.arity - it.leading.length) = s := by
          rw [harity, ← hlen s List.mem_cons_self]
          refine readColsBe_eq fun i b hb => hbuf i b ?_
          rw [encodeRow, List.getElem?_append_left (List.getElem?_eq_some_iff.mp hb).1, hb]
        have hrest := ih hready (ha.trans harity) fun s' hs' => by
          rw [hl]
          exact hlen s' (List.mem_cons_of_mem s hs')
        rw [hl] at hrest
        rw [hcols] at hrun
        exact ⟨it', hnext.trans hrun, hrest⟩

/-! ## Opening and seeking -/

theorem foldlM_find (src : Source C) (w : List UInt8) (q : ℕ) :
    w.foldlM (fun q b => src.engine.find q b) q = src.auto.run q w := by
  induction w generalizing q with
  | nil => rfl
  | cons b w ih =>
    rw [List.foldlM_cons, Auto.run, src.reads.find]
    cases (src.auto.edges q).lookup b with
    | none => rfl
    | some t => exact ih t

theorem flatMap_colBe_injective {r r' : Row} (h : r.flatMap colBe = r'.flatMap colBe) : r = r' := by
  induction r generalizing r' with
  | nil =>
    have hl := congrArg List.length h
    rw [length_flatMap_colBe, length_flatMap_colBe, List.length_nil] at hl
    exact (List.length_eq_zero_iff.mp (by omega)).symm
  | cons v r ih =>
    cases r' with
    | nil => cases h
    | cons v' r' =>
      rw [List.flatMap_cons, List.flatMap_cons] at h
      obtain ⟨hv, hr⟩ := List.append_inj h rfl
      have hcol : v = v' := by
        rw [← readCol_colBe v, ← readCol_colBe v']
        simp only [colBe, List.cons.injEq] at hv
        rw [hv.1, hv.2.1, hv.2.2.1, hv.2.2.2.1]
      rw [hcol, ih hr]

/-- The keys that start with the bytes of some columns. -/
theorem encodeRow_eq_append_iff {r p : Row} {v : List UInt8} (hle : p.length ≤ r.length) :
    encodeRow r = p.flatMap colBe ++ v ↔ ∃ s, r = p ++ s ∧ v = encodeRow s := by
  constructor
  · intro h
    have hr := List.take_append_drop p.length r
    rw [← hr, encodeRow_append] at h
    obtain ⟨hp, hv⟩ := List.append_inj h (by simp [hle])
    rw [flatMap_colBe_injective hp] at hr
    exact ⟨r.drop p.length, hr.symm, hv.symm⟩
  · rintro ⟨s, rfl, rfl⟩
    exact encodeRow_append p s

/-- A list of values of a function is the image of a list. -/
theorem exists_map_eq {α β : Type} {f : α → β} {P : α → Prop} {l : List β}
    (h : ∀ b ∈ l, ∃ a, P a ∧ b = f a) : ∃ as : List α, l = as.map f ∧ ∀ a ∈ as, P a := by
  induction l with
  | nil => exact ⟨[], rfl, fun a ha => absurd ha List.not_mem_nil⟩
  | cons b l ih =>
    obtain ⟨a, ha, rfl⟩ := h b List.mem_cons_self
    obtain ⟨as, rfl, has⟩ := ih fun b' hb' => h b' (List.mem_cons_of_mem _ hb')
    refine ⟨a :: as, rfl, fun a' ha' => ?_⟩
    rcases List.mem_cons.mp ha' with rfl | ha'
    · exact ha
    · exact has a' ha'

/-- An iterator on a source that was opened with some leading columns, or sought to
them. -/
def Opened (src : Source C) (p : Row) (it : DlIter C) : Prop :=
  dlIterOpen src.engine src.arity p = some it ∨
    ∃ old : DlIter C, old.engine = src.engine ∧ old.arity = src.arity ∧ dlIterSeek old p = some it

/-- Opening succeeds when there are not more leading columns than columns. -/
theorem isSome_dlIterOpen (E : Engine C) (arity : ℕ) (p : Row) :
    (dlIterOpen E arity p).isSome ↔ p.length ≤ arity := by
  unfold dlIterOpen
  split <;> simp <;> omega

/-- And so does a seek. -/
theorem isSome_dlIterSeek (it : DlIter C) (p : Row) :
    (dlIterSeek it p).isSome ↔ p.length ≤ it.arity := by
  unfold dlIterSeek
  split <;> simp <;> omega

/-- What opening and seeking leave. -/
theorem Opened.eq_reset {p : Row} {it : DlIter C} (h : Opened src p it) :
    p.length ≤ src.arity ∧ ∃ start : DlIter C, start.engine = src.engine ∧
      start.arity = src.arity ∧ start.leading = p ∧
      it = iterResetStack start (src.auto.run src.auto.initial (p.flatMap colBe)) := by
  have hwalk : iterWalkPrefix src.engine p =
      src.auto.run src.auto.initial (p.flatMap colBe) := by
    rw [iterWalkPrefix, foldlM_find, src.reads.initial]
  rcases h with h | ⟨old, hengine, harity, h⟩
  · unfold dlIterOpen at h
    split at h
    · cases h
    · rename_i hle
      cases h
      exact ⟨by omega, _, rfl, rfl, rfl, by rw [hwalk]⟩
  · unfold dlIterSeek at h
    split at h
    · cases h
    · rename_i hle
      cases h
      exact ⟨by omega, { old with leading := p }, hengine, harity, rfl, by rw [hengine, hwalk]⟩

/-- **The tuples of an iterator.**  After opening or seeking, the calls hand out the
tuples with the leading columns, in ascending order. -/
theorem yields_of_opened {p : Row} {it : DlIter C} (h : Opened src p it) :
    ∃ rows : List Row, rows.Pairwise RowBefore ∧ (∀ r, r ∈ rows ↔ r ∈ src.rows ∧ p <+: r) ∧
      ∃ N, ∀ fuel ≥ N, Yields (dlIterNext fuel) rows it := by
  obtain ⟨hle, start, hengine, harity, hlead, rfl⟩ := h.eq_reset
  cases hrun : src.auto.run src.auto.initial (p.flatMap colBe) with
  | none =>
    refine ⟨[], .nil, fun r => ⟨fun hr => absurd hr List.not_mem_nil, ?_⟩, 0, fun fuel _ =>
      yields_nil (dlIterNext_of_exhausted rfl) rfl⟩
    rintro ⟨hr, s, rfl⟩
    obtain ⟨q, hq, -⟩ := (src.accepts_iff _).mpr ⟨p ++ s, hr, rfl⟩
    rw [encodeRow_append, Auto.run_append, hrun] at hq
    cases hq
  | some root =>
    have hbytes : (p.flatMap colBe).length + (4 * (src.arity - p.length) + 1) = 4 * src.arity + 1 := by
      rw [length_flatMap_colBe]
      omega
    have hmem : ∀ v, v ∈ src.net.words (4 * (src.arity - p.length) + 1) root ↔
        ∃ r ∈ src.rows, encodeRow r = p.flatMap colBe ++ v :=
      fun v => src.mem_words hrun hbytes fun h => absurd h (Nat.succ_ne_zero _)
    have hsplit : ∀ r ∈ src.rows, ∀ v, encodeRow r = p.flatMap colBe ++ v ↔
        ∃ s, r = p ++ s ∧ v = encodeRow s := fun r hr v =>
      encodeRow_eq_append_iff (by rw [src.wide r hr]; exact hle)
    obtain ⟨tails, htails, hlen⟩ := exists_map_eq (f := encodeRow)
      (P := fun s => p ++ s ∈ src.rows)
      (l := src.net.words (4 * (src.arity - p.length) + 1) root) fun v hv => by
        obtain ⟨r, hr, heq⟩ := (hmem v).mp hv
        obtain ⟨s, rfl, rfl⟩ := (hsplit r hr v).mp heq
        exact ⟨s, hr, rfl⟩
    have hwide : ∀ s ∈ tails, s.length = src.arity - p.length := fun s hs => by
      have := src.wide _ (hlen s hs)
      rw [List.length_append] at this
      omega
    refine ⟨tails.map (p ++ ·), ?_, fun r => ?_,
      src.net.work (4 * (src.arity - p.length) + 1) [(root, src.net.edges root)], fun fuel hfuel => ?_⟩
    · have hsorted := Net.sorted_words src.sorted (G := src.net)
        (4 * (src.arity - p.length) + 1) root
      rw [htails, List.pairwise_map] at hsorted
      refine List.pairwise_map.mpr (hsorted.imp_of_mem fun {a b} ha hb hab => ?_)
      have hlt := rowLt_of_lex ((hwide a ha).trans (hwide b hb).symm) hab
      rwa [RowBefore, rowLt_append]
    · rw [List.mem_map]
      constructor
      · rintro ⟨s, hs, rfl⟩
        exact ⟨hlen s hs, List.prefix_append p s⟩
      · rintro ⟨hr, s, rfl⟩
        have hin : encodeRow s ∈ tails.map encodeRow := by
          rw [← htails, hmem]
          exact ⟨p ++ s, hr, encodeRow_append p s⟩
        obtain ⟨s', hs', heq⟩ := List.mem_map.mp hin
        have hss : s' = s := flatMap_colBe_injective (List.append_cancel_right heq)
        exact ⟨s, hss ▸ hs', rfl⟩
    · have hstack : src.stack [(root, start.engine.first root)] = [(root, src.net.edges root)] := by
        rw [Source.stack, List.map_singleton, hengine, src.reads.first]
        rfl
      have hready : Ready src fuel (iterResetStack start (some root)) (tails.map encodeRow) := by
        refine .inr ⟨4 * (src.arity - p.length) + 1, [], ?_, ?_, ?_⟩
        · exact {
            engine := hengine
            arity := harity
            short := hlead ▸ hle
            positioned := rfl
            live := by
              change src.net.Live _ (src.stack [(root, start.engine.first root)])
              rw [hstack]
              exact Net.live_start (src.exact_of_run hrun hbytes fun h =>
                absurd h (Nat.succ_ne_zero _)) trivial
            depth := rfl
            total := by
              change 0 + _ = 4 * (src.arity - start.leading.length) + 1
              rw [hlead, Nat.zero_add]
            bytes := fun i b hb => by cases hb }
        · change src.net.todo _ [] (src.stack [(root, start.engine.first root)]) = _
          rw [hstack, Net.todo_start, htails]
          simp [Net.todo]
        · change src.net.work _ (src.stack [(root, start.engine.first root)]) ≤ fuel
          rw [hstack]
          exact hfuel
      have hy := yields_of_ready hready harity (by
        change ∀ s ∈ tails, s.length = src.arity - start.leading.length
        rw [hlead]
        exact hwide)
      change Yields (dlIterNext fuel) (tails.map (start.leading ++ ·)) _ at hy
      rwa [hlead] at hy

end DatalogDafsa.Iter
