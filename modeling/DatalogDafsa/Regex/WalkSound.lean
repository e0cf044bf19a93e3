import DatalogDafsa.Regex.PathSet
import DatalogDafsa.Regex.KeyAuto

/-!
# The walk and the scan find the same symbols

The loop of the walk is followed frame by frame: from a frame that was not entered it comes
to the rest of the stack, with the symbols below the word of the frame handed on.  No word
is entered twice, and a state is behind one word, so no pair is on the path when it is
entered, whatever else the table of the path still holds.

## Main definitions

* `Reaches` — rounds of the loop.
* `At`, `PathOf` — a frame at a word, and a path of words that were entered.
* `reaches_subtree` — what the loop does with a frame.
* `symbolsDfaWalk_scan` — the walk and the scan.
-/

namespace DatalogDafsa.Regex

open Intern

variable {A : Auto} {d : Dfa} {keys : Finset Key} {rev : List Str}

/-! ## Rounds -/

/-- The loop comes from one state to another. -/
def Reaches (A : Auto) (d : Dfa) (st st' : WalkSt) : Prop :=
  ∃ n, ∀ fuel, walkLoop A d (fuel + n) st = walkLoop A d fuel st'

theorem Reaches.trans {st₁ st₂ st₃ : WalkSt} (h : Reaches A d st₁ st₂) (h' : Reaches A d st₂ st₃) :
    Reaches A d st₁ st₃ := by
  obtain ⟨n, hn⟩ := h
  obtain ⟨m, hm⟩ := h'
  refine ⟨m + n, fun fuel => ?_⟩
  rw [← Nat.add_assoc, hn, hm]

theorem reaches_step {st st' : WalkSt} (hne : st.stack ≠ []) (h : walkStep A d st = some st') :
    Reaches A d st st' := by
  refine ⟨1, fun fuel => ?_⟩
  rw [walkLoop, if_neg hne, h]

/-- Only what a round makes of a state matters. -/
theorem Reaches.congr {st₁ st₂ st : WalkSt} (h : Reaches A d st₂ st) (h₁ : st₁.stack ≠ [])
    (h₂ : st₂.stack ≠ []) (heq : walkStep A d st₁ = walkStep A d st₂) : Reaches A d st₁ st := by
  obtain ⟨n, hn⟩ := h
  refine ⟨n, fun fuel => ?_⟩
  rw [← hn]
  cases fuel + n with
  | zero => rfl
  | succ k => rw [walkLoop, walkLoop, if_neg h₁, if_neg h₂, heq]

/-- A loop that comes to an empty stack ends. -/
theorem Reaches.ends {st st' : WalkSt} (h : Reaches A d st st') (hnil : st'.stack = []) :
    ∃ n, ∀ fuel ≥ n, walkLoop A d fuel st = some st' := by
  obtain ⟨n, hn⟩ := h
  refine ⟨n + 1, fun fuel hfuel => ?_⟩
  obtain ⟨k, rfl⟩ := Nat.exists_eq_add_of_le hfuel
  have hk := hn (k + 1)
  rw [walkLoop, if_pos hnil] at hk
  rw [← hk]
  congr 1
  omega

/-! ## Frames and paths -/

/-- A frame is at a word. -/
structure At (A : Auto) (d : Dfa) (w : List UInt8) (f : SpFrame) : Prop where
  /-- The word has no zero byte. -/
  noZero : 0 ∉ w
  /-- The word is not longer than can be. -/
  short : w.length < maxWordLen
  /-- The state of the automaton of the keys. -/
  run : A.run A.initial w = some f.dstate
  /-- The state of the automaton that matches. -/
  walk : d.walk 0 w = some f.rstate
  /-- How deep. -/
  depth : f.depth = w.length

/-- The path holds only pairs of words that were entered. -/
structure PathOf (A : Auto) (entered : Set (List UInt8)) (vs : VisitedSet) : Prop where
  /-- There is room. -/
  ok : vs.Ok
  /-- The pairs. -/
  words : ∀ k ∈ vs.content, ∃ w ∈ entered, 0 ∉ w ∧ A.run A.initial w = some (k / 2 ^ 32)

theorem PathOf.mono {E E' : Set (List UInt8)} {vs : VisitedSet} (h : PathOf A E vs)
    (hsub : E ⊆ E') : PathOf A E' vs := by
  refine ⟨h.ok, fun k hk => ?_⟩
  obtain ⟨w, hw, hrest⟩ := h.words k hk
  exact ⟨w, hsub hw, hrest⟩

theorem SpFrame.vkey_div (f : SpFrame) : f.vkey / 2 ^ 32 = f.dstate := by
  unfold SpFrame.vkey
  omega

/-- The symbols below a word. -/
def Below (rev : List Str) (d : Dfa) (w : List UInt8) (id : ℕ) : Prop :=
  ∃ (i : ℕ) (x : List UInt8), id = i + 1 ∧ rev[i]? = some (w ++ x) ∧ d.accepts (w ++ x) = true

theorem walk_append (d : Dfa) (q : ℕ) (u v : List UInt8) :
    d.walk q (u ++ v) = (d.walk q u).bind fun t => d.walk t v := by
  induction u generalizing q with
  | nil => rfl
  | cons b u ih =>
    rw [List.cons_append, Dfa.walk, Dfa.walk]
    split
    · rfl
    · exact ih _

theorem At.accepts {w : List UInt8} {f : SpFrame} (h : At A d w f) :
    d.accepts w = d.accept.getD f.rstate false := by
  unfold Dfa.accepts
  rw [h.walk]

/-- **Entering a frame** hands on the symbol whose name is the word of the frame. -/
theorem mem_enterFrame (hA : A.Stores keys) (hk : KeysOf rev keys) (hn : NameTable rev)
    {w : List UInt8} {f : SpFrame} (h : At A d w f) (id : ℕ) :
    id ∈ enterFrame A d f ↔ ∃ i : ℕ, id = i + 1 ∧ rev[i]? = some w ∧ d.accepts w = true := by
  obtain ⟨hread, hname⟩ := hA.readSymId hk hn h.run h.noZero
  unfold enterFrame
  rw [List.mem_filterMap, h.accepts]
  constructor
  · rintro ⟨⟨b, t⟩, hmem, hsome⟩
    dsimp only at hsome
    split at hsome
    · rename_i hcond
      obtain ⟨rfl, hacc⟩ := hcond
      obtain ⟨i, hi, hid⟩ := hread t hmem
      rw [hid, Option.some.injEq] at hsome
      exact ⟨i, hsome.symm, hi, hacc⟩
    · cases hsome
  · rintro ⟨i, rfl, hi, hacc⟩
    obtain ⟨t, ht⟩ := hname i hi
    obtain ⟨j, hj, hid⟩ := hread t ht
    obtain ⟨hlt, hget⟩ := List.getElem?_eq_some_iff.mp hi
    obtain ⟨hlt', hget'⟩ := List.getElem?_eq_some_iff.mp hj
    obtain rfl := (hn.nodup.getElem_inj_iff).mp (hget.trans hget'.symm)
    refine ⟨(0, t), ht, ?_⟩
    rw [if_pos ⟨rfl, hacc⟩, hid]

/-- **A frame whose word was not entered** is not on the path. -/
theorem walkStep_enter (hA : A.Stores keys) (hk : KeysOf rev keys) (hn : NameTable rev)
    {w : List UInt8} {f : SpFrame} (h : At A d w f) (hent : f.entered = false)
    {E : Set (List UInt8)} {vs : VisitedSet} (hpath : PathOf A E vs) (hnew : w ∉ E)
    (rest : List SpFrame) (out : List ℕ) :
    ∃ vs', walkStep A d ⟨f :: rest, vs, out⟩ =
        some ⟨{ f with entered := true } :: rest, vs', out ++ enterFrame A d f⟩ ∧
      PathOf A (insert w E) vs' := by
  have hfresh : f.vkey ∉ vs.content := by
    intro hmem
    obtain ⟨u, hu, hzero, hrun⟩ := hpath.words _ hmem
    rw [f.vkey_div] at hrun
    exact hnew (hA.word_unique hk hn hrun h.run hzero h.noZero ▸ hu)
  obtain ⟨vs', hins, hok, hsub⟩ := vsTryInsert_spec hpath.ok hfresh
  refine ⟨vs', ?_, hok, fun k hmem => ?_⟩
  · unfold walkStep
    dsimp only
    rw [if_pos hent, hins]
  · rcases hsub hmem with rfl | hold
    · exact ⟨w, Set.mem_insert .., h.noZero, by rw [f.vkey_div]; exact h.run⟩
    · obtain ⟨u, hu, hrest⟩ := hpath.words k hold
      exact ⟨u, Set.mem_insert_of_mem _ hu, hrest⟩

/-- A frame behind a transition. -/
theorem At.child (hA : A.Stores keys) (hk : KeysOf rev keys) (hn : NameTable rev)
    {w : List UInt8} {f : SpFrame} (h : At A d w f) {b : UInt8} {t : ℕ}
    (hmem : (b, t) ∈ A.edges f.dstate) (hb : b ≠ 0) (hlive : d.next f.rstate b ≠ dfaDead) :
    At A d (w ++ [b]) ⟨t, d.next f.rstate b, f.depth + 1, 0, false⟩ where
  noZero := by
    rw [List.mem_append, List.mem_singleton, not_or]
    exact ⟨h.noZero, hb.symm⟩
  short := by
    rw [List.length_append, List.length_singleton]
    exact hA.length_lt hk hn h.run h.noZero hb hmem
  run := hA.run_snoc h.run hmem
  walk := by
    rw [walk_append, h.walk, Option.bind_some, Dfa.walk, if_neg hlive]
    rfl
  depth := by
    rw [List.length_append, List.length_singleton, ← h.depth]

/-- Behind a dead transition nothing is accepted. -/
theorem At.dead {w : List UInt8} {f : SpFrame} (h : At A d w f) {b : UInt8}
    (hdead : d.next f.rstate b = dfaDead) (x : List UInt8) : d.accepts (w ++ b :: x) = false := by
  unfold Dfa.accepts
  rw [walk_append, h.walk, Option.bind_some, Dfa.walk, if_pos hdead]

/-! ## The loop -/

/-- The words below a word. -/
def subtree (w : List UInt8) : Set (List UInt8) := {v | ∃ x, v = w ++ x}

/-- What the loop does with a frame at `w` that was not entered. -/
def HandsOn (A : Auto) (d : Dfa) (rev : List Str) (w : List UInt8) : Prop :=
  ∀ (f : SpFrame) (rest : List SpFrame) (vs : VisitedSet) (out : List ℕ) (E : Set (List UInt8)),
    At A d w f → f.entered = false → f.j = 0 → PathOf A E vs → (∀ x, w ++ x ∉ E) →
    ∃ vs' ids, Reaches A d ⟨f :: rest, vs, out⟩ ⟨rest, vs', out ++ ids⟩ ∧
      PathOf A (E ∪ subtree w) vs' ∧ ∀ id, id ∈ ids ↔ Below rev d w id

/-- **The transitions of a frame** are taken one after another. -/
theorem reaches_children (hA : A.Stores keys) (hk : KeysOf rev keys) (hn : NameTable rev)
    {w : List UInt8} (hchild : ∀ b, HandsOn A d rev (w ++ [b])) (rest : List SpFrame)
    (es : List (UInt8 × ℕ)) :
    ∀ (before : List (UInt8 × ℕ)) (f : SpFrame) (vs : VisitedSet) (out : List ℕ)
      (E : Set (List UInt8)), A.edges f.dstate = before ++ es → f.j = before.length →
      f.entered = true → At A d w f → PathOf A E vs → (∀ e ∈ es, ∀ x, w ++ e.1 :: x ∉ E) →
      ∃ vs' ids, Reaches A d ⟨f :: rest, vs, out⟩ ⟨rest, vs', out ++ ids⟩ ∧
        PathOf A (E ∪ subtree w) vs' ∧
        ∀ id, id ∈ ids ↔ ∃ e ∈ es, e.1 ≠ 0 ∧ Below rev d (w ++ [e.1]) id := by
  induction es with
  | nil =>
    intro before f vs out E hedges hj hent hat hpath hfresh
    obtain ⟨vs', hrem, hok, hsub⟩ := vsRemove_spec hpath.ok f.vkey
    refine ⟨vs', [], reaches_step (by simp) ?_, ⟨hok, fun k hmem => ?_⟩, by simp⟩
    · have hdrop : (A.edges f.dstate).drop f.j = [] := by
        rw [hedges, hj, List.append_nil, List.drop_length]
      unfold walkStep
      dsimp only
      rw [if_neg (by rw [hent]; decide), hdrop, nextChild, hrem, List.append_nil]
      rfl
    · obtain ⟨u, hu, hrest⟩ := hpath.words k (hsub hmem)
      exact ⟨u, .inl hu, hrest⟩
  | cons e es ih =>
    intro before f vs out E hedges hj hent hat hpath hfresh
    obtain ⟨b, t⟩ := e
    have hdrop : (A.edges f.dstate).drop f.j = (b, t) :: es := by
      rw [hedges, hj, List.drop_left]
    have hdrop' : (A.edges f.dstate).drop (f.j + 1) = es := by
      rw [← List.drop_drop, hdrop]
      rfl
    have hmem : (b, t) ∈ A.edges f.dstate := by
      rw [hedges]
      exact List.mem_append_right _ (List.mem_cons_self ..)
    have hedges' : A.edges f.dstate = (before ++ [(b, t)]) ++ es := by
      rw [hedges, List.append_assoc]
      rfl
    have hj' : f.j + 1 = (before ++ [(b, t)]).length := by
      rw [hj, List.length_append, List.length_singleton]
    have hat' : At A d w { f with j := f.j + 1 } := ⟨hat.noZero, hat.short, hat.run, hat.walk, hat.depth⟩
    -- the transitions behind are on other bytes
    have hother : ∀ e ∈ es, e.1 ≠ b := by
      intro e he heq
      have hdet := hA.det f.dstate
      rw [hedges, List.map_append, List.map_cons, List.nodup_append] at hdet
      exact (List.nodup_cons.mp hdet.2.1).1 (List.mem_map.mpr ⟨e, he, heq⟩)
    by_cases hskip : b = 0 ∨ d.next f.rstate b = dfaDead ∨ maxWordLen ≤ f.depth + 1
    · -- the transition is passed over in the round that looks at the next one
      obtain ⟨vs', ids, hreach, hpath', hids⟩ := ih (before ++ [(b, t)]) { f with j := f.j + 1 }
        vs out E hedges' hj' hent hat' hpath fun e he => hfresh e (List.mem_cons_of_mem _ he)
      refine ⟨vs', ids, hreach.congr (by simp) (by simp) ?_, hpath', fun id => ?_⟩
      · unfold walkStep
        dsimp only
        rw [hdrop, hdrop', nextChild, if_pos hskip, if_neg (by rw [hent]; decide),
          if_neg (by rw [hent]; decide)]
        rfl
      · rw [hids]
        constructor
        · rintro ⟨e, he, hrest⟩
          exact ⟨e, List.mem_cons_of_mem _ he, hrest⟩
        · rintro ⟨e, he, hne, hbelow⟩
          rcases List.mem_cons.mp he with rfl | he
          · obtain ⟨i, x, -, -, hacc⟩ := hbelow
            rw [List.append_assoc] at hacc
            rcases hskip with rfl | hdead | hdeep
            · exact absurd rfl hne
            · exact absurd (hacc.symm.trans (hat.dead hdead x)) (by decide)
            · have := hA.length_lt hk hn hat.run hat.noZero hne hmem
              rw [hat.depth] at hdeep
              omega
          · exact ⟨e, he, hne, hbelow⟩
    · rw [not_or, not_or] at hskip
      obtain ⟨hb, hlive, hdeep⟩ := hskip
      have hpush : Reaches A d ⟨f :: rest, vs, out⟩
          ⟨⟨t, d.next f.rstate b, f.depth + 1, 0, false⟩ :: { f with j := f.j + 1 } :: rest,
            vs, out⟩ := by
        refine reaches_step (by simp) ?_
        unfold walkStep
        dsimp only
        rw [if_neg (by rw [hent]; decide), hdrop, nextChild,
          if_neg (by rw [not_or, not_or]; exact ⟨hb, hlive, hdeep⟩)]
      obtain ⟨vs₁, ids₁, hreach₁, hpath₁, hids₁⟩ := hchild b
        ⟨t, d.next f.rstate b, f.depth + 1, 0, false⟩ ({ f with j := f.j + 1 } :: rest) vs out E
        (hat.child hA hk hn hmem hb hlive) rfl rfl hpath fun x => by
          rw [List.append_assoc]
          exact hfresh _ (List.mem_cons_self ..) x
      obtain ⟨vs₂, ids₂, hreach₂, hpath₂, hids₂⟩ := ih (before ++ [(b, t)])
        { f with j := f.j + 1 } vs₁ (out ++ ids₁) (E ∪ subtree (w ++ [b])) hedges' hj' hent hat'
        hpath₁ fun e he x hx => by
          rcases hx with hx | ⟨y, hy⟩
          · exact hfresh e (List.mem_cons_of_mem _ he) x hx
          · rw [List.append_assoc] at hy
            exact hother e he (List.head_eq_of_cons_eq (List.append_cancel_left hy))
      refine ⟨vs₂, ids₁ ++ ids₂, ?_, hpath₂.mono ?_, fun id => ?_⟩
      · rw [← List.append_assoc]
        exact hpush.trans (hreach₁.trans hreach₂)
      · rintro v ((hv | ⟨x, rfl⟩) | hv)
        · exact .inl hv
        · exact .inr ⟨b :: x, by rw [List.append_assoc]; rfl⟩
        · exact .inr hv
      · rw [List.mem_append, hids₁, hids₂]
        constructor
        · rintro (hbelow | ⟨e, he, hrest⟩)
          · exact ⟨(b, t), List.mem_cons_self .., hb, hbelow⟩
          · exact ⟨e, List.mem_cons_of_mem _ he, hrest⟩
        · rintro ⟨e, he, hne, hbelow⟩
          rcases List.mem_cons.mp he with rfl | he
          · exact .inl hbelow
          · exact .inr ⟨e, he, hne, hbelow⟩

/-- **A frame hands on the symbols below its word.** -/
theorem reaches_subtree (hA : A.Stores keys) (hk : KeysOf rev keys) (hn : NameTable rev)
    (n : ℕ) (w : List UInt8) (hw : maxWordLen ≤ w.length + n) : HandsOn A d rev w := by
  induction n generalizing w with
  | zero =>
    intro f rest vs out E hat
    have := hat.short
    omega
  | succ n ih =>
    intro f rest vs out E hat hent hj hpath hfresh
    have hw' : w ∉ E := by
      have := hfresh []
      rwa [List.append_nil] at this
    obtain ⟨vs₁, henter, hpath₁⟩ := walkStep_enter hA hk hn hat hent hpath hw' rest out
    have hat₁ : At A d w { f with entered := true } :=
      ⟨hat.noZero, hat.short, hat.run, hat.walk, hat.depth⟩
    have hchild : ∀ b, HandsOn A d rev (w ++ [b]) := fun b => ih _ (by
      rw [List.length_append, List.length_singleton]
      omega)
    obtain ⟨vs₂, ids, hreach, hpath₂, hids⟩ := reaches_children hA hk hn hchild rest
      (A.edges f.dstate) [] { f with entered := true } vs₁ (out ++ enterFrame A d f)
      (insert w E) rfl hj rfl hat₁ hpath₁ fun e _ x hx => by
        rcases hx with hx | hx
        · have := congrArg List.length hx
          simp at this
        · exact hfresh _ hx
    refine ⟨vs₂, enterFrame A d f ++ ids, ?_, hpath₂.mono ?_, fun id => ?_⟩
    · rw [← List.append_assoc]
      exact (reaches_step (by simp) henter).trans hreach
    · rintro v ((rfl | hv) | hv)
      · exact .inr ⟨[], (List.append_nil _).symm⟩
      · exact .inl hv
      · exact .inr hv
    · rw [List.mem_append, hids, mem_enterFrame hA hk hn hat]
      constructor
      · rintro (⟨i, hid, hi, hacc⟩ | ⟨e, -, -, i, x, hid, hi, hacc⟩)
        · exact ⟨i, [], hid, by rwa [List.append_nil], by rwa [List.append_nil]⟩
        · rw [List.append_assoc] at hi hacc
          exact ⟨i, _, hid, hi, hacc⟩
      · rintro ⟨i, x, hid, hi, hacc⟩
        cases x with
        | nil =>
          rw [List.append_nil] at hi hacc
          exact .inl ⟨i, hid, hi, hacc⟩
        | cons b x =>
          have hkey : w ++ (b :: x ++ 0 :: be32 (i + 1)) ∈ keys := by
            rw [← List.append_assoc]
            exact (hk _).mpr ⟨i, _, hi, rfl⟩
          obtain ⟨p, hp, -⟩ := (hA.mem_append hat.run).mp hkey
          rw [List.cons_append, Auto.run] at hp
          cases hl : (A.edges f.dstate).lookup b with
          | none => rw [hl] at hp; cases hp
          | some t =>
            have hzero := hn.noZero _ (List.mem_of_getElem? hi)
            refine .inr ⟨(b, t), mem_of_lookup_eq_some hl, ?_, i, x, hid, ?_, ?_⟩
            · rintro rfl
              exact hzero (List.mem_append_right _ (List.mem_cons_self ..))
            · rwa [List.append_assoc]
            · rwa [List.append_assoc]

/-! ## The two ways -/

/-- **The scan finds the symbols whose names are accepted, each once, and the walk finds the
same symbols.** -/
theorem symbolsDfaWalk_scan {enum : Enum} {s : Interner} {wantMutable : Bool}
    (henum : Enumerates enum) (hs : Numbered enum s) (hd : Compiled d)
    (hkeys : (ensureFwd s wantMutable).fwd = some keys) (hA : A.Stores keys) :
    (∀ id, id ∈ symbolsScanTable d s (liveSymBound s) ↔
      ∃ name, internStrOf s id = some name ∧ d.accepts name = true) ∧
    (symbolsScanTable d s (liveSymBound s)).Nodup ∧
    ∃ ids, (∃ n, ∀ fuel ≥ n, symbolsDfaWalk A d fuel = some ids) ∧
      ∀ id, id ∈ ids ↔ id ∈ symbolsScanTable d s (liveSymBound s) := by
  have htable := hs.tableOk henum
  have hwf := hd.wellFormed
  obtain ⟨hscan, hnodup⟩ := mem_symbolsScanTable htable hwf
  refine ⟨hscan, hnodup, ?_⟩
  have hk := (htable.build wantMutable).2 keys hkeys
  by_cases hzero : d.nStates = 0
  · refine ⟨[], ⟨0, fun fuel _ => ?_⟩, fun id => ?_⟩
    · rw [symbolsDfaWalk, if_pos hzero]
    · rw [symbolsScanTable, if_pos hzero]
  have hroot : At A d [] ⟨A.initial, 0, 0, 0, false⟩ :=
    ⟨List.not_mem_nil, by decide, rfl, rfl, rfl⟩
  have hpath : PathOf A ∅ vsInit := ⟨vsInit_ok, by simp [content_vsInit]⟩
  obtain ⟨vs, ids, hreach, -, hids⟩ := reaches_subtree hA hk htable.table maxWordLen [] (by simp)
    _ [] vsInit [] ∅ hroot rfl rfl hpath (by simp)
  obtain ⟨n, hn⟩ := hreach.ends rfl
  refine ⟨ids, ⟨n, fun fuel hfuel => ?_⟩, fun id => ?_⟩
  · rw [symbolsDfaWalk, if_neg hzero, hn fuel hfuel]
    rfl
  · rw [hids, hscan]
    constructor
    · rintro ⟨i, name, rfl, hi, hacc⟩
      exact ⟨name, by rw [internStrOf_room htable.room]; exact hi, hacc⟩
    · rintro ⟨name, hname, hacc⟩
      rw [internStrOf_room htable.room] at hname
      split at hname
      · cases hname
      · exact ⟨id - 1, name, by omega, hname, hacc⟩

/-! ## A table of three names -/

/-- A table with the names `ab`, `ac` and `b`. -/
def sampleTable : Interner :=
  [[97, 98], [97, 99], [98]].foldl
    (fun s name => ((internStr sortedEnum s name).map Prod.fst).getD s) internCreate

theorem numbered_sampleTable : Numbered sortedEnum sampleTable := by
  have h₁ := @Numbered.intern sortedEnum _ _ [97, 98] 1 .create (by decide) rfl
  have h₂ := @Numbered.intern sortedEnum _ _ [97, 99] 2 h₁ (by decide) rfl
  exact @Numbered.intern sortedEnum _ _ [98] 3 h₂ (by decide) rfl

/-- An automaton of their keys: the first two share what is read of their first letter, and all
three end in one state. -/
def sampleRows : List (List (UInt8 × ℕ) × Bool) :=
  [([(97, 1), (98, 12)], false), ([(98, 2), (99, 7)], false),
    ([(0, 3)], false), ([(0, 4)], false), ([(0, 5)], false), ([(0, 6)], false), ([(1, 17)], false),
    ([(0, 8)], false), ([(0, 9)], false), ([(0, 10)], false), ([(0, 11)], false),
    ([(2, 17)], false),
    ([(0, 13)], false), ([(0, 14)], false), ([(0, 15)], false), ([(0, 16)], false),
    ([(3, 17)], false), ([], true)]

theorem acyclic_sampleRows : Acyclic sampleRows where
  det := by decide
  up := by decide
  live := by decide +kernel
  small := by decide

/-- What is at most one edit from `ac`: the first two names, and not the third. -/
def sampleDfa : Dfa := (levCompile [97, 99] 1).toOption.getD ⟨0, [], []⟩

theorem compiled_sampleDfa : Compiled sampleDfa := by
  have hok : (levCompile [97, 99] 1).isOk = true := by decide +kernel
  refine .inr ⟨[97, 99], 1, ?_⟩
  unfold sampleDfa
  cases hd : levCompile [97, 99] 1 with
  | error e =>
    rw [hd] at hok
    cases hok
  | ok d => rfl

theorem symbolsDfaWalk_scan_sample :
    symbolsScanTable sampleDfa sampleTable (liveSymBound sampleTable) = [1, 2] ∧
    ∃ ids, (∃ n, ∀ fuel ≥ n,
        symbolsDfaWalk (tableAuto sampleRows) sampleDfa fuel = some ids) ∧
      ∀ id, id ∈ ids ↔ id ∈ symbolsScanTable sampleDfa sampleTable (liveSymBound sampleTable) := by
  have hkeys : (ensureFwd sampleTable false).fwd =
      some ((tableAuto sampleRows).tails sampleRows.length 0).toFinset := by
    decide +kernel
  have h := @symbolsDfaWalk_scan (tableAuto sampleRows) sampleDfa _ sortedEnum sampleTable false
    enumerates_sortedEnum numbered_sampleTable compiled_sampleDfa hkeys acyclic_sampleRows.stores
  exact ⟨by decide +kernel, h.2.2⟩

end DatalogDafsa.Regex
