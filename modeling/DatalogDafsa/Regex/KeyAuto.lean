import DatalogDafsa.Regex.Walk

/-!
# The automaton of the keys

The names of a table are distinct and so are their numbers, and a key ends with the number
of its name.  Two words without a zero byte that lead to one state have the same tails up
to keys; as the tail ends with the number, they are the same word.  This is what keeps a
walk over the automaton from meeting a state twice.

## Main definitions

* `mem_symbolsScanTable` — what the scan finds.
* `Auto.Stores.word_unique` — a state is behind one word.
* `Auto.Stores.readSymId` — what stands behind a name.
* `Acyclic.stores` — an automaton that is given by a table without cycles.
-/

namespace DatalogDafsa.Regex

open Intern

variable {enum : Enum} {s : Interner} {d : Dfa}

/-! ## The scan -/

/-- A compiled automaton has states for its transitions. -/
theorem Compiled.wellFormed (h : Compiled d) : d.WellFormed := by
  rcases h with ⟨pattern, h⟩ | ⟨pattern, k, h⟩
  · exact (regexCompile_spec h).1
  · exact levCompile_wellFormed h

/-- An automaton without states accepts nothing. -/
theorem Dfa.WellFormed.accepts_of_nStates (h : d.WellFormed) (hzero : d.nStates = 0)
    (w : List UInt8) : d.accepts w = false := by
  obtain ⟨htrans, haccept, -⟩ := h
  rw [hzero] at htrans haccept
  have hnil : d.accept = [] := List.length_eq_zero_iff.mp haccept
  have hdead : ∀ b, d.next 0 b = dfaDead := by
    intro b
    have hempty : d.trans = [] := List.length_eq_zero_iff.mp (htrans.trans (Nat.zero_mul _))
    rw [Dfa.next, hempty]
    rfl
  unfold Dfa.accepts
  cases w with
  | nil => simp [Dfa.walk, hnil]
  | cons b w => simp [Dfa.walk, hdead]

/-- What the scan looks at in a symbol. -/
theorem scanAccepts_iff (h : TableOk s) (id : ℕ) :
    scanAccepts d s id = true ↔ ∃ name, internStrOf s id = some name ∧ d.accepts name = true := by
  unfold scanAccepts Dfa.accepts
  cases hname : internStrOf s id with
  | none => simp
  | some name =>
    have hmem : name ∈ s.rev := by
      rw [internStrOf_room h.room] at hname
      split at hname
      · cases hname
      · exact List.mem_of_getElem? hname
    have hshort : ¬ symbolNameMax < name.length := by
      have := h.table.short name hmem
      unfold TooLong at this
      unfold symbolNameMax
      omega
    dsimp only
    rw [if_neg hshort]
    simp only [Option.some.injEq, exists_eq_left']
    cases d.walk 0 name <;> rfl

/-- **The scan finds the symbols whose names are accepted, each once.** -/
theorem mem_symbolsScanTable (h : TableOk s) (hd : d.WellFormed) :
    (∀ id, id ∈ symbolsScanTable d s (liveSymBound s) ↔
      ∃ name, internStrOf s id = some name ∧ d.accepts name = true) ∧
      (symbolsScanTable d s (liveSymBound s)).Nodup := by
  unfold symbolsScanTable
  by_cases hzero : d.nStates = 0
  · rw [if_pos hzero]
    refine ⟨fun id => ?_, List.nodup_nil⟩
    simp [hd.accepts_of_nStates hzero]
  · rw [if_neg hzero]
    refine ⟨fun id => ?_, (List.nodup_range' ..).filter _⟩
    rw [List.mem_filter, scanAccepts_iff h, List.mem_range'_1]
    refine and_iff_right_of_imp ?_
    rintro ⟨name, hname, -⟩
    rw [internStrOf_room h.room] at hname
    split at hname
    · cases hname
    · have := (List.getElem?_eq_some_iff.mp hname).1
      unfold liveSymBound Interner.nextId
      omega

/-! ## Words and states -/

/-- The transition on a byte is the one that is found. -/
theorem lookup_eq_some_of_mem {es : List (UInt8 × ℕ)} (hnodup : (es.map Prod.fst).Nodup)
    {b : UInt8} {t : ℕ} (h : (b, t) ∈ es) : es.lookup b = some t := by
  induction es with
  | nil => cases h
  | cons e es ih =>
    rw [List.map_cons, List.nodup_cons] at hnodup
    rcases List.mem_cons.mp h with rfl | h
    · exact List.lookup_cons_self
    · have hne : (b == e.1) = false := by
        rw [beq_eq_false_iff_ne]
        intro hb
        exact hnodup.1 (List.mem_map.mpr ⟨(b, t), h, hb⟩)
      rw [List.lookup_cons, hne]
      exact ih hnodup.2 h

theorem mem_of_lookup_eq_some {es : List (UInt8 × ℕ)} {b : UInt8} {t : ℕ}
    (h : es.lookup b = some t) : (b, t) ∈ es := by
  obtain ⟨l₁, l₂, rfl, -⟩ := List.lookup_eq_some_iff.mp h
  exact List.mem_append_right _ (List.mem_cons_self ..)

theorem Auto.run_append (A : Auto) (q : ℕ) (u v : List UInt8) :
    A.run q (u ++ v) = (A.run q u).bind fun t => A.run t v := by
  induction u generalizing q with
  | nil => rfl
  | cons b u ih =>
    rw [List.cons_append, Auto.run, Auto.run]
    cases (A.edges q).lookup b with
    | none => rfl
    | some t => exact ih t

namespace Auto.Stores

variable {A : Auto} {keys : Finset Key} {rev : List Str}

/-- A transition is a step of a run. -/
theorem run_snoc (hA : A.Stores keys) {w : List UInt8} {q t : ℕ} {b : UInt8}
    (hrun : A.run A.initial w = some q) (hmem : (b, t) ∈ A.edges q) :
    A.run A.initial (w ++ [b]) = some t := by
  rw [Auto.run_append, hrun, Option.bind_some, Auto.run,
    lookup_eq_some_of_mem (hA.det q) hmem]
  rfl

/-- What follows a word in a key. -/
theorem mem_append (hA : A.Stores keys) {w x : List UInt8} {q : ℕ}
    (hrun : A.run A.initial w = some q) :
    w ++ x ∈ keys ↔ ∃ p, A.run q x = some p ∧ A.final p = true := by
  rw [hA.mem, Auto.run_append, hrun]
  rfl

/-- Behind a transition there is a key. -/
theorem exists_key (hA : A.Stores keys) {w : List UInt8} {q t : ℕ} {b : UInt8}
    (hrun : A.run A.initial w = some q) (hmem : (b, t) ∈ A.edges q) :
    ∃ x : List UInt8, w ++ b :: x ∈ keys := by
  obtain ⟨x, p, hx, hp⟩ := hA.trim w q b t hrun hmem
  refine ⟨x, ?_⟩
  rw [List.append_cons, hA.mem_append (hA.run_snoc hrun hmem)]
  exact ⟨p, hx, hp⟩

end Auto.Stores

/-- Numbers with the same four bytes are the same. -/
theorem be32_inj {i j : ℕ} (hi : i < 2 ^ 32) (hj : j < 2 ^ 32) (h : be32 i = be32 j) : i = j := by
  have := capture_be32 hi []
  rw [h, capture_be32 hj] at this
  exact this.symm

/-- Where a key goes on after a word without a zero byte. -/
theorem key_split {rev : List Str} {keys : Finset Key} (hk : KeysOf rev keys) {w x : List UInt8}
    (hzero : 0 ∉ w) (h : w ++ x ∈ keys) :
    ∃ (i : ℕ) (y : Str), rev[i]? = some (w ++ y) ∧ x = y ++ 0 :: be32 (i + 1) := by
  obtain ⟨i, t, ht, heq⟩ := (hk _).mp h
  unfold fillKey at heq
  rcases List.append_eq_append_iff.mp heq with ⟨y, rfl, rfl⟩ | ⟨z, rfl, hx⟩
  · exact ⟨i, y, ht, rfl⟩
  · cases z with
    | nil => exact ⟨i, [], by rwa [List.append_nil, List.append_nil], hx.symm⟩
    | cons c z =>
      obtain rfl := List.head_eq_of_cons_eq hx
      exact absurd (List.mem_append_right _ (List.mem_cons_self ..)) hzero

namespace Auto.Stores

variable {A : Auto} {keys : Finset Key} {rev : List Str}

/-- **A state is behind one word** without a zero byte. -/
theorem word_unique (hA : A.Stores keys) (hk : KeysOf rev keys) (hn : NameTable rev)
    {w₁ w₂ : List UInt8} {q : ℕ} (h₁ : A.run A.initial w₁ = some q)
    (h₂ : A.run A.initial w₂ = some q) (hz₁ : 0 ∉ w₁) (hz₂ : 0 ∉ w₂) : w₁ = w₂ := by
  -- a common tail decides both words
  have key : ∀ x, w₁ ++ x ∈ keys → w₂ ++ x ∈ keys → w₁ = w₂ := by
    intro x hx₁ hx₂
    obtain ⟨i, y₁, hi, rfl⟩ := key_split hk hz₁ hx₁
    obtain ⟨j, y₂, hj, heq⟩ := key_split hk hz₂ hx₂
    obtain ⟨rfl, htail⟩ := List.append_inj' heq rfl
    have hlt : ∀ {k name}, rev[k]? = some name → k + 1 < 2 ^ 32 := by
      intro k name hname
      have := (List.getElem?_eq_some_iff.mp hname).1
      have := hn.few
      have hmax : maxStrings = 2147483648 := rfl
      omega
    have hij := be32_inj (hlt hi) (hlt hj) (List.tail_eq_of_cons_eq htail)
    obtain rfl : i = j := by omega
    rw [hi, Option.some.injEq] at hj
    exact List.append_cancel_right hj
  -- a word that is not empty has a tail
  have htail : ∀ {w : List UInt8}, A.run A.initial w = some q → w ≠ [] →
      ∃ x p, A.run q x = some p ∧ A.final p = true := by
    intro w hw hne
    obtain ⟨u, b, rfl⟩ := List.eq_nil_or_concat' w |>.resolve_left hne
    rw [Auto.run_append] at hw
    obtain ⟨t, ht, hb⟩ := Option.bind_eq_some_iff.mp hw
    rw [Auto.run] at hb
    cases hl : (A.edges t).lookup b with
    | none => rw [hl] at hb; cases hb
    | some q' =>
      rw [hl] at hb
      cases hb
      exact hA.trim u t b _ ht (mem_of_lookup_eq_some hl)
  by_cases hempty : w₁ = [] ∧ w₂ = []
  · rw [hempty.1, hempty.2]
  · obtain ⟨x, hx⟩ : ∃ x p, A.run q x = some p ∧ A.final p = true := by
      by_cases hnil : w₁ = []
      · exact htail h₂ fun h => hempty ⟨hnil, h⟩
      · exact htail h₁ hnil
    exact key x ((hA.mem_append h₁).mpr hx) ((hA.mem_append h₂).mpr hx)

/-- A transition that is not on zero leads to longer names. -/
theorem length_lt (hA : A.Stores keys) (hk : KeysOf rev keys) (hn : NameTable rev)
    {w : List UInt8} {q t : ℕ} {b : UInt8} (hrun : A.run A.initial w = some q)
    (hzero : 0 ∉ w) (hb : b ≠ 0) (hmem : (b, t) ∈ A.edges q) : w.length + 1 < maxWordLen := by
  obtain ⟨x, hx⟩ := hA.exists_key hrun hmem
  rw [List.append_cons] at hx
  have hzero' : 0 ∉ w ++ [b] := by
    rw [List.mem_append, List.mem_singleton, not_or]
    exact ⟨hzero, hb.symm⟩
  obtain ⟨i, y, hi, -⟩ := key_split hk hzero' hx
  have hshort := hn.short _ (List.mem_of_getElem? hi)
  unfold TooLong at hshort
  simp only [List.length_append, List.length_singleton] at hshort
  omega

/-! ## The number of a name -/

/-- Behind a name and a zero byte there is its number and nothing else. -/
theorem tail_unique (hk : KeysOf rev keys) (hn : NameTable rev) {w x : List UInt8} {i : ℕ}
    (hi : rev[i]? = some w) (h : w ++ 0 :: x ∈ keys) : x = be32 (i + 1) := by
  have hzero := hn.noZero w (List.mem_of_getElem? hi)
  obtain ⟨j, y, hj, hx⟩ := key_split hk hzero h
  cases y with
  | nil =>
    rw [List.append_nil] at hj
    obtain ⟨hlt, hget⟩ := List.getElem?_eq_some_iff.mp hi
    obtain ⟨hlt', hget'⟩ := List.getElem?_eq_some_iff.mp hj
    obtain rfl := (hn.nodup.getElem_inj_iff).mp (hget.trans hget'.symm)
    exact List.tail_eq_of_cons_eq hx
  | cons c y =>
    obtain rfl := List.head_eq_of_cons_eq hx
    have := hn.noZero _ (List.mem_of_getElem? hj)
    exact absurd (List.mem_append_right _ (List.mem_cons_self ..)) this

/-- The bytes of a number are read one state after another. -/
theorem readSymId_chain (hA : A.Stores keys) (hk : KeysOf rev keys) (hn : NameTable rev)
    {w : List UInt8} {i : ℕ} (hi : rev[i]? = some w) {u v : List UInt8}
    (huv : be32 (i + 1) = u ++ v) {cur : ℕ}
    (hrun : A.run A.initial (w ++ 0 :: u) = some cur) (id : ℕ) :
    Regex.readSymId A v.length cur id =
      some (v.foldl (fun id b => id * 2 ^ 8 % 2 ^ 32 + b.toNat) id) := by
  induction v generalizing u cur id with
  | nil => rfl
  | cons b v ih =>
    -- every transition is on the next byte
    have hhead : ∀ e ∈ A.edges cur, e.1 = b := by
      rintro ⟨c, t⟩ hmem
      obtain ⟨x, hx⟩ := hA.exists_key hrun hmem
      rw [List.append_assoc, List.cons_append] at hx
      have htail := tail_unique hk hn hi hx
      rw [huv] at htail
      exact List.head_eq_of_cons_eq (List.append_cancel_left htail)
    -- and there is one
    obtain ⟨t, ht⟩ : ∃ t, (b, t) ∈ A.edges cur := by
      have hkey : (w ++ 0 :: u) ++ b :: v ∈ keys := by
        rw [List.append_assoc, List.cons_append, ← huv]
        exact (hk _).mpr ⟨i, w, hi, rfl⟩
      obtain ⟨p, hp, -⟩ := (hA.mem_append hrun).mp hkey
      rw [Auto.run] at hp
      cases hl : (A.edges cur).lookup b with
      | none => rw [hl] at hp; cases hp
      | some t => exact ⟨t, mem_of_lookup_eq_some hl⟩
    have hedges : A.edges cur = [(b, t)] := by
      have hdet := hA.det cur
      cases hes : A.edges cur with
      | nil => rw [hes] at ht; cases ht
      | cons e es =>
        rw [hes] at hhead hdet ht
        cases es with
        | nil => rw [List.mem_singleton.mp ht]
        | cons e' es =>
          have h₁ := hhead e (List.mem_cons_self ..)
          have h₂ := hhead e' (List.mem_cons_of_mem _ (List.mem_cons_self ..))
          rw [List.map_cons, List.map_cons, h₁, h₂, List.nodup_cons] at hdet
          exact absurd (List.mem_cons_self ..) hdet.1
    have hrun' : A.run A.initial (w ++ 0 :: (u ++ [b])) = some t := by
      have := hA.run_snoc hrun ht
      rwa [List.append_assoc, List.cons_append] at this
    rw [List.length_cons, Regex.readSymId, hedges, List.foldl_cons]
    exact ih (by rw [huv, List.append_assoc]; rfl) hrun' _

/-- **What stands behind a name.**  The transition on zero is that of a name, and its number
is read behind it. -/
theorem readSymId (hA : A.Stores keys) (hk : KeysOf rev keys) (hn : NameTable rev)
    {w : List UInt8} {q : ℕ} (hrun : A.run A.initial w = some q) (hzero : 0 ∉ w) :
    (∀ t, (0, t) ∈ A.edges q →
      ∃ i : ℕ, rev[i]? = some w ∧ Regex.readSymId A 4 t 0 = some (i + 1)) ∧
      ∀ i : ℕ, rev[i]? = some w → ∃ t, (0, t) ∈ A.edges q := by
  constructor
  · intro t ht
    obtain ⟨x, hx⟩ := hA.exists_key hrun ht
    obtain ⟨i, y, hi, heq⟩ := key_split hk hzero hx
    cases y with
    | cons c y =>
      obtain rfl := List.head_eq_of_cons_eq heq
      have := hn.noZero _ (List.mem_of_getElem? hi)
      exact absurd (List.mem_append_right _ (List.mem_cons_self ..)) this
    | nil =>
      rw [List.append_nil] at hi
      refine ⟨i, hi, ?_⟩
      have hlt : i + 1 < 2 ^ 32 := by
        have := (List.getElem?_eq_some_iff.mp hi).1
        have := hn.few
        have hmax : maxStrings = 2147483648 := rfl
        omega
      have hchain := @readSymId_chain A keys rev hA hk hn w i hi [] (be32 (i + 1)) rfl t
        (hA.run_snoc hrun ht) 0
      have hlen : (be32 (i + 1)).length = 4 := rfl
      rw [hlen] at hchain
      rw [hchain]
      simp only [be32, List.foldl_cons, List.foldl_nil, ofNat_toNat_mod]
      congr 1
      omega
  · intro i hi
    have hkey : w ++ 0 :: be32 (i + 1) ∈ keys := (hk _).mpr ⟨i, w, hi, rfl⟩
    obtain ⟨p, hp, -⟩ := (hA.mem_append hrun).mp hkey
    rw [Auto.run] at hp
    cases hl : (A.edges q).lookup 0 with
    | none => rw [hl] at hp; cases hp
    | some t => exact ⟨t, mem_of_lookup_eq_some hl⟩

end Auto.Stores

/-! ## Automata from tables -/

/-- The automaton of a table: the transitions of each state, and whether it is final. -/
def tableAuto (rows : List (List (UInt8 × ℕ) × Bool)) : Auto where
  initial := 0
  edges q := (rows[q]?.map Prod.fst).getD []
  final q := (rows[q]?.map Prod.snd).getD false

/-- The words of at most `n` letters that a state accepts. -/
def Auto.tails (A : Auto) : ℕ → ℕ → List (List UInt8)
  | 0, q => if A.final q then [[]] else []
  | n + 1, q =>
    (if A.final q then [[]] else []) ++
      (A.edges q).flatMap fun e => (A.tails n e.2).map (e.1 :: ·)

/-- The words of a state, with their bound. -/
theorem Auto.mem_tails {A : Auto} (hdet : ∀ q, ((A.edges q).map Prod.fst).Nodup) (n q : ℕ)
    (w : List UInt8) :
    w ∈ A.tails n q ↔ w.length ≤ n ∧ ∃ p, A.run q w = some p ∧ A.final p = true := by
  induction n generalizing q w with
  | zero =>
    cases w with
    | nil => by_cases hf : A.final q <;> simp [tails, run, hf]
    | cons b w => by_cases hf : A.final q <;> simp [tails, hf]
  | succ n ih =>
    cases w with
    | nil => by_cases hf : A.final q <;> simp [tails, run, hf]
    | cons b w =>
      have hmem : b :: w ∈ A.tails (n + 1) q ↔ ∃ t, (b, t) ∈ A.edges q ∧ w ∈ A.tails n t := by
        by_cases hf : A.final q <;> simp [tails, hf, Prod.exists]
      rw [hmem, List.length_cons, Nat.succ_le_succ_iff]
      simp only [ih]
      constructor
      · rintro ⟨t, ht, hlen, p, hp⟩
        refine ⟨hlen, p, ?_, hp.2⟩
        rw [run, lookup_eq_some_of_mem (hdet q) ht]
        exact hp.1
      · rintro ⟨hlen, p, hp, hfin⟩
        rw [run] at hp
        cases hl : (A.edges q).lookup b with
        | none =>
          rw [hl] at hp
          cases hp
        | some t =>
          rw [hl] at hp
          exact ⟨t, mem_of_lookup_eq_some hl, hlen, p, hp, hfin⟩

/-- A table whose transitions lead to later rows, from which something is accepted. -/
structure Acyclic (rows : List (List (UInt8 × ℕ) × Bool)) : Prop where
  /-- No letter leads to two rows. -/
  det : ∀ row ∈ rows, (row.1.map Prod.fst).Nodup
  /-- A transition leads to a later row. -/
  up : ∀ p ∈ rows.zipIdx, ∀ e ∈ p.1.1, p.2 < e.2 ∧ e.2 < rows.length
  /-- And from there to a final state. -/
  live : ∀ row ∈ rows, ∀ e ∈ row.1, (tableAuto rows).tails rows.length e.2 ≠ []
  /-- The numbers of the rows. -/
  small : rows.length < 2 ^ 32

namespace Acyclic

variable {rows : List (List (UInt8 × ℕ) × Bool)}

theorem edges_eq (q : ℕ) {e : UInt8 × ℕ} (h : e ∈ (tableAuto rows).edges q) :
    ∃ row, rows[q]? = some row ∧ e ∈ row.1 := by
  cases hrow : rows[q]? with
  | none => simp [tableAuto, hrow] at h
  | some row => exact ⟨row, rfl, by simpa [tableAuto, hrow] using h⟩

theorem det_edges (h : Acyclic rows) (q : ℕ) :
    (((tableAuto rows).edges q).map Prod.fst).Nodup := by
  cases hrow : rows[q]? with
  | none => simp [tableAuto, hrow]
  | some row => simpa [tableAuto, hrow] using h.det row (List.mem_of_getElem? hrow)

/-- A run goes up. -/
theorem run_le (h : Acyclic rows) {q p : ℕ} {w : List UInt8}
    (hrun : (tableAuto rows).run q w = some p) :
    q + w.length ≤ p ∧ (w ≠ [] → p < rows.length) := by
  induction w generalizing q with
  | nil =>
    cases hrun
    simp
  | cons b w ih =>
    rw [Auto.run] at hrun
    cases hl : ((tableAuto rows).edges q).lookup b with
    | none =>
      rw [hl] at hrun
      cases hrun
    | some t =>
      rw [hl] at hrun
      obtain ⟨row, hrow, hmem⟩ := edges_eq q (mem_of_lookup_eq_some hl)
      have hup := h.up (row, q) (List.mem_zipIdx_iff_getElem?.2 hrow) (b, t) hmem
      obtain ⟨hle, hlt⟩ := ih hrun
      refine ⟨by simp only [List.length_cons]; omega, fun _ => ?_⟩
      cases w with
      | nil =>
        cases hrun
        exact hup.2
      | cons c w => exact hlt (List.cons_ne_nil c w)

/-- **The automaton of a table** stores the words that its first row accepts. -/
theorem stores (h : Acyclic rows) :
    (tableAuto rows).Stores ((tableAuto rows).tails rows.length 0).toFinset where
  det := h.det_edges
  trim := by
    intro w q b t _ hmem
    obtain ⟨row, hrow, hmem⟩ := edges_eq q hmem
    obtain ⟨x, hx⟩ :=
      List.exists_mem_of_ne_nil _ (h.live row (List.mem_of_getElem? hrow) (b, t) hmem)
    exact ⟨x, ((Auto.mem_tails h.det_edges ..).1 hx).2⟩
  mem := by
    intro w
    rw [List.mem_toFinset, Auto.mem_tails h.det_edges]
    refine and_iff_right_of_imp ?_
    rintro ⟨p, hp, -⟩
    cases w with
    | nil => exact Nat.zero_le _
    | cons b w =>
      have hle := h.run_le hp
      have hlt := hle.2 (List.cons_ne_nil b w)
      omega
  small := by
    intro w q hrun
    have hsmall := h.small
    cases w with
    | nil =>
      cases hrun
      exact Nat.two_pow_pos 32
    | cons b w =>
      have hlt := (h.run_le hrun).2 (List.cons_ne_nil b w)
      omega

end Acyclic

end DatalogDafsa.Regex
