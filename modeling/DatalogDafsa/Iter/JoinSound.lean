import DatalogDafsa.Iter.Sound

/-!
# The merge join is exact

Each loop of the join is read against the lists the two iterators still have to hand
out: the first tuple of each list has already been fetched, and the iterator hands out
the others.

## Main definitions

* `rowKey` — the columns two tuples are joined on.
* `Looks` — a fetched tuple and an iterator stand for a list.
* `joinLoop_spec` — the join of two sorted lists.
* `dlIter_exact` — the calls, and the join, of any two iterators.
-/

namespace DatalogDafsa.Iter

open MergeJoin (Yields pairs run past Sorted)

/-! ## Keys of tuples -/

/-- The first `j` columns, as numbers. -/
def rowKey (j : ℕ) (r : Row) : List ℕ := (r.take j).map UInt32.toNat

theorem rowKey_eq_iff {j : ℕ} {a b : Row} : rowKey j a = rowKey j b ↔ a.take j = b.take j :=
  (List.map_injective_iff.mpr fun _ _ => UInt32.toNat_inj.mp).eq_iff

theorem rowKey_cons (j : ℕ) (v : Val) (r : Row) :
    rowKey (j + 1) (v :: r) = v.toNat :: rowKey j r := rfl

/-- Rows in order have their keys in order. -/
theorem rowKey_le_of_rowBefore {j : ℕ} {a b : Row} (h : RowBefore a b) :
    rowKey j a ≤ rowKey j b := by
  refine not_lt.mp fun hlt => ?_
  induction j generalizing a b with
  | zero => exact absurd hlt (lt_irrefl ([] : List ℕ))
  | succ j ih =>
    cases a with
    | nil => exact absurd hlt (List.not_lt_nil _)
    | cons x a =>
      cases b with
      | nil => simp [RowBefore] at h
      | cons y b =>
        rw [RowBefore, rowLt_cons] at h
        rw [rowKey_cons, rowKey_cons, List.cons_lt_cons_iff] at hlt
        split at h
        · rename_i hxy
          subst hxy
          exact ih h (hlt.resolve_left (lt_irrefl _)).2
        · have hxy := UInt32.lt_iff_toNat_lt.mp (of_decide_eq_true h)
          rcases hlt with hyx | ⟨heq, -⟩ <;> omega

theorem sorted_rowKey {rows : List Row} (h : rows.Pairwise RowBefore) (j : ℕ) :
    Sorted (rowKey j) rows :=
  h.imp fun h => rowKey_le_of_rowBefore h

/-- The comparison from a column on. -/
theorem cmpKeys_compares (x y : Row) {a b : Row} {i n : ℕ} (hx : x.length = i)
    (hy : y.length = i) (ha : n ≤ a.length) (hb : n ≤ b.length) :
    (cmpKeys (x ++ a) (y ++ b) i n).Compares (rowKey n a) (rowKey n b) := by
  induction n generalizing x y a b i with
  | zero => exact (rfl : ([] : List ℕ) = [])
  | succ n ih =>
    cases a with
    | nil => cases ha
    | cons u a =>
      cases b with
      | nil => cases hb
      | cons v b =>
        have hu : (x ++ u :: a).getD i 0 = u := by
          rw [List.getD_append_right _ _ _ _ hx.le, hx, Nat.sub_self]
          rfl
        have hv : (y ++ v :: b).getD i 0 = v := by
          rw [List.getD_append_right _ _ _ _ hy.le, hy, Nat.sub_self]
          rfl
        have hrest := ih (x ++ [u]) (y ++ [v]) (i := i + 1) (by simp [hx]) (by simp [hy])
          (Nat.le_of_succ_le_succ ha) (Nat.le_of_succ_le_succ hb)
        rw [List.append_assoc, List.append_assoc] at hrest
        change (cmpKeys (x ++ u :: a) (y ++ v :: b) (i + 1) n).Compares _ _ at hrest
        rw [cmpKeys, hu, hv, rowKey_cons, rowKey_cons]
        split_ifs with hlt hgt
        · exact List.cons_lt_cons_iff.mpr (.inl (UInt32.lt_iff_toNat_lt.mp hlt))
        · exact List.cons_lt_cons_iff.mpr (.inl (UInt32.lt_iff_toNat_lt.mp hgt))
        · rw [UInt32.lt_iff_toNat_lt] at hlt hgt
          have huv : u.toNat = v.toNat := by omega
          rw [huv]
          cases hc : cmpKeys (x ++ u :: a) (y ++ v :: b) (i + 1) n with
          | lt =>
            rw [hc] at hrest
            exact List.cons_lt_cons_iff.mpr (.inr ⟨rfl, hrest⟩)
          | eq =>
            rw [hc] at hrest
            exact congrArg _ hrest
          | gt =>
            rw [hc] at hrest
            exact List.cons_lt_cons_iff.mpr (.inr ⟨rfl, hrest⟩)

/-- **The comparison of two tuples** is that of their keys. -/
theorem cmpKeys_zero {a b : Row} {j : ℕ} (ha : j ≤ a.length) (hb : j ≤ b.length) :
    (cmpKeys a b 0 j).Compares (rowKey j a) (rowKey j b) :=
  cmpKeys_compares [] [] rfl rfl ha hb

theorem mjKeysEqual_iff {a b : Row} {j : ℕ} (ha : j ≤ a.length) (hb : j ≤ b.length) :
    mjKeysEqual a b j = true ↔ rowKey j a = rowKey j b := by
  rw [rowKey_eq_iff, mjKeysEqual, List.all_eq_true]
  have hget : ∀ {r : Row} {i : ℕ}, j ≤ r.length → i < j → (r.take j)[i]? = some (r.getD i 0) := by
    intro r i hr hi
    rw [List.getElem?_take_of_lt hi, List.getD_eq_getElem?_getD,
      List.getElem?_eq_getElem (hi.trans_le hr), Option.getD_some]
  constructor
  · intro h
    refine List.ext_getElem? fun i => ?_
    rcases lt_or_ge i j with hi | hi
    · rw [hget ha hi, hget hb hi, of_decide_eq_true (h i (List.mem_range.mpr hi))]
    · rw [List.getElem?_eq_none (by simp [hi]), List.getElem?_eq_none (by simp [hi])]
  · intro h i hi
    have hij := List.mem_range.mp hi
    have heq := congrArg (fun l : Row => l[i]?) h
    simp only [hget ha hij, hget hb hij] at heq
    exact decide_eq_true (Option.some.inj heq)

/-! ## A fetched tuple -/

variable {C C' : Type} {fuel : ℕ}

/-- The loop keeps the columns, and gives nothing at the end only. -/
theorem iterLoop_ok {it it' : DlIter C} {t : Option Row} (h : iterLoop fuel it = .ok (t, it')) :
    it'.arity = it.arity ∧ (t = none → it'.exhausted = true) := by
  induction fuel generalizing it with
  | zero => cases h
  | succ fuel ih =>
    unfold iterLoop at h
    cases hf : it.frames with
    | nil =>
      rw [hf] at h
      cases h
    | cons f fs =>
      rw [hf] at h
      dsimp only at h
      split at h
      · cases h
        exact ⟨rfl, fun h => by cases h⟩
      · split at h
        · cases h
        · cases hnext : it.engine.next f.1 f.2 with
          | none =>
            rw [hnext] at h
            dsimp only at h
            split at h
            · rename_i hfs
              cases h
              exact ⟨rfl, fun _ => if_pos hfs⟩
            · have hgo := ih h
              exact hgo
          | some e =>
            rw [hnext] at h
            have hgo := ih h
            exact hgo

/-- A call keeps the columns, and gives nothing at the end only. -/
theorem dlIterNext_ok {it it' : DlIter C} {t : Option Row} (h : dlIterNext fuel it = .ok (t, it')) :
    it'.arity = it.arity ∧ (t = none → it'.exhausted = true) := by
  unfold dlIterNext at h
  split at h
  · rename_i hex
    cases h
    exact ⟨rfl, fun _ => hex⟩
  · exact iterLoop_ok h

/-- The tuple fetched last and the iterator stand for a list: the tuple is the first of
it, and the calls hand out the others. -/
structure Looks (fuel : ℕ) (rows : List Row) (t : Option Row) (it : DlIter C) : Prop where
  /-- The first one. -/
  head : t = rows.head?
  /-- The others. -/
  rest : Yields (dlIterNext fuel) rows.tail it
  /-- Nothing is fetched at the end only. -/
  ended : rows = [] → it.exhausted = true

theorem Looks.of_yields {rows : List Row} {it : DlIter C} (h : Yields (dlIterNext fuel) rows it) :
    ∃ t it', dlIterNext fuel it = .ok (t, it') ∧ Looks fuel rows t it' := by
  cases rows with
  | nil =>
    obtain ⟨it', h₁, h₂⟩ := h
    exact ⟨none, it', h₁, rfl, ⟨it', h₂, h₂⟩, fun _ => (dlIterNext_ok h₁).2 rfl⟩
  | cons r rows =>
    obtain ⟨it', h₁, h₂⟩ := h
    exact ⟨some r, it', h₁, rfl, h₂, fun h => by cases h⟩

/-- **The loops that exhaust an iterator.** -/
theorem drain_spec {turns : ℕ} {rows : List Row} {t : Option Row} {it : DlIter C}
    (h : Looks fuel rows t it) (hturns : rows.length ≤ turns) :
    ∃ it', drain fuel turns t it = .ok it' ∧ it'.exhausted = true := by
  induction turns generalizing rows t it with
  | zero =>
    obtain rfl : rows = [] := List.length_eq_zero_iff.mp (by omega)
    obtain rfl := h.head
    exact ⟨it, rfl, h.ended rfl⟩
  | succ turns ih =>
    cases rows with
    | nil =>
      obtain rfl := h.head
      exact ⟨it, rfl, h.ended rfl⟩
    | cons r rows =>
      obtain rfl := h.head
      obtain ⟨t, it', hnext, hlook⟩ := Looks.of_yields h.rest
      obtain ⟨it'', hrun, hex⟩ := ih hlook (Nat.le_of_succ_le_succ hturns)
      refine ⟨it'', ?_, hex⟩
      change (dlIterNext fuel it).bind _ = _
      rw [hnext]
      exact hrun

/-! ## The loops of the join -/

variable {j : ℕ}

/-- **The loop that buffers a run** of right tuples takes those with the key of the first. -/
theorem bufferRun_spec (turns : ℕ) (rbuf : List Row) {rt : Row} {R : List Row} {r : DlIter C'}
    (hr : Yields (dlIterNext fuel) R r) (hwide : ∀ t ∈ rt :: R, j ≤ t.length)
    (hbuf : ∀ t ∈ rbuf, j ≤ t.length ∧ rowKey j t = rowKey j rt) (hturns : R.length < turns) :
    ∃ t r', bufferRun fuel j turns rbuf rt r =
        .ok (rbuf ++ rt :: run (rowKey j) (rowKey j rt) R, t, r') ∧
      Looks fuel (past (rowKey j) (rowKey j rt) R) t r' := by
  induction turns generalizing rbuf rt R r with
  | zero => omega
  | succ turns ih =>
    obtain ⟨t, r', hnext, hlook⟩ := Looks.of_yields hr
    have hhead : rowKey j ((rbuf ++ [rt]).headD []) = rowKey j rt ∧
        j ≤ ((rbuf ++ [rt]).headD []).length := by
      cases rbuf with
      | nil => exact ⟨rfl, hwide rt List.mem_cons_self⟩
      | cons a rbuf => exact (hbuf a List.mem_cons_self).symm
    rw [bufferRun, hnext]
    cases R with
    | nil =>
      obtain rfl := hlook.head
      exact ⟨none, r', rfl, hlook⟩
    | cons b R =>
      obtain rfl := hlook.head
      have hb : j ≤ b.length := hwide b (by simp)
      change ∃ t r'', (if mjKeysEqual b ((rbuf ++ [rt]).headD []) j = true then _ else _) = _ ∧ _
      by_cases hk : rowKey j b = rowKey j rt
      · -- one more of the run
        rw [if_pos ((mjKeysEqual_iff hb hhead.2).mpr (hk.trans hhead.1.symm))]
        have hbuf' : ∀ t ∈ rbuf ++ [rt], j ≤ t.length ∧ rowKey j t = rowKey j b := by
          intro t ht
          rcases List.mem_append.mp ht with ht | ht
          · exact ⟨(hbuf t ht).1, (hbuf t ht).2.trans hk.symm⟩
          · obtain rfl := List.mem_singleton.mp ht
            exact ⟨hwide t List.mem_cons_self, hk.symm⟩
        obtain ⟨t, r'', hrun, hlook'⟩ := ih _ hlook.rest
          (fun t ht => hwide t (List.mem_cons_of_mem rt ht)) hbuf'
          (Nat.lt_of_succ_lt_succ hturns)
        rw [hk, List.tail_cons] at hrun hlook'
        refine ⟨t, r'', ?_, ?_⟩
        · rw [hrun]
          simp [run, hk]
        · rwa [past, List.dropWhile_cons_of_pos (by simpa using hk)]
      · -- the run ends
        rw [if_neg fun h => hk (((mjKeysEqual_iff hb hhead.2).mp h).trans hhead.1)]
        refine ⟨some b, r', ?_, ?_⟩
        · simp [run, hk]
        · rwa [past, List.dropWhile_cons_of_neg (by simpa using hk)]

/-- **The loop that pairs a run** of left tuples with the buffer. -/
theorem crossRun_spec (turns emitted : ℕ) (rbuf : List Row) (out : List (Row × Row)) {lt : Row}
    {L : List Row} {l : DlIter C} (hl : Yields (dlIterNext fuel) L l)
    (hwide : ∀ t ∈ lt :: L, j ≤ t.length) (hbuf : j ≤ (rbuf.headD []).length)
    (hkey : rowKey j (rbuf.headD []) = rowKey j lt) (hturns : L.length < turns) :
    ∃ t l', crossRun fuel j rbuf turns out emitted lt l =
        .ok (out ++ (lt :: run (rowKey j) (rowKey j lt) L).flatMap fun x => rbuf.map (x, ·),
          emitted + ((lt :: run (rowKey j) (rowKey j lt) L).flatMap
            fun x => rbuf.map (x, ·)).length, t, l') ∧
      Looks fuel (past (rowKey j) (rowKey j lt) L) t l' := by
  induction turns generalizing lt L l out emitted with
  | zero => omega
  | succ turns ih =>
    obtain ⟨t, l', hnext, hlook⟩ := Looks.of_yields hl
    rw [crossRun, hnext]
    cases L with
    | nil =>
      obtain rfl := hlook.head
      refine ⟨none, l', ?_, hlook⟩
      simp [run]
      rfl
    | cons a L =>
      obtain rfl := hlook.head
      have ha : j ≤ a.length := hwide a (by simp)
      change ∃ t l'', (if mjKeysEqual a (rbuf.headD []) j = true then _ else _) = _ ∧ _
      by_cases hk : rowKey j a = rowKey j lt
      · -- one more of the run
        rw [if_pos ((mjKeysEqual_iff ha hbuf).mpr (hk.trans hkey.symm))]
        obtain ⟨t, l'', hrun, hlook'⟩ := ih (emitted + rbuf.length)
          (out ++ rbuf.map (lt, ·)) hlook.rest
          (fun t ht => hwide t (List.mem_cons_of_mem lt ht)) (hkey.trans hk.symm)
          (Nat.lt_of_succ_lt_succ hturns)
        rw [hk, List.tail_cons] at hrun hlook'
        refine ⟨t, l'', ?_, ?_⟩
        · rw [hrun]
          simp [run, hk, Nat.add_assoc]
        · rwa [past, List.dropWhile_cons_of_pos (by simpa using hk)]
      · -- the run ends
        rw [if_neg fun h => hk (((mjKeysEqual_iff ha hbuf).mp h).trans hkey)]
        refine ⟨some a, l', ?_, ?_⟩
        · simp [run, hk]
        · rwa [past, List.dropWhile_cons_of_neg (by simpa using hk)]

/-- A run and what comes after it, with the entry the run starts with. -/
theorem cons_run_append_past (k : List ℕ) (a : Row) (L : List Row) :
    (a :: run (rowKey j) k L) ++ past (rowKey j) k L = a :: L := by
  rw [List.cons_append, MergeJoin.run_append_past]

theorem length_past_le (k : List ℕ) (L : List Row) : (past (rowKey j) k L).length ≤ L.length :=
  (MergeJoin.past_sublist k L).length_le

/-- **The join of two sorted lists** hands out the pairs with equal keys. -/
theorem joinLoop_spec (turns emitted : ℕ) (out : List (Row × Row)) {L R : List Row}
    {lt rt : Option Row} {l : DlIter C} {r : DlIter C'} (hl : Looks fuel L lt l)
    (hr : Looks fuel R rt r) (hL : Sorted (rowKey j) L) (hR : Sorted (rowKey j) R)
    (hwideL : ∀ t ∈ L, j ≤ t.length) (hwideR : ∀ t ∈ R, j ≤ t.length)
    (hturns : L.length + R.length < turns) (hfuelL : L.length ≤ fuel) (hfuelR : R.length ≤ fuel) :
    ∃ l' r', joinLoop fuel j turns out emitted lt l rt r =
        .ok ⟨out ++ pairs (rowKey j) (rowKey j) L R,
          emitted + (pairs (rowKey j) (rowKey j) L R).length, l', r'⟩ ∧
      l'.exhausted = true ∧ r'.exhausted = true := by
  induction turns generalizing out emitted L R lt rt l r with
  | zero => omega
  | succ turns ih =>
    have hend : pairs (rowKey j) (rowKey j) L R = [] → ∃ l' r',
        ((drain fuel fuel lt l).bind fun l => (drain fuel fuel rt r).map fun r =>
          (⟨out, emitted, l, r⟩ : JoinEnd C C')) =
            .ok ⟨out ++ pairs (rowKey j) (rowKey j) L R,
              emitted + (pairs (rowKey j) (rowKey j) L R).length, l', r'⟩ ∧
          l'.exhausted = true ∧ r'.exhausted = true := by
      intro hnil
      obtain ⟨l', hl', hexl⟩ := drain_spec hl hfuelL
      obtain ⟨r', hr', hexr⟩ := drain_spec hr hfuelR
      refine ⟨l', r', ?_, hexl, hexr⟩
      rw [hl', hr', hnil, List.append_nil]
      rfl
    cases L with
    | nil =>
      obtain rfl := hl.head
      cases rt <;> exact hend MergeJoin.pairs_nil_left
    | cons a L =>
      cases R with
      | nil =>
        obtain rfl := hl.head
        obtain rfl := hr.head
        exact hend MergeJoin.pairs_nil_right
      | cons b R =>
        obtain rfl := hl.head
        obtain rfl := hr.head
        have hLa := List.pairwise_cons.mp hL
        have hRb := List.pairwise_cons.mp hR
        have ha := hwideL a List.mem_cons_self
        have hb := hwideR b List.mem_cons_self
        have hcmp := cmpKeys_zero ha hb
        rw [List.length_cons, List.length_cons] at hturns
        rw [List.length_cons] at hfuelL hfuelR
        rw [List.head?_cons, List.head?_cons, joinLoop]
        cases hc : cmpKeys a b 0 j with
        | lt =>
          -- the left tuple has no partner
          rw [hc] at hcmp
          obtain ⟨t, l', hnext, hlook⟩ := Looks.of_yields hl.rest
          rw [MergeJoin.pairs_skip_left fun x hx => ?_, hnext]
          · exact ih _ _ hlook hr hLa.2 hR (fun t ht => hwideL t (List.mem_cons_of_mem a ht)) hwideR
              (by rw [List.length_cons]; omega) (by omega) hfuelR
          · rcases List.mem_cons.mp hx with rfl | hx
            · exact hcmp
            · exact lt_of_lt_of_le hcmp (hRb.1 x hx)
        | gt =>
          -- the right tuple has no partner
          rw [hc] at hcmp
          obtain ⟨t, r', hnext, hlook⟩ := Looks.of_yields hr.rest
          rw [MergeJoin.pairs_skip_right fun x hx => ?_, hnext]
          · exact ih _ _ hl hlook hL hRb.2 hwideL (fun t ht => hwideR t (List.mem_cons_of_mem b ht))
              (by rw [List.length_cons]; omega) hfuelL (by omega)
          · rcases List.mem_cons.mp hx with rfl | hx
            · exact hcmp
            · exact lt_of_lt_of_le hcmp (hLa.1 x hx)
        | eq =>
          -- a run on each side
          rw [hc] at hcmp
          have hkey : rowKey j a = rowKey j b := hcmp
          obtain ⟨t, r', hbuf, hlookr⟩ := bufferRun_spec fuel [] hr.rest hwideR
            (fun t ht => by cases ht) hfuelR
          obtain ⟨t', l', hcross, hlookl⟩ := crossRun_spec fuel emitted
            (b :: run (rowKey j) (rowKey j b) R) out hl.rest hwideL hb
            hkey.symm hfuelL
          have hpairs := @MergeJoin.pairs_run Row Row (List ℕ) _ (rowKey j) (rowKey j)
            (rowKey j a) (a :: run (rowKey j) (rowKey j a) L) (past (rowKey j) (rowKey j a) L)
            (b :: run (rowKey j) (rowKey j b) R) (past (rowKey j) (rowKey j b) R)
            (fun x hx => (List.mem_cons.mp hx).elim (fun h => congrArg _ h)
              MergeJoin.key_of_mem_run)
            (fun x hx => (List.mem_cons.mp hx).elim (fun h => hkey ▸ congrArg _ h)
              fun h => (MergeJoin.key_of_mem_run h).trans hkey.symm)
            (fun x hx => MergeJoin.lt_of_mem_past hL hx)
            (fun x hx => hkey ▸ MergeJoin.lt_of_mem_past hR hx)
          rw [cons_run_append_past, cons_run_append_past] at hpairs
          have hle := length_past_le (rowKey j a) L (j := j)
          have hle' := length_past_le (rowKey j b) R (j := j)
          rw [List.nil_append] at hbuf
          dsimp only [List.tail_cons] at hbuf hcross hlookl hlookr
          rw [hpairs, ← List.append_assoc, List.length_append, ← Nat.add_assoc, hbuf]
          change ∃ l' r', ((crossRun fuel j _ fuel out emitted a l).bind _) = _ ∧ _
          rw [hcross]
          exact ih _ _ hlookl hlookr (hLa.2.sublist (MergeJoin.past_sublist _ _))
            (hRb.2.sublist (MergeJoin.past_sublist _ _))
            (fun t ht => hwideL t (List.mem_cons_of_mem a ((MergeJoin.past_sublist _ _).mem ht)))
            (fun t ht => hwideR t (List.mem_cons_of_mem b ((MergeJoin.past_sublist _ _).mem ht)))
            (by omega) (by omega) (by omega)

/-! ## Any two iterators -/

/-- An iterator after some calls. -/
def afterCalls (fuel : ℕ) : ℕ → DlIter C → Except Stop (DlIter C)
  | 0, it => .ok it
  | n + 1, it => (dlIterNext fuel it).bind fun nxt => afterCalls fuel n nxt.2

/-- After some calls the others hand out what is left. -/
theorem yields_afterCalls {rows : List Row} {it : DlIter C} (h : Yields (dlIterNext fuel) rows it)
    (n : ℕ) : ∃ it', afterCalls fuel n it = .ok it' ∧
      Yields (dlIterNext fuel) (rows.drop n) it' ∧ it'.arity = it.arity := by
  induction n generalizing rows it with
  | zero => exact ⟨it, rfl, h, rfl⟩
  | succ n ih =>
    obtain ⟨t, it', hnext, hlook⟩ := Looks.of_yields h
    obtain ⟨it'', hcalls, hyields, harity⟩ := ih hlook.rest
    refine ⟨it'', ?_, ?_, harity.trans (dlIterNext_ok hnext).1⟩
    · rw [afterCalls, hnext]
      exact hcalls
    · rwa [List.drop_tail] at hyields

theorem Opened.arity_eq {src : Source C} {p : Row} {it : DlIter C} (h : Opened src p it) :
    it.arity = src.arity := by
  obtain ⟨-, start, -, harity, -, rfl⟩ := h.eq_reset
  rw [← harity]
  unfold iterResetStack
  split <;> rfl

/-- Rows in ascending order are different. -/
theorem nodup_of_rowBefore {rows : List Row} (h : rows.Pairwise RowBefore) : rows.Nodup :=
  h.imp fun hab heq => by
    subst heq
    exact absurd hab (by simp [RowBefore, rowLt_irrefl])

/-- **Iterators and their join.**  The calls on an iterator hand out the tuples with its
leading columns, each once and in ascending order, and then nothing for ever.  The join
of two iterators, after any calls on them, hands out each pair of the tuples they
have left that agrees on the leading columns once, gives their number and leaves
both iterators at their end. -/
theorem dlIter_exact (src : Source C) (src' : Source C') {p p' : Row} {l : DlIter C}
    {r : DlIter C'} (hl : Opened src p l) (hr : Opened src' p' r) :
    ∃ rows rows' : List Row,
      (rows.Pairwise RowBefore ∧ ∀ t, t ∈ rows ↔ t ∈ src.rows ∧ p <+: t) ∧
      (rows'.Pairwise RowBefore ∧ ∀ t, t ∈ rows' ↔ t ∈ src'.rows ∧ p' <+: t) ∧
      ∃ N, ∀ fuel ≥ N,
        (∀ n, MergeJoin.nth (dlIterNext fuel) n l = .ok rows[n]?) ∧
        (∀ n, MergeJoin.nth (dlIterNext fuel) n r = .ok rows'[n]?) ∧
        ∀ a b j, 1 ≤ j → j ≤ src.arity → j ≤ src'.arity → ∃ l₁ r₁ e,
          afterCalls fuel a l = .ok l₁ ∧ afterCalls fuel b r = .ok r₁ ∧
          dlMergeJoin fuel l₁ r₁ j = some (.ok e) ∧ e.pairs.Nodup ∧
          (∀ x y, (x, y) ∈ e.pairs ↔
            x ∈ rows.drop a ∧ y ∈ rows'.drop b ∧ x.take j = y.take j) ∧
          e.emitted = e.pairs.length ∧ e.l.exhausted = true ∧ e.r.exhausted = true := by
  obtain ⟨rows, hsorted, hmem, N, hN⟩ := yields_of_opened hl
  obtain ⟨rows', hsorted', hmem', N', hN'⟩ := yields_of_opened hr
  refine ⟨rows, rows', ⟨hsorted, hmem⟩, ⟨hsorted', hmem'⟩,
    max (max N N') (rows.length + rows'.length + 1), fun fuel hfuel => ?_⟩
  have hy := hN fuel (by omega)
  have hy' := hN' fuel (by omega)
  refine ⟨hy.nth, hy'.nth, fun a b j hj hle hle' => ?_⟩
  obtain ⟨l₁, hcalls, hy₁, harity⟩ := yields_afterCalls hy a
  obtain ⟨r₁, hcalls', hy₁', harity'⟩ := yields_afterCalls hy' b
  obtain ⟨lt, l₂, hnext, hlook⟩ := Looks.of_yields hy₁
  obtain ⟨rt, r₂, hnext', hlook'⟩ := Looks.of_yields hy₁'
  have hleft := (List.drop_sublist a rows)
  have hright := (List.drop_sublist b rows')
  have hlen := hleft.length_le
  have hlen' := hright.length_le
  obtain ⟨l₃, r₃, hrun, hexl, hexr⟩ := joinLoop_spec fuel 0 []
    hlook hlook' (sorted_rowKey (hsorted.sublist hleft) j) (sorted_rowKey (hsorted'.sublist hright) j)
    (fun t ht => by rwa [src.wide t ((hmem t).mp (hleft.mem ht)).1])
    (fun t ht => by rwa [src'.wide t ((hmem' t).mp (hright.mem ht)).1])
    (by omega) (by omega) (by omega)
  rw [List.nil_append, Nat.zero_add] at hrun
  have hnodup : (pairs (rowKey j) (rowKey j) (rows.drop a) (rows'.drop b)).Nodup :=
    MergeJoin.nodup_pairs (hleft.nodup (nodup_of_rowBefore hsorted))
      (hright.nodup (nodup_of_rowBefore hsorted'))
  have hjoin : dlMergeJoin fuel l₁ r₁ j =
      some (.ok ⟨pairs (rowKey j) (rowKey j) (rows.drop a) (rows'.drop b),
        (pairs (rowKey j) (rowKey j) (rows.drop a) (rows'.drop b)).length, l₃, r₃⟩) := by
    rw [dlMergeJoin, harity, harity', hl.arity_eq, hr.arity_eq, if_neg (by omega), hnext]
    change some ((dlIterNext fuel r₁).bind _) = _
    rw [hnext']
    exact congrArg some hrun
  refine ⟨l₁, r₁, _, hcalls, hcalls', hjoin, hnodup, fun x y => ?_, rfl, hexl, hexr⟩
  rw [← rowKey_eq_iff]
  exact MergeJoin.mem_pairs

/-- An automaton of pairs of two first columns, by its rows behind the first column and
behind each of the two. -/
def sampleRows (firsts ends ends' : List (UInt8 × ℕ)) : List (List (UInt8 × ℕ) × Bool) :=
  [([(0, 1)], false), ([(0, 2)], false), ([(0, 3)], false), (firsts, false),
    ([(0, 5)], false), ([(0, 6)], false), ([(0, 7)], false), (ends, false),
    ([(0, 9)], false), ([(0, 10)], false), ([(0, 11)], false), (ends', false),
    ([(0, 13)], false), ([], true)]

/-- The tuples `(1,2)`, `(1,3)` and `(2,2)`. -/
def leftRows : List (List (UInt8 × ℕ) × Bool) :=
  sampleRows [(1, 4), (2, 8)] [(2, 12), (3, 12)] [(2, 12)]

/-- The tuples `(1,9)`, `(1,10)` and `(3,1)`. -/
def rightRows : List (List (UInt8 × ℕ) × Bool) :=
  sampleRows [(1, 4), (3, 8)] [(9, 12), (10, 12)] [(1, 12)]

theorem acyclic_leftRows : Regex.Acyclic leftRows where
  det := by decide
  up := by decide
  live := by decide +kernel
  small := by decide

theorem acyclic_rightRows : Regex.Acyclic rightRows where
  det := by decide
  up := by decide
  live := by decide +kernel
  small := by decide

theorem sorted_tableAuto {rows : List (List (UInt8 × ℕ) × Bool)}
    (h : ∀ row ∈ rows, row.1.Pairwise fun e e' => e.1 < e'.1) (q : ℕ) :
    ((Regex.tableAuto rows).edges q).Pairwise fun e e' => e.1 < e'.1 := by
  cases hrow : rows[q]? with
  | none => simp [Regex.tableAuto, hrow]
  | some row => simpa [Regex.tableAuto, hrow] using h row (List.mem_of_getElem? hrow)

/-- The left tuples, in memory. -/
def leftSource : Source ℕ where
  engine := live (Regex.tableAuto leftRows)
  arity := 2
  arity_le := by decide
  rows := ⟨[[1, 2], [1, 3], [2, 2]], by decide⟩
  wide := by
    show ∀ r ∈ ([[1, 2], [1, 3], [2, 2]] : List Row), r.length = 2
    decide
  auto := Regex.tableAuto leftRows
  stores := by
    have h := acyclic_leftRows.stores
    have hkeys : ((Regex.tableAuto leftRows).tails leftRows.length 0).toFinset =
        (([[1, 2], [1, 3], [2, 2]] : List Row).map encodeRow).toFinset := by
      decide +kernel
    rwa [hkeys] at h
  sorted := sorted_tableAuto (by decide)
  rest q i := ((Regex.tableAuto leftRows).edges q).drop i
  reads := live_reads _

/-- The right tuples, in memory. -/
def rightSource : Source ℕ where
  engine := live (Regex.tableAuto rightRows)
  arity := 2
  arity_le := by decide
  rows := ⟨[[1, 9], [1, 10], [3, 1]], by decide⟩
  wide := by
    show ∀ r ∈ ([[1, 9], [1, 10], [3, 1]] : List Row), r.length = 2
    decide
  auto := Regex.tableAuto rightRows
  stores := by
    have h := acyclic_rightRows.stores
    have hkeys : ((Regex.tableAuto rightRows).tails rightRows.length 0).toFinset =
        (([[1, 9], [1, 10], [3, 1]] : List Row).map encodeRow).toFinset := by
      decide +kernel
    rwa [hkeys] at h
  sorted := sorted_tableAuto (by decide)
  rest q i := ((Regex.tableAuto rightRows).edges q).drop i
  reads := live_reads _

/-- All left tuples, and the right tuples after an open at `3` and a seek to `1`. -/
theorem dlIter_exact_sample :
    ∃ l r₀ r, dlIterOpen leftSource.engine 2 [] = some l ∧
      dlIterOpen rightSource.engine 2 [3] = some r₀ ∧ dlIterSeek r₀ [1] = some r ∧
      ∃ N, ∃ rows : List Row, (∀ t, t ∈ rows ↔ t = [1, 9] ∨ t = [1, 10]) ∧
        (∀ n, MergeJoin.nth (dlIterNext N) n r = .ok rows[n]?) ∧
        ∃ e, dlMergeJoin N l r 1 = some (.ok e) ∧
          ∀ x y, (x, y) ∈ e.pairs ↔ (x = [1, 2] ∨ x = [1, 3]) ∧ (y = [1, 9] ∨ y = [1, 10]) := by
  obtain ⟨l, hl⟩ := Option.isSome_iff_exists.1
    ((isSome_dlIterOpen leftSource.engine 2 []).2 (by decide))
  obtain ⟨r₀, hr₀⟩ := Option.isSome_iff_exists.1
    ((isSome_dlIterOpen rightSource.engine 2 [3]).2 (by decide))
  have harity : r₀.engine = rightSource.engine ∧ r₀.arity = 2 := by
    cases hr₀
    exact ⟨rfl, rfl⟩
  obtain ⟨r, hr⟩ := Option.isSome_iff_exists.1
    ((isSome_dlIterSeek r₀ [1]).2 (by rw [harity.2]; decide))
  refine ⟨l, r₀, r, hl, hr₀, hr, ?_⟩
  obtain ⟨rows, rows', ⟨-, hmem⟩, ⟨-, hmem'⟩, N, hN⟩ :=
    dlIter_exact leftSource rightSource (.inl hl) (.inr ⟨r₀, harity.1, harity.2, hr⟩)
  obtain ⟨-, hcalls, hjoin⟩ := hN N le_rfl
  have hleft : ∀ t : Row, t ∈ leftSource.rows ↔ t = [1, 2] ∨ t = [1, 3] ∨ t = [2, 2] := by
    intro t
    rw [Dafsa.mem_def]
    simp [leftSource]
  have hright : ∀ t : Row, t ∈ rightSource.rows ∧ [1] <+: t ↔ t = [1, 9] ∨ t = [1, 10] := by
    intro t
    rw [Dafsa.mem_def]
    simp only [rightSource, List.mem_cons, List.not_mem_nil, or_false]
    constructor
    · rintro ⟨rfl | rfl | rfl, h⟩
      · exact .inl rfl
      · exact .inr rfl
      · exact absurd h (by decide)
    · rintro (rfl | rfl) <;> decide
  obtain ⟨l₁, r₁, e, hl₁, hr₁, hrun, -, hpairs, -⟩ := hjoin 0 0 1 le_rfl (by decide) (by decide)
  cases hl₁
  cases hr₁
  refine ⟨N, rows', fun t => (hmem' t).trans (hright t), hcalls, e, hrun, fun x y => ?_⟩
  rw [hpairs, List.drop_zero, List.drop_zero, hmem, hmem', hright, hleft]
  constructor
  · rintro ⟨⟨rfl | rfl | rfl, -⟩, rfl | rfl, hkey⟩
    -- the first column of `(2,2)` is that of no tuple on the right
    all_goals first | decide | exact absurd hkey (by decide)
  · rintro ⟨rfl | rfl, rfl | rfl⟩ <;> simp

end DatalogDafsa.Iter
