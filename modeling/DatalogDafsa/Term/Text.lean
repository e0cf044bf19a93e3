import DatalogDafsa.Term.Canonical

/-!
# The text of a store is read back

A number in decimal is scanned as the number; a line of a node as the node; and the nodes
that a store was saved with are made again in their order, each of them new, so that every
handle stands for the list it stood for.  The reader takes no more than `termMaxNodes`
nodes, which the writer does not heed.

## Main definitions

* `scanUnsigned_decimal`, `scanNodeLine_nodeLine` — a number and a node.
* `loadNodes_spec`, `termLoad_termSave` — the nodes.
* `ListsOk`, `lists_iff` — what is asked of a store, and when it holds.
-/

namespace DatalogDafsa

open ConsCells (Denotes Older)

/-! ## Numbers -/

theorem toNat_digit {d : ℕ} (hd : d < 10) : (UInt8.ofNat (48 + d)).toNat = 48 + d := by
  rw [UInt8.toNat_ofNat']
  omega

theorem isDigit_iff (b : UInt8) : isDigit b = true ↔ 48 ≤ b.toNat ∧ b.toNat ≤ 57 := by
  rw [isDigit, Bool.and_eq_true, decide_eq_true_eq, decide_eq_true_eq, UInt8.le_iff_toNat_le,
    UInt8.le_iff_toNat_le]
  rfl

/-- A digit is neither a space nor a sign. -/
theorem not_space_of_isDigit {b : UInt8} (h : isDigit b = true) :
    isSpace b = false ∧ b ≠ 43 ∧ b ≠ 45 ∧ b ≠ 10 := by
  rw [isDigit_iff] at h
  have hne : ∀ c : UInt8, c.toNat < 48 → b ≠ c := by
    rintro c hc rfl
    omega
  refine ⟨?_, hne 43 (by decide), hne 45 (by decide), hne 10 (by decide)⟩
  simp only [isSpace, hne 32 (by decide), hne 9 (by decide), hne 10 (by decide),
    hne 11 (by decide), hne 12 (by decide), hne 13 (by decide), decide_false, Bool.or_self]

theorem decimal_isDigit (n : ℕ) : ∀ b ∈ decimal n, isDigit b = true := by
  unfold decimal
  split
  · intro b hb
    rw [List.mem_singleton.mp hb]
    decide
  · intro b hb
    obtain ⟨d, hd, rfl⟩ := List.mem_map.mp hb
    have hlt : d < 10 := Nat.digits_lt_base (by decide) (List.mem_reverse.mp hd)
    rw [isDigit_iff, toNat_digit hlt]
    omega

theorem decimal_ne_nil (n : ℕ) : decimal n ≠ [] := by
  unfold decimal
  split
  · exact List.cons_ne_nil _ _
  · rename_i hn
    intro h
    rw [List.map_eq_nil_iff, List.reverse_eq_nil_iff] at h
    exact hn (Nat.digits_eq_nil_iff_eq_zero.mp h)

/-- **Scanning digits** makes their number, as long as it is not too large. -/
theorem foldl_scanDigit {sat : ℕ} {ds : List ℕ} (hlt : ∀ d ∈ ds, d < 10)
    (hsat : Nat.ofDigits 10 ds ≤ sat) :
    (ds.reverse.map fun d => UInt8.ofNat (48 + d)).foldl (scanDigit sat) 0 =
      Nat.ofDigits 10 ds := by
  induction ds with
  | nil => rfl
  | cons d ds ih =>
    rw [Nat.ofDigits_cons] at hsat ⊢
    have hd := hlt d (List.mem_cons_self ..)
    have ih := ih (fun e he => hlt e (List.mem_cons_of_mem _ he)) (by omega)
    rw [List.reverse_cons, List.map_append, List.foldl_append, ih, List.map_singleton,
      List.foldl_cons, List.foldl_nil, scanDigit, toNat_digit hd]
    rw [Nat.add_sub_cancel_left, if_neg (by omega)]
    omega

theorem foldl_scanDigit_decimal {sat n : ℕ} (h : n ≤ sat) :
    (decimal n).foldl (scanDigit sat) 0 = n := by
  unfold decimal
  split
  · rename_i hn
    subst hn
    simp [scanDigit]
  · have hof : Nat.ofDigits 10 (Nat.digits 10 n) = n := Nat.ofDigits_digits 10 n
    rw [foldl_scanDigit (fun d hd => Nat.digits_lt_base (by decide) hd) (hof.symm ▸ h), hof]

/-- **A number is scanned**, behind spaces and before what is no digit. -/
theorem scanUnsigned_decimal {sat n : ℕ} (h : n ≤ sat) {spaces rest : List UInt8}
    (hspaces : ∀ b ∈ spaces, isSpace b = true) (hrest : ∀ b ∈ rest.head?, isDigit b = false) :
    scanUnsigned sat (spaces ++ (decimal n ++ rest)) = (⟨n, true, false⟩, rest) := by
  have hdigits := decimal_isDigit n
  have hscan := foldl_scanDigit_decimal h
  obtain ⟨b, bs, hb⟩ := List.exists_cons_of_ne_nil (decimal_ne_nil n)
  rw [hb] at hdigits hscan ⊢
  obtain ⟨hspace, hplus, hminus, -⟩ := not_space_of_isDigit (hdigits b (List.mem_cons_self ..))
  have hskip : (spaces ++ (b :: bs ++ rest)).dropWhile isSpace = b :: bs ++ rest := by
    rw [List.dropWhile_append_of_pos hspaces, List.cons_append,
      List.dropWhile_cons_of_neg (by rw [hspace]; exact Bool.false_ne_true)]
  have hrest' : rest.takeWhile isDigit = [] ∧ rest.dropWhile isDigit = rest := by
    cases rest with
    | nil => exact ⟨rfl, rfl⟩
    | cons c rest =>
      have hc := hrest c rfl
      exact ⟨List.takeWhile_cons_of_neg (by rw [hc]; exact Bool.false_ne_true),
        List.dropWhile_cons_of_neg (by rw [hc]; exact Bool.false_ne_true)⟩
  unfold scanUnsigned
  rw [hskip]
  dsimp only
  have hhead : (b :: bs ++ rest).head? = some b := rfl
  simp only [hhead, Option.any_some, hplus, hminus, decide_false, Bool.or_self, Bool.false_eq_true,
    if_false]
  rw [List.takeWhile_append_of_pos hdigits, List.dropWhile_append_of_pos hdigits, hrest'.1,
    hrest'.2, List.append_nil, hscan]
  rfl

/-! ## Lines -/

theorem nextLine_line {line : List UInt8} (h : 10 ∉ line) (rest : List UInt8) :
    nextLine (line ++ 10 :: rest) = some (line ++ [10], rest) := by
  have hpos : ∀ b ∈ line, (b != 10) = true := fun b hb => by
    rw [bne_iff_ne]
    exact fun h0 => h (h0 ▸ hb)
  unfold nextLine
  rw [if_neg (by simp)]
  dsimp only
  rw [List.takeWhile_append_of_pos hpos, List.dropWhile_append_of_pos hpos,
    List.takeWhile_cons_of_neg (by decide), List.dropWhile_cons_of_neg (by decide)]
  simp

theorem newline_notMem_decimal (n : ℕ) : (10 : UInt8) ∉ decimal n := fun h =>
  (not_space_of_isDigit (decimal_isDigit n 10 h)).2.2.2 rfl

/-- **A node is scanned.** -/
theorem scanNodeLine_nodeLine (c : Cell) : scanNodeLine (nodeLine c) = some c := by
  have hmax : ∀ v : Val, v.toNat ≤ 2 ^ 32 - 1 := fun v => by
    have := v.toNat_lt
    omega
  have hfirst : scanUnsigned (2 ^ 32 - 1) (nodeLine c) =
      (⟨c.1.toNat, true, false⟩, 32 :: (decimal c.2.toNat ++ [10])) :=
    @scanUnsigned_decimal _ _ (hmax c.1) [] _ (fun b hb => by cases hb) fun b hb => by
      cases hb
      decide
  have hsecond : scanUnsigned (2 ^ 32 - 1) (32 :: (decimal c.2.toNat ++ [10])) =
      (⟨c.2.toNat, true, false⟩, [10]) :=
    @scanUnsigned_decimal _ _ (hmax c.2) [32] _
      (fun b hb => by rw [List.mem_singleton.mp hb]; decide) fun b hb => by
        cases hb
        decide
  unfold scanNodeLine
  dsimp only
  rw [hfirst]
  dsimp only
  rw [hsecond]
  simp [ScanU.toVal]

theorem nextLine_nodeLine (c : Cell) (rest : List UInt8) :
    nextLine (nodeLine c ++ rest) = some (nodeLine c, rest) := by
  have hline : nodeLine c = (decimal c.1.toNat ++ 32 :: decimal c.2.toNat) ++ [10] := by
    simp [nodeLine]
  have hno : (10 : UInt8) ∉ decimal c.1.toNat ++ 32 :: decimal c.2.toNat := by
    simp only [List.mem_append, List.mem_cons, not_or]
    exact ⟨newline_notMem_decimal _, by decide, newline_notMem_decimal _⟩
  rw [hline, List.append_assoc, List.singleton_append, nextLine_line hno]

/-! ## Loading -/

/-- **The nodes of a store are made again**, each of them new. -/
theorem loadNodes_spec {T : Termstore} (hT : TermOk T) (hfew : T.nodes.length ≤ termMaxNodes)
    (more : List Cell) {t : Termstore} (ok : TermOk t) (hmore : T.nodes = t.nodes ++ more) :
    ∃ t', loadNodes more.length t.nodes.length t (more.flatMap nodeLine) = some t' ∧ TermOk t' ∧
      t'.nodes = T.nodes := by
  induction more generalizing t with
  | nil => exact ⟨t, rfl, ok, by rw [hmore, List.append_nil]⟩
  | cons c more ih =>
    have hpos := ok.length_pos
    have htail : T.nodes.tail = t.nodes.tail ++ c :: more := by
      rw [hmore, ok.first]
      rfl
    have hlen := ok.length_tail
    have hc : T.nodes.tail[t.nodes.tail.length]? = some c := by
      rw [htail, List.getElem?_append_right le_rfl, Nat.sub_self]
      rfl
    obtain ⟨j, hj, hrest⟩ := hT.tails _ c hc
    have hnew : c ∉ t.nodes.tail := fun h => by
      have hnodup := hT.nodup
      rw [htail, List.nodup_append] at hnodup
      exact hnodup.2.2 c h c (List.mem_cons_self ..) rfl
    have hcell : c = (c.1, handle j) := by rw [← hrest]
    have hlenT : T.nodes.length = t.nodes.length + (more.length + 1) := by
      rw [hmore, List.length_append, List.length_cons]
    have hmax : termMaxNodes = 67108864 := rfl
    have hroom := termRoom_eq
    rw [List.flatMap_cons, List.length_cons, loadNodes, nextLine_nodeLine]
    dsimp only
    rw [scanNodeLine_nodeLine]
    dsimp only
    rw [if_neg (by omega)]
    rcases termCons_spec ok c.1 (show j < t.nodes.length by omega) with
      ⟨t₁, i, hcons, ok₁, hi, hget, hnodes⟩ | ⟨hcons, hfull⟩
    · rw [← hcell, if_neg hnew] at hnodes
      have hlt : i < t₁.nodes.length := (List.getElem?_eq_some_iff.mp hget).1
      have hlen₁ : t₁.nodes.length = t.nodes.length + 1 := by
        rw [hnodes, List.length_append, List.length_singleton]
      rw [hrest, hcons]
      dsimp only
      rw [if_neg (handle_ne_zero (by omega)), ← hlen₁]
      exact ih ok₁ (by rw [hnodes, hmore, List.append_assoc, List.singleton_append])
    · omega

/-- Whatever is loaded keeps the invariant. -/
theorem loadNodes_ok {n i : ℕ} {t t' : Termstore} {bytes : List UInt8} (ok : TermOk t)
    (h : loadNodes n i t bytes = some t') : TermOk t' := by
  induction n generalizing i t bytes with
  | zero =>
    cases h
    exact ok
  | succ n ih =>
    rw [loadNodes] at h
    split at h
    · cases h
    · split at h
      · cases h
      · split at h
        · split at h
          · exact ih ok h
          · cases h
        · rename_i cell _ _
          obtain ⟨t₁, v, hcons, ok₁, -⟩ := ok.termCons cell.1 cell.2
          rw [hcons] at h
          dsimp only at h
          split at h
          · cases h
          · exact ih ok₁ h

theorem TermOk.setDirty {t : Termstore} (ok : TermOk t) (dirty : Bool) :
    TermOk { t with dirty } :=
  ⟨ok.first, ok.tails, ok.nodup, ok.table, ok.used, ok.load, ok.slots, ok.many, ok.room, ok.le⟩

theorem termOpen_ok {start : Option (List UInt8)} {t : Termstore} (h : termOpen start = some t) :
    TermOk t := by
  cases start with
  | none =>
    cases h
    exact termOk_create
  | some bytes =>
    unfold termOpen termLoad at h
    dsimp only at h
    split at h
    · cases h
    · split at h
      · cases h
      · split at h
        · cases h
        · rename_i t₁ hload
          split at h
          · cases h
            exact (loadNodes_ok termOk_create hload).setDirty false
          · cases h

/-- The number of the nodes is scanned. -/
theorem header_termSave {t : Termstore} (hlen : t.nodes.length ≤ 2 ^ 64 - 1) :
    nextLine (termSave t) = some (decimal t.nodes.length ++ [10], t.nodes.flatMap nodeLine) ∧
      (scanUnsigned (2 ^ 64 - 1) (decimal t.nodes.length ++ [10])).1 =
        ⟨t.nodes.length, true, false⟩ := by
  refine ⟨nextLine_line (newline_notMem_decimal _) _, ?_⟩
  have hscan := @scanUnsigned_decimal _ _ hlen [] [10] (fun b hb => by cases hb) fun b hb => by
      cases hb
      decide
  exact congrArg Prod.fst hscan

/-- **What is saved is read back**, if there are not too many nodes. -/
theorem termLoad_termSave {t : Termstore} (ok : TermOk t) :
    (t.nodes.length ≤ termMaxNodes → ∃ t', termLoad (termSave t) = some t' ∧ TermOk t' ∧
        t'.nodes = t.nodes) ∧
      (termMaxNodes < t.nodes.length → termLoad (termSave t) = none) := by
  have hfew := ok.few
  have hroom := termRoom_eq
  have hpos := ok.length_pos
  obtain ⟨hline, hcount⟩ := @header_termSave t (by omega)
  unfold termLoad
  rw [hline]
  dsimp only
  rw [hcount]
  dsimp only
  constructor
  · intro hle
    obtain ⟨t', hload, ok', hnodes⟩ := loadNodes_spec ok hle t.nodes.tail termOk_create ok.first
    have hfirst : loadNodes t.nodes.length 0 termCreate (t.nodes.flatMap nodeLine) = some t' := by
      rw [ok.first, List.length_cons, List.flatMap_cons, loadNodes, nextLine_nodeLine]
      dsimp only
      rw [scanNodeLine_nodeLine]
      exact hload
    have hcheck : ¬ (true = false ∨ t.nodes.length = 0 ∨ termMaxNodes < t.nodes.length) := by
      rintro (hany | hzero | hmany)
      · cases hany
      · omega
      · omega
    rw [if_neg hcheck, hfirst]
    dsimp only
    rw [if_pos (congrArg List.length hnodes)]
    exact ⟨_, rfl, ok'.setDirty false, hnodes⟩
  · intro hmany
    rw [if_pos (.inr (.inr hmany))]

/-! ## What is asked of a store -/

/-- What is asked of a store: lists and handles go together, the rest of a list is older,
the calls make the lists they are for and keep the others, and what is saved is read
back. -/
structure ListsOk (t : Termstore) : Prop where
  /-- A list has one handle. -/
  canonical : ∀ a b, termIsList t a = true → termIsList t b = true →
    (a = b ↔ t.elements a = t.elements b)
  /-- The rest of a list is older. -/
  older : ∀ h, termIsList t h = true → h ≠ termNil →
    termIsList t (termCdr t h) = true ∧ termCdr t h < h
  /-- A list ends. -/
  length : ∀ h, termIsList t h = true →
    ∃ xs, t.elements h = some xs ∧ termLength t h = some xs.length
  /-- A list with one more element. -/
  cons : ∀ x h xs, termIsList t h = true → t.elements h = some xs →
    ∃ t' r, termCons t x h = some (t', r) ∧ Keeps t t' ∧ termIsList t' r = true ∧
      t'.elements r = some (x :: xs)
  /-- The concatenation. -/
  append : ∀ a b xs ys, termIsList t a = true → termIsList t b = true → t.elements a = some xs →
    t.elements b = some ys → ∃ t' r, termAppend t a b = some (t', r) ∧ Keeps t t' ∧
      termIsList t' r = true ∧ t'.elements r = some (xs ++ ys) ∧
      termLength t' r = some (xs.length + ys.length)
  /-- What is saved is read back. -/
  saved : ∃ t', termLoad (termSave t) = some t' ∧ ∀ h, termIsList t' h = termIsList t h ∧
    (termIsList t h = true → t'.elements h = t.elements h)

/-- A store that is not too large. -/
theorem TermOk.listsOk {t : Termstore} (ok : TermOk t) (hfew : t.nodes.length ≤ termMaxNodes) :
    ListsOk t := by
  have hmax : termMaxNodes = 67108864 := rfl
  have hroom := termRoom_eq
  refine ⟨fun a b ha hb => ?_, fun h hh hne => ?_, fun h hh => ?_, fun x h xs hh hxs => ?_,
    fun a b xs ys ha hb hxs hys => ?_, ?_⟩
  · obtain ⟨i, xs, rfl, hxs⟩ := ok.denotes ha
    obtain ⟨j, ys, rfl, hys⟩ := ok.denotes hb
    refine ⟨fun h => by rw [h], fun h => ?_⟩
    rw [(ok.elements_eq hxs).1, (ok.elements_eq hys).1, Option.some.injEq] at h
    rw [hxs.inj ok.nodup_cells (h ▸ hys)]
  · obtain ⟨i, xs, rfl, hxs⟩ := ok.denotes hh
    cases hxs with
    | nil => exact absurd rfl hne
    | @cons p j x xs hp hrest =>
      have hlt := ok.lt_of_denotes (.cons hp hrest)
      have hj := ok.older p x j hp
      rw [(ok.node hp).2.2, handle_lt (by omega) (by omega)]
      exact ⟨(ok.isList_iff _).mpr ⟨j, by omega, rfl⟩, by omega⟩
  · obtain ⟨i, xs, rfl, hxs⟩ := ok.denotes hh
    exact ⟨xs, ok.elements_eq hxs⟩
  · obtain ⟨i, xs', rfl, hxs'⟩ := ok.denotes hh
    obtain rfl : xs' = xs := Option.some.inj ((ok.elements_eq hxs').1.symm.trans hxs)
    obtain ⟨t', v, hcons, ok', hgrows, -, hres⟩ := ok.cons x hxs'
    rcases hres with ⟨r, rfl, hr⟩ | ⟨-, hfull⟩
    · exact ⟨t', _, hcons, ok.keeps ok' hgrows, (ok'.isList_iff _).mpr ⟨r, ok'.lt_of_denotes hr, rfl⟩,
        (ok'.elements_eq hr).1⟩
    · omega
  · obtain ⟨i, xs', rfl, hxs'⟩ := ok.denotes ha
    obtain ⟨j, ys', rfl, hys'⟩ := ok.denotes hb
    obtain rfl : xs' = xs := Option.some.inj ((ok.elements_eq hxs').1.symm.trans hxs)
    obtain rfl : ys' = ys := Option.some.inj ((ok.elements_eq hys').1.symm.trans hys)
    obtain ⟨t', v, happ, ok', hgrows, hres⟩ := termAppend_spec ok hxs' hys'
    have hlen : xs'.length ≤ i := by
      obtain ⟨zs, hzs, hle⟩ := ok.older.denotes i hxs'.le
      rwa [hxs'.unique hzs]
    have hi := ok.lt_of_denotes hxs'
    rcases hres with ⟨r, rfl, hr⟩ | ⟨-, hfull⟩
    · obtain ⟨helems, hlength⟩ := ok'.elements_eq hr
      rw [List.length_append] at hlength
      exact ⟨t', _, happ, ok.keeps ok' hgrows,
        (ok'.isList_iff _).mpr ⟨r, ok'.lt_of_denotes hr, rfl⟩, helems, hlength⟩
    · omega
  · obtain ⟨t', hload, ok', hnodes⟩ := (termLoad_termSave ok).1 hfew
    refine ⟨t', hload, fun h => ⟨by rw [termIsList, termIsList, hnodes], fun hh => ?_⟩⟩
    exact (ok.keeps ok' (hnodes ▸ List.prefix_rfl) h hh).2

/-- **A list has one handle**, which keeps its meaning through every run; and a store is
what it is for exactly when it has no more nodes than the reader takes. -/
theorem lists_iff {start : Option (List UInt8)} {t₀ : Termstore} (h : termOpen start = some t₀)
    (calls : List TermCall) :
    ∃ t, termRun t₀ calls = some t ∧ Keeps t₀ t ∧
      (ListsOk t ↔ t.nodes.length ≤ termMaxNodes) := by
  have ok₀ := termOpen_ok h
  obtain ⟨t, hrun, ok, hgrows⟩ := termRun_spec ok₀ calls
  refine ⟨t, hrun, ok₀.keeps ok hgrows, fun hok => ?_, ok.listsOk⟩
  by_contra hmany
  obtain ⟨t', hload, -⟩ := hok.saved
  rw [(termLoad_termSave ok).2 (not_le.mp hmany)] at hload
  cases hload

/-- Two lists and their concatenation, in a new store. -/
theorem lists_iff_sample :
    ∃ t, termRun termCreate [.cons 7 termNil, .cons 8 (handle 1), .append (handle 2) (handle 1)] =
        some t ∧ Keeps termCreate t ∧ (ListsOk t ↔ t.nodes.length ≤ termMaxNodes) :=
  lists_iff (show termOpen none = some termCreate from rfl) _

/-- Lists of zeros, each with one element more than the one before. -/
def zeros (n : ℕ) : List TermCall := (List.range n).map fun i => .cons 0 (handle i)

theorem termRun_zeros {n : ℕ} (hn : n ≤ termMaxNodes) :
    ∃ t, termRun termCreate (zeros n) = some t ∧ TermOk t ∧
      t.nodes = (0, 0) :: (List.range n).map fun i => (0, handle i) := by
  have hmax : termMaxNodes = 67108864 := rfl
  have hroom := termRoom_eq
  induction n with
  | zero => exact ⟨_, rfl, termOk_create, rfl⟩
  | succ n ih =>
    obtain ⟨t, hrun, ok, hnodes⟩ := ih (by omega)
    have hlen : t.nodes.length = n + 1 := by simp [hnodes]
    have hnew : ((0 : Val), handle n) ∉ t.nodes.tail := by
      rw [hnodes, List.tail_cons, List.mem_map]
      rintro ⟨i, hi, heq⟩
      have hlt := List.mem_range.mp hi
      have := handle_inj (by omega) (by omega) (Prod.mk.inj heq).2
      omega
    rcases termCons_spec ok 0 (show n < t.nodes.length by omega) with
      ⟨t', i, hcons, ok', -, -, hnodes'⟩ | ⟨-, hfull⟩
    · refine ⟨t', ?_, ok', ?_⟩
      · unfold termRun zeros at hrun ⊢
        rw [List.range_succ, List.map_append, List.foldlM_append, hrun]
        simp [termStep, hcons]
      · rw [hnodes', if_neg hnew, hnodes, List.range_succ, List.map_append, List.cons_append]
        rfl
    · omega

/-- A store of `2 ^ 26 + 1` nodes is saved, and is not read back. -/
theorem not_listsOk_zeros :
    ¬ ∃ t, termRun termCreate (zeros (2 ^ 26)) = some t ∧ ListsOk t := by
  rintro ⟨t, hrun, hok⟩
  obtain ⟨t₁, hrun₁, ok, hnodes⟩ := termRun_zeros (n := 2 ^ 26) le_rfl
  obtain rfl : t₁ = t := Option.some.inj (hrun₁.symm.trans hrun)
  have hlen : t₁.nodes.length = 2 ^ 26 + 1 := by
    rw [hnodes, List.length_cons, List.length_map, List.length_range]
  obtain ⟨t', hload, -⟩ := hok.saved
  rw [(termLoad_termSave ok).2 (by rw [hlen]; exact Nat.lt_succ_self _)] at hload
  cases hload

end DatalogDafsa
