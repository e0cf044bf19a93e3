import DatalogDafsa.Lib.EditDistance
import DatalogDafsa.Regex.Dfa

/-!
# Levenshtein automata

`lev_compile` builds the automaton of the strings within `k` edits of a pattern: its
states are rows of the dynamic program, clamped at `k + 1`, found breadth first over
classes of bytes.  `lev_distance_cap` computes the distance itself in one row of `u32`
cells, changed in place.

## Main definitions

* `levStep`, `levMapFindOrAdd`, `levCompile` — the compiler.
* `levDistanceCap` — the distance; none when a `u32` addition overflows.
* `levCompile_accepts` — the automaton accepts the strings within `k` edits.
* `levDistanceCap_eq` — where the distance is right, and where it overflows.
-/

namespace DatalogDafsa.Regex

open Probe Explore EditDistance

/-! ## The compiler -/

/-- `LEV_MAX_K`. -/
def levMaxK : ℕ := 2

/-- `LEV_PATTERN_MAX`. -/
def levPatternMax : ℕ := 512

/-- `FNV_OFFSET`. -/
def fnvOffset : ℕ := 14695981039346656037

/-- `FNV_PRIME`. -/
def fnvPrime : ℕ := 1099511628211

/-- `levHashRow`. -/
def levHashRow (row : List ℕ) : ℕ :=
  row.foldl (fun h v => (h ^^^ v) * fnvPrime % 2 ^ 64) fnvOffset

/-- `levMapGrow`. -/
def levMapGrow (map : Table (List ℕ)) : Table (List ℕ) := grow levHashRow map

/-- `levMapFindOrAdd`.  A slot keeps the hash of its row, so comparing the hashes first
changes nothing. -/
def levMapFindOrAdd (map : Table (List ℕ)) (row : List ℕ) (newId : ℕ) :
    Table (List ℕ) × ℕ × Bool :=
  let map := if map.cap * 3 ≤ map.used * 4 then levMapGrow map else map
  match probe (fun row' => row' = row) map map.cap (levHashRow row % map.cap) with
  | .found id => (map, id, false)
  | .empty idx => (map.put idx row newId, newId, true)
  -- there is always an empty slot
  | .full => (map, newId, false)

/-- The loop of `levStep`: `diag` is `row[j - 1]`, `left` is `out[j - 1]`. -/
def levStepFrom (clamp : ℕ) (ch : UInt8) : ℕ → ℕ → List ℕ → List UInt8 → List ℕ
  | diag, left, up :: row, p :: pat =>
    let sub := if p = ch then 0 else 1
    let x := up + 1
    let x := if left + 1 < x then left + 1 else x
    let x := if diag + sub < x then diag + sub else x
    let x := if clamp < x then clamp else x
    x :: levStepFrom clamp ch up x row pat
  | _, _, _, _ => []

/-- The least cell of a row. -/
def rowMin (v : ℕ) (row : List ℕ) : ℕ := row.foldl min v

/-- `levStep`; none when the new row is dead. -/
def levStep (row : List ℕ) (pat : List UInt8) (k : ℕ) (ch : UInt8) : Option (List ℕ) :=
  match row with
  | [] => none
  | r :: row =>
    let clamp := k + 1
    let v := if clamp < r + 1 then clamp else r + 1
    let out := levStepFrom clamp ch r v row pat
    if rowMin v out ≤ k then some (v :: out) else none

/-- All bytes. -/
def allBytes : List UInt8 := (List.range 256).map UInt8.ofNat

/-- The distinct bytes of the pattern, in order. -/
def patBytes (pattern : List UInt8) : List UInt8 := allBytes.filter (pattern.contains ·)

/-- A byte for each class: those of the pattern, then one it does not contain. -/
def classRep (pattern : List UInt8) : List UInt8 :=
  patBytes pattern ++
    if (patBytes pattern).length < 256 then
      [(allBytes.find? fun b => !pattern.contains b).getD 0]
    else []

/-- The class of a byte. -/
def classOf (pattern : List UInt8) (b : UInt8) : ℕ :=
  if pattern.contains b then (patBytes pattern).idxOf b else (patBytes pattern).length

/-- The row of the empty text. -/
def levStart (pattern : List UInt8) (k : ℕ) : List ℕ :=
  (List.range (pattern.length + 1)).map fun j => if j < k + 1 then j else k + 1

/-- The rows as an automaton over the classes. -/
def levMachine (pattern : List UInt8) (k : ℕ) : Machine (List ℕ) where
  letters := (classRep pattern).length
  start := levStart pattern k
  step row c := levStep row pattern k ((classRep pattern).getD c 0)
  accept row := decide (row.getLastD 0 ≤ k)
  findOrAdd := levMapFindOrAdd
  table := Table.empty 256

/-- The bounds of the search; it is never given up early. -/
def levLimits : Limits where
  cap := regexDfaMaxStates
  capMsg := "lev: state cap exceeded (50000: pattern too long for k)"
  abort := regexDfaMaxStates + 1
  abortMsg := ""
  dead := dfaDead

/-- `lev_compile`, on the bytes before the NUL of `pattern`. -/
def levCompile (pattern : List UInt8) (k : ℕ) : Except String Dfa :=
  if pattern = [] then .error "lev: empty pattern"
  else if levMaxK < k then
    .error "lev: k must be 0..2 (k>=3 refused: automaton state explosion)"
  else if levPatternMax < pattern.length then
    .error "lev: pattern too long (max 512 bytes)"
  else
    match explore (levMachine pattern k) levLimits with
    | .error e => .error e
    | .ok s => .ok (Dfa.ofTable s.rows s.accept (classOf pattern))

/-! ## The numbering table -/

theorem levMapFindOrAdd_spec (pattern : List UInt8) (k : ℕ) :
    FindSpec levHashRow (levMachine pattern k) := by
  intro t S row new hinv
  show ∃ t' id isNew, levMapFindOrAdd t row new = (t', id, isNew) ∧ _
  have hgrown : ∃ t', (if t.cap * 3 ≤ t.used * 4 then levMapGrow t else t) = t' ∧
      Inv levHashRow t' S ∧ t'.used < t'.cap := by
    by_cases hfull : t.cap * 3 ≤ t.used * 4
    · obtain ⟨hinv', hcap, hused⟩ := hinv.grow
      have := hinv.cap_pos
      have := hinv.used_le
      refine ⟨_, if_pos hfull, hinv', ?_⟩
      rw [levMapGrow, hcap, hused]
      omega
    · exact ⟨t, if_neg hfull, hinv, by omega⟩
  obtain ⟨t', hgrow, hinv', hused⟩ := hgrown
  rw [levMapFindOrAdd, hgrow]
  rcases hinv'.probe hused row with ⟨id, hid, hres⟩ | ⟨hno, D, hD, hslot, hpath, hres⟩
  · exact ⟨t', id, false, by simp only [hres], .inl ⟨rfl, hid, hinv'⟩⟩
  · exact ⟨_, new, true, by simp only [hres],
      .inr ⟨rfl, rfl, hno, hinv'.put hno hslot hD hpath new⟩⟩

/-! ## Rows are clamped distances -/

theorem rowMin_le_iff {v k : ℕ} {row : List ℕ} : rowMin v row ≤ k ↔ ∃ d ∈ v :: row, d ≤ k := by
  unfold rowMin
  induction row generalizing v with
  | nil => simp
  | cons d row ih =>
    rw [List.foldl_cons, ih]
    simp only [List.mem_cons, exists_eq_or_imp, min_le_iff]
    tauto

/-- The row of the distances from the prefixes of the pattern, clamped. -/
def levRow (pattern : List UInt8) (k : ℕ) (w : List UInt8) : List ℕ :=
  (distRow [] pattern w).map (min · (k + 1))

theorem levStart_eq (pattern : List UInt8) (k : ℕ) : levStart pattern k = levRow pattern k [] := by
  rw [levStart, levRow, distRow_nil_right, List.length_nil, ← List.range_eq_range']
  refine List.map_congr_left fun j _ => ?_
  split <;> omega

/-- The cells of a step are clamped distances. -/
theorem levStepFrom_eq (k : ℕ) (pre suf w : List UInt8) (ch : UInt8) :
    levStepFrom (k + 1) ch (min (editDist pre w) (k + 1)) (min (editDist pre (w ++ [ch])) (k + 1))
        ((distRow pre suf w).tail.map (min · (k + 1))) suf =
      (distRow pre suf (w ++ [ch])).tail.map (min · (k + 1)) := by
  induction suf generalizing pre with
  | nil => simp [distRow, levStepFrom]
  | cons x suf ih =>
    have hcell := editDist_snoc_snoc x ch pre w
    have hcost : (if x = ch then 0 else 1) = cost x ch := rfl
    have hstep := ih (pre ++ [x])
    rw [distRow, List.tail_cons, distRow_eq_cons (pre ++ [x]) suf w, List.map_cons, levStepFrom,
      distRow, List.tail_cons, distRow_eq_cons (pre ++ [x]) suf (w ++ [ch]), List.map_cons,
      ← hstep]
    simp only [hcost]
    have hmin : (let x' := min (editDist (pre ++ [x]) w) (k + 1) + 1
        let x' := if min (editDist pre (w ++ [ch])) (k + 1) + 1 < x' then
          min (editDist pre (w ++ [ch])) (k + 1) + 1 else x'
        let x' := if min (editDist pre w) (k + 1) + cost x ch < x' then
          min (editDist pre w) (k + 1) + cost x ch else x'
        if k + 1 < x' then k + 1 else x') = min (editDist (pre ++ [x]) (w ++ [ch])) (k + 1) := by
      rw [hcell]
      dsimp only
      split_ifs <;> omega
    dsimp only at hmin
    rw [hmin]

/-- **One step of a row** is the row of one more byte; it is dead when every prefix of the
pattern is too far away. -/
theorem levStep_levRow (pattern : List UInt8) (k : ℕ) (w : List UInt8) (ch : UInt8) :
    (Far k pattern (w ++ [ch]) ∧ levStep (levRow pattern k w) pattern k ch = none) ∨
      ¬ Far k pattern (w ++ [ch]) ∧
        levStep (levRow pattern k w) pattern k ch = some (levRow pattern k (w ++ [ch])) := by
  have hhead : (if k + 1 < min (editDist [] w) (k + 1) + 1 then k + 1
      else min (editDist [] w) (k + 1) + 1) = min (editDist [] (w ++ [ch])) (k + 1) := by
    rw [← min_def_lt, editDist_nil_left, editDist_nil_left, List.length_append,
      List.length_singleton]
    omega
  have hcells := levStepFrom_eq k [] pattern w ch
  have hout : levRow pattern k (w ++ [ch]) = min (editDist [] (w ++ [ch])) (k + 1) ::
      (distRow [] pattern (w ++ [ch])).tail.map (min · (k + 1)) := by
    rw [levRow, distRow_eq_cons, List.map_cons, List.tail_cons]
  have hmin : rowMin (min (editDist [] (w ++ [ch])) (k + 1))
      ((distRow [] pattern (w ++ [ch])).tail.map (min · (k + 1))) ≤ k ↔
        ¬ Far k pattern (w ++ [ch]) := by
    rw [rowMin_le_iff, ← hout, far_iff_distRow, levRow]
    simp only [List.mem_map, not_forall, not_lt]
    constructor
    · rintro ⟨_, ⟨d, hd, rfl⟩, hle⟩
      exact ⟨d, hd, by omega⟩
    · rintro ⟨d, hd, hle⟩
      exact ⟨_, ⟨d, hd, rfl⟩, by omega⟩
  have hstep : levStep (levRow pattern k w) pattern k ch =
      if rowMin (min (editDist [] (w ++ [ch])) (k + 1))
          ((distRow [] pattern (w ++ [ch])).tail.map (min · (k + 1))) ≤ k then
        some (levRow pattern k (w ++ [ch])) else none := by
    rw [levRow, distRow_eq_cons, List.map_cons, levStep]
    simp only [hhead]
    rw [hcells, ← hout]
  by_cases hfar : Far k pattern (w ++ [ch])
  · exact .inl ⟨hfar, hstep.trans (if_neg fun hle => hmin.mp hle hfar)⟩
  · exact .inr ⟨hfar, hstep.trans (if_pos (hmin.mpr hfar))⟩

/-! ## Classes stand for their bytes -/

theorem mem_allBytes (b : UInt8) : b ∈ allBytes :=
  List.mem_map.mpr ⟨b.toNat, List.mem_range.mpr b.toNat_lt, UInt8.ofNat_toNat⟩

theorem mem_patBytes {pattern : List UInt8} {b : UInt8} : b ∈ patBytes pattern ↔ b ∈ pattern := by
  rw [patBytes, List.mem_filter, List.contains_iff_mem]
  exact and_iff_right (mem_allBytes b)

/-- A byte the pattern does not contain leaves room for a class. -/
theorem patBytes_length_lt {pattern : List UInt8} {b : UInt8} (hb : b ∉ pattern) :
    (patBytes pattern).length < 256 := by
  have hne : patBytes pattern ≠ allBytes := fun h =>
    hb (mem_patBytes.mp (h ▸ mem_allBytes b))
  have hsub : (patBytes pattern).Sublist allBytes := List.filter_sublist
  have hlen : allBytes.length = 256 := by simp [allBytes]
  refine lt_of_le_of_ne (hlen ▸ hsub.length_le) fun heq => ?_
  exact hne (hsub.eq_of_length (heq.trans hlen.symm))

/-- **The representative of a class** meets the bytes of the pattern as every byte of
the class does. -/
theorem classRep_spec (pattern : List UInt8) (b : UInt8) :
    classOf pattern b < (classRep pattern).length ∧
      ∀ p ∈ pattern, p = (classRep pattern).getD (classOf pattern b) 0 ↔ p = b := by
  unfold classOf
  by_cases hb : b ∈ pattern
  · rw [if_pos (List.contains_iff_mem.mpr hb)]
    have hlt : (patBytes pattern).idxOf b < (patBytes pattern).length :=
      List.idxOf_lt_length_of_mem (mem_patBytes.mpr hb)
    refine ⟨?_, fun p _ => ?_⟩
    · rw [classRep, List.length_append]
      omega
    · rw [classRep, List.getD_eq_getElem?_getD, List.getElem?_append_left hlt,
        List.getElem?_eq_getElem hlt, List.getElem_idxOf hlt, Option.getD_some]
  · have hlt := patBytes_length_lt hb
    rw [if_neg (fun h => hb (List.contains_iff_mem.mp h)), classRep, if_pos hlt]
    refine ⟨by simp, fun p hp => ?_⟩
    have hrep : (allBytes.find? fun b => !pattern.contains b).getD 0 ∉ pattern := by
      cases hfind : allBytes.find? fun b => !pattern.contains b with
      | none =>
        have := List.find?_eq_none.mp hfind b (mem_allBytes b)
        simp [hb] at this
      | some r =>
        have := List.find?_some hfind
        simpa using this
    rw [List.getD_eq_getElem?_getD, List.getElem?_concat_length, Option.getD_some]
    exact ⟨fun h => absurd (h ▸ hp) hrep, fun h => absurd (h ▸ hp) hb⟩

theorem levStepFrom_congr {pat : List UInt8} {b b' : UInt8} (h : ∀ p ∈ pat, p = b ↔ p = b')
    (clamp diag left : ℕ) (row : List ℕ) :
    levStepFrom clamp b diag left row pat = levStepFrom clamp b' diag left row pat := by
  induction pat generalizing diag left row with
  | nil => cases row <;> rfl
  | cons p pat ih =>
    cases row with
    | nil => rfl
    | cons up row =>
      have hsub : (if p = b then 0 else 1) = if p = b' then 0 else 1 :=
        if_congr (h p (List.mem_cons_self ..)) rfl rfl
      simp only [levStepFrom, hsub, ih fun p hp => h p (List.mem_cons_of_mem _ hp)]

/-- A step over a class is the step over each of its bytes. -/
theorem levMachine_step (pattern : List UInt8) (k : ℕ) (row : List ℕ) (b : UInt8) :
    (levMachine pattern k).step row (classOf pattern b) = levStep row pattern k b := by
  cases row with
  | nil => rfl
  | cons r row =>
    simp only [levMachine, levStep, levStepFrom_congr (classRep_spec pattern b).2]

/-- **A run of the rows** stops when every prefix of the pattern is too far away. -/
theorem levMachine_run (pattern : List UInt8) (k : ℕ) (w : List UInt8) :
    (Far k pattern w ∧
        (w.map (classOf pattern)).foldlM (levMachine pattern k).step (levStart pattern k) = none) ∨
      ¬ Far k pattern w ∧
        (w.map (classOf pattern)).foldlM (levMachine pattern k).step (levStart pattern k) =
          some (levRow pattern k w) := by
  induction w using List.reverseRecOn with
  | nil => exact .inr ⟨not_far_nil k pattern, congrArg some (levStart_eq pattern k)⟩
  | append_singleton w b ih =>
    rw [List.map_append, List.foldlM_append, List.map_singleton]
    rcases ih with ⟨hfar, hrun⟩ | ⟨-, hrun⟩
    · rw [hrun]
      exact .inl ⟨hfar.snoc b, rfl⟩
    · rw [hrun]
      simp only [Option.bind_eq_bind, Option.bind_some, List.foldlM_cons, List.foldlM_nil,
        levMachine_step, bind_pure]
      exact levStep_levRow pattern k w b

theorem levRow_getLast (pattern : List UInt8) (k : ℕ) (w : List UInt8) :
    (levRow pattern k w).getLastD 0 = min (editDist pattern w) (k + 1) := by
  have hmap := List.getLastD_map (f := (min · (k + 1))) (l := distRow [] pattern w) (a := 0)
  rw [distRow_getLast, List.nil_append, Nat.zero_min] at hmap
  exact hmap

/-- **The automaton accepts the strings within `k` edits.** -/
theorem levCompile_accepts {pattern : List UInt8} {k : ℕ} {d : Dfa}
    (h : levCompile pattern k = .ok d) (w : List UInt8) :
    d.accepts w = true ↔ editDist pattern w ≤ k := by
  unfold levCompile at h
  split_ifs at h
  cases hres : explore (levMachine pattern k) levLimits with
  | error e => rw [hres] at h; cases h
  | ok s =>
    rw [hres] at h
    cases h
    obtain ⟨hexp, hdone⟩ := explore_spec (levMapFindOrAdd_spec pattern k)
      (Inv.empty (by decide)) (by decide) hres
    rw [accepts_ofTable hexp hdone (fun b => (classRep_spec pattern b).1) rfl (by decide)]
    show (∃ row, (w.map (classOf pattern)).foldlM (levMachine pattern k).step
      (levStart pattern k) = some row ∧ decide (row.getLastD 0 ≤ k) = true) ↔ _
    rcases levMachine_run pattern k w with ⟨hfar, hrun⟩ | ⟨-, hrun⟩
    · have := hfar.lt
      simp only [hrun, reduceCtorEq, false_and, exists_false, false_iff]
      omega
    · simp only [hrun, Option.some.injEq, exists_eq_left', levRow_getLast, decide_eq_true_eq]
      omega

/-- **The automaton is well formed.** -/
theorem levCompile_wellFormed {pattern : List UInt8} {k : ℕ} {d : Dfa}
    (h : levCompile pattern k = .ok d) : d.WellFormed := by
  unfold levCompile at h
  split_ifs at h
  cases hres : explore (levMachine pattern k) levLimits with
  | error e => rw [hres] at h; cases h
  | ok s =>
    rw [hres] at h
    cases h
    obtain ⟨hexp, hdone⟩ := explore_spec (levMapFindOrAdd_spec pattern k)
      (Inv.empty (by decide)) (by decide) hres
    exact wellFormed_ofTable hexp hdone (fun b => (classRep_spec pattern b).1) rfl

/-! ## The distance -/

/-- One past the largest `u32`. -/
def u32Limit : ℕ := 2 ^ 32

/-- A checked `u32` addition. -/
def addU32 (x y : ℕ) : Option ℕ := if x + y < u32Limit then some (x + y) else none

/-- `@intCast` to `u32`. -/
def castU32 (x : ℕ) : Option ℕ := if x < u32Limit then some x else none

/-- The inner loop of `lev_distance_cap`: `prevDiag`, and `left` is `row[j - 1]`. -/
def levCapCells (ch : UInt8) : ℕ → ℕ → List ℕ → List UInt8 → Option (List ℕ)
  | prevDiag, left, keep :: row, x :: a => do
    let sub := if x = ch then 0 else 1
    let v ← addU32 keep 1
    let ins ← addU32 left 1
    let v := if ins < v then ins else v
    let diag ← addU32 prevDiag sub
    let v := if diag < v then diag else v
    let cells ← levCapCells ch keep v row a
    some (v :: cells)
  | _, _, _, _ => some []

/-- The outer loop of `lev_distance_cap`, from byte `i - 1` of `b` on. -/
def levCapRows (a : List UInt8) (cap : ℕ) : ℕ → List ℕ → List UInt8 → Option ℕ
  | _, row, [] => some (if cap < row.getLastD 0 then cap + 1 else row.getLastD 0)
  | i, row, ch :: b => do
    let i' ← castU32 i
    let cells ← levCapCells ch (row.headD 0) i' row.tail a
    if cap < rowMin i' cells then some (cap + 1)
    else levCapRows a cap (i + 1) (i' :: cells) b

/-- `lev_distance_cap` with `a` the shorter side. -/
def levCapShorter (a b : List UInt8) (cap : ℕ) : Option ℕ :=
  if cap < b.length - a.length then some (cap + 1)
  else do
    let row ← (List.range (a.length + 1)).mapM castU32
    levCapRows a cap 1 row b

/-- `lev_distance_cap`; none when a `u32` operation overflows.  The row is always
allocated. -/
def levDistanceCap (a b : List UInt8) (cap : ℕ) : Option ℕ := do
  let _ ← addU32 cap 1
  if b.length < a.length then levCapShorter b a cap else levCapShorter a b cap

theorem addU32_of_lt {x y : ℕ} (h : x + y < u32Limit) : addU32 x y = some (x + y) := if_pos h

/-- The cells of a row without overflow. -/
theorem levCapCells_eq {pre suf w : List UInt8} {ch : UInt8}
    (ha : (pre ++ suf).length + 1 < u32Limit) (hw : w.length + 2 < u32Limit) :
    levCapCells ch (editDist pre w) (editDist pre (w ++ [ch])) (distRow pre suf w).tail suf =
      some (distRow pre suf (w ++ [ch])).tail := by
  induction suf generalizing pre with
  | nil => simp [distRow, levCapCells]
  | cons x suf ih =>
    have hcell := editDist_snoc_snoc x ch pre w
    have hcost : (if x = ch then 0 else 1) = cost x ch := rfl
    have hcost₁ : cost x ch ≤ 1 := by unfold cost; split <;> omega
    have hlen : (pre ++ [x]).length ≤ (pre ++ x :: suf).length := by
      simp only [List.length_append, List.length_cons, List.length_nil]
      omega
    have hpre : pre.length ≤ (pre ++ x :: suf).length := by simp
    have hw' : (w ++ [ch]).length = w.length + 1 := by simp
    have hup := editDist_le_max (pre ++ [x]) w
    have hleft := editDist_le_max pre (w ++ [ch])
    have hdiag := editDist_le_max pre w
    have hstep := @ih (pre ++ [x]) (by rwa [List.append_assoc, List.singleton_append])
    rw [distRow, List.tail_cons, distRow_eq_cons (pre ++ [x]) suf w, levCapCells,
      distRow, List.tail_cons, distRow_eq_cons (pre ++ [x]) suf (w ++ [ch]), hcost,
      addU32_of_lt (by omega), addU32_of_lt (by omega), addU32_of_lt (by omega)]
    have hmin : (if editDist pre w + cost x ch <
          (if editDist pre (w ++ [ch]) + 1 < editDist (pre ++ [x]) w + 1 then
            editDist pre (w ++ [ch]) + 1 else editDist (pre ++ [x]) w + 1) then
        editDist pre w + cost x ch
        else if editDist pre (w ++ [ch]) + 1 < editDist (pre ++ [x]) w + 1 then
            editDist pre (w ++ [ch]) + 1 else editDist (pre ++ [x]) w + 1) =
        editDist (pre ++ [x]) (w ++ [ch]) := by
      rw [hcell]
      split_ifs <;> omega
    simp only [Option.bind_eq_bind, Option.bind_some, hmin, hstep]

/-- The row of the last `u32` number overflows. -/
theorem levCapCells_overflow {a w : List UInt8} (ha : a ≠ []) (ch : UInt8) {left : ℕ}
    (hleft : u32Limit ≤ left + 1) :
    levCapCells ch (editDist [] w) left (distRow [] a w).tail a = none := by
  cases a with
  | nil => exact absurd rfl ha
  | cons x suf =>
    have hins : addU32 left 1 = none := if_neg (by omega)
    rw [distRow, List.tail_cons, distRow_eq_cons, levCapCells, hins]
    cases addU32 (editDist ([] ++ [x]) w) 1 <;> rfl

/-- **The loop over the rows**, as long as the row of `w` is not too far away, gives the
distance when the rows end, or become too far away, before the last `u32` number. -/
theorem levCapRows_eq {a : List UInt8} {cap : ℕ} (ha : a.length + 1 < u32Limit)
    (b : List UInt8) {w : List UInt8} (hne : a ≠ [] ∨ (w ++ b).length + 1 < u32Limit)
    (hw : w.length + 1 < u32Limit) (hfar : ¬ Far cap a w) :
    levCapRows a cap (w.length + 1) (distRow [] a w) b =
      if (w ++ b).length + 1 < u32Limit ∨ Far cap a ((w ++ b).take (u32Limit - 2)) then
        some (min (editDist a (w ++ b)) (cap + 1)) else none := by
  induction b generalizing w with
  | nil =>
    rw [List.append_nil, if_pos (.inl hw), levCapRows, distRow_getLast, List.nil_append]
    congr 1
    split <;> omega
  | cons ch b ih =>
    have hlen : (w ++ ch :: b).length = w.length + 1 + b.length := by
      simp only [List.length_append, List.length_cons]
      omega
    have hcast : castU32 (w.length + 1) = some (w.length + 1) := if_pos hw
    have hnext : editDist [] (w ++ [ch]) = w.length + 1 := by simp
    rw [levCapRows, hcast, distRow_eq_cons, List.headD_cons, List.tail_cons]
    simp only [Option.bind_eq_bind, Option.bind_some]
    by_cases hlast : w.length + 2 < u32Limit
    · have hcells := @levCapCells_eq [] a w ch ha hlast
      rw [hnext] at hcells
      have hrow : distRow [] a (w ++ [ch]) =
          (w.length + 1) :: (distRow [] a (w ++ [ch])).tail := by
        rw [distRow_eq_cons, hnext, List.tail_cons]
      have hmin : cap < rowMin (w.length + 1) (distRow [] a (w ++ [ch])).tail ↔
          Far cap a (w ++ [ch]) := by
        rw [← not_le, rowMin_le_iff, ← hrow, far_iff_distRow]
        simp only [not_exists, not_and, not_le]
      have happ : w ++ ch :: b = (w ++ [ch]) ++ b := by simp
      rw [hcells]
      simp only [Option.bind_some]
      by_cases hnow : Far cap a (w ++ [ch])
      · have htake : (w ++ ch :: b).take (u32Limit - 2) =
            (w ++ [ch]) ++ b.take (u32Limit - 2 - (w.length + 1)) := by
          rw [happ, List.take_append, List.take_of_length_le (by simp; omega)]
          simp
        have := (hnow.append b).lt
        rw [if_pos (hmin.mpr hnow), if_pos (.inr (htake ▸ hnow.append _)), happ,
          Nat.min_eq_right this]
      · have hlen' : (w ++ [ch]).length = w.length + 1 := by simp
        have hrun := ih (w := w ++ [ch]) (happ ▸ hne) (by rw [hlen']; omega) hnow
        rw [hlen'] at hrun
        rw [if_neg fun h => hnow (hmin.mp h), ← hrow, hrun, happ]
    · have ha' : a ≠ [] := hne.resolve_right (by omega)
      have htake : (w ++ ch :: b).take (u32Limit - 2) = w := by
        rw [List.take_append_of_le_length (by omega), List.take_of_length_le (by omega)]
      have hno : ¬ ((w ++ ch :: b).length + 1 < u32Limit ∨ Far cap a w) := by
        rintro (hlt | h)
        · omega
        · exact hfar h
      rw [levCapCells_overflow ha' ch (by omega), htake, if_neg hno]
      rfl

theorem mapM_castU32 {n : ℕ} (h : n ≤ u32Limit) :
    (List.range n).mapM castU32 = some (List.range n) := by
  have key : ∀ xs : List ℕ, (∀ x ∈ xs, x < u32Limit) → xs.mapM castU32 = some xs := by
    intro xs
    induction xs with
    | nil => intro _; rfl
    | cons x xs ih =>
      intro hx
      have hcast : castU32 x = some x := if_pos (hx x (List.mem_cons_self ..))
      rw [List.mapM_cons, hcast, ih fun y hy => hx y (List.mem_cons_of_mem _ hy)]
      rfl
  exact key _ fun x hx => (List.mem_range.mp hx).trans_le h

theorem levCapShorter_eq {a b : List UInt8} {cap : ℕ} (ha : a.length + 1 < u32Limit)
    (hne : a ≠ [] ∨ b.length + 1 < u32Limit) :
    levCapShorter a b cap =
      if b.length + 1 < u32Limit ∨ a.length + cap < b.length ∨
          Far cap a (b.take (u32Limit - 2)) then
        some (min (editDist a b) (cap + 1)) else none := by
  unfold levCapShorter
  by_cases hgap : cap < b.length - a.length
  · have := length_le_editDist a b
    rw [if_pos hgap, if_pos (.inr (.inl (by omega))), Nat.min_eq_right (by omega)]
  · have hrow : List.range (a.length + 1) = distRow [] a [] := by
      rw [distRow_nil_right, List.length_nil, List.range_eq_range']
    have hrows := @levCapRows_eq a cap ha b [] hne (by simp [u32Limit])
      (not_far_nil cap a)
    rw [List.length_nil, Nat.zero_add, List.nil_append] at hrows
    rw [if_neg hgap, mapM_castU32 (by omega), hrow]
    simp only [Option.bind_eq_bind, Option.bind_some, hrows]
    refine if_congr ?_ rfl rfl
    constructor
    · rintro (h | h)
      · exact .inl h
      · exact .inr (.inr h)
    · rintro (h | h | h)
      · exact .inl h
      · omega
      · exact .inr h

/-- **The distance** of a pattern and a text is right unless the rows reach the last
`u32` number. -/
theorem levDistanceCap_eq {pattern w : List UInt8} {cap : ℕ} (hp : pattern ≠ [])
    (hlen : pattern.length ≤ levPatternMax) (hcap : cap + 1 < u32Limit) :
    levDistanceCap pattern w cap =
      if w.length + 1 < u32Limit ∨ pattern.length + cap < w.length ∨
          Far cap pattern (w.take (u32Limit - 2)) then
        some (min (editDist pattern w) (cap + 1)) else none := by
  have hmax : levPatternMax + 1 < u32Limit := by decide
  unfold levDistanceCap
  rw [addU32_of_lt hcap]
  simp only [Option.bind_eq_bind, Option.bind_some]
  by_cases hshort : w.length < pattern.length
  · rw [if_pos hshort, levCapShorter_eq (by omega) (.inr (by omega)), if_pos (.inl (by omega)),
      if_pos (.inl (by omega)), editDist_comm]
  · rw [if_neg hshort, levCapShorter_eq (by omega) (.inl hp)]

/-! ## The automaton and the distance -/

/-- What is asked of the two: the automaton of the pattern accepts `w` exactly within `k`
edits, and the capped distance is the distance up to the cap. -/
def LevAgrees (pattern : List UInt8) (k : ℕ) (w : List UInt8) (cap : ℕ) : Prop :=
  (∀ d, levCompile pattern k = .ok d → (d.accepts w = true ↔ editDist pattern w ≤ k)) ∧
    levDistanceCap pattern w cap = some (min (editDist pattern w) (cap + 1))

/-- **The automaton is always right, and the distance is** unless the text reaches the last
`u32` number before its rows are too far away. -/
theorem levAgrees_iff (pattern : List UInt8) (k : ℕ) (w : List UInt8) (cap : ℕ)
    (hp : pattern ≠ []) (hlen : pattern.length ≤ levPatternMax) (hcap : cap + 1 < u32Limit) :
    LevAgrees pattern k w cap ↔
      w.length + 1 < u32Limit ∨ pattern.length + cap < w.length ∨
        Far cap pattern (w.take (u32Limit - 2)) := by
  rw [LevAgrees, levDistanceCap_eq hp hlen hcap]
  constructor
  · rintro ⟨-, h⟩
    by_contra hno
    rw [if_neg hno] at h
    cases h
  · intro h
    exact ⟨fun d hd => levCompile_accepts hd w, if_pos h⟩

/-- A short text. -/
theorem levAgrees_iff_kitten :
    LevAgrees "kitten".toUTF8.toList 2 "sitting".toUTF8.toList 5 := by
  refine (levAgrees_iff _ 2 _ 5 (by decide +kernel) (by decide +kernel) (by decide)).mpr
    (.inl ?_)
  decide +kernel

/-- The distance to a text of the greatest `u32` length overflows. -/
theorem not_levAgrees :
    ¬ LevAgrees [97] 0 (List.replicate (u32Limit - 1) 98) (u32Limit - 2) := by
  have key : ∀ n cap, n + 1 = u32Limit → cap + 1 = n →
      ¬ LevAgrees [97] 0 (List.replicate n 98) cap := by
    intro n cap hn hcap
    have hbig : 2 < u32Limit := by decide
    rintro ⟨-, h⟩
    rw [levDistanceCap_eq (by decide) (by decide) (by omega), if_neg] at h
    · cases h
    · rw [List.length_replicate, List.length_singleton]
      rintro (hlt | hlt | hfar)
      · omega
      · omega
      · have := hfar.lt
        have := editDist_le_max [97] ((List.replicate n (98 : UInt8)).take (u32Limit - 2))
        simp only [List.length_singleton, List.length_take, List.length_replicate] at this
        omega
  have hbig : 2 < u32Limit := by decide
  exact key _ _ (by omega) (by omega)

end DatalogDafsa.Regex
