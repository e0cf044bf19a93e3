import DatalogDafsa.Lib.Probe

/-!
# Numbering the reachable states of an automaton

A deterministic automaton is given by a start key, a partial step and an accepting
predicate.  Its reachable keys are numbered in the order a breadth-first search meets
them, and the steps written into a table of numbers; a numbering table tells whether
a key was met before.  The search gives up when there are too many keys.

## Main definitions

* `Machine`, `Limits`, `explore` — the automaton, the bounds, the search.
* `FindSpec` — what is asked of the numbering table.
* `Explored` — the invariant of the search.
* `explore_spec` — a search that ends leaves a table with the steps of the automaton.
-/

namespace Explore

open Probe

variable {K : Type*}

/-- A deterministic automaton over the letters `0 … letters - 1`, with its numbering
table. -/
structure Machine (K : Type*) where
  /-- Number of letters. -/
  letters : ℕ
  /-- The first key. -/
  start : K
  /-- A step; none from a key that leads nowhere. -/
  step : K → ℕ → Option K
  /-- Is a key accepting? -/
  accept : K → Bool
  /-- Look a key up, or give it the new number: the table, the number, was it new? -/
  findOrAdd : Table K → K → ℕ → Table K × ℕ × Bool
  /-- The first table. -/
  table : Table K

/-- The bounds of a search. -/
structure Limits where
  /-- Most keys. -/
  cap : ℕ
  /-- What is said when there are more. -/
  capMsg : String
  /-- Fewest keys the search does not go on with. -/
  abort : ℕ
  /-- What is said then. -/
  abortMsg : String
  /-- The number that stands for no step. -/
  dead : ℕ

/-- The state of a search. -/
structure St (K : Type*) where
  /-- The keys, by number. -/
  keys : List K
  /-- Which are accepting. -/
  accept : List Bool
  /-- The steps of the keys done so far, by letter. -/
  rows : List (List ℕ)
  /-- The numbering table. -/
  map : Table K

variable (M : Machine K) (L : Limits)

/-- One step of a key. -/
def visitLetter (k : K) (s : St K) (c : ℕ) : Except String (St K × ℕ) :=
  match M.step k c with
  | none => .ok (s, L.dead)
  | some k' =>
    match M.findOrAdd s.map k' s.keys.length with
    | (map, id, false) => .ok ({ s with map }, id)
    | (map, id, true) =>
      if L.cap ≤ s.keys.length then .error L.capMsg
      else .ok ({ s with map, keys := s.keys ++ [k'], accept := s.accept ++ [M.accept k'] }, id)

/-- The steps of a key, letter by letter. -/
def visitLetters (k : K) : List ℕ → St K → Except String (St K × List ℕ)
  | [], s => .ok (s, [])
  | c :: cs, s =>
    match visitLetter M L k s c with
    | .error e => .error e
    | .ok (s', id) =>
      match visitLetters k cs s' with
      | .error e => .error e
      | .ok (s'', ids) => .ok (s'', id :: ids)

/-- The search: key after key in the order of their numbers. -/
def visit : ℕ → ℕ → St K → Except String (St K)
  | 0, _, s => .ok s
  | fuel + 1, head, s =>
    match s.keys[head]? with
    | none => .ok s
    | some k =>
      if L.abort ≤ s.keys.length then .error L.abortMsg
      else
        match visitLetters M L k (List.range M.letters) s with
        | .error e => .error e
        | .ok (s', row) => visit fuel (head + 1) { s' with rows := s'.rows ++ [row] }

/-- The whole search.  There are at most `cap` keys, so the fuel is enough. -/
def explore : Except String (St K) :=
  visit M L (L.cap + 1) 0
    ⟨[M.start], [M.accept M.start], [], (M.findOrAdd M.table M.start 0).1⟩

/-! ## The invariant -/

/-- The numbering of keys. -/
def numbering (keys : List K) : Set (K × ℕ) := {p | keys[p.2]? = some p.1}

theorem numbering_append (keys : List K) (k : K) :
    numbering (keys ++ [k]) = insert (k, keys.length) (numbering keys) := by
  ext ⟨k', i⟩
  simp only [numbering, Set.mem_ofPred_eq, Set.mem_insert_iff, Prod.mk.injEq]
  rcases lt_trichotomy i keys.length with h | rfl | h
  · rw [List.getElem?_append_left h]
    exact ⟨Or.inr, fun hor => hor.resolve_left fun ⟨_, hi⟩ => by omega⟩
  · rw [List.getElem?_concat_length, List.getElem?_eq_none le_rfl]
    simp [eq_comm]
  · rw [List.getElem?_eq_none (by simp; omega), List.getElem?_eq_none (by omega)]
    simp
    omega

/-- The numbering table finds a key that was met, and numbers one that was not. -/
def FindSpec (hash : K → ℕ) (M : Machine K) : Prop :=
  ∀ t S k new, Inv hash t S → ∃ t' id isNew, M.findOrAdd t k new = (t', id, isNew) ∧
    (isNew = false ∧ (k, id) ∈ S ∧ Inv hash t' S ∨
      isNew = true ∧ id = new ∧ (∀ id, (k, id) ∉ S) ∧ Inv hash t' (insert (k, new) S))

/-- A number is that of a step. -/
def IsStep (keys : List K) (k : K) (c id : ℕ) : Prop :=
  match M.step k c with
  | none => id = L.dead
  | some k' => keys[id]? = some k'

/-- The search has met `keys` and done the first `rows.length` of them. -/
structure Explored (hash : K → ℕ) (s : St K) : Prop where
  /-- The table numbers the keys. -/
  map : Inv hash s.map (numbering s.keys)
  /-- The first key is the start. -/
  start : s.keys[0]? = some M.start
  /-- Accepting keys are marked. -/
  accept : s.accept = s.keys.map M.accept
  /-- Only known keys are done. -/
  head : s.rows.length ≤ s.keys.length
  /-- There are not too many. -/
  cap : s.keys.length ≤ L.cap
  /-- Every key done has a number for each letter. -/
  rows : ∀ (i : ℕ) (row : List ℕ), s.rows[i]? = some row → ∀ k, s.keys[i]? = some k →
    row.length = M.letters ∧ ∀ c id, row[c]? = some id → IsStep M L s.keys k c id

variable {M L} {hash : K → ℕ}

theorem IsStep.mono {keys keys' : List K} (h : keys <+: keys') {k : K} {c id : ℕ}
    (hs : IsStep M L keys k c id) : IsStep M L keys' k c id := by
  unfold IsStep at hs ⊢
  cases hstep : M.step k c with
  | none => rw [hstep] at hs; exact hs
  | some k' =>
    rw [hstep] at hs
    exact (List.prefix_iff_getElem?.mp h _ (List.getElem?_eq_some_iff.mp hs).1).trans
      ((List.getElem?_eq_getElem _).symm.trans hs)

/-- Keys that were met stay, with their marks and rows. -/
structure Grows (s s' : St K) : Prop where
  /-- Keys stay. -/
  keys : s.keys <+: s'.keys
  /-- Rows stay. -/
  rows : s'.rows = s.rows

theorem visitLetter_spec (hfind : FindSpec hash M) {k : K} {s s' : St K} {c id : ℕ}
    (hs : Explored M L hash s) (h : visitLetter M L k s c = .ok (s', id)) :
    Explored M L hash s' ∧ Grows s s' ∧ IsStep M L s'.keys k c id := by
  unfold visitLetter at h
  cases hstep : M.step k c with
  | none =>
    rw [hstep] at h
    cases h
    exact ⟨hs, ⟨List.prefix_rfl, rfl⟩, by simp [IsStep, hstep]⟩
  | some k' =>
    obtain ⟨t', id', isNew, hres, hcase⟩ := hfind s.map _ k' s.keys.length hs.map
    rw [hstep] at h
    simp only [hres] at h
    rcases hcase with ⟨rfl, hin, hinv⟩ | ⟨rfl, rfl, hno, hinv⟩
    · cases h
      exact ⟨⟨hinv, hs.start, hs.accept, hs.head, hs.cap, hs.rows⟩, ⟨List.prefix_rfl, rfl⟩,
        by rw [IsStep, hstep]; exact hin⟩
    · dsimp only at h
      by_cases hcap : L.cap ≤ s.keys.length
      · rw [if_pos hcap] at h
        cases h
      · rw [if_neg hcap] at h
        cases h
        have hpre : s.keys <+: s.keys ++ [k'] := List.prefix_append _ _
        refine ⟨⟨?_, ?_, ?_, ?_, ?_, ?_⟩, ⟨hpre, rfl⟩, ?_⟩
        · rw [numbering_append]
          exact hinv
        · rw [List.getElem?_append_left (List.getElem?_eq_some_iff.mp hs.start).1]
          exact hs.start
        · simp [hs.accept]
        · have := hs.head
          simp only [List.length_append, List.length_singleton]
          omega
        · simp only [List.length_append, List.length_singleton]
          omega
        · intro i row hrow k₀ hk₀
          have hi : i < s.keys.length :=
            (List.getElem?_eq_some_iff.mp hrow).1.trans_le hs.head
          rw [List.getElem?_append_left hi] at hk₀
          obtain ⟨hlen, hsteps⟩ := hs.rows i row hrow k₀ hk₀
          exact ⟨hlen, fun c id hc => (hsteps c id hc).mono hpre⟩
        · rw [IsStep, hstep]
          exact List.getElem?_concat_length

theorem visitLetters_spec (hfind : FindSpec hash M) {k : K} {cs : List ℕ} {s s' : St K}
    {ids : List ℕ} (hs : Explored M L hash s)
    (h : visitLetters M L k cs s = .ok (s', ids)) :
    Explored M L hash s' ∧ Grows s s' ∧ ids.length = cs.length ∧
      ∀ n c id : ℕ, cs[n]? = some c → ids[n]? = some id → IsStep M L s'.keys k c id := by
  induction cs generalizing s ids with
  | nil =>
    cases h
    exact ⟨hs, ⟨List.prefix_rfl, rfl⟩, rfl, fun n c id hc => by simp at hc⟩
  | cons c cs ih =>
    unfold visitLetters at h
    cases h₁ : visitLetter M L k s c with
    | error e => rw [h₁] at h; cases h
    | ok r =>
      obtain ⟨s₁, id⟩ := r
      rw [h₁] at h
      dsimp only at h
      cases h₂ : visitLetters M L k cs s₁ with
      | error e => rw [h₂] at h; cases h
      | ok r =>
        obtain ⟨s₂, ids₂⟩ := r
        rw [h₂] at h
        cases h
        obtain ⟨hs₁, hg₁, hstep⟩ := visitLetter_spec hfind hs h₁
        obtain ⟨hs₂, hg₂, hlen, hsteps⟩ := ih hs₁ h₂
        refine ⟨hs₂, ⟨hg₁.keys.trans hg₂.keys, hg₂.rows.trans hg₁.rows⟩, by simp [hlen], ?_⟩
        intro n c' id' hc hid
        cases n with
        | zero =>
          simp only [List.getElem?_cons_zero, Option.some.injEq] at hc hid
          subst hc hid
          exact hstep.mono hg₂.keys
        | succ n =>
          rw [List.getElem?_cons_succ] at hc hid
          exact hsteps n c' id' hc hid

/-- **The search ends with every key done.** -/
theorem visit_spec (hfind : FindSpec hash M) {fuel head : ℕ} (hfuel : fuel + head = L.cap + 1)
    {s s' : St K} (hs : Explored M L hash s) (hhead : s.rows.length = head)
    (h : visit M L fuel head s = .ok s') :
    Explored M L hash s' ∧ s'.rows.length = s'.keys.length := by
  induction fuel generalizing head s with
  | zero =>
    have := hs.head
    have := hs.cap
    omega
  | succ fuel ih =>
    unfold visit at h
    cases hk : s.keys[head]? with
    | none =>
      rw [hk] at h
      cases h
      have := List.getElem?_eq_none_iff.mp hk
      have := hs.head
      exact ⟨hs, by omega⟩
    | some k =>
      rw [hk] at h
      dsimp only at h
      by_cases habort : L.abort ≤ s.keys.length
      · rw [if_pos habort] at h
        cases h
      · rw [if_neg habort] at h
        cases h₁ : visitLetters M L k (List.range M.letters) s with
        | error e => rw [h₁] at h; cases h
        | ok r =>
          obtain ⟨s₁, row⟩ := r
          rw [h₁] at h
          obtain ⟨hs₁, hg, hlen, hsteps⟩ := visitLetters_spec hfind hs h₁
          have hkey : s₁.keys[head]? = some k := by
            obtain ⟨hlt, -⟩ := List.getElem?_eq_some_iff.mp hk
            exact (List.prefix_iff_getElem?.mp hg.keys head hlt).trans
              ((List.getElem?_eq_getElem hlt).symm.trans hk)
          have hrows : s₁.rows.length = head := by rw [hg.rows, hhead]
          have hs₂ : Explored M L hash { s₁ with rows := s₁.rows ++ [row] } := by
            refine ⟨hs₁.map, hs₁.start, hs₁.accept, ?_, hs₁.cap, ?_⟩
            · have := (List.getElem?_eq_some_iff.mp hkey).1
              simp only [List.length_append, List.length_singleton]
              omega
            · intro i row' hrow k₀ hk₀
              by_cases hi : i < s₁.rows.length
              · rw [List.getElem?_append_left hi] at hrow
                exact hs₁.rows i row' hrow k₀ hk₀
              · rw [List.getElem?_append_right (by omega), List.getElem?_singleton] at hrow
                obtain rfl : i = head := by
                  by_contra hne
                  rw [if_neg (by omega)] at hrow
                  cases hrow
                rw [if_pos (by omega)] at hrow
                cases hrow
                obtain rfl : k = k₀ := Option.some.inj (hkey.symm.trans hk₀)
                refine ⟨hlen.trans List.length_range, fun c id hc => ?_⟩
                have hlt : c < M.letters := by
                  have := (List.getElem?_eq_some_iff.mp hc).1
                  rwa [hlen, List.length_range] at this
                exact hsteps c c id (List.getElem?_range hlt) hc
          have hlen₂ : (s₁.rows ++ [row]).length = head + 1 := by
            simp [hrows]
          exact ih (by omega) hs₂ hlen₂ h

theorem explore_spec (hfind : FindSpec hash M) (htable : Inv hash M.table ∅) (hcap : 0 < L.cap)
    {s : St K} (h : explore M L = .ok s) :
    Explored M L hash s ∧ s.rows.length = s.keys.length := by
  refine visit_spec hfind (Nat.add_zero _) ?_ rfl h
  obtain ⟨t', id, isNew, hres, hcase⟩ := hfind M.table ∅ M.start 0 htable
  have hnum : numbering [M.start] = insert (M.start, 0) ∅ := by
    have := numbering_append ([] : List K) M.start
    rw [List.nil_append, List.length_nil] at this
    rw [this]
    congr 1
    exact Set.eq_empty_of_forall_notMem fun p hp => by simp [numbering] at hp
  refine ⟨?_, rfl, rfl, Nat.zero_le _, hcap, fun i row hrow => by simp at hrow⟩
  rw [hres, hnum]
  rcases hcase with ⟨-, hin, -⟩ | ⟨-, -, -, hinv⟩
  · exact absurd hin (Set.notMem_empty _)
  · exact hinv

end Explore
