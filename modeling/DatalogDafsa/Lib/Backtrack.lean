import Mathlib

/-!
# Backtracking machines and depth-first search

A backtracking machine runs straight-line code whose instructions may succeed,
fail, or open a *choice point*: a frame that remembers where it was opened and
which alternatives are left.  Failure resumes the youngest frame that has an
alternative left and drops the exhausted ones on the way.  `Machine.run` is that
loop with its explicit stack; `Machine.search` is the same program as nested
loops, where a choice point runs the rest of the code once for each alternative.
`run_eq_search` says that the loop computes the search, for every program, store
and environment: the stack restores each environment exactly, and the loop ends.

## Main definitions

* `Outcome`, `Machine` — the effect of one instruction; code and choice points.
* `Machine.backtrack`, `Machine.run` — the loop with an explicit stack.
* `Machine.search`, `forEach` — the nested loops.
* `run_eq_search` — with enough fuel the loop returns what the search returns.
-/

namespace Backtrack

variable {S E F Err : Type*}

/-- What one instruction does to the environment `E` and the choice points `F`. -/
inductive Outcome (E F Err : Type*)
  /-- Go on at the following instruction. -/
  | next (e : E)
  /-- Go on at a later instruction. -/
  | jump (ip : ℕ) (e : E)
  /-- Resume the youngest choice point. -/
  | fail
  /-- Open a choice point and go on with its first alternative. -/
  | push (e : E) (f : F)
  /-- End the run. -/
  | stop
  /-- End the run with an error. -/
  | error (err : Err)

/-- How a run ends: with its final store, or with an error and the store so far. -/
inductive Final (S Err : Type*)
  /-- The run came to its end. -/
  | done (s : S)
  /-- The run was given up. -/
  | failed (err : Err) (s : S)
  deriving DecidableEq

/-- Did a run come to its end, with a store that passes a test? -/
def Final.check (p : S → Bool) : Final S Err → Bool
  | .done s => p s
  | .failed _ _ => false

theorem Final.exists_of_check {p : S → Bool} {r : Final S Err} (h : r.check p = true) :
    ∃ s, r = .done s ∧ p s = true := by
  cases r with
  | done s => exact ⟨s, rfl, h⟩
  | failed err s => cases h

/-- Code with choice points.  `exec` runs the instruction at a position, knowing
how many choice points are open; `resume` takes the next alternative of a frame
opened at a position. -/
structure Machine (S E F Err : Type*) where
  /-- One instruction. -/
  exec : ℕ → ℕ → S → E → S × Outcome E F Err
  /-- The next alternative of a frame, with what is left of it. -/
  resume : ℕ → F → Option (E × F)
  /-- All alternatives a frame has left. -/
  alts : ℕ → F → List E
  /-- Resuming walks through the alternatives in order. -/
  alts_eq : ∀ ip f, alts ip f =
    match resume ip f with
    | none => []
    | some (e, f') => e :: alts ip f'
  /-- Jumps go forward. -/
  jump_lt : ∀ ip d s e s' ip' e', exec ip d s e = (s', .jump ip' e') → ip < ip'

namespace Machine

variable (M : Machine S E F Err)

/-! ## The loop -/

/-- Resume the youngest frame with an alternative left. -/
def backtrack : List (ℕ × F) → Option (ℕ × E × List (ℕ × F))
  | [] => none
  | (ip, f) :: st =>
    match M.resume ip f with
    | some (e, f') => some (ip + 1, e, (ip, f') :: st)
    | none => backtrack st

/-- The interpreter loop on the code before `stop`; `none` is out of fuel. -/
def run (stop : ℕ) : ℕ → ℕ → List (ℕ × F) → S → E → Option (Final S Err)
  | 0, _, _, _, _ => none
  | fuel + 1, ip, st, s, e =>
    if stop ≤ ip then some (.done s)
    else
      match M.exec ip st.length s e with
      | (s', .next e') => run stop fuel (ip + 1) st s' e'
      | (s', .jump ip' e') => run stop fuel ip' st s' e'
      | (s', .push e' f) => run stop fuel (ip + 1) ((ip, f) :: st) s' e'
      | (s', .stop) => some (.done s')
      | (s', .error err) => some (.failed err s')
      | (s', .fail) =>
        match M.backtrack st with
        | none => some (.done s')
        | some (ip', e', st') => run stop fuel ip' st' s' e'

/-- Resume the stack with the store a finished branch left. -/
def unwind (stop fuel : ℕ) (st : List (ℕ × F)) (s : S) : Option (Final S Err) :=
  match M.backtrack st with
  | none => some (.done s)
  | some (ip, e, st') => M.run stop fuel ip st' s e

end Machine

/-! ## The nested loops -/

/-- How a branch of the search ends: it is exhausted, or it ends the whole run. -/
inductive Branch (S Err : Type*)
  /-- Every alternative was tried. -/
  | more (s : S)
  /-- The run is over. -/
  | ended (r : Final S Err)

/-- Read the end of the outermost branch as the end of the run. -/
def Branch.final : Branch S Err → Final S Err
  | .more s => .done s
  | .ended r => r

/-- Run `k` for each alternative in turn, until one ends the run. -/
def forEach (k : S → E → Branch S Err) : S → List E → Branch S Err
  | s, [] => .more s
  | s, e :: es =>
    match k s e with
    | .more s' => forEach k s' es
    | .ended r => .ended r

namespace Machine

variable (M : Machine S E F Err)

/-- The rest of the code from `ip` on, for one environment; `fuel` bounds the
instructions left. -/
def search (stop : ℕ) : ℕ → ℕ → ℕ → S → E → Branch S Err
  | 0, _, _, s, _ => .ended (.done s)
  | fuel + 1, ip, d, s, e =>
    if stop ≤ ip then .ended (.done s)
    else
      match M.exec ip d s e with
      | (s', .next e') => search stop fuel (ip + 1) d s' e'
      | (s', .jump ip' e') => search stop fuel ip' d s' e'
      | (s', .push e' f) => forEach (search stop fuel (ip + 1) (d + 1)) s' (e' :: M.alts ip f)
      | (s', .stop) => .ended (.done s')
      | (s', .error err) => .ended (.failed err s')
      | (s', .fail) => .more s'

/-- Go on with the stack when a branch is exhausted. -/
def resumeWith (stop fuel : ℕ) (st : List (ℕ × F)) : Branch S Err → Option (Final S Err)
  | .more s => M.unwind stop fuel st s
  | .ended r => some r

variable {M}

theorem unwind_cons_none {stop fuel ip : ℕ} {f : F} {st : List (ℕ × F)} {s : S}
    (h : M.resume ip f = none) :
    M.unwind stop fuel ((ip, f) :: st) s = M.unwind stop fuel st s := by
  simp [unwind, backtrack, h]

theorem unwind_cons_some {stop fuel ip : ℕ} {f f' : F} {e : E} {st : List (ℕ × F)} {s : S}
    (h : M.resume ip f = some (e, f')) :
    M.unwind stop fuel ((ip, f) :: st) s = M.run stop fuel (ip + 1) ((ip, f') :: st) s e := by
  simp [unwind, backtrack, h]

/-- A choice point on top of the stack runs the rest of the code for each of its
alternatives.  The induction is on the alternatives that are left. -/
theorem unwind_cons {stop ip : ℕ} {k : S → E → Branch S Err} {st : List (ℕ × F)}
    (hk : ∀ f s e, ∃ n, ∀ m,
      M.run stop (n + m) (ip + 1) ((ip, f) :: st) s e =
        M.resumeWith stop m ((ip, f) :: st) (k s e))
    (es : List E) (f : F) (s : S) (hes : M.alts ip f = es) :
    ∃ n, ∀ m, M.unwind stop (n + m) ((ip, f) :: st) s =
      M.resumeWith stop m st (forEach k s es) := by
  induction es generalizing f s with
  | nil =>
    have hnone : M.resume ip f = none := by
      have h := M.alts_eq ip f
      rw [hes] at h
      split at h
      · assumption
      · cases h
    exact ⟨0, fun m => by rw [unwind_cons_none hnone, Nat.zero_add]; rfl⟩
  | cons e es ih =>
    obtain ⟨f', hsome, hes'⟩ : ∃ f', M.resume ip f = some (e, f') ∧ M.alts ip f' = es := by
      have h := M.alts_eq ip f
      rw [hes] at h
      split at h
      · cases h
      · rename_i e' f' heq
        cases h
        exact ⟨f', heq, rfl⟩
    obtain ⟨n, hn⟩ := hk f' s e
    cases hks : k s e with
    | more s' =>
      obtain ⟨n', hn'⟩ := ih f' s' hes'
      refine ⟨n + n', fun m => ?_⟩
      rw [unwind_cons_some hsome, Nat.add_assoc, hn, hks]
      simp only [forEach, hks]
      exact hn' m
    | ended r =>
      refine ⟨n, fun m => ?_⟩
      rw [unwind_cons_some hsome, hn, hks]
      simp only [forEach, hks]
      rfl

/-- The loop runs the code from `ip` on and then goes on with the stack.  The
induction is on the instructions that are left. -/
theorem run_eq_resumeWith (stop : ℕ) : ∀ (k ip : ℕ) (st : List (ℕ × F)) (s : S) (e : E),
    stop - ip < k → ∃ n, ∀ m, M.run stop (n + m) ip st s e =
      M.resumeWith stop m st (M.search stop k ip st.length s e) := by
  intro k
  induction k with
  | zero => intro ip st s e h; omega
  | succ k ih =>
    intro ip st s e hk
    by_cases hstop : stop ≤ ip
    · refine ⟨1, fun m => ?_⟩
      rw [Nat.add_comm 1 m]
      simp [run, search, hstop, resumeWith]
    · have hip : ∀ ip', ip < ip' → stop - ip' < k := fun ip' h => by omega
      match hx : M.exec ip st.length s e with
      | (s', .next e') =>
        obtain ⟨n, hn⟩ := ih (ip + 1) st s' e' (hip _ (by omega))
        refine ⟨n + 1, fun m => ?_⟩
        rw [show n + 1 + m = (n + m) + 1 by omega]
        simp only [run, search, hstop, if_false, hx]
        exact hn m
      | (s', .jump ip' e') =>
        obtain ⟨n, hn⟩ := ih ip' st s' e' (hip _ (M.jump_lt _ _ _ _ _ _ _ hx))
        refine ⟨n + 1, fun m => ?_⟩
        rw [show n + 1 + m = (n + m) + 1 by omega]
        simp only [run, search, hstop, if_false, hx]
        exact hn m
      | (s', .push e' f) =>
        have hrest : ∀ f s e, ∃ n, ∀ m,
            M.run stop (n + m) (ip + 1) ((ip, f) :: st) s e =
              M.resumeWith stop m ((ip, f) :: st)
                (M.search stop k (ip + 1) (st.length + 1) s e) := fun f s e =>
          ih (ip + 1) ((ip, f) :: st) s e (hip _ (by omega))
        obtain ⟨n, hn⟩ := hrest f s' e'
        cases hb : M.search stop k (ip + 1) (st.length + 1) s' e' with
        | more s'' =>
          obtain ⟨n', hn'⟩ := unwind_cons hrest (M.alts ip f) f s'' rfl
          refine ⟨n + n' + 1, fun m => ?_⟩
          rw [show n + n' + 1 + m = (n + (n' + m)) + 1 by omega]
          simp only [run, search, hstop, if_false, hx]
          rw [hn, hb]
          simp only [forEach, hb]
          exact hn' m
        | ended r =>
          refine ⟨n + 1, fun m => ?_⟩
          rw [show n + 1 + m = (n + m) + 1 by omega]
          simp only [run, search, hstop, if_false, hx]
          rw [hn, hb]
          simp only [forEach, hb]
          rfl
      | (s', .stop) =>
        refine ⟨1, fun m => ?_⟩
        rw [Nat.add_comm 1 m]
        simp [run, search, hstop, hx, resumeWith]
      | (s', .error err) =>
        refine ⟨1, fun m => ?_⟩
        rw [Nat.add_comm 1 m]
        simp [run, search, hstop, hx, resumeWith]
      | (s', .fail) =>
        refine ⟨1, fun m => ?_⟩
        rw [Nat.add_comm 1 m]
        simp only [run, search, hstop, if_false, hx, resumeWith]
        rfl

/-- **The loop computes the search**: from an empty stack, every large enough fuel
gives the end of the search. -/
theorem run_eq_search (stop ip : ℕ) (s : S) (e : E) :
    ∃ n, ∀ m, n ≤ m →
      M.run stop m ip [] s e = some (M.search stop (stop - ip + 1) ip 0 s e).final := by
  obtain ⟨n, hn⟩ := run_eq_resumeWith (M := M) stop (stop - ip + 1) ip [] s e (by omega)
  refine ⟨n, fun m hm => ?_⟩
  obtain ⟨k, rfl⟩ := Nat.exists_eq_add_of_le hm
  rw [hn]
  cases h : M.search stop (stop - ip + 1) ip ([] : List (ℕ × F)).length s e with
  | more s' => simp [resumeWith, unwind, backtrack, Branch.final]
  | ended r => simp [resumeWith, Branch.final]

/-! ## Straight-line code up to a leaf -/

/-- The environments an outcome goes on with, when it neither jumps nor ends the run. -/
def succs (M : Machine S E F Err) (ip : ℕ) : Outcome E F Err → Option (List E)
  | .next e => some [e]
  | .fail => some []
  | .push e f => some (e :: M.alts ip f)
  | _ => none

/-- The environments that reach the leaf, `k` instructions after `ip`. -/
def sols (C : ℕ → E → List E) : ℕ → ℕ → E → List E
  | 0, _, e => [e]
  | k + 1, ip, e => (C ip e).flatMap (sols C k (ip + 1))

/-- A run that is given up. -/
def Gave (r : Branch S Err) : Prop := ∃ err s, r = .ended (.failed err s)

theorem forEach_foldl {k : S → E → Branch S Err} {P : S → Prop} {g : E → List E}
    {eff : S → E → S}
    (hk : ∀ s e, P s → (k s e = .more ((g e).foldl eff s) ∧ P ((g e).foldl eff s)) ∨ Gave (k s e))
    (es : List E) (s : S) (hs : P s) :
    (forEach k s es = .more ((es.flatMap g).foldl eff s) ∧ P ((es.flatMap g).foldl eff s)) ∨
      Gave (forEach k s es) := by
  induction es generalizing s with
  | nil => exact .inl ⟨rfl, hs⟩
  | cons e es ih =>
    rcases hk s e hs with ⟨he, hP⟩ | ⟨err, s', he⟩
    · have hnext := ih _ hP
      simp only [forEach, he, List.flatMap_cons, List.foldl_append]
      exact hnext
    · exact .inr ⟨err, s', by simp only [forEach, he]⟩

/-- **Straight-line code visits its solutions in order.**  `C` lists what each
instruction goes on with while `P` holds of the store, and the leaf changes the
store by `eff`: the search folds `eff` over the solutions, or it is given up. -/
theorem search_eq_foldl {P : S → Prop} {C : ℕ → E → List E} {eff : S → E → S} {stop leaf : ℕ}
    (start : ℕ) (hstop : leaf < stop)
    (hstep : ∀ ip, start ≤ ip → ip < leaf → ∀ d s e, P s → (∃ o, M.exec ip d s e = (s, o) ∧
      M.succs ip o = some (C ip e)) ∨ ∃ err, M.exec ip d s e = (s, .error err))
    (hleaf : ∀ d s e, P s → M.exec leaf d s e = (eff s e, .fail) ∧ P (eff s e))
    (k : ℕ) : ∀ (fuel ip d : ℕ) (s : S) (e : E), start ≤ ip → ip + k = leaf → k < fuel → P s →
      (M.search stop fuel ip d s e = .more ((sols C k ip e).foldl eff s) ∧
        P ((sols C k ip e).foldl eff s)) ∨ Gave (M.search stop fuel ip d s e) := by
  induction k with
  | zero =>
    intro fuel ip d s e hge hip hfuel hs
    obtain ⟨fuel, rfl⟩ := Nat.exists_eq_succ_of_ne_zero (by omega : fuel ≠ 0)
    obtain rfl : ip = leaf := by omega
    obtain ⟨hexec, hP⟩ := hleaf d s e hs
    left
    refine ⟨?_, hP⟩
    simp only [search, if_neg (by omega : ¬ stop ≤ ip), hexec, sols, List.foldl_cons,
      List.foldl_nil]
  | succ k ih =>
    intro fuel ip d s e hge hip hfuel hs
    obtain ⟨fuel, rfl⟩ := Nat.exists_eq_succ_of_ne_zero (by omega : fuel ≠ 0)
    have hlt : ¬ stop ≤ ip := by omega
    rcases hstep ip hge (by omega) d s e hs with ⟨o, hexec, ho⟩ | ⟨err, hexec⟩
    · cases o with
      | next e' =>
        simp only [succs, Option.some.injEq] at ho
        simp only [search, if_neg hlt, hexec, sols, ← ho, List.flatMap_cons, List.flatMap_nil,
          List.append_nil]
        exact ih fuel (ip + 1) d s e' (by omega) (by omega) (by omega) hs
      | fail =>
        simp only [succs, Option.some.injEq] at ho
        left
        simp only [search, if_neg hlt, hexec, sols, ← ho, List.flatMap_nil, List.foldl_nil]
        exact ⟨trivial, hs⟩
      | push e' f =>
        simp only [succs, Option.some.injEq] at ho
        simp only [search, if_neg hlt, hexec, sols, ← ho]
        exact forEach_foldl
          (fun s e hs => ih fuel (ip + 1) (d + 1) s e (by omega) (by omega) (by omega) hs) _ s hs
      | jump ip' e' => simp [succs] at ho
      | stop => simp [succs] at ho
      | error err => simp [succs] at ho
    · right
      refine ⟨err, s, ?_⟩
      simp only [search, if_neg hlt, hexec]

end Machine

end Backtrack
