import Mathlib

/-!
# Record locks

A process holds at most one lock on a range of a file, shared or exclusive.  A process is
granted a lock that no other process stands against, whatever it holds itself, and the new
lock takes the place of the old one.  All locks of a process on a file go when it closes any
descriptor of that file.

## Main definitions

* `Lock`, `acquire`, `unlock`, `release` — the locks on a file.
* `Compatible` — no two processes hold locks that exclude each other.
* `Compatible.acquire`, `Compatible.sublist` — it stays so.
-/

namespace DatalogDafsa.RecordLock

/-- The two modes. -/
inductive Mode
  /-- Along with other shared locks. -/
  | shared
  /-- Alone. -/
  | exclusive
  deriving DecidableEq

/-- A lock. -/
structure Lock (P R : Type*) where
  /-- The process that holds it. -/
  owner : P
  /-- The range. -/
  range : R
  /-- The mode. -/
  mode : Mode
  deriving DecidableEq

variable {P R : Type*}

/-- No two processes hold locks that exclude each other. -/
def Compatible (locks : List (Lock P R)) : Prop :=
  ∀ l ∈ locks, ∀ l' ∈ locks, l.range = l'.range → l.owner ≠ l'.owner →
    l.mode = .shared ∧ l'.mode = .shared

variable {locks locks' : List (Lock P R)} {p : P} {r : R} {m : Mode} {l : Lock P R}

theorem Compatible.nil : Compatible ([] : List (Lock P R)) := by
  intro l hl
  cases hl

/-- Fewer locks are compatible. -/
theorem Compatible.sublist (h : Compatible locks) (hsub : ∀ l ∈ locks', l ∈ locks) :
    Compatible locks' :=
  fun l hl l' hl' => h l (hsub l hl) l' (hsub l' hl')

/-- A process with an exclusive lock is the only one with a lock on the range. -/
theorem Compatible.owner_eq (h : Compatible locks) {p q : P} (hp : ⟨p, r, .exclusive⟩ ∈ locks)
    (hq : ⟨q, r, m⟩ ∈ locks) : p = q := by
  by_contra hne
  have := (h _ hp _ hq rfl hne).1
  cases this

variable [DecidableEq P] [DecidableEq R]

/-- Does no other process stand against a lock? -/
def granted (locks : List (Lock P R)) (p : P) (r : R) (m : Mode) : Bool :=
  locks.all fun l => l.owner = p || l.range ≠ r || (m = .shared && l.mode = .shared)

/-- A process gives up its lock on a range. -/
def unlock (locks : List (Lock P R)) (p : P) (r : R) : List (Lock P R) :=
  locks.filter fun l => ¬ (l.owner = p ∧ l.range = r)

/-- A process asks for a lock; none when it is refused. -/
def acquire (locks : List (Lock P R)) (p : P) (r : R) (m : Mode) : Option (List (Lock P R)) :=
  if granted locks p r m then some (⟨p, r, m⟩ :: unlock locks p r) else none

/-- A process closes a descriptor of the file. -/
def release (locks : List (Lock P R)) (p : P) : List (Lock P R) :=
  locks.filter fun l => l.owner ≠ p

@[simp]
theorem mem_unlock : l ∈ unlock locks p r ↔ l ∈ locks ∧ ¬ (l.owner = p ∧ l.range = r) := by
  simp only [unlock, List.mem_filter, decide_eq_true_eq]

omit [DecidableEq R] in
@[simp]
theorem mem_release : l ∈ release locks p ↔ l ∈ locks ∧ l.owner ≠ p := by
  simp [release]

/-- A lock that is granted stands beside the locks on other ranges and those of others. -/
theorem mem_acquire (h : acquire locks p r m = some locks') :
    l ∈ locks' ↔ l = ⟨p, r, m⟩ ∨ (l ∈ locks ∧ ¬ (l.owner = p ∧ l.range = r)) := by
  unfold acquire at h
  split at h
  · cases h
    rw [List.mem_cons, mem_unlock]
  · cases h

theorem Compatible.unlock (h : Compatible locks) (p : P) (r : R) :
    Compatible (unlock locks p r) :=
  h.sublist fun _ hl => (mem_unlock.mp hl).1

omit [DecidableEq R] in
theorem Compatible.release (h : Compatible locks) (p : P) : Compatible (release locks p) :=
  h.sublist fun _ hl => (mem_release.mp hl).1

/-- **A lock that is granted excludes nobody.** -/
theorem Compatible.acquire (h : Compatible locks) (hacq : acquire locks p r m = some locks') :
    Compatible locks' := by
  have hgranted : ∀ l ∈ locks, l.range = r → l.owner ≠ p → m = .shared ∧ l.mode = .shared := by
    intro l hl hrange howner
    unfold RecordLock.acquire at hacq
    split at hacq
    · rename_i hall
      have := List.all_eq_true.mp hall l hl
      simpa [hrange, howner] using this
    · cases hacq
  intro l hl l' hl' hrange howner
  rcases (mem_acquire hacq).mp hl with rfl | ⟨hl, -⟩
  · rcases (mem_acquire hacq).mp hl' with rfl | ⟨hl', -⟩
    · exact absurd rfl howner
    · exact hgranted l' hl' hrange.symm howner.symm
  · rcases (mem_acquire hacq).mp hl' with rfl | ⟨hl', -⟩
    · exact (hgranted l hl hrange howner).symm
    · exact h l hl l' hl' hrange howner

end DatalogDafsa.RecordLock
