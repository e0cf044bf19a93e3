import Mathlib

/-!
# Logs of set updates

A set kept by a log of insertions and removals: replaying the log over a starting
set decides each element by its *last* record, and by the starting set when the
log has none.  Nothing here is about a particular program.

## Main definitions

* `SetLog.Rec` — one insertion or removal.
* `SetLog.replay` — apply a log to a set, oldest record first.
* `SetLog.last` — the verdict of the last record about an element.
* `SetLog.mem_replay` — the last record decides.
-/

namespace SetLog

variable {α : Type*}

/-- One record of a set log. -/
inductive Rec (α : Type*)
  /-- Insert an element. -/
  | add (a : α)
  /-- Remove an element. -/
  | del (a : α)
  deriving DecidableEq

namespace Rec

/-- The element a record is about. -/
def key : Rec α → α
  | add a => a
  | del a => a

/-- Is the element in the set right after the record? -/
def keeps : Rec α → Bool
  | add _ => true
  | del _ => false

@[simp] theorem key_add (a : α) : (add a).key = a := rfl
@[simp] theorem key_del (a : α) : (del a).key = a := rfl
@[simp] theorem keeps_add (a : α) : (add a).keeps = true := rfl
@[simp] theorem keeps_del (a : α) : (del a).keeps = false := rfl

end Rec

/-- Apply one record. -/
def apply (s : Set α) : Rec α → Set α
  | .add a => insert a s
  | .del a => s \ {a}

/-- Apply a log, oldest record first. -/
def replay (log : List (Rec α)) (s : Set α) : Set α := log.foldl apply s

@[simp] theorem replay_nil (s : Set α) : replay [] s = s := rfl

@[simp] theorem replay_cons (r : Rec α) (log : List (Rec α)) (s : Set α) :
    replay (r :: log) s = replay log (apply s r) := rfl

theorem replay_append (l₁ l₂ : List (Rec α)) (s : Set α) :
    replay (l₁ ++ l₂) s = replay l₂ (replay l₁ s) :=
  List.foldl_append

theorem mem_apply {s : Set α} {r : Rec α} {a : α} :
    a ∈ apply s r ↔ (r.key = a ∧ r.keeps = true) ∨ (r.key ≠ a ∧ a ∈ s) := by
  cases r with
  | add b =>
    simp only [apply, Set.mem_insert_iff, Rec.key_add, Rec.keeps_add, and_true]
    by_cases h : b = a
    · simp [h]
    · simp [h, Ne.symm h]
  | del b =>
    simp only [apply, Set.mem_sdiff, Set.mem_singleton_iff, Rec.key_del, Rec.keeps_del]
    by_cases h : b = a
    · simp [h]
    · simp [h, Ne.symm h]

variable [DecidableEq α]

/-- What the last record about `a` says, if there is one. -/
def last (a : α) : List (Rec α) → Option Bool
  | [] => none
  | r :: log => (last a log).or (if r.key = a then some r.keeps else none)

@[simp] theorem last_nil (a : α) : last a ([] : List (Rec α)) = none := rfl

theorem last_append (a : α) (l₁ l₂ : List (Rec α)) :
    last a (l₁ ++ l₂) = (last a l₂).or (last a l₁) := by
  induction l₁ with
  | nil => simp
  | cons r l₁ ih => simp only [List.cons_append, last, ih, Option.or_assoc]

theorem last_singleton (a : α) (r : Rec α) :
    last a [r] = if r.key = a then some r.keeps else none := by simp [last]

/-- **The last record about an element decides it; without one, the start does.** -/
theorem mem_replay {log : List (Rec α)} {s : Set α} {a : α} :
    a ∈ replay log s ↔ last a log = some true ∨ (last a log = none ∧ a ∈ s) := by
  induction log generalizing s with
  | nil => simp
  | cons r log ih =>
    rw [replay_cons, ih, mem_apply]
    match h : last a log with
    | some b => simp [last, h]
    | none =>
      by_cases hk : r.key = a
      · simp [last, h, hk]
      · simp [last, h, hk]

/-- Every key a log mentions has a last record. -/
theorem last_ne_none_iff {log : List (Rec α)} {a : α} :
    last a log ≠ none ↔ ∃ r ∈ log, r.key = a := by
  induction log with
  | nil => simp
  | cons r log ih =>
    by_cases hk : r.key = a
    · cases h : last a log <;> simp [last, h, hk]
    · simp only [last, hk, if_false, Option.or_none, List.mem_cons, exists_eq_or_imp, false_or]
      exact ih

end SetLog
