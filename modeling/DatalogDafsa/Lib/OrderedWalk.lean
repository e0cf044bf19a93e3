import Mathlib

/-!
# Enumerating the words of an automaton with a stack

A depth-first walk over an automaton whose words all have one length keeps a stack
of states, each with the edges it has not taken yet, and the letters taken to get
there.  What the stack still stands for is a list of words, the next one first; a
turn of the walk gives that word or leaves the list as it is.

## Main definitions

* `Net`, `Net.words`, `Net.Exact` — an automaton, and its words of one length.
* `todo`, `work`, `Live` — what a stack stands for, what it costs, and its invariant.
* `todo_push`, `todo_pop` — one turn.
* `sorted_words` — edges in order give words in order.
-/

namespace OrderedWalk

variable {B Q : Type*}

/-- An automaton with a list of edges for each state. -/
structure Net (B Q : Type*) where
  /-- The edges of a state. -/
  edges : Q → List (B × Q)
  /-- The final states. -/
  final : Q → Bool

/-- A state with the edges that are still to be taken. -/
abbrev Frame (B Q : Type*) := Q × List (B × Q)

namespace Net

variable (G : Net B Q)

/-- The words along all paths of `n` edges, edge by edge. -/
def words : ℕ → Q → List (List B)
  | 0, _ => [[]]
  | n + 1, q => (G.edges q).flatMap fun e => (words n e.2).map (e.1 :: ·)

/-- The words of `n` more letters after one of these edges. -/
def below (n : ℕ) (es : List (B × Q)) : List (List B) :=
  es.flatMap fun e => (G.words n e.2).map (e.1 :: ·)

/-- After `n` edges, and not before, a path is at a final state. -/
def Exact : ℕ → Q → Prop
  | 0, q => G.final q = true
  | n + 1, q => G.final q = false ∧ ∀ e ∈ G.edges q, Exact n e.2

/-- The turns that a walk from a state takes. -/
def cost : ℕ → Q → ℕ
  | 0, _ => 1
  | n + 1, q => 1 + ((G.edges q).map fun e => 1 + cost n e.2).sum

/-- The turns that these edges take. -/
def costBelow (n : ℕ) (es : List (B × Q)) : ℕ := (es.map fun e => 1 + G.cost n e.2).sum

/-- What a stack stands for. The top frame is `n` edges away from a final state, and
`path` holds the letters that led to it, the last one first. -/
def todo : ℕ → List B → List (Frame B Q) → List (List B)
  | _, _, [] => []
  | 0, path, _ :: fs => path.reverse :: todo 1 path.tail fs
  | n + 1, path, (_, es) :: fs =>
    (G.below n es).map (path.reverse ++ ·) ++ todo (n + 2) path.tail fs

/-- The turns that a stack takes. -/
def work : ℕ → List (Frame B Q) → ℕ
  | _, [] => 0
  | 0, _ :: fs => 1 + work 1 fs
  | n + 1, (_, es) :: fs => 1 + G.costBelow n es + work (n + 2) fs

/-- The frames of a stack are as many edges from the end as their place says. -/
def Live : ℕ → List (Frame B Q) → Prop
  | _, [] => True
  | 0, f :: fs => G.final f.1 = true ∧ Live 1 fs
  | n + 1, f :: fs => G.final f.1 = false ∧ (∀ e ∈ f.2, G.Exact n e.2) ∧ Live (n + 2) fs

variable {G}

@[simp] theorem below_nil (n : ℕ) : G.below n [] = [] := rfl

theorem below_cons (n : ℕ) (e : B × Q) (es : List (B × Q)) :
    G.below n (e :: es) = (G.words n e.2).map (e.1 :: ·) ++ G.below n es := rfl

/-- A frame for a state that has all its edges to go. -/
theorem todo_start (n : ℕ) (q : Q) (path : List B) (fs : List (Frame B Q)) :
    G.todo n path ((q, G.edges q) :: fs) =
      (G.words n q).map (path.reverse ++ ·) ++ G.todo (n + 1) path.tail fs := by
  cases n with
  | zero => simp [todo, words]
  | succ n => rfl

/-- **A frame without edges** stands for nothing. -/
theorem todo_pop (n : ℕ) (path : List B) (q : Q) (fs : List (Frame B Q)) :
    G.todo (n + 1) path ((q, []) :: fs) = G.todo (n + 2) path.tail fs := rfl

/-- **Taking an edge** leaves what the stack stands for as it is. -/
theorem todo_push (n : ℕ) (path : List B) (q : Q) (e : B × Q) (es : List (B × Q))
    (fs : List (Frame B Q)) :
    G.todo (n + 1) path ((q, e :: es) :: fs) =
      G.todo n (e.1 :: path) ((e.2, G.edges e.2) :: (q, es) :: fs) := by
  rw [todo_start]
  simp only [todo, below_cons, List.map_append, List.map_map, List.tail_cons, List.append_assoc,
    List.reverse_cons]
  congr 1

theorem work_start (n : ℕ) (q : Q) (fs : List (Frame B Q)) :
    G.work n ((q, G.edges q) :: fs) = G.cost n q + G.work (n + 1) fs := by
  cases n <;> rfl

/-- **A turn makes the work less.** -/
theorem work_push (n : ℕ) (q : Q) (e : B × Q) (es : List (B × Q)) (fs : List (Frame B Q)) :
    G.work n ((e.2, G.edges e.2) :: (q, es) :: fs) < G.work (n + 1) ((q, e :: es) :: fs) := by
  rw [work_start]
  simp only [work, costBelow, List.map_cons, List.sum_cons]
  omega

theorem work_pop (n : ℕ) (q : Q) (fs : List (Frame B Q)) :
    G.work (n + 2) fs < G.work (n + 1) ((q, []) :: fs) := by
  simp [work, costBelow]

theorem work_final (f : Frame B Q) (fs : List (Frame B Q)) :
    G.work 1 fs < G.work 0 (f :: fs) := by
  simp [work]

theorem live_start {n : ℕ} {q : Q} (h : G.Exact n q) {fs : List (Frame B Q)}
    (hfs : G.Live (n + 1) fs) : G.Live n ((q, G.edges q) :: fs) := by
  cases n with
  | zero => exact ⟨h, hfs⟩
  | succ n => exact ⟨h.1, h.2, hfs⟩

theorem live_push {n : ℕ} {q : Q} {e : B × Q} {es : List (B × Q)} {fs : List (Frame B Q)}
    (h : G.Live (n + 1) ((q, e :: es) :: fs)) :
    G.Live n ((e.2, G.edges e.2) :: (q, es) :: fs) := by
  obtain ⟨hfinal, hes, hfs⟩ := h
  exact live_start (hes e List.mem_cons_self)
    ⟨hfinal, fun e' he' => hes e' (List.mem_cons_of_mem e he'), hfs⟩

/-! ## The words -/

theorem length_of_mem_words {n : ℕ} {q : Q} {w : List B} (h : w ∈ G.words n q) : w.length = n := by
  induction n generalizing q w with
  | zero =>
    rw [words, List.mem_singleton] at h
    rw [h, List.length_nil]
  | succ n ih =>
    obtain ⟨e, -, hw⟩ := List.mem_flatMap.mp h
    obtain ⟨w', hw', rfl⟩ := List.mem_map.mp hw
    rw [List.length_cons, ih hw']

theorem mem_words_succ {n : ℕ} {q : Q} {b : B} {w : List B} :
    b :: w ∈ G.words (n + 1) q ↔ ∃ t, (b, t) ∈ G.edges q ∧ w ∈ G.words n t := by
  rw [words, List.mem_flatMap]
  constructor
  · rintro ⟨⟨b', t⟩, he, hw⟩
    obtain ⟨w', hw', heq⟩ := List.mem_map.mp hw
    cases heq
    exact ⟨t, he, hw'⟩
  · rintro ⟨t, he, hw⟩
    exact ⟨(b, t), he, List.mem_map.mpr ⟨w, hw, rfl⟩⟩

/-- **Edges in order give words in order.** -/
theorem sorted_words [LT B] (h : ∀ q, (G.edges q).Pairwise fun e e' => e.1 < e'.1) (n : ℕ) (q : Q) :
    (G.words n q).Pairwise (List.Lex (· < ·)) := by
  induction n generalizing q with
  | zero => exact List.pairwise_singleton _ _
  | succ n ih =>
    refine List.pairwise_flatMap.mpr ⟨fun e _ => ?_, (h q).imp fun {e e'} hlt => ?_⟩
    · exact List.pairwise_map.mpr ((ih e.2).imp fun {w w'} hw => .cons hw)
    · intro w hw w' hw'
      obtain ⟨v, -, rfl⟩ := List.mem_map.mp hw
      obtain ⟨v', -, rfl⟩ := List.mem_map.mp hw'
      exact .rel hlt

end Net

end OrderedWalk
