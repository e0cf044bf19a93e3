import Mathlib

/-!
# Hashes that are fed piece by piece

What a streaming hash ends in depends on the bytes it was fed, and not on the pieces they
came in.  So a hash may be carried along with a text that grows, and the pieces may be
staged in a buffer.  Nothing here is about a particular hash or a particular text.

## Main definitions

* `StreamHash` — seeds, updates and results.
* `StreamHash.Fed` — a state that was fed some bytes.
* `Staging` — pieces on their way through a buffer.
-/

/-- A hash with a seed. -/
structure StreamHash where
  /-- The states. -/
  State : Type
  /-- Nothing was fed. -/
  init : UInt64 → State
  /-- Feed a piece. -/
  update : State → List UInt8 → State
  /-- The result. -/
  final : State → UInt64
  /-- Pieces do not matter. -/
  final_foldl : ∀ (seed : UInt64) (pieces : List (List UInt8)),
    final (pieces.foldl update (init seed)) = final (update (init seed) pieces.flatten)

namespace StreamHash

variable {H : StreamHash} {seed : UInt64} {s : H.State} {bytes : List UInt8}

/-- The hash of some bytes, in one piece. -/
def hash (H : StreamHash) (seed : UInt64) (bytes : List UInt8) : UInt64 :=
  H.final (H.update (H.init seed) bytes)

/-- A state that was fed these bytes, in some pieces. -/
def Fed (H : StreamHash) (seed : UInt64) (s : H.State) (bytes : List UInt8) : Prop :=
  ∃ pieces : List (List UInt8), s = pieces.foldl H.update (H.init seed) ∧ pieces.flatten = bytes

theorem fed_init : Fed H seed (H.init seed) [] := ⟨[], rfl, rfl⟩

theorem Fed.foldl (h : Fed H seed s bytes) (more : List (List UInt8)) :
    Fed H seed (more.foldl H.update s) (bytes ++ more.flatten) := by
  obtain ⟨pieces, rfl, rfl⟩ := h
  exact ⟨pieces ++ more, List.foldl_append.symm, List.flatten_append⟩

theorem Fed.update (h : Fed H seed s bytes) (piece : List UInt8) :
    Fed H seed (H.update s piece) (bytes ++ piece) := by
  have hone := h.foldl [piece]
  rwa [List.flatten_singleton] at hone

/-- **The result is that of the bytes.** -/
theorem Fed.final_eq (h : Fed H seed s bytes) : H.final s = H.hash seed bytes := by
  obtain ⟨pieces, rfl, rfl⟩ := h
  exact H.final_foldl seed pieces

end StreamHash

/-! ## A buffer in between -/

/-- Pieces on their way through a buffer. -/
structure Staging where
  /-- The pieces that were handed on. -/
  sent : List (List UInt8)
  /-- What is in the buffer. -/
  buf : List UInt8

namespace Staging

/-- Nothing yet. -/
def empty : Staging := ⟨[], []⟩

/-- Hand on what is in the buffer. -/
def flush (s : Staging) : Staging := if s.buf = [] then s else ⟨s.sent ++ [s.buf], []⟩

/-- One byte; the buffer is handed on when it has no room. -/
def putByte (room : ℕ) (s : Staging) (b : UInt8) : Staging :=
  let s := if s.buf.length = room then s.flush else s
  { s with buf := s.buf ++ [b] }

/-- A piece; copying its bytes in blocks hands on the same pieces. -/
def put (room : ℕ) (s : Staging) (piece : List UInt8) : Staging := piece.foldl (putByte room) s

/-- What has been put. -/
def all (s : Staging) : List UInt8 := s.sent.flatten ++ s.buf

@[simp] theorem all_empty : empty.all = [] := rfl

@[simp] theorem all_flush (s : Staging) : s.flush.all = s.all := by
  unfold flush all
  split
  · rfl
  · simp

theorem buf_flush (s : Staging) : s.flush.buf = [] := by
  unfold flush
  split
  · assumption
  · rfl

@[simp] theorem all_putByte (room : ℕ) (s : Staging) (b : UInt8) :
    (s.putByte room b).all = s.all ++ [b] := by
  unfold putByte
  dsimp only
  split
  · rw [← all_flush s]
    simp [all]
  · simp [all]

@[simp] theorem all_put (room : ℕ) (s : Staging) (piece : List UInt8) :
    (s.put room piece).all = s.all ++ piece := by
  unfold put
  induction piece generalizing s with
  | nil => simp
  | cons b piece ih => rw [List.foldl_cons, ih, all_putByte, List.append_assoc, List.singleton_append]

/-- **What is handed on in the end** is what was put. -/
theorem sent_flush_foldl (room : ℕ) (s : Staging) (pieces : List (List UInt8)) :
    (pieces.foldl (put room) s).flush.sent.flatten = s.all ++ pieces.flatten := by
  have hall : (pieces.foldl (put room) s).all = s.all ++ pieces.flatten := by
    induction pieces generalizing s with
    | nil => simp
    | cons piece pieces ih => rw [List.foldl_cons, ih, all_put, List.append_assoc, List.flatten_cons]
  rw [← hall, ← all_flush, all, buf_flush, List.append_nil]

end Staging
