import DatalogDafsa.Lib.RecordLock

/-!
# The locks of a directory

A directory has a file `LOCK` with two ranges.  A read-write handle holds the first one for
its whole life; the second one is held by a writer around a mutation window, and by a
reader while it opens.  Locks belong to processes: what a process closes or unlocks for one
handle is gone for its other handles too.

A handle is used by one thread at a time, which is busy with no other handle while it is in
a window; the handles of a process may be used by several threads.  A blocking request waits
until it is granted, so it is a step that is possible when it is granted; it may also fail,
with `EDEADLK` say, and then a mutation goes on without its window.  What is read and written
under the locks is left out.

## Main definitions

* `Handle`, `State`, `Action`, `step`, `run` — handles, and what is done with them.
* `Safe` — one writer, and no reader in a window of another process.
* `Clear` — no lock is taken from another handle, and no window is refused.
* `safe_of_clear` — a clear run is safe.
-/

namespace DatalogDafsa.LockProtocol

open RecordLock

/-- The two ranges of the file. -/
inductive LockByte
  /-- `LOCK_EXCL_BYTE`. -/
  | excl
  /-- `LOCK_WINDOW_BYTE`. -/
  | window
  deriving DecidableEq

/-- Where a handle is in its life. -/
inductive Phase
  /-- The file is open and the lock is asked for. -/
  | opening
  /-- The lock is held and the directory is read. -/
  | loading
  /-- The open returned. -/
  | live
  /-- `dl_close` was called. -/
  | closing
  deriving DecidableEq

/-- `DlDb`. -/
structure Handle where
  /-- The handle. -/
  id : ℕ
  /-- The process. -/
  pid : ℕ
  /-- `read_only`. -/
  readOnly : Bool
  /-- Where it is. -/
  phase : Phase
  /-- `mut_window_depth` of the thread that is in a window of this handle. -/
  depth : ℕ
  /-- The calls of `mutWindowBegin` that wait for their `mutWindowEnd`. -/
  inside : ℕ
  deriving DecidableEq

/-- The handles of all processes, and the locks on the file. -/
structure State where
  /-- The handles. -/
  handles : List Handle
  /-- The locks. -/
  locks : List (Lock ℕ LockByte)

/-- No handle. -/
def State.init : State := ⟨[], []⟩

/-- A handle becomes another one. -/
def State.set (s : State) (h : Handle) (locks : List (Lock ℕ LockByte)) : State :=
  ⟨s.handles.map fun h' => if h'.id = h.id then h else h', locks⟩

/-- The descriptor of a handle is closed, and with it go all locks of the process. -/
def State.closeFd (s : State) (h : Handle) : State :=
  ⟨s.handles.filter (·.id ≠ h.id), release s.locks h.pid⟩

/-- The lock an open asks for. -/
def openLock (locks : List (Lock ℕ LockByte)) (h : Handle) : Option (List (Lock ℕ LockByte)) :=
  if h.readOnly then acquire locks h.pid .window .shared
  else acquire locks h.pid .excl .exclusive

/-- `mutWindowBegin`, with whether `F_SETLKW` fails where it is called. -/
def mutWindowBegin (s : State) (h : Handle) (fails : Bool) : Option State :=
  if h.readOnly then some (s.set h s.locks)
  else if 0 < h.depth then
    some (s.set { h with depth := h.depth + 1, inside := h.inside + 1 } s.locks)
  else if fails then
    -- the mutation goes on, and the thread is in no window
    some (s.set { h with inside := h.inside + 1 } s.locks)
  else
    (acquire s.locks h.pid .window .exclusive).map fun locks =>
      s.set { h with depth := 1, inside := h.inside + 1 } locks

/-- `mutWindowEnd`. -/
def mutWindowEnd (s : State) (h : Handle) : State :=
  if h.readOnly then s.set h s.locks
  else if h.depth = 0 then s.set { h with inside := h.inside - 1 } s.locks
  else if 1 < h.depth then
    s.set { h with depth := h.depth - 1, inside := h.inside - 1 } s.locks
  else s.set { h with depth := 0, inside := h.inside - 1 } (unlock s.locks h.pid .window)

/-- What is done with a handle. -/
inductive Call
  /-- The lock of the open is granted. -/
  | locked
  /-- The request for the lock fails, and the open with it. -/
  | refused
  /-- The open fails later on. -/
  | failed
  /-- The open returns. -/
  | opened
  /-- `mutWindowBegin`. -/
  | windowBegin (fails : Bool)
  /-- `mutWindowEnd`. -/
  | windowEnd
  /-- `dl_close` begins, with a window of its own. -/
  | close (fails : Bool)
  /-- `dl_close` closes the file. -/
  | closed

/-- What is done. -/
inductive Action
  /-- `dl_open2` or `dl_open_ro` opens the file. -/
  | openFile (id pid : ℕ) (readOnly : Bool)
  /-- A handle goes on. -/
  | call (id : ℕ) (c : Call)
  /-- A process ends. -/
  | exit (pid : ℕ)

/-- A handle by its number. -/
def State.find (s : State) (id : ℕ) : Option Handle := s.handles.find? (·.id = id)

/-- A step of a handle. -/
def stepHandle (s : State) (h : Handle) : Call → Option State
  | .locked =>
    if h.phase = .opening then
      (openLock s.locks h).map fun locks => s.set { h with phase := .loading } locks
    else none
  | .refused => if h.phase = .opening then some (s.closeFd h) else none
  | .failed => if h.phase = .loading ∧ h.inside = 0 then some (s.closeFd h) else none
  | .opened =>
    if h.phase = .loading ∧ h.inside = 0 then
      some (s.set { h with phase := .live }
        (if h.readOnly then unlock s.locks h.pid .window else s.locks))
    else none
  | .windowBegin fails =>
    if h.phase = .loading ∨ h.phase = .live ∨ 0 < h.inside then mutWindowBegin s h fails else none
  | .windowEnd => if 0 < h.inside then some (mutWindowEnd s h) else none
  | .close fails =>
    if h.phase = .live ∧ h.inside = 0 then mutWindowBegin s { h with phase := .closing } fails
    else none
  | .closed => if h.phase = .closing ∧ h.inside = 0 then some (s.closeFd h) else none

/-- A step. -/
def step (s : State) : Action → Option State
  | .openFile id pid readOnly =>
    if (s.find id).isSome then none
    else some { s with handles := ⟨id, pid, readOnly, .opening, 0, 0⟩ :: s.handles }
  | .call id c => (s.find id).bind fun h => stepHandle s h c
  | .exit pid => some ⟨s.handles.filter (·.pid ≠ pid), release s.locks pid⟩

/-- Steps one after another. -/
def run : State → List Action → Option State
  | s, [] => some s
  | s, a :: acts => (step s a).bind fun s => run s acts

/-! ## Safety -/

/-- A read-write handle that was granted the directory. -/
def Handle.Writes (h : Handle) : Prop := h.readOnly = false ∧ h.phase ≠ .opening

/-- A read-only handle that reads the directory. -/
def Handle.Reads (h : Handle) : Prop := h.readOnly = true ∧ h.phase = .loading

/-- A handle in a mutation window. -/
def Handle.Mutates (h : Handle) : Prop := 0 < h.inside

instance (h : Handle) : Decidable h.Writes := inferInstanceAs (Decidable (_ ∧ _))

instance (h : Handle) : Decidable h.Reads := inferInstanceAs (Decidable (_ ∧ _))

instance (h : Handle) : Decidable h.Mutates := inferInstanceAs (Decidable (_ < _))

/-- Two processes do not both write, and none reads while another one is in a window. -/
def State.Safe (s : State) : Prop :=
  ∀ h ∈ s.handles, ∀ h' ∈ s.handles, h.pid ≠ h'.pid →
    ¬ (h.Writes ∧ h'.Writes) ∧ ¬ (h.Reads ∧ h'.Mutates)

instance (s : State) : Decidable s.Safe :=
  inferInstanceAs (Decidable (∀ h ∈ s.handles, ∀ h' ∈ s.handles, h.pid ≠ h'.pid →
    ¬ (h.Writes ∧ h'.Writes) ∧ ¬ (h.Reads ∧ h'.Mutates)))

/-- The other handles of a process have a property. -/
def State.Others (s : State) (h : Handle) (P : Handle → Prop) : Prop :=
  ∀ h' ∈ s.handles, h'.id ≠ h.id → h'.pid = h.pid → P h'

instance (s : State) (h : Handle) (P : Handle → Prop) [DecidablePred P] :
    Decidable (s.Others h P) :=
  inferInstanceAs (Decidable (∀ h' ∈ s.handles, h'.id ≠ h.id → h'.pid = h.pid → P h'))

/-- `mutWindowBegin` asks for no lock, or the request does not fail. -/
def WindowGranted (h : Handle) (fails : Bool) : Prop :=
  fails = true → h.readOnly = true ∨ 0 < h.depth

instance (h : Handle) (fails : Bool) : Decidable (WindowGranted h fails) :=
  inferInstanceAs (Decidable (_ → _))

/-- A step of a handle takes no lock from another handle of its process that has need of
it, and begins no mutation without a window. -/
def ClearCall (s : State) (h : Handle) : Call → Prop
  -- the shared lock takes the place of the exclusive one
  | .locked => h.readOnly = true → s.Others h fun h' => ¬ h'.Mutates
  | .opened => h.readOnly = true → s.Others h fun h' => ¬ h'.Reads ∧ ¬ h'.Mutates
  | .windowEnd => h.depth = 1 → s.Others h fun h' => ¬ h'.Reads ∧ ¬ h'.Mutates
  -- the file is closed
  | .refused => s.Others h fun h' => ¬ h'.Writes ∧ ¬ h'.Reads ∧ ¬ h'.Mutates
  | .failed => s.Others h fun h' => ¬ h'.Writes ∧ ¬ h'.Reads ∧ ¬ h'.Mutates
  | .closed => s.Others h fun h' => ¬ h'.Writes ∧ ¬ h'.Reads ∧ ¬ h'.Mutates
  -- a mutation starts
  | .windowBegin fails => WindowGranted h fails
  | .close fails => WindowGranted h fails

instance (s : State) (h : Handle) : (c : Call) → Decidable (ClearCall s h c)
  | .locked => inferInstanceAs (Decidable (_ → s.Others h _))
  | .opened => inferInstanceAs (Decidable (_ → s.Others h _))
  | .windowEnd => inferInstanceAs (Decidable (_ → s.Others h _))
  | .refused => inferInstanceAs (Decidable (s.Others h _))
  | .failed => inferInstanceAs (Decidable (s.Others h _))
  | .closed => inferInstanceAs (Decidable (s.Others h _))
  | .windowBegin fails => inferInstanceAs (Decidable (WindowGranted h fails))
  | .close fails => inferInstanceAs (Decidable (WindowGranted h fails))

/-- A step takes no lock that is needed, and begins no mutation without a window. -/
def Clear (s : State) : Action → Prop
  | .call id c => ∀ h ∈ s.find id, ClearCall s h c
  | _ => True

instance (s : State) : (a : Action) → Decidable (Clear s a)
  | .openFile .. => inferInstanceAs (Decidable True)
  | .call id c => inferInstanceAs (Decidable (∀ h ∈ s.find id, ClearCall s h c))
  | .exit _ => inferInstanceAs (Decidable True)

/-- All steps of a run are clear. -/
def RunClear : State → List Action → Prop
  | _, [] => True
  | s, a :: acts => Clear s a ∧ ∀ s' ∈ step s a, RunClear s' acts

/-! ## What a handle rests on -/

/-- The locks a handle rests on are held. -/
structure Secured (locks : List (Lock ℕ LockByte)) (h : Handle) : Prop where
  /-- A writer. -/
  writes : h.Writes → ⟨h.pid, .excl, .exclusive⟩ ∈ locks
  /-- A reader. -/
  reads : h.Reads → ∃ m, ⟨h.pid, .window, m⟩ ∈ locks
  /-- A window. -/
  mutates : h.Mutates → ⟨h.pid, .window, .exclusive⟩ ∈ locks
  /-- There is no window before the lock is got. -/
  idle : h.phase = .opening → ¬ h.Mutates
  /-- Every mutation has its window. -/
  depth : h.inside = h.depth

/-- Locks exclude what they have to, and every handle has those it rests on. -/
structure Inv (s : State) : Prop where
  /-- The locks. -/
  compatible : Compatible s.locks
  /-- The handles. -/
  secured : ∀ h ∈ s.handles, Secured s.locks h

theorem inv_init : Inv .init := ⟨.nil, nofun⟩

/-- **What the locks give.** -/
theorem Inv.safe {s : State} (hs : Inv s) : s.Safe := by
  intro h hh h' hh' hne
  constructor
  · rintro ⟨hw, hw'⟩
    exact hne (hs.compatible.owner_eq ((hs.secured h hh).writes hw) ((hs.secured h' hh').writes hw'))
  · rintro ⟨hr, hm⟩
    obtain ⟨m, hlock⟩ := (hs.secured h hh).reads hr
    exact hne (hs.compatible.owner_eq ((hs.secured h' hh').mutates hm) hlock).symm

variable {s s' : State} {h h' : Handle} {locks locks' : List (Lock ℕ LockByte)}

theorem mem_of_find {id : ℕ} (hf : s.find id = some h) : h ∈ s.handles :=
  List.mem_of_find?_eq_some hf

/-- A handle changes, and the others keep what they rest on. -/
theorem inv_set (hc : Compatible locks') (hnew : Secured locks' h')
    (hkeep : ∀ h ∈ s.handles, h.id ≠ h'.id → Secured locks' h) : Inv (s.set h' locks') := by
  refine ⟨hc, fun g hg => ?_⟩
  obtain ⟨g', hg', rfl⟩ := List.mem_map.mp hg
  split
  · exact hnew
  · rename_i hid
    exact hkeep g' hg' hid

/-- A lock that is granted takes nothing from a handle, unless it lowers the lock of a
window. -/
theorem Secured.acquire {p : ℕ} {r : LockByte} {m : Mode} (hh : Secured locks h)
    (hacq : acquire locks p r m = some locks') (hexcl : r = .excl → m = .exclusive)
    (hlower : h.pid = p → r = .window → m = .shared → ¬ h.Mutates) : Secured locks' h where
  writes hw := by
    rw [mem_acquire hacq]
    by_cases hsame : h.pid = p ∧ .excl = r
    · obtain ⟨rfl, rfl⟩ := hsame
      rw [hexcl rfl]
      exact .inl rfl
    · exact .inr ⟨hh.writes hw, hsame⟩
  reads hr := by
    obtain ⟨m', hm'⟩ := hh.reads hr
    by_cases hsame : h.pid = p ∧ .window = r
    · obtain ⟨rfl, rfl⟩ := hsame
      exact ⟨m, (mem_acquire hacq).mpr (.inl rfl)⟩
    · exact ⟨m', (mem_acquire hacq).mpr (.inr ⟨hm', hsame⟩)⟩
  mutates hm := by
    rw [mem_acquire hacq]
    by_cases hsame : h.pid = p ∧ .window = r
    · obtain ⟨rfl, rfl⟩ := hsame
      cases m with
      | shared => exact absurd hm (hlower rfl rfl rfl)
      | exclusive => exact .inl rfl
    · exact .inr ⟨hh.mutates hm, hsame⟩
  idle := hh.idle
  depth := hh.depth

/-- The end of a window takes nothing from a handle that has no need of it. -/
theorem Secured.unlock {p : ℕ} (hh : Secured locks h)
    (hfree : h.pid = p → ¬ h.Reads ∧ ¬ h.Mutates) : Secured (unlock locks p .window) h where
  writes hw := mem_unlock.mpr ⟨hh.writes hw, by simp⟩
  reads hr := by
    obtain ⟨m, hm⟩ := hh.reads hr
    exact ⟨m, mem_unlock.mpr ⟨hm, fun hsame => (hfree hsame.1).1 hr⟩⟩
  mutates hm := mem_unlock.mpr ⟨hh.mutates hm, fun hsame => (hfree hsame.1).2 hm⟩
  idle := hh.idle
  depth := hh.depth

/-- A closed file takes nothing from a handle that needs no lock. -/
theorem Secured.release {p : ℕ} (hh : Secured locks h)
    (hfree : h.pid = p → ¬ h.Writes ∧ ¬ h.Reads ∧ ¬ h.Mutates) :
    Secured (release locks p) h where
  writes hw := mem_release.mpr ⟨hh.writes hw, fun hsame => (hfree hsame).1 hw⟩
  reads hr := by
    obtain ⟨m, hm⟩ := hh.reads hr
    exact ⟨m, mem_release.mpr ⟨hm, fun hsame => (hfree hsame).2.1 hr⟩⟩
  mutates hm := mem_release.mpr ⟨hh.mutates hm, fun hsame => (hfree hsame).2.2 hm⟩
  idle := hh.idle
  depth := hh.depth

theorem Inv.closeFd (hs : Inv s)
    (hclear : s.Others h fun h' => ¬ h'.Writes ∧ ¬ h'.Reads ∧ ¬ h'.Mutates) :
    Inv (s.closeFd h) := by
  refine ⟨hs.compatible.release _, fun g hg => ?_⟩
  obtain ⟨hg, hid⟩ := List.mem_filter.mp hg
  exact (hs.secured g hg).release (hclear g hg (by simpa using hid))

/-! ## Steps -/

/-- A window begins. -/
theorem Inv.mutWindowBegin (hs : Inv s) (hh : Secured s.locks h) (hphase : h.phase ≠ .opening)
    {fails : Bool} (hclear : WindowGranted h fails)
    (hstep : mutWindowBegin s h fails = some s') : Inv s' := by
  unfold LockProtocol.mutWindowBegin at hstep
  split at hstep
  · cases hstep
    exact inv_set hs.compatible hh fun g hg _ => hs.secured g hg
  rename_i hro
  split at hstep
  · rename_i hdepth
    cases hstep
    refine inv_set hs.compatible
      ⟨hh.writes, hh.reads, fun _ => hh.mutates ?_, fun h => absurd h hphase, ?_⟩
      fun g hg _ => hs.secured g hg
    · rw [Handle.Mutates, hh.depth]
      exact hdepth
    · exact congrArg (· + 1) hh.depth
  rename_i hdepth
  split at hstep
  · rename_i hfails
    rcases hclear hfails with h | h
    · exact absurd h hro
    · exact absurd h hdepth
  · obtain ⟨locks', hacq, rfl⟩ := Option.map_eq_some_iff.mp hstep
    have hkeep : ∀ g, Secured s.locks g → Secured locks' g := fun g hg =>
      hg.acquire hacq nofun nofun
    have hh' := hkeep h hh
    refine inv_set (hs.compatible.acquire hacq)
      ⟨hh'.writes, hh'.reads, fun _ => ?_, fun h => absurd h hphase, ?_⟩
      fun g hg _ => hkeep g (hs.secured g hg)
    · exact (mem_acquire hacq).mpr (.inl rfl)
    · have := hh.depth
      dsimp only
      omega

/-- A window ends. -/
theorem Inv.mutWindowEnd (hs : Inv s) (hh : Secured s.locks h) (hinside : 0 < h.inside)
    (hclear : h.depth = 1 → s.Others h fun h' => ¬ h'.Reads ∧ ¬ h'.Mutates) :
    Inv (mutWindowEnd s h) := by
  have hdepth := hh.depth
  unfold LockProtocol.mutWindowEnd
  split
  · exact inv_set hs.compatible hh fun g hg _ => hs.secured g hg
  rename_i hro
  split
  · omega
  split
  · exact inv_set hs.compatible ⟨hh.writes, hh.reads, fun _ => hh.mutates hinside,
      fun h => absurd hinside (hh.idle h), by dsimp only; omega⟩ fun g hg _ => hs.secured g hg
  · refine inv_set (hs.compatible.unlock _ _)
      ⟨fun hw => ?_, fun hr => ?_, fun hm => ?_, fun hopen => ?_, ?_⟩
      fun g hg hid => (hs.secured g hg).unlock (hclear (by omega) g hg hid)
    · exact mem_unlock.mpr ⟨hh.writes hw, by simp⟩
    · exact absurd hr.1 hro
    · have hpos : 0 < h.inside - 1 := hm
      omega
    · exact absurd hinside (hh.idle hopen)
    · dsimp only
      omega

/-- **A clear step of a handle** keeps what handles rest on. -/
theorem Inv.stepHandle (hs : Inv s) (hmem : h ∈ s.handles) (c : Call) (hclear : ClearCall s h c)
    (hstep : stepHandle s h c = some s') : Inv s' := by
  have hh := hs.secured h hmem
  cases c with
  | locked =>
    rw [LockProtocol.stepHandle] at hstep
    split at hstep
    · rename_i hphase
      obtain ⟨locks', hacq, rfl⟩ := Option.map_eq_some_iff.mp hstep
      unfold openLock at hacq
      split at hacq
      · rename_i hro
        have hother := hclear hro
        refine inv_set (hs.compatible.acquire hacq)
          ⟨fun hw => ?_, fun _ => ?_, fun hm => absurd hm (hh.idle hphase), nofun, hh.depth⟩
          fun g hg hid => (hs.secured g hg).acquire hacq nofun fun hpid _ _ => hother g hg hid hpid
        · exact absurd (hro.symm.trans hw.1) (by decide)
        · exact ⟨.shared, (mem_acquire hacq).mpr (.inl rfl)⟩
      · rename_i hro
        refine inv_set (hs.compatible.acquire hacq)
          ⟨fun _ => ?_, fun hr => ?_, fun hm => absurd hm (hh.idle hphase), nofun, hh.depth⟩
          fun g hg _ => (hs.secured g hg).acquire hacq (fun _ => rfl) nofun
        · exact (mem_acquire hacq).mpr (.inl rfl)
        · exact absurd hr.1 hro
    · cases hstep
  | refused =>
    rw [LockProtocol.stepHandle] at hstep
    split at hstep
    · cases hstep
      exact hs.closeFd hclear
    · cases hstep
  | failed =>
    rw [LockProtocol.stepHandle] at hstep
    split at hstep
    · cases hstep
      exact hs.closeFd hclear
    · cases hstep
  | opened =>
    rw [LockProtocol.stepHandle] at hstep
    split at hstep
    · rename_i hphase
      cases hstep
      by_cases hro : h.readOnly = true
      · rw [if_pos hro]
        have hother := hclear hro
        refine inv_set (hs.compatible.unlock _ _)
          ⟨fun hw => ?_, fun hr => ?_, fun hm => ?_, nofun, hh.depth⟩
          fun g hg hid => (hs.secured g hg).unlock (hother g hg hid)
        · exact absurd (hro.symm.trans hw.1) (by decide)
        · cases hr.2
        · have hpos : 0 < h.inside := hm
          rw [hphase.2] at hpos
          exact absurd hpos (lt_irrefl 0)
      · rw [if_neg hro]
        refine inv_set hs.compatible ⟨fun hw => ?_, fun hr => ?_, hh.mutates, nofun, hh.depth⟩
          fun g hg _ => hs.secured g hg
        · exact hh.writes ⟨hw.1, by rw [hphase.1]; decide⟩
        · exact absurd hr.1 hro
    · cases hstep
  | windowBegin fails =>
    rw [LockProtocol.stepHandle] at hstep
    split at hstep
    · rename_i hphase
      refine hs.mutWindowBegin hh (fun hopen => ?_) hclear hstep
      rcases hphase with hp | hp | hp
      · cases hopen.symm.trans hp
      · cases hopen.symm.trans hp
      · exact hh.idle hopen hp
    · cases hstep
  | windowEnd =>
    rw [LockProtocol.stepHandle] at hstep
    split at hstep
    · rename_i hinside
      cases hstep
      exact hs.mutWindowEnd hh hinside hclear
    · cases hstep
  | close fails =>
    rw [LockProtocol.stepHandle] at hstep
    split at hstep
    · rename_i hphase
      have hclosing : Secured s.locks { h with phase := .closing } := by
        refine ⟨fun hw => ?_, fun hr => ?_, hh.mutates, fun hopen => ?_, hh.depth⟩
        · exact hh.writes ⟨hw.1, by rw [hphase.1]; decide⟩
        · cases hr.2
        · cases hopen
      exact hs.mutWindowBegin hclosing (fun hopen => by cases hopen) hclear hstep
    · cases hstep
  | closed =>
    rw [LockProtocol.stepHandle] at hstep
    split at hstep
    · cases hstep
      exact hs.closeFd hclear
    · cases hstep

/-- **A clear step** keeps what handles rest on. -/
theorem Inv.step (hs : Inv s) {a : Action} (hclear : Clear s a) (hstep : step s a = some s') :
    Inv s' := by
  cases a with
  | openFile id pid readOnly =>
    rw [LockProtocol.step] at hstep
    split at hstep
    · cases hstep
    · cases hstep
      refine ⟨hs.compatible, fun g hg => ?_⟩
      rcases List.mem_cons.mp hg with rfl | hg
      · exact ⟨fun hw => absurd rfl hw.2, fun hr => (by cases hr.2),
          fun hm => absurd hm (lt_irrefl 0), fun _ => lt_irrefl 0, rfl⟩
      · exact hs.secured g hg
  | call id c =>
    rw [LockProtocol.step] at hstep
    obtain ⟨h, hfind, hstep⟩ := Option.bind_eq_some_iff.mp hstep
    exact hs.stepHandle (mem_of_find hfind) c (hclear h hfind) hstep
  | exit pid =>
    rw [LockProtocol.step] at hstep
    cases hstep
    refine ⟨hs.compatible.release _, fun g hg => ?_⟩
    obtain ⟨hg, hpid⟩ := List.mem_filter.mp hg
    exact (hs.secured g hg).release fun hsame => absurd hsame (by simpa using hpid)

/-! ## Runs -/

theorem Inv.run (hs : Inv s) {acts : List Action} (hclear : RunClear s acts)
    (hrun : run s acts = some s') : Inv s' := by
  induction acts generalizing s with
  | nil =>
    cases hrun
    exact hs
  | cons a acts ih =>
    rw [LockProtocol.run] at hrun
    obtain ⟨s₁, hstep, hrun⟩ := Option.bind_eq_some_iff.mp hrun
    exact ih (hs.step hclear.1 hstep) (hclear.2 s₁ hstep) hrun

/-- **A run that takes no lock from another handle that needs it is safe.** -/
theorem safe_of_clear (acts : List Action) (s : State) (hrun : run .init acts = some s)
    (hclear : RunClear .init acts) : s.Safe :=
  (inv_init.run hclear hrun).safe

instance decidableRunClear : (acts : List Action) → (s : State) → Decidable (RunClear s acts)
  | [], _ => inferInstanceAs (Decidable True)
  | a :: acts, s =>
    have : ∀ s, Decidable (RunClear s acts) := decidableRunClear acts
    inferInstanceAs (Decidable (Clear s a ∧ ∀ s' ∈ step s a, RunClear s' acts))

/-- A writer, two readers in two other processes, and the next writer. -/
def sampleRun : List Action :=
  [.openFile 0 1 false, .call 0 .locked, .call 0 (.windowBegin false), .call 0 .windowEnd,
    .call 0 .opened, .openFile 1 2 true, .openFile 2 3 true, .call 1 .locked, .call 2 .locked,
    .call 1 .opened, .call 2 .opened, .call 0 (.windowBegin false), .call 0 (.windowBegin true),
    .call 0 .windowEnd, .call 0 .windowEnd, .openFile 3 2 false, .call 0 (.close false),
    .call 0 .windowEnd, .call 0 .closed, .call 3 .locked, .exit 3]

theorem safe_sampleRun : ∃ s, run .init sampleRun = some s ∧ s.Safe :=
  ⟨_, rfl, safe_of_clear sampleRun _ rfl (by decide)⟩

/-- A process with a writer opens and closes a reader, and loses the lock of the writer. -/
theorem not_safe_reader :
    ¬ ∀ acts s, run .init acts = some s → s.Safe := by
  intro h
  have hbad : (run .init [.openFile 0 1 false, .call 0 .locked, .call 0 .opened,
      .openFile 1 1 true, .call 1 .locked, .call 1 .opened, .call 1 (.close false), .call 1 .closed,
      .openFile 2 2 false, .call 2 .locked, .call 2 .opened]).map (fun s => decide s.Safe) =
        some false := by decide
  obtain ⟨s, hrun, hs⟩ := Option.map_eq_some_iff.mp hbad
  exact of_decide_eq_false hs (h _ s hrun)

-- a writer waits for a window, and is refused it: the reader that is in the way belongs to a
-- process of which another thread waits for the lock of the writer
example : (run .init [.openFile 0 1 false, .call 0 .locked, .call 0 .opened, .openFile 1 2 true,
    .call 1 .locked, .openFile 2 2 false, .call 0 (.windowBegin true)]).map
      (fun s => decide s.Safe) = some false := by decide

end DatalogDafsa.LockProtocol
