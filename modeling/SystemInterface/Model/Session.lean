import Mathlib.Order.Interval.Set.Basic
import SystemInterface.Model.FileState

/-!
# SystemInterface — sessions on a file

A session is a list of calls on one file. `FileState.run` says what the calls
are for: what each is to return, and what the file is to be at the end. An
implementation that `Serves` the single calls serves every session.

Main result:

* `Serves.session` — a session returns what the abstract one does, and leaves
  the same file.
-/

namespace SystemInterface

open Effect

variable {σ : Type}

/-- A call on a file. -/
inductive Op where
  | writeAllAt (buf : Slice) (offset : Nat)
  | writeAllVectoredAt (bufs : List IoSlice) (offset : Nat)
  | readExactAt (buf : Slice) (offset : Nat)
  | readExactVectoredAt (bufs : List IoSliceMut) (offset : Nat)
  | appendAll (buf : Slice)
  | appendAllVectored (bufs : List IoSlice)
  | seek (pos : SeekFrom)
  | streamPosition

/-- The positional calls that stay in a region. -/
def Op.Inside (region : Set Nat) : Op → Prop
  | writeAllAt buf offset =>
    offset + buf.len ≤ i64Max ∧ Set.Ico offset (offset + buf.len) ⊆ region
  | writeAllVectoredAt bufs offset =>
    offset + totalLen bufs ≤ i64Max ∧ Set.Ico offset (offset + totalLen bufs) ⊆ region
  | readExactAt buf offset =>
    offset + buf.len ≤ i64Max ∧ Set.Ico offset (offset + buf.len) ⊆ region
  | readExactVectoredAt bufs offset =>
    offset + totalLen bufs ≤ i64Max ∧ Set.Ico offset (offset + totalLen bufs) ⊆ region
  | _ => False

/-- What a call returns. -/
inductive Reply where
  | unit (r : Result Unit)
  | position (r : Result Nat)
  deriving DecidableEq

-- ---------------------------------------------------------------------------
-- The calls of an implementation
-- ---------------------------------------------------------------------------

/-- Hand the outcome of a call over as a reply. -/
def reply {α : Type} (x : Proc σ Fault α) (of : Result α → Reply) : Proc σ Fault Reply := do
  let r ← x.attempt
  pure (of r)

def Op.perform (file : FileIoExt σ) : Op → Proc σ Fault Reply
  | writeAllAt buf offset => reply (file.writeAllAt buf offset) .unit
  | writeAllVectoredAt bufs offset => reply (file.writeAllVectoredAt bufs offset) .unit
  | readExactAt buf offset => reply (file.readExactAt buf offset) .unit
  | readExactVectoredAt bufs offset => reply (file.readExactVectoredAt bufs offset) .unit
  | appendAll buf => reply (file.appendAll buf) .unit
  | appendAllVectored bufs => reply (file.appendAllVectored bufs) .unit
  | seek pos => reply (file.seek pos) .position
  | streamPosition => reply file.streamPosition .position

def session (file : FileIoExt σ) : List Op → Proc σ Fault (List Reply)
  | [] => pure []
  | op :: ops => do
    let r ← op.perform file
    let rs ← session file ops
    pure (r :: rs)

-- ---------------------------------------------------------------------------
-- What the calls are for
-- ---------------------------------------------------------------------------

namespace FileState

def apply (f : FileState) : Op → Reply × FileState
  | .writeAllAt buf offset => (.unit (.ok ()), f.write (some offset) (buf.addrs.map f.mem))
  | .writeAllVectoredAt bufs offset => (.unit (.ok ()), f.write (some offset) (f.mem.gather bufs))
  | .readExactAt buf offset => (f.readExact (some offset) buf.addrs).map .unit id
  | .readExactVectoredAt bufs offset => (f.readExact (some offset) (cells bufs)).map .unit id
  | .appendAll buf => (.unit (.ok ()), f.write none (buf.addrs.map f.mem))
  | .appendAllVectored bufs => (.unit (.ok ()), f.write none (f.mem.gather bufs))
  | .seek pos => (.position (.ok (f.target pos).toNat), { f with pos := (f.target pos).toNat })
  | .streamPosition => (.position (.ok f.pos), f)

def run (f : FileState) : List Op → List Reply × FileState
  | [] => ([], f)
  | op :: ops =>
    let (r, f) := f.apply op
    let (rs, f) := f.run ops
    (r :: rs, f)

end FileState

/-- The end of the transfer and the target of the seek are positions. -/
def Op.InRange (f : FileState) : Op → Prop
  | writeAllAt buf offset => offset + buf.len ≤ i64Max
  | writeAllVectoredAt bufs offset => offset + totalLen bufs ≤ i64Max
  | readExactAt buf offset => offset + buf.len ≤ i64Max
  | readExactVectoredAt bufs offset => offset + totalLen bufs ≤ i64Max
  | appendAll _ => True
  | appendAllVectored _ => True
  | seek pos => 0 ≤ f.target pos ∧ f.target pos ≤ i64Max
  | streamPosition => True

/-- Every call of the session is in range when it is made. -/
def AllInRange (f : FileState) : List Op → Prop
  | [] => True
  | op :: ops => op.InRange f ∧ AllInRange (f.apply op).2 ops

-- ---------------------------------------------------------------------------
-- Serving
-- ---------------------------------------------------------------------------

/-- The implementation does what each call is for; `abs` is the file that the
state stands for, and `J` an invariant of the state. -/
def Serves (file : FileIoExt σ) (abs : σ → FileState) (J : σ → Prop) : Prop :=
  ∀ (op : Op) (w : σ), op.InRange (abs w) → J w →
    (op.perform file).wp w fun r w' =>
      r = .ok ((abs w).apply op).1 ∧ abs w' = ((abs w).apply op).2 ∧ J w'

theorem reply_wp {α : Type} {x : Proc σ Fault α} {of : Result α → Reply} {w : σ}
    {Post : Result Reply → σ → Prop} (h : x.wp w fun r w' => Post (.ok (of r)) w') :
    (reply x of).wp w Post := by
  refine Proc.wp_bind (Proc.wp_attempt (h.mono ?_))
  intro r w' hPost
  exact Proc.wp_pure hPost

/-- **Serving the calls is serving the sessions.** -/
theorem Serves.session {file : FileIoExt σ} {abs : σ → FileState} {J : σ → Prop}
    (h : Serves file abs J) (ops : List Op) {w : σ} (hRange : AllInRange (abs w) ops)
    (hJ : J w) :
    (SystemInterface.session file ops).wp w fun r w' =>
      r = .ok ((abs w).run ops).1 ∧ abs w' = ((abs w).run ops).2 ∧ J w' := by
  induction ops generalizing w with
  | nil => exact Proc.wp_pure ⟨rfl, rfl, hJ⟩
  | cons op ops ih =>
    obtain ⟨hOp, hOps⟩ := hRange
    refine Proc.wp_bind ((h op w hOp hJ).mono ?_)
    rintro r w₁ ⟨rfl, hFile, hJ₁⟩
    rw [← hFile] at hOps
    refine Proc.wp_bind ((ih hOps hJ₁).mono ?_)
    rintro rs w₂ ⟨rfl, hFile', hJ₂⟩
    rw [hFile] at hFile'
    refine Proc.wp_pure ⟨?_, hFile', hJ₂⟩
    rw [hFile]
    rfl

end SystemInterface
