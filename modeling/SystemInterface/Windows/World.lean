import Mathlib.Logic.Function.Basic
import SystemInterface.Model.FileState
import SystemInterface.Windows.Definitions

/-!
# SystemInterface — one file on Windows

What the operations under the Windows implementation do, as `ReOpenFile`,
`SetFilePointerEx`, `ReadFile` and `WriteFile` are documented and `std` calls
them. A `World` is the caller's memory and one file with the handles that are
open on it; every handle has a position of its own.

Every operation is one step. The environment says which steps answer
`Interrupted`, having done nothing, and how many bytes each transfer moves.
-/

namespace SystemInterface.Windows

open Effect

-- ---------------------------------------------------------------------------
-- The file and its handles
-- ---------------------------------------------------------------------------

/-- What a handle was opened for. -/
inductive Access where
  | read
  | write
  | append
  | readWrite
  deriving DecidableEq, Repr

def Access.reads : Access → Bool
  | read => true
  | write => false
  | append => false
  | readWrite => true

def Access.writes : Access → Bool
  | read => false
  | write => true
  | append => true
  | readWrite => true

structure Handle where
  pos : Nat
  access : Access
  deriving DecidableEq, Repr

structure World where
  mem : Memory
  content : List UInt8
  /-- The handles; those below `opened` have been opened. -/
  handles : Nat → Handle
  opened : Nat
  /-- The operations made so far, and the transfers among them. -/
  steps : Nat
  transfers : Nat

/-- `ERROR_ACCESS_DENIED`. -/
def accessDenied : Fault := .err (.new .permissionDenied "Access is denied. (os error 5)")

/-- `ERROR_NEGATIVE_SEEK`. -/
def negativeSeek : Fault :=
  .err (.new .uncategorized
    "An attempt was made to move the file pointer before the beginning of the file. (os error 131)")

/-- `ERROR_INVALID_PARAMETER`. -/
def invalidParameter : Fault :=
  .err (.new .invalidInput "The parameter is incorrect. (os error 87)")

/-- A step that answers `Interrupted`. -/
def interruption : Fault := .err (.os .INTR)

/-- `u32::MAX`: `std` asks for no more bytes in one transfer. -/
def u32Max : Nat := 2 ^ 32 - 1

namespace World

/-- The file as the client sees it through a handle. -/
def file (w : World) (h : Nat) : FileState := ⟨w.mem, w.content, (w.handles h).pos⟩

/-- The same after `steps` operations. -/
def atStep (w : World) (steps : Nat) : World := { w with steps := steps }

def setPos (w : World) (h pos : Nat) : World :=
  { w with handles := Function.update w.handles h { w.handles h with pos := pos } }

/-- `ReOpenFile`: a handle of its own, at the start of the same file. -/
def reopen (w : World) (access : Access) : Result Nat × World :=
  (.ok w.opened,
    { w with handles := Function.update w.handles w.opened ⟨0, access⟩, opened := w.opened + 1 })

/-- The position that a seek asks for. -/
def target (w : World) (h : Nat) : SeekFrom → Int
  | .start offset => offset
  | .fromEnd offset => w.content.length + offset
  | .current offset => (w.handles h).pos + offset

/-- `SetFilePointerEx`. -/
def seek (w : World) (h : Nat) (pos : SeekFrom) : Result Nat × World :=
  if 0 ≤ w.target h pos ∧ w.target h pos ≤ i64Max then
    (.ok (w.target h pos).toNat, w.setPos h (w.target h pos).toNat)
  else (.error negativeSeek, w)

/-- `ReadFile` at an offset; `size` bytes, as far as there are as many. -/
def readAt (w : World) (h : Nat) (buf : Slice) (offset size : Nat) : Result Nat × World :=
  if (w.handles h).access.reads then
    let data := w.content.drop offset
    let n := shortCount size (min (min buf.len u32Max) data.length)
    let w := { w with mem := w.mem.scatter [buf] (data.take n), transfers := w.transfers + 1 }
    (.ok n, w.setPos h (offset + n))
  else (.error accessDenied, w)

/-- `WriteFile` at an offset; a handle opened to append ignores it. -/
def writeAt (w : World) (h : Nat) (buf : Slice) (offset size : Nat) : Result Nat × World :=
  if (w.handles h).access.writes then
    let offset := if (w.handles h).access = .append then w.content.length else offset
    let n := shortCount size (min buf.len u32Max)
    let data := (w.mem.gather [buf]).take n
    let w := { w with content := splice 0 w.content offset data, transfers := w.transfers + 1 }
    (.ok n, w.setPos h (offset + n))
  else (.error accessDenied, w)

end World

-- ---------------------------------------------------------------------------
-- Steps
-- ---------------------------------------------------------------------------

/-- The environment: the steps that are interrupted, and the number of bytes
that each transfer moves, at least one if there is one. -/
structure Env where
  interrupted : Nat → Bool
  size : Nat → Nat

namespace Env

variable (env : Env) {α : Type}

/-- One step, which may be interrupted. -/
def step (x : World → Result α × World) : Proc World Fault α :=
  .ofStep fun w =>
    if env.interrupted w.steps then (.error interruption, w.atStep (w.steps + 1))
    else x (w.atStep (w.steps + 1))

def seekRead (h : Nat) (buf : Slice) (offset : Nat) : Proc World Fault Nat :=
  env.step fun w =>
    if offset ≤ i64Max then w.readAt h buf offset (env.size w.transfers)
    else (.error invalidParameter, w)

def read (h : Nat) (buf : Slice) : Proc World Fault Nat :=
  env.step fun w => w.readAt h buf (w.handles h).pos (env.size w.transfers)

def seekWrite (h : Nat) (buf : Slice) (offset : Nat) : Proc World Fault Nat :=
  env.step fun w =>
    if offset ≤ i64Max then w.writeAt h buf offset (env.size w.transfers)
    else (.error invalidParameter, w)

def write (h : Nat) (buf : Slice) : Proc World Fault Nat :=
  env.step fun w => w.writeAt h buf (w.handles h).pos (env.size w.transfers)

/-- The operations that the methods call. `std` has no vectored transfers on
Windows and takes the first buffer that is not empty. -/
def os : Os World Nat where
  reopen _ := env.step fun w => w.reopen .read
  reopenWrite _ := env.step fun w => w.reopen .write
  reopenAppend _ := env.step fun w => w.reopen .append
  seek h pos := env.step fun w => w.seek h pos
  read := env.read
  readVectored h bufs := env.read h (firstNonEmpty bufs)
  seekRead := env.seekRead
  seekWrite := env.seekWrite
  write := env.write
  writeVectored h bufs := env.write h (firstNonEmpty bufs)

/-- The environment without the interruptions. -/
def calm : Env := { env with interrupted := fun _ => false }

/-- From step `N` on none is interrupted. -/
def InterruptedBefore (N : Nat) : Prop := ∀ i, env.interrupted i = true → i < N

/-- Only finitely many steps are interrupted. -/
def FinitelyInterrupted : Prop := ∃ N, env.InterruptedBefore N

end Env

/-- The Windows implementation on this file. -/
def file (p : Profile) (env : Env) (h : Nat) : FileIoExt World := fileIoExt p env.os h

end SystemInterface.Windows
