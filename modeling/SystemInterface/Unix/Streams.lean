import SystemInterface.Model.Streams
import SystemInterface.Unix.Scripts

/-!
# SystemInterface — streams on Unix

`impl IoExt for T` on Unix: reads and writes at the position of the open file
description. The system calls are on the machine of `Unix/Kernel.lean`; the log has
the bytes that each of them moved.

Main result:

* `sessionScript_toProc` — a stream session, one system call at a time.
-/

namespace SystemInterface.Unix

open Effect

namespace Stream

-- ---------------------------------------------------------------------------
-- System calls
-- ---------------------------------------------------------------------------

inductive Call where
  | read (buf : Slice)
  | readv (bufs : List IoSliceMut)
  | write (buf : Slice)
  | writev (bufs : List IoSlice)

namespace Call

/-- What a system call returns: the number of bytes it has moved. -/
abbrev Reply (_ : Call) : Type := Except Errno Nat

def reads : Call → Bool
  | read _ | readv _ => true
  | write _ | writev _ => false

def buffers : Call → List Slice
  | read buf | write buf => [buf]
  | readv bufs | writev bufs => bufs

end Call

/-- A method of the implementation: a program over system calls. -/
abbrev Method (α : Type) := Prog Call Call.Reply Fault α

/-- One system call, and the `?` operator on it. -/
def sys (c : Call) : Method Nat := do
  let r ← Prog.op c
  Prog.ofExcept (Result.ofOs r)

-- ---------------------------------------------------------------------------
-- The implementation
-- ---------------------------------------------------------------------------

def read (buf : Slice) : Method Nat := sys (.read buf)

def readVectored (bufs : List IoSliceMut) : Method Nat := sys (.readv (bufs.take iovMax))

def write (buf : Slice) : Method Nat := sys (.write buf)

def writeVectored (bufs : List IoSlice) : Method Nat := sys (.writev (bufs.take iovMax))

/-- `impl IoExt for T`, with the methods run by `run`; `read_exact` and `write_all` are
those of `std`, the loops over buffers the provided ones. -/
def ioExt {σ : Type} (p : Profile) (run : {α : Type} → Method α → Proc σ Fault α) : IoExt σ where
  read buf := run (read buf)
  readExact := RustStd.readExact fun buf => run (read buf)
  readVectored bufs := run (readVectored bufs)
  readExactVectored := IoExt.Default.readExactVectored p fun bufs => run (readVectored bufs)
  write buf := run (write buf)
  writeAll := RustStd.writeAll fun buf => run (write buf)
  writeVectored bufs := run (writeVectored bufs)
  writeAllVectored := IoExt.Default.writeAllVectored p fun bufs => run (writeVectored bufs)

-- ---------------------------------------------------------------------------
-- The kernel
-- ---------------------------------------------------------------------------

end Stream

/-- `read`, `readv`: from the position on. -/
def Machine.read (m : Machine) (bufs : List IoSliceMut) (count : Nat) : Nat × Machine :=
  let (n, m) := m.readAt bufs m.desc.pos count
  (n, { m with desc := { m.desc with pos := m.desc.pos + n } })

namespace Stream

/-- One system call. -/
def step (m : Machine) : Call → Decision → Except Errno Nat × Machine
  | _, .fail e => (.error e, m)
  | .read buf, .go count => (m.read [buf] count).map .ok id
  | .readv bufs, .go count => (m.read bufs count).map .ok id
  | .write buf, .go count => (m.write [buf] count).map .ok id
  | .writev bufs, .go count => (m.write bufs count).map .ok id

/-- The next `n` bytes that a call moves: those at the position, or those in its buffers. -/
def bytes (m : Machine) (c : Call) (n : Nat) : List UInt8 :=
  if c.reads then (m.content.drop m.desc.pos).take n else (m.mem.gather c.buffers).take n

/-- A system call that was made, with the bytes it moved or its failure. -/
structure Event where
  call : Call
  outcome : Except Errno (List UInt8)

structure Kernel where
  machine : Machine
  log : List Event

/-- The environment: what it makes of the next call, in view of the log. -/
abbrev Env := List Event → Call → Decision

def handle (env : Env) (c : Call) (k : Kernel) : Except Errno Nat × Kernel :=
  let (r, m) := step k.machine c (env k.log c)
  (r, ⟨m, k.log ++ [⟨c, r.map (bytes k.machine c)⟩]⟩)

/-- The Unix implementation on this kernel. -/
def stream (p : Profile) (env : Env) : IoExt Kernel := ioExt p fun x => x.toProc (handle env)

-- ---------------------------------------------------------------------------
-- Call by call
-- ---------------------------------------------------------------------------

/-- A method of the implementation, with its loops. -/
abbrev Script (α : Type) := Effect.Script Call Call.Reply Fault α

/-- Hand the outcome of a call over as a reply. -/
def replied {α : Type} (x : Script α) (of : Result α → StreamReply) : Script StreamReply :=
  x.andThen fun r => .done (.ok (of r))

/-- A transfer loop around a method. -/
def looped {S : Type} (t : Transfer S Fault) (call : S → Method Nat) (s : S) : Script Unit :=
  t.script (fun s => .ofProg (call s)) s

/-- A call on a stream. -/
def script (p : Profile) : StreamOp → Script StreamReply
  | .read buf => replied (.ofProg (read buf)) .count
  | .readExact buf => replied (looped RustStd.readExact.transfer read buf) .unit
  | .readVectored bufs => replied (.ofProg (readVectored bufs)) .count
  | .readExactVectored bufs =>
    replied (looped (IoExt.Default.readExactVectored.transfer p) readVectored
      (skipLeadingEmpties bufs)) .unit
  | .write buf => replied (.ofProg (write buf)) .count
  | .writeAll buf => replied (looped RustStd.writeAll.transfer write buf) .unit
  | .writeVectored bufs => replied (.ofProg (writeVectored bufs)) .count
  | .writeAllVectored bufs =>
    replied (looped (IoExt.Default.writeAllVectored.transfer p) writeVectored bufs) .unit

def sessionScript (p : Profile) (ops : List StreamOp) : Script (List StreamReply) :=
  Effect.Script.each (script p) ops

section

variable (p : Profile) (env : Env)

theorem replied_toProc {α : Type} (x : Script α) (of : Result α → StreamReply) :
    (replied x of).toProc (handle env) = StreamOp.replying (x.toProc (handle env)) of :=
  Script.toProc_andThen x _

theorem looped_toProc {S : Type} (t : Transfer S Fault) (call : S → Method Nat) (s : S) :
    (looped t call s).toProc (handle env) = t.run (fun s => (call s).toProc (handle env)) s := by
  rw [looped, Transfer.script_toProc]
  simp only [Script.toProc_ofProg]

/-- A call run whole is the method. -/
theorem script_toProc (op : StreamOp) :
    (script p op).toProc (handle env) = op.perform (stream p env) := by
  cases op with
  | read buf =>
    exact (replied_toProc env _ _).trans
      (congrArg (StreamOp.replying · _) (Script.toProc_ofProg _))
  | readExact buf =>
    exact (replied_toProc env _ _).trans
      (congrArg (StreamOp.replying · _) (looped_toProc env _ _ _))
  | readVectored bufs =>
    exact (replied_toProc env _ _).trans
      (congrArg (StreamOp.replying · _) (Script.toProc_ofProg _))
  | readExactVectored bufs =>
    exact (replied_toProc env _ _).trans
      (congrArg (StreamOp.replying · _) (looped_toProc env _ _ _))
  | write buf =>
    exact (replied_toProc env _ _).trans
      (congrArg (StreamOp.replying · _) (Script.toProc_ofProg _))
  | writeAll buf =>
    exact (replied_toProc env _ _).trans
      (congrArg (StreamOp.replying · _) (looped_toProc env _ _ _))
  | writeVectored bufs =>
    exact (replied_toProc env _ _).trans
      (congrArg (StreamOp.replying · _) (Script.toProc_ofProg _))
  | writeAllVectored bufs =>
    exact (replied_toProc env _ _).trans
      (congrArg (StreamOp.replying · _) (looped_toProc env _ _ _))

/-- **A stream session, one system call at a time.** -/
theorem sessionScript_toProc (ops : List StreamOp) :
    (sessionScript p ops).toProc (handle env) = streamSession (stream p env) ops := by
  induction ops with
  | nil => rfl
  | cons op ops ih =>
    rw [sessionScript, Script.toProc_each_cons, script_toProc, streamSession]
    exact congrArg _ (funext fun r => congrArg (· >>= _) ih)

end

end Stream

end SystemInterface.Unix
