import SystemInterface.Lib.Prog
import SystemInterface.Lib.Splice
import SystemInterface.Model.Trait

/-!
# SystemInterface — the Unix implementation

`impl FileIoExt for T` on Linux. A method is a program over system calls,
answered by the kernel (`Unix/Kernel.lean`); the loops around the methods are
those of `Model/Loops.lean`.
-/

namespace SystemInterface.Unix

open Effect

-- ---------------------------------------------------------------------------
-- System calls
-- ---------------------------------------------------------------------------

/-- `rustix::fs::OFlags`. -/
abbrev OFlags := BitVec 32

def OFlags.APPEND : OFlags := 0x400

/-- The flags `F_SETFL` can change on a regular file: `O_APPEND`, `O_NONBLOCK`,
`O_DIRECT` and `O_NOATIME`. It leaves `O_ASYNC` there as it is. -/
def OFlags.settable : OFlags := 0x44c00

/-- `rustix::io::ReadWriteFlags`. -/
abbrev ReadWriteFlags := BitVec 32

def ReadWriteFlags.APPEND : ReadWriteFlags := 0x10

inductive SysCall where
  | pread (buf : Slice) (offset : Nat)
  | preadv (bufs : List IoSliceMut) (offset : Nat)
  | pwrite (buf : Slice) (offset : Nat)
  | pwritev (bufs : List IoSlice) (offset : Nat)
  | pwritev2 (bufs : List IoSlice) (offset : Nat) (flags : ReadWriteFlags)
  | write (buf : Slice)
  | writev (bufs : List IoSlice)
  | fcntlGetfl
  | fcntlSetfl (flags : OFlags)
  | tell
  | seek (pos : SeekFrom)

namespace SysCall

/-- What a system call returns when it succeeds. -/
def Value : SysCall → Type
  | fcntlGetfl => OFlags
  | fcntlSetfl _ => Unit
  | _ => Nat

abbrev Reply (c : SysCall) : Type := Except Errno c.Value

/-- The number of bytes a successful system call has moved. -/
def moved : (c : SysCall) → c.Value → Nat
  | pread _ _, n => n
  | preadv _ _, n => n
  | pwrite _ _, n => n
  | pwritev _ _, n => n
  | pwritev2 _ _ _, n => n
  | write _, n => n
  | writev _, n => n
  | fcntlGetfl, _ => 0
  | fcntlSetfl _, _ => 0
  | tell, _ => 0
  | seek _, _ => 0

end SysCall

/-- A method of the implementation: a program over system calls. -/
abbrev Method (α : Type) := Prog SysCall SysCall.Reply Fault α

abbrev sys (c : SysCall) : Method c.Reply := Prog.op c

/-- The `?` operator on a system call. -/
def try_ {α : Type} (r : Except Errno α) : Method α := Prog.ofExcept (Result.ofOs r)

/-- `.unwrap()` on a system call. -/
def unwrap {α : Type} : Except Errno α → Method α
  | .ok a => Prog.ofExcept (.ok a)
  | .error _ => Prog.ofExcept (.error (.panic "called `Result::unwrap()` on an `Err` value"))

-- ---------------------------------------------------------------------------
-- Positional methods
-- ---------------------------------------------------------------------------

def readAt (buf : Slice) (offset : Nat) : Method Nat := do
  let r ← sys (.pread buf offset)
  try_ r

def readVectoredAt (bufs : List IoSliceMut) (offset : Nat) : Method Nat := do
  let r ← sys (.preadv (bufs.take iovMax) offset)
  try_ r

def writeAt (buf : Slice) (offset : Nat) : Method Nat := do
  let r ← sys (.pwrite buf offset)
  try_ r

def writeVectoredAt (bufs : List IoSlice) (offset : Nat) : Method Nat := do
  let r ← sys (.pwritev (bufs.take iovMax) offset)
  try_ r

-- ---------------------------------------------------------------------------
-- Appending
-- ---------------------------------------------------------------------------

/-- Switch the file description to append mode, do the write, and switch back. -/
def appendFallback (write : Method (Except Errno Nat)) : Method Nat := do
  let flags ← sys .fcntlGetfl
  let oldFlags : OFlags ← try_ flags
  let pos ← sys .tell
  let oldPos : Nat ← try_ pos
  let set ← sys (.fcntlSetfl (oldFlags ||| OFlags.APPEND))
  try_ set
  let result ← write
  let reset ← sys (.fcntlSetfl oldFlags)
  unwrap reset
  let back ← sys (.seek (.start oldPos))
  let _ ← unwrap back
  try_ result

/-- `pwritev2`, or the fallback where the kernel or the file does not have it. -/
def appendUsing (bufs : List IoSlice) (write : Method (Except Errno Nat)) : Method Nat := do
  let r ← sys (.pwritev2 bufs 0 ReadWriteFlags.APPEND)
  match r with
  | .error .NOSYS => appendFallback write
  | .error .NOTSUP => appendFallback write
  | otherwise => try_ otherwise

def append (buf : Slice) : Method Nat := appendUsing [buf] (sys (.write buf))

def appendVectored (bufs : List IoSlice) : Method Nat :=
  appendUsing (bufs.take iovMax) (sys (.writev (bufs.take iovMax)))

-- ---------------------------------------------------------------------------
-- Position
-- ---------------------------------------------------------------------------

def seek (pos : SeekFrom) : Method Nat := do
  let r ← sys (.seek pos)
  try_ r

def streamPosition : Method Nat := do
  let r ← sys .tell
  try_ r

/-- `impl FileIoExt for T`, with the methods run by `run`; `read_exact_at` and
`write_all_at` are those of `std`, the loops over buffers the provided ones. -/
def fileIoExt {σ : Type} (p : Profile) (run : {α : Type} → Method α → Proc σ Fault α) :
    FileIoExt σ where
  readAt buf offset := run (readAt buf offset)
  readExactAt := RustStd.readExactAt p fun buf offset => run (readAt buf offset)
  readVectoredAt bufs offset := run (readVectoredAt bufs offset)
  readExactVectoredAt :=
    FileIoExt.Default.readExactVectoredAt p fun bufs offset => run (readVectoredAt bufs offset)
  writeAt buf offset := run (writeAt buf offset)
  writeAllAt := RustStd.writeAllAt p fun buf offset => run (writeAt buf offset)
  writeVectoredAt bufs offset := run (writeVectoredAt bufs offset)
  writeAllVectoredAt :=
    FileIoExt.Default.writeAllVectoredAt p fun bufs offset => run (writeVectoredAt bufs offset)
  append buf := run (append buf)
  appendAll := FileIoExt.Default.appendAll fun buf => run (append buf)
  appendVectored bufs := run (appendVectored bufs)
  appendAllVectored := FileIoExt.Default.appendAllVectored p fun bufs => run (appendVectored bufs)
  seek pos := run (seek pos)
  streamPosition := run streamPosition

end SystemInterface.Unix
