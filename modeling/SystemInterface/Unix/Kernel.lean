import SystemInterface.Model.Slices
import SystemInterface.Unix.Definitions

/-!
# SystemInterface — the kernel under the Unix implementation

What the system calls do, as the manual pages say. A `Machine` is the caller's
memory with one open file description of one file; `Machine.step` carries a
system call out as far as a `Decision` lets it go: it may be refused, or move
fewer bytes than it was asked to.

A `Kernel` is a machine with the log of the calls made on it. The environment
decides on each call in view of that log, so a schedule of short transfers,
interruptions and failures is an environment.
-/

namespace SystemInterface.Unix

open Effect

-- ---------------------------------------------------------------------------
-- One open file
-- ---------------------------------------------------------------------------

/-- An open file description. -/
structure Desc where
  pos : Nat
  flags : OFlags
  deriving DecidableEq

/-- `O_APPEND` is set. -/
def Desc.appends (d : Desc) : Bool := d.flags &&& OFlags.APPEND != 0

structure Machine where
  mem : Memory
  content : List UInt8
  desc : Desc

/-- What the environment makes of a system call. -/
inductive Decision where
  | go (count : Nat)
  | fail (e : Errno)

/-- `MAX_RW_COUNT`: no system call moves more bytes than this. -/
def maxRwCount : Nat := 0x7ffff000

namespace Machine

/-- The bytes that a writing call takes from the buffers. -/
def taken (m : Machine) (bufs : List IoSlice) (count : Nat) : List UInt8 :=
  (m.mem.gather bufs).take (shortCount count (min (totalLen bufs) maxRwCount))

/-- `pwrite`, `pwritev`: with `O_APPEND` set, the offset is ignored. -/
def writeAt (m : Machine) (bufs : List IoSlice) (offset count : Nat) : Nat × Machine :=
  let data := m.taken bufs count
  (data.length, { m with
    content := if m.desc.appends then m.content ++ data else splice 0 m.content offset data })

/-- `pwritev2` with `RWF_APPEND` and an offset: the position stays. -/
def append (m : Machine) (bufs : List IoSlice) (count : Nat) : Nat × Machine :=
  let data := m.taken bufs count
  (data.length, { m with content := m.content ++ data })

/-- `write`, `writev`: at the position, or at the end with `O_APPEND`. -/
def write (m : Machine) (bufs : List IoSlice) (count : Nat) : Nat × Machine :=
  let data := m.taken bufs count
  let offset := if m.desc.appends then m.content.length else m.desc.pos
  (data.length, { m with
    content := splice 0 m.content offset data
    desc := { m.desc with pos := offset + data.length } })

/-- `pread`, `preadv`. -/
def readAt (m : Machine) (bufs : List IoSliceMut) (offset count : Nat) : Nat × Machine :=
  let data := m.content.drop offset
  let n := shortCount count (min (totalLen bufs) (min data.length maxRwCount))
  (n, { m with mem := m.mem.scatter bufs (data.take n) })

/-- `F_SETFL`: the other flags are ignored. -/
def setFlags (m : Machine) (flags : OFlags) : Machine :=
  { m with desc := { m.desc with
      flags := (m.desc.flags &&& ~~~OFlags.settable) ||| (flags &&& OFlags.settable) } }

/-- The position that a seek asks for. -/
def target (m : Machine) : SeekFrom → Int
  | .start offset => offset
  | .fromEnd offset => m.content.length + offset
  | .current offset => m.desc.pos + offset

/-- `lseek`; the upper bound on positions is not modelled. -/
def lseek (m : Machine) (pos : SeekFrom) : Except Errno Nat × Machine :=
  if 0 ≤ m.target pos then
    (.ok (m.target pos).toNat, { m with desc := { m.desc with pos := (m.target pos).toNat } })
  else (.error .INVAL, m)

/-- One system call. -/
def step (m : Machine) : (c : SysCall) → Decision → c.Reply × Machine
  | _, .fail e => (.error e, m)
  | .pread buf offset, .go count => ((m.readAt [buf] offset count).map Except.ok id)
  | .preadv bufs offset, .go count => ((m.readAt bufs offset count).map Except.ok id)
  | .pwrite buf offset, .go count => ((m.writeAt [buf] offset count).map Except.ok id)
  | .pwritev bufs offset, .go count => ((m.writeAt bufs offset count).map Except.ok id)
  | .pwritev2 bufs offset flags, .go count =>
    if flags &&& ReadWriteFlags.APPEND != 0 then ((m.append bufs count).map Except.ok id)
    else ((m.writeAt bufs offset count).map Except.ok id)
  | .write buf, .go count => ((m.write [buf] count).map Except.ok id)
  | .writev bufs, .go count => ((m.write bufs count).map Except.ok id)
  | .fcntlGetfl, .go _ => (.ok m.desc.flags, m)
  | .fcntlSetfl flags, .go _ => (.ok (), m.setFlags flags)
  | .tell, .go _ => (.ok m.desc.pos, m)
  | .seek pos, .go _ => m.lseek pos

end Machine

-- ---------------------------------------------------------------------------
-- The kernel with its log
-- ---------------------------------------------------------------------------

/-- A system call that was made, with the bytes it moved or its failure. -/
structure Event where
  call : SysCall
  outcome : Except Errno Nat

structure Kernel where
  machine : Machine
  log : List Event

/-- The environment: what it makes of the next call, in view of the log. -/
abbrev Env := List Event → SysCall → Decision

namespace Kernel

def handle (env : Env) (c : SysCall) (k : Kernel) : c.Reply × Kernel :=
  let (r, m) := k.machine.step c (env k.log c)
  (r, ⟨m, k.log ++ [⟨c, r.map c.moved⟩]⟩)

/-- Run a method on the kernel. -/
def run (env : Env) {α : Type} (x : Method α) : Proc Kernel Fault α := x.toProc (handle env)

end Kernel

/-- The Unix implementation on this kernel. -/
def file (p : Profile) (env : Env) : FileIoExt Kernel := fileIoExt p (Kernel.run env)

end SystemInterface.Unix
