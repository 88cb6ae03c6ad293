import Mathlib.Data.Set.Finite.Lattice
import SystemInterface.Lib.Splice
import SystemInterface.Model.LoopInstances

/-!
# SystemInterface — a scripted device

The environment of the provided methods: one file (or stream) whose single
transfers are as short, as interrupted and as broken as a script says. The
`i`-th call made on the device gets the `i`-th answer of the script, and the
device keeps a log of what it answered.

An answer `moved window count` lets the call look at a leading window of the
buffers and moves `count` bytes of it, as far as the window (and, for a read,
the content) goes, and at least one if there is one: every number of bytes a
call may legitimately move is some answer (`exists_shortCount`).
-/

namespace SystemInterface

open Effect

/-- What the environment decides about one call. -/
inductive Answer where
  | moved (window count : Nat)
  | fail (e : IoError)

/-- The device: the caller's memory, the content of the file, the position of
the stream and the answers given so far. -/
structure Device where
  mem : Memory
  content : List UInt8
  pos : Nat
  log : List (Except IoError Nat)

namespace Device

def record (d : Device) (answer : Except IoError Nat) : Device :=
  { d with log := d.log ++ [answer] }

/-- The number of bytes moved by a list of answers. -/
def accepted (answers : List (Except IoError Nat)) : Nat :=
  (answers.map fun a => match a with | .ok n => n | .error _ => 0).sum

/-- One call: answered by the script, and carried out by `move`. -/
def call (script : Nat → Answer) (move : Nat → Nat → Device → Nat × Device) :
    Proc Device Fault Nat :=
  .ofStep fun d =>
    match script d.log.length with
    | .fail e => (.error (.err e), d.record (.error e))
    | .moved window count =>
      let (n, d') := move window count d
      (.ok n, d'.record (.ok n))

-- ---------------------------------------------------------------------------
-- Writing
-- ---------------------------------------------------------------------------

/-- Move a prefix of a leading window of the buffers to where `place` puts it. -/
def give (place : List UInt8 → List UInt8 → List UInt8) (bufs : List IoSlice)
    (window count : Nat) (d : Device) : Nat × Device :=
  let data := d.mem.gather (bufs.take (max window 1))
  let n := shortCount count data.length
  (n, { d with content := place d.content (data.take n) })

def writeVectoredAt (script : Nat → Answer) (bufs : List IoSlice) (offset : Nat) :
    Proc Device Fault Nat :=
  call script (give (fun content => splice 0 content offset) bufs)

def writeVectored (script : Nat → Answer) (bufs : List IoSlice) : Proc Device Fault Nat :=
  call script (give (fun content data => content ++ data) bufs)

def writeAt (script : Nat → Answer) (buf : Slice) (offset : Nat) : Proc Device Fault Nat :=
  writeVectoredAt script [buf] offset

def write (script : Nat → Answer) (buf : Slice) : Proc Device Fault Nat :=
  writeVectored script [buf]

-- ---------------------------------------------------------------------------
-- Reading
-- ---------------------------------------------------------------------------

/-- Fill a prefix of a leading window of the buffers with the bytes of the
content from `offset` on. -/
def take (offset : Nat) (bufs : List IoSliceMut) (window count : Nat) (d : Device) :
    Nat × Device :=
  let bufs := bufs.take (max window 1)
  let data := d.content.drop offset
  let n := shortCount count (min (totalLen bufs) data.length)
  (n, { d with mem := d.mem.scatter bufs (data.take n) })

def readVectoredAt (script : Nat → Answer) (bufs : List IoSliceMut) (offset : Nat) :
    Proc Device Fault Nat :=
  call script (take offset bufs)

def readVectored (script : Nat → Answer) (bufs : List IoSliceMut) : Proc Device Fault Nat :=
  call script fun window count d =>
    let (n, d') := take d.pos bufs window count d
    (n, { d' with pos := d.pos + n })

def readAt (script : Nat → Answer) (buf : Slice) (offset : Nat) : Proc Device Fault Nat :=
  readVectoredAt script [buf] offset

def read (script : Nat → Answer) (buf : Slice) : Proc Device Fault Nat :=
  readVectored script [buf]

end Device

-- ---------------------------------------------------------------------------
-- The vectored methods an implementation may have
-- ---------------------------------------------------------------------------

/-- How the vectored method that a loop calls picks its buffers: any leading
window, the first non-empty buffer (the provided method, and `std` on
Windows), or the first `IOV_MAX` buffers (`preadv`, `pwritev`, `readv`,
`writev`). -/
inductive Vectored where
  | window
  | firstNonEmpty
  | iovMax
  deriving DecidableEq, Repr

namespace Vectored

variable (script : Nat → Answer)

def writeVectoredAt : Vectored → List IoSlice → Nat → Proc Device Fault Nat
  | window => Device.writeVectoredAt script
  | firstNonEmpty => FileIoExt.Default.writeVectoredAt (Device.writeAt script)
  | iovMax => fun bufs => Device.writeVectoredAt script (bufs.take SystemInterface.iovMax)

def writeVectored : Vectored → List IoSlice → Proc Device Fault Nat
  | window => Device.writeVectored script
  | firstNonEmpty => fun bufs => Device.write script (SystemInterface.firstNonEmpty bufs)
  | iovMax => fun bufs => Device.writeVectored script (bufs.take SystemInterface.iovMax)

def readVectoredAt : Vectored → List IoSliceMut → Nat → Proc Device Fault Nat
  | window => Device.readVectoredAt script
  | firstNonEmpty => FileIoExt.Default.readVectoredAt (Device.readAt script)
  | iovMax => fun bufs => Device.readVectoredAt script (bufs.take SystemInterface.iovMax)

def readVectored : Vectored → List IoSliceMut → Proc Device Fault Nat
  | window => Device.readVectored script
  | firstNonEmpty => fun bufs => Device.read script (SystemInterface.firstNonEmpty bufs)
  | iovMax => fun bufs => Device.readVectored script (bufs.take SystemInterface.iovMax)

end Vectored

/-- Only finitely many answers of the script are `Interrupted`. -/
def FinitelyInterrupted (script : Nat → Answer) : Prop :=
  {i | ∃ e, script i = .fail e ∧ e.kind = .interrupted}.Finite

/-- The script fails only with `Interrupted`. -/
def OnlyTransient (script : Nat → Answer) : Prop :=
  ∀ i e, script i = .fail e → e.kind = .interrupted

end SystemInterface
