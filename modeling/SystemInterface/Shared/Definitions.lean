import SystemInterface.Model.ToEnd
import SystemInterface.Windows.World

/-!
# SystemInterface — a file that others change

The file behind `read_to_end_at` and `read_to_string_at`, when the caller is not
alone with it. Behind every call that the functions make, the others may have
truncated, extended or rewritten the file, and every call may fail; all of this
is a schedule. The device takes down which bytes were read from which positions.
-/

namespace SystemInterface.Shared

open Effect

-- ---------------------------------------------------------------------------
-- The others
-- ---------------------------------------------------------------------------

/-- What a file holds. Its size is a file offset. -/
structure Content where
  bytes : List UInt8
  len_le : bytes.length ≤ i64Max

/-- How a call ends. -/
inductive Outcome where
  | fail (e : Errno)
  | go (count : Nat)
  deriving DecidableEq, Repr

/-- What happens at a call: how it ends, and what the others then make of the file. -/
structure Visit where
  outcome : Outcome
  content : Content

/-- A schedule: what happens at the `i`-th call. -/
abbrev Others := Nat → Visit

-- ---------------------------------------------------------------------------
-- The device
-- ---------------------------------------------------------------------------

structure Device where
  mem : Memory
  content : Content
  pos : Nat
  /-- The position of the handle that the file was opened by again. -/
  reopened : Nat
  /-- The calls made so far. -/
  steps : Nat
  /-- The bytes read so far, with their positions in the file. -/
  reads : List (UInt8 × Nat)

namespace Device

/-- A device on which no call was made. -/
def fresh (mem : Memory) (content : Content) (pos : Nat) : Device := ⟨mem, content, pos, 0, 0, []⟩

/-- The bytes were read from the file, the first of them at `offset`. -/
def WasRead (d : Device) (offset : Nat) (bytes : List UInt8) : Prop :=
  bytes.zipIdx offset ⊆ d.reads

/-- A read of some bytes, as far as the buffer and the file go. -/
def readAt (buf : Slice) (offset count : Nat) (d : Device) : Nat × Device :=
  let data := d.content.bytes.drop offset
  let n := shortCount count (min buf.len data.length)
  (n, { d with
    mem := store d.mem buf.addrs (data.take n)
    reads := d.reads ++ (data.take n).zipIdx offset })

/-- The file through the handle that it was opened by again. -/
def aside (d : Device) : FileState := ⟨d.mem, d.content.bytes, d.reopened⟩

/-- `SetFilePointerEx`. -/
def seek (pos : SeekFrom) (d : Device) : Result Nat × Device :=
  if 0 ≤ d.aside.target pos ∧ d.aside.target pos ≤ i64Max then
    (.ok (d.aside.target pos).toNat, { d with reopened := (d.aside.target pos).toNat })
  else (.error Windows.negativeSeek, d)

/-- The others have been at the file. -/
def after (d : Device) (visit : Visit) : Device :=
  { d with content := visit.content, steps := d.steps + 1 }

end Device

/-- The file as its owner sees it. -/
def view : View Device where
  file d := ⟨d.mem, d.content.bytes, d.pos⟩
  setMem d m := { d with mem := m }
  file_setMem _ _ := rfl

-- ---------------------------------------------------------------------------
-- Calls
-- ---------------------------------------------------------------------------

namespace Others

variable (others : Others)

/-- One call: it fails, having done nothing, or `x` carries it out. -/
def step {α : Type} (x : Nat → Device → Result α × Device) : Proc Device Fault α :=
  .ofStep fun d =>
    match (others d.steps).outcome with
    | .fail e => (.error (.err (.os e)), d.after (others d.steps))
    | .go count => ((x count d).1, (x count d).2.after (others d.steps))

/-- `file.metadata()?.len()`. -/
def metadataLen : Proc Device Fault Nat :=
  others.step fun _ d => (.ok d.content.bytes.length, d)

/-- `pread`. -/
def pread (buf : Slice) (offset : Nat) : Proc Device Fault Nat :=
  others.step fun count d => (d.readAt buf offset count).map .ok id

/-- `ReOpenFile`. -/
def reopen {H : Type} (h : H) : Proc Device Fault H :=
  others.step fun _ d => (.ok h, { d with reopened := 0 })

/-- `ReadFile` at the position of the handle. -/
def read (buf : Slice) : Proc Device Fault Nat :=
  others.step fun count d =>
    let (n, d') := d.readAt buf d.reopened count
    (.ok n, { d' with reopened := d.reopened + n })

/-- The operations on Windows that `read_exact_at` makes use of; the others are any. -/
def os {H : Type} (base : Windows.Os Device H) : Windows.Os Device H :=
  { base with
    reopen := others.reopen
    seek := fun _ pos => others.step fun _ d => d.seek pos
    read := fun _ buf => others.read buf }

end Others

-- ---------------------------------------------------------------------------
-- What an error is to leave of a vector
-- ---------------------------------------------------------------------------

/-- If the call returns an error, the vector holds what it held, and behind that
bytes that were read from the file, from the offset on. -/
def KeepsOnError (x : Proc (Device × Vec) Fault Nat) (d : Device) (v : Vec) (offset : Nat) :
    Prop :=
  ∀ e t, x.Returns (d, v) (.error (.err e)) t →
    ∃ added, t.2.bytes = v.bytes ++ added ∧ t.1.WasRead offset added

/-- Where an error cannot spoil the vector: the metadata puts the end of the file
before the offset, or promises more than can be allocated, or puts the end at the
offset, and the vector is too short to be torn or no file reaches further. -/
def Spared (found : Content) (offset : Nat) (v : Vec) : Prop :=
  found.bytes.length < offset ∨ isizeMax < v.len + (found.bytes.length - offset) ∨
    found.bytes.length = offset ∧ (v.len ≤ 1 ∨ offset = i64Max)

instance (found : Content) (offset : Nat) (v : Vec) : Decidable (Spared found offset v) :=
  inferInstanceAs (Decidable (_ ∨ _ ∨ _ ∧ (_ ∨ _)))

end SystemInterface.Shared
