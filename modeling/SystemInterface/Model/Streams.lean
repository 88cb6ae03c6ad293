import SystemInterface.Model.Session

/-!
# SystemInterface — the trait `IoExt`

The methods of the trait that move bytes at the current position, as a record: an
implementation gives a value of it. A stream session is a list of calls of them.
-/

namespace SystemInterface

open Effect

variable {σ : Type}

-- ---------------------------------------------------------------------------
-- A loop of `std`
-- ---------------------------------------------------------------------------

namespace RustStd

/-- `std::io::Write::write_all`. -/
def writeAll.transfer : Transfer Slice Fault where
  isEmpty buf := buf.isEmpty
  onOk buf n := if n = 0 then .error failedToWrite else buf.sliceFrom n
  settle buf := buf
  retry := Fault.isInterrupted

def writeAll (write : Slice → Proc σ Fault Nat) (buf : Slice) : Proc σ Fault Unit :=
  writeAll.transfer.run write buf

def writeAll.bufferLoop : BufferLoop Slice where
  transfer := writeAll.transfer
  addrs buf := buf.addrs
  offset _ := none
  zero := some failedToWrite
  Ready _ := True
  MayZero _ := False
  size buf := buf.len
  empty buf h := Slice.addrs_of_isEmpty h
  settle _ _ := rfl
  onZero buf f h := by
    obtain rfl := Option.some.inj h
    rfl
  onOk buf n hne _ hz hn _ _ := by
    have hn0 : n ≠ 0 := hz (by simp)
    rw [Slice.length_addrs] at hn
    refine ⟨buf.rest n, ?_, trivial, Slice.addrs_rest, rfl, fun _ => Slice.len_rest_lt hne hn0⟩
    simp only [writeAll.transfer, if_neg hn0, Slice.sliceFrom_of_le hn]

end RustStd

-- ---------------------------------------------------------------------------
-- The trait
-- ---------------------------------------------------------------------------

/-- The methods of `IoExt` for one handle. -/
structure IoExt (σ : Type) where
  read : Slice → Proc σ Fault Nat
  readExact : Slice → Proc σ Fault Unit
  readVectored : List IoSliceMut → Proc σ Fault Nat
  readExactVectored : List IoSliceMut → Proc σ Fault Unit
  write : Slice → Proc σ Fault Nat
  writeAll : Slice → Proc σ Fault Unit
  writeVectored : List IoSlice → Proc σ Fault Nat
  writeAllVectored : List IoSlice → Proc σ Fault Unit

-- ---------------------------------------------------------------------------
-- Calls
-- ---------------------------------------------------------------------------

/-- A call on a stream. -/
inductive StreamOp where
  | read (buf : Slice)
  | readExact (buf : Slice)
  | readVectored (bufs : List IoSliceMut)
  | readExactVectored (bufs : List IoSliceMut)
  | write (buf : Slice)
  | writeAll (buf : Slice)
  | writeVectored (bufs : List IoSlice)
  | writeAllVectored (bufs : List IoSlice)

/-- What a call on a stream returns. -/
inductive StreamReply where
  | unit (r : Result Unit)
  | count (r : Result Nat)
  deriving DecidableEq

namespace StreamOp

/-- The call reads into its buffers. -/
def reads : StreamOp → Bool
  | read _ | readExact _ | readVectored _ | readExactVectored _ => true
  | write _ | writeAll _ | writeVectored _ | writeAllVectored _ => false

/-- The addresses the buffers of the call cover, in order. -/
def addrs : StreamOp → List Nat
  | read buf | readExact buf | write buf | writeAll buf => buf.addrs
  | readVectored bufs | readExactVectored bufs => cells bufs
  | writeVectored bufs | writeAllVectored bufs => cells bufs

/-- Hand the outcome of a call over as a reply. -/
def replying {α : Type} (x : Proc σ Fault α) (of : Result α → StreamReply) :
    Proc σ Fault StreamReply := do
  let r ← x.attempt
  pure (of r)

def perform (io : IoExt σ) : StreamOp → Proc σ Fault StreamReply
  | read buf => replying (io.read buf) .count
  | readExact buf => replying (io.readExact buf) .unit
  | readVectored bufs => replying (io.readVectored bufs) .count
  | readExactVectored bufs => replying (io.readExactVectored bufs) .unit
  | write buf => replying (io.write buf) .count
  | writeAll buf => replying (io.writeAll buf) .unit
  | writeVectored bufs => replying (io.writeVectored bufs) .count
  | writeAllVectored bufs => replying (io.writeAllVectored bufs) .unit

end StreamOp

def streamSession (io : IoExt σ) : List StreamOp → Proc σ Fault (List StreamReply)
  | [] => pure []
  | op :: ops => do
    let r ← op.perform io
    let rs ← streamSession io ops
    pure (r :: rs)

end SystemInterface
