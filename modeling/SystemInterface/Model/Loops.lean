import SystemInterface.Lib.Transfer
import SystemInterface.Model.Slices

/-!
# SystemInterface — the complete-transfer loops

The provided methods of the traits `FileIoExt` and `IoExt`, and the loops of
`std` that the implementations call. Each is a transfer loop around one method
of the implementation, which stays a parameter: its state is what the loop
carries (the rest of the buffer or of the list of buffers, and the running
offset), its parts are the arms of the loop's `match`.

The loops differ in what they do with `Ok(0)`, in how they add to the offset
and in whether they retry `Interrupted`; the rest is shared.
-/

namespace SystemInterface

open Effect

variable {σ : Type}

-- ---------------------------------------------------------------------------
-- Errors made by the loops
-- ---------------------------------------------------------------------------

def offsetOverflow : Fault := .err (.new .other "offset overflow")

def failedToFill : Fault := .err (.new .unexpectedEof "failed to fill whole buffer")

def failedToWrite : Fault := .err (.new .writeZero "failed to write whole buffer")

/-- `offset.checked_add(n).ok_or_else(…)?`. -/
def addOffset (offset n : Nat) : Result Nat :=
  match checkedAdd offset n with
  | some offset => .ok offset
  | none => .error offsetOverflow

-- ---------------------------------------------------------------------------
-- Provided methods of `FileIoExt`
-- ---------------------------------------------------------------------------

namespace FileIoExt.Default

def readVectoredAt (readAt : Slice → Nat → Proc σ Fault Nat)
    (bufs : List IoSliceMut) (offset : Nat) : Proc σ Fault Nat :=
  readAt (firstNonEmpty bufs) offset

def readExactVectoredAt.transfer (p : Profile) : Transfer (List IoSliceMut × Nat) Fault where
  isEmpty s := s.1.isEmpty
  onOk s nread :=
    if nread = 0 then .error failedToFill
    else do
      let offset ← addOffset s.2 nread
      let bufs ← advanceMut p s.1 nread
      .ok (bufs, offset)
  settle s := (skipLeadingEmpties s.1, s.2)
  retry := Fault.isInterrupted

def readExactVectoredAt (p : Profile)
    (readVectoredAt : List IoSliceMut → Nat → Proc σ Fault Nat)
    (bufs : List IoSliceMut) (offset : Nat) : Proc σ Fault Unit :=
  (readExactVectoredAt.transfer p).run (fun s => readVectoredAt s.1 s.2)
    (skipLeadingEmpties bufs, offset)

def writeAllAt.transfer (p : Profile) : Transfer (Slice × Nat) Fault where
  isEmpty s := s.1.isEmpty
  onOk s nwritten := do
    let buf ← s.1.sliceFrom nwritten
    let offset ← p.add s.2 nwritten
    .ok (buf, offset)
  settle s := s
  retry := Fault.isInterrupted

def writeAllAt (p : Profile) (writeAt : Slice → Nat → Proc σ Fault Nat)
    (buf : Slice) (offset : Nat) : Proc σ Fault Unit :=
  (writeAllAt.transfer p).run (fun s => writeAt s.1 s.2) (buf, offset)

def writeVectoredAt (writeAt : Slice → Nat → Proc σ Fault Nat)
    (bufs : List IoSlice) (offset : Nat) : Proc σ Fault Nat :=
  writeAt (firstNonEmpty bufs) offset

def writeAllVectoredAt.transfer (p : Profile) : Transfer (List IoSlice × Nat) Fault where
  isEmpty s := s.1.isEmpty
  onOk s nwritten := do
    let offset ← addOffset s.2 nwritten
    let bufs ← advance p s.1 nwritten
    .ok (bufs, offset)
  settle s := s
  retry := Fault.isInterrupted

def writeAllVectoredAt (p : Profile)
    (writeVectoredAt : List IoSlice → Nat → Proc σ Fault Nat)
    (bufs : List IoSlice) (offset : Nat) : Proc σ Fault Unit :=
  (writeAllVectoredAt.transfer p).run (fun s => writeVectoredAt s.1 s.2) (bufs, offset)

def appendAll.transfer : Transfer Slice Fault where
  isEmpty buf := buf.isEmpty
  onOk buf nwritten := buf.sliceFrom nwritten
  settle buf := buf
  retry := Fault.isInterrupted

def appendAll (append : Slice → Proc σ Fault Nat) (buf : Slice) : Proc σ Fault Unit :=
  appendAll.transfer.run append buf

def appendVectored (append : Slice → Proc σ Fault Nat) (bufs : List IoSlice) :
    Proc σ Fault Nat :=
  append (firstNonEmpty bufs)

def appendAllVectored.transfer (p : Profile) : Transfer (List IoSlice) Fault where
  isEmpty bufs := bufs.isEmpty
  onOk bufs nwritten := advance p bufs nwritten
  settle bufs := bufs
  retry := Fault.isInterrupted

def appendAllVectored (p : Profile) (appendVectored : List IoSlice → Proc σ Fault Nat)
    (bufs : List IoSlice) : Proc σ Fault Unit :=
  (appendAllVectored.transfer p).run appendVectored bufs

end FileIoExt.Default

-- ---------------------------------------------------------------------------
-- Provided methods of `IoExt`
-- ---------------------------------------------------------------------------

namespace IoExt.Default

def readExactVectored.transfer (p : Profile) : Transfer (List IoSliceMut) Fault where
  isEmpty bufs := bufs.isEmpty
  onOk bufs nread :=
    if nread = 0 then .error failedToFill else advanceMut p bufs nread
  settle := skipLeadingEmpties
  retry := Fault.isInterrupted

def readExactVectored (p : Profile) (readVectored : List IoSliceMut → Proc σ Fault Nat)
    (bufs : List IoSliceMut) : Proc σ Fault Unit :=
  (readExactVectored.transfer p).run readVectored (skipLeadingEmpties bufs)

def writeAllVectored.transfer (p : Profile) : Transfer (List IoSlice) Fault where
  isEmpty bufs := bufs.isEmpty
  onOk bufs nwritten := advance p bufs nwritten
  settle bufs := bufs
  retry := Fault.isInterrupted

def writeAllVectored (p : Profile) (writeVectored : List IoSlice → Proc σ Fault Nat)
    (bufs : List IoSlice) : Proc σ Fault Unit :=
  (writeAllVectored.transfer p).run writeVectored bufs

end IoExt.Default

-- ---------------------------------------------------------------------------
-- Loops of `std`
-- ---------------------------------------------------------------------------

namespace RustStd

/-- `std::io::Read::read_exact`. -/
def readExact.transfer : Transfer Slice Fault where
  isEmpty buf := buf.isEmpty
  onOk buf n := if n = 0 then .error failedToFill else buf.sliceFrom n
  settle buf := buf
  retry := Fault.isInterrupted

def readExact (read : Slice → Proc σ Fault Nat) (buf : Slice) : Proc σ Fault Unit :=
  readExact.transfer.run read buf

/-- `std::os::unix::fs::FileExt::read_exact_at`. -/
def readExactAt.transfer (p : Profile) : Transfer (Slice × Nat) Fault where
  isEmpty s := s.1.isEmpty
  onOk s n :=
    if n = 0 then .error failedToFill
    else do
      let buf ← s.1.sliceFrom n
      let offset ← p.add s.2 n
      .ok (buf, offset)
  settle s := s
  retry := Fault.isInterrupted

def readExactAt (p : Profile) (readAt : Slice → Nat → Proc σ Fault Nat)
    (buf : Slice) (offset : Nat) : Proc σ Fault Unit :=
  (readExactAt.transfer p).run (fun s => readAt s.1 s.2) (buf, offset)

/-- `std::os::unix::fs::FileExt::write_all_at`. -/
def writeAllAt.transfer (p : Profile) : Transfer (Slice × Nat) Fault where
  isEmpty s := s.1.isEmpty
  onOk s n :=
    if n = 0 then .error failedToWrite
    else do
      let buf ← s.1.sliceFrom n
      let offset ← p.add s.2 n
      .ok (buf, offset)
  settle s := s
  retry := Fault.isInterrupted

def writeAllAt (p : Profile) (writeAt : Slice → Nat → Proc σ Fault Nat)
    (buf : Slice) (offset : Nat) : Proc σ Fault Unit :=
  (writeAllAt.transfer p).run (fun s => writeAt s.1 s.2) (buf, offset)

end RustStd

end SystemInterface
