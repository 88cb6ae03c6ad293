import SystemInterface.Model.Trait

/-!
# SystemInterface — the Windows implementation

`impl FileIoExt for std::fs::File` on Windows. `seek_read` and `seek_write`
move the current position there, so every positional method works on a handle
of its own, opened again from the file's.

The operations of `std` and `cap_fs_ext` that the methods call are the fields
of `Os`; the reopened handle is closed when its method returns, which no
method observes.
-/

namespace SystemInterface.Windows

open Effect

variable {σ H : Type}

/-- What the methods call on handles of type `H`. -/
structure Os (σ H : Type) where
  reopen : H → Proc σ Fault H
  reopenWrite : H → Proc σ Fault H
  reopenAppend : H → Proc σ Fault H
  seek : H → SeekFrom → Proc σ Fault Nat
  read : H → Slice → Proc σ Fault Nat
  readVectored : H → List IoSliceMut → Proc σ Fault Nat
  seekRead : H → Slice → Nat → Proc σ Fault Nat
  seekWrite : H → Slice → Nat → Proc σ Fault Nat
  write : H → Slice → Proc σ Fault Nat
  writeVectored : H → List IoSlice → Proc σ Fault Nat

/-- `loop { match … { Ok(a) => break a, Err(e) if interrupted => continue, … } }`. -/
def retryInterrupted {α : Type} (x : Proc σ Fault α) : Proc σ Fault α :=
  x.retry Fault.isInterrupted

variable (p : Profile) (os : Os σ H) (file : H)

def readAt (buf : Slice) (offset : Nat) : Proc σ Fault Nat := do
  let reopened ← os.reopen file
  os.seekRead reopened buf offset

def readExactAt (buf : Slice) (offset : Nat) : Proc σ Fault Unit := do
  let reopened ← retryInterrupted (os.reopen file)
  let _ ← retryInterrupted (os.seek reopened (.start offset))
  RustStd.readExact (os.read reopened) buf

def readVectoredAt (bufs : List IoSliceMut) (offset : Nat) : Proc σ Fault Nat := do
  let reopened ← os.reopen file
  let _ ← os.seek reopened (.start offset)
  os.readVectored reopened bufs

def readExactVectoredAt (bufs : List IoSliceMut) (offset : Nat) : Proc σ Fault Unit := do
  let reopened ← retryInterrupted (os.reopen file)
  let _ ← retryInterrupted (os.seek reopened (.start offset))
  IoExt.Default.readExactVectored p (os.readVectored reopened) bufs

def writeAt (buf : Slice) (offset : Nat) : Proc σ Fault Nat := do
  let reopened ← os.reopenWrite file
  os.seekWrite reopened buf offset

/-- The `while` loop of `write_all_at`: every failure is passed up. -/
def writeAllAt.transfer : Transfer (Slice × Nat) Fault where
  isEmpty s := s.1.isEmpty
  onOk s n := do
    let offset ← p.add s.2 n
    let buf ← s.1.sliceFrom n
    .ok (buf, offset)
  settle s := s
  retry _ := false

def writeAllAt (buf : Slice) (offset : Nat) : Proc σ Fault Unit := do
  let reopened ← os.reopenWrite file
  (writeAllAt.transfer p).run (fun s => os.seekWrite reopened s.1 s.2) (buf, offset)

def writeVectoredAt (bufs : List IoSlice) (offset : Nat) : Proc σ Fault Nat :=
  match bufs.find? fun b => !b.isEmpty with
  | some buf => writeAt os file buf offset
  | none => pure 0

def writeAllVectoredAt : List IoSlice → Nat → Proc σ Fault Unit
  | [], _ => pure ()
  | buf :: bufs, offset => do
    writeAllAt p os file buf offset
    let offset ← Proc.ofExcept (p.add offset buf.len)
    writeAllVectoredAt bufs offset

def append (buf : Slice) : Proc σ Fault Nat := do
  let reopened ← os.reopenAppend file
  os.write reopened buf

def appendVectored (bufs : List IoSlice) : Proc σ Fault Nat := do
  let reopened ← os.reopenAppend file
  os.writeVectored reopened bufs

def streamPosition : Proc σ Fault Nat := os.seek file (.current 0)

/-- `impl FileIoExt for std::fs::File`; `append_all` and `append_all_vectored`
are the provided ones. -/
def fileIoExt : FileIoExt σ where
  readAt := readAt os file
  readExactAt := readExactAt os file
  readVectoredAt := readVectoredAt os file
  readExactVectoredAt := readExactVectoredAt p os file
  writeAt := writeAt os file
  writeAllAt := writeAllAt p os file
  writeVectoredAt := writeVectoredAt os file
  writeAllVectoredAt := writeAllVectoredAt p os file
  append := append os file
  appendAll := FileIoExt.Default.appendAll (append os file)
  appendVectored := appendVectored os file
  appendAllVectored := FileIoExt.Default.appendAllVectored p (appendVectored os file)
  seek := os.seek file
  streamPosition := streamPosition os file

end SystemInterface.Windows
