import SystemInterface.Model.Loops

/-!
# SystemInterface — the trait `FileIoExt`

The methods of the trait that move bytes, as a record: an implementation gives
a value of it. `&self` is part of the state the methods act on.
-/

namespace SystemInterface

open Effect

/-- `std::io::SeekFrom`. -/
inductive SeekFrom where
  | start (offset : Nat)
  | fromEnd (offset : Int)
  | current (offset : Int)
  deriving DecidableEq, Repr

/-- The methods of `FileIoExt` for one file. -/
structure FileIoExt (σ : Type) where
  readAt : Slice → Nat → Proc σ Fault Nat
  readExactAt : Slice → Nat → Proc σ Fault Unit
  readVectoredAt : List IoSliceMut → Nat → Proc σ Fault Nat
  readExactVectoredAt : List IoSliceMut → Nat → Proc σ Fault Unit
  writeAt : Slice → Nat → Proc σ Fault Nat
  writeAllAt : Slice → Nat → Proc σ Fault Unit
  writeVectoredAt : List IoSlice → Nat → Proc σ Fault Nat
  writeAllVectoredAt : List IoSlice → Nat → Proc σ Fault Unit
  append : Slice → Proc σ Fault Nat
  appendAll : Slice → Proc σ Fault Unit
  appendVectored : List IoSlice → Proc σ Fault Nat
  appendAllVectored : List IoSlice → Proc σ Fault Unit
  seek : SeekFrom → Proc σ Fault Nat
  streamPosition : Proc σ Fault Nat

end SystemInterface
