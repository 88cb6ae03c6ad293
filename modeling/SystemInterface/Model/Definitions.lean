import Mathlib.Algebra.Order.Ring.Nat
import Mathlib.Data.List.Nodup
import SystemInterface.Lib.Store

/-!
# SystemInterface — errors, machine integers, buffers

The data the traits `FileIoExt` and `IoExt` work on. Offsets (`u64`) and
lengths (`usize`, 64 bits wide here) are natural numbers; every addition and
subtraction that can leave the 64-bit range is written out with what Rust does
there, in a build with overflow checks and in one without.

A buffer is a pointer and a length into a byte memory. `&[u8]`, `&mut [u8]`,
`IoSlice` and `IoSliceMut` are all `Slice`; a list of them is looked at
through the addresses it covers, in order (`cells`).
-/

namespace SystemInterface

-- ---------------------------------------------------------------------------
-- Errors
-- ---------------------------------------------------------------------------

/-- `std::io::ErrorKind`, as far as this crate and the `std` functions under
it produce it. -/
inductive ErrorKind where
  | notFound
  | permissionDenied
  | connectionRefused
  | connectionReset
  | hostUnreachable
  | networkUnreachable
  | connectionAborted
  | notConnected
  | addrInUse
  | addrNotAvailable
  | networkDown
  | brokenPipe
  | alreadyExists
  | wouldBlock
  | notADirectory
  | isADirectory
  | directoryNotEmpty
  | readOnlyFilesystem
  | filesystemLoop
  | staleNetworkFileHandle
  | invalidInput
  | invalidData
  | timedOut
  | writeZero
  | storageFull
  | notSeekable
  | filesystemQuotaExceeded
  | fileTooLarge
  | resourceBusy
  | executableFileBusy
  | deadlock
  | crossesDevices
  | tooManyLinks
  | invalidFilename
  | argumentListTooLong
  | interrupted
  | unsupported
  | unexpectedEof
  | outOfMemory
  | other
  | uncategorized
  deriving DecidableEq, Repr

/-- `rustix::io::Errno`: the numbers that are singled out somewhere, and all others
as they are on Linux. -/
inductive Errno where
  | INTR
  | NOSYS
  | NOTSUP
  | NOTSOCK
  | SPIPE
  | INVAL
  | other (code : Nat)
  deriving DecidableEq, Repr

/-- `decode_error_kind` of `std`, on the numbers that are not singled out. -/
def decodeErrorKind : Nat → ErrorKind
  | 1 => .permissionDenied  -- `EPERM`
  | 2 => .notFound  -- `ENOENT`
  | 7 => .argumentListTooLong  -- `E2BIG`
  | 11 => .wouldBlock  -- `EAGAIN`
  | 12 => .outOfMemory  -- `ENOMEM`
  | 13 => .permissionDenied  -- `EACCES`
  | 16 => .resourceBusy  -- `EBUSY`
  | 17 => .alreadyExists  -- `EEXIST`
  | 18 => .crossesDevices  -- `EXDEV`
  | 20 => .notADirectory  -- `ENOTDIR`
  | 21 => .isADirectory  -- `EISDIR`
  | 26 => .executableFileBusy  -- `ETXTBSY`
  | 27 => .fileTooLarge  -- `EFBIG`
  | 28 => .storageFull  -- `ENOSPC`
  | 30 => .readOnlyFilesystem  -- `EROFS`
  | 31 => .tooManyLinks  -- `EMLINK`
  | 32 => .brokenPipe  -- `EPIPE`
  | 35 => .deadlock  -- `EDEADLK`
  | 36 => .invalidFilename  -- `ENAMETOOLONG`
  | 39 => .directoryNotEmpty  -- `ENOTEMPTY`
  | 40 => .filesystemLoop  -- `ELOOP`
  | 98 => .addrInUse  -- `EADDRINUSE`
  | 99 => .addrNotAvailable  -- `EADDRNOTAVAIL`
  | 100 => .networkDown  -- `ENETDOWN`
  | 101 => .networkUnreachable  -- `ENETUNREACH`
  | 103 => .connectionAborted  -- `ECONNABORTED`
  | 104 => .connectionReset  -- `ECONNRESET`
  | 107 => .notConnected  -- `ENOTCONN`
  | 110 => .timedOut  -- `ETIMEDOUT`
  | 111 => .connectionRefused  -- `ECONNREFUSED`
  | 113 => .hostUnreachable  -- `EHOSTUNREACH`
  | 116 => .staleNetworkFileHandle  -- `ESTALE`
  | 122 => .filesystemQuotaExceeded  -- `EDQUOT`
  | _ => .uncategorized

/-- `decode_error_kind` of `std`: only `EINTR` is `Interrupted`. -/
def Errno.kind : Errno → ErrorKind
  | INTR => .interrupted
  | NOSYS => .unsupported
  | NOTSUP => .unsupported
  | SPIPE => .notSeekable
  | INVAL => .invalidInput
  | NOTSOCK => .uncategorized
  | other code => decodeErrorKind code

/-- `std::io::Error`: an operating system error, or `io::Error::new`. -/
inductive IoError where
  | os (errno : Errno)
  | new (kind : ErrorKind) (message : String)
  deriving DecidableEq, Repr

def IoError.kind : IoError → ErrorKind
  | os errno => errno.kind
  | new kind _ => kind

/-- The ways a call does not return `Ok`: an `io::Error`, a panic, or
undefined behaviour of `unsafe` code. -/
inductive Fault where
  | err (e : IoError)
  | panic (message : String)
  | undefined
  deriving DecidableEq, Repr

/-- `e.kind() == io::ErrorKind::Interrupted`; a panic is not caught. -/
def Fault.isInterrupted : Fault → Bool
  | .err e => e.kind == .interrupted
  | _ => false

theorem decodeErrorKind_ne_interrupted (code : Nat) : decodeErrorKind code ≠ .interrupted := by
  unfold decodeErrorKind
  split <;> simp

theorem isInterrupted_os {e : Errno} : (Fault.err (.os e)).isInterrupted = true ↔ e = .INTR := by
  cases e with
  | other code =>
    simp [Fault.isInterrupted, IoError.kind, Errno.kind, decodeErrorKind_ne_interrupted code]
  | _ => simp [Fault.isInterrupted, IoError.kind, Errno.kind]

abbrev Result (α : Type) := Except Fault α

/-- The `?` operator on a `rustix::io::Result`. -/
def Result.ofOs {α : Type} : Except Errno α → Result α
  | .ok a => .ok a
  | .error e => .error (.err (.os e))

/-- A fallible block is `Ok` where its steps are. -/
theorem bind_eq_ok {ε α β : Type} {x : Except ε α} {f : α → Except ε β} {b : β} :
    (x >>= f) = .ok b ↔ ∃ a, x = .ok a ∧ f a = .ok b := by
  cases x with
  | error e =>
    constructor
    · intro h
      cases h
    · rintro ⟨a, hx, -⟩
      cases hx
  | ok a =>
    constructor
    · exact fun h => ⟨a, rfl, h⟩
    · rintro ⟨a', hx, h⟩
      cases hx
      exact h

-- ---------------------------------------------------------------------------
-- 64-bit arithmetic
-- ---------------------------------------------------------------------------

/-- Whether integer overflow panics (`debug`) or wraps (`release`). -/
inductive Profile where
  | debug
  | release
  deriving DecidableEq, Repr

/-- `a + b` on `u64` or `usize`. -/
def Profile.add (p : Profile) (a b : Nat) : Result Nat :=
  if a + b < 2 ^ 64 then .ok (a + b)
  else match p with
    | debug => .error (.panic "attempt to add with overflow")
    | release => .ok ((a + b) % 2 ^ 64)

/-- `a - b` on `u64` or `usize`. -/
def Profile.sub (p : Profile) (a b : Nat) : Result Nat :=
  if b ≤ a then .ok (a - b)
  else match p with
    | debug => .error (.panic "attempt to subtract with overflow")
    | release => .ok (2 ^ 64 + a - b)

/-- `a.checked_add(b)` on `u64`. -/
def checkedAdd (a b : Nat) : Option Nat :=
  if a + b < 2 ^ 64 then some (a + b) else none

theorem Profile.add_of_lt (p : Profile) {a b : Nat} (h : a + b < 2 ^ 64) :
    p.add a b = .ok (a + b) := by
  unfold Profile.add
  rw [if_pos h]

theorem Profile.sub_of_le (p : Profile) {a b : Nat} (h : b ≤ a) :
    p.sub a b = .ok (a - b) := by
  unfold Profile.sub
  rw [if_pos h]

theorem checkedAdd_of_lt {a b : Nat} (h : a + b < 2 ^ 64) :
    checkedAdd a b = some (a + b) := if_pos h

/-- `isize::MAX`, the largest length of a slice. -/
def isizeMax : Nat := 2 ^ 63 - 1

/-- `i64::MAX`, the largest position in a file. -/
def i64Max : Nat := 2 ^ 63 - 1

-- ---------------------------------------------------------------------------
-- Buffers
-- ---------------------------------------------------------------------------

/-- A buffer: `len` bytes from address `ptr` on. -/
structure Slice where
  ptr : Nat
  len : Nat
  len_le : len ≤ isizeMax
  deriving DecidableEq

namespace Slice

def isEmpty (s : Slice) : Bool := s.len == 0

/-- The bytes of `s` from index `k` on. -/
def rest (s : Slice) (k : Nat) : Slice :=
  ⟨s.ptr + k, s.len - k, Nat.le_trans (Nat.sub_le ..) s.len_le⟩

/-- `&buf[k..]`. -/
def sliceFrom (s : Slice) (k : Nat) : Result Slice :=
  if k ≤ s.len then .ok (s.rest k)
  else .error (.panic "range start index out of range for slice")

/-- `ptr.add(k)`, `len -= k` and `slice::from_raw_parts(ptr, len)`: past the
end of the buffer the pointer arithmetic is undefined. -/
def advancePtr (s : Slice) (k : Nat) : Result Slice :=
  if k ≤ s.len then .ok (s.rest k) else .error .undefined

/-- The addresses of the bytes of `s`. -/
def addrs (s : Slice) : List Nat := List.range' s.ptr s.len

end Slice

abbrev IoSlice := Slice
abbrev IoSliceMut := Slice

/-- The addresses a list of buffers covers, in order. -/
def cells (bufs : List Slice) : List Nat := bufs.flatMap Slice.addrs

/-- The number of bytes in a list of buffers. -/
def totalLen (bufs : List Slice) : Nat := (bufs.map Slice.len).sum

abbrev Memory := Nat → UInt8

/-- The concatenation of the buffers. -/
def Memory.gather (m : Memory) (bufs : List Slice) : List UInt8 := (cells bufs).map m

/-- Write `data` over the buffers, in order. -/
def Memory.scatter (m : Memory) (bufs : List Slice) (data : List UInt8) : Memory :=
  Effect.store m (cells bufs) data

-- ---------------------------------------------------------------------------
-- Lists of buffers
-- ---------------------------------------------------------------------------

/-- `IOV_MAX`: rustix and `std` hand the kernel at most this many buffers. -/
def iovMax : Nat := 1024

/-- The first loop of `advance`: the number of buffers to remove and their
total length, starting from `remove` and `accumulatedLen`. -/
def advance.scan (p : Profile) (n : Nat) : List Slice → Nat → Nat → Result (Nat × Nat)
  | [], remove, accumulatedLen => .ok (remove, accumulatedLen)
  | buf :: bufs, remove, accumulatedLen => do
    let sum ← p.add accumulatedLen buf.len
    if sum > n then .ok (remove, accumulatedLen)
    else advance.scan p n bufs (remove + 1) sum

/-- `advance` of `file_io_ext.rs` and of `io_ext.rs`: drop the buffers the
first `n` bytes fill, and cut the rest of the `n` bytes off the next one. -/
def advance (p : Profile) (bufs : List IoSlice) (n : Nat) : Result (List IoSlice) := do
  let (remove, accumulatedLen) ← advance.scan p n bufs 0 0
  match bufs.drop remove with
  | [] => .ok []
  | first :: bufs =>
    let advanceBy ← p.sub n accumulatedLen
    let first ← first.advancePtr advanceBy
    .ok (first :: bufs)

/-- `advance_mut`: the same statements on `IoSliceMut`. -/
def advanceMut (p : Profile) (bufs : List IoSliceMut) (n : Nat) : Result (List IoSliceMut) :=
  advance p bufs n

/-- `skip_leading_empties`. -/
def skipLeadingEmpties : List IoSliceMut → List IoSliceMut
  | [] => []
  | buf :: bufs => if buf.isEmpty then skipLeadingEmpties bufs else buf :: bufs

/-- `bufs.iter().find(|b| !b.is_empty()).map_or(&[][..], |b| &**b)`. -/
def firstNonEmpty (bufs : List IoSlice) : Slice :=
  (bufs.find? fun b => !b.isEmpty).getD ⟨0, 0, Nat.zero_le _⟩

end SystemInterface
