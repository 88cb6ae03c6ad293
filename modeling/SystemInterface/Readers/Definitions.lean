import SystemInterface.Model.Slices

/-!
# SystemInterface — readers

The readers of `std` that the traits `ReadReady` and `Peek` are implemented for,
in any nesting: a `Reader F` is built over sources in memory and over handles of
type `F`. `numReadyBytes` and `peek` are the traits' methods, `read` and
`fillBuf` what `Read::read` and `BufRead::fill_buf` of these types are documented
to do.

A read of a blocking source may block, which is `none`.
-/

namespace SystemInterface

/-- `ReadReady` for a type of handles. -/
class ReadReady (F : Type) where
  numReadyBytes : Profile → F → Result Nat

/-- `Read` for a type of handles: the bytes that a read into a buffer of the
given length delivers, and the handle afterwards. -/
class Read (F : Type) where
  read : F → Nat → Option (List UInt8 × F)

-- ---------------------------------------------------------------------------
-- Files
-- ---------------------------------------------------------------------------

structure Metadata where
  len : Nat
  isFile : Bool
  deriving DecidableEq

/-- An open file, by what the calls of `num_ready_bytes` on it answer:
`is_read_write`, `metadata`, `seek(SeekFrom::Current(0))` and `ioctl_fionread`,
which is not there on Windows. -/
structure File where
  isReadWrite : Except IoError (Bool × Bool)
  metadata : Except IoError Metadata
  current : Except IoError Nat
  ioctlFionread : Except Errno Nat

/-- The `?` operator on an `io::Result`. -/
def Result.ofIo {α : Type} : Except IoError α → Result α
  | .ok a => .ok a
  | .error e => .error (.err e)

def streamIsNotReadable : IoError := .new .invalidInput "stream is not readable"

def File.numReadyBytes (p : Profile) (f : File) : Result Nat := do
  let (read, _) ← Result.ofIo f.isReadWrite
  if read then
    let metadata ← Result.ofIo f.metadata
    if metadata.isFile then
      let current ← Result.ofIo f.current
      p.sub metadata.len current
    else
      match f.ioctlFionread with
      | .ok n => .ok n
      | .error _ => .ok 0
  else .error (.err streamIsNotReadable)

instance : ReadReady File := ⟨File.numReadyBytes⟩

-- ---------------------------------------------------------------------------
-- Blocking streams
-- ---------------------------------------------------------------------------

/-- What a read of a stream moves at most, and what happens after it: bytes may
arrive, and the other end may be closed. -/
structure Event where
  size : Nat
  arrives : List UInt8
  closes : Bool
  deriving DecidableEq

/-- A blocking stream: the bytes that are ready, whether any can come after
them, and the events of its next reads. -/
structure Stream where
  ready : List UInt8
  closed : Bool
  events : List Event
  deriving DecidableEq

namespace Stream

def next (s : Stream) : Event := s.events.headD ⟨s.ready.length, [], false⟩

/-- The stream after a read of `k` bytes. -/
def after (s : Stream) (k : Nat) : Stream :=
  ⟨s.ready.drop k ++ (if s.closed then [] else s.next.arrives), s.closed || s.next.closes,
    s.events.tail⟩

def read (s : Stream) (n : Nat) : Option (List UInt8 × Stream) :=
  if n = 0 then some ([], s)
  else if s.ready.isEmpty then (if s.closed then some ([], s) else none)
  else
    let k := shortCount s.next.size (min n s.ready.length)
    some (s.ready.take k, s.after k)

end Stream

instance : ReadReady Stream := ⟨fun _ s => .ok s.ready.length⟩

instance : Read Stream := ⟨Stream.read⟩

-- ---------------------------------------------------------------------------
-- Readers
-- ---------------------------------------------------------------------------

/-- The readers of `std` over handles of type `F`. A `VecDeque` is given by its
two slices. -/
inductive Reader (F : Type) where
  | handle (f : F)
  | slice (bytes : List UInt8)
  | empty
  | repeat_ (byte : UInt8)
  | vecDeque (front back : List UInt8)
  | box (r : Reader F)
  | bufReader (inner : Reader F) (buffer : List UInt8) (capacity : Nat)
  | cursor (bytes : List UInt8) (pos : Nat)
  | take (inner : Reader F) (limit : Nat)
  | chain (first second : Reader F) (doneFirst : Bool)

namespace Reader

variable {F : Type}

/-- `ReadReady::num_ready_bytes`. -/
def numReadyBytes [ReadReady F] (p : Profile) : Reader F → Result Nat
  | handle f => ReadReady.numReadyBytes p f
  | slice bytes => .ok bytes.length
  | empty => .ok 1
  | repeat_ _ => .ok (2 ^ 64 - 1)
  | vecDeque front back => .ok (front.length + back.length)
  | box r => r.numReadyBytes p
  | bufReader inner buffer _ =>
    match inner.numReadyBytes p with
    | .ok n => p.add buffer.length n
    | .error (.err e) => if !buffer.isEmpty then .ok buffer.length else .error (.err e)
    | .error fault => .error fault
  | cursor bytes pos => p.sub bytes.length pos
  | take inner limit => do
    let n ← inner.numReadyBytes p
    .ok (min limit n)
  | chain first _ _ => first.numReadyBytes p

/-- `Read::read` with a buffer of `n` bytes. -/
def read [Read F] : Reader F → Nat → Option (List UInt8 × Reader F)
  | handle f, n => (Read.read f n).map fun (bytes, f) => (bytes, handle f)
  | slice bytes, n => some (bytes.take n, slice (bytes.drop n))
  | empty, _ => some ([], empty)
  | repeat_ byte, n => some (List.replicate n byte, repeat_ byte)
  | vecDeque front back, n =>
    some (front.take n,
      if n < front.length then vecDeque (front.drop n) back else vecDeque back [])
  | box r, n => (r.read n).map fun (bytes, r) => (bytes, box r)
  | bufReader inner buffer capacity, n =>
    if buffer.isEmpty then
      if capacity ≤ n then
        -- past its buffer
        (inner.read n).map fun (bytes, inner) => (bytes, bufReader inner [] capacity)
      else
        -- `fill_buf`, then from the buffer
        (inner.read capacity).map fun (buffer, inner) =>
          (buffer.take n, bufReader inner (buffer.drop n) capacity)
    else some (buffer.take n, bufReader inner (buffer.drop n) capacity)
  | cursor bytes pos, n =>
    some ((bytes.drop pos).take n, cursor bytes (pos + min n (bytes.length - pos)))
  | take inner limit, n =>
    if limit = 0 then some ([], take inner limit)
    else (inner.read (min n limit)).map fun (bytes, inner) =>
      (bytes, take inner (limit - bytes.length))
  | chain first second true, n =>
    (second.read n).map fun (bytes, second) => (bytes, chain first second true)
  | chain first second false, n =>
    match first.read n with
    | none => none
    | some (bytes, first) =>
      if bytes.isEmpty && n != 0 then
        (second.read n).map fun (bytes, second) => (bytes, chain first second true)
      else some (bytes, chain first second false)

/-- `BufRead::fill_buf`, and the reader afterwards; `none` too for a type that does
not implement `BufRead`. -/
def fillBuf [Read F] : Reader F → Option (List UInt8 × Reader F)
  | handle _ => none
  | slice bytes => some (bytes, slice bytes)
  | empty => some ([], empty)
  | repeat_ _ => none
  | vecDeque front back => some (front, vecDeque front back)
  | box r => r.fillBuf.map fun (buffer, r) => (buffer, box r)
  | bufReader inner buffer capacity =>
    if buffer.isEmpty then
      (inner.read capacity).map fun (buffer, inner) => (buffer, bufReader inner buffer capacity)
    else some (buffer, bufReader inner buffer capacity)
  | cursor bytes pos => some (bytes.drop pos, cursor bytes pos)
  | take inner limit =>
    if limit = 0 then some ([], take inner limit)
    else inner.fillBuf.map fun (buffer, inner) => (buffer.take limit, take inner limit)
  | chain first second true =>
    second.fillBuf.map fun (buffer, second) => (buffer, chain first second true)
  | chain first second false =>
    match first.fillBuf with
    | none => none
    | some (buffer, first) =>
      if buffer.isEmpty then
        second.fillBuf.map fun (buffer, second) => (buffer, chain first second true)
      else some (buffer, chain first second false)

/-- `peek_from_bufread` with a buffer of `n` bytes: no `consume` follows. -/
def peekFromBufread [Read F] (r : Reader F) (n : Nat) : Option (List UInt8 × Reader F) :=
  r.fillBuf.map fun (buffer, r) => (buffer.take n, r)

/-- `Peek::peek` with a buffer of `n` bytes. -/
def peek [Read F] : Reader F → Nat → Option (List UInt8 × Reader F)
  | repeat_ byte, n => (repeat_ byte).read n
  | r, n => r.peekFromBufread n

end Reader

end SystemInterface
