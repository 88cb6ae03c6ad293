import SystemInterface.Readers.Exact
import SystemInterface.Readers.Overflow
import SystemInterface.Singles

/-!
# SystemInterface — readers over files that others use

A `BufReader` over a file holds bytes that the file may no longer have, and the
file may have grown since. `num_ready_bytes` adds the two, cut at the limits on
the way: the number of bytes that reading on delivers if nobody interferes from
there on, whatever others have done to the content and the position before. This
takes metadata that tells the length of the file, which is `Truthful`: for a file
under `/proc` it says 0.

A file that was cut off before its position has no report: the subtraction
underflows.

Main results:

* `Unix.read_regular`, `Windows.read_regular` — the files of both systems are read so;
* `Reader.Counted.read`, `Reader.Counted.fillBuf` — one call;
* `Reader.Counted.exact`, `Reader.Counted.panics` — the report in range and out of it;
* `num_ready_bytes_over_files` — the report in every state that calls reach, amid
  the changes of others.
-/

namespace SystemInterface

open Effect

-- ---------------------------------------------------------------------------
-- Regular files
-- ---------------------------------------------------------------------------

/-- A regular file that is open for reading, by its content, the length that its
metadata gives, the position of the handle, and how many bytes the next reads move
at most. -/
structure RegularFile where
  content : List UInt8
  size : Nat
  pos : Nat
  isWritable : Bool
  sizes : List Nat
  deriving DecidableEq

namespace RegularFile

/-- The metadata tells the length of the file. -/
def Truthful (f : RegularFile) : Prop := f.size = f.content.length

/-- The bytes that the next read finds, none past the end. -/
def ahead (f : RegularFile) : List UInt8 := f.content.drop f.pos

/-- The number of bytes that a read into a buffer of `n` bytes moves. -/
def count (f : RegularFile) (n : Nat) : Nat :=
  shortCount (f.sizes.headD n) (min n f.ahead.length)

def read (f : RegularFile) (n : Nat) : Option (List UInt8 × RegularFile) :=
  some (f.ahead.take (f.count n), { f with pos := f.pos + f.count n, sizes := f.sizes.tail })

/-- What the calls of `num_ready_bytes` on the file answer. -/
def answers (f : RegularFile) : File where
  isReadWrite := .ok (true, f.isWritable)
  metadata := .ok ⟨f.size, true⟩
  current := .ok f.pos
  ioctlFionread := .ok f.ahead.length

theorem count_le (f : RegularFile) (n : Nat) : f.count n ≤ min n f.ahead.length := shortCount_le ..

@[simp] theorem ahead_length (f : RegularFile) : f.ahead.length = f.content.length - f.pos :=
  List.length_drop

theorem answers_inRange {f : RegularFile} : f.answers.InRange ↔ f.pos ≤ f.size := by
  constructor
  · intro h
    exact h f.isWritable ⟨f.size, true⟩ f.pos rfl rfl rfl rfl
  · intro h write m pos _ hm _ hPos
    obtain rfl := Except.ok.inj hm
    obtain rfl := Except.ok.inj hPos
    exact h

end RegularFile

instance : ReadReady RegularFile := ⟨fun p f => f.answers.numReadyBytes p⟩

instance : ByteSource RegularFile where
  read := RegularFile.read
  left := RegularFile.ahead
  read_left f n := by
    have hLe := f.count_le n
    refine ⟨_, _, rfl, ?_, ?_, ?_⟩
    · show f.ahead = f.ahead.take (f.count n) ++ f.content.drop (f.pos + f.count n)
      rw [← List.drop_drop]
      exact (List.take_append_drop ..).symm
    · rw [List.length_take]
      omega
    · intro hNil
      have hLen : (f.ahead.take (f.count n)).length = 0 := congrArg List.length hNil
      rw [List.length_take] at hLen
      have hZero : min n f.ahead.length = 0 := shortCount_eq_zero.mp (by
        show f.count n = 0
        omega)
      rcases Nat.eq_zero_or_pos n with hn | hn
      · exact Or.inl hn
      · exact Or.inr (List.length_eq_zero_iff.mp (by omega))

-- ---------------------------------------------------------------------------
-- The files of the systems
-- ---------------------------------------------------------------------------

/-- The file of a client, with metadata that gives the length `size`, of which the
reads move `sizes` bytes at most. -/
def FileState.regular (f : FileState) (size : Nat) (isWritable : Bool) (sizes : List Nat) :
    RegularFile :=
  ⟨f.content, size, f.pos, isWritable, sizes⟩

/-- A call that has reported `n` bytes is a read of the regular file. -/
def ReadsRegular (f : FileState) (buf : Slice) (n : Nat) (f' : FileState) : Prop :=
  ∀ size isWritable sizes, ∃ bytes,
    (f.regular size isWritable (n :: sizes)).read buf.len =
        some (bytes, f'.regular size isWritable sizes) ∧
      bytes.length = n ∧ f'.mem = store f.mem buf.addrs bytes

theorem FileState.Fetches.regular {f f' : FileState} {buf : Slice} {n : Nat}
    (h : f.Fetches none [buf] (.ok n) f') : ReadsRegular f buf n f' := by
  obtain ⟨hn, hAhead, hZero, rfl⟩ := h
  intro size isWritable sizes
  rw [totalLen_singleton] at hn
  have hRoom : n = 0 → min buf.len (f.ahead none).length = 0 := by
    intro h0
    rcases hZero h0 with hEmpty | hEnd
    · rw [hEmpty buf rfl, Nat.zero_min]
    · rw [hEnd, List.length_nil, Nat.min_zero]
  have hCount : (f.regular size isWritable (n :: sizes)).count buf.len = n := by
    show min (max n 1) (min buf.len (f.ahead none).length) = n
    omega
  refine ⟨(f.ahead none).take n, ?_, List.length_take_of_le hAhead, ?_⟩
  · rw [RegularFile.read, hCount]
    rfl
  · rw [← cells_singleton]
    rfl

/-- **Reading on Unix** is reading a regular file. -/
theorem Unix.read_regular (p : Profile) {env : Unix.Env} (senv : Unix.Stream.Env)
    (hEnv : env.RestoreSucceeds) {b : Unix.Both} (hNot : Unix.NotAppending b.1) {buf : Slice}
    (hFits : b.1.machine.desc.pos + buf.len ≤ i64Max) :
    (Unix.performSingle p env senv (.read buf)).wp b fun r b' => ∀ n, r = .ok (.ok n) →
      ReadsRegular b.1.machine.file buf n b'.1.machine.file := by
  apply (Unix.serves_singles p senv hEnv (.read buf) b hFits hNot).mono
  rintro _ b' ⟨a, rfl, hStep, -⟩ n hOk
  obtain rfl := Except.ok.inj hOk
  exact FileState.Fetches.regular hStep

/-- **Reading on Windows** is reading a regular file. -/
theorem Windows.read_regular (p : Profile) (env : Windows.Env) {h : Nat} {w : Windows.World}
    (hOpen : Windows.ReadsWrites h w) {buf : Slice}
    (hFits : (w.file h).pos + buf.len ≤ i64Max) :
    (Windows.performSingle p env h (.read buf)).wp w fun r w' => ∀ n, r = .ok (.ok n) →
      ReadsRegular (w.file h) buf n (w'.file h) := by
  have hPos : (w.file h).pos ≤ i64Max := by omega
  apply (Windows.serves_singles p env h (.read buf) w hFits ⟨hOpen, hPos⟩).mono
  rintro _ w' ⟨a, rfl, hStep, -⟩ n hOk
  obtain rfl := Except.ok.inj hOk
  exact FileState.Fetches.regular hStep

namespace Reader

-- ---------------------------------------------------------------------------
-- Handles
-- ---------------------------------------------------------------------------

section

variable {F G : Type}

/-- Put other handles in the places of a reader's handles. -/
def map (g : F → G) : Reader F → Reader G
  | handle f => handle (g f)
  | slice bytes => slice bytes
  | empty => empty
  | repeat_ byte => repeat_ byte
  | vecDeque front back => vecDeque front back
  | box r => box (r.map g)
  | bufReader inner buffer capacity => bufReader (inner.map g) buffer capacity
  | cursor bytes pos => cursor bytes pos
  | take inner limit => take (inner.map g) limit
  | chain first second doneFirst => chain (first.map g) (second.map g) doneFirst

/-- A report depends on the reports of the handles only. -/
theorem map_numReadyBytes [ReadReady F] [ReadReady G] {g : F → G} {p : Profile}
    (h : ∀ f, ReadReady.numReadyBytes p (g f) = ReadReady.numReadyBytes p f) (r : Reader F) :
    (r.map g).numReadyBytes p = r.numReadyBytes p := by
  induction r with
  | handle f => exact h f
  | box r ih => exact ih
  | bufReader inner buffer capacity ih =>
    rw [map, numReadyBytes, ih]
    rfl
  | take inner limit ih =>
    rw [map, numReadyBytes, ih]
    rfl
  | chain first second doneFirst ih _ => exact ih
  | _ => rfl

/-- The readers whose report counts bytes: no `Empty` or `Repeat` answers, and no
`Chain` has a second source. -/
def Counted : Reader F → Prop
  | empty => False
  | repeat_ _ => False
  | vecDeque front back => front = [] → back = []
  | box r => r.Counted
  | bufReader inner _ capacity => inner.Counted ∧ 0 < capacity
  | take inner _ => inner.Counted
  | chain .. => False
  | _ => True

theorem Counted.ends {r : Reader F} (h : r.Counted) : r.Ends := by
  induction r with
  | vecDeque => exact h
  | box r ih => exact ih h
  | bufReader inner buffer capacity ih => exact ⟨ih h.1, h.2⟩
  | take inner limit ih => exact ih h
  | empty => exact h.elim
  | repeat_ => exact h.elim
  | chain => exact h.elim
  | _ => trivial

theorem Counted.map {r : Reader F} (h : r.Counted) (g : F → G) : (r.map g).Counted := by
  induction r with
  | vecDeque => exact h
  | box r ih => exact ih h
  | bufReader inner buffer capacity ih => exact ⟨ih h.1, h.2⟩
  | take inner limit ih => exact ih h
  | empty => exact h.elim
  | repeat_ => exact h.elim
  | chain => exact h.elim
  | _ => trivial

theorem BufRead.map {r : Reader F} (h : r.BufRead) (g : F → G) : (r.map g).BufRead := by
  induction r with
  | handle => exact h.elim
  | repeat_ => exact h.elim
  | box r ih => exact ih h
  | take inner limit ih => exact ih h
  | chain first second doneFirst ih ih' => exact ⟨ih h.1, ih' h.2⟩
  | _ => trivial

end

-- ---------------------------------------------------------------------------
-- Reports
-- ---------------------------------------------------------------------------

/-- No position lies past its end, and every `BufReader` has room for its buffer
beside the report of its inner reader. -/
def InBounds (r : Reader RegularFile) : Prop := (r.map RegularFile.answers).InRange

/-- The metadata of every file tells its length. -/
def Truthful : Reader RegularFile → Prop
  | handle f => f.Truthful
  | box r => r.Truthful
  | bufReader inner _ _ => inner.Truthful
  | take inner _ => inner.Truthful
  | chain first second _ => first.Truthful ∧ second.Truthful
  | _ => True

theorem numReadyBytes_answers (r : Reader RegularFile) (p : Profile) :
    (r.map RegularFile.answers).numReadyBytes p = r.numReadyBytes p :=
  map_numReadyBytes (g := RegularFile.answers) (fun _ => rfl) r

theorem sub_ne_err (p : Profile) (a b : Nat) (e : IoError) : p.sub a b ≠ .error (.err e) := by
  unfold Profile.sub
  cases p <;> split <;> simp

theorem add_ne_err (p : Profile) (a b : Nat) (e : IoError) : p.add a b ≠ .error (.err e) := by
  unfold Profile.add
  cases p <;> split <;> simp

namespace Counted

variable {r : Reader RegularFile}

/-- A report that counts bytes is not an error. -/
theorem ne_err (h : r.Counted) (p : Profile) (e : IoError) :
    r.numReadyBytes p ≠ .error (.err e) := by
  induction r generalizing e with
  | handle f => exact sub_ne_err p f.size f.pos e
  | slice bytes => exact fun hEq => absurd hEq (by simp [numReadyBytes])
  | vecDeque front back => exact fun hEq => absurd hEq (by simp [numReadyBytes])
  | box r ih => exact ih h e
  | bufReader inner buffer capacity ih =>
    rw [numReadyBytes]
    cases hInner : inner.numReadyBytes p with
    | ok n => exact add_ne_err p buffer.length n e
    | error f =>
      cases f with
      | err e' => exact absurd hInner (ih h.1 e')
      | panic message => exact fun hEq => absurd hEq (by simp)
      | undefined => exact fun hEq => absurd hEq (by simp)
  | cursor bytes pos => exact sub_ne_err p bytes.length pos e
  | take inner limit ih =>
    intro hEq
    rw [numReadyBytes] at hEq
    cases hInner : inner.numReadyBytes p with
    | ok n =>
      rw [hInner] at hEq
      exact absurd hEq (by simp [bind, Except.bind])
    | error f =>
      rw [hInner] at hEq
      obtain rfl : f = .err e := Except.error.inj hEq
      exact ih h e hInner
  | _ => exact h.elim

/-- **In range there is a report**, the same in every build. -/
theorem reports (h : r.Counted) (hRange : r.InBounds) :
    ∃ n, (∀ p, r.numReadyBytes p = .ok n) ∧
      ∀ k, (r.map RegularFile.answers).Fits k ↔ n + k < 2 ^ 64 := by
  obtain ⟨o, hEq, hFits⟩ := InRange.reports hRange
  have hSame : ∀ p, r.numReadyBytes p = Result.ofIo o :=
    fun p => (numReadyBytes_answers r p).symm.trans (hEq p)
  cases o with
  | ok n => exact ⟨n, hSame, hFits⟩
  | error e => exact absurd (hSame .debug) (h.ne_err .debug e)

/-- **In range a truthful report is exact.** -/
theorem exact (h : r.Counted) (hTruthful : r.Truthful) (hRange : r.InBounds) (p : Profile) :
    r.numReadyBytes p = .ok r.remaining.length := by
  induction r with
  | handle f =>
    have hSize : f.size = f.content.length := hTruthful
    show p.sub f.size f.pos = .ok f.ahead.length
    rw [f.ahead_length, ← hSize]
    exact p.sub_of_le (RegularFile.answers_inRange.mp hRange)
  | slice bytes => rfl
  | vecDeque front back =>
    show Except.ok (front.length + back.length) = Except.ok (front ++ back).length
    rw [List.length_append]
  | box r ih => exact ih h hTruthful hRange
  | bufReader inner buffer capacity ih =>
    obtain ⟨hInner, hRoom⟩ : inner.InBounds ∧ _ := hRange
    have hReport := ih h.1 hTruthful hInner
    obtain ⟨n, hEq, hFits⟩ := h.1.reports hInner
    obtain rfl : inner.remaining.length = n := Except.ok.inj (hReport.symm.trans (hEq p))
    have hSum : inner.remaining.length + buffer.length < 2 ^ 64 := (hFits _).mp hRoom
    rw [numReadyBytes, hReport]
    show p.add buffer.length inner.remaining.length = _
    rw [p.add_of_lt (by omega), remaining, List.length_append]
  | cursor bytes pos =>
    show p.sub bytes.length pos = .ok (bytes.drop pos).length
    rw [List.length_drop]
    exact p.sub_of_le hRange
  | take inner limit ih =>
    rw [numReadyBytes, ih h hTruthful hRange, remaining, List.length_take]
    rfl
  | _ => exact h.elim

/-- There is room beside the report if there is beside the remaining bytes. -/
theorem fits_iff (h : r.Counted) (hTruthful : r.Truthful) (hRange : r.InBounds) (k : Nat) :
    (r.map RegularFile.answers).Fits k ↔ r.remaining.length + k < 2 ^ 64 := by
  obtain ⟨n, hEq, hFits⟩ := h.reports hRange
  obtain rfl : r.remaining.length = n :=
    Except.ok.inj ((h.exact hTruthful hRange .debug).symm.trans (hEq .debug))
  exact hFits k

/-- **Out of range the debug build panics.** -/
theorem panics (h : r.Counted) (hRange : ¬ r.InBounds) :
    ∃ message, r.numReadyBytes .debug = .error (.panic message) := by
  induction r with
  | handle f => exact sub_panics (Nat.not_le.mp (mt RegularFile.answers_inRange.mpr hRange))
  | slice => exact absurd trivial hRange
  | vecDeque => exact absurd trivial hRange
  | box r ih => exact ih h hRange
  | bufReader inner buffer capacity ih =>
    by_cases hInner : inner.InBounds
    · obtain ⟨n, hEq, hFits⟩ := h.1.reports hInner
      have hSum : ¬ n + buffer.length < 2 ^ 64 := fun hSum =>
        hRange ⟨hInner, (hFits _).mpr hSum⟩
      obtain ⟨message, hPanic⟩ := add_panics (show 2 ^ 64 ≤ buffer.length + n by omega)
      refine ⟨message, ?_⟩
      rw [numReadyBytes, hEq]
      exact hPanic
    · obtain ⟨message, hPanic⟩ := ih h.1 hInner
      refine ⟨message, ?_⟩
      rw [numReadyBytes, hPanic]
  | cursor bytes pos => exact sub_panics (Nat.not_le.mp hRange)
  | take inner limit ih =>
    obtain ⟨message, hPanic⟩ := ih h hRange
    refine ⟨message, ?_⟩
    rw [numReadyBytes, hPanic]
    rfl
  | _ => exact h.elim

/-- A `BufReader` is in range if its inner reader is and all its bytes fit. -/
theorem bufReader_inBounds {inner : Reader RegularFile} (h : inner.Counted)
    (hTruthful : inner.Truthful) (buffer : List UInt8) (capacity : Nat) :
    (bufReader inner buffer capacity).InBounds ↔
      inner.InBounds ∧ (bufReader inner buffer capacity).remaining.length < 2 ^ 64 := by
  have hSum : (bufReader inner buffer capacity).remaining.length =
      inner.remaining.length + buffer.length := by
    show (buffer ++ inner.remaining).length = _
    rw [List.length_append, Nat.add_comm]
  rw [hSum]
  constructor
  · rintro ⟨hInner, hRoom⟩
    exact ⟨hInner, (h.fits_iff hTruthful hInner _).mp hRoom⟩
  · rintro ⟨hInner, hLt⟩
    exact ⟨hInner, (h.fits_iff hTruthful hInner _).mpr hLt⟩

end Counted

-- ---------------------------------------------------------------------------
-- One call
-- ---------------------------------------------------------------------------

/-- After a call a reader counts as before, its files are as truthful, and it stays in
range if they are. -/
structure Stays (r r' : Reader RegularFile) : Prop where
  counted : r'.Counted
  truthful : r.Truthful → r'.Truthful
  inBounds : r.Truthful → r.InBounds → r'.InBounds

theorem rest_of_read {F : Type} [ByteSource F] {r r' : Reader F} (h : r.Ends) {n : Nat}
    {bytes : List UInt8} (hRead : r.read n = some (bytes, r')) :
    r.remaining = bytes ++ r'.remaining := by
  obtain ⟨bytes', r'', hRead', -, -, hRest, -⟩ := read_remaining h n
  obtain ⟨rfl, rfl⟩ := Prod.mk.inj (Option.some.inj (hRead.symm.trans hRead'))
  exact hRest

/-- The bytes that a `BufReader` has left do not get more. -/
theorem Stays.bufReader {inner inner' : Reader RegularFile} {buffer buffer' : List UInt8}
    {capacity : Nat} (h : inner.Counted) (hCapacity : 0 < capacity) (hStays : inner.Stays inner')
    (hLe : (buffer' ++ inner'.remaining).length ≤ (buffer ++ inner.remaining).length) :
    Stays (bufReader inner buffer capacity) (bufReader inner' buffer' capacity) where
  counted := ⟨hStays.counted, hCapacity⟩
  truthful := hStays.truthful
  inBounds hTruthful := by
    rw [Counted.bufReader_inBounds h hTruthful,
      Counted.bufReader_inBounds hStays.counted (hStays.truthful hTruthful)]
    rintro ⟨hInner, hLt⟩
    exact ⟨hStays.inBounds hTruthful hInner, Nat.lt_of_le_of_lt hLe hLt⟩

namespace Counted

variable {r r' : Reader RegularFile}

/-- **One read.** -/
theorem read {n : Nat} {bytes : List UInt8} (h : r.Counted)
    (hRead : r.read n = some (bytes, r')) : r.Stays r' := by
  induction r generalizing n bytes r' with
  | handle f =>
    obtain ⟨-, rfl⟩ := Prod.mk.inj (Option.some.inj hRead)
    refine ⟨trivial, id, fun hTruthful hRange => RegularFile.answers_inRange.mpr ?_⟩
    have hSize : f.size = f.content.length := hTruthful
    have hPos := RegularFile.answers_inRange.mp hRange
    have hLe := f.count_le n
    rw [f.ahead_length] at hLe
    show f.pos + f.count n ≤ f.size
    omega
  | slice all =>
    obtain ⟨-, rfl⟩ := Prod.mk.inj (Option.some.inj hRead)
    exact ⟨trivial, id, fun _ => id⟩
  | vecDeque front back =>
    obtain ⟨-, rfl⟩ := Prod.mk.inj (Option.some.inj hRead)
    split
    · next hPart =>
      refine ⟨fun hNil => ?_, id, fun _ _ => trivial⟩
      have hLe := List.drop_eq_nil_iff.mp hNil
      omega
    · exact ⟨fun _ => rfl, id, fun _ _ => trivial⟩
  | box r ih =>
    rw [Reader.read] at hRead
    obtain ⟨⟨_, r₁⟩, hInner, hEq⟩ := Option.map_eq_some_iff.mp hRead
    obtain ⟨-, rfl⟩ := Prod.mk.inj hEq
    obtain ⟨hCounted, hTruthful, hBounds⟩ := ih h hInner
    exact ⟨hCounted, hTruthful, hBounds⟩
  | bufReader inner buffer capacity ih =>
    rw [Reader.read] at hRead
    split at hRead
    · next hNil =>
      obtain rfl := List.isEmpty_iff.mp hNil
      split at hRead
      · obtain ⟨⟨passed, r₁⟩, hInner, hEq⟩ := Option.map_eq_some_iff.mp hRead
        obtain ⟨-, rfl⟩ := Prod.mk.inj hEq
        refine (ih h.1 hInner).bufReader h.1 h.2 ?_
        rw [rest_of_read h.1.ends hInner, List.nil_append, List.nil_append, List.length_append]
        exact Nat.le_add_left ..
      · obtain ⟨⟨filled, r₁⟩, hInner, hEq⟩ := Option.map_eq_some_iff.mp hRead
        obtain ⟨-, rfl⟩ := Prod.mk.inj hEq
        refine (ih h.1 hInner).bufReader h.1 h.2 ?_
        rw [rest_of_read h.1.ends hInner, List.nil_append, List.length_append, List.length_append,
          List.length_drop]
        omega
    · obtain ⟨-, rfl⟩ := Prod.mk.inj (Option.some.inj hRead)
      refine Stays.bufReader h.1 h.2 ⟨h.1, id, fun _ => id⟩ ?_
      rw [List.length_append, List.length_append, List.length_drop]
      omega
  | cursor all pos =>
    obtain ⟨-, rfl⟩ := Prod.mk.inj (Option.some.inj hRead)
    refine ⟨trivial, id, fun _ hRange => ?_⟩
    have hPos : pos ≤ all.length := hRange
    show pos + min n (all.length - pos) ≤ all.length
    omega
  | take inner limit ih =>
    rw [Reader.read] at hRead
    split at hRead
    · obtain ⟨-, rfl⟩ := Prod.mk.inj (Option.some.inj hRead)
      exact ⟨h, id, fun _ => id⟩
    · obtain ⟨⟨_, r₁⟩, hInner, hEq⟩ := Option.map_eq_some_iff.mp hRead
      obtain ⟨-, rfl⟩ := Prod.mk.inj hEq
      obtain ⟨hCounted, hTruthful, hBounds⟩ := ih h hInner
      exact ⟨hCounted, hTruthful, hBounds⟩
  | _ => exact h.elim

/-- **One `fill_buf`.** -/
theorem fillBuf {buffer : List UInt8} (h : r.Counted) (hFill : r.fillBuf = some (buffer, r')) :
    r.Stays r' := by
  induction r generalizing buffer r' with
  | handle f => exact absurd hFill (by simp [Reader.fillBuf])
  | slice all =>
    obtain ⟨-, rfl⟩ := Prod.mk.inj (Option.some.inj hFill)
    exact ⟨trivial, id, fun _ => id⟩
  | vecDeque front back =>
    obtain ⟨-, rfl⟩ := Prod.mk.inj (Option.some.inj hFill)
    exact ⟨h, id, fun _ => id⟩
  | box r ih =>
    rw [Reader.fillBuf] at hFill
    obtain ⟨⟨_, r₁⟩, hInner, hEq⟩ := Option.map_eq_some_iff.mp hFill
    obtain ⟨-, rfl⟩ := Prod.mk.inj hEq
    obtain ⟨hCounted, hTruthful, hBounds⟩ := ih h hInner
    exact ⟨hCounted, hTruthful, hBounds⟩
  | bufReader inner held capacity ih =>
    rw [Reader.fillBuf] at hFill
    split at hFill
    · next hNil =>
      obtain rfl := List.isEmpty_iff.mp hNil
      obtain ⟨⟨filled, r₁⟩, hInner, hEq⟩ := Option.map_eq_some_iff.mp hFill
      obtain ⟨-, rfl⟩ := Prod.mk.inj hEq
      refine (h.1.read hInner).bufReader h.1 h.2 ?_
      rw [rest_of_read h.1.ends hInner, List.nil_append]
    · obtain ⟨-, rfl⟩ := Prod.mk.inj (Option.some.inj hFill)
      exact ⟨h, id, fun _ => id⟩
  | cursor all pos =>
    obtain ⟨-, rfl⟩ := Prod.mk.inj (Option.some.inj hFill)
    exact ⟨trivial, id, fun _ => id⟩
  | take inner limit ih =>
    rw [Reader.fillBuf] at hFill
    split at hFill
    · obtain ⟨-, rfl⟩ := Prod.mk.inj (Option.some.inj hFill)
      exact ⟨h, id, fun _ => id⟩
    · obtain ⟨⟨_, r₁⟩, hInner, hEq⟩ := Option.map_eq_some_iff.mp hFill
      obtain ⟨-, rfl⟩ := Prod.mk.inj hEq
      obtain ⟨hCounted, hTruthful, hBounds⟩ := ih h hInner
      exact ⟨hCounted, hTruthful, hBounds⟩
  | _ => exact h.elim

theorem peek {n : Nat} {bytes : List UInt8} (h : r.Counted) (hBufRead : r.BufRead)
    (hPeek : r.peek n = some (bytes, r')) : r.Stays r' := by
  rw [peek_eq hBufRead, peekFromBufread] at hPeek
  obtain ⟨⟨buffer, r₁⟩, hFill, hEq⟩ := Option.map_eq_some_iff.mp hPeek
  obtain ⟨-, rfl⟩ := Prod.mk.inj hEq
  exact h.fillBuf hFill

end Counted

-- ---------------------------------------------------------------------------
-- Runs
-- ---------------------------------------------------------------------------

/-- The buffered readers whose report counts bytes. -/
def Watched (r : Reader RegularFile) : Prop := r.Counted ∧ r.BufRead

theorem tracks_restrict {Inv : Reader RegularFile → Prop} (hSub : ∀ r, Inv r → r.Watched)
    (hStays : ∀ r r', Inv r → r.Stays r' → r'.BufRead → Inv r') :
    (tap (F := RegularFile)).Tracks Inv remaining := by
  apply tracks.restrict
  · exact fun r h => ⟨(hSub r h).1.ends, (hSub r h).2⟩
  · intro r n bytes r' h hRead
    obtain ⟨_, _, hRead', -, hBufRead, -⟩ := read_remaining (hSub r h).1.ends n
    obtain ⟨rfl, rfl⟩ := Prod.mk.inj (Option.some.inj (hRead.symm.trans hRead'))
    exact hStays r r' h ((hSub r h).1.read hRead) (hBufRead (hSub r h).2)
  · intro r n bytes r' h hPeek
    obtain ⟨_, _, hPeek', ⟨-, hBufRead⟩, -⟩ :=
      peek_remaining (hSub r h).1.ends (hSub r h).2 n
    obtain ⟨rfl, rfl⟩ := Prod.mk.inj (Option.some.inj (hPeek.symm.trans hPeek'))
    exact hStays r r' h ((hSub r h).1.peek (hSub r h).2 hPeek) hBufRead

theorem watched_tracks : (tap (F := RegularFile)).Tracks Watched remaining :=
  tracks_restrict (fun _ h => h) fun _ _ _ hStays hBufRead => ⟨hStays.counted, hBufRead⟩

theorem inBounds_tracks :
    (tap (F := RegularFile)).Tracks (fun r => r.Watched ∧ r.Truthful ∧ r.InBounds) remaining :=
  tracks_restrict (fun _ h => h.1) fun _ _ h hStays hBufRead =>
    ⟨⟨hStays.counted, hBufRead⟩, hStays.truthful h.2.1, hStays.inBounds h.2.1 h.2.2⟩

end Reader

open Reader Tap

/-- What others make of a file and its metadata: they write, extend and truncate it,
and move a position that they share. -/
structure Change where
  content : List UInt8
  size : Nat
  pos : Nat
  deriving DecidableEq

/-- The change under the buffers and limits of a reader. -/
def Change.apply (c : Change) : Reader RegularFile → Reader RegularFile :=
  Reader.map fun f => { f with content := c.content, size := c.size, pos := c.pos }

theorem Change.watched (c : Change) (r : Reader RegularFile) (h : r.Watched) :
    (c.apply r).Watched := ⟨h.1.map _, h.2.map _⟩

/-- **Reports over files.** Take any run of reads and peeks of a buffered reader
amid any changes of its file. If the metadata then tells the length of the file,
and in range, `num_ready_bytes` is the number of bytes that reading on to the end
delivers, and further calls lower it by what they deliver. Out of range, the debug
build panics. -/
theorem num_ready_bytes_over_files {r : Reader RegularFile} (hCounted : r.Counted)
    (hBufRead : r.BufRead) (events : List (Happening Change)) :
    ∃ bytes r', tap.runAmid Change.apply events r = some (bytes, r') ∧
      (r'.Truthful → r'.InBounds → ∀ calls, ∃ delivered r'' rest,
        tap.run calls r' = some (delivered, r'') ∧
        tap.ReadsToEnd r'' rest ∧ (∀ rest', tap.ReadsToEnd r'' rest' → rest' = rest) ∧
        ∀ p, r''.numReadyBytes p = .ok rest.length ∧
          r'.numReadyBytes p = .ok (delivered.length + rest.length)) ∧
      (¬ r'.InBounds → ∃ message, r'.numReadyBytes .debug = .error (.panic message)) := by
  obtain ⟨bytes, r', hRun, hWatched⟩ :=
    watched_tracks.runAmid Change.watched events ⟨hCounted, hBufRead⟩
  refine ⟨bytes, r', hRun, ?_, hWatched.1.panics⟩
  intro hTruthful hRange calls
  obtain ⟨delivered, r'', hCalls, ⟨hWatched', hTruthful', hRange'⟩, hHeld⟩ :=
    inBounds_tracks.run calls ⟨hWatched, hTruthful, hRange⟩
  refine ⟨delivered, r'', r''.remaining, hCalls, watched_tracks.readsToEnd hWatched', ?_, ?_⟩
  · exact fun _ hRest => (watched_tracks.readsToEnd_iff hWatched').mp hRest
  · intro p
    refine ⟨hWatched'.1.exact hTruthful' hRange' p, ?_⟩
    rw [hWatched.1.exact hTruthful hRange p, hHeld, List.length_append]

/-- A limit inside a buffer, over a file of which each read moves two bytes. -/
def limitedFile : Reader RegularFile :=
  .bufReader (.take (.box (.handle ⟨[1, 2, 3, 4, 5], 5, 1, false, [2, 2]⟩)) 6) [] 4

/-- Two bytes are buffered when the file is replaced by a longer one. -/
theorem num_ready_bytes_over_files_replaced :
    ∃ bytes r', tap.runAmid Change.apply
        [.call (.peek 1), .other ⟨[9, 8, 7, 6, 5, 4, 3], 7, 2⟩, .call (.read 1)] limitedFile =
          some (bytes, r') ∧
      ∃ rest, tap.ReadsToEnd r' rest ∧ ∀ p, r'.numReadyBytes p = .ok rest.length := by
  obtain ⟨bytes, r', hRun, hExact, -⟩ :=
    num_ready_bytes_over_files (r := limitedFile) ⟨trivial, by decide⟩ trivial
      [.call (.peek 1), .other ⟨[9, 8, 7, 6, 5, 4, 3], 7, 2⟩, .call (.read 1)]
  obtain ⟨-, rfl⟩ := Prod.mk.inj (Option.some.inj hRun)
  obtain ⟨delivered, r'', rest, hCalls, hRest, -, hReports⟩ := hExact rfl
    ⟨RegularFile.answers_inRange.mpr (show 2 ≤ 7 by decide),
      Or.inl (show 4 + 1 < 2 ^ 64 by decide)⟩ []
  obtain ⟨-, rfl⟩ := Prod.mk.inj (Option.some.inj hCalls)
  exact ⟨_, _, hRun, rest, hRest, fun p => (hReports p).1⟩

end SystemInterface
