import SystemInterface.Lib.Tap
import SystemInterface.Readers.Definitions

/-!
# SystemInterface — peeking at a reader

`peek_from_bufread` calls `fill_buf` and leaves out the `consume`. That changes the
reader: it fills a `BufReader`, and takes a `Chain` on to its second source. What
the reader still has to deliver stays: the bytes buffered on the way, and those
of the sources behind them.

Main results:

* `Reader.read_remaining`, `Reader.fillBuf_remaining` — one call of either method;
* `Reader.tracks` — a reader holds its `remaining` bytes;
* `peek_never_consumes` — peeks and reads in any order.
-/

namespace SystemInterface

open Effect

/-- A source of bytes that comes to an end and never fails: a read delivers some
of the bytes that are left, as many as it likes. -/
class ByteSource (F : Type) extends Read F where
  left : F → List UInt8
  read_left : ∀ f n, ∃ bytes f', read f n = some (bytes, f') ∧ left f = bytes ++ left f' ∧
    bytes.length ≤ n ∧ (bytes = [] → n = 0 ∨ left f = [])

/-- A stream of which the other end is closed: a source with an end. -/
def ClosedStream : Type := {s : Stream // s.closed = true}

namespace ClosedStream

theorem closed_read {s s' : Stream} {n : Nat} {bytes : List UInt8} (hClosed : s.closed = true)
    (h : s.read n = some (bytes, s')) : s'.closed = true := by
  unfold Stream.read at h
  split at h
  · exact (Prod.mk.inj (Option.some.inj h)).2 ▸ hClosed
  · split at h
    · exact (Prod.mk.inj (Option.some.inj h)).2 ▸ hClosed
    · rw [← (Prod.mk.inj (Option.some.inj h)).2]
      show (s.closed || s.next.closes) = true
      rw [hClosed, Bool.true_or]

def read (f : ClosedStream) (n : Nat) : Option (List UInt8 × ClosedStream) :=
  match h : f.1.read n with
  | none => none
  | some (bytes, s) => some (bytes, ⟨s, closed_read f.2 h⟩)

theorem read_eq {f : ClosedStream} {n : Nat} {bytes : List UInt8} {s : Stream}
    (h : f.1.read n = some (bytes, s)) : f.read n = some (bytes, ⟨s, closed_read f.2 h⟩) := by
  unfold read
  split
  · next hNone => exact absurd (h.symm.trans hNone) (by simp)
  · next bytes' s' hSome =>
    obtain ⟨rfl, rfl⟩ := Prod.mk.inj (Option.some.inj (h.symm.trans hSome))
    rfl

end ClosedStream

instance : ByteSource ClosedStream where
  read := ClosedStream.read
  left f := f.1.ready
  read_left f n := by
    by_cases hn : n = 0
    · have hRead : f.1.read n = some ([], f.1) := if_pos hn
      exact ⟨[], f, ClosedStream.read_eq hRead, rfl, Nat.zero_le n, fun _ => Or.inl hn⟩
    by_cases hReady : f.1.ready = []
    · have hRead : f.1.read n = some ([], f.1) := by
        rw [Stream.read, if_neg hn, hReady, List.isEmpty_nil, if_pos rfl, f.2, if_pos rfl]
      exact ⟨[], f, ClosedStream.read_eq hRead, rfl, Nat.zero_le n, fun _ => Or.inr hReady⟩
    · set k := shortCount f.1.next.size (min n f.1.ready.length) with hk
      have hLe : k ≤ min n f.1.ready.length := shortCount_le ..
      have hRead : f.1.read n = some (f.1.ready.take k, f.1.after k) := by
        rw [Stream.read, if_neg hn, if_neg (mt List.isEmpty_iff.mp hReady)]
      have hLeft : (f.1.after k).ready = f.1.ready.drop k := by
        show f.1.ready.drop k ++ (if f.1.closed then [] else _) = _
        rw [f.2, if_pos rfl, List.append_nil]
      refine ⟨_, _, ClosedStream.read_eq hRead, ?_, ?_, ?_⟩
      · show f.1.ready = f.1.ready.take k ++ (f.1.after k).ready
        rw [hLeft, List.take_append_drop]
      · rw [List.length_take]
        omega
      · intro hNil
        have hLen := List.length_pos_iff.mpr hReady
        have hZero : k = 0 := (List.take_eq_nil_iff.mp hNil).resolve_right hReady
        rw [hk, shortCount_eq_zero] at hZero
        omega

namespace Reader

variable {F : Type}

-- ---------------------------------------------------------------------------
-- What a reader holds
-- ---------------------------------------------------------------------------

/-- The readers over sources that come to an end. -/
def Ends : Reader F → Prop
  | repeat_ _ => False
  | vecDeque front back => front = [] → back = []
  | box r => r.Ends
  | bufReader inner _ capacity => inner.Ends ∧ 0 < capacity
  | take inner _ => inner.Ends
  | chain first second _ => first.Ends ∧ second.Ends
  | _ => True

/-- The readers whose types implement `BufRead`. -/
def BufRead : Reader F → Prop
  | handle _ => False
  | repeat_ _ => False
  | box r => r.BufRead
  | take inner _ => inner.BufRead
  | chain first second _ => first.BufRead ∧ second.BufRead
  | _ => True

/-- The bytes that the reader still has to deliver. -/
def remaining [ByteSource F] : Reader F → List UInt8
  | handle f => ByteSource.left f
  | slice bytes => bytes
  | empty => []
  | repeat_ _ => []
  | vecDeque front back => front ++ back
  | box r => r.remaining
  | bufReader inner buffer _ => buffer ++ inner.remaining
  | cursor bytes pos => bytes.drop pos
  | take inner limit => inner.remaining.take limit
  | chain _ second true => second.remaining
  | chain first second false => first.remaining ++ second.remaining

-- ---------------------------------------------------------------------------
-- One read
-- ---------------------------------------------------------------------------

/-- A read delivers bytes that it takes off the remaining ones, and leaves a
reader of the same kind. -/
def Reads [ByteSource F] (r : Reader F) (n : Nat) : Prop :=
  ∃ bytes r', r.read n = some (bytes, r') ∧ r'.Ends ∧ (r.BufRead → r'.BufRead) ∧
    r.remaining = bytes ++ r'.remaining ∧ bytes.length ≤ n ∧
      (bytes = [] → n = 0 ∨ r.remaining = [])

section

variable [ByteSource F] {inner first second : Reader F} {n : Nat}

/-- Bytes out of a buffer of which `n` are asked for. -/
theorem take_eq_nil {bytes : List UInt8} (h : bytes.take n = []) : n = 0 ∨ bytes = [] :=
  List.take_eq_nil_iff.mp h

theorem vecDeque_reads {front back : List UInt8} (hEnds : front = [] → back = []) :
    (vecDeque front back : Reader F).Reads n := by
  have hEmpty : front.take n = [] → n = 0 ∨ front ++ back = [] := by
    intro hNil
    rcases take_eq_nil hNil with hn | hFront
    · exact Or.inl hn
    · rw [hEnds hFront, hFront]
      exact Or.inr rfl
  by_cases hPart : n < front.length
  · refine ⟨front.take n, vecDeque (front.drop n) back, ?_, ?_, id, ?_, ?_, hEmpty⟩
    · rw [read, if_pos hPart]
    · intro hNil
      have hLe := List.drop_eq_nil_iff.mp hNil
      omega
    · show front ++ back = front.take n ++ (front.drop n ++ back)
      rw [← List.append_assoc, List.take_append_drop]
    · exact List.length_take_le n front
  · have hAll : front.take n = front := List.take_of_length_le (Nat.not_lt.mp hPart)
    refine ⟨front.take n, vecDeque back [], ?_, fun _ => rfl, id, ?_, ?_, hEmpty⟩
    · rw [read, if_neg hPart]
    · show front ++ back = front.take n ++ (back ++ [])
      rw [hAll, List.append_nil]
    · exact List.length_take_le n front

/-- What a read of a `BufReader` does that goes past its buffer, or that fills
it. -/
theorem bufReader_reads {buffer : List UInt8} {capacity : Nat} (hCapacity : 0 < capacity)
    (hEnds : inner.Ends) (h : ∀ m, inner.Reads m) :
    (bufReader inner buffer capacity).Reads n := by
  by_cases hBuffer : buffer = []
  · subst hBuffer
    by_cases hPast : capacity ≤ n
    · obtain ⟨bytes, inner', hRead, hEnds', -, hRest, hLe, hNil⟩ := h n
      refine ⟨bytes, bufReader inner' [] capacity, ?_, ⟨hEnds', hCapacity⟩, id, hRest, hLe, hNil⟩
      rw [read, List.isEmpty_nil, if_pos rfl, if_pos hPast, hRead]
      rfl
    · obtain ⟨bytes, inner', hRead, hEnds', -, hRest, -, hNil⟩ := h capacity
      refine ⟨bytes.take n, bufReader inner' (bytes.drop n) capacity, ?_, ⟨hEnds', hCapacity⟩, id,
        ?_, List.length_take_le n bytes, ?_⟩
      · rw [read, List.isEmpty_nil, if_pos rfl, if_neg hPast, hRead]
        rfl
      · show inner.remaining = bytes.take n ++ (bytes.drop n ++ inner'.remaining)
        rw [← List.append_assoc, List.take_append_drop, hRest]
      · intro hTake
        rcases take_eq_nil hTake with hn | hBytes
        · exact Or.inl hn
        · exact Or.inr ((hNil hBytes).resolve_left (Nat.pos_iff_ne_zero.mp hCapacity))
  · refine ⟨buffer.take n, bufReader inner (buffer.drop n) capacity, ?_, ⟨hEnds, hCapacity⟩, id,
      ?_, List.length_take_le n buffer, ?_⟩
    · rw [read, if_neg (mt List.isEmpty_iff.mp hBuffer)]
    · show buffer ++ inner.remaining = buffer.take n ++ (buffer.drop n ++ inner.remaining)
      rw [← List.append_assoc, List.take_append_drop]
    · exact fun hNil => Or.inl ((take_eq_nil hNil).resolve_right hBuffer)

/-- The limit falls by the bytes that are delivered. -/
theorem take_reads {limit : Nat} (hEnds : inner.Ends) (h : ∀ m, inner.Reads m) :
    (take inner limit).Reads n := by
  by_cases hZero : limit = 0
  · subst hZero
    refine ⟨[], take inner 0, ?_, hEnds, id, rfl, Nat.zero_le n, fun _ => Or.inr ?_⟩
    · rw [read, if_pos rfl]
    · exact List.take_zero
  · obtain ⟨bytes, inner', hRead, hEnds', hBufRead, hRest, hLe, hNil⟩ := h (min n limit)
    refine ⟨bytes, take inner' (limit - bytes.length), ?_, hEnds', hBufRead, ?_, by omega, ?_⟩
    · rw [read, if_neg hZero, hRead]
      rfl
    · show inner.remaining.take limit = bytes ++ inner'.remaining.take (limit - bytes.length)
      rw [hRest, List.take_append, List.take_of_length_le (by omega)]
    · intro hBytes
      rcases hNil hBytes with hMin | hInner
      · exact Or.inl (by omega)
      · right
        show inner.remaining.take limit = []
        rw [hInner, List.take_nil]

/-- The second source is read once the first one delivers nothing into a buffer
that has room. -/
theorem chain_reads {doneFirst : Bool} (hEnds : first.Ends) (hEnds' : second.Ends)
    (h : first.Reads n) (h' : second.Reads n) : (chain first second doneFirst).Reads n := by
  obtain ⟨bytes, second', hRead, hSecond, hBufRead, hRest, hLe, hNil⟩ := h'
  cases doneFirst with
  | true =>
    refine ⟨bytes, chain first second' true, ?_, ⟨hEnds, hSecond⟩,
      fun hBoth => ⟨hBoth.1, hBufRead hBoth.2⟩, hRest, hLe, hNil⟩
    rw [read, hRead]
    rfl
  | false =>
    obtain ⟨bytes₁, first', hRead₁, hFirst, hBufRead₁, hRest₁, hLe₁, hNil₁⟩ := h
    by_cases hEmpty : bytes₁ = [] ∧ n ≠ 0
    · obtain ⟨rfl, hn⟩ := hEmpty
      have hEnd : first.remaining = [] := (hNil₁ rfl).resolve_left hn
      refine ⟨bytes, chain first' second' true, ?_, ⟨hFirst, hSecond⟩,
        fun hBoth => ⟨hBufRead₁ hBoth.1, hBufRead hBoth.2⟩, ?_, hLe, ?_⟩
      · rw [read, hRead₁]
        simp only [List.isEmpty_nil, bne_iff_ne.mpr hn, Bool.and_self, if_true, hRead,
          Option.map_some]
      · show first.remaining ++ second.remaining = bytes ++ second'.remaining
        rw [hEnd, List.nil_append, hRest]
      · intro hBytes
        right
        show first.remaining ++ second.remaining = []
        rw [hEnd, (hNil hBytes).resolve_left hn]
        rfl
    · refine ⟨bytes₁, chain first' second false, ?_, ⟨hFirst, hEnds'⟩,
        fun hBoth => ⟨hBufRead₁ hBoth.1, hBoth.2⟩, ?_, hLe₁, ?_⟩
      · have hStays : (bytes₁.isEmpty && n != 0) = false := by
          rw [Bool.and_eq_false_iff, List.isEmpty_eq_false_iff, bne_eq_false_iff_eq]
          by_cases hBytes : bytes₁ = []
          · exact Or.inr (not_not.mp fun hn => hEmpty ⟨hBytes, hn⟩)
          · exact Or.inl hBytes
        rw [read, hRead₁]
        simp only [hStays, Bool.false_eq_true, if_false]
      · show first.remaining ++ second.remaining = bytes₁ ++ (first'.remaining ++ second.remaining)
        rw [hRest₁, List.append_assoc]
      · exact fun hBytes => Or.inl (not_not.mp fun hn => hEmpty ⟨hBytes, hn⟩)

end

/-- **One read of any reader that comes to an end.** -/
theorem read_remaining [ByteSource F] {r : Reader F} (hEnds : r.Ends) (n : Nat) : r.Reads n := by
  induction r generalizing n with
  | handle f =>
    obtain ⟨bytes, f', hRead, hLeft, hLe, hNil⟩ := ByteSource.read_left f n
    refine ⟨bytes, handle f', ?_, trivial, id, hLeft, hLe, hNil⟩
    rw [read, hRead]
    rfl
  | slice bytes =>
    exact ⟨bytes.take n, slice (bytes.drop n), rfl, trivial, id, (List.take_append_drop ..).symm,
      List.length_take_le n bytes, take_eq_nil⟩
  | empty => exact ⟨[], empty, rfl, trivial, id, rfl, Nat.zero_le n, fun _ => Or.inr rfl⟩
  | repeat_ => exact hEnds.elim
  | vecDeque front back => exact vecDeque_reads hEnds
  | box r ih =>
    obtain ⟨bytes, r', hRead, hEnds', hBufRead, hRest⟩ := ih hEnds n
    refine ⟨bytes, box r', ?_, hEnds', hBufRead, hRest⟩
    rw [read, hRead]
    rfl
  | bufReader inner buffer capacity ih => exact bufReader_reads hEnds.2 hEnds.1 (ih hEnds.1)
  | cursor bytes pos =>
    refine ⟨(bytes.drop pos).take n, _, rfl, trivial, id, ?_, List.length_take_le n _, take_eq_nil⟩
    show bytes.drop pos =
      (bytes.drop pos).take n ++ bytes.drop (pos + min n (bytes.length - pos))
    rw [← List.drop_drop, ← List.length_drop]
    conv_lhs => rw [← List.take_append_drop n (bytes.drop pos)]
    congr 1
    rcases Nat.le_total n (bytes.drop pos).length with hLe | hLe
    · rw [Nat.min_eq_left hLe]
    · rw [Nat.min_eq_right hLe, List.drop_eq_nil_of_le hLe, List.drop_length]
  | take inner limit ih => exact take_reads hEnds (ih hEnds)
  | chain first second doneFirst ihFirst ihSecond =>
    exact chain_reads hEnds.1 hEnds.2 (ihFirst hEnds.1 n) (ihSecond hEnds.2 n)

-- ---------------------------------------------------------------------------
-- One peek
-- ---------------------------------------------------------------------------

/-- `fill_buf` shows bytes at the front of the remaining ones, and leaves these. -/
def Fills [ByteSource F] (r : Reader F) : Prop :=
  ∃ buffer r', r.fillBuf = some (buffer, r') ∧ r'.Ends ∧ r'.BufRead ∧
    r'.remaining = r.remaining ∧ buffer <+: r.remaining ∧ (buffer = [] → r.remaining = [])

section

variable [ByteSource F] {inner first second : Reader F}

theorem bufReader_fills {buffer : List UInt8} {capacity : Nat} (hCapacity : 0 < capacity)
    (hEnds : inner.Ends) : (bufReader inner buffer capacity).Fills := by
  by_cases hBuffer : buffer = []
  · subst hBuffer
    obtain ⟨bytes, inner', hRead, hEnds', -, hRest, -, hNil⟩ := read_remaining hEnds capacity
    refine ⟨bytes, bufReader inner' bytes capacity, ?_, ⟨hEnds', hCapacity⟩, trivial, hRest.symm,
      ⟨inner'.remaining, hRest.symm⟩, ?_⟩
    · rw [fillBuf, List.isEmpty_nil, if_pos rfl, hRead]
      rfl
    · exact fun hBytes => (hNil hBytes).resolve_left (Nat.pos_iff_ne_zero.mp hCapacity)
  · refine ⟨buffer, bufReader inner buffer capacity, ?_, ⟨hEnds, hCapacity⟩, trivial, rfl,
      List.prefix_append .., fun hNil => absurd hNil hBuffer⟩
    rw [fillBuf, if_neg (mt List.isEmpty_iff.mp hBuffer)]

/-- The buffer of the inner reader is cut off at the limit. -/
theorem take_fills {limit : Nat} (hEnds : inner.Ends) (hBufRead : inner.BufRead)
    (h : inner.Fills) : (take inner limit).Fills := by
  by_cases hZero : limit = 0
  · subst hZero
    refine ⟨[], take inner 0, ?_, hEnds, hBufRead, rfl, List.nil_prefix, fun _ => List.take_zero⟩
    rw [fillBuf, if_pos rfl]
  · obtain ⟨buffer, inner', hFill, hEnds', hBufRead', hSame, hPrefix, hNil⟩ := h
    refine ⟨buffer.take limit, take inner' limit, ?_, hEnds', hBufRead', ?_, ?_, ?_⟩
    · rw [fillBuf, if_neg hZero, hFill]
      rfl
    · exact congrArg (List.take limit) hSame
    · exact hPrefix.take limit
    · intro hTake
      have hInner := hNil ((take_eq_nil hTake).resolve_left hZero)
      show inner.remaining.take limit = []
      rw [hInner, List.take_nil]

/-- An empty buffer of the first source takes the chain on to the second one. -/
theorem chain_fills {doneFirst : Bool} (hEnds : first.Ends) (hEnds' : second.Ends)
    (hBufRead : first.BufRead) (hBufRead' : second.BufRead) (h : first.Fills)
    (h' : second.Fills) : (chain first second doneFirst).Fills := by
  obtain ⟨buffer, second', hFill, hSecond, hBuf, hSame, hPrefix, hNil⟩ := h'
  cases doneFirst with
  | true =>
    refine ⟨buffer, chain first second' true, ?_, ⟨hEnds, hSecond⟩, ⟨hBufRead, hBuf⟩, hSame,
      hPrefix, hNil⟩
    rw [fillBuf, hFill]
    rfl
  | false =>
    obtain ⟨buffer₁, first', hFill₁, hFirst, hBuf₁, hSame₁, hPrefix₁, hNil₁⟩ := h
    by_cases hEmpty : buffer₁ = []
    · subst hEmpty
      have hAll : (chain first second false).remaining = second.remaining := by
        show first.remaining ++ second.remaining = second.remaining
        rw [hNil₁ rfl, List.nil_append]
      refine ⟨buffer, chain first' second' true, ?_, ⟨hFirst, hSecond⟩, ⟨hBuf₁, hBuf⟩,
        hSame.trans hAll.symm, ?_, fun hBuffer => hAll.trans (hNil hBuffer)⟩
      · rw [fillBuf, hFill₁]
        simp only [List.isEmpty_nil, if_true, hFill, Option.map_some]
      · rw [hAll]
        exact hPrefix
    · refine ⟨buffer₁, chain first' second false, ?_, ⟨hFirst, hEnds'⟩, ⟨hBuf₁, hBufRead'⟩, ?_,
        hPrefix₁.trans (List.prefix_append ..), fun hNil => absurd hNil hEmpty⟩
      · rw [fillBuf, hFill₁]
        simp only [List.isEmpty_eq_false_iff.mpr hEmpty, Bool.false_eq_true, if_false]
      · exact congrArg (· ++ second.remaining) hSame₁

end

/-- **One `fill_buf` of any buffered reader that comes to an end.** -/
theorem fillBuf_remaining [ByteSource F] {r : Reader F} (hEnds : r.Ends) (hBufRead : r.BufRead) :
    r.Fills := by
  induction r with
  | handle => exact hBufRead.elim
  | slice bytes =>
    exact ⟨bytes, slice bytes, rfl, trivial, trivial, rfl, List.prefix_rfl, id⟩
  | empty => exact ⟨[], empty, rfl, trivial, trivial, rfl, List.nil_prefix, fun _ => rfl⟩
  | repeat_ => exact hEnds.elim
  | vecDeque front back =>
    refine ⟨front, vecDeque front back, rfl, hEnds, trivial, rfl, List.prefix_append .., ?_⟩
    intro hFront
    show front ++ back = []
    rw [hEnds hFront, hFront]
    rfl
  | box r ih =>
    obtain ⟨buffer, r', hFill, hEnds', hBufRead', hRest⟩ := ih hEnds hBufRead
    refine ⟨buffer, box r', ?_, hEnds', hBufRead', hRest⟩
    rw [fillBuf, hFill]
    rfl
  | bufReader inner buffer capacity => exact bufReader_fills hEnds.2 hEnds.1
  | cursor bytes pos =>
    exact ⟨bytes.drop pos, cursor bytes pos, rfl, trivial, trivial, rfl, List.prefix_rfl, id⟩
  | take inner limit ih => exact take_fills hEnds hBufRead (ih hEnds hBufRead)
  | chain first second doneFirst ihFirst ihSecond =>
    exact chain_fills hEnds.1 hEnds.2 hBufRead.1 hBufRead.2 (ihFirst hEnds.1 hBufRead.1)
      (ihSecond hEnds.2 hBufRead.2)

/-- `peek` of a reader with a buffer. -/
theorem peek_eq [Read F] {r : Reader F} (hBufRead : r.BufRead) (n : Nat) :
    r.peek n = r.peekFromBufread n := by
  cases r with
  | repeat_ => exact hBufRead.elim
  | _ => rfl

theorem peek_remaining [ByteSource F] {r : Reader F} (hEnds : r.Ends) (hBufRead : r.BufRead)
    (n : Nat) :
    ∃ bytes r', r.peek n = some (bytes, r') ∧ (r'.Ends ∧ r'.BufRead) ∧
      r'.remaining = r.remaining ∧ bytes <+: r.remaining ∧ bytes.length ≤ n ∧
        (bytes = [] → n = 0 ∨ r.remaining = []) := by
  obtain ⟨buffer, r', hFill, hEnds', hBufRead', hSame, hPrefix, hNil⟩ :=
    fillBuf_remaining hEnds hBufRead
  refine ⟨buffer.take n, r', ?_, ⟨hEnds', hBufRead'⟩, hSame, (List.take_prefix ..).trans hPrefix,
    List.length_take_le n buffer, ?_⟩
  · rw [peek_eq hBufRead, peekFromBufread, hFill]
    rfl
  · exact fun hTake => (take_eq_nil hTake).imp id hNil

-- ---------------------------------------------------------------------------
-- Runs
-- ---------------------------------------------------------------------------

/-- A reader as a stream of bytes. -/
def tap [Read F] : Tap UInt8 (Reader F) := ⟨read, peek⟩

/-- **A reader holds its remaining bytes**: reads take them off, peeks show them. -/
theorem tracks [ByteSource F] :
    (tap (F := F)).Tracks (fun r => r.Ends ∧ r.BufRead) remaining where
  read r n h := by
    obtain ⟨bytes, r', hRead, hEnds, hBufRead, hRest⟩ := read_remaining h.1 n
    exact ⟨bytes, r', hRead, ⟨hEnds, hBufRead h.2⟩, hRest⟩
  peek r n h := peek_remaining h.1 h.2 n

end Reader

open Reader Tap

/-- **A peek never consumes.** Take any run of peeks and reads of a buffered reader
that comes to an end. A peek after it shows the first of the bytes that the reads
after the peek deliver, and shows none at the end only. The run without its peeks,
read on to the end, delivers the same bytes. -/
theorem peek_never_consumes {F : Type} [ByteSource F] {r : Reader F} (hEnds : r.Ends)
    (hBufRead : r.BufRead) (calls : List Call) :
    ∃ bytes r', tap.run calls r = some (bytes, r') ∧
      (∀ n, ∃ peeked r'', r'.peek n = some (peeked, r'') ∧ peeked.length ≤ n ∧
        (∀ later delivered r₁ rest, tap.run later r'' = some (delivered, r₁) →
          tap.ReadsToEnd r₁ rest → peeked <+: delivered ++ rest) ∧
        (0 < n → peeked = [] → tap.ReadsToEnd r'' [] ∧
          ∀ rest, tap.ReadsToEnd r'' rest → rest = [])) ∧
      ∃ bytes₀ r₀, tap.run (calls.filter Call.isRead) r = some (bytes₀, r₀) ∧
        ∃ rest rest₀, tap.ReadsToEnd r' rest ∧ tap.ReadsToEnd r₀ rest₀ ∧
          ∀ rest rest₀, tap.ReadsToEnd r' rest → tap.ReadsToEnd r₀ rest₀ →
            bytes ++ rest = bytes₀ ++ rest₀ := by
  obtain ⟨bytes, r', hRun, hInv, hHeld⟩ := tracks.run calls ⟨hEnds, hBufRead⟩
  obtain ⟨bytes₀, r₀, hRun₀, hInv₀, hHeld₀⟩ :=
    tracks.run (calls.filter Call.isRead) ⟨hEnds, hBufRead⟩
  refine ⟨bytes, r', hRun, ?_, bytes₀, r₀, hRun₀, r'.remaining, r₀.remaining,
    tracks.readsToEnd hInv, tracks.readsToEnd hInv₀, ?_⟩
  · intro n
    obtain ⟨peeked, r'', hPeek, hInv'', hSame, hPrefix, hLe, hNil⟩ := tracks.peek r' n hInv
    refine ⟨peeked, r'', hPeek, hLe, ?_, ?_⟩
    · intro later delivered r₁ rest hLater hRest
      obtain ⟨hInv₁, hHeld₁⟩ := tracks.held_eq hInv'' hLater
      rw [(tracks.readsToEnd_iff hInv₁).mp hRest, ← hHeld₁, hSame]
      exact hPrefix
    · intro hn hPeeked
      have hEnd : r''.remaining = [] := hSame.trans ((hNil hPeeked).resolve_left (by omega))
      refine ⟨(tracks.readsToEnd_iff hInv'').mpr hEnd.symm, ?_⟩
      intro rest hRest
      exact ((tracks.readsToEnd_iff hInv'').mp hRest).trans hEnd
  · intro rest rest₀ hRest hRest₀
    rw [(tracks.readsToEnd_iff hInv).mp hRest, (tracks.readsToEnd_iff hInv₀).mp hRest₀, ← hHeld,
      hHeld₀]

/-- A chain of a limit over a cursor behind its bytes, and of a buffer over a
stream of which each read moves one byte. -/
def peekedChain : Reader ClosedStream :=
  .chain (.take (.cursor [1, 2] 7) 3)
    (.box (.bufReader (.handle ⟨⟨[5, 6, 7], true, [⟨1, [], false⟩]⟩, rfl⟩) [4] 2)) false

/-- The peek goes on to the second source, and the read of eight bytes stops after
the buffer. -/
example :
    (tap.run [.peek 3, .read 8, .peek 1, .read 1] peekedChain).map Prod.fst = some [4, 5] := by
  decide

theorem peek_never_consumes_chain :
    ∃ bytes r', tap.run [.peek 3, .read 8, .peek 1, .read 1] peekedChain = some (bytes, r') ∧
      ∃ peeked r'', r'.peek 2 = some (peeked, r'') ∧ peeked.length ≤ 2 := by
  obtain ⟨bytes, r', hRun, hPeek, -⟩ :=
    peek_never_consumes (r := peekedChain) ⟨trivial, trivial, by decide⟩ ⟨trivial, trivial⟩
      [.peek 3, .read 8, .peek 1, .read 1]
  obtain ⟨peeked, r'', hEq, hLe, -⟩ := hPeek 2
  exact ⟨bytes, r', hRun, peeked, r'', hEq, hLe⟩

end SystemInterface
