import SystemInterface.Readers.Definitions

/-!
# SystemInterface — what `num_ready_bytes` promises

A reader that reports `n` promises that `n` bytes can be asked for without a
read that blocks. What is buffered or ready on the way to the source that
answers keeps this promise in every nesting. The one byte that an `Empty`
reports does not: behind a `Chain` the end of the `Empty` is not the end of the
stream, and the next source is read.

Main results:

* `Reader.step` — one read of a reader;
* `completes_of_le_avail`, `completes_of_phantom` — reads that do not block;
* `num_ready_bytes_sound_iff` — the promise is kept exactly if the reader does
  not mislead.
-/

namespace SystemInterface

namespace Reader

-- ---------------------------------------------------------------------------
-- Readers of blocking streams
-- ---------------------------------------------------------------------------

/-- Nothing is left, and no read blocks. -/
def AtEnd : Reader Stream → Prop
  | handle s => s.ready = [] ∧ s.closed = true
  | slice bytes => bytes = []
  | empty => True
  | repeat_ _ => False
  | vecDeque front _ => front = []
  | box r => r.AtEnd
  | bufReader inner buffer _ => buffer = [] ∧ inner.AtEnd
  | cursor bytes pos => bytes.length ≤ pos
  | take inner limit => limit = 0 ∨ inner.AtEnd
  | chain _ second true => second.AtEnd
  | chain first second false => first.AtEnd ∧ second.AtEnd

/-- A read blocks. -/
def Stuck : Reader Stream → Prop
  | handle s => s.ready = [] ∧ s.closed = false
  | box r => r.Stuck
  | bufReader inner buffer _ => buffer = [] ∧ inner.Stuck
  | take inner limit => limit ≠ 0 ∧ inner.Stuck
  | chain _ second true => second.Stuck
  | chain first second false => first.Stuck ∨ first.AtEnd ∧ second.Stuck
  | _ => False

/-- The readers as they are built and used: capacities are positive, cursors in
range, limits `u64`s, and a `Chain` has left its first source only at its end. -/
def Built : Reader Stream → Prop
  | vecDeque front back => front = [] → back = []
  | box r => r.Built
  | bufReader inner _ capacity => inner.Built ∧ 0 < capacity
  | cursor bytes pos => pos ≤ bytes.length
  | take inner limit => inner.Built ∧ limit < 2 ^ 64
  | chain first second doneFirst =>
    first.Built ∧ second.Built ∧ (doneFirst = true → first.AtEnd)
  | _ => True

/-- The bytes that are buffered or ready on the way to the source that answers,
that source's included. -/
def avail : Reader Stream → Nat
  | handle s => s.ready.length
  | slice bytes => bytes.length
  | empty => 0
  | repeat_ _ => 2 ^ 64 - 1
  | vecDeque front back => front.length + back.length
  | box r => r.avail
  | bufReader inner buffer _ => buffer.length + inner.avail
  | cursor bytes pos => bytes.length - pos
  | take inner limit => min limit inner.avail
  | chain first _ _ => first.avail

/-- Nothing is left of a stream that does not block. -/
theorem AtEnd.not_stuck {r : Reader Stream} (h : r.AtEnd) : ¬ r.Stuck := by
  intro hStuck
  induction r with
  | handle s =>
    obtain ⟨-, hClosed⟩ := h
    obtain ⟨-, hOpen⟩ := hStuck
    exact absurd (hClosed.symm.trans hOpen) (by decide)
  | slice => exact hStuck
  | empty => exact hStuck
  | repeat_ => exact hStuck
  | vecDeque => exact hStuck
  | cursor => exact hStuck
  | box r ih => exact ih h hStuck
  | bufReader inner buffer capacity ih => exact ih h.2 hStuck.2
  | take inner limit ih =>
    rcases h with hLimit | hInner
    · exact hStuck.1 hLimit
    · exact ih hInner hStuck.2
  | chain first second doneFirst ihFirst ihSecond =>
    cases doneFirst with
    | true => exact ihSecond h hStuck
    | false =>
      rcases hStuck with hFirst | ⟨-, hSecond⟩
      · exact ihFirst h.1 hFirst
      · exact ihSecond h.2 hSecond

/-- With bytes ready, a reader neither blocks nor is at its end. -/
theorem delivers_of_avail {r : Reader Stream} (hBuilt : r.Built) (hAvail : 0 < r.avail) :
    ¬ r.Stuck ∧ ¬ r.AtEnd := by
  induction r with
  | handle s =>
    have hReady : s.ready ≠ [] := List.length_pos_iff.mp hAvail
    exact ⟨fun h => hReady h.1, fun h => hReady h.1⟩
  | slice bytes => exact ⟨id, fun h => List.length_pos_iff.mp hAvail h⟩
  | empty => exact absurd hAvail (Nat.lt_irrefl 0)
  | repeat_ => exact ⟨id, id⟩
  | vecDeque front back =>
    refine ⟨id, fun hFront => ?_⟩
    have hBack := hBuilt hFront
    obtain rfl := hBack
    obtain rfl : front = [] := hFront
    exact absurd hAvail (Nat.lt_irrefl 0)
  | box r ih => exact ih hBuilt hAvail
  | bufReader inner buffer capacity ih =>
    by_cases hEmpty : buffer = []
    · subst hEmpty
      have hInner : 0 < inner.avail := by
        have hSum : 0 < 0 + inner.avail := hAvail
        omega
      obtain ⟨hStuck, hEnd⟩ := ih hBuilt.1 hInner
      exact ⟨fun h => hStuck h.2, fun h => hEnd h.2⟩
    · exact ⟨fun h => hEmpty h.1, fun h => hEmpty h.1⟩
  | cursor bytes pos =>
    have hSub : 0 < bytes.length - pos := hAvail
    refine ⟨id, fun h => ?_⟩
    have hLe : bytes.length ≤ pos := h
    omega
  | take inner limit ih =>
    have hMin : 0 < min limit inner.avail := hAvail
    obtain ⟨hStuck, hEnd⟩ := ih hBuilt.1 (by omega)
    refine ⟨fun h => hStuck h.2, fun h => ?_⟩
    rcases h with hLimit | hInner
    · omega
    · exact hEnd hInner
  | chain first second doneFirst ih _ =>
    obtain ⟨hStuck, hEnd⟩ := ih hBuilt.1 hAvail
    cases doneFirst with
    | true => exact absurd (hBuilt.2.2 rfl) hEnd
    | false =>
      refine ⟨fun h => ?_, fun h => hEnd h.1⟩
      rcases h with hFirst | hSecond
      · exact hStuck hFirst
      · exact hEnd hSecond.1

theorem AtEnd.avail {r : Reader Stream} (hBuilt : r.Built) (h : r.AtEnd) : r.avail = 0 := by
  by_contra hne
  exact (delivers_of_avail hBuilt (Nat.pos_of_ne_zero hne)).2 h

-- ---------------------------------------------------------------------------
-- One read
-- ---------------------------------------------------------------------------

/-- What a read of `k` bytes does: it blocks, or finds the end, or delivers
bytes that are no longer ready then. -/
inductive Step (r : Reader Stream) (k : Nat) : Prop
  | blocked (stuck : r.Stuck) (eq : r.read k = none)
  | ended (atEnd : r.AtEnd) (r' : Reader Stream) (eq : r.read k = some ([], r'))
      (built : r'.Built) (atEnd' : r'.AtEnd)
  | delivered (stuck : ¬ r.Stuck) (atEnd : ¬ r.AtEnd) (bytes : List UInt8) (r' : Reader Stream)
      (eq : r.read k = some (bytes, r')) (built : r'.Built) (ne : bytes ≠ [])
      (le : bytes.length ≤ k) (avail : r.avail ≤ r'.avail + bytes.length)

theorem take_ne_nil {bytes : List UInt8} {k : Nat} (hk : 0 < k) (h : bytes ≠ []) :
    bytes.take k ≠ [] := by
  intro hNil
  rcases List.take_eq_nil_iff.mp hNil with h0 | hBytes
  · omega
  · exact h hBytes

theorem handle_step (s : Stream) {k : Nat} (hk : 0 < k) : Step (handle s) k := by
  have hne : k ≠ 0 := Nat.pos_iff_ne_zero.mp hk
  rcases hReady : s.ready with _ | ⟨byte, rest⟩
  · cases hClosed : s.closed with
    | true =>
      refine .ended ⟨hReady, hClosed⟩ (handle s) ?_ trivial ⟨hReady, hClosed⟩
      show (Stream.read s k).map _ = _
      rw [Stream.read, if_neg hne, hReady, hClosed]
      rfl
    | false =>
      refine .blocked ⟨hReady, hClosed⟩ ?_
      show (Stream.read s k).map _ = _
      rw [Stream.read, if_neg hne, hReady, hClosed]
      rfl
  · have hFull : s.ready ≠ [] := by
      rw [hReady]
      exact List.cons_ne_nil byte rest
    have hNotEmpty : s.ready.isEmpty = false := by
      rw [hReady]
      rfl
    set n := shortCount s.next.size (min k s.ready.length) with hn
    have hLe : n ≤ min k s.ready.length := shortCount_le ..
    have hPos : 0 < n := by
      apply Nat.pos_of_ne_zero
      intro h0
      have hMin := shortCount_eq_zero.mp (hn ▸ h0)
      have hLen := List.length_pos_iff.mpr hFull
      omega
    refine .delivered (fun h => hFull h.1) (fun h => hFull h.1) (s.ready.take n)
      (handle (s.after n)) ?_ trivial (take_ne_nil hPos hFull) ?_ ?_
    · show (Stream.read s k).map _ = _
      rw [Stream.read, if_neg hne, hNotEmpty, if_neg Bool.false_ne_true]
      rfl
    · rw [List.length_take]
      omega
    · show s.ready.length ≤ (s.ready.drop n ++ _).length + (s.ready.take n).length
      rw [List.length_append, List.length_take, List.length_drop]
      omega

/-- A read that passes a read of `m` bytes of another reader on, as `wrap` makes
of it. -/
theorem Step.wrap {r r₀ : Reader Stream} {k m : Nat} (h : r.Step m)
    (wrap : List UInt8 → Reader Stream → List UInt8 × Reader Stream)
    (hEq : r₀.read k = (r.read m).map fun (bytes, r') => wrap bytes r')
    (hStuck : r.Stuck ↔ r₀.Stuck) (hEnd : r.AtEnd ↔ r₀.AtEnd)
    (hEnded : ∀ r', r'.Built → r'.AtEnd →
      ∃ r₀', wrap [] r' = ([], r₀') ∧ r₀'.Built ∧ r₀'.AtEnd)
    (hDelivered : ∀ bytes r', r'.Built → bytes ≠ [] → bytes.length ≤ m →
      r.avail ≤ r'.avail + bytes.length →
      ∃ bytes' r₀', wrap bytes r' = (bytes', r₀') ∧ r₀'.Built ∧ bytes' ≠ [] ∧
        bytes'.length ≤ k ∧ r₀.avail ≤ r₀'.avail + bytes'.length) : r₀.Step k := by
  rcases h with ⟨hBlocks, hRead⟩ | ⟨hIsEnd, r', hRead, hBuilt', hIsEnd'⟩ |
    ⟨hGoes, hMore, bytes, r', hRead, hBuilt', hne, hLe, hAvail⟩
  · refine .blocked (hStuck.mp hBlocks) ?_
    rw [hEq, hRead]
    rfl
  · obtain ⟨r₀', hWrap, hBuilt₀, hEnd₀⟩ := hEnded r' hBuilt' hIsEnd'
    refine .ended (hEnd.mp hIsEnd) r₀' ?_ hBuilt₀ hEnd₀
    rw [hEq, hRead]
    exact congrArg some hWrap
  · obtain ⟨bytes', r₀', hWrap, hBuilt₀, hne₀, hLe₀, hAvail₀⟩ :=
      hDelivered bytes r' hBuilt' hne hLe hAvail
    refine .delivered (mt hStuck.mpr hGoes) (mt hEnd.mpr hMore) bytes' r₀' ?_ hBuilt₀ hne₀ hLe₀
      hAvail₀
    rw [hEq, hRead]
    exact congrArg some hWrap

theorem slice_step (bytes : List UInt8) {k : Nat} (hk : 0 < k) : Step (slice bytes) k := by
  by_cases hEmpty : bytes = []
  · subst hEmpty
    refine .ended rfl (slice []) ?_ trivial rfl
    unfold read
    rw [List.take_nil, List.drop_nil]
  · refine .delivered id hEmpty (bytes.take k) (slice (bytes.drop k)) rfl trivial
      (take_ne_nil hk hEmpty) (List.length_take_le k bytes) ?_
    show bytes.length ≤ (bytes.drop k).length + (bytes.take k).length
    rw [List.length_take, List.length_drop]
    omega

theorem repeat_step (byte : UInt8) {k : Nat} (hk : 0 < k) : Step (repeat_ byte) k := by
  have hLen : (List.replicate k byte).length = k := List.length_replicate
  refine .delivered id id (List.replicate k byte) (repeat_ byte) rfl trivial ?_
    (Nat.le_of_eq hLen) (Nat.le_add_right ..)
  apply List.length_pos_iff.mp
  rw [hLen]
  exact hk

/-- The front slice is read first. -/
theorem vecDeque_step {front back : List UInt8} (hBuilt : (vecDeque front back).Built) {k : Nat}
    (hk : 0 < k) : Step (vecDeque front back) k := by
  by_cases hEmpty : front = []
  · have hBack := hBuilt hEmpty
    subst hEmpty hBack
    refine .ended rfl (vecDeque [] []) ?_ id rfl
    unfold read
    rw [List.take_nil, List.length_nil, if_neg (Nat.not_lt_zero k)]
  by_cases hPart : k < front.length
  · refine .delivered id hEmpty (front.take k) (vecDeque (front.drop k) back) ?_ ?_
      (take_ne_nil hk hEmpty) (List.length_take_le k front) ?_
    · unfold read
      rw [if_pos hPart]
    · intro hDrop
      have hLe := List.drop_eq_nil_iff.mp hDrop
      omega
    · show front.length + back.length ≤
        (front.drop k).length + back.length + (front.take k).length
      rw [List.length_take, List.length_drop]
      omega
  · refine .delivered id hEmpty (front.take k) (vecDeque back []) ?_ (fun _ => rfl)
      (take_ne_nil hk hEmpty) (List.length_take_le k front) ?_
    · unfold read
      rw [if_neg hPart]
    · show front.length + back.length ≤ back.length + 0 + (front.take k).length
      rw [List.length_take]
      omega

theorem cursor_step {bytes : List UInt8} {pos : Nat} (hBuilt : (cursor bytes pos).Built) {k : Nat}
    (hk : 0 < k) : Step (cursor bytes pos) k := by
  have hPos : pos ≤ bytes.length := hBuilt
  by_cases hEnd : bytes.length ≤ pos
  · have hNil : bytes.drop pos = [] := List.drop_eq_nil_of_le hEnd
    refine .ended hEnd (cursor bytes pos) ?_ hPos hEnd
    rw [read, hNil, List.take_nil, Nat.sub_eq_zero_of_le hEnd, Nat.min_zero, Nat.add_zero]
  · refine .delivered id hEnd ((bytes.drop pos).take k)
      (cursor bytes (pos + min k (bytes.length - pos))) rfl ?_ ?_ (List.length_take_le k _) ?_
    · show pos + min k (bytes.length - pos) ≤ bytes.length
      omega
    · exact take_ne_nil hk fun hNil => hEnd (List.drop_eq_nil_iff.mp hNil)
    · show bytes.length - pos ≤
        bytes.length - (pos + min k (bytes.length - pos)) + ((bytes.drop pos).take k).length
      rw [List.length_take, List.length_drop]
      omega

section

variable {inner first second : Reader Stream} {k : Nat}

theorem box_step (h : inner.Step k) : (box inner).Step k :=
  h.wrap (fun bytes r' => (bytes, box r')) rfl Iff.rfl Iff.rfl
    (fun r' hBuilt' hEnd' => ⟨box r', rfl, hBuilt', hEnd'⟩)
    (fun bytes r' hBuilt' hne hLe hAvail => ⟨bytes, box r', rfl, hBuilt', hne, hLe, hAvail⟩)

/-- A read past the buffer, one that fills it, or one from what is buffered. -/
theorem bufReader_step {buffer : List UInt8} {capacity : Nat}
    (hBuilt : (bufReader inner buffer capacity).Built) (h : ∀ m, 0 < m → inner.Step m)
    (hk : 0 < k) : (bufReader inner buffer capacity).Step k := by
  obtain ⟨hInner, hCapacity⟩ := hBuilt
  by_cases hEmpty : buffer = []
  · subst hEmpty
    have hStuck : inner.Stuck ↔ (bufReader inner [] capacity).Stuck :=
      ⟨fun h => ⟨rfl, h⟩, fun h => h.2⟩
    have hEnd : inner.AtEnd ↔ (bufReader inner [] capacity).AtEnd :=
      ⟨fun h => ⟨rfl, h⟩, fun h => h.2⟩
    by_cases hPast : capacity ≤ k
    · refine (h k hk).wrap (fun bytes r' => (bytes, bufReader r' [] capacity)) ?_ hStuck hEnd ?_ ?_
      · rw [read, List.isEmpty_nil, if_pos rfl, if_pos hPast]
      · intro r' hBuilt' hEnd'
        exact ⟨_, rfl, ⟨hBuilt', hCapacity⟩, rfl, hEnd'⟩
      · intro bytes r' hBuilt' hne hLe hAvail
        refine ⟨bytes, _, rfl, ⟨hBuilt', hCapacity⟩, hne, hLe, ?_⟩
        show 0 + inner.avail ≤ 0 + r'.avail + bytes.length
        omega
    · refine (h capacity hCapacity).wrap
        (fun bytes r' => (bytes.take k, bufReader r' (bytes.drop k) capacity)) ?_ hStuck hEnd ?_ ?_
      · rw [read, List.isEmpty_nil, if_pos rfl, if_neg hPast]
      · intro r' hBuilt' hEnd'
        refine ⟨bufReader r' [] capacity, ?_, ⟨hBuilt', hCapacity⟩, rfl, hEnd'⟩
        show (([] : List UInt8).take k, bufReader r' (([] : List UInt8).drop k) capacity) = _
        rw [List.take_nil, List.drop_nil]
      · intro bytes r' hBuilt' hne hLe hAvail
        refine ⟨bytes.take k, _, rfl, ⟨hBuilt', hCapacity⟩, take_ne_nil hk hne,
          List.length_take_le k bytes, ?_⟩
        show 0 + inner.avail ≤ (bytes.drop k).length + r'.avail + (bytes.take k).length
        rw [List.length_take, List.length_drop]
        omega
  · refine .delivered (fun h => hEmpty h.1) (fun h => hEmpty h.1) (buffer.take k)
      (bufReader inner (buffer.drop k) capacity) ?_ ⟨hInner, hCapacity⟩ (take_ne_nil hk hEmpty)
      (List.length_take_le k buffer) ?_
    · rw [read, if_neg (mt List.isEmpty_iff.mp hEmpty)]
    · show buffer.length + inner.avail ≤
        (buffer.drop k).length + inner.avail + (buffer.take k).length
      rw [List.length_take, List.length_drop]
      omega

theorem take_step {limit : Nat} (hBuilt : (take inner limit).Built)
    (h : ∀ m, 0 < m → inner.Step m) (hk : 0 < k) : (take inner limit).Step k := by
  obtain ⟨hInner, hLimit⟩ := hBuilt
  by_cases hZero : limit = 0
  · subst hZero
    refine .ended (Or.inl rfl) (take inner 0) ?_ ⟨hInner, hLimit⟩ (Or.inl rfl)
    rw [read, if_pos rfl]
  have hEnd : inner.AtEnd ↔ (take inner limit).AtEnd :=
    ⟨Or.inr, fun h => h.resolve_left hZero⟩
  refine (h (min k limit) (by omega)).wrap
    (fun bytes r' => (bytes, take r' (limit - bytes.length))) ?_
    ⟨fun h => ⟨hZero, h⟩, fun h => h.2⟩ hEnd ?_ ?_
  · rw [read, if_neg hZero]
  · intro r' hBuilt' hEnd'
    exact ⟨take r' limit, rfl, ⟨hBuilt', hLimit⟩, Or.inr hEnd'⟩
  · intro bytes r' hBuilt' hne hLe hAvail
    refine ⟨bytes, take r' (limit - bytes.length), rfl, ⟨hBuilt', by omega⟩, hne, by omega, ?_⟩
    show min limit inner.avail ≤ min (limit - bytes.length) r'.avail + bytes.length
    omega

/-- The second source is read once the first one is at its end. -/
theorem chain_step {doneFirst : Bool} (hBuilt : (chain first second doneFirst).Built)
    (h : first.Step k) (h' : second.Step k) (hk : 0 < k) :
    (chain first second doneFirst).Step k := by
  obtain ⟨hFirst, hSecond, hDone⟩ := hBuilt
  cases doneFirst with
  | true =>
    have hZero : first.avail = 0 := (hDone rfl).avail hFirst
    refine h'.wrap (fun bytes r' => (bytes, chain first r' true)) rfl Iff.rfl Iff.rfl ?_ ?_
    · intro r' hBuilt' hEnd'
      exact ⟨_, rfl, ⟨hFirst, hBuilt', hDone⟩, hEnd'⟩
    · intro bytes r' hBuilt' hne hLe _
      refine ⟨bytes, _, rfl, ⟨hFirst, hBuilt', hDone⟩, hne, hLe, ?_⟩
      show first.avail ≤ first.avail + bytes.length
      omega
  | false =>
    rcases h with ⟨hStuck, hRead⟩ | ⟨hEnd, first', hRead, hFirst', hEnd'⟩ |
      ⟨hStuck, hEnd, bytes, first', hRead, hFirst', hne, hLe, hAvail⟩
    · refine .blocked (Or.inl hStuck) ?_
      rw [read, hRead]
    · have hZero : first.avail = 0 := hEnd.avail hFirst
      have hkne : (k != 0) = true := bne_iff_ne.mpr (Nat.pos_iff_ne_zero.mp hk)
      refine h'.wrap (fun bytes r' => (bytes, chain first' r' true)) ?_
        ⟨fun h => Or.inr ⟨hEnd, h⟩, fun h => (h.resolve_left hEnd.not_stuck).2⟩
        ⟨fun h => ⟨hEnd, h⟩, fun h => h.2⟩ ?_ ?_
      · rw [read, hRead]
        simp only [List.isEmpty_nil, hkne, Bool.and_self, if_true]
      · intro r' hBuilt' hEnd''
        exact ⟨_, rfl, ⟨hFirst', hBuilt', fun _ => hEnd'⟩, hEnd''⟩
      · intro bytes r' hBuilt' hne hLe _
        refine ⟨bytes, _, rfl, ⟨hFirst', hBuilt', fun _ => hEnd'⟩, hne, hLe, ?_⟩
        show first.avail ≤ first'.avail + bytes.length
        omega
    · have hNotEmpty : bytes.isEmpty = false := List.isEmpty_eq_false_iff.mpr hne
      refine .delivered (fun h => ?_) (fun h => hEnd h.1) bytes (chain first' second false) ?_
        ⟨hFirst', hSecond, fun h => absurd h Bool.false_ne_true⟩ hne hLe hAvail
      · rcases h with hBlocks | hBehind
        · exact hStuck hBlocks
        · exact hEnd hBehind.1
      · rw [read, hRead]
        simp only [hNotEmpty, Bool.false_and, Bool.false_eq_true, if_false]

end

/-- **One read of a reader.** -/
theorem step {r : Reader Stream} (hBuilt : r.Built) {k : Nat} (hk : 0 < k) : r.Step k := by
  induction r generalizing k with
  | handle s => exact handle_step s hk
  | slice bytes => exact slice_step bytes hk
  | empty => exact .ended trivial empty rfl trivial trivial
  | repeat_ byte => exact repeat_step byte hk
  | vecDeque front back => exact vecDeque_step hBuilt hk
  | box r ih => exact box_step (ih hBuilt hk)
  | bufReader inner buffer capacity ih =>
    exact bufReader_step hBuilt (fun m hm => ih hBuilt.1 hm) hk
  | cursor bytes pos => exact cursor_step hBuilt hk
  | take inner limit ih => exact take_step hBuilt (fun m hm => ih hBuilt.1 hm) hk
  | chain first second doneFirst ihFirst ihSecond =>
    exact chain_step hBuilt (ihFirst hBuilt.1 hk) (ihSecond hBuilt.2.1 hk) hk

-- ---------------------------------------------------------------------------
-- Reads of what is ready
-- ---------------------------------------------------------------------------

/-- Reads with buffers of the given lengths, one after the other: none blocks,
and each delivers bytes or finds the end of the stream. -/
def Completes : Reader Stream → List Nat → Prop
  | _, [] => True
  | r, k :: ks => ∃ bytes r', r.read k = some (bytes, r') ∧ (bytes = [] → r'.AtEnd) ∧
    r'.Completes ks

/-- With bytes ready, a read delivers some. -/
theorem read_of_avail {r : Reader Stream} (hBuilt : r.Built) (hAvail : 0 < r.avail) {k : Nat}
    (hk : 0 < k) : ∃ bytes r', r.read k = some (bytes, r') ∧ r'.Built ∧ bytes ≠ [] ∧
      bytes.length ≤ k ∧ r.avail ≤ r'.avail + bytes.length := by
  obtain ⟨hStuck, hEnd⟩ := delivers_of_avail hBuilt hAvail
  rcases step hBuilt hk with ⟨h, -⟩ | ⟨h, -⟩ | ⟨-, -, bytes, r', hRead, hBuilt', hne, hLe, hMore⟩
  · exact absurd h hStuck
  · exact absurd h hEnd
  · exact ⟨bytes, r', hRead, hBuilt', hne, hLe, hMore⟩

/-- **Reads of what is ready complete.** -/
theorem completes_of_le_avail {ks : List Nat} {r : Reader Stream} (hBuilt : r.Built)
    (hPos : ∀ k ∈ ks, 0 < k) (hSum : ks.sum ≤ r.avail) : r.Completes ks := by
  induction ks generalizing r with
  | nil => trivial
  | cons k ks ih =>
    have hk : 0 < k := hPos k List.mem_cons_self
    rw [List.sum_cons] at hSum
    obtain ⟨bytes, r', hRead, hBuilt', hne, hLe, hMore⟩ :=
      read_of_avail hBuilt (by omega) hk
    refine ⟨bytes, r', hRead, fun h => absurd h hne, ih hBuilt' ?_ (by omega)⟩
    exact fun k hk => hPos k (List.mem_cons_of_mem _ hk)

-- ---------------------------------------------------------------------------
-- The byte that is not there
-- ---------------------------------------------------------------------------

/-- The source that answers is an `Empty`, whose byte no limit cuts off. -/
def Phantom : Reader Stream → Prop
  | empty => True
  | box r => r.Phantom
  | bufReader inner _ _ => inner.Phantom
  | take inner limit => inner.Phantom ∧ inner.avail < limit
  | chain first _ _ => first.Phantom
  | _ => False

/-- The reader once what is buffered on the way to its source has been read. -/
def drained : Reader Stream → Reader Stream
  | box r => box r.drained
  | bufReader inner _ capacity => bufReader inner.drained [] capacity
  | take inner limit => take inner.drained (limit - inner.avail)
  | chain first second doneFirst => chain first.drained second doneFirst
  | r => r

theorem Phantom.drained_eq {r : Reader Stream} (h : r.Phantom) (hAvail : r.avail = 0) :
    r.drained = r := by
  induction r with
  | handle | slice | repeat_ | vecDeque | cursor => exact h.elim
  | empty => rfl
  | box r ih => rw [drained, ih h hAvail]
  | bufReader inner buffer capacity ih =>
    have hSum : buffer.length + inner.avail = 0 := hAvail
    have hEmpty : buffer = [] := List.eq_nil_of_length_eq_zero (by omega)
    rw [drained, ih h (by omega), hEmpty]
  | take inner limit ih =>
    have hMin : min limit inner.avail = 0 := hAvail
    have hLimit := h.2
    have hInner : inner.avail = 0 := by omega
    rw [drained, ih h.1 hInner, hInner, Nat.sub_zero]
  | chain first second doneFirst ih _ => rw [drained, ih h hAvail]

/-- What a read takes from the buffers before an `Empty` is exactly what it
delivers. -/
structure Drains (r r' : Reader Stream) (bytes : List UInt8) : Prop where
  phantom : r'.Phantom
  avail : r'.avail + bytes.length = r.avail
  drained : r'.drained = r.drained

section

variable {inner r' : Reader Stream}

/-- What was read of the inner reader and is not taken stays in the buffer. -/
theorem Drains.bufReader {taken left : List UInt8} (h : inner.Drains r' (taken ++ left))
    (capacity : Nat) :
    Drains (.bufReader inner [] capacity) (.bufReader r' left capacity) taken := by
  obtain ⟨hPhantom, hAvail, hDrained⟩ := h
  rw [List.length_append] at hAvail
  refine ⟨hPhantom, ?_, congrArg (Reader.bufReader · [] capacity) hDrained⟩
  show left.length + r'.avail + taken.length = 0 + inner.avail
  omega

theorem Drains.take {bytes : List UInt8} (h : inner.Drains r' bytes) {limit : Nat}
    (hLimit : inner.avail < limit) :
    Drains (.take inner limit) (.take r' (limit - bytes.length)) bytes := by
  obtain ⟨hPhantom, hAvail, hDrained⟩ := h
  refine ⟨⟨hPhantom, by omega⟩, ?_, ?_⟩
  · show min (limit - bytes.length) r'.avail + bytes.length = min limit inner.avail
    omega
  · have hLeft : limit - bytes.length - r'.avail = limit - inner.avail := by omega
    show Reader.take r'.drained (limit - bytes.length - r'.avail) =
      Reader.take inner.drained (limit - inner.avail)
    rw [hDrained, hLeft]

end

theorem Phantom.drains {r r' : Reader Stream} (h : r.Phantom) (hBuilt : r.Built)
    (hAvail : 0 < r.avail) {k : Nat} (hk : 0 < k) {bytes : List UInt8}
    (hRead : r.read k = some (bytes, r')) : r.Drains r' bytes := by
  induction r generalizing k r' bytes with
  | handle | slice | repeat_ | vecDeque | cursor => exact h.elim
  | empty => exact absurd hAvail (Nat.lt_irrefl 0)
  | box r ih =>
    obtain ⟨⟨bytes', r₁⟩, hInner, hEq⟩ := Option.map_eq_some_iff.mp hRead
    obtain ⟨rfl, rfl⟩ := Prod.mk.inj hEq
    obtain ⟨hPhantom, hExact, hDrained⟩ := ih h hBuilt hAvail hk hInner
    exact ⟨hPhantom, hExact, congrArg box hDrained⟩
  | bufReader inner buffer capacity ih =>
    by_cases hEmpty : buffer = []
    · subst hEmpty
      have hInnerAvail : 0 < inner.avail := by
        have hSum : 0 < 0 + inner.avail := hAvail
        omega
      rw [read, List.isEmpty_nil, if_pos rfl] at hRead
      by_cases hPast : capacity ≤ k
      · rw [if_pos hPast] at hRead
        obtain ⟨⟨bytes', r₁⟩, hInner, hEq⟩ := Option.map_eq_some_iff.mp hRead
        obtain ⟨rfl, rfl⟩ := Prod.mk.inj hEq
        have hDrains := ih h hBuilt.1 hInnerAvail hk hInner
        rw [← List.append_nil bytes'] at hDrains
        exact hDrains.bufReader capacity
      · rw [if_neg hPast] at hRead
        obtain ⟨⟨bytes', r₁⟩, hInner, hEq⟩ := Option.map_eq_some_iff.mp hRead
        obtain ⟨rfl, rfl⟩ := Prod.mk.inj hEq
        have hDrains := ih h hBuilt.1 hInnerAvail hBuilt.2 hInner
        rw [← List.take_append_drop k bytes'] at hDrains
        exact hDrains.bufReader capacity
    · rw [read, if_neg (mt List.isEmpty_iff.mp hEmpty)] at hRead
      obtain ⟨rfl, rfl⟩ := Prod.mk.inj (Option.some.inj hRead)
      refine ⟨h, ?_, rfl⟩
      show (buffer.drop k).length + inner.avail + (buffer.take k).length =
        buffer.length + inner.avail
      rw [List.length_take, List.length_drop]
      omega
  | take inner limit ih =>
    obtain ⟨hInnerPhantom, hLimit⟩ := h
    have hMin : 0 < min limit inner.avail := hAvail
    rw [read, if_neg (by omega)] at hRead
    obtain ⟨⟨bytes', r₁⟩, hInner, hEq⟩ := Option.map_eq_some_iff.mp hRead
    obtain ⟨rfl, rfl⟩ := Prod.mk.inj hEq
    exact (ih hInnerPhantom hBuilt.1 (by omega) (by omega) hInner).take hLimit
  | chain first second doneFirst ih _ =>
    obtain ⟨hFirst, hSecond, hDone⟩ := hBuilt
    cases doneFirst with
    | true => exact absurd (hDone rfl) (delivers_of_avail hFirst hAvail).2
    | false =>
      obtain ⟨bytes', first', hInner, -, hne, -⟩ := read_of_avail hFirst hAvail hk
      have hNotEmpty : bytes'.isEmpty = false := List.isEmpty_eq_false_iff.mpr hne
      rw [read, hInner] at hRead
      simp only [hNotEmpty, Bool.false_and, Bool.false_eq_true, if_false] at hRead
      obtain ⟨rfl, rfl⟩ := Prod.mk.inj (Option.some.inj hRead)
      obtain ⟨hPhantom, hExact, hDrained⟩ := ih h hFirst hAvail hk hInner
      exact ⟨hPhantom, hExact, congrArg (chain · second false) hDrained⟩

/-- **One byte more than is ready can be asked for**, if no read blocks then. -/
theorem completes_of_phantom {ks : List Nat} {r : Reader Stream} (hBuilt : r.Built)
    (h : r.Phantom) (hStuck : ¬ r.drained.Stuck) (hPos : ∀ k ∈ ks, 0 < k)
    (hSum : ks.sum ≤ r.avail + 1) : r.Completes ks := by
  induction ks generalizing r with
  | nil => trivial
  | cons k ks ih =>
    have hk : 0 < k := hPos k List.mem_cons_self
    have hPos' : ∀ k ∈ ks, 0 < k := fun k hk => hPos k (List.mem_cons_of_mem _ hk)
    rw [List.sum_cons] at hSum
    rcases Nat.eq_zero_or_pos r.avail with hZero | hAvail
    · -- the last byte is asked for
      rw [h.drained_eq hZero] at hStuck
      have hNil : ks = [] := by
        cases ks with
        | nil => rfl
        | cons l ls =>
          have hl := hPos' l List.mem_cons_self
          rw [List.sum_cons] at hSum
          omega
      subst hNil
      rcases step hBuilt hk with ⟨hBlocks, -⟩ | ⟨-, r', hRead, -, hEnd'⟩ |
        ⟨-, -, bytes, r', hRead, -, hne, -⟩
      · exact absurd hBlocks hStuck
      · exact ⟨[], r', hRead, fun _ => hEnd', trivial⟩
      · exact ⟨bytes, r', hRead, fun hNil => absurd hNil hne, trivial⟩
    · obtain ⟨bytes, r', hRead, hBuilt', hne, hLe, -⟩ := read_of_avail hBuilt hAvail hk
      obtain ⟨hPhantom, hExact, hDrained⟩ := h.drains hBuilt hAvail hk hRead
      refine ⟨bytes, r', hRead, fun hNil => absurd hNil hne, ?_⟩
      exact ih hBuilt' hPhantom (by rw [hDrained]; exact hStuck) hPos' (by omega)

/-- If a read blocks then, reading byte by byte comes to it. -/
theorem not_completes_of_phantom {r : Reader Stream} (hBuilt : r.Built) (h : r.Phantom)
    (hStuck : r.drained.Stuck) : ¬ r.Completes (List.replicate (r.avail + 1) 1) := by
  induction hn : r.avail generalizing r with
  | zero =>
    rintro ⟨bytes, r', hRead, -⟩
    rw [h.drained_eq hn] at hStuck
    rcases step hBuilt Nat.one_pos with ⟨-, hNone⟩ | ⟨hEnd, -⟩ | ⟨hGoes, -⟩
    · rw [hNone] at hRead
      exact absurd hRead (by simp)
    · exact hEnd.not_stuck hStuck
    · exact hGoes hStuck
  | succ n ih =>
    rintro ⟨bytes, r', hRead, -, hRest⟩
    have hAvail : 0 < r.avail := by omega
    obtain ⟨bytes', r₁, hRead', hBuilt', hne, hLe, -⟩ :=
      read_of_avail hBuilt hAvail Nat.one_pos
    obtain ⟨rfl, rfl⟩ := Prod.mk.inj (Option.some.inj (hRead'.symm.trans hRead))
    obtain ⟨hPhantom, hExact, hDrained⟩ := h.drains hBuilt hAvail Nat.one_pos hRead'
    have hOne : bytes'.length = 1 := by
      have hLen := List.length_pos_iff.mpr hne
      omega
    exact ih hBuilt' hPhantom (by rw [hDrained]; exact hStuck) (by omega) hRest

-- ---------------------------------------------------------------------------
-- The report
-- ---------------------------------------------------------------------------

theorem add_le {p : Profile} {a b n : Nat} (h : p.add a b = .ok n) : n ≤ a + b ∧ n < 2 ^ 64 := by
  unfold Profile.add at h
  split at h
  · obtain rfl := Except.ok.inj h
    omega
  · cases p with
    | debug => exact absurd h (by simp)
    | release =>
      obtain rfl := Except.ok.inj h
      exact ⟨Nat.mod_le .., Nat.mod_lt _ (by decide)⟩

/-- A report covers what is ready, and one byte for an `Empty`. -/
theorem report_le {p : Profile} {r : Reader Stream} (hBuilt : r.Built) {n : Nat}
    (hReport : r.numReadyBytes p = .ok n) : n ≤ r.avail ∨ r.Phantom ∧ n ≤ r.avail + 1 := by
  induction r generalizing n with
  | handle s => exact Or.inl (Nat.le_of_eq (Except.ok.inj hReport).symm)
  | slice bytes => exact Or.inl (Nat.le_of_eq (Except.ok.inj hReport).symm)
  | empty => exact Or.inr ⟨trivial, Nat.le_of_eq (Except.ok.inj hReport).symm⟩
  | repeat_ byte => exact Or.inl (Nat.le_of_eq (Except.ok.inj hReport).symm)
  | vecDeque front back => exact Or.inl (Nat.le_of_eq (Except.ok.inj hReport).symm)
  | box r ih => exact ih hBuilt hReport
  | bufReader inner buffer capacity ih =>
    rw [numReadyBytes] at hReport
    split at hReport
    · next m hInner =>
      have hSum := (add_le hReport).1
      rcases ih hBuilt.1 hInner with hLe | ⟨hPhantom, hLe⟩
      · apply Or.inl
        show n ≤ buffer.length + inner.avail
        omega
      · refine Or.inr ⟨hPhantom, ?_⟩
        show n ≤ buffer.length + inner.avail + 1
        omega
    · split at hReport
      · obtain rfl := Except.ok.inj hReport
        exact Or.inl (Nat.le_add_right ..)
      · exact absurd hReport (by simp)
    · exact absurd hReport (by simp)
  | cursor bytes pos =>
    rw [numReadyBytes, p.sub_of_le hBuilt] at hReport
    exact Or.inl (Nat.le_of_eq (Except.ok.inj hReport).symm)
  | take inner limit ih =>
    rw [numReadyBytes] at hReport
    rcases hInner : inner.numReadyBytes p with f | m
    · rw [hInner] at hReport
      exact absurd hReport (by simp [bind, Except.bind])
    · rw [hInner] at hReport
      have hMin : min limit m = n := Except.ok.inj hReport
      rcases ih hBuilt.1 hInner with hLe | ⟨hPhantom, hLe⟩
      · apply Or.inl
        show n ≤ min limit inner.avail
        omega
      · by_cases hLimit : inner.avail < limit
        · refine Or.inr ⟨⟨hPhantom, hLimit⟩, ?_⟩
          show n ≤ min limit inner.avail + 1
          omega
        · -- the limit cuts the byte off
          apply Or.inl
          show n ≤ min limit inner.avail
          omega
  | chain first second doneFirst ih _ => exact ih hBuilt.1 hReport

/-- With an `Empty` at the source, the report is one byte more than is ready, if
a `u64` holds it. -/
theorem Phantom.report {r : Reader Stream} (h : r.Phantom) (hBuilt : r.Built)
    (hFits : r.avail + 1 < 2 ^ 64) (p : Profile) : r.numReadyBytes p = .ok (r.avail + 1) := by
  induction r with
  | handle | slice | repeat_ | vecDeque | cursor => exact h.elim
  | empty => rfl
  | box r ih => exact ih h hBuilt hFits
  | bufReader inner buffer capacity ih =>
    have hSum : buffer.length + inner.avail + 1 < 2 ^ 64 := hFits
    rw [numReadyBytes, ih h hBuilt.1 (by omega)]
    exact p.add_of_lt (by omega)
  | take inner limit ih =>
    obtain ⟨hPhantom, hLimit⟩ := h
    have hLt := hBuilt.2
    have hMin : min limit (inner.avail + 1) = min limit inner.avail + 1 := by omega
    rw [numReadyBytes, ih hPhantom hBuilt.1 (by omega)]
    exact congrArg Except.ok hMin
  | chain first second doneFirst ih _ => exact ih h hBuilt.1 hFits

/-- If a `u64` does not hold it, a report is not more than is ready. -/
theorem Phantom.report_le_avail {r : Reader Stream} (h : r.Phantom) (hBuilt : r.Built)
    (hFits : ¬ r.avail + 1 < 2 ^ 64) {p : Profile} {n : Nat}
    (hReport : r.numReadyBytes p = .ok n) : n ≤ r.avail := by
  induction r generalizing n with
  | handle | slice | repeat_ | vecDeque | cursor => exact h.elim
  | empty => exact absurd (show 0 + 1 < 2 ^ 64 by decide) hFits
  | box r ih => exact ih h hBuilt hFits hReport
  | bufReader inner buffer capacity ih =>
    rw [numReadyBytes] at hReport
    split at hReport
    · have hLt := (add_le hReport).2
      omega
    · split at hReport
      · obtain rfl := Except.ok.inj hReport
        exact Nat.le_add_right ..
      · exact absurd hReport (by simp)
    · exact absurd hReport (by simp)
  | take inner limit ih =>
    obtain ⟨-, hLimit⟩ := h
    have hLt := hBuilt.2
    have hMin : ¬ min limit inner.avail + 1 < 2 ^ 64 := hFits
    omega
  | chain first second doneFirst ih _ => exact ih h hBuilt.1 hFits hReport

-- ---------------------------------------------------------------------------
-- The promise
-- ---------------------------------------------------------------------------

/-- Reads that ask for no more bytes than the reader reports complete. -/
def Sound (p : Profile) (r : Reader Stream) : Prop :=
  ∀ n, r.numReadyBytes p = .ok n → 0 < n →
    ∀ ks : List Nat, (∀ k ∈ ks, 0 < k) → ks.sum ≤ n → r.Completes ks

/-- The report counts the byte of an `Empty`, and with what is buffered before
it read, a read blocks. -/
structure Misleads (r : Reader Stream) : Prop where
  phantom : r.Phantom
  stuck : r.drained.Stuck
  fits : r.avail + 1 < 2 ^ 64

end Reader

/-- **What `num_ready_bytes` promises.** A reader of slices, cursors, blocking
streams, `Empty` and `Repeat`, in any nesting and any state, can be read for as
many bytes as it reports without a read that blocks, exactly if it does not
mislead. -/
theorem num_ready_bytes_sound_iff (p : Profile) {r : Reader Stream} (hBuilt : r.Built) :
    r.Sound p ↔ ¬ r.Misleads := by
  constructor
  · rintro hSound ⟨hPhantom, hStuck, hFits⟩
    apply Reader.not_completes_of_phantom hBuilt hPhantom hStuck
    refine hSound _ (hPhantom.report hBuilt hFits p) (Nat.succ_pos _) _ (fun k hk => ?_) ?_
    · rw [List.eq_of_mem_replicate hk]
      exact Nat.one_pos
    · exact Nat.le_of_eq (List.sum_replicate_nat.trans (Nat.mul_one _))
  · intro hNot n hReport _ ks hPos hSum
    rcases Reader.report_le hBuilt hReport with hLe | ⟨hPhantom, hLe⟩
    · exact Reader.completes_of_le_avail hBuilt hPos (by omega)
    · by_cases hStuck : r.drained.Stuck
      · have hFits : ¬ r.avail + 1 < 2 ^ 64 := fun hFits => hNot ⟨hPhantom, hStuck, hFits⟩
        have hLe' := hPhantom.report_le_avail hBuilt hFits hReport
        exact Reader.completes_of_le_avail hBuilt hPos (by omega)
      · exact Reader.completes_of_phantom hBuilt hPhantom hStuck hPos (by omega)

theorem num_ready_bytes_sound_iff_chains :
    Reader.Sound .debug (.bufReader (.chain .empty (.slice [7]) false) [1, 2] 4) ∧
    ¬ Reader.Sound .debug
      (.bufReader (.take (.chain .empty (.handle ⟨[], false, []⟩) false) 2) [1] 4) := by
  constructor
  · have hBuilt : Reader.Built (.bufReader (.chain .empty (.slice [7]) false) [1, 2] 4) :=
      ⟨⟨trivial, trivial, fun h => absurd h (by decide)⟩, by decide⟩
    apply (num_ready_bytes_sound_iff .debug hBuilt).mpr
    rintro ⟨-, ⟨-, hStuck⟩, -⟩
    rcases hStuck with hEmpty | ⟨-, hSlice⟩
    · exact hEmpty
    · exact hSlice
  · intro hSound
    have hBuilt : Reader.Built
        (.bufReader (.take (.chain .empty (.handle ⟨[], false, []⟩) false) 2) [1] 4) :=
      ⟨⟨⟨trivial, trivial, fun h => absurd h (by decide)⟩, by decide⟩, by decide⟩
    refine (num_ready_bytes_sound_iff .debug hBuilt).mp hSound ⟨⟨trivial, ?_⟩, ?_, ?_⟩
    · show 0 < 2
      decide
    · exact ⟨rfl, by decide, Or.inr ⟨trivial, rfl, rfl⟩⟩
    · show 1 + min 2 0 + 1 < 2 ^ 64
      decide

/-- Behind an `Empty` the read of the byte that it reports blocks. -/
theorem chain_behind_empty_blocks :
    ¬ ∀ (p : Profile) (r : Reader Stream), r.Built → r.Sound p := by
  intro h
  have hSound := h .debug (.chain .empty (.handle ⟨[], false, []⟩) false)
    ⟨trivial, trivial, fun hDone => absurd hDone (by decide)⟩
  obtain ⟨bytes, r', hRead, -⟩ := hSound 1 rfl Nat.one_pos [1] (by decide) (by decide)
  have hBlocks : (Reader.chain .empty (.handle ⟨[], false, []⟩) false : Reader Stream).read 1 =
      none := rfl
  rw [hBlocks] at hRead
  exact absurd hRead (by simp)

end SystemInterface
