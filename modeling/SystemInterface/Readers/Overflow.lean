import SystemInterface.Readers.Definitions

/-!
# SystemInterface — overflow in `num_ready_bytes`

`num_ready_bytes` subtracts a position from a length and adds the length of a
buffer to what an inner reader reports, both unchecked. The operations stay in
the range of a `u64` exactly if on the way to the source that answers no
position lies past the end and every `BufReader` has room for its buffer beside
the inner report.

Main results:

* `Reader.InRange.reports`, `Reader.panics_of_not_inRange` — the two cases;
* `num_ready_bytes_in_range_iff` — there is no overflow exactly in range.
-/

namespace SystemInterface

-- ---------------------------------------------------------------------------
-- What the types admit
-- ---------------------------------------------------------------------------

/-- The numbers are `u64`s. -/
structure File.Typed (f : File) : Prop where
  len : ∀ m, f.metadata = .ok m → m.len < 2 ^ 64
  current : ∀ pos, f.current = .ok pos → pos < 2 ^ 64
  fionread : ∀ n, f.ioctlFionread = .ok n → n < 2 ^ 64

/-- The position of a regular file is not past its end. -/
def File.InRange (f : File) : Prop :=
  ∀ write m pos, f.isReadWrite = .ok (true, write) → f.metadata = .ok m → m.isFile = true →
    f.current = .ok pos → pos ≤ m.len

/-- The bytes left in a regular file, or ready in another one. -/
def File.left (f : File) : Nat :=
  match f.isReadWrite, f.metadata with
  | .ok (true, _), .ok m =>
    if m.isFile then
      match f.current with
      | .ok pos => m.len - pos
      | .error _ => 0
    else
      match f.ioctlFionread with
      | .ok n => n
      | .error _ => 0
  | _, _ => 0

namespace Reader

/-- The lengths are those of slices, buffers and deques, the positions and the
limits `u64`s. -/
def Typed : Reader File → Prop
  | handle f => f.Typed
  | slice bytes => bytes.length ≤ isizeMax
  | empty => True
  | repeat_ _ => True
  | vecDeque front back => front.length + back.length < 2 ^ 64
  | box r => r.Typed
  | bufReader inner buffer capacity =>
    inner.Typed ∧ buffer.length ≤ capacity ∧ capacity ≤ isizeMax
  | cursor bytes pos => bytes.length ≤ isizeMax ∧ pos < 2 ^ 64
  | take inner limit => inner.Typed ∧ limit < 2 ^ 64
  | chain first second _ => first.Typed ∧ second.Typed

/-- Beside the report of the reader there is room for `k` in a `u64`. -/
def Fits : Reader File → Nat → Prop
  | handle f, k => f.left + k < 2 ^ 64
  | slice bytes, k => bytes.length + k < 2 ^ 64
  | empty, k => 1 + k < 2 ^ 64
  | repeat_ _, k => k = 0
  | vecDeque front back, k => front.length + back.length + k < 2 ^ 64
  | box r, k => r.Fits k
  | bufReader inner buffer _, k => inner.Fits (buffer.length + k)
  | cursor bytes pos, k => bytes.length - pos + k < 2 ^ 64
  | take inner limit, k => limit + k < 2 ^ 64 ∨ inner.Fits k
  | chain first _ _, k => first.Fits k

/-- On the way to the source that answers no position is past the end, and every
`BufReader` has room for its buffer. -/
def InRange : Reader File → Prop
  | handle f => f.InRange
  | box r => r.InRange
  | bufReader inner buffer _ => inner.InRange ∧ inner.Fits buffer.length
  | cursor bytes pos => pos ≤ bytes.length
  | take inner _ => inner.InRange
  | chain first _ _ => first.InRange
  | _ => True

/-- No operation of the call leaves the range: with overflow checks it does not
panic, and without them it returns the same. -/
def NoOverflow (r : Reader File) : Prop :=
  (∀ message, r.numReadyBytes .debug ≠ .error (.panic message)) ∧
    r.numReadyBytes .release = r.numReadyBytes .debug

end Reader

-- ---------------------------------------------------------------------------
-- In range
-- ---------------------------------------------------------------------------

/-- The number a report takes up in the sum of a `BufReader`. -/
def reported : Except IoError Nat → Nat
  | .ok n => n
  | .error _ => 0

/-- A file reports what the system answers, or the difference of two answers. -/
inductive File.Reports (f : File) : Prop where
  | answer (o : Except IoError Nat) (eq : ∀ p, f.numReadyBytes p = Result.ofIo o)
      (left : f.left = reported o) (inRange : f.InRange)
  | difference (write : Bool) (m : Metadata) (pos : Nat)
      (isReadWrite : f.isReadWrite = .ok (true, write)) (metadata : f.metadata = .ok m)
      (isFile : m.isFile = true) (current : f.current = .ok pos)
      (eq : ∀ p, f.numReadyBytes p = p.sub m.len pos) (left : f.left = m.len - pos)

theorem File.reports (f : File) : f.Reports := by
  obtain ⟨access, metadata, current, fionread⟩ := f
  rcases access with e | ⟨_ | _, write⟩
  · exact .answer (.error e) (fun _ => rfl) rfl fun _ _ _ h => absurd h (by simp)
  · exact .answer (.error streamIsNotReadable) (fun _ => rfl) rfl fun _ _ _ h =>
      absurd h (by simp)
  rcases metadata with e | ⟨len, _ | _⟩
  · exact .answer (.error e) (fun _ => rfl) rfl fun _ _ _ _ h => absurd h (by simp)
  · -- not a regular file
    have hInRange : File.InRange ⟨.ok (true, write), .ok ⟨len, false⟩, current, fionread⟩ := by
      intro _ m _ _ hm hFile
      obtain rfl := Except.ok.inj hm
      exact absurd hFile Bool.false_ne_true
    rcases fionread with e | n
    · exact .answer (.ok 0) (fun _ => rfl) rfl hInRange
    · exact .answer (.ok n) (fun _ => rfl) rfl hInRange
  · rcases current with e | pos
    · exact .answer (.error e) (fun _ => rfl) rfl fun _ _ _ _ _ _ h => absurd h (by simp)
    · exact .difference write ⟨len, true⟩ pos rfl rfl rfl rfl (fun _ => rfl) rfl

namespace Reader

/-- What a reader in range reports, in every build. -/
structure Reports (r : Reader File) (o : Except IoError Nat) : Prop where
  eq : ∀ p, r.numReadyBytes p = Result.ofIo o
  fits : ∀ k, r.Fits k ↔ reported o + k < 2 ^ 64

/-- A `BufReader` with room for its buffer reports the sum, or what is buffered
if the inner reader fails. -/
theorem Reports.bufReader {inner : Reader File} {o : Except IoError Nat} (h : inner.Reports o)
    {buffer : List UInt8} (hRoom : inner.Fits buffer.length) (capacity : Nat) :
    ∃ o', Reports (.bufReader inner buffer capacity) o' := by
  obtain ⟨hEq, hFits⟩ := h
  rw [hFits] at hRoom
  rcases o with e | n
  · cases hEmpty : buffer.isEmpty with
    | true =>
      obtain rfl := List.isEmpty_iff.mp hEmpty
      refine ⟨.error e, fun p => ?_, fun k => ?_⟩
      · unfold numReadyBytes
        rw [hEq p]
        rfl
      · show inner.Fits (0 + k) ↔ _
        rw [hFits, Nat.zero_add]
    | false =>
      refine ⟨.ok buffer.length, fun p => ?_, fun k => ?_⟩
      · unfold numReadyBytes
        rw [hEq p, hEmpty]
        rfl
      · show inner.Fits (buffer.length + k) ↔ _
        rw [hFits]
        show 0 + (buffer.length + k) < 2 ^ 64 ↔ buffer.length + k < 2 ^ 64
        omega
  · have hSum : buffer.length + n < 2 ^ 64 := by
      have hLt : n + buffer.length < 2 ^ 64 := hRoom
      omega
    refine ⟨.ok (buffer.length + n), fun p => ?_, fun k => ?_⟩
    · unfold numReadyBytes
      rw [hEq p]
      exact p.add_of_lt hSum
    · show inner.Fits (buffer.length + k) ↔ _
      rw [hFits]
      show n + (buffer.length + k) < 2 ^ 64 ↔ buffer.length + n + k < 2 ^ 64
      omega

theorem Reports.take {inner : Reader File} {o : Except IoError Nat} (h : inner.Reports o)
    (limit : Nat) : ∃ o', Reports (.take inner limit) o' := by
  obtain ⟨hEq, hFits⟩ := h
  rcases o with e | n
  · refine ⟨.error e, fun p => ?_, fun k => ?_⟩
    · unfold numReadyBytes
      rw [hEq p]
      rfl
    · have hInner : inner.Fits k ↔ 0 + k < 2 ^ 64 := hFits k
      show limit + k < 2 ^ 64 ∨ inner.Fits k ↔ 0 + k < 2 ^ 64
      rw [hInner]
      omega
  · refine ⟨.ok (min limit n), fun p => ?_, fun k => ?_⟩
    · unfold numReadyBytes
      rw [hEq p]
      rfl
    · have hInner : inner.Fits k ↔ n + k < 2 ^ 64 := hFits k
      show limit + k < 2 ^ 64 ∨ inner.Fits k ↔ min limit n + k < 2 ^ 64
      rw [hInner]
      omega

/-- **In range, every build reports the same**, and nothing panics. -/
theorem InRange.reports {r : Reader File} (h : r.InRange) : ∃ o, r.Reports o := by
  induction r with
  | handle f =>
    rcases f.reports with ⟨o, hEq, hLeft, -⟩ | ⟨write, m, pos, hr, hm, hFile, hPos, hEq, hLeft⟩
    · refine ⟨o, hEq, fun k => ?_⟩
      rw [← hLeft]
      rfl
    · have hLe : pos ≤ m.len := h write m pos hr hm hFile hPos
      refine ⟨.ok (m.len - pos), fun p => (hEq p).trans (p.sub_of_le hLe), fun k => ?_⟩
      show f.left + k < 2 ^ 64 ↔ m.len - pos + k < 2 ^ 64
      rw [hLeft]
  | slice bytes => exact ⟨.ok bytes.length, fun _ => rfl, fun _ => Iff.rfl⟩
  | empty => exact ⟨.ok 1, fun _ => rfl, fun _ => Iff.rfl⟩
  | repeat_ byte =>
    refine ⟨.ok (2 ^ 64 - 1), fun _ => rfl, fun k => ?_⟩
    show k = 0 ↔ 2 ^ 64 - 1 + k < 2 ^ 64
    omega
  | vecDeque front back =>
    exact ⟨.ok (front.length + back.length), fun _ => rfl, fun _ => Iff.rfl⟩
  | box r ih =>
    obtain ⟨o, hEq, hFits⟩ := ih h
    exact ⟨o, hEq, hFits⟩
  | bufReader inner buffer capacity ih =>
    obtain ⟨hInner, hRoom⟩ := h
    obtain ⟨o, hReports⟩ := ih hInner
    exact hReports.bufReader hRoom capacity
  | cursor bytes pos =>
    exact ⟨.ok (bytes.length - pos), fun p => p.sub_of_le h, fun _ => Iff.rfl⟩
  | take inner limit ih =>
    obtain ⟨o, hReports⟩ := ih h
    exact hReports.take limit
  | chain first second doneFirst ih _ =>
    obtain ⟨o, hEq, hFits⟩ := ih h
    exact ⟨o, hEq, hFits⟩

-- ---------------------------------------------------------------------------
-- Out of range
-- ---------------------------------------------------------------------------

theorem sub_panics {a b : Nat} (h : a < b) :
    ∃ message, Profile.debug.sub a b = .error (.panic message) := by
  unfold Profile.sub
  rw [if_neg (Nat.not_le.mpr h)]
  exact ⟨_, rfl⟩

theorem add_panics {a b : Nat} (h : 2 ^ 64 ≤ a + b) :
    ∃ message, Profile.debug.add a b = .error (.panic message) := by
  unfold Profile.add
  rw [if_neg (Nat.not_lt.mpr h)]
  exact ⟨_, rfl⟩

/-- **Out of range, the call panics** in a build with overflow checks. -/
theorem panics_of_not_inRange {r : Reader File} (hTyped : r.Typed) (h : ¬ r.InRange) :
    ∃ message, r.numReadyBytes .debug = .error (.panic message) := by
  induction r with
  | handle f =>
    rcases f.reports with ⟨o, -, -, hInRange⟩ | ⟨write, m, pos, hr, hm, hFile, hPos, hEq, -⟩
    · exact absurd hInRange h
    · have hLt : m.len < pos := by
        by_contra hLe
        apply h
        intro write' m' pos' _ hm' _ hPos'
        obtain rfl := Except.ok.inj (hm.symm.trans hm')
        obtain rfl := Except.ok.inj (hPos.symm.trans hPos')
        exact Nat.not_lt.mp hLe
      obtain ⟨message, hPanic⟩ := sub_panics hLt
      exact ⟨message, (hEq .debug).trans hPanic⟩
  | slice => exact absurd trivial h
  | empty => exact absurd trivial h
  | repeat_ => exact absurd trivial h
  | vecDeque => exact absurd trivial h
  | box r ih => exact ih hTyped h
  | bufReader inner buffer capacity ih =>
    by_cases hInner : inner.InRange
    · obtain ⟨o, hEq, hFits⟩ := hInner.reports
      have hRoom : ¬ reported o + buffer.length < 2 ^ 64 := fun hRoom =>
        h ⟨hInner, (hFits _).mpr hRoom⟩
      rcases o with e | n
      · -- a buffer alone fits into a `u64`
        have hLe := Nat.le_trans hTyped.2.1 hTyped.2.2
        unfold isizeMax at hLe
        exact absurd (show 0 + buffer.length < 2 ^ 64 by omega) hRoom
      · have hSum : ¬ n + buffer.length < 2 ^ 64 := hRoom
        obtain ⟨message, hPanic⟩ := add_panics (show 2 ^ 64 ≤ buffer.length + n by omega)
        refine ⟨message, ?_⟩
        unfold numReadyBytes
        rw [hEq]
        exact hPanic
    · obtain ⟨message, hPanic⟩ := ih hTyped.1 hInner
      refine ⟨message, ?_⟩
      unfold numReadyBytes
      rw [hPanic]
  | cursor bytes pos => exact sub_panics (Nat.not_le.mp h)
  | take inner limit ih =>
    obtain ⟨message, hPanic⟩ := ih hTyped.1 h
    refine ⟨message, ?_⟩
    unfold numReadyBytes
    rw [hPanic]
    rfl
  | chain first second doneFirst ih _ => exact ih hTyped.1 h

theorem noOverflow_iff {r : Reader File} (hTyped : r.Typed) : r.NoOverflow ↔ r.InRange := by
  constructor
  · rintro ⟨hNoPanic, -⟩
    by_contra hNot
    obtain ⟨message, hPanic⟩ := panics_of_not_inRange hTyped hNot
    exact hNoPanic message hPanic
  · intro hInRange
    obtain ⟨o, hEq, -⟩ := hInRange.reports
    refine ⟨fun message hPanic => ?_, (hEq .release).trans (hEq .debug).symm⟩
    rw [hEq] at hPanic
    cases o <;> exact absurd hPanic (by simp [Result.ofIo])

end Reader

-- ---------------------------------------------------------------------------
-- Results
-- ---------------------------------------------------------------------------

theorem sub_eq_zero_iff (p : Profile) {a b : Nat} (hLe : a ≤ b) (hb : b < 2 ^ 64) :
    p.sub a b = .ok 0 ↔ b = a := by
  constructor
  · intro hSub
    by_contra hne
    unfold Profile.sub at hSub
    rw [if_neg (by omega)] at hSub
    cases p with
    | debug => exact absurd hSub (by simp)
    | release =>
      have hZero := Except.ok.inj hSub
      omega
  · rintro rfl
    rw [p.sub_of_le (Nat.le_refl _), Nat.sub_self]

/-- **Overflow in `num_ready_bytes`.** The operations of the call stay in the
range of a `u64` exactly for the readers in range. At or past its end, a cursor
or a regular file reports 0 exactly if it is at the end. -/
theorem num_ready_bytes_in_range_iff (p : Profile) {r : Reader File} (hTyped : r.Typed) :
    (r.NoOverflow ↔ r.InRange) ∧
    (∀ bytes pos, r = .cursor bytes pos → bytes.length ≤ pos →
      (r.numReadyBytes p = .ok 0 ↔ pos = bytes.length)) ∧
    (∀ f write m pos, r = .handle f → f.isReadWrite = .ok (true, write) →
      f.metadata = .ok m → m.isFile = true → f.current = .ok pos → m.len ≤ pos →
      (r.numReadyBytes p = .ok 0 ↔ pos = m.len)) := by
  refine ⟨Reader.noOverflow_iff hTyped, ?_, ?_⟩
  · rintro bytes pos rfl hLe
    exact sub_eq_zero_iff p hLe hTyped.2
  · rintro f write m pos rfl hr hm hFile hPos hLe
    have hEq : (Reader.handle f).numReadyBytes p = p.sub m.len pos := by
      show f.numReadyBytes p = _
      unfold File.numReadyBytes
      rw [hr, hm, hPos]
      show (if m.isFile = true then p.sub m.len pos else _) = _
      rw [if_pos hFile]
    rw [hEq]
    exact sub_eq_zero_iff p hLe (hTyped.current pos hPos)

theorem num_ready_bytes_in_range_iff_readers :
    Reader.NoOverflow (.bufReader (.take (.chain (.cursor [1, 2, 3] 1) .empty false) 2) [9] 8) ∧
    ¬ Reader.NoOverflow (.bufReader (.repeat_ 0) [9] 8) ∧
    (Reader.cursor [1, 2, 3] 3 : Reader File).numReadyBytes .release = .ok 0 := by
  refine ⟨?_, fun h => ?_, ?_⟩
  · have hTyped : Reader.Typed
        (.bufReader (.take (.chain (.cursor [1, 2, 3] 1) .empty false) 2) [9] 8) :=
      ⟨⟨⟨⟨by decide, by decide⟩, trivial⟩, by decide⟩, by decide, by decide⟩
    refine (num_ready_bytes_in_range_iff .debug hTyped).1.mpr ⟨?_, Or.inl (by decide)⟩
    show 1 ≤ 3
    decide
  · have hTyped : Reader.Typed (.bufReader (.repeat_ 0) [9] 8) := ⟨trivial, by decide, by decide⟩
    have hFits := ((num_ready_bytes_in_range_iff .debug hTyped).1.mp h).2
    exact absurd hFits (show ¬ 1 = 0 by decide)
  · have hTyped : (Reader.cursor [1, 2, 3] 3 : Reader File).Typed := ⟨by decide, by decide⟩
    exact ((num_ready_bytes_in_range_iff .release hTyped).2.1 _ _ rfl (by decide)).mpr rfl

/-- A cursor past its end makes the subtraction underflow. -/
theorem cursor_past_end_overflows : ¬ ∀ r : Reader File, r.Typed → r.NoOverflow := by
  intro h
  have hTyped : (Reader.cursor [1, 2, 3] 4 : Reader File).Typed := ⟨by decide, by decide⟩
  exact (h _ hTyped).1 _ rfl

end SystemInterface
