import SystemInterface.Lib.Pieces
import SystemInterface.Shared.Definitions

/-!
# SystemInterface — reading a file that others change

What `read_exact_at` leaves of its buffer, whatever the others do and whichever calls
fail: bytes that were read piece by piece from what the file held at each call, from
the front of the buffer on, and behind them what was there before. It fails for a
reason that one of the calls gave, and returns if finitely many are interrupted.

Main results:

* `Delivered.readAt` — one call;
* `ReadLoop.delivers` — the loops of both systems;
* `readExactAt_delivers`, `Windows.readExactAt_delivers` — the read on both systems.
-/

namespace SystemInterface.Shared

open Effect

-- ---------------------------------------------------------------------------
-- Schedules
-- ---------------------------------------------------------------------------

namespace Others

variable (others : Others)

/-- What the file holds at the `i`-th call after `d`. -/
def contents (d : Device) : Nat → Content
  | 0 => d.content
  | i + 1 => (others (d.steps + i)).content

/-- Only calls before the `N`-th one are interrupted. -/
def InterruptedBefore (N : Nat) : Prop := ∀ i, (others i).outcome = .fail .INTR → i < N

def FinitelyInterrupted : Prop := ∃ N, others.InterruptedBefore N

/-- There were `n` calls after `d₀`: the file is what the others made of it, the
position is where it was, and what was taken down was in the file. -/
structure Passed (d₀ : Device) (n : Nat) (d : Device) : Prop where
  steps : d.steps = d₀.steps + n
  content : d.content = others.contents d₀ n
  pos : d.pos = d₀.pos
  sound : ∀ byte position, (byte, position) ∈ d.reads → (byte, position) ∈ d₀.reads ∨
    ∃ i, i < n ∧ (others.contents d₀ i).bytes[position]? = some byte

namespace Passed

variable {others : Others} {d₀ d₁ d : Device} {m n : Nat}

theorem start (others : Others) (d : Device) : others.Passed d 0 d :=
  ⟨rfl, rfl, rfl, fun _ _ h => Or.inl h⟩

theorem contents_eq (h : others.Passed d₀ m d₁) (i : Nat) :
    others.contents d₁ i = others.contents d₀ (m + i) := by
  cases i with
  | zero => exact h.content
  | succ i =>
    show (others (d₁.steps + i)).content = (others (d₀.steps + (m + i))).content
    rw [h.steps, Nat.add_assoc]

theorem trans (h : others.Passed d₀ m d₁) (h' : others.Passed d₁ n d) :
    others.Passed d₀ (m + n) d where
  steps := by rw [h'.steps, h.steps, Nat.add_assoc]
  content := h'.content.trans (h.contents_eq n)
  pos := h'.pos.trans h.pos
  sound byte position hMem := by
    rcases h'.sound byte position hMem with hOld | ⟨i, hi, hAt⟩
    · rcases h.sound byte position hOld with hOlder | ⟨i, hi, hAt⟩
      · exact Or.inl hOlder
      · exact Or.inr ⟨i, by omega, hAt⟩
    · exact Or.inr ⟨m + i, by omega, h.contents_eq i ▸ hAt⟩

/-- A call that reads nothing, or takes down what it reads. -/
theorem after (h : others.Passed d₀ n d) {d' : Device} (hSteps : d'.steps = d.steps)
    (hPos : d'.pos = d.pos)
    (hSound : ∀ byte position, (byte, position) ∈ d'.reads → (byte, position) ∈ d.reads ∨
      d.content.bytes[position]? = some byte) :
    others.Passed d₀ (n + 1) (d'.after (others d.steps)) where
  steps := by
    show d'.steps + 1 = d₀.steps + (n + 1)
    rw [hSteps, h.steps, Nat.add_assoc]
  content := by
    show (others d.steps).content = (others (d₀.steps + n)).content
    rw [h.steps]
  pos := hPos.trans h.pos
  sound byte position hMem := by
    rcases hSound byte position hMem with hOld | hAt
    · rcases h.sound byte position hOld with hOlder | ⟨i, hi, hAt⟩
      · exact Or.inl hOlder
      · exact Or.inr ⟨i, Nat.lt_succ_of_lt hi, hAt⟩
    · exact Or.inr ⟨n, Nat.lt_succ_self n, h.content ▸ hAt⟩

end Passed

end Others

variable {others : Others} {α : Type} {d₀ d₁ d : Device} {addrs : List Nat}
  {m n offset len k : Nat} {bytes : List UInt8} {N : Nat}

/-- One call, which fails as the schedule has it or is carried out. -/
theorem call_wp {x : Nat → Device → Result α × Device} {Post : Result α → Device → Prop}
    (hFail : ∀ e, (others d.steps).outcome = .fail e →
      Post (.error (.err (.os e))) (d.after (others d.steps)))
    (hGo : ∀ count, Post (x count d).1 ((x count d).2.after (others d.steps))) :
    (others.step x).wp d Post := by
  apply Proc.wp_ofStep
  cases hOutcome : (others d.steps).outcome with
  | fail e => exact hFail e hOutcome
  | go count => exact hGo count

-- ---------------------------------------------------------------------------
-- What a read gets
-- ---------------------------------------------------------------------------

/-- The bytes were read from `offset` on, in the first `n` calls after `d₀`. -/
structure ReadIn (others : Others) (d₀ : Device) (offset n : Nat) (bytes : List UInt8)
    (d : Device) : Prop where
  pieces : Pieced (fun i => (others.contents d₀ i).bytes) offset n bytes
  noted : d.WasRead offset bytes

/-- Why a read of `len` bytes failed that has got `k` of them in `n` calls after `d₀`:
the last call failed and was not interrupted, or the file ended at that call. -/
inductive ReadFailed (others : Others) (d₀ : Device) (offset len n k : Nat) : Fault → Prop where
  | call {i : Nat} {e : Errno} : i + 1 = n → (others (d₀.steps + i)).outcome = .fail e →
      e ≠ .INTR → k = 0 ∨ k < len → ReadFailed others d₀ offset len n k (.err (.os e))
  | ended {i : Nat} : i + 1 = n → (others.contents d₀ i).bytes.length ≤ offset + k → k < len →
      ReadFailed others d₀ offset len n k failedToFill

/-- How a read of `len` bytes ends that has got `k` of them. An offset past every position
may be refused. -/
def Closed (others : Others) (d₀ : Device) (offset len n k : Nat) : Result Unit → Prop
  | .ok () => k = len
  | .error f => ReadFailed others d₀ offset len n k f ∨
      k = 0 ∧ i64Max < offset ∧ f = Windows.negativeSeek

theorem ReadIn.nil (others : Others) (d₀ : Device) (offset n : Nat) (d : Device) :
    ReadIn others d₀ offset n [] d :=
  ⟨Pieced.nil n, List.nil_subset _⟩

/-- The calls before the read count as well. -/
theorem ReadIn.later (hPassed : others.Passed d₀ m d₁) (h : ReadIn others d₁ offset n bytes d) :
    ReadIn others d₀ offset (m + n) bytes d := by
  refine ⟨Pieced.later m ?_, h.noted⟩
  have hPieces := h.pieces
  simp only [hPassed.contents_eq] at hPieces
  exact hPieces

/-- Bytes that were read lie at positions. -/
theorem ReadIn.inFile (h : ReadIn others d₀ offset n bytes d) :
    bytes = [] ∨ offset + bytes.length ≤ i64Max :=
  h.pieces.length_le fun i => (others.contents d₀ i).len_le

namespace ReadFailed

variable {f : Fault}

theorem of_outcome {e : Errno} (h : others.Passed d₀ n d)
    (hOutcome : (others d.steps).outcome = .fail e) (hIntr : e ≠ .INTR) (hShort : k = 0 ∨ k < len) :
    ReadFailed others d₀ offset len (n + 1) k (.err (.os e)) := by
  rw [h.steps] at hOutcome
  exact .call rfl hOutcome hIntr hShort

theorem of_end (h : others.Passed d₀ n d) (hEnd : d.content.bytes.length ≤ offset + k)
    (hShort : k < len) : ReadFailed others d₀ offset len (n + 1) k failedToFill := by
  rw [h.content] at hEnd
  exact .ended rfl hEnd hShort

theorem later (hPassed : others.Passed d₀ m d₁) (h : ReadFailed others d₁ offset len n k f) :
    ReadFailed others d₀ offset len (m + n) k f := by
  cases h with
  | @call i e hi hOutcome hIntr hShort =>
    rw [hPassed.steps, Nat.add_assoc] at hOutcome
    exact .call (by omega) hOutcome hIntr hShort
  | @ended i hi hEnd hShort =>
    rw [hPassed.contents_eq] at hEnd
    exact .ended (by omega) hEnd hShort

theorem short (h : ReadFailed others d₀ offset len n k f) : k = 0 ∨ k < len := by
  cases h with
  | call _ _ _ hShort => exact hShort
  | ended _ _ hShort => exact Or.inr hShort

end ReadFailed

namespace Closed

theorem later {r : Result Unit} (hPassed : others.Passed d₀ m d₁)
    (h : Closed others d₁ offset len n k r) : Closed others d₀ offset len (m + n) k r := by
  cases r with
  | ok u => exact h
  | error f => exact Or.imp_left (ReadFailed.later hPassed) h

/-- An offset in range is not refused. -/
theorem failed {f : Fault} (h : Closed others d₀ offset len n k (.error f))
    (hOffset : offset ≤ i64Max) : ReadFailed others d₀ offset len n k f :=
  Or.resolve_right h fun hRefused => Nat.not_le.mpr hRefused.2.1 hOffset

end Closed

-- ---------------------------------------------------------------------------
-- The bytes that were delivered
-- ---------------------------------------------------------------------------

/-- Bytes that were read from the file, the first of them at `offset`, were put at
the first of the addresses. -/
structure Delivered (others : Others) (d₀ : Device) (addrs : List Nat) (offset n : Nat)
    (bytes : List UInt8) (d : Device) : Prop where
  passed : others.Passed d₀ n d
  readIn : ReadIn others d₀ offset n bytes d
  le : bytes.length ≤ addrs.length
  mem : d.mem = store d₀.mem addrs bytes

namespace Delivered

theorem start (others : Others) (d : Device) (addrs : List Nat) (offset : Nat) :
    Delivered others d addrs offset 0 [] d :=
  ⟨.start others d, .nil others d offset 0 d, Nat.zero_le _, (store_nil_right _ _).symm⟩

/-- The handle aside does not matter. -/
theorem setReopened (h : Delivered others d₀ addrs offset n bytes d) (reopened : Nat) :
    Delivered others d₀ addrs offset n bytes { d with reopened } :=
  ⟨⟨h.passed.steps, h.passed.content, h.passed.pos, h.passed.sound⟩,
    ⟨h.readIn.pieces, h.readIn.noted⟩, h.le, h.mem⟩

/-- A call that reads nothing. -/
theorem after (h : Delivered others d₀ addrs offset n bytes d) :
    Delivered others d₀ addrs offset (n + 1) bytes (d.after (others d.steps)) :=
  ⟨h.passed.after rfl rfl fun _ _ => Or.inl, ⟨h.readIn.pieces.wait, h.readIn.noted⟩, h.le, h.mem⟩

/-- **One read** goes on where the last one ended. -/
theorem readAt (h : Delivered others d₀ addrs offset n bytes d) {buf : Slice}
    (hAddrs : buf.addrs = addrs.drop bytes.length) (count : Nat) :
    ∃ bytes', bytes'.length = bytes.length + (d.readAt buf (offset + bytes.length) count).1 ∧
      Delivered others d₀ addrs offset (n + 1) bytes'
        ((d.readAt buf (offset + bytes.length) count).2.after (others d.steps)) := by
  set data := d.content.bytes.drop (offset + bytes.length) with hData
  set size := shortCount count (min buf.len data.length) with hSize
  have hLe : size ≤ min buf.len data.length := shortCount_le ..
  have hTake : (data.take size).length = size := by
    rw [List.length_take]
    omega
  have hRoom : buf.len = addrs.length - bytes.length := by
    rw [← Slice.length_addrs, hAddrs, List.length_drop]
  have hFits := h.le
  refine ⟨bytes ++ data.take size, ?_, h.passed.after rfl rfl ?_, ⟨?_, ?_⟩, ?_, ?_⟩
  · rw [List.length_append, hTake]
    rfl
  · -- what is taken down was in the file
    intro byte position hMem
    refine (List.mem_append.mp hMem).imp_right fun hNew => ?_
    obtain ⟨hFrom, hAt⟩ := List.mk_mem_zipIdx_iff_le_and_getElem?_sub.mp hNew
    rw [List.getElem?_take] at hAt
    split at hAt
    · rwa [List.getElem?_drop, Nat.add_sub_cancel' hFrom] at hAt
    · exact absurd hAt (by simp)
  · refine h.readIn.pieces.piece ?_
    rw [← h.passed.content]
    exact List.take_prefix size data
  · show (bytes ++ data.take size).zipIdx offset ⊆
      d.reads ++ (data.take size).zipIdx (offset + bytes.length)
    rw [List.zipIdx_append]
    exact List.append_subset.mpr ⟨List.Subset.trans h.readIn.noted (List.subset_append_left ..),
      List.subset_append_right ..⟩
  · rw [List.length_append, hTake]
    omega
  · show store d.mem buf.addrs (data.take size) = _
    rw [h.mem, hAddrs, store_append]

end Delivered

/-- A read into a buffer gets nothing at the end of the file only. -/
theorem readAt_zero {buf : Slice} {count : Nat} (hne : buf.len ≠ 0)
    (hZero : (d.readAt buf offset count).1 = 0) : d.content.bytes.length ≤ offset := by
  have hMin : min buf.len (d.content.bytes.drop offset).length = 0 := shortCount_eq_zero.mp hZero
  rw [List.length_drop] at hMin
  omega

-- ---------------------------------------------------------------------------
-- Loops
-- ---------------------------------------------------------------------------

/-- A loop has delivered `k` bytes; `Here` says where the handle stands that it reads from. -/
def Stands (others : Others) (Here : Nat → Device → Prop) (d₀ : Device) (addrs : List Nat)
    (offset k : Nat) (d : Device) : Prop :=
  Here (offset + k) d ∧
    ∃ n bytes, bytes.length = k ∧ Delivered others d₀ addrs offset n bytes d

/-- A run of `read_exact_at` has delivered the first bytes of a buffer, all of them or as
many as it got. -/
def Delivers (others : Others) (d₀ : Device) (buf : Slice) (offset : Nat) (r : Result Unit)
    (d : Device) : Prop :=
  ∃ n bytes, Delivered others d₀ buf.addrs offset n bytes d ∧
    Closed others d₀ offset buf.len n bytes.length r

/-- What one call makes of a loop that has delivered `k` bytes. -/
def Goes (others : Others) (Here : Nat → Device → Prop) (d₀ : Device) (buf : Slice)
    (offset k : Nat) (d : Device) : Result Nat → Device → Prop
  | .ok size, d' => Stands others Here d₀ buf.addrs offset (k + size) d' ∧
      d'.steps = d.steps + 1 ∧ (size = 0 → Delivers others d₀ buf offset (.error failedToFill) d')
  | .error f, d' => Stands others Here d₀ buf.addrs offset k d' ∧ d'.steps = d.steps + 1 ∧
      ∃ e, f = .err (.os e) ∧ (others d.steps).outcome = .fail e ∧
        (e ≠ .INTR → Delivers others d₀ buf offset (.error f) d')

theorem Stands.le {Here : Nat → Device → Prop} {buf : Slice}
    (h : Stands others Here d₀ buf.addrs offset k d) : k ≤ buf.len := by
  obtain ⟨-, n, bytes, rfl, hDelivered⟩ := h
  have hLe := hDelivered.le
  rwa [Slice.length_addrs] at hLe

/-- **One call of a loop**, if it is a read of what is left of the buffer. -/
theorem read_goes {Here : Nat → Device → Prop} {buf left : Slice}
    {x : Nat → Device → Result Nat × Device} (moved : Nat → Nat)
    (h : Delivered others d₀ buf.addrs offset n bytes d)
    (hAddrs : left.addrs = buf.addrs.drop bytes.length) (hne : left.len ≠ 0)
    (hx : ∀ count, x count d = (.ok (d.readAt left (offset + bytes.length) count).1,
      { (d.readAt left (offset + bytes.length) count).2 with reopened := moved count }))
    (hStays : Here (offset + bytes.length) (d.after (others d.steps)))
    (hMoves : ∀ count, Here (offset + (bytes.length +
      (d.readAt left (offset + bytes.length) count).1)) ((x count d).2.after (others d.steps))) :
    (others.step x).wp d (Goes others Here d₀ buf offset bytes.length d) := by
  have hShort : bytes.length < buf.len := by
    have hLen := congrArg List.length hAddrs
    rw [Slice.length_addrs, List.length_drop, Slice.length_addrs] at hLen
    omega
  refine call_wp (fun e hOutcome => ?_) fun count => ?_
  · refine ⟨⟨hStays, n + 1, bytes, rfl, h.after⟩, rfl, e, rfl, hOutcome, fun hIntr => ?_⟩
    exact ⟨n + 1, bytes, h.after, Or.inl (.of_outcome h.passed hOutcome hIntr (Or.inr hShort))⟩
  · obtain ⟨bytes', hLen', h'⟩ := h.readAt hAddrs count
    have hHere := hMoves count
    rw [hx count] at hHere ⊢
    refine ⟨⟨hHere, n + 1, bytes', hLen', h'.setReopened (moved count)⟩, rfl, fun hZero => ?_⟩
    -- nothing was read, as the file has ended
    rw [hZero, Nat.add_zero] at hLen'
    refine ⟨n + 1, bytes', h'.setReopened (moved count), ?_⟩
    rw [hLen']
    exact Or.inl (.of_end h.passed (readAt_zero hne hZero) hShort)

/-- A loop that reads a buffer, call by call. -/
structure ReadLoop {S : Type} (others : Others) (Here : Nat → Device → Prop) (d₀ : Device)
    (buf : Slice) (offset : Nat) (l : BufferLoop S) (s₀ : S)
    (call : S → Proc Device Fault Nat) : Prop where
  retry : l.transfer.retry = Fault.isInterrupted
  zero : l.zero = some failedToFill
  addrs : l.addrs s₀ = buf.addrs
  fits : l.OffsetFits s₀
  ready : l.Ready s₀
  goes : ∀ k s d, l.At s₀ k s → l.transfer.isEmpty s = false →
    Stands others Here d₀ buf.addrs offset k d →
    (call s).wp d (Goes others Here d₀ buf offset k d)

/-- **A loop delivers byte after byte**, and ends if finitely many calls are interrupted. -/
theorem ReadLoop.delivers {S : Type} (Here : Nat → Device → Prop) {buf : Slice}
    {l : BufferLoop S} {s₀ : S} {call : S → Proc Device Fault Nat}
    (h : ReadLoop others Here d₀ buf offset l s₀ call)
    (hStands : Stands others Here d₀ buf.addrs offset 0 d) (N : Nat) :
    (l.transfer.run call s₀).RunsIf (others.InterruptedBefore N) d
      (Delivers others d₀ buf offset) := by
  have hRun : (l.transfer.run call s₀).RunsIf (others.InterruptedBefore N) d
      (BufferLoop.Ended (l.addrs s₀).length (Stands others Here d₀ buf.addrs offset)
        fun _ f => Delivers others d₀ buf offset (.error f)) := by
    -- an interrupted call brings the run nearer to the last one
    refine l.runsIf (fun d => N - d.steps) h.fits h.ready ?_ hStands
    intro k s d hAt hne hStands
    have hRoom : (l.addrs s).length = buf.len - k := by
      rw [hAt.length, h.addrs, Slice.length_addrs]
    have hMax := buf.len_le
    refine (h.goes k s d hAt hne hStands).mono ?_
    rintro (f | size) d' ⟨hStands', hSteps, hWhy⟩
    · obtain ⟨e, rfl, hOutcome, hFails⟩ := hWhy
      rw [BufferLoop.Moved, BufferLoop.Progress, h.retry]
      by_cases hIntr : e = .INTR
      · rw [if_pos (isInterrupted_os.mpr hIntr)]
        refine ⟨hStands', fun hN _ => ?_⟩
        have hBefore := hN d.steps (hIntr ▸ hOutcome)
        show N - d'.steps < N - d.steps
        omega
      · rw [if_neg (isInterrupted_os.not.mpr hIntr)]
        exact ⟨hFails hIntr, fun _ hRetry => absurd (isInterrupted_os.mp hRetry) hIntr⟩
    · have hLe : k + size ≤ buf.len := hStands'.le
      refine ⟨⟨by omega, Or.inl (by omega), fun _ => hStands', fun f hZero hf => ?_⟩,
        fun _ => ⟨?_, fun _ hNone => absurd (h.zero.symm.trans hNone) (by simp)⟩⟩
      · obtain rfl := Option.some.inj (h.zero.symm.trans hf)
        exact hWhy hZero
      · show N - d'.steps ≤ N - d.steps
        omega
  refine hRun.mono ?_
  rintro (f | u) d' hEnd
  · obtain ⟨k, -, hFails⟩ := hEnd
    exact hFails
  · obtain ⟨-, n, bytes, hLen, hDelivered⟩ := hEnd
    refine ⟨n, bytes, hDelivered, ?_⟩
    show bytes.length = buf.len
    rw [hLen, h.addrs, Slice.length_addrs]

/-- **`read_exact_at` on Unix.** -/
theorem readExactAt_delivers (p : Profile) (others : Others) {buf : Slice}
    (hFits : offset + buf.len < 2 ^ 64) (N : Nat) (d : Device) :
    (RustStd.readExactAt p others.pread buf offset).RunsIf (others.InterruptedBefore N) d
      (Delivers others d buf offset) := by
  refine ReadLoop.delivers (fun _ _ => True) (l := RustStd.readExactAt.bufferLoop p)
    ⟨rfl, rfl, rfl, BufferLoop.offsetFits_some rfl ?_, trivial, ?_⟩
    ⟨trivial, 0, [], rfl, .start others d buf.addrs offset⟩ N
  · show offset + buf.addrs.length < 2 ^ 64
    rwa [Slice.length_addrs]
  · intro k s d' hAt hne ⟨_, n, bytes, hLen, hDelivered⟩
    subst hLen
    have hHere : s.2 = offset + bytes.length := Option.some.inj hAt.offset_eq
    exact read_goes (fun _ => d'.reopened) hDelivered hAt.addrs_eq
      (Slice.len_ne_zero hne) (fun count => by rw [hHere]; rfl) trivial fun _ => trivial

-- ---------------------------------------------------------------------------
-- A handle aside
-- ---------------------------------------------------------------------------

/-- `read_exact` on a handle that stands at the offset. -/
theorem readExact_delivers (others : Others) {buf : Slice}
    (hNil : Delivered others d₀ buf.addrs offset n [] d) (hHere : d.reopened = offset) (N : Nat) :
    (RustStd.readExact others.read buf).RunsIf (others.InterruptedBefore N) d
      (Delivers others d₀ buf offset) := by
  refine ReadLoop.delivers (fun position d => d.reopened = position)
    (l := RustStd.readExact.bufferLoop)
    ⟨rfl, rfl, rfl, BufferLoop.offsetFits_none rfl, trivial, ?_⟩ ⟨hHere, n, [], rfl, hNil⟩ N
  intro k s d' hAt hne ⟨hHere, n, bytes, hLen, hDelivered⟩
  subst hLen
  refine read_goes (fun count => d'.reopened + (d'.readAt s d'.reopened count).1) hDelivered
    hAt.addrs_eq (Slice.len_ne_zero hne) (fun count => by rw [← hHere]) hHere fun count => ?_
  show d'.reopened + (d'.readAt s d'.reopened count).1 = _
  rw [hHere, Nat.add_assoc]

/-- A call that is made again while it is interrupted. -/
theorem retried_runsIf (N : Nat) {x : Nat → Device → Result α × Device} {Inv : Device → Prop}
    {Post : Result α → Device → Prop}
    (hAfter : ∀ d, Inv d → Inv (d.after (others d.steps)))
    (hFail : ∀ e d, Inv d → (others d.steps).outcome = .fail e → e ≠ .INTR →
      Post (.error (.err (.os e))) (d.after (others d.steps)))
    (hGo : ∀ count d, Inv d → Post (x count d).1 ((x count d).2.after (others d.steps)) ∧
      ∀ f, (x count d).1 = .error f → f.isInterrupted = false)
    (hInv : Inv d) :
    (Windows.retryInterrupted (others.step x)).RunsIf (others.InterruptedBefore N) d Post := by
  refine Proc.retry_runsIf Inv (fun d => N - d.steps) ?_ hInv
  intro d' hInv'
  refine call_wp (fun e hOutcome => ?_) fun count => ?_
  · show if Fault.isInterrupted _ then _ else _
    by_cases hIntr : e = .INTR
    · rw [if_pos (isInterrupted_os.mpr hIntr)]
      refine ⟨hAfter d' hInv', fun hN => ?_⟩
      have hBefore := hN d'.steps (hIntr ▸ hOutcome)
      show N - (d'.steps + 1) < N - d'.steps
      omega
    · rw [if_neg (isInterrupted_os.not.mpr hIntr)]
      exact hFail e d' hInv' hOutcome hIntr
  · obtain ⟨hPost, hHard⟩ := hGo count d' hInv'
    cases hr : (x count d').1 with
    | ok a =>
      rw [hr] at hPost
      exact hPost
    | error f =>
      rw [hr] at hPost
      show if Fault.isInterrupted f then _ else _
      rw [if_neg (by rw [hHard f hr]; exact Bool.false_ne_true)]
      exact hPost

theorem seek_start (d : Device) (offset : Nat) :
    d.seek (.start offset) = if offset ≤ i64Max then (.ok offset, { d with reopened := offset })
      else (.error Windows.negativeSeek, d) := by
  unfold Device.seek
  simp only [FileState.start_in_range]
  rfl

/-- **`read_exact_at` on Windows.** -/
theorem Windows.readExactAt_delivers {H : Type} (base : Windows.Os Device H) (file : H)
    (others : Others) (buf : Slice) (offset N : Nat) (d : Device) :
    (Windows.readExactAt (others.os base) file buf offset).RunsIf (others.InterruptedBefore N) d
      (Delivers others d buf offset) := by
  have hAfter : ∀ d', (∃ n, Delivered others d buf.addrs offset n [] d') →
      ∃ n, Delivered others d buf.addrs offset n [] (d'.after (others d'.steps)) :=
    fun d' ⟨n, hNil⟩ => ⟨n + 1, hNil.after⟩
  have hFail : ∀ e d', (∃ n, Delivered others d buf.addrs offset n [] d') →
      (others d'.steps).outcome = .fail e → e ≠ .INTR →
      Delivers others d buf offset (.error (.err (.os e))) (d'.after (others d'.steps)) :=
    fun e d' ⟨n, hNil⟩ hOutcome hIntr =>
      ⟨n + 1, [], hNil.after, Or.inl (.of_outcome hNil.passed hOutcome hIntr (Or.inl rfl))⟩
  apply Proc.RunsIf.bind
  refine retried_runsIf N hAfter hFail (fun count d' ⟨n, hNil⟩ => ⟨?_, fun f hf => ?_⟩)
    ⟨0, .start others d buf.addrs offset⟩
  · apply Proc.RunsIf.bind
    refine retried_runsIf N hAfter hFail (fun count d' ⟨n, hNil⟩ => ?_)
      ⟨n + 1, (hNil.setReopened 0).after⟩
    rw [seek_start]
    by_cases hMax : offset ≤ i64Max
    · rw [if_pos hMax]
      exact ⟨readExact_delivers others (hNil.setReopened offset).after rfl N,
        fun f hf => absurd hf (by simp)⟩
    · rw [if_neg hMax]
      refine ⟨⟨n + 1, [], hNil.after, Or.inr ⟨rfl, Nat.not_le.mp hMax, rfl⟩⟩, fun f hf => ?_⟩
      obtain rfl := Except.error.inj hf
      decide
  · exact absurd hf (by simp)

end SystemInterface.Shared
