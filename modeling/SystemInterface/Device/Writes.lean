import SystemInterface.Device.Calls
import SystemInterface.Model.FileState

/-!
# SystemInterface — writing everything

The write loops that do not single out `Ok(0)`, on a device whose calls are
as short and as interrupted as they like. The invariant of a run ties the
device to the bytes moved so far: its content is the old one with a prefix of
the data put in place, and the log of the run adds up to that prefix.

Main results:

* `WriteLoop.report` — what a run that returns has written, and what it says;
* `WriteLoop.terminates` — a run with finitely many transient failures returns;
* `write_all_vectored_correct` — the provided methods `write_all_vectored_at`
  and `write_all_vectored`, over every vectored method.
-/

namespace SystemInterface

open Effect

variable {S : Type}

-- ---------------------------------------------------------------------------
-- Reports
-- ---------------------------------------------------------------------------

/-- Only transient failures. -/
def OnlyInterrupted (answers : List (Except IoError Nat)) : Prop :=
  ∀ e, .error e ∈ answers → e.kind = .interrupted

theorem onlyInterrupted_nil : OnlyInterrupted [] := fun e h => absurd h (by simp)

theorem OnlyInterrupted.ok {answers : List (Except IoError Nat)} (h : OnlyInterrupted answers)
    (n : Nat) : OnlyInterrupted (answers ++ [.ok n]) := by
  intro e he
  rcases List.mem_append.mp he with hIn | hLast
  · exact h e hIn
  · exact absurd hLast (by simp)

theorem OnlyInterrupted.error {answers : List (Except IoError Nat)} (h : OnlyInterrupted answers)
    {e : IoError} (hKind : e.kind = .interrupted) : OnlyInterrupted (answers ++ [.error e]) := by
  intro e' he
  rcases List.mem_append.mp he with hIn | hLast
  · exact h e' hIn
  · obtain rfl : e' = e := by simpa using hLast
    exact hKind

/-- The answers fail where the script does, from call `i` on. -/
def Follows (script : Nat → Answer) (i : Nat) (answers : List (Except IoError Nat)) : Prop :=
  ∀ j a, answers[j]? = some a → ∀ e, a = .error e ↔ script (i + j) = .fail e

theorem follows_nil (script : Nat → Answer) (i : Nat) : Follows script i [] :=
  fun j a h => absurd h (by simp)

theorem Follows.concat {script : Nat → Answer} {i : Nat} {answers : List (Except IoError Nat)}
    (h : Follows script i answers) {a : Except IoError Nat}
    (ha : ∀ e, a = .error e ↔ script (i + answers.length) = .fail e) :
    Follows script i (answers ++ [a]) := by
  intro j b hb
  rcases Nat.lt_or_ge j answers.length with hlt | hge
  · rw [List.getElem?_append_left hlt] at hb
    exact h j b hb
  · rw [List.getElem?_append_right hge, List.getElem?_singleton] at hb
    split at hb
    · next hj =>
      obtain rfl := Option.some.inj hb
      have hEq : j = answers.length := by omega
      rw [hEq]
      exact ha
    · exact absurd hb (by simp)

theorem Follows.onlyInterrupted {script : Nat → Answer} {i : Nat}
    {answers : List (Except IoError Nat)} (h : Follows script i answers)
    (hTransient : OnlyTransient script) : OnlyInterrupted answers := by
  intro e he
  obtain ⟨j, hj⟩ := List.mem_iff_getElem?.mp he
  exact hTransient _ e ((h j _ hj e).mp rfl)

/-- What a write-everything call has done to device `d` when it returns `r`
in `d'` after the given answers: the bytes accepted are in place, nothing else
has changed, and `r` is `Ok` exactly if no answer was a hard error. -/
structure WriteReport (script : Nat → Answer) (o : Option Nat) (data : List UInt8) (d : Device)
    (answers : List (Except IoError Nat)) (r : Result Unit) (d' : Device) : Prop where
  log : d'.log = d.log ++ answers
  follows : Follows script d.log.length answers
  mem : d'.mem = d.mem
  pos : d'.pos = d.pos
  content : d'.content = place o d.content (data.take (Device.accepted answers))
  accepted_le : Device.accepted answers ≤ data.length
  ok_iff : r = .ok () ↔ OnlyInterrupted answers
  ok_all : r = .ok () → Device.accepted answers = data.length
  error_eq : ∀ f, r = .error f →
    ∃ e, f = .err e ∧ e.kind ≠ .interrupted ∧ answers.getLast? = some (.error e)

/-- `write` writes all of `data`, or reports why it did not; it returns if only
finitely many calls are interrupted. -/
def WritesEverything (write : Proc Device Fault Unit) (script : Nat → Answer) (o : Option Nat)
    (data : List UInt8) (d : Device) : Prop :=
  (FinitelyInterrupted script → ∃ r d', write.Returns d r d') ∧
  ∀ r d', write.Returns d r d' → ∃ answers, WriteReport script o data d answers r d'

-- ---------------------------------------------------------------------------
-- Loops that write
-- ---------------------------------------------------------------------------

/-- One call of the loop, from state `s` on device `d`. -/
def Written (l : BufferLoop S) (script : Nat → Answer) (s : S) (d : Device) :
    Result Nat → Device → Prop
  | .ok n, d' => n ≤ (l.addrs s).length ∧ (n = 0 → l.MayZero s) ∧
      (∀ e, script d.log.length ≠ .fail e) ∧
      d' = { d with
        content := place (l.offset s) d.content (((l.addrs s).map d.mem).take n)
        log := d.log ++ [.ok n] }
  | .error f, d' => ∃ e, f = .err e ∧ script d.log.length = .fail e ∧ d' = d.record (.error e)

/-- A loop whose calls write to the device, retry `Interrupted` and do not
single out `Ok(0)`. -/
structure WriteLoop (l : BufferLoop S) (script : Nat → Answer)
    (call : S → Proc Device Fault Nat) : Prop where
  zero : l.zero = none
  retry : l.transfer.retry = Fault.isInterrupted
  written : ∀ s d, (call s).wp d (Written l script s d)

namespace WriteLoop

variable {l : BufferLoop S} {script : Nat → Answer} {call : S → Proc Device Fault Nat}
  {s₀ : S}

/-- The device once `k` bytes of the run were accepted, by these answers. -/
structure Wrote (l : BufferLoop S) (script : Nat → Answer) (s₀ : S) (d : Device) (k : Nat)
    (answers : List (Except IoError Nat)) (d' : Device) : Prop where
  state : d' = { d with
    content := place (l.offset s₀) d.content (((l.addrs s₀).map d.mem).take k)
    log := d.log ++ answers }
  accepted : Device.accepted answers = k
  follows : Follows script d.log.length answers

/-- The bytes accepted so far, when only transient failures were answered. -/
def Tracks (l : BufferLoop S) (script : Nat → Answer) (s₀ : S) (d : Device) (k : Nat)
    (d' : Device) : Prop :=
  ∃ answers, Wrote l script s₀ d k answers d' ∧ OnlyInterrupted answers

/-- The bytes accepted before a hard error. -/
def Failed (l : BufferLoop S) (script : Nat → Answer) (s₀ : S) (d : Device) (k : Nat)
    (f : Fault) (d' : Device) : Prop :=
  ∃ answers e, Wrote l script s₀ d k (answers ++ [.error e]) d' ∧ f = .err e ∧
    e.kind ≠ .interrupted

theorem Wrote.log_length {d d' : Device} {k : Nat} {answers : List (Except IoError Nat)}
    (h : Wrote l script s₀ d k answers d') : d'.log.length = d.log.length + answers.length := by
  rw [h.state, List.length_append]

/-- One call takes the device from `k` bytes to `k + n`. -/
theorem Wrote.ok {d d' d'' : Device} {s : S} {k n : Nat} {answers : List (Except IoError Nat)}
    (h : Wrote l script s₀ d k answers d') (hAt : l.At s₀ k s)
    (hScript : ∀ e, script d'.log.length ≠ .fail e)
    (hd : d'' = { d' with
      content := place (l.offset s) d'.content (((l.addrs s).map d'.mem).take n)
      log := d'.log ++ [.ok n] }) :
    Wrote l script s₀ d (k + n) (answers ++ [.ok n]) d'' := by
  rw [h.log_length] at hScript
  refine ⟨?_, by rw [Device.accepted_append, h.accepted, Device.accepted_ok],
    h.follows.concat fun e => ⟨fun he => absurd he (by simp), fun he => absurd he (hScript e)⟩⟩
  have hk : k ≤ ((l.addrs s₀).map d.mem).length := by
    rw [List.length_map]
    exact hAt.le
  rw [hd, h.state, hAt.offset_eq, hAt.addrs_eq, List.map_drop]
  simp only [place_take_add _ _ n hk, List.append_assoc]

theorem Wrote.error {d d' : Device} {k : Nat} {answers : List (Except IoError Nat)} {e : IoError}
    (h : Wrote l script s₀ d k answers d') (hScript : script d'.log.length = .fail e) :
    Wrote l script s₀ d k (answers ++ [.error e]) (d'.record (.error e)) := by
  rw [h.log_length] at hScript
  refine ⟨?_, by rw [Device.accepted_append, h.accepted, Device.accepted_error, Nat.add_zero],
    h.follows.concat fun e' => ?_⟩
  · rw [h.state]
    simp only [Device.record, List.append_assoc]
  · rw [hScript, Except.error.injEq, Answer.fail.injEq]

/-- Every call keeps the account of the bytes accepted. -/
theorem moved (h : WriteLoop l script call) (hTotal : (l.addrs s₀).length < 2 ^ 64)
    (d : Device) {k : Nat} {s : S} {d' : Device} (hAt : l.At s₀ k s)
    (hTracks : Tracks l script s₀ d k d') :
    (call s).wlp d'
      (l.Moved (l.addrs s).length (Tracks l script s₀ d) (Failed l script s₀ d) k) := by
  refine (Proc.wp.mono (h.written s d') ?_).wlp
  intro a d'' hA
  obtain ⟨answers, hWrote, hOnly⟩ := hTracks
  have hLen := hAt.length
  cases a with
  | ok n =>
    obtain ⟨hn, -, hScript, hd⟩ := hA
    refine ⟨hn, Or.inr (by omega), fun _ => ?_, fun f _ hf => ?_⟩
    · exact ⟨_, hWrote.ok hAt hScript hd, hOnly.ok n⟩
    · rw [h.zero] at hf
      exact absurd hf (by simp)
  | error f =>
    obtain ⟨e, rfl, hScript, rfl⟩ := hA
    rw [BufferLoop.Moved, h.retry]
    by_cases hKind : e.kind = .interrupted
    · rw [if_pos (Fault.isInterrupted_err.mpr hKind)]
      exact ⟨_, hWrote.error hScript, hOnly.error hKind⟩
    · rw [if_neg (by rw [Fault.isInterrupted_err]; exact hKind)]
      exact ⟨answers, e, hWrote.error hScript, rfl, hKind⟩

/-- **What a run that returns has written.** -/
theorem report (h : WriteLoop l script call) (hFits : l.OffsetFits s₀) (hReady : l.Ready s₀)
    (hTotal : (l.addrs s₀).length < 2 ^ 64) (d : Device) :
    (l.transfer.run call s₀).wlp d fun r d' =>
      ∃ answers, WriteReport script (l.offset s₀) ((l.addrs s₀).map d.mem) d answers r d' := by
  have hStart : Tracks l script s₀ d 0 d := by
    refine ⟨[], ⟨?_, rfl, follows_nil script _⟩, onlyInterrupted_nil⟩
    simp only [List.take_zero, place_nil, List.append_nil]
  have hRun : (l.transfer.run call s₀).wlp d
      (BufferLoop.Ended (l.addrs s₀).length (Tracks l script s₀ d) (Failed l script s₀ d)) :=
    l.wlp hFits hReady (fun k s d' hAt _ hT => h.moved hTotal d hAt hT) hStart
  intro r d' hr
  have hEnd := hRun r d' hr
  match r, hEnd with
  | .ok (), ⟨answers, hWrote, hOnly⟩ =>
    have hLen : Device.accepted answers = ((l.addrs s₀).map d.mem).length := by
      rw [hWrote.accepted, List.length_map]
    refine ⟨answers, ?_⟩
    exact {
      log := by rw [hWrote.state]
      follows := hWrote.follows
      mem := by rw [hWrote.state]
      pos := by rw [hWrote.state]
      content := by rw [hWrote.state, hWrote.accepted]
      accepted_le := Nat.le_of_eq hLen
      ok_iff := ⟨fun _ => hOnly, fun _ => rfl⟩
      ok_all := fun _ => hLen
      error_eq := fun f hf => absurd hf (by simp) }
  | .error f, ⟨k, hk, answers, e, hWrote, hf, hKind⟩ =>
    refine ⟨answers ++ [.error e], ?_⟩
    exact {
      log := by rw [hWrote.state]
      follows := hWrote.follows
      mem := by rw [hWrote.state]
      pos := by rw [hWrote.state]
      content := by rw [hWrote.state, hWrote.accepted]
      accepted_le := by rw [hWrote.accepted, List.length_map]; exact hk
      ok_iff := ⟨fun hf' => absurd hf' (by simp), fun hOnly => absurd (hOnly e (by simp)) hKind⟩
      ok_all := fun hf' => absurd hf' (by simp)
      error_eq := fun f' hf' => ⟨e, by rw [← Except.error.inj hf', hf], hKind, by simp⟩ }

/-- **A run with finitely many transient failures returns.** -/
theorem terminates (h : WriteLoop l script call) (hFits : l.OffsetFits s₀) (hReady : l.Ready s₀)
    (hTotal : (l.addrs s₀).length < 2 ^ 64) (hFinite : FinitelyInterrupted script)
    (d : Device) : ∃ r d', (l.transfer.run call s₀).Returns d r d' := by
  obtain ⟨N, hN⟩ := hFinite.budget
  -- every answer lengthens the log, and no transient failure comes after `N`
  refine l.returns (fun d => N - d.log.length) (fun _ => True) hFits hReady ?_ trivial
  intro k s d' hAt _ _
  apply (h.written s d').mono
  intro a d'' hA
  have hLen := hAt.length
  cases a with
  | ok n =>
    obtain ⟨hn, hZero, -, rfl⟩ := hA
    refine ⟨?_, trivial, hn, Or.inr (by omega), fun h0 _ => hZero h0⟩
    simp only [List.length_append, List.length_singleton]
    omega
  | error f =>
    obtain ⟨e, rfl, hScript, rfl⟩ := hA
    intro hr
    rw [h.retry, Fault.isInterrupted_err] at hr
    have hlt := hN _ _ hScript hr
    refine ⟨trivial, ?_⟩
    simp only [Device.record, List.length_append, List.length_singleton]
    omega

/-- **A write loop writes everything**, once and in order, or reports why not. -/
theorem writesEverything (h : WriteLoop l script call) (s₀ : S) (hFits : l.OffsetFits s₀)
    (hReady : l.Ready s₀) (hTotal : (l.addrs s₀).length < 2 ^ 64) (d : Device) :
    WritesEverything (l.transfer.run call s₀) script (l.offset s₀)
      ((l.addrs s₀).map d.mem) d :=
  ⟨fun hFinite => h.terminates hFits hReady hTotal hFinite d, h.report hFits hReady hTotal d⟩

end WriteLoop

-- ---------------------------------------------------------------------------
-- The vectored loops
-- ---------------------------------------------------------------------------

/-- A call of `writev` or `pwritev`, in front of the list `bufs`. -/
theorem give_written {l : BufferLoop S} {s : S} {bufs : List IoSlice} (kind : Vectored)
    (script : Nat → Answer) (hAddrs : l.addrs s = cells bufs)
    (hZero : HeadEmpty bufs → l.MayZero s) (d : Device) :
    (Device.call script (Device.give (place (l.offset s)) (kind.offered bufs))).wp d
      (Written l script s d) := by
  refine Device.call_wp (fun e he => ⟨e, rfl, he, rfl⟩) (fun window count hScript => ?_)
  obtain ⟨n, hn, h0, hEq⟩ := Device.give_spec kind (place (l.offset s)) bufs window count d
  rw [hEq]
  refine ⟨by rwa [hAddrs, length_cells], fun hn0 => hZero (h0 hn0), by simp [hScript], ?_⟩
  rw [hAddrs]
  rfl

/-- `write_all_vectored_at` as a loop on the device. -/
theorem writeAllVectoredAt_writeLoop (p : Profile) (kind : Vectored) (script : Nat → Answer) :
    WriteLoop (FileIoExt.Default.writeAllVectoredAt.bufferLoop p) script
      (fun s => kind.writeVectoredAt script s.1 s.2) where
  zero := rfl
  retry := rfl
  written s d := by
    rw [kind.writeVectoredAt_eq]
    exact give_written (l := FileIoExt.Default.writeAllVectoredAt.bufferLoop p) kind script
      rfl (fun hHead => hHead) d

/-- `append_all_vectored` and `write_all_vectored` as a loop on the device. -/
theorem writeAllVectored_writeLoop (p : Profile) (kind : Vectored) (script : Nat → Answer) :
    WriteLoop (IoExt.Default.writeAllVectored.bufferLoop p) script
      (kind.writeVectored script) where
  zero := rfl
  retry := rfl
  written s d := by
    rw [kind.writeVectored_eq]
    exact give_written (l := IoExt.Default.writeAllVectored.bufferLoop p) kind script
      rfl (fun hHead => hHead) d

theorem writeAllVectoredAt_writesEverything (p : Profile) (kind : Vectored)
    (script : Nat → Answer) (bufs : List IoSlice) {offset : Nat}
    (hFits : offset + totalLen bufs < 2 ^ 64) (d : Device) :
    WritesEverything
      (FileIoExt.Default.writeAllVectoredAt p (kind.writeVectoredAt script) bufs offset)
      script (some offset) (d.mem.gather bufs) d := by
  refine (writeAllVectoredAt_writeLoop p kind script).writesEverything (bufs, offset)
    (BufferLoop.offsetFits_some rfl ?_) trivial ?_ d
  · show offset + (cells bufs).length < 2 ^ 64
    rwa [length_cells]
  · show (cells bufs).length < 2 ^ 64
    rw [length_cells]
    omega

theorem writeAllVectored_writesEverything (p : Profile) (kind : Vectored)
    (script : Nat → Answer) (bufs : List IoSlice) (hTotal : totalLen bufs < 2 ^ 64) (d : Device) :
    WritesEverything (IoExt.Default.writeAllVectored p (kind.writeVectored script) bufs)
      script none (d.mem.gather bufs) d := by
  refine (writeAllVectored_writeLoop p kind script).writesEverything bufs
    (BufferLoop.offsetFits_none rfl) trivial ?_ d
  · show (cells bufs).length < 2 ^ 64
    rwa [length_cells]

/-- **The provided `write_all_vectored` methods.** Whatever the single calls
accept, the data is written once and in order at the offset, or at the end of
the stream; a hard error is reported, with the bytes before it in place. -/
theorem write_all_vectored_correct (p : Profile) (kind : Vectored) (script : Nat → Answer)
    (bufs : List IoSlice) (d : Device) :
    (∀ offset, offset + totalLen bufs < 2 ^ 64 →
      WritesEverything
        (FileIoExt.Default.writeAllVectoredAt p (kind.writeVectoredAt script) bufs offset)
        script (some offset) (d.mem.gather bufs) d) ∧
    (totalLen bufs < 2 ^ 64 →
      WritesEverything (IoExt.Default.writeAllVectored p (kind.writeVectored script) bufs)
        script none (d.mem.gather bufs) d) :=
  ⟨fun _ hFits => writeAllVectoredAt_writesEverything p kind script bufs hFits d,
    fun hTotal => writeAllVectored_writesEverything p kind script bufs hTotal d⟩

/-- An `Interrupted` call, then one byte at a time, into a file of one byte. -/
theorem write_all_vectored_correct_bytewise :
    WritesEverything
      (FileIoExt.Default.writeAllVectoredAt .debug
        (Vectored.iovMax.writeVectoredAt fun i => if i = 0 then .fail (.os .INTR) else .moved 2 1)
        [⟨0, 0, by decide⟩, ⟨10, 3, by decide⟩] 2)
      (fun i => if i = 0 then .fail (.os .INTR) else .moved 2 1) (some 2) [7, 7, 7]
      ⟨fun _ => 7, [1], 0, []⟩ :=
  (write_all_vectored_correct .debug .iovMax _ [⟨0, 0, by decide⟩, ⟨10, 3, by decide⟩]
    ⟨fun _ => 7, [1], 0, []⟩).1 2 (by decide)

end SystemInterface
