import SystemInterface.Device.Calls
import SystemInterface.Model.FileState

/-!
# SystemInterface — reading exactly

The read loops on a device whose calls are as short and as interrupted as they
like. They make `UnexpectedEof` of `Ok(0)`, which is right because a call that
has a byte to fill answers `Ok(0)` only at the end of the file: the list of
buffers starts with a non-empty one at every call.

Main results:

* `ReadLoop.toFile` — such a loop reads from the device as from a file;
* `ReadLoop.readsExactly` — what a run that returns has filled, and what it
  says; a run with finitely many transient failures returns;
* `read_exact_vectored_correct` — the provided methods `read_exact_vectored_at`
  and `read_exact_vectored`, over every vectored method.
-/

namespace SystemInterface

open Effect

variable {S : Type}

/-- The bytes a read at `o` gets to see: those from the offset on, or those
after the current position. -/
def Device.ahead (d : Device) (o : Option Nat) : List UInt8 := d.content.drop (o.getD d.pos)

-- ---------------------------------------------------------------------------
-- Reports
-- ---------------------------------------------------------------------------

/-- What a read-exactly call over the addresses `addrs` has done to device `d`
when it returns `r` in `d'`: the bytes there are have been filled in, in
order, nothing else has changed, and `r` is `Ok` exactly if they were enough. -/
structure ReadReport (o : Option Nat) (addrs : List Nat) (d : Device) (r : Result Unit)
    (d' : Device) : Prop where
  content : d'.content = d.content
  pos : d'.pos = movePos o d.pos (min addrs.length (d.ahead o).length)
  filled : addrs.map d'.mem =
    (d.ahead o).take addrs.length ++ (addrs.map d.mem).drop (d.ahead o).length
  frame : ∀ a, a ∉ addrs → d'.mem a = d.mem a
  ok_iff : r = .ok () ↔ addrs.length = 0 ∨ o.getD d.pos + addrs.length ≤ d.content.length
  eof : r ≠ .ok () → r = .error failedToFill

/-- `read` fills all of the addresses, or reports the end of the file; it
returns if only finitely many calls are interrupted. -/
def ReadsExactly (read : Proc Device Fault Unit) (script : Nat → Answer) (o : Option Nat)
    (addrs : List Nat) (d : Device) : Prop :=
  (FinitelyInterrupted script → ∃ r d', read.Returns d r d') ∧
  ∀ r d', read.Returns d r d' → ReadReport o addrs d r d'

-- ---------------------------------------------------------------------------
-- Read loops on the device
-- ---------------------------------------------------------------------------

/-- The device as a file. -/
def Device.file (d : Device) : FileState := ⟨d.mem, d.content, d.pos⟩

/-- One call of the loop, from state `s` on device `d`. -/
def Fetched (l : BufferLoop S) (script : Nat → Answer) (s : S) (d : Device) :
    Result Nat → Device → Prop
  | .ok n, d' => n ≤ (l.addrs s).length ∧ n ≤ (d.ahead (l.offset s)).length ∧
      (n = 0 → d.ahead (l.offset s) = []) ∧
      d' = { d with
        mem := store d.mem (l.addrs s) ((d.ahead (l.offset s)).take n)
        pos := movePos (l.offset s) d.pos n
        log := d.log ++ [.ok n] }
  | .error f, d' => ∃ e, f = .err e ∧ script d.log.length = .fail e ∧ d' = d.record (.error e)

/-- A loop whose calls read from the device, retry `Interrupted` and take
`Ok(0)` for the end of the file. -/
structure ReadLoop (l : BufferLoop S) (script : Nat → Answer)
    (call : S → Proc Device Fault Nat) : Prop where
  zero : l.zero = some failedToFill
  retry : l.transfer.retry = Fault.isInterrupted
  left : ∀ s, l.Ready s → l.transfer.isEmpty s = false → l.addrs s ≠ []
  fetched : ∀ s d, l.Ready s → l.transfer.isEmpty s = false →
    (call s).wp d (Fetched l script s d)

namespace ReadLoop

variable {l : BufferLoop S} {script : Nat → Answer} {call : S → Proc Device Fault Nat}
  {s₀ : S}

/-- The loop reads from the device as from a file. -/
theorem toFile (h : ReadLoop l script call) (s₀ : S) (hTransient : OnlyTransient script)
    (hTotal : (l.addrs s₀).length < 2 ^ 64) :
    FileState.ReadLoop l s₀ Device.file (fun _ => True) call where
  zero := h.zero
  left := h.left
  fetched k s d hAt hne _ := by
    have hLen := hAt.length
    apply (h.fetched s d hAt.ready hne).mono
    intro a d' hA
    cases a with
    | ok n =>
      obtain ⟨hn, hAhead, hZero, rfl⟩ := hA
      exact ⟨hn, Or.inr (by omega), hAhead, hZero, rfl, trivial⟩
    | error f =>
      obtain ⟨e, rfl, hScript, rfl⟩ := hA
      refine ⟨?_, rfl, trivial⟩
      rw [h.retry]
      exact Fault.isInterrupted_err.mpr (hTransient _ e hScript)

/-- With `N` above the last transient failure, the log uses up a budget. -/
theorem spends (h : ReadLoop l script call) (hTransient : OnlyTransient script) {N : Nat}
    (hN : ∀ i e, script i = .fail e → e.kind = .interrupted → i < N) {k : Nat} {s : S}
    {d : Device} (hAt : l.At s₀ k s) (hne : l.transfer.isEmpty s = false) :
    (call s).wlp d (FileState.Spends (fun d => N - d.log.length) d) := by
  refine Proc.wp.wlp ((h.fetched s d hAt.ready hne).mono ?_)
  intro a d' hA
  cases a with
  | ok n =>
    obtain ⟨-, -, -, rfl⟩ := hA
    show N - (d.log ++ [Except.ok n]).length ≤ N - d.log.length
    rw [List.length_append]
    omega
  | error f =>
    obtain ⟨e, rfl, hScript, rfl⟩ := hA
    have hlt := hN _ e hScript (hTransient _ e hScript)
    show N - (d.log ++ [Except.error e]).length < N - d.log.length
    rw [List.length_append, List.length_singleton]
    omega

/-- The abstract read, as a report. -/
theorem report_of_readExact {o : Option Nat} {addrs : List Nat} (hNodup : addrs.Nodup)
    {d d' : Device} {r : Result Unit} (h : (r, d'.file) = d.file.readExact o addrs) :
    ReadReport o addrs d r d' := by
  obtain ⟨hr, hFile⟩ := Prod.mk.inj h
  have hMem : d'.mem = _ := congrArg FileState.mem hFile
  have hAhead : (d.ahead o).length = d.content.length - o.getD d.pos := List.length_drop
  set data := d.ahead o with hdata
  have hTake : data.take (min addrs.length data.length) = data.take addrs.length :=
    List.take_eq_take_iff.mpr (by omega)
  have hLen : (data.take addrs.length).length = min addrs.length data.length := List.length_take
  refine ⟨congrArg FileState.content hFile, congrArg FileState.pos hFile, ?_, fun a ha => ?_, ?_,
    fun hNot => ?_⟩
  · rw [hMem]
    show addrs.map (store d.mem addrs (data.take (min addrs.length data.length))) = _
    rw [hTake, map_store hNodup (by rw [hLen]; omega), hLen]
    congr 1
    -- past the shorter of the two, both sides are empty or the same
    rcases Nat.le_total addrs.length data.length with hle | hle
    · rw [Nat.min_eq_left hle, List.drop_of_length_le (by rw [List.length_map]),
        List.drop_of_length_le (by rw [List.length_map]; exact hle)]
    · rw [Nat.min_eq_right hle]
  · rw [hMem]
    exact store_of_not_mem ha
  · rw [hr]
    show (if addrs.length ≤ data.length then _ else _) = _ ↔ _
    split
    · exact ⟨fun _ => by omega, fun _ => rfl⟩
    · exact ⟨fun hOk => absurd hOk (by simp), fun hLe => by omega⟩
  · rw [hr] at hNot ⊢
    show (if addrs.length ≤ data.length then _ else _) = _
    split
    · next hle => exact absurd (if_pos hle) hNot
    · rfl

/-- **A read loop reads exactly**, or reports the end of the file. -/
theorem readsExactly (h : ReadLoop l script call) (s₀ : S) (hTransient : OnlyTransient script)
    (hFits : l.OffsetFits s₀) (hReady : l.Ready s₀) (hNodup : (l.addrs s₀).Nodup)
    (hTotal : (l.addrs s₀).length < 2 ^ 64) (d : Device) :
    ReadsExactly (l.transfer.run call s₀) script (l.offset s₀) (l.addrs s₀) d := by
  have hFile := h.toFile s₀ hTransient hTotal
  refine ⟨fun hFinite => ?_, fun r d' hr => ?_⟩
  · obtain ⟨N, hN⟩ := hFinite.budget
    obtain ⟨r, d', hr, -⟩ := FileState.ReadLoop.wp h.zero h.left (fun d => N - d.log.length)
      (fun k s d hAt hne hJ => ((h.spends hTransient hN hAt hne).wp
        (hFile.fetched k s d hAt hne hJ)).mono fun _ _ hA => ⟨hA.2, hA.1⟩)
      hFits hReady (w := d) trivial
    exact ⟨r, d', hr⟩
  · exact report_of_readExact hNodup (hFile.wlp hFits hReady trivial r d' hr).1

end ReadLoop

-- ---------------------------------------------------------------------------
-- The vectored loops
-- ---------------------------------------------------------------------------

/-- `read_exact_vectored_at` as a loop on the device. -/
theorem readExactVectoredAt_readLoop (p : Profile) (kind : Vectored) (script : Nat → Answer) :
    ReadLoop (FileIoExt.Default.readExactVectoredAt.bufferLoop p) script
      (fun s => kind.readVectoredAt script s.1 s.2) where
  zero := rfl
  retry := rfl
  left s hReady hne := HeadFull.cells_ne_nil hReady hne
  fetched s d hReady hne := by
    rw [kind.readVectoredAt_eq]
    refine Device.call_wp (fun e he => ⟨e, rfl, he, rfl⟩) (fun window count _ => ?_)
    obtain ⟨n, hn, hAhead, h0, hEq⟩ := Device.take_spec kind s.2 s.1 window count d
    rw [hEq]
    refine ⟨by rwa [← length_cells] at hn, hAhead, fun hn0 => ?_, rfl⟩
    exact (h0 hn0).resolve_left (HeadFull.not_headEmpty hReady hne)

/-- `read_exact_vectored` as a loop on the device. -/
theorem readExactVectored_readLoop (p : Profile) (kind : Vectored) (script : Nat → Answer) :
    ReadLoop (IoExt.Default.readExactVectored.bufferLoop p) script
      (kind.readVectored script) where
  zero := rfl
  retry := rfl
  left s hReady hne := HeadFull.cells_ne_nil hReady hne
  fetched s d hReady hne := by
    rw [kind.readVectored_eq]
    refine Device.call_wp (fun e he => ⟨e, rfl, he, rfl⟩) (fun window count _ => ?_)
    obtain ⟨n, hn, hAhead, h0, hEq⟩ := Device.take_spec kind d.pos s window count d
    simp only [hEq]
    refine ⟨by rwa [← length_cells] at hn, hAhead, fun hn0 => ?_, rfl⟩
    exact (h0 hn0).resolve_left (HeadFull.not_headEmpty hReady hne)

/-- **The provided `read_exact_vectored` methods.** However the single calls
cut the bytes up and wherever empty buffers stand, the buffers are filled from
the offset, or from the current position, on; `UnexpectedEof` is reported
exactly if the file ends before. -/
theorem read_exact_vectored_correct (p : Profile) (kind : Vectored) (script : Nat → Answer)
    (hTransient : OnlyTransient script) (bufs : List IoSliceMut) (hNodup : (cells bufs).Nodup)
    (d : Device) :
    (∀ offset, offset + totalLen bufs < 2 ^ 64 →
      ReadsExactly
        (FileIoExt.Default.readExactVectoredAt p (kind.readVectoredAt script) bufs offset)
        script (some offset) (cells bufs) d) ∧
    (totalLen bufs < 2 ^ 64 →
      ReadsExactly (IoExt.Default.readExactVectored p (kind.readVectored script) bufs)
        script none (cells bufs) d) := by
  -- the loops start behind the leading empty buffers, at the same addresses
  have hCells := cells_skipLeadingEmpties bufs
  have hLen : (cells (skipLeadingEmpties bufs)).length = totalLen bufs := by
    rw [hCells, length_cells]
  have hHead := headFull_skipLeadingEmpties bufs
  rw [← hCells] at hNodup ⊢
  refine ⟨fun offset hFits => ?_, fun hTotal => ?_⟩
  · refine (readExactVectoredAt_readLoop p kind script).readsExactly
      (skipLeadingEmpties bufs, offset) hTransient (BufferLoop.offsetFits_some rfl ?_) hHead
      hNodup ?_ d
    · show offset + (cells (skipLeadingEmpties bufs)).length < 2 ^ 64
      rwa [hLen]
    · show (cells (skipLeadingEmpties bufs)).length < 2 ^ 64
      omega
  · refine (readExactVectored_readLoop p kind script).readsExactly
      (skipLeadingEmpties bufs) hTransient (BufferLoop.offsetFits_none rfl) hHead hNodup ?_ d
    · show (cells (skipLeadingEmpties bufs)).length < 2 ^ 64
      omega

/-- An empty buffer in front, one `Interrupted` call, and a short read into
the second buffer. -/
theorem read_exact_vectored_correct_short :
    ReadsExactly
      (IoExt.Default.readExactVectored .debug
        (Vectored.window.readVectored fun i => if i = 1 then .fail (.os .INTR) else .moved 2 2)
        [⟨0, 0, by decide⟩, ⟨10, 3, by decide⟩])
      (fun i => if i = 1 then .fail (.os .INTR) else .moved 2 2) none [10, 11, 12]
      ⟨fun _ => 0, [1, 2, 3, 4, 5], 1, []⟩ :=
  (read_exact_vectored_correct .debug .window _ (by intro i e; grind [IoError.kind, Errno.kind])
    [⟨0, 0, by decide⟩, ⟨10, 3, by decide⟩] (by decide) ⟨fun _ => 0, [1, 2, 3, 4, 5], 1, []⟩).2
    (by decide)

end SystemInterface
