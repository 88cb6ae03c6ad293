import SystemInterface.Model.Handles
import SystemInterface.Refinement
import SystemInterface.Unix.Streams

/-!
# SystemInterface — two implementations of a handle

Both traits on both systems: programs that mix the calls of `FileIoExt`, which leave the
position alone, with the stream calls of `IoExt`, which move it. On Windows the position
is that of the client's handle, and every positional call works on another one; on Unix
there is one description, and the fallback of an append moves its position and puts it
back. No program can tell the difference.

Main results:

* `Unix.serves_handle`, `Windows.serves_handle` — each implementation does what each call
  is for;
* `handles_agree` — both return the same and leave the same file.
-/

namespace SystemInterface

open Effect

-- ---------------------------------------------------------------------------
-- Unix
-- ---------------------------------------------------------------------------

namespace Unix

namespace Machine

variable {bufs win : List Slice}

theorem read_spec (m : Machine) (hWin : LeadingWindow bufs win) (count : Nat) :
    ∃ n m', m.read win count = (n, m') ∧ n ≤ totalLen bufs ∧ n ≤ isizeMax ∧
      n ≤ (m.file.ahead none).length ∧ (n = 0 → HeadEmpty bufs ∨ m.file.ahead none = []) ∧
      m'.file = m.file.fill none (cells bufs) n ∧ m'.desc.flags = m.desc.flags := by
  obtain ⟨n, hRead, hn, hMax, hAhead, hZero⟩ := m.readAt_spec hWin m.desc.pos count
  rw [Machine.read, hRead]
  exact ⟨n, _, rfl, hn, hMax, hAhead, hZero, rfl, rfl⟩

theorem write_spec {m : Machine} (hNot : m.desc.appends = false) (hWin : LeadingWindow bufs win)
    (count : Nat) :
    ∃ n m', m.write win count = (n, m') ∧ n ≤ totalLen bufs ∧ n ≤ isizeMax ∧
      (n = 0 → HeadEmpty bufs) ∧ m'.file = m.file.put ((m.mem.gather bufs).take n) ∧
      m'.desc.flags = m.desc.flags := by
  obtain ⟨n, hLen, hTaken, hn, hMax, hEmpty⟩ := m.taken_spec hWin count
  refine ⟨n, (m.write win count).2, Prod.ext hLen rfl, hn, hMax, hEmpty, ?_, rfl⟩
  simp only [Machine.write, hNot, Bool.false_eq_true, if_false, hTaken]
  rfl

end Machine

namespace Stream

/-- An environment of short transfers only. -/
def Env.Calm (env : Env) : Prop := ∀ log c, ∃ count, env log c = .go count

/-- The description is not in append mode. -/
def NotAppending (k : Kernel) : Prop := k.machine.desc.appends = false

variable {env : Env} {S : Type} {l : BufferLoop S} {s : S} {k : Kernel} {c : Call}
  {bufs win : List Slice}

theorem sys_wp (hCalm : env.Calm) (k : Kernel) (c : Call) :
    ((sys c).toProc (handle env)).wp k fun r k' =>
      ∃ count, (r, k'.machine) = (step k.machine c (.go count)).map Result.ofOs id := by
  apply Proc.wp_ofStep
  obtain ⟨count, hGo⟩ := hCalm k.log c
  refine ⟨count, ?_⟩
  rw [← hGo]
  rfl

theorem notAppending_of_flags {k' : Kernel} (hNot : NotAppending k)
    (hFlags : k'.machine.desc.flags = k.machine.desc.flags) : NotAppending k' := by
  unfold NotAppending Desc.appends at *
  rwa [hFlags]

/-- One read, as a call of a loop. -/
theorem read_fetched (hCalm : env.Calm)
    (hStep : ∀ m count, step m c (.go count) = (m.read win count).map .ok id)
    (hNot : NotAppending k) (hOffset : l.offset s = none) (hAddrs : l.addrs s = cells bufs)
    (hFull : ¬ HeadEmpty bufs) (hWin : LeadingWindow bufs win) :
    ((sys c).toProc (handle env)).wp k fun a k' =>
      FileState.Fetched l (fun k => k.machine.file) NotAppending s k a k' ∧
        FileState.Spends (fun _ => 0) k a k' := by
  apply (sys_wp hCalm k c).mono
  rintro r k' ⟨count, hEq⟩
  obtain ⟨n, m', hRead, hn, hMax, hAhead, hZero, hFile, hFlags⟩ := k.machine.read_spec hWin count
  rw [hStep, hRead] at hEq
  obtain ⟨rfl, hMachine⟩ := Prod.mk.inj hEq
  replace hMachine : k'.machine = m' := hMachine
  refine ⟨⟨?_, .inl hMax, ?_, fun h0 => ?_, ?_, ?_⟩, le_rfl⟩
  · rw [hAddrs, length_cells]
    exact hn
  · rw [hOffset]
    exact hAhead
  · rw [hOffset]
    exact (hZero h0).resolve_left hFull
  · show k'.machine.file = _
    rw [hOffset, hAddrs, hMachine, hFile]
  · exact notAppending_of_flags hNot (by rw [hMachine, hFlags])

/-- One write, as a call of a loop. -/
theorem write_put (hCalm : env.Calm)
    (hStep : ∀ m count, step m c (.go count) = (m.write win count).map .ok id)
    (hNot : NotAppending k) (hAddrs : l.addrs s = cells bufs)
    (hLegit : HeadEmpty bufs → l.zero = none ∧ l.MayZero s) (hWin : LeadingWindow bufs win) :
    ((sys c).toProc (handle env)).wp k fun a k' =>
      FileState.Emitted FileState.put l (fun k => k.machine.file) NotAppending s k a k' ∧
        FileState.Spends (fun _ => 0) k a k' := by
  apply (sys_wp hCalm k c).mono
  rintro r k' ⟨count, hEq⟩
  obtain ⟨n, m', hWrite, hn, hMax, hEmpty, hFile, hFlags⟩ :=
    Machine.write_spec hNot hWin count
  rw [hStep, hWrite] at hEq
  obtain ⟨rfl, hMachine⟩ := Prod.mk.inj hEq
  replace hMachine : k'.machine = m' := hMachine
  refine ⟨⟨?_, .inl hMax, fun h0 => hLegit (hEmpty h0), ?_, ?_⟩, le_rfl⟩
  · rw [hAddrs, length_cells]
    exact hn
  · show k'.machine.file = _
    rw [hAddrs, hMachine, hFile]
    rfl
  · exact notAppending_of_flags hNot (by rw [hMachine, hFlags])

/-- **The complete stream calls.** -/
theorem readExact_wp (p : Profile) (hCalm : env.Calm) (hNot : NotAppending k) (buf : Slice) :
    ((stream p env).readExact buf).wp k fun r k' =>
      (r, k'.machine.file) = k.machine.file.readExact none buf.addrs ∧ NotAppending k' := by
  refine FileState.ReadLoop.wp (l := RustStd.readExact.bufferLoop) rfl (fun s _ hne => ?_)
    (fun _ => 0) (fun _ s k _ hne hNot => ?_) (BufferLoop.offsetFits_none rfl) trivial hNot
  · exact Slice.addrs_ne_nil (Slice.len_ne_zero hne)
  · exact read_fetched hCalm (fun _ _ => rfl) hNot rfl (cells_singleton s).symm
      (not_headEmpty_singleton hne) (leadingWindow_self s)

theorem readExactVectored_wp (p : Profile) (hCalm : env.Calm) (hNot : NotAppending k)
    (bufs : List IoSliceMut) :
    ((stream p env).readExactVectored bufs).wp k fun r k' =>
      (r, k'.machine.file) = k.machine.file.readExact none (cells bufs) ∧ NotAppending k' := by
  rw [← cells_skipLeadingEmpties bufs]
  refine FileState.ReadLoop.wp (l := IoExt.Default.readExactVectored.bufferLoop p) rfl
    (fun s hReady hne => HeadFull.cells_ne_nil hReady hne) (fun _ => 0)
    (fun _ s k hAt hne hNot => ?_) (BufferLoop.offsetFits_none rfl)
    (headFull_skipLeadingEmpties bufs) hNot
  exact read_fetched hCalm (fun _ _ => rfl) hNot rfl rfl (HeadFull.not_headEmpty hAt.ready hne)
    (leadingWindow_take (by decide))

theorem writeAll_wp (p : Profile) (hCalm : env.Calm) (hNot : NotAppending k) (buf : Slice) :
    ((stream p env).writeAll buf).wp k fun r k' =>
      r = .ok () ∧ k'.machine.file = k.machine.file.put (buf.addrs.map k.machine.mem) ∧
        NotAppending k' := by
  refine FileState.emits_wp (l := RustStd.writeAll.bufferLoop) FileState.cumulative_put
    (fun _ => 0) (fun s k hne hNot => ?_) (BufferLoop.offsetFits_none rfl) trivial hNot
  exact write_put hCalm (fun _ _ => rfl) hNot (cells_singleton s).symm
    (fun hEmpty => absurd hEmpty (not_headEmpty_singleton hne)) (leadingWindow_self s)

theorem writeAllVectored_wp (p : Profile) (hCalm : env.Calm) (hNot : NotAppending k)
    (bufs : List IoSlice) :
    ((stream p env).writeAllVectored bufs).wp k fun r k' =>
      r = .ok () ∧ k'.machine.file = k.machine.file.put (k.machine.mem.gather bufs) ∧
        NotAppending k' := by
  refine FileState.emits_wp (l := IoExt.Default.writeAllVectored.bufferLoop p)
    FileState.cumulative_put (fun _ => 0) (fun s k _ hNot => ?_) (BufferLoop.offsetFits_none rfl)
    trivial hNot
  exact write_put hCalm (fun _ _ => rfl) hNot rfl (fun hEmpty => ⟨rfl, hEmpty⟩)
    (leadingWindow_take (by decide))

end Stream

-- ---------------------------------------------------------------------------
-- A handle on Unix
-- ---------------------------------------------------------------------------

/-- The kernel, with the log of the stream calls. -/
abbrev Both := Kernel × List Stream.Event

/-- The kernel as the stream calls find it. -/
def Both.stream (b : Both) : Stream.Kernel := ⟨b.1.machine, b.2⟩

def Both.setStream (b : Both) (k : Stream.Kernel) : Both := (⟨k.machine, b.1.log⟩, k.log)

def Both.setFile (b : Both) (k : Kernel) : Both := (k, b.2)

/-- A call on a handle, on one description. -/
def performHandle (p : Profile) (env : Env) (senv : Stream.Env) :
    HandleOp → Proc Both Fault Reply :=
  HandleOp.perform ((file p env).onto Prod.fst Both.setFile)
    ((Stream.stream p senv).onto Both.stream Both.setStream)

/-- **The Unix implementation serves every call on a handle.** -/
theorem serves_handle (p : Profile) {env : Env} {senv : Stream.Env} (hCalm : env.Calm)
    (hStream : senv.Calm) :
    FileState.handle.Serves (performHandle p env senv) (fun b => b.1.machine.file)
      fun b => NotAppending b.1 := by
  intro op b hRange hNot
  have hNot' : Stream.NotAppending b.stream := hNot
  cases op with
  | file op =>
    show Proc.wp (op.perform _) b _
    rw [Op.perform_onto]
    refine onPart_wp _ _ ((serves p hCalm op b.1 hRange hNot).mono ?_)
    rintro r k ⟨rfl, hFile, hKept⟩
    exact ⟨rfl, hFile, hKept⟩
  | readExact buf =>
    refine reply_wp (onPart_wp Both.stream Both.setStream
      ((Stream.readExact_wp p hStream hNot' buf).mono ?_))
    rintro r k ⟨hEq, hKept⟩
    obtain ⟨rfl, hFile⟩ := Prod.mk.inj hEq
    exact ⟨rfl, hFile, hKept⟩
  | readExactVectored bufs =>
    refine reply_wp (onPart_wp Both.stream Both.setStream
      ((Stream.readExactVectored_wp p hStream hNot' bufs).mono ?_))
    rintro r k ⟨hEq, hKept⟩
    obtain ⟨rfl, hFile⟩ := Prod.mk.inj hEq
    exact ⟨rfl, hFile, hKept⟩
  | writeAll buf =>
    refine reply_wp (onPart_wp Both.stream Both.setStream
      ((Stream.writeAll_wp p hStream hNot' buf).mono ?_))
    rintro r k ⟨rfl, hFile, hKept⟩
    exact ⟨rfl, hFile, hKept⟩
  | writeAllVectored bufs =>
    refine reply_wp (onPart_wp Both.stream Both.setStream
      ((Stream.writeAllVectored_wp p hStream hNot' bufs).mono ?_))
    rintro r k ⟨rfl, hFile, hKept⟩
    exact ⟨rfl, hFile, hKept⟩

end Unix

-- ---------------------------------------------------------------------------
-- A handle on Windows
-- ---------------------------------------------------------------------------

namespace Windows

/-- `impl IoExt for std::fs::File`: the stream of the client's handle; the loops over
buffers are the provided ones. -/
def ioExt {σ H : Type} (p : Profile) (os : Os σ H) (file : H) : IoExt σ where
  read := os.read file
  readExact := RustStd.readExact (os.read file)
  readVectored := os.readVectored file
  readExactVectored := IoExt.Default.readExactVectored p (os.readVectored file)
  write := os.write file
  writeAll := RustStd.writeAll (os.write file)
  writeVectored := os.writeVectored file
  writeAllVectored := IoExt.Default.writeAllVectored p (os.writeVectored file)

def performHandle (p : Profile) (env : Env) (h : Nat) : HandleOp → Proc World Fault Reply :=
  HandleOp.perform (file p env h) (ioExt p env.os h)

/-- The handle is open for reading and writing. -/
structure ReadsWrites (h : Nat) (w : World) : Prop where
  opened : h < w.opened
  access : (w.handles h).access = .readWrite

variable {env : Env} {h : Nat} {w : World} {S : Type} {l : BufferLoop S} {s : S}
  {bufs : List Slice} {buf : Slice}

/-- A transfer moves the handle, and that is all. -/
theorem ReadsWrites.moved {w' : World} {pos : Nat} {mem : Memory} {content : List UInt8}
    (hOpen : ReadsWrites h w) (hMoved : Moved h pos mem content w w') : ReadsWrites h w' := by
  refine ⟨by rw [hMoved.opened]; exact hOpen.opened, ?_⟩
  rw [hMoved.handles, setPos_handles_self]
  exact hOpen.access

theorem Moved.file_eq {w' : World} {pos : Nat} {mem : Memory} {content : List UInt8}
    (hMoved : Moved h pos mem content w w') : w'.file h = ⟨mem, content, pos⟩ := by
  show (⟨w'.mem, w'.content, (w'.handles h).pos⟩ : FileState) = _
  rw [hMoved.mem, hMoved.content, hMoved.handles, setPos_handles_self]

theorem ReadsWrites.atStep (hOpen : ReadsWrites h w) (n : Nat) : ReadsWrites h (w.atStep n) :=
  ⟨hOpen.opened, hOpen.access⟩

/-- A write at the position puts the first bytes there. -/
theorem writeAt_put (hOpen : ReadsWrites h w) (hWin : LeadingWindow bufs [buf]) (size : Nat) :
    ∃ n w', w.writeAt h buf (w.handles h).pos size = (.ok n, w') ∧ n ≤ totalLen bufs ∧
      n ≤ u32Max ∧ (n = 0 → HeadEmpty bufs) ∧
      w'.file h = (w.file h).put ((w.mem.gather bufs).take n) ∧ ReadsWrites h w' := by
  have hNot : (w.handles h).access ≠ .append := by rw [hOpen.access]; decide
  have hWrites : (w.handles h).access.writes = true := by rw [hOpen.access]; rfl
  obtain ⟨n, pos, w', hEq, hSize, hn, hZero, hMoved⟩ :=
    writeAt_spec hWrites hWin (w.handles h).pos size
  have hShort := shortCount_le size (min buf.len u32Max)
  have hLen : ((w.mem.gather bufs).take n).length = n :=
    List.length_take_of_le (by rw [Memory.length_gather]; exact hn)
  have hPos : pos = (w.handles h).pos + n := by
    have hEnd := congrArg (fun o => (o.2.handles h).pos) hEq
    simp only [World.writeAt, hWrites, if_true, if_neg hNot, hMoved.handles,
      setPos_handles_self, ← hSize] at hEnd
    exact hEnd.symm
  rw [if_neg hNot] at hMoved
  refine ⟨n, w', hEq, hn, by omega, hZero, ?_, hOpen.moved hMoved⟩
  rw [hMoved.file_eq, hPos, FileState.put, hLen]
  rfl

/-- One read, as a call of a loop. -/
theorem stream_fetched (hCalm : env.InterruptedBefore 0) (hOpen : ReadsWrites h w)
    (hOffset : l.offset s = none) (hAddrs : l.addrs s = cells bufs) (hFull : ¬ HeadEmpty bufs)
    (hWin : LeadingWindow bufs [buf]) :
    (env.read h buf).wp w fun a w' =>
      FileState.Fetched l (fun w => w.file h) (ReadsWrites h) s w a w' ∧
        FileState.Spends (fun _ => 0) w a w' := by
  refine step_wp (fun hIntr => absurd (hCalm _ hIntr) (Nat.not_lt_zero _)) fun _ => ?_
  set w₁ := w.atStep (w.steps + 1) with hw₁
  have hOpen₁ : ReadsWrites h w₁ := hOpen.atStep _
  obtain ⟨n, w', hEq, hn, hMax, hAhead, hZero, hMoved⟩ := readAt_spec (w := w₁) (h := h)
    (by rw [hOpen₁.access]; rfl) hWin (w₁.handles h).pos (env.size w₁.transfers)
  rw [hEq]
  refine ⟨⟨?_, .inl (hMax.trans (by decide)), ?_, fun h0 => ?_, ?_, hOpen₁.moved hMoved⟩, le_rfl⟩
  · rw [hAddrs, length_cells]
    exact hn
  · rw [hOffset]
    exact hAhead
  · rw [hOffset]
    exact (hZero h0).resolve_left hFull
  · show w'.file h = _
    rw [hMoved.file_eq, hOffset, hAddrs]
    rfl

/-- One write, as a call of a loop. -/
theorem stream_put (hCalm : env.InterruptedBefore 0) (hOpen : ReadsWrites h w)
    (hAddrs : l.addrs s = cells bufs) (hLegit : HeadEmpty bufs → l.zero = none ∧ l.MayZero s)
    (hWin : LeadingWindow bufs [buf]) :
    (env.write h buf).wp w fun a w' =>
      FileState.Emitted FileState.put l (fun w => w.file h) (ReadsWrites h) s w a w' ∧
        FileState.Spends (fun _ => 0) w a w' := by
  refine step_wp (fun hIntr => absurd (hCalm _ hIntr) (Nat.not_lt_zero _)) fun _ => ?_
  set w₁ := w.atStep (w.steps + 1) with hw₁
  have hOpen₁ : ReadsWrites h w₁ := hOpen.atStep _
  obtain ⟨n, w', hEq, hn, hMax, hZero, hFile, hOpen'⟩ :=
    writeAt_put hOpen₁ hWin (env.size w₁.transfers)
  rw [hEq]
  refine ⟨⟨?_, .inl (hMax.trans (by decide)), fun h0 => hLegit (hZero h0), ?_, hOpen'⟩, le_rfl⟩
  · rw [hAddrs, length_cells]
    exact hn
  · show w'.file h = _
    rw [hFile, hAddrs]
    rfl

/-- **The complete stream calls.** -/
theorem stream_readExact_wp (p : Profile) (hCalm : env.InterruptedBefore 0)
    (hOpen : ReadsWrites h w) (buf : Slice) :
    ((ioExt p env.os h).readExact buf).wp w fun r w' =>
      (r, w'.file h) = (w.file h).readExact none buf.addrs ∧ ReadsWrites h w' := by
  refine FileState.ReadLoop.wp (l := RustStd.readExact.bufferLoop) rfl (fun s _ hne => ?_)
    (fun _ => 0) (fun _ s w _ hne hOpen => ?_) (BufferLoop.offsetFits_none rfl) trivial hOpen
  · exact Slice.addrs_ne_nil (Slice.len_ne_zero hne)
  · exact stream_fetched hCalm hOpen rfl (cells_singleton s).symm (not_headEmpty_singleton hne)
      (leadingWindow_self s)

theorem stream_readExactVectored_wp (p : Profile) (hCalm : env.InterruptedBefore 0)
    (hOpen : ReadsWrites h w) (bufs : List IoSliceMut) :
    ((ioExt p env.os h).readExactVectored bufs).wp w fun r w' =>
      (r, w'.file h) = (w.file h).readExact none (cells bufs) ∧ ReadsWrites h w' := by
  rw [← cells_skipLeadingEmpties bufs]
  refine FileState.ReadLoop.wp (l := IoExt.Default.readExactVectored.bufferLoop p) rfl
    (fun s hReady hne => HeadFull.cells_ne_nil hReady hne) (fun _ => 0)
    (fun _ s w hAt hne hOpen => ?_) (BufferLoop.offsetFits_none rfl)
    (headFull_skipLeadingEmpties bufs) hOpen
  exact stream_fetched hCalm hOpen rfl rfl (HeadFull.not_headEmpty hAt.ready hne)
    (leadingWindow_firstNonEmpty s)

theorem stream_writeAll_wp (p : Profile) (hCalm : env.InterruptedBefore 0)
    (hOpen : ReadsWrites h w) (buf : Slice) :
    ((ioExt p env.os h).writeAll buf).wp w fun r w' =>
      r = .ok () ∧ w'.file h = (w.file h).put (buf.addrs.map w.mem) ∧ ReadsWrites h w' := by
  refine FileState.emits_wp (l := RustStd.writeAll.bufferLoop) FileState.cumulative_put
    (fun _ => 0) (fun s w hne hOpen => ?_) (BufferLoop.offsetFits_none rfl) trivial hOpen
  exact stream_put hCalm hOpen (cells_singleton s).symm
    (fun hEmpty => absurd hEmpty (not_headEmpty_singleton hne)) (leadingWindow_self s)

theorem stream_writeAllVectored_wp (p : Profile) (hCalm : env.InterruptedBefore 0)
    (hOpen : ReadsWrites h w) (bufs : List IoSlice) :
    ((ioExt p env.os h).writeAllVectored bufs).wp w fun r w' =>
      r = .ok () ∧ w'.file h = (w.file h).put (w.mem.gather bufs) ∧ ReadsWrites h w' := by
  refine FileState.emits_wp (l := IoExt.Default.writeAllVectored.bufferLoop p)
    FileState.cumulative_put (fun _ => 0) (fun s w _ hOpen => ?_) (BufferLoop.offsetFits_none rfl)
    trivial hOpen
  exact stream_put hCalm hOpen rfl (fun hEmpty => ⟨rfl, hEmpty⟩) (leadingWindow_firstNonEmpty s)

/-- The calls of `FileIoExt` leave the rights of the handle alone. -/
theorem perform_access (p : Profile) (hCalm : env.InterruptedBefore 0) {op : Op}
    (hRange : op.InRange (w.file h)) (hOpened : h < w.opened) :
    (op.perform (file p env h)).wlp w fun _ w' =>
      (w'.handles h).access = (w.handles h).access := by
  have hOwn : Own h (w.handles h) w := ⟨hOpened, rfl⟩
  have hSeek : ∀ pos, (reply ((file p env h).seek pos) .position).wlp w fun _ w' =>
      (w'.handles h).access = (w.handles h).access := by
    intro pos
    show (reply (env.step fun w => w.seek h pos) .position).wlp w _
    refine (reply_wp (step_wp (fun hIntr => absurd (hCalm _ hIntr) (Nat.not_lt_zero _))
      fun _ => ?_)).wlp
    unfold World.seek
    split
    · rw [setPos_handles_self]
      rfl
    · rfl
  cases op with
  | writeAllAt buf offset =>
    refine (reply_wp ((writeAllAt_wp p hCalm hOwn buf hRange).mono ?_)).wlp
    exact fun _ _ hPost => congrArg Handle.access hPost.2.2.handle
  | writeAllVectoredAt bufs offset =>
    refine (reply_wp ((writeAllVectoredAt_wp p hCalm bufs hOwn hRange).mono ?_)).wlp
    exact fun _ _ hPost => congrArg Handle.access hPost.2.2.handle
  | readExactAt buf offset =>
    refine (reply_wp ((readExactAt_wp p hCalm hOwn buf offset).mono ?_)).wlp
    exact fun _ _ hPost => congrArg Handle.access hPost.2.handle
  | readExactVectoredAt bufs offset =>
    refine (reply_wp ((readExactVectoredAt_wp p hCalm hOwn bufs offset).mono ?_)).wlp
    exact fun _ _ hPost => congrArg Handle.access hPost.2.handle
  | appendAll buf =>
    refine (reply_wp ((appendAll_wp p hCalm hOwn buf).mono ?_)).wlp
    exact fun _ _ hPost => congrArg Handle.access hPost.2.2.handle
  | appendAllVectored bufs =>
    refine (reply_wp ((appendAllVectored_wp p hCalm hOwn bufs).mono ?_)).wlp
    exact fun _ _ hPost => congrArg Handle.access hPost.2.2.handle
  | seek pos => exact hSeek pos
  | streamPosition => exact hSeek (.current 0)

/-- **The Windows implementation serves every call on a handle**, when no step is
interrupted. -/
theorem serves_handle (p : Profile) (hCalm : env.InterruptedBefore 0) :
    FileState.handle.Serves (performHandle p env h) (fun w => w.file h)
      fun w => ReadsWrites h w ∧ (w.file h).pos ≤ i64Max := by
  rintro op w hRange ⟨hOpen, hPos⟩
  have hEnd : ∀ {f : FileState} {n total : Nat}, (w.file h).pos + total ≤ i64Max → n ≤ total →
      f.pos = (w.file h).pos + n → f.pos ≤ i64Max := by
    intro f n total hFits hn hEq
    rw [hEq]
    omega
  cases op with
  | file op =>
    obtain ⟨r, w', hr, rfl, hFile, hPositioned⟩ := serves p hCalm op w hRange ⟨hOpen.opened, hPos⟩
    refine ⟨_, w', hr, rfl, hFile, ⟨hPositioned.opened, ?_⟩, hPositioned.pos_le⟩
    rw [perform_access p hCalm hRange hOpen.opened _ _ hr]
    exact hOpen.access
  | readExact buf =>
    refine reply_wp ((stream_readExact_wp p hCalm hOpen buf).mono ?_)
    rintro r w' ⟨hEq, hOpen'⟩
    obtain ⟨rfl, hFile⟩ := Prod.mk.inj hEq
    refine ⟨rfl, hFile, hOpen', ?_⟩
    rw [hFile]
    refine hEnd hRange (Nat.le_trans (Nat.min_le_left ..) (Nat.le_of_eq ?_)) rfl
    exact Slice.length_addrs buf
  | readExactVectored bufs =>
    refine reply_wp ((stream_readExactVectored_wp p hCalm hOpen bufs).mono ?_)
    rintro r w' ⟨hEq, hOpen'⟩
    obtain ⟨rfl, hFile⟩ := Prod.mk.inj hEq
    refine ⟨rfl, hFile, hOpen', ?_⟩
    rw [hFile]
    refine hEnd hRange (Nat.le_trans (Nat.min_le_left ..) (Nat.le_of_eq ?_)) rfl
    exact length_cells bufs
  | writeAll buf =>
    refine reply_wp ((stream_writeAll_wp p hCalm hOpen buf).mono ?_)
    rintro r w' ⟨rfl, hFile, hOpen'⟩
    refine ⟨rfl, hFile, hOpen', ?_⟩
    rw [hFile]
    refine hEnd hRange (Nat.le_of_eq ?_) rfl
    rw [List.length_map, Slice.length_addrs]
  | writeAllVectored bufs =>
    refine reply_wp ((stream_writeAllVectored_wp p hCalm hOpen bufs).mono ?_)
    rintro r w' ⟨rfl, hFile, hOpen'⟩
    refine ⟨rfl, hFile, hOpen', ?_⟩
    rw [hFile]
    exact hEnd hRange (Nat.le_of_eq (Memory.length_gather ..)) rfl

end Windows

-- ---------------------------------------------------------------------------
-- Agreement
-- ---------------------------------------------------------------------------

/-- A handle on Windows, open for reading and writing, on the file of a description on Unix
that is not in append mode, at the same position. -/
structure Alike (b : Unix.Both) (w : Windows.World) (h : Nat) : Prop where
  opened : h < w.opened
  access : (w.handles h).access = .readWrite
  notAppending : b.1.machine.desc.appends = false
  pos_le : b.1.machine.desc.pos ≤ i64Max
  same : w.file h = b.1.machine.file

theorem Alike.readsWrites {b : Unix.Both} {w : Windows.World} {h : Nat} (hAlike : Alike b w h) :
    Windows.ReadsWrites h w ∧ (w.file h).pos ≤ i64Max := by
  refine ⟨⟨hAlike.opened, hAlike.access⟩, ?_⟩
  rw [hAlike.same]
  exact hAlike.pos_le

/-- **No program tells the systems apart.** Complete positional calls, appends, stream calls
and seeks, in any order and each chosen by the answers to those before it: on a file with
the same content and the same position a program returns the same on both systems, and
leaves the file that `FileState.handle` says. -/
theorem handles_agree {α : Type} (p q : Profile) {env : Unix.Env} {senv : Unix.Stream.Env}
    {wenv : Windows.Env} (hCalm : env.Calm) (hStream : senv.Calm)
    (hWindows : ∀ i, wenv.interrupted i = false) (b : Unix.Both) (w : Windows.World) (h : Nat)
    (hAlike : Alike b w h) (x : Prog HandleOp (fun _ => Reply) Fault α)
    (hRange : FileState.handle.Allows b.1.machine.file x) :
    ∃ r b' w',
      (x.through (Unix.performHandle p env senv)).Returns b r b' ∧
      (x.through (Windows.performHandle q wenv h)).Returns w r w' ∧
      b'.1.machine.file = w'.file h ∧
      (r, b'.1.machine.file) = FileState.handle.run x b.1.machine.file := by
  have hWCalm : wenv.InterruptedBefore 0 := fun i hi => by
    rw [hWindows i] at hi
    exact absurd hi Bool.false_ne_true
  exact (Unix.serves_handle p hCalm hStream).agree (Windows.serves_handle q hWCalm) hAlike.same
    hRange hAlike.notAppending hAlike.readsWrites

def Reply.isOk : Reply → Bool
  | .unit r => r.isOk
  | .position r => r.isOk

/-- A program that reads on while it can, and at the end of the file goes back and writes
over what it has appended. -/
def rewrite : Prog HandleOp (fun _ => Reply) Fault Reply := do
  let _ ← .op (.file (.appendAllVectored [⟨10, 0, by decide⟩, ⟨20, 3, by decide⟩]))
  let first ← .op (.readExact ⟨30, 4, by decide⟩)
  let second ← .op (.readExactVectored [⟨30, 1, by decide⟩, ⟨40, 2, by decide⟩])
  if first.isOk && second.isOk then pure second
  else
    let _ ← .op (.file (.seek (.fromEnd (-2))))
    let _ ← .op (.writeAllVectored [⟨10, 2, by decide⟩, ⟨20, 1, by decide⟩])
    let _ ← .op (.file (.writeAllAt ⟨10, 4, by decide⟩ 9))
    .op (.file .streamPosition)

/-- One byte at a time and with `pwritev2` missing on the one side, two bytes at a time on
the other. -/
theorem handles_agree_short :
    ∃ r b' w',
      (rewrite.through (Unix.performHandle .debug (fun _ call => match call with
          | .pwritev2 _ _ _ => .fail .NOSYS
          | _ => .go 1) fun _ _ => .go 1)).Returns
        (⟨⟨fun _ => 7, [1, 2, 3], ⟨1, 0⟩⟩, []⟩, []) r b' ∧
      (rewrite.through (Windows.performHandle .release ⟨fun _ => false, fun _ => 2⟩ 0)).Returns
        ⟨fun _ => 7, [1, 2, 3], fun _ => ⟨1, .readWrite⟩, 1, 0, 0⟩ r w' ∧
      b'.1.machine.file = w'.file 0 ∧
      (r, b'.1.machine.file) = FileState.handle.run rewrite ⟨fun _ => 7, [1, 2, 3], 1⟩ :=
  handles_agree .debug .release (fun _ call => by
      cases call with
      | pwritev2 bufs offset flags => exact .inr ⟨bufs, offset, flags, .NOSYS, rfl, .inl rfl, rfl⟩
      | _ => exact .inl ⟨1, rfl⟩)
    (fun _ _ => ⟨1, rfl⟩) (fun _ => rfl) (⟨⟨fun _ => 7, [1, 2, 3], ⟨1, 0⟩⟩, []⟩, [])
    ⟨fun _ => 7, [1, 2, 3], fun _ => ⟨1, .readWrite⟩, 1, 0, 0⟩ 0
    ⟨by decide, rfl, rfl, by decide, rfl⟩ rewrite (by decide)

end SystemInterface
