import SystemInterface.Windows.World

/-!
# SystemInterface — complete transfers on Windows

What the complete-transfer methods of the Windows implementation do to a file,
by way of a handle of their own. The methods that read and the loops that
append get the same result through any finite number of interrupted steps; the
methods that write are looked at without any.

Main results, for the handle `file` of the client, which stays as it is:

* `readExactAt_wp`, `readExactVectoredAt_wp` — the abstract read at the offset;
* `writeAllAt_wp`, `writeAllVectoredAt_wp` — the abstract write at the offset;
* `appendAll_wp`, `appendAllVectored_wp` — the abstract write at the end.
-/

namespace SystemInterface.Windows

open Effect

variable {env : Env} {N : Nat} {w : World} {file h : Nat} {hd : Handle}

-- ---------------------------------------------------------------------------
-- The client's handle and a handle aside
-- ---------------------------------------------------------------------------

/-- The client's handle is open and still what it was. -/
structure Own (file : Nat) (hd : Handle) (w : World) : Prop where
  opened : file < w.opened
  handle : w.handles file = hd

/-- Beside the client's handle, `h` is open. -/
structure Aside (file : Nat) (hd : Handle) (h : Nat) (access : Access) (w : World) : Prop where
  own : Own file hd w
  ne : h ≠ file
  access : (w.handles h).access = access

/-- What the client sees. -/
theorem Own.file_eq (hOwn : Own file hd w) : w.file file = ⟨w.mem, w.content, hd.pos⟩ := by
  rw [← hOwn.handle]
  rfl

/-- A handle just opened. -/
theorem Own.reopen (hOwn : Own file hd w) (access : Access) :
    Aside file hd w.opened access (w.reopen access).2 := by
  have hNe : file ≠ w.opened := Nat.ne_of_lt hOwn.opened
  refine ⟨⟨Nat.lt_succ_of_lt hOwn.opened, ?_⟩, hNe.symm, ?_⟩
  · show Function.update w.handles w.opened ⟨0, access⟩ file = hd
    rw [Function.update_of_ne hNe, hOwn.handle]
  · show (Function.update w.handles w.opened ⟨0, access⟩ w.opened).access = access
    rw [Function.update_self]

/-- A step may move the position of the handle aside. -/
theorem Aside.moved {access : Access} {w' : World} (hAside : Aside file hd h access w) {pos : Nat}
    (hHandles : w'.handles = (w.setPos h pos).handles) (hOpened : w'.opened = w.opened) :
    Aside file hd h access w' := by
  refine ⟨⟨by rw [hOpened]; exact hAside.own.opened, ?_⟩, hAside.ne, ?_⟩
  · rw [hHandles]
    show Function.update w.handles h _ file = hd
    rw [Function.update_of_ne hAside.ne.symm, hAside.own.handle]
  · rw [hHandles]
    show (Function.update w.handles h _ h).access = access
    rw [Function.update_self]
    exact hAside.access

@[simp] theorem setPos_handles_self (w : World) (h pos : Nat) :
    (w.setPos h pos).handles h = ⟨pos, (w.handles h).access⟩ := by
  show Function.update w.handles h _ h = _
  rw [Function.update_self]

@[simp] theorem file_setPos_self (w : World) (h pos : Nat) :
    (w.setPos h pos).file h = { w.file h with pos := pos } := by
  show (⟨w.mem, w.content, ((w.setPos h pos).handles h).pos⟩ : FileState) = _
  rw [setPos_handles_self]
  rfl

-- ---------------------------------------------------------------------------
-- Steps
-- ---------------------------------------------------------------------------

/-- One step: interrupted, or made. -/
theorem step_wp {α : Type} {x : World → Result α × World} {Post : Result α → World → Prop}
    (hIntr : env.interrupted w.steps = true →
      Post (.error interruption) (w.atStep (w.steps + 1)))
    (hGo : env.interrupted w.steps = false →
      Post (x (w.atStep (w.steps + 1))).1 (x (w.atStep (w.steps + 1))).2) :
    (env.step x).wp w Post := by
  apply Proc.wp_ofStep
  cases hi : env.interrupted w.steps with
  | true => exact hIntr hi
  | false => exact hGo hi

/-- A step that is tried again until it is not interrupted. -/
theorem retry_step_wp {α : Type} {x : World → Result α × World} {Post : Result α → World → Prop}
    (hN : env.InterruptedBefore N)
    (hGo : ∀ s, Post (x (w.atStep s)).1 (x (w.atStep s)).2 ∧
      ∀ e, (x (w.atStep s)).1 = .error e → e.isInterrupted = false) :
    (retryInterrupted (env.step x)).wp w Post := by
  refine Proc.retry_wp (fun w' => ∃ s, w' = w.atStep s) (fun w' => N - w'.steps)
    ?_ ⟨w.steps, rfl⟩
  rintro _ ⟨s, rfl⟩
  refine step_wp (fun hIntr => ?_) fun _ => ?_
  · have hlt : s < N := hN s hIntr
    show if interruption.isInterrupted then _ else _
    rw [if_pos (by decide)]
    refine ⟨⟨s + 1, rfl⟩, ?_⟩
    show N - (s + 1) < N - s
    omega
  · have hAt : (w.atStep s).atStep ((w.atStep s).steps + 1) = w.atStep (s + 1) := rfl
    obtain ⟨hPost, hHard⟩ := hGo (s + 1)
    rw [hAt]
    cases hr : (x (w.atStep (s + 1))).1 with
    | ok a =>
      rw [hr] at hPost
      exact hPost
    | error e =>
      rw [hr] at hPost
      show if e.isInterrupted then _ else _
      rw [if_neg (by rw [hHard e hr]; exact Bool.false_ne_true)]
      exact hPost

-- ---------------------------------------------------------------------------
-- Single transfers
-- ---------------------------------------------------------------------------

/-- What a transfer through the handle `h` has made of the world. -/
structure Moved (h pos : Nat) (mem : Memory) (content : List UInt8) (w w' : World) : Prop where
  mem : w'.mem = mem
  content : w'.content = content
  handles : w'.handles = (w.setPos h pos).handles
  opened : w'.opened = w.opened
  steps : w'.steps = w.steps
  transfers : w'.transfers = w.transfers + 1

/-- A read through a handle that may read fills the first bytes of the list
that the buffer was picked from. -/
theorem readAt_spec {bufs : List Slice} {buf : Slice} (hReads : (w.handles h).access.reads = true)
    (hWin : LeadingWindow bufs [buf]) (offset size : Nat) :
    ∃ n w', w.readAt h buf offset size = (.ok n, w') ∧
      n ≤ totalLen bufs ∧ n ≤ u32Max ∧ n ≤ (w.content.drop offset).length ∧
      (n = 0 → HeadEmpty bufs ∨ w.content.drop offset = []) ∧
      Moved h (offset + n) (store w.mem (cells bufs) ((w.content.drop offset).take n)) w.content
        w w' := by
  set data := w.content.drop offset with hData
  set n := shortCount size (min (min buf.len u32Max) data.length) with hn
  have hLe : n ≤ min (min buf.len u32Max) data.length := shortCount_le ..
  have hLen : totalLen [buf] = buf.len := by rw [totalLen_cons, totalLen_nil, Nat.add_zero]
  have hTotal := hWin.le
  have hStore : w.mem.scatter [buf] (data.take n) = store w.mem (cells bufs) (data.take n) := by
    unfold Memory.scatter
    rw [hWin.cells_eq]
    exact store_take_addrs _ _ (by rw [List.length_take]; omega)
  refine ⟨n, World.setPos { w with
      mem := w.mem.scatter [buf] (data.take n), transfers := w.transfers + 1 } h (offset + n),
    ?_, by omega, by omega, by omega, fun h0 => ?_, ⟨hStore, rfl, rfl, rfl, rfl, rfl⟩⟩
  · unfold World.readAt
    rw [if_pos hReads]
  · rw [hn, shortCount_eq_zero] at h0
    by_cases hEmpty : buf.len = 0
    · exact Or.inl (hWin.headEmpty (hLen.trans hEmpty))
    · right
      apply List.eq_nil_of_length_eq_zero
      unfold u32Max at h0
      omega

/-- A write through a handle that may write puts the first bytes of the list
that the buffer was picked from in place. -/
theorem writeAt_spec {bufs : List Slice} {buf : Slice}
    (hWrites : (w.handles h).access.writes = true) (hWin : LeadingWindow bufs [buf])
    (offset size : Nat) :
    ∃ n pos w', w.writeAt h buf offset size = (.ok n, w') ∧
      n = shortCount size (min buf.len u32Max) ∧ n ≤ totalLen bufs ∧ (n = 0 → HeadEmpty bufs) ∧
      Moved h pos w.mem (place (if (w.handles h).access = .append then none else some offset)
        w.content ((w.mem.gather bufs).take n)) w w' := by
  set n := shortCount size (min buf.len u32Max) with hn
  have hLe : n ≤ min buf.len u32Max := shortCount_le ..
  have hLen : totalLen [buf] = buf.len := by rw [totalLen_cons, totalLen_nil, Nat.add_zero]
  have hTotal := hWin.le
  have hData : (w.mem.gather [buf]).take n = (w.mem.gather bufs).take n := by
    rw [hWin.gather, List.take_take, Nat.min_eq_left (by omega)]
  set start := if (w.handles h).access = .append then w.content.length else offset with hStart
  have hPlace : splice 0 w.content start ((w.mem.gather [buf]).take n) =
      place (if (w.handles h).access = .append then none else some offset) w.content
        ((w.mem.gather bufs).take n) := by
    rw [hData, hStart]
    split
    · exact splice_length_self 0 _ _
    · rfl
  refine ⟨n, start + n, World.setPos { w with
      content := splice 0 w.content start ((w.mem.gather [buf]).take n)
      transfers := w.transfers + 1 } h (start + n),
    ?_, rfl, by omega, fun h0 => ?_, ⟨rfl, hPlace, rfl, rfl, rfl, rfl⟩⟩
  · unfold World.writeAt
    rw [if_pos hWrites]
  · rw [hn, shortCount_eq_zero] at h0
    refine hWin.headEmpty (hLen.trans ?_)
    unfold u32Max at h0
    omega

-- ---------------------------------------------------------------------------
-- Reading
-- ---------------------------------------------------------------------------

theorem Own.atStep (hOwn : Own file hd w) (s : Nat) : Own file hd (w.atStep s) :=
  ⟨hOwn.opened, hOwn.handle⟩

theorem Aside.atStep {access : Access} (hAside : Aside file hd h access w) (s : Nat) :
    Aside file hd h access (w.atStep s) :=
  ⟨hAside.own.atStep s, hAside.ne, hAside.access⟩

theorem isInterrupted_interruption : interruption.isInterrupted = true := by decide

/-- The budget of a run: the steps before `N`. -/
def stepsLeft (N : Nat) (w : World) : Nat := N - w.steps

section

variable {S : Type} {l : BufferLoop S} {s : S} {bufs : List Slice} {buf : Slice}

/-- One read from the handle aside, as a call of a loop. -/
theorem read_fetched (hN : env.InterruptedBefore N) (hAside : Aside file hd h .read w)
    (hRetry : l.transfer.retry = Fault.isInterrupted) (hOffset : l.offset s = none)
    (hAddrs : l.addrs s = cells bufs) (hFull : ¬ HeadEmpty bufs)
    (hWin : LeadingWindow bufs [buf]) :
    (env.read h buf).wp w fun a w' =>
      FileState.Fetched l (fun w => w.file h) (Aside file hd h .read) s w a w' ∧
        FileState.Spends (stepsLeft N) w a w' := by
  refine step_wp (fun hIntr => ?_) fun _ => ?_
  · have hlt := hN w.steps hIntr
    refine ⟨⟨by rw [hRetry]; exact isInterrupted_interruption, rfl, hAside.atStep _⟩, ?_⟩
    show N - (w.steps + 1) < N - w.steps
    omega
  · set w₁ := w.atStep (w.steps + 1) with hw₁
    have hAside₁ : Aside file hd h .read w₁ := hAside.atStep _
    obtain ⟨n, w', hEq, hn, hMax, hAhead, hZero, hMoved⟩ := readAt_spec (w := w₁) (h := h)
      (by rw [hAside₁.access]; rfl) hWin (w₁.handles h).pos (env.size w₁.transfers)
    rw [hEq]
    refine ⟨⟨?_, ?_, ?_, fun h0 => ?_, ?_, hAside₁.moved hMoved.handles hMoved.opened⟩, ?_⟩
    · rw [hAddrs, length_cells]
      exact hn
    · left
      unfold u32Max at hMax
      unfold isizeMax
      omega
    · rw [hOffset]
      exact hAhead
    · rw [hOffset]
      exact (hZero h0).resolve_left hFull
    · show (⟨w'.mem, w'.content, (w'.handles h).pos⟩ : FileState) = _
      rw [hMoved.mem, hMoved.content, hMoved.handles, setPos_handles_self, hOffset, hAddrs]
      rfl
    · show N - w'.steps ≤ N - w.steps
      rw [hMoved.steps]
      show N - (w.steps + 1) ≤ N - w.steps
      omega

end

/-- `read_exact` of `std`, on the handle aside. -/
theorem readExact_wp (hN : env.InterruptedBefore N) (hAside : Aside file hd h .read w)
    (buf : Slice) :
    (RustStd.readExact (env.read h) buf).wp w fun r w' =>
      (r, w'.file h) = (w.file h).readExact none buf.addrs ∧ Aside file hd h .read w' := by
  refine FileState.ReadLoop.wp (l := RustStd.readExact.bufferLoop) rfl (fun s _ hne => ?_)
    (stepsLeft N) (fun _ s w _ hne hA => ?_) (BufferLoop.offsetFits_none rfl) trivial hAside
  · exact Slice.addrs_ne_nil (Slice.len_ne_zero hne)
  · exact read_fetched hN hA rfl rfl (cells_singleton s).symm (not_headEmpty_singleton hne)
      (leadingWindow_self s)

/-- `read_exact_vectored`, on the handle aside. -/
theorem readExactVectored_wp (p : Profile) (hN : env.InterruptedBefore N)
    (hAside : Aside file hd h .read w) (bufs : List IoSliceMut) :
    (IoExt.Default.readExactVectored p (env.os.readVectored h) bufs).wp w fun r w' =>
      (r, w'.file h) = (w.file h).readExact none (cells bufs) ∧ Aside file hd h .read w' := by
  rw [← cells_skipLeadingEmpties bufs]
  refine FileState.ReadLoop.wp (l := IoExt.Default.readExactVectored.bufferLoop p) rfl
    (fun s hReady hne => HeadFull.cells_ne_nil hReady hne) (stepsLeft N)
    (fun _ s w hAt hne hA => ?_) (BufferLoop.offsetFits_none rfl)
    (headFull_skipLeadingEmpties bufs) hAside
  exact read_fetched hN hA rfl rfl rfl (HeadFull.not_headEmpty hAt.ready hne)
    (leadingWindow_firstNonEmpty s)

/-- The read that the methods make: at an offset that a seek accepts. -/
def readExactOr (f : FileState) (offset : Nat) (addrs : List Nat) : Result Unit × FileState :=
  if offset ≤ i64Max then f.readExact (some offset) addrs else (.error negativeSeek, f)

theorem reopen_retried (hN : env.InterruptedBefore N) :
    (retryInterrupted (env.os.reopen file)).wp w fun r w' =>
      ∃ s, r = .ok w.opened ∧ w' = ((w.atStep s).reopen .read).2 := by
  show (retryInterrupted (env.step fun w => w.reopen .read)).wp w _
  refine retry_step_wp hN fun s => ⟨⟨s, rfl, rfl⟩, fun e he => ?_⟩
  exact absurd he (by simp [World.reopen])

theorem seek_start (w : World) (h offset : Nat) :
    w.seek h (.start offset) =
      if offset ≤ i64Max then (.ok offset, w.setPos h offset) else (.error negativeSeek, w) := by
  have hIn : (0 ≤ w.target h (.start offset) ∧ w.target h (.start offset) ≤ i64Max) ↔
      offset ≤ i64Max := (w.file h).start_in_range
  unfold World.seek
  simp only [hIn]
  rfl

theorem seek_retried (hN : env.InterruptedBefore N) (offset : Nat) :
    (retryInterrupted (env.os.seek h (.start offset))).wp w fun r w' =>
      ∃ s, (r, w') = (w.atStep s).seek h (.start offset) := by
  show (retryInterrupted (env.step fun w => w.seek h (.start offset))).wp w _
  refine retry_step_wp hN fun s => ⟨⟨s, rfl⟩, fun e he => ?_⟩
  rw [seek_start] at he
  split at he
  · exact absurd he (by simp)
  · obtain rfl := Except.error.inj he
    decide

/-- A handle is opened and positioned, and then read from. -/
theorem positioned_wp {read : Nat → Proc World Fault Unit} {addrs : List Nat} {offset : Nat}
    (hN : env.InterruptedBefore N) (hOwn : Own file hd w)
    (hRead : ∀ h w, Aside file hd h .read w → (read h).wp w fun r w' =>
      (r, w'.file h) = (w.file h).readExact none addrs ∧ Aside file hd h .read w') :
    (do
      let reopened ← retryInterrupted (env.os.reopen file)
      let _ ← retryInterrupted (env.os.seek reopened (.start offset))
      read reopened : Proc World Fault Unit).wp w fun r w' =>
        (r, w'.file file) = readExactOr (w.file file) offset addrs ∧ Own file hd w' := by
  refine Proc.wp_bind ((reopen_retried hN).mono ?_)
  rintro _ _ ⟨s, rfl, rfl⟩
  have hAside : Aside file hd w.opened .read ((w.atStep s).reopen .read).2 :=
    (hOwn.atStep s).reopen .read
  refine Proc.wp_bind ((seek_retried hN offset).mono ?_)
  rintro r w' ⟨s', hSeek⟩
  unfold readExactOr
  rw [seek_start] at hSeek
  by_cases hMax : offset ≤ i64Max
  · rw [if_pos hMax] at hSeek ⊢
    obtain ⟨rfl, rfl⟩ := Prod.mk.inj hSeek
    -- the handle stands at the offset, and the client's handle is elsewhere
    apply (hRead w.opened _ ((hAside.atStep s').moved rfl rfl)).mono
    intro r w' hPost
    obtain ⟨hEq, hAside'⟩ := hPost
    rw [file_setPos_self] at hEq
    obtain ⟨hr, hFile⟩ := Prod.mk.inj hEq
    refine ⟨?_, hAside'.own⟩
    rw [FileState.readExact_some, hOwn.file_eq]
    apply Prod.ext hr
    show w'.file file = { (_ : FileState) with pos := hd.pos }
    rw [hAside'.own.file_eq]
    show { w'.file w.opened with pos := hd.pos } = _
    rw [hFile]
    rfl
  · rw [if_neg hMax] at hSeek ⊢
    obtain ⟨rfl, rfl⟩ := Prod.mk.inj hSeek
    have hOwn' := (hAside.atStep s').own
    refine ⟨?_, hOwn'⟩
    rw [hOwn.file_eq, hOwn'.file_eq]
    rfl

/-- **`read_exact_at`.** -/
theorem readExactAt_wp (p : Profile) (hN : env.InterruptedBefore N) (hOwn : Own file hd w)
    (buf : Slice) (offset : Nat) :
    ((Windows.file p env file).readExactAt buf offset).wp w fun r w' =>
      (r, w'.file file) = readExactOr (w.file file) offset buf.addrs ∧ Own file hd w' :=
  positioned_wp hN hOwn fun _ _ hAside => readExact_wp hN hAside buf

/-- **`read_exact_vectored_at`.** -/
theorem readExactVectoredAt_wp (p : Profile) (hN : env.InterruptedBefore N)
    (hOwn : Own file hd w) (bufs : List IoSliceMut) (offset : Nat) :
    ((Windows.file p env file).readExactVectoredAt bufs offset).wp w fun r w' =>
      (r, w'.file file) = readExactOr (w.file file) offset (cells bufs) ∧ Own file hd w' :=
  positioned_wp hN hOwn fun _ _ hAside => readExactVectored_wp p hN hAside bufs

-- ---------------------------------------------------------------------------
-- Appending
-- ---------------------------------------------------------------------------

/-- One append, as a call of a loop: a handle is opened for it each time. -/
theorem append_sent {S : Type} {l : BufferLoop S} {s : S} {bufs : List Slice} {buf : Slice}
    (hN : env.InterruptedBefore N) (hOwn : Own file hd w)
    (hRetry : l.transfer.retry = Fault.isInterrupted) (hZero : l.zero = none)
    (hOffset : l.offset s = none) (hAddrs : l.addrs s = cells bufs)
    (hMayZero : HeadEmpty bufs → l.MayZero s) (hWin : LeadingWindow bufs [buf]) :
    (append env.os file buf).wp w fun a w' =>
      FileState.Sent l (fun w => w.file file) (Own file hd) s w a w' ∧
        FileState.Spends (stepsLeft N) w a w' := by
  have hFailed : ∀ w₁ : World, w₁.steps < N → w.steps ≤ w₁.steps → Own file hd w₁ →
      w₁.mem = w.mem → w₁.content = w.content →
      FileState.Sent l (fun w => w.file file) (Own file hd) s w (.error interruption)
        (w₁.atStep (w₁.steps + 1)) ∧
      FileState.Spends (stepsLeft N) w (.error interruption) (w₁.atStep (w₁.steps + 1)) := by
    intro w₁ hlt hle hOwn₁ hMem hContent
    refine ⟨⟨by rw [hRetry]; exact isInterrupted_interruption, ?_, hOwn₁.atStep _⟩, ?_⟩
    · show World.file (w₁.atStep (w₁.steps + 1)) file = w.file file
      rw [(hOwn₁.atStep _).file_eq, hOwn.file_eq, ← hMem, ← hContent]
      rfl
    · show N - (w₁.steps + 1) < N - w.steps
      omega
  show Proc.wp ((env.step fun w => w.reopen .append) >>= fun h => env.write h buf) w _
  refine Proc.wp_bind (step_wp (fun hIntr => ?_) fun _ => ?_)
  · exact hFailed w (hN _ hIntr) le_rfl hOwn rfl rfl
  set w₁ := ((w.atStep (w.steps + 1)).reopen .append).2 with hw₁
  have hAside : Aside file hd w.opened .append w₁ := (hOwn.atStep (w.steps + 1)).reopen .append
  show (env.write w.opened buf).wp w₁ _
  refine step_wp (fun hIntr => ?_) fun _ => ?_
  · exact hFailed w₁ (hN _ hIntr) (Nat.le_succ _) hAside.own rfl rfl
  have hAside₂ : Aside file hd w.opened .append (w₁.atStep (w₁.steps + 1)) := hAside.atStep _
  obtain ⟨n, pos, w', hEq, hSize, hn, hZeroN, hMoved⟩ :=
    writeAt_spec (w := w₁.atStep (w₁.steps + 1)) (h := w.opened)
      (by rw [hAside₂.access]; rfl) hWin ((w₁.atStep (w₁.steps + 1)).handles w.opened).pos
      (env.size (w₁.atStep (w₁.steps + 1)).transfers)
  have hOwn' : Own file hd w' := (hAside₂.moved hMoved.handles hMoved.opened).own
  rw [if_pos hAside₂.access] at hMoved
  rw [hEq]
  refine ⟨⟨?_, ?_, fun h0 => ⟨hZero, hMayZero (hZeroN h0)⟩, ?_, hOwn'⟩, ?_⟩
  · rw [hAddrs, length_cells]
    exact hn
  · left
    have hLe := shortCount_le (env.size (w₁.atStep (w₁.steps + 1)).transfers) (min buf.len u32Max)
    unfold isizeMax
    unfold u32Max at hLe hSize
    omega
  · show w'.file file = (w.file file).write _ _
    rw [hOwn'.file_eq, hMoved.mem, hMoved.content, hOffset, hAddrs, hOwn.file_eq]
    rfl
  · show N - w'.steps ≤ N - w.steps
    rw [hMoved.steps]
    show N - (w.steps + 1 + 1) ≤ N - w.steps
    omega

/-- **`append_all`.** -/
theorem appendAll_wp (p : Profile) (hN : env.InterruptedBefore N) (hOwn : Own file hd w)
    (buf : Slice) :
    ((Windows.file p env file).appendAll buf).wp w fun r w' =>
      r = .ok () ∧ w'.file file = (w.file file).write none (buf.addrs.map w.mem) ∧
        Own file hd w' := by
  refine FileState.writes_wp (l := FileIoExt.Default.appendAll.bufferLoop) (stepsLeft N)
    (fun _ s w _ hne hO => ?_) (BufferLoop.offsetFits_none rfl) trivial hOwn
  exact append_sent hN hO rfl rfl rfl (cells_singleton s).symm
    (fun hEmpty => not_headEmpty_singleton hne hEmpty) (leadingWindow_self s)

/-- **`append_all_vectored`.** -/
theorem appendAllVectored_wp (p : Profile) (hN : env.InterruptedBefore N) (hOwn : Own file hd w)
    (bufs : List IoSlice) :
    ((Windows.file p env file).appendAllVectored bufs).wp w fun r w' =>
      r = .ok () ∧ w'.file file = (w.file file).write none (w.mem.gather bufs) ∧
        Own file hd w' := by
  refine FileState.writes_wp (l := FileIoExt.Default.appendAllVectored.bufferLoop p) (stepsLeft N)
    (fun _ s w _ _ hO => ?_) (BufferLoop.offsetFits_none rfl) trivial hOwn
  exact append_sent hN hO rfl rfl rfl rfl id (leadingWindow_firstNonEmpty s)

-- ---------------------------------------------------------------------------
-- Writing
-- ---------------------------------------------------------------------------

/-- One write at an offset, as a call of a loop. -/
theorem seekWrite_sent {S : Type} {l : BufferLoop S} {s : S} {buf : Slice} {offset : Nat}
    (hCalm : env.InterruptedBefore 0) (hAside : Aside file hd h .write w)
    (hOffset : l.offset s = some offset) (hMax : offset ≤ i64Max)
    (hAddrs : l.addrs s = buf.addrs) (hne : buf.isEmpty = false) :
    (env.seekWrite h buf offset).wp w fun a w' =>
      FileState.Sent l (fun w => w.file file) (Aside file hd h .write) s w a w' ∧
        FileState.Spends (fun _ => 0) w a w' := by
  refine step_wp (fun hIntr => absurd (hCalm _ hIntr) (Nat.not_lt_zero _)) fun _ => ?_
  rw [if_pos hMax]
  set w₁ := w.atStep (w.steps + 1) with hw₁
  have hAside₁ : Aside file hd h .write w₁ := hAside.atStep _
  obtain ⟨n, pos, w', hEq, hSize, hn, hZero, hMoved⟩ := writeAt_spec (w := w₁) (h := h)
    (by rw [hAside₁.access]; rfl) (leadingWindow_self buf) offset (env.size w₁.transfers)
  rw [if_neg (by rw [hAside₁.access]; decide)] at hMoved
  rw [hEq]
  have hAside' : Aside file hd h .write w' := hAside₁.moved hMoved.handles hMoved.opened
  refine ⟨⟨?_, ?_, fun h0 => absurd (hZero h0) (not_headEmpty_singleton hne), ?_, hAside'⟩,
    le_rfl⟩
  · rw [hAddrs, ← cells_singleton, length_cells]
    exact hn
  · left
    have hLe := shortCount_le (env.size w₁.transfers) (min buf.len u32Max)
    unfold isizeMax
    unfold u32Max at hLe hSize
    omega
  · show w'.file file = (w.file file).write _ _
    rw [hAside'.own.file_eq, hMoved.mem, hMoved.content, hOffset, hAddrs, hAside.own.file_eq,
      Memory.gather, cells_singleton]
    rfl

/-- **`write_all_at`**, without interruptions. -/
theorem writeAllAt_wp (p : Profile) (hCalm : env.InterruptedBefore 0) (hOwn : Own file hd w)
    (buf : Slice) {offset : Nat} (hFits : offset + buf.len ≤ i64Max) :
    ((Windows.file p env file).writeAllAt buf offset).wp w fun r w' =>
      r = .ok () ∧ w'.file file = (w.file file).write (some offset) (buf.addrs.map w.mem) ∧
        Own file hd w' := by
  show Proc.wp ((env.step fun w => w.reopen .write) >>= fun reopened =>
    (writeAllAt.transfer p).run (fun s => env.seekWrite reopened s.1 s.2) (buf, offset)) w _
  refine Proc.wp_bind
    (step_wp (fun hIntr => absurd (hCalm _ hIntr) (Nat.not_lt_zero _)) fun _ => ?_)
  set w₁ := ((w.atStep (w.steps + 1)).reopen .write).2 with hw₁
  have hAside : Aside file hd w.opened .write w₁ := (hOwn.atStep (w.steps + 1)).reopen .write
  have hCall : ∀ k s v, (writeAllAt.bufferLoop p).At (buf, offset) k s →
      s.1.isEmpty = false → Aside file hd w.opened .write v →
      (env.seekWrite w.opened s.1 s.2).wp v fun a v' =>
        FileState.Sent (writeAllAt.bufferLoop p) (fun w => w.file file)
          (Aside file hd w.opened .write) s v a v' ∧ FileState.Spends (fun _ => 0) v a v' := by
    intro k s v hAt hne hA
    have hOffset : s.2 = offset + k := Option.some.inj hAt.offset_eq
    have hk : k ≤ buf.len := by
      have hLe := hAt.le
      rwa [show ((writeAllAt.bufferLoop p).addrs (buf, offset)).length = buf.len from
        Slice.length_addrs buf] at hLe
    exact seekWrite_sent hCalm hA rfl (by omega) rfl hne
  have hFits' : (writeAllAt.bufferLoop p).OffsetFits (buf, offset) := by
    apply BufferLoop.offsetFits_some rfl
    show offset + buf.addrs.length < 2 ^ 64
    rw [Slice.length_addrs]
    unfold i64Max at hFits
    omega
  refine (FileState.writes_wp (fun _ => 0) hCall hFits' trivial hAside).mono ?_
  rintro r w' ⟨hr, hFile, hAside'⟩
  refine ⟨hr, ?_, hAside'.own⟩
  rw [hFile, hAside.own.file_eq, hOwn.file_eq]
  rfl

/-- **`write_all_vectored_at`**, without interruptions: one buffer after the
other. -/
theorem writeAllVectoredAt_wp (p : Profile) (hCalm : env.InterruptedBefore 0)
    (bufs : List IoSlice) {w : World} (hOwn : Own file hd w) {offset : Nat}
    (hFits : offset + totalLen bufs ≤ i64Max) :
    ((Windows.file p env file).writeAllVectoredAt bufs offset).wp w fun r w' =>
      r = .ok () ∧ w'.file file = (w.file file).write (some offset) (w.mem.gather bufs) ∧
        Own file hd w' := by
  induction bufs generalizing w offset with
  | nil =>
    refine Proc.wp_pure ⟨rfl, ?_, hOwn⟩
    exact (FileState.write_nil _ _).symm
  | cons buf bufs ih =>
    rw [totalLen_cons] at hFits
    refine Proc.wp_bind ((writeAllAt_wp p hCalm hOwn buf (by omega)).mono ?_)
    rintro _ w₁ ⟨rfl, hFile, hOwn₁⟩
    have hAdd : p.add offset buf.len = .ok (offset + buf.len) :=
      p.add_of_lt (by unfold i64Max at hFits; omega)
    have hMem : w₁.mem = w.mem := congrArg FileState.mem hFile
    have hLen : (buf.addrs.map w.mem).length = buf.len := by
      rw [List.length_map, Slice.length_addrs]
    show Proc.wp (Proc.ofExcept (p.add offset buf.len) >>= fun offset =>
      writeAllVectoredAt p env.os file bufs offset) w₁ _
    rw [hAdd]
    refine Proc.wp_bind (Proc.wp_ofExcept ?_)
    apply (ih hOwn₁ (by omega)).mono
    rintro r w' ⟨hr, hFile', hOwn'⟩
    refine ⟨hr, ?_, hOwn'⟩
    rw [hFile', hFile, hMem]
    have hAppend := (w.file file).write_append offset (buf.addrs.map w.mem) (w.mem.gather bufs)
    rw [hLen] at hAppend
    rw [hAppend, Memory.gather, Memory.gather, cells_cons, List.map_append]

-- ---------------------------------------------------------------------------
-- The position of the client's handle
-- ---------------------------------------------------------------------------

/-- The client's handle is open, and stands at a position in range. -/
structure Positioned (file : Nat) (w : World) : Prop where
  opened : file < w.opened
  pos_le : (w.handles file).pos ≤ i64Max

theorem Positioned.of_own {w' : World} (hPositioned : Positioned file w)
    (hOwn : Own file (w.handles file) w') : Positioned file w' :=
  ⟨hOwn.opened, by rw [hOwn.handle]; exact hPositioned.pos_le⟩

/-- **`seek`**, to a position in range, without interruptions. -/
theorem seek_wp (p : Profile) (hCalm : env.InterruptedBefore 0) {pos : SeekFrom}
    (hRange : 0 ≤ (w.file file).target pos ∧ (w.file file).target pos ≤ i64Max)
    (hPositioned : Positioned file w) :
    ((Windows.file p env file).seek pos).wp w fun r w' =>
      r = .ok ((w.file file).target pos).toNat ∧
        w'.file file = { w.file file with pos := ((w.file file).target pos).toNat } ∧
        Positioned file w' := by
  set w₁ := w.atStep (w.steps + 1) with hw₁
  have hSeek : w₁.seek file pos = (.ok ((w.file file).target pos).toNat,
      w₁.setPos file ((w.file file).target pos).toNat) := by
    have hTarget : w₁.target file pos = (w.file file).target pos := by cases pos <;> rfl
    unfold World.seek
    rw [hTarget, if_pos hRange]
  show Proc.wp (env.step fun w => w.seek file pos) w _
  refine step_wp (fun hIntr => absurd (hCalm _ hIntr) (Nat.not_lt_zero _)) fun _ => ?_
  rw [← hw₁, hSeek]
  refine ⟨rfl, file_setPos_self w₁ file _, hPositioned.opened, ?_⟩
  rw [setPos_handles_self]
  exact Int.toNat_le.mpr hRange.2

/-- **`stream_position`**, without interruptions. -/
theorem streamPosition_wp (p : Profile) (hCalm : env.InterruptedBefore 0)
    (hPositioned : Positioned file w) :
    ((Windows.file p env file).streamPosition).wp w fun r w' =>
      r = .ok (w.handles file).pos ∧ w'.file file = w.file file ∧ Positioned file w' := by
  have hTarget : (w.file file).target (.current 0) = ((w.handles file).pos : Int) :=
    Int.add_zero _
  have hRange : 0 ≤ (w.file file).target (.current 0) ∧
      (w.file file).target (.current 0) ≤ i64Max := by
    rw [hTarget]
    exact ⟨Int.natCast_nonneg _, Int.ofNat_le.mpr hPositioned.pos_le⟩
  apply (seek_wp p hCalm hRange hPositioned).mono
  rw [hTarget, Int.toNat_natCast]
  exact fun r w' hPost => hPost

end SystemInterface.Windows
