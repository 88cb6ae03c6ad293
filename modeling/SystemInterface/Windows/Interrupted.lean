import SystemInterface.Windows.Files

/-!
# SystemInterface — interrupted steps on Windows

Any step that a complete-transfer method makes may answer `Interrupted`. The
methods that read, and the loops that append, try again and do what they would
have done without it. `write_all_at` and `write_all_vectored_at` pass it up:
they do what they would have done exactly if none of their steps is
interrupted, and `writeSteps` says how many steps these are.

Main results:

* `Brittle` — the two runs of such a method, step by step;
* `writeAllAt_brittle`, `writeAllVectoredAt_brittle` — the two methods;
* `interrupted_transparent_iff` — which methods are transparent, and when.
-/

namespace SystemInterface.Windows

open Effect

variable {α β : Type} {env : Env} {w u v : World} {file h : Nat} {hd : Handle}

-- ---------------------------------------------------------------------------
-- Transparency
-- ---------------------------------------------------------------------------

/-- With the interruptions of the environment the operation does what it does
without them, and does not report one. -/
def Transparent (op : Env → Proc World Fault Unit) (env : Env) (w : World) (file : Nat) : Prop :=
  ∃ r w' v', (op env).Returns w r w' ∧ (op env.calm).Returns w r v' ∧
    w'.file file = v'.file file ∧ ∀ f, r = .error f → f.isInterrupted = false

theorem calm_interruptedBefore (env : Env) : env.calm.InterruptedBefore 0 :=
  fun _ hi => absurd hi Bool.false_ne_true

/-- An operation with a specification that does not speak of the environment. -/
theorem transparent_of_spec {op : Env → Proc World Fault Unit} (spec : Result Unit × FileState)
    (hFinite : env.FinitelyInterrupted)
    (hOp : ∀ env : Env, ∀ N, env.InterruptedBefore N →
      (op env).wp w fun r w' => (r, w'.file file) = spec)
    (hSpec : ∀ f, spec.1 = .error f → f.isInterrupted = false) : Transparent op env w file := by
  obtain ⟨N, hN⟩ := hFinite
  obtain ⟨r, w', hr, hEq⟩ := hOp env N hN
  obtain ⟨r', v', hr', hEq'⟩ := hOp env.calm 0 (calm_interruptedBefore env)
  obtain ⟨hResult, hFile⟩ := Prod.mk.inj (hEq.trans hEq'.symm)
  subst hResult
  refine ⟨r, w', v', hr, hr', hFile, fun f hf => hSpec f ?_⟩
  rw [← hEq, hf]

-- ---------------------------------------------------------------------------
-- The methods that try again
-- ---------------------------------------------------------------------------

theorem readExactOr_not_interrupted (f : FileState) (offset : Nat) (addrs : List Nat) :
    ∀ e, (readExactOr f offset addrs).1 = .error e → e.isInterrupted = false := by
  intro e he
  unfold readExactOr at he
  split at he
  · unfold FileState.readExact at he
    simp only at he
    split at he
    · exact absurd he (by simp)
    · obtain rfl := Except.error.inj he
      decide
  · obtain rfl := Except.error.inj he
    decide

theorem readExactAt_transparent (p : Profile) (hFinite : env.FinitelyInterrupted)
    (hOwn : Own file hd w) (buf : Slice) (offset : Nat) :
    Transparent (fun env => (Windows.file p env file).readExactAt buf offset) env w file :=
  transparent_of_spec _ hFinite
    (fun _ _ hN => (readExactAt_wp p hN hOwn buf offset).mono fun _ _ hPost => hPost.1)
    (readExactOr_not_interrupted _ _ _)

theorem readExactVectoredAt_transparent (p : Profile) (hFinite : env.FinitelyInterrupted)
    (hOwn : Own file hd w) (bufs : List IoSliceMut) (offset : Nat) :
    Transparent (fun env => (Windows.file p env file).readExactVectoredAt bufs offset) env w
      file :=
  transparent_of_spec _ hFinite
    (fun _ _ hN => (readExactVectoredAt_wp p hN hOwn bufs offset).mono fun _ _ hPost => hPost.1)
    (readExactOr_not_interrupted _ _ _)

theorem appendAll_transparent (p : Profile) (hFinite : env.FinitelyInterrupted)
    (hOwn : Own file hd w) (buf : Slice) :
    Transparent (fun env => (Windows.file p env file).appendAll buf) env w file :=
  transparent_of_spec (.ok (), (w.file file).write none (buf.addrs.map w.mem)) hFinite
    (fun _ _ hN => (appendAll_wp p hN hOwn buf).mono fun _ _ hPost => Prod.ext hPost.1 hPost.2.1)
    (fun _ hf => absurd hf (by simp))

theorem appendAllVectored_transparent (p : Profile) (hFinite : env.FinitelyInterrupted)
    (hOwn : Own file hd w) (bufs : List IoSlice) :
    Transparent (fun env => (Windows.file p env file).appendAllVectored bufs) env w file :=
  transparent_of_spec (.ok (), (w.file file).write none (w.mem.gather bufs)) hFinite
    (fun _ _ hN => (appendAllVectored_wp p hN hOwn bufs).mono
      fun _ _ hPost => Prod.ext hPost.1 hPost.2.1)
    (fun _ hf => absurd hf (by simp))

-- ---------------------------------------------------------------------------
-- Procedures that pass interruptions up
-- ---------------------------------------------------------------------------

/-- Without interruptions the procedure makes `k` steps and returns `r` in `v`.
With them it does the same if none of these steps is interrupted, and else
returns the interruption. -/
structure Brittle (env : Env) (x : Env → Proc World Fault α) (w : World) (k : Nat)
    (r : Result α) (v : World) : Prop where
  calm : (x env.calm).Returns w r v
  steps : v.steps = w.steps + k
  same : (∀ i, i < k → env.interrupted (w.steps + i) = false) → (x env).Returns w r v
  stops : ∀ i, i < k → env.interrupted (w.steps + i) = true →
    ∃ w', (x env).Returns w (.error interruption) w'

theorem brittle_step {f : Env → World → Result α × World} {r : Result α}
    (hCalm : f env.calm (w.atStep (w.steps + 1)) = (r, v))
    (hSame : f env (w.atStep (w.steps + 1)) = (r, v)) (hSteps : v.steps = w.steps + 1) :
    Brittle env (fun e => e.step (f e)) w 1 r v where
  calm := Proc.returns_ofStep.mpr hCalm
  steps := hSteps
  same h := by
    have hNot : env.interrupted w.steps = false := h 0 Nat.one_pos
    apply Proc.returns_ofStep.mpr
    rw [hNot]
    exact hSame
  stops i hi hIntr := by
    obtain rfl : i = 0 := by omega
    have hYes : env.interrupted w.steps = true := hIntr
    refine ⟨w.atStep (w.steps + 1), Proc.returns_ofStep.mpr ?_⟩
    rw [hYes]
    rfl

/-- One procedure after another, put together as `z`. -/
theorem Brittle.seq {x : Env → Proc World Fault α} {y z : Env → Proc World Fault β} {a : α}
    {k l : Nat} {r : Result β} (hx : Brittle env x w k (.ok a) u) (hy : Brittle env y u l r v)
    (hOn : ∀ e r v, (x e).Returns w (.ok a) u → (y e).Returns u r v → (z e).Returns w r v)
    (hOff : ∀ e f w', (x e).Returns w (.error f) w' → (z e).Returns w (.error f) w') :
    Brittle env z w (k + l) r v where
  calm := hOn _ _ _ hx.calm hy.calm
  steps := by rw [hy.steps, hx.steps, Nat.add_assoc]
  same h := by
    have hFirst : (x env).Returns w (.ok a) u := hx.same fun i hi => h i (by omega)
    refine hOn _ _ _ hFirst (hy.same ?_)
    intro i hi
    rw [hx.steps, Nat.add_assoc]
    exact h (k + i) (by omega)
  stops i hi hIntr := by
    by_cases hEarlier : ∃ j, j < k ∧ env.interrupted (w.steps + j) = true
    · obtain ⟨j, hj, hIntr'⟩ := hEarlier
      obtain ⟨w', hw'⟩ := hx.stops j hj hIntr'
      exact ⟨w', hOff _ _ _ hw'⟩
    · -- the first procedure runs through, and the step is one of the second
      have hQuiet : ∀ j, j < k → env.interrupted (w.steps + j) = false := fun j hj => by
        by_contra hNot
        exact hEarlier ⟨j, hj, Bool.not_eq_false _ ▸ hNot⟩
      have hLate : k ≤ i := by
        by_contra hNot
        exact hEarlier ⟨i, by omega, hIntr⟩
      obtain ⟨w', hw'⟩ := hy.stops (i - k) (by omega) (by
        rw [hx.steps, Nat.add_assoc, show k + (i - k) = i from by omega]
        exact hIntr)
      exact ⟨w', hOn _ _ _ (hx.same hQuiet) hw'⟩

/-- A first procedure that fails. -/
theorem Brittle.fail {x : Env → Proc World Fault α} {z : Env → Proc World Fault β} {f : Fault}
    {k : Nat} (hx : Brittle env x w k (.error f) v)
    (hOff : ∀ e f w', (x e).Returns w (.error f) w' → (z e).Returns w (.error f) w') :
    Brittle env z w k (.error f) v where
  calm := hOff _ _ _ hx.calm
  steps := hx.steps
  same h := hOff _ _ _ (hx.same h)
  stops i hi hIntr := by
    obtain ⟨w', hw'⟩ := hx.stops i hi hIntr
    exact ⟨w', hOff _ _ _ hw'⟩

theorem Brittle.bind {x : Env → Proc World Fault α} {f : Env → α → Proc World Fault β} {a : α}
    {k l : Nat} {r : Result β} (hx : Brittle env x w k (.ok a) u)
    (hf : Brittle env (fun e => f e a) u l r v) :
    Brittle env (fun e => x e >>= f e) w (k + l) r v :=
  hx.seq hf (fun _ _ _ hOk hRest => (Proc.returns_bind_of_ok hOk).mpr hRest)
    (fun _ _ _ hError => Proc.returns_bind.mpr (Or.inl ⟨_, hError, rfl⟩))

theorem Brittle.bind_error {x : Env → Proc World Fault α} {f : Env → α → Proc World Fault β}
    {e : Fault} {k : Nat} (hx : Brittle env x w k (.error e) v) :
    Brittle env (fun e => x e >>= f e) w k (.error e) v :=
  hx.fail fun _ _ _ hError => Proc.returns_bind.mpr (Or.inl ⟨_, hError, rfl⟩)

theorem brittle_ofExcept (r : Result α) (w : World) :
    Brittle env (fun _ => Proc.ofExcept r) w 0 r w where
  calm := Proc.returns_ofExcept.mpr ⟨rfl, rfl⟩
  steps := rfl
  same _ := Proc.returns_ofExcept.mpr ⟨rfl, rfl⟩
  stops i hi _ := absurd hi (Nat.not_lt_zero i)

/-- A brittle operation is transparent exactly if none of its steps is
interrupted. -/
theorem Brittle.transparent_iff {x : Env → Proc World Fault Unit} {k : Nat} {r : Result Unit}
    (hx : Brittle env x w k r v) (hr : ∀ f, r = .error f → f.isInterrupted = false) :
    Transparent x env w file ↔ ∀ i, i < k → env.interrupted (w.steps + i) = false := by
  constructor
  · rintro ⟨r', w', v', hRun, hCalm, -, hClean⟩ i hi
    by_contra hIntr
    obtain ⟨w'', hStop⟩ := hx.stops i hi (Bool.not_eq_false _ ▸ hIntr)
    have hBad := hClean interruption (hRun.det hStop).1
    rw [isInterrupted_interruption] at hBad
    exact Bool.false_ne_true hBad.symm
  · intro h
    exact ⟨r, v, v, hx.same h, hx.calm, rfl, hr⟩

-- ---------------------------------------------------------------------------
-- The steps of a write
-- ---------------------------------------------------------------------------

/-- The number of `seek_write` calls for `len` bytes at an offset, and whether
all of them are written: past `i64::MAX` the call fails. -/
def sends (size : Nat → Nat) (transfers len offset : Nat) : Nat × Bool :=
  if h : len = 0 then (0, true)
  else if i64Max < offset then (1, false)
  else
    let n := shortCount (size transfers) (min len u32Max)
    let rest := sends size (transfers + 1) (len - n) (offset + n)
    (1 + rest.1, rest.2)
termination_by len
decreasing_by
  unfold shortCount u32Max
  omega

/-- The steps that writing the buffers takes: for each, one to open a handle
and its `seek_write` calls. -/
def writeSteps (size : Nat → Nat) : List IoSlice → Nat → Nat → Nat
  | [], _, _ => 0
  | buf :: bufs, transfers, offset =>
    match sends size transfers buf.len offset with
    | (n, true) => 1 + n + writeSteps size bufs (transfers + n) (offset + buf.len)
    | (n, false) => 1 + n

theorem sends_zero (size : Nat → Nat) (transfers offset : Nat) :
    sends size transfers 0 offset = (0, true) := by
  unfold sends
  rfl

theorem sends_refused {len offset : Nat} (size : Nat → Nat) (transfers : Nat) (hLen : len ≠ 0)
    (hMax : i64Max < offset) : sends size transfers len offset = (1, false) := by
  unfold sends
  rw [dif_neg hLen, if_pos hMax]

theorem sends_step {size : Nat → Nat} {transfers len offset n : Nat} (hLen : len ≠ 0)
    (hMax : offset ≤ i64Max) (hn : n = shortCount (size transfers) (min len u32Max)) :
    sends size transfers len offset =
      (1 + (sends size (transfers + 1) (len - n) (offset + n)).1,
        (sends size (transfers + 1) (len - n) (offset + n)).2) := by
  subst hn
  rw [sends, dif_neg hLen, if_neg (Nat.not_lt.mpr hMax)]

/-- What a write returns that is whole, or stops at a refused call. -/
def writeResult (whole : Bool) : Result Unit :=
  if whole then .ok () else .error invalidParameter

theorem writeResult_not_interrupted (whole : Bool) :
    ∀ f, writeResult whole = .error f → f.isInterrupted = false := by
  intro f hf
  cases whole with
  | true => exact absurd hf (by simp [writeResult])
  | false =>
    obtain rfl := Except.error.inj hf
    decide

/-- The loop of `write_all_at`, around an environment's `seek_write`. -/
def sendLoop (p : Profile) (h : Nat) (buf : Slice) (offset : Nat) (e : Env) :
    Proc World Fault Unit :=
  (writeAllAt.transfer p).run (fun s => e.seekWrite h s.1 s.2) (buf, offset)

/-- After a call that sent `n` bytes the loop goes on behind them. -/
theorem writeAllAt_verdict (p : Profile) {buf : Slice} {offset n : Nat} (hn : n ≤ buf.len)
    (hMax : offset ≤ i64Max) :
    (writeAllAt.transfer p).verdict (buf, offset) (.ok n) =
      .ok (.again (buf.rest n, offset + n)) := by
  have hAdd : p.add offset n = .ok (offset + n) := p.add_of_lt (by
    have hLen := buf.len_le
    unfold isizeMax at hLen
    unfold i64Max at hMax
    omega)
  have hOk : (writeAllAt.transfer p).onOk (buf, offset) n = .ok (buf.rest n, offset + n) := by
    simp only [writeAllAt.transfer, hAdd, Slice.sliceFrom_of_le hn]
    rfl
  exact Transfer.verdict_ok hOk

/-- **The loop makes the `seek_write` calls that `sends` counts.** -/
theorem sendLoop_brittle (p : Profile) (env : Env) (buf : Slice) (offset : Nat) {w : World}
    (hAside : Aside file hd h .write w) :
    ∃ v, Brittle env (sendLoop p h buf offset) w
        (sends env.size w.transfers buf.len offset).1
        (writeResult (sends env.size w.transfers buf.len offset).2) v ∧ Own file hd v ∧
      ((sends env.size w.transfers buf.len offset).2 = true →
        v.transfers = w.transfers + (sends env.size w.transfers buf.len offset).1) := by
  induction hLen : buf.len using Nat.strong_induction_on generalizing buf offset w with
  | _ len ih =>
  subst hLen
  by_cases hZero : buf.len = 0
  · -- nothing is left
    have hEmpty : buf.isEmpty = true := Slice.isEmpty_iff.mpr hZero
    rw [hZero, sends_zero]
    refine ⟨w, ⟨Transfer.run_empty hEmpty w, rfl, fun _ => Transfer.run_empty hEmpty w,
      fun i hi => absurd hi (Nat.not_lt_zero i)⟩, hAside.own, fun _ => rfl⟩
  have hne : buf.isEmpty = false := Slice.isEmpty_eq_false.mpr (Nat.pos_of_ne_zero hZero)
  have hOff : ∀ (e : Env) f w', (e.seekWrite h buf offset).Returns w (.error f) w' →
      (sendLoop p h buf offset e).Returns w (.error f) w' := fun e f w' hError =>
    Transfer.run_stop (t := writeAllAt.transfer p) hne hError (Transfer.verdict_error rfl)
  by_cases hMax : i64Max < offset
  · -- the call is refused
    rw [sends_refused env.size w.transfers hZero hMax]
    have hCall : Brittle env (fun e => e.seekWrite h buf offset) w 1 (.error invalidParameter)
        (w.atStep (w.steps + 1)) :=
      brittle_step (if_neg (Nat.not_le.mpr hMax)) (if_neg (Nat.not_le.mpr hMax)) rfl
    exact ⟨_, hCall.fail hOff, hAside.own.atStep _, fun hWhole =>
      absurd hWhole Bool.false_ne_true⟩
  · -- the call sends `n` bytes, and the rest is for the calls after it
    have hMax' : offset ≤ i64Max := Nat.not_lt.mp hMax
    have hAside₁ : Aside file hd h .write (w.atStep (w.steps + 1)) := hAside.atStep _
    obtain ⟨n, pos, w', hEq, hSize, hn, hSent, hMoved⟩ :=
      writeAt_spec (w := w.atStep (w.steps + 1)) (h := h) (by rw [hAside₁.access]; rfl)
        (leadingWindow_self buf) offset (env.size w.transfers)
    rw [totalLen_cons, totalLen_nil, Nat.add_zero] at hn
    have hPos : n ≠ 0 := fun h0 => not_headEmpty_singleton hne (hSent h0)
    have hCall : Brittle env (fun e => e.seekWrite h buf offset) w 1 (.ok n) w' :=
      brittle_step ((if_pos hMax').trans hEq) ((if_pos hMax').trans hEq) hMoved.steps
    have hVerdict := writeAllAt_verdict p hn hMax'
    have hTransfers : w'.transfers = w.transfers + 1 := hMoved.transfers
    obtain ⟨v, hRest, hOwn, hCount⟩ := ih (buf.rest n).len (show buf.len - n < buf.len by omega)
      (buf.rest n) (offset + n) (hAside₁.moved hMoved.handles hMoved.opened) rfl
    rw [hTransfers] at hRest hCount
    rw [sends_step hZero hMax' hSize]
    refine ⟨v, hCall.seq hRest (fun e r v hOk hRun => Transfer.run_again hne hOk hVerdict hRun)
      hOff, hOwn, fun hWhole => ?_⟩
    rw [hCount hWhole, Nat.add_assoc]
    rfl

/-- A write that gets through ends at an offset that a `u64` holds. -/
theorem sends_fits {size : Nat → Nat} {transfers len offset : Nat} (hOffset : offset < 2 ^ 64)
    (hWhole : (sends size transfers len offset).2 = true) : offset + len < 2 ^ 64 := by
  induction hLen : len using Nat.strong_induction_on generalizing len transfers offset with
  | _ l ih =>
  subst hLen
  by_cases hZero : len = 0
  · rw [hZero]
    exact hOffset
  by_cases hMax : i64Max < offset
  · rw [sends_refused size transfers hZero hMax] at hWhole
    exact absurd hWhole Bool.false_ne_true
  have hMax' : offset ≤ i64Max := Nat.not_lt.mp hMax
  set n := shortCount (size transfers) (min len u32Max) with hn
  have hLe : n ≤ min len u32Max := shortCount_le ..
  have hPos : n ≠ 0 := by
    rw [hn, Ne, shortCount_eq_zero]
    unfold u32Max
    omega
  rw [sends_step hZero hMax' hn] at hWhole
  have hRest := ih (len - n) (by omega) (by unfold i64Max at hMax'; unfold u32Max at hLe; omega)
    hWhole rfl
  omega

-- ---------------------------------------------------------------------------
-- The methods that pass interruptions up
-- ---------------------------------------------------------------------------

theorem reopenWrite_brittle (env : Env) (w : World) (file : Nat) :
    Brittle env (fun e => e.os.reopenWrite file) w 1 (.ok w.opened)
      ((w.atStep (w.steps + 1)).reopen .write).2 :=
  brittle_step (f := fun _ w => w.reopen .write) rfl rfl rfl

/-- **`write_all_at`**: a handle is opened, and then come the calls that `sends`
counts. -/
theorem writeAllAt_brittle (p : Profile) (env : Env) (hOwn : Own file hd w) (buf : Slice)
    (offset : Nat) :
    ∃ v, Brittle env (fun e => (Windows.file p e file).writeAllAt buf offset) w
        (1 + (sends env.size w.transfers buf.len offset).1)
        (writeResult (sends env.size w.transfers buf.len offset).2) v ∧ Own file hd v ∧
      ((sends env.size w.transfers buf.len offset).2 = true →
        v.transfers = w.transfers + (sends env.size w.transfers buf.len offset).1) := by
  have hAside : Aside file hd w.opened .write ((w.atStep (w.steps + 1)).reopen .write).2 :=
    (hOwn.atStep (w.steps + 1)).reopen .write
  obtain ⟨v, hLoop, hOwn', hCount⟩ := sendLoop_brittle p env buf offset hAside
  have hOpen := reopenWrite_brittle env w file
  exact ⟨v, hOpen.bind (f := fun e h => sendLoop p h buf offset e) hLoop, hOwn', hCount⟩

/-- **`write_all_vectored_at`**: one buffer after the other. -/
theorem writeAllVectoredAt_brittle (p : Profile) (env : Env) (bufs : List IoSlice) {w : World}
    (hOwn : Own file hd w) {offset : Nat} (hOffset : offset < 2 ^ 64) :
    ∃ r v, Brittle env (fun e => (Windows.file p e file).writeAllVectoredAt bufs offset) w
        (writeSteps env.size bufs w.transfers offset) r v ∧
      ∀ f, r = .error f → f.isInterrupted = false := by
  induction bufs generalizing w offset with
  | nil => exact ⟨.ok (), w, brittle_ofExcept (.ok ()) w, fun f hf => absurd hf (by simp)⟩
  | cons buf bufs ih =>
    obtain ⟨v, hFirst, hOwn', hCount⟩ := writeAllAt_brittle p env hOwn buf offset
    rcases hSends : sends env.size w.transfers buf.len offset with ⟨n, whole⟩
    rw [hSends] at hFirst hCount
    unfold writeSteps
    rw [hSends]
    cases whole with
    | false =>
      exact ⟨_, v, hFirst.bind_error (f := fun _ _ => _), writeResult_not_interrupted false⟩
    | true =>
      have hFits : offset + buf.len < 2 ^ 64 := sends_fits hOffset (by rw [hSends])
      obtain ⟨r, v', hRest, hClean⟩ := ih hOwn' hFits
      rw [hCount rfl] at hRest
      have hAdd : Brittle env (fun _ => Proc.ofExcept (p.add offset buf.len)) v 0
          (.ok (offset + buf.len)) v := by
        rw [← p.add_of_lt hFits]
        exact brittle_ofExcept _ v
      refine ⟨r, v', ?_, hClean⟩
      have hTail := hAdd.bind (f := fun e offset =>
        (Windows.file p e file).writeAllVectoredAt bufs offset) hRest
      rw [Nat.zero_add] at hTail
      exact hFirst.bind (f := fun e _ => _) hTail

theorem writeSteps_singleton (size : Nat → Nat) (buf : IoSlice) (transfers offset : Nat) :
    writeSteps size [buf] transfers offset = 1 + (sends size transfers buf.len offset).1 := by
  rcases hSends : sends size transfers buf.len offset with ⟨n, whole⟩
  unfold writeSteps
  rw [hSends]
  cases whole <;> rfl

-- ---------------------------------------------------------------------------
-- Which methods are transparent
-- ---------------------------------------------------------------------------

/-- **Interruptions and the complete transfers.** Through finitely many
interrupted steps the methods that read and the loops that append are
transparent; the methods that write are exactly if none of their own steps is
interrupted. -/
theorem interrupted_transparent_iff (p : Profile) (hFinite : env.FinitelyInterrupted)
    (hOpen : file < w.opened) (buf : Slice) (bufs : List Slice) {offset : Nat}
    (hOffset : offset < 2 ^ 64) :
    Transparent (fun env => (Windows.file p env file).readExactAt buf offset) env w file ∧
    Transparent (fun env => (Windows.file p env file).readExactVectoredAt bufs offset) env w
      file ∧
    Transparent (fun env => (Windows.file p env file).appendAll buf) env w file ∧
    Transparent (fun env => (Windows.file p env file).appendAllVectored bufs) env w file ∧
    (Transparent (fun env => (Windows.file p env file).writeAllAt buf offset) env w file ↔
      ∀ i, i < writeSteps env.size [buf] w.transfers offset →
        env.interrupted (w.steps + i) = false) ∧
    (Transparent (fun env => (Windows.file p env file).writeAllVectoredAt bufs offset) env w
        file ↔
      ∀ i, i < writeSteps env.size bufs w.transfers offset →
        env.interrupted (w.steps + i) = false) := by
  have hOwn : Own file (w.handles file) w := ⟨hOpen, rfl⟩
  refine ⟨readExactAt_transparent p hFinite hOwn buf offset,
    readExactVectoredAt_transparent p hFinite hOwn bufs offset,
    appendAll_transparent p hFinite hOwn buf, appendAllVectored_transparent p hFinite hOwn bufs,
    ?_, ?_⟩
  · obtain ⟨v, hAll, -, -⟩ := writeAllAt_brittle p env hOwn buf offset
    rw [writeSteps_singleton]
    exact hAll.transparent_iff (writeResult_not_interrupted _)
  · obtain ⟨r, v, hAll, hClean⟩ := writeAllVectoredAt_brittle p env bufs hOwn hOffset
    exact hAll.transparent_iff hClean

/-- The second of two transfers of one byte each is interrupted. -/
def secondInterrupted : Env := ⟨fun i => i == 2, fun _ => 1⟩

/-- An empty file, open for reading and writing. -/
def emptyFile : World := ⟨fun _ => 0, [], fun _ => ⟨0, .readWrite⟩, 1, 0, 0⟩

theorem secondInterrupted_finitely : secondInterrupted.FinitelyInterrupted :=
  ⟨3, fun i hi => by
    rw [eq_of_beq hi]
    decide⟩

theorem interrupted_transparent_iff_two_bytes :
    Transparent (fun env => (Windows.file .debug env 0).appendAll ⟨0, 2, by decide⟩)
      secondInterrupted emptyFile 0 ∧
    ¬ Transparent (fun env => (Windows.file .debug env 0).writeAllAt ⟨0, 2, by decide⟩ 0)
      secondInterrupted emptyFile 0 := by
  obtain ⟨-, -, hAppend, -, hWrite, -⟩ := interrupted_transparent_iff .debug
    secondInterrupted_finitely (show 0 < emptyFile.opened from Nat.one_pos) ⟨0, 2, by decide⟩ []
    (show 0 < 2 ^ 64 by decide)
  refine ⟨hAppend, fun h => ?_⟩
  have hSteps :
      writeSteps secondInterrupted.size [⟨0, 2, by decide⟩] emptyFile.transfers 0 = 3 := by
    rw [writeSteps_singleton]
    simp [sends, secondInterrupted, shortCount, u32Max, i64Max]
  have hNot := hWrite.mp h 2 (by rw [hSteps]; decide)
  exact absurd hNot (by decide)

/-- With one byte written, `write_all_at` reports the interruption of its
second `seek_write`. -/
theorem writeAllAt_second_interrupted :
    ¬ ∀ (p : Profile) (env : Env) (w : World) (file : Nat) (buf : Slice) (offset : Nat),
      env.FinitelyInterrupted → file < w.opened → offset < 2 ^ 64 →
      Transparent (fun env => (Windows.file p env file).writeAllAt buf offset) env w file := by
  intro h
  obtain ⟨r, w', -, hRun, -, -, hClean⟩ := h .debug secondInterrupted emptyFile 0
    ⟨0, 2, by decide⟩ 0 secondInterrupted_finitely Nat.one_pos (by decide)
  have hStop : ∃ v, ((Windows.file .debug secondInterrupted 0).writeAllAt ⟨0, 2, by decide⟩
      0).Returns emptyFile (.error interruption) v ∧ v.content = [0] := ⟨_, ⟨3, rfl⟩, rfl⟩
  obtain ⟨v, hStop, -⟩ := hStop
  exact absurd (hClean interruption (hRun.det hStop).1) (by decide)

end SystemInterface.Windows
