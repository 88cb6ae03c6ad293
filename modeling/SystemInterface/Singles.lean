import SystemInterface.Handles
import SystemInterface.Model.Looks
import SystemInterface.Unix.AppendAll

/-!
# SystemInterface — single transfers on both systems

The methods that make one transfer, under every environment: on Unix any system call may
fail in any way, but those that put a description back; on Windows any step may be
interrupted, as often as the environment likes. A method is one call on Unix and up to
three steps on Windows, the fallback of an append six calls, and wherever one of them fails
the client finds its file as it was.

Main results:

* `Unix.serves_singles`, `Windows.serves_singles` — each implementation keeps the rules of
  `FileState.singles`;
* `singles_refine` — what holds of a program by these rules holds of it on both systems;
* `peeks_take_nothing` — so do peeks and reads deliver the stream.
-/

namespace SystemInterface

open Effect

-- ---------------------------------------------------------------------------
-- Unix
-- ---------------------------------------------------------------------------

namespace Unix

/-- The calls of a kernel that may fail, but for those that put the description back. -/
def faultyRules : Rules SysCall SysCall.Reply Kernel where
  Pre _ _ := True
  Step c k r k' := ∃ d, (Restores k.log c → ∃ count, d = .go count) ∧
    (r, k'.machine) = k.machine.step c d ∧ k'.log = k.log ++ [⟨c, r.map c.moved⟩]

section

variable {env : Env} {α : Type} {k : Kernel}

theorem run_faulty (hEnv : env.RestoreSucceeds) {x : Method α} {Post : Result α → Kernel → Prop}
    (hx : x.Holds faultyRules Post k) : (Kernel.run env x).wp k Post := by
  apply Proc.wp_ofStep
  refine (hx.exec (fun k => k) (fun _ => True) (fun c k _ _ => ⟨?_, trivial⟩) trivial).1
  exact ⟨env k.log c, hEnv k.log c, rfl, rfl⟩

/-- One call: it fails and does nothing, or is carried out. -/
theorem holds_faulty {c : SysCall} {f : c.Reply → Method α} {Post : Result α → Kernel → Prop}
    (hFail : ¬ Restores k.log c → ∀ e,
      (f (.error e)).Holds faultyRules Post ⟨k.machine, k.log ++ [⟨c, .error e⟩]⟩)
    (hGo : ∀ count r m', (r, m') = k.machine.step c (.go count) →
      (f r).Holds faultyRules Post ⟨m', k.log ++ [⟨c, r.map c.moved⟩]⟩) :
    (sys c >>= f).Holds faultyRules Post k := by
  apply Prog.holds_op trivial
  rintro r ⟨m', log'⟩ ⟨d, hRestores, hStep, rfl⟩
  cases d with
  | go count => exact hGo count r m' hStep
  | fail e =>
    obtain ⟨rfl, rfl⟩ := Prod.mk.inj hStep
    refine hFail (fun hR => ?_) e
    obtain ⟨count, hCount⟩ := hRestores hR
    exact absurd hCount (by simp)

end

-- ---------------------------------------------------------------------------
-- Appending
-- ---------------------------------------------------------------------------

/-- A write that fails, or is carried out. -/
def Wrote (bufs : List IoSlice) (m : Machine) (o : Except Errno Nat) (m' : Machine) : Prop :=
  (∃ e, o = .error e ∧ m' = m) ∨ ∃ count, (o, m') = (m.write bufs count).map Except.ok id

/-- An append that fails and has done nothing, or is carried out. -/
def Tried (bufs : List IoSlice) (m : Machine) (r : Result Nat) (k' : Kernel) : Prop :=
  (∃ e, r = .error e ∧ k'.machine = m) ∨ AppendedOn bufs m r k'.machine

/-- A write by `write` or `writev`, that may fail. -/
def AttemptsBy (bufs : List IoSlice) (write : Method (Except Errno Nat)) : Prop :=
  ∀ (f : Except Errno Nat → Method Nat) (Post : Result Nat → Kernel → Prop) (k : Kernel),
    (∀ (c : SysCall) o m', c.IsWrite → Wrote bufs k.machine o m' →
      (f o).Holds faultyRules Post ⟨m', k.log ++ [⟨c, o⟩]⟩) →
    (write >>= f).Holds faultyRules Post k

theorem attemptsBy_write (buf : Slice) : AttemptsBy [buf] (sys (.write buf)) := by
  intro f Post k h
  refine holds_faulty (fun _ e => h (.write buf) _ _ trivial (.inl ⟨e, rfl, rfl⟩)) ?_
  intro count r m' hStep
  obtain ⟨rfl, rfl⟩ := Prod.mk.inj hStep
  exact h (.write buf) _ _ trivial (.inr ⟨count, rfl⟩)

theorem attemptsBy_writev (bufs : List IoSlice) : AttemptsBy bufs (sys (.writev bufs)) := by
  intro f Post k h
  refine holds_faulty (fun _ e => h (.writev bufs) _ _ trivial (.inl ⟨e, rfl, rfl⟩)) ?_
  intro count r m' hStep
  obtain ⟨rfl, rfl⟩ := Prod.mk.inj hStep
  exact h (.writev bufs) _ _ trivial (.inr ⟨count, rfl⟩)

/-- The machine with flags and position put back. -/
def Machine.putBack (m : Machine) (d : Desc) : Machine :=
  { m.setFlags d.flags with desc := ⟨d.pos, (m.setFlags d.flags).desc.flags⟩ }

/-- After the write, whether it has failed or not, the machine put back is the one before,
or the one after an append. -/
theorem Wrote.putBack {bufs : List IoSlice} {m mw : Machine} {o : Except Errno Nat}
    (h : Wrote bufs (m.setFlags (m.desc.flags ||| OFlags.APPEND)) o mw) :
    (∃ e, o = .error e ∧ mw.putBack m.desc = m) ∨
      ∃ count, (o, mw.putBack m.desc) = (m.append bufs count).map Except.ok id := by
  rcases h with ⟨e, rfl, rfl⟩ | ⟨count, hEq⟩
  · exact .inl ⟨e, rfl, flags_restored m⟩
  · obtain ⟨rfl, rfl⟩ := Prod.mk.inj hEq
    obtain ⟨hCount, hRestored⟩ := write_restored m bufs count
    exact .inr ⟨count, Prod.ext (congrArg Except.ok hCount) hRestored⟩

/-- **The fallback**, whichever of its calls fails. -/
theorem appendFallback_faulty {bufs : List IoSlice} {write : Method (Except Errno Nat)}
    (hWrite : AttemptsBy bufs write) (k : Kernel) :
    (appendFallback write).Holds faultyRules (Tried bufs k.machine) k := by
  unfold appendFallback
  refine holds_faulty (fun _ e => .inl ⟨_, rfl, rfl⟩) fun _ r m' hStep => ?_
  obtain ⟨rfl, rfl⟩ := Prod.mk.inj hStep
  refine holds_faulty (fun _ e => .inl ⟨_, rfl, rfl⟩) fun _ r m' hStep => ?_
  obtain ⟨rfl, rfl⟩ := Prod.mk.inj hStep
  refine holds_faulty (fun _ e => .inl ⟨_, rfl, rfl⟩) fun _ r m' hStep => ?_
  obtain ⟨rfl, rfl⟩ := Prod.mk.inj hStep
  apply hWrite _ _ _
  intro c o mw hIsWrite hWrote
  -- the two calls that put the description back do not fail
  refine holds_faulty (fun hNot => absurd ⟨⟨c, o⟩, by simp, hIsWrite⟩ hNot)
    fun _ r m' hStep => ?_
  obtain ⟨rfl, rfl⟩ := Prod.mk.inj hStep
  refine holds_faulty (fun hNot => absurd trivial hNot) fun _ r m' hStep => ?_
  have hSeek := Machine.lseek_start (mw.setFlags k.machine.desc.flags) k.machine.desc.pos
  obtain ⟨rfl, rfl⟩ := Prod.mk.inj (hStep.trans hSeek)
  rcases hWrote.putBack with ⟨e, rfl, hBack⟩ | ⟨count, hBack⟩
  · exact .inl ⟨_, rfl, hBack⟩
  · obtain ⟨hCount, hMachine⟩ := Prod.mk.inj hBack
    exact .inr ⟨count, Prod.ext (congrArg Result.ofOs hCount) hMachine⟩

/-- **Either path of an append**, whichever of its calls fails. -/
theorem appendUsing_faulty {bufs : List IoSlice} {write : Method (Except Errno Nat)}
    (hWrite : AttemptsBy bufs write) (k : Kernel) :
    (appendUsing bufs write).Holds faultyRules (Tried bufs k.machine) k := by
  unfold appendUsing
  refine holds_faulty (fun _ e => ?_) fun count r m' hStep => ?_
  · cases e with
    | NOSYS => exact appendFallback_faulty hWrite _
    | NOTSUP => exact appendFallback_faulty hWrite _
    | _ => exact .inl ⟨_, rfl, rfl⟩
  · obtain ⟨rfl, rfl⟩ := Prod.mk.inj hStep
    exact .inr ⟨count, rfl⟩

-- ---------------------------------------------------------------------------
-- The methods
-- ---------------------------------------------------------------------------

namespace Machine

variable {bufs win : List Slice} {m : Machine}

theorem fetches_readAt (m : Machine) (hWin : LeadingWindow bufs win) (offset count : Nat) :
    m.file.Fetches (some offset) bufs (.ok (m.readAt win offset count).1)
      (m.readAt win offset count).2.file := by
  obtain ⟨n, hRead, hn, -, hAhead, hZero⟩ := m.readAt_spec hWin offset count
  rw [hRead]
  exact ⟨hn, hAhead, hZero, rfl⟩

theorem emits_writeAt (hNot : m.desc.appends = false) (hWin : LeadingWindow bufs win)
    (offset count : Nat) :
    m.file.Emits (fun f => f.write (some offset)) bufs (.ok (m.writeAt win offset count).1)
      (m.writeAt win offset count).2.file := by
  obtain ⟨n, hLen, hTaken, hn, -, hEmpty⟩ := m.taken_spec hWin count
  rw [writeAt_of_not_appends hNot, hLen, hTaken]
  exact ⟨hn, hEmpty, rfl⟩

theorem emits_append (m : Machine) (hWin : LeadingWindow bufs win) (count : Nat) :
    m.file.Emits (fun f => f.write none) bufs (.ok (m.append win count).1)
      (m.append win count).2.file := by
  obtain ⟨n, hLen, hTaken, hn, -, hEmpty⟩ := m.taken_spec hWin count
  refine ⟨?_, fun h0 => hEmpty (hLen.symm.trans h0), ?_⟩
  · exact hLen.le.trans hn
  · show FileState.mk m.mem (m.content ++ m.taken win count) m.desc.pos = _
    rw [show (m.append win count).1 = n from hLen, hTaken]
    rfl

end Machine

theorem Tried.emits {bufs win : List Slice} {m : Machine} {r : Result Nat} {k' : Kernel}
    (h : Tried win m r k') (hWin : LeadingWindow bufs win) :
    m.file.Emits (fun f => f.write none) bufs r k'.machine.file ∧ k'.machine.desc = m.desc := by
  rcases h with ⟨e, rfl, hMachine⟩ | ⟨count, hEq⟩
  · rw [hMachine]
    exact ⟨rfl, rfl⟩
  · obtain ⟨rfl, hMachine⟩ := Prod.mk.inj hEq
    rw [hMachine]
    exact ⟨m.emits_append hWin count, rfl⟩

/-- What is left of a kernel that a call has worked on: `f` is the file before it. -/
def Left (rel : Result Nat → FileState → Prop) (k : Kernel) (r : Result Nat) (k' : Kernel) :
    Prop :=
  rel r k'.machine.file ∧ k'.machine.desc = k.machine.desc

section

variable {env : Env} {k : Kernel}

theorem readAt_left (hEnv : env.RestoreSucceeds) (buf : Slice) (offset : Nat) :
    (Kernel.run env (readAt buf offset)).wp k
      (Left (k.machine.file.Fetches (some offset) [buf]) k) := by
  refine run_faulty hEnv (holds_faulty (fun _ e => ⟨rfl, rfl⟩) fun count r m' hStep => ?_)
  obtain ⟨rfl, rfl⟩ := Prod.mk.inj hStep
  exact ⟨k.machine.fetches_readAt (leadingWindow_self buf) offset count, rfl⟩

theorem readVectoredAt_left (hEnv : env.RestoreSucceeds) (bufs : List IoSliceMut)
    (offset : Nat) :
    (Kernel.run env (readVectoredAt bufs offset)).wp k
      (Left (k.machine.file.Fetches (some offset) bufs) k) := by
  refine run_faulty hEnv (holds_faulty (fun _ e => ⟨rfl, rfl⟩) fun count r m' hStep => ?_)
  obtain ⟨rfl, rfl⟩ := Prod.mk.inj hStep
  exact ⟨k.machine.fetches_readAt (leadingWindow_take (by decide)) offset count, rfl⟩

theorem writeAt_left (hEnv : env.RestoreSucceeds) (hNot : NotAppending k) (buf : Slice)
    (offset : Nat) :
    (Kernel.run env (writeAt buf offset)).wp k
      (Left (k.machine.file.Emits (fun f => f.write (some offset)) [buf]) k) := by
  refine run_faulty hEnv (holds_faulty (fun _ e => ⟨rfl, rfl⟩) fun count r m' hStep => ?_)
  obtain ⟨rfl, rfl⟩ := Prod.mk.inj hStep
  exact ⟨Machine.emits_writeAt hNot (leadingWindow_self buf) offset count, rfl⟩

theorem writeVectoredAt_left (hEnv : env.RestoreSucceeds) (hNot : NotAppending k)
    (bufs : List IoSlice) (offset : Nat) :
    (Kernel.run env (writeVectoredAt bufs offset)).wp k
      (Left (k.machine.file.Emits (fun f => f.write (some offset)) bufs) k) := by
  refine run_faulty hEnv (holds_faulty (fun _ e => ⟨rfl, rfl⟩) fun count r m' hStep => ?_)
  obtain ⟨rfl, rfl⟩ := Prod.mk.inj hStep
  exact ⟨Machine.emits_writeAt hNot (leadingWindow_take (by decide)) offset count, rfl⟩

theorem append_left (hEnv : env.RestoreSucceeds) (buf : Slice) :
    (Kernel.run env (append buf)).wp k
      (Left (k.machine.file.Emits (fun f => f.write none) [buf]) k) :=
  run_faulty hEnv ((appendUsing_faulty (attemptsBy_write buf) k).mono
    fun _ _ h => h.emits (leadingWindow_self buf))

theorem appendVectored_left (hEnv : env.RestoreSucceeds) (bufs : List IoSlice) :
    (Kernel.run env (appendVectored bufs)).wp k
      (Left (k.machine.file.Emits (fun f => f.write none) bufs) k) :=
  run_faulty hEnv ((appendUsing_faulty (attemptsBy_writev _) k).mono
    fun _ _ h => h.emits (leadingWindow_take (by decide)))

theorem streamPosition_left (hEnv : env.RestoreSucceeds) :
    (Kernel.run env streamPosition).wp k (Left (k.machine.file.Seeks (.current 0)) k) := by
  refine run_faulty hEnv (holds_faulty (fun _ e => ⟨rfl, rfl⟩) fun count r m' hStep => ?_)
  obtain ⟨rfl, rfl⟩ := Prod.mk.inj hStep
  have hTarget : (k.machine.file.target (.current 0)).toNat = k.machine.desc.pos :=
    (congrArg Int.toNat (Int.add_zero _)).trans (Int.toNat_natCast _)
  exact ⟨⟨hTarget.symm, rfl⟩, rfl⟩

theorem seek_left (hEnv : env.RestoreSucceeds) {pos : SeekFrom}
    (hRange : 0 ≤ k.machine.file.target pos) :
    (Kernel.run env (seek pos)).wp k fun r k' =>
      k.machine.file.Seeks pos r k'.machine.file ∧
        k'.machine.desc.flags = k.machine.desc.flags := by
  refine run_faulty hEnv (holds_faulty (fun _ e => ⟨rfl, rfl⟩) fun count r m' hStep => ?_)
  have hTarget : k.machine.target pos = k.machine.file.target pos := by cases pos <;> rfl
  have hSeek : k.machine.lseek pos = (.ok (k.machine.file.target pos).toNat,
      { k.machine with
        desc := ⟨(k.machine.file.target pos).toNat, k.machine.desc.flags⟩ }) := by
    unfold Machine.lseek
    rw [hTarget, if_pos hRange]
  obtain ⟨rfl, rfl⟩ := Prod.mk.inj (hStep.trans hSeek)
  exact ⟨⟨rfl, rfl⟩, rfl⟩

end

-- ---------------------------------------------------------------------------
-- The stream calls
-- ---------------------------------------------------------------------------

namespace Stream

variable {bufs win : List Slice} {k : Kernel} {c : Call}

/-- A stream call that fails has done nothing. -/
theorem sys_left {rel : Result Nat → FileState → Prop} (env : Env)
    (hFail : ∀ e, rel (.error e) k.machine.file)
    (hGo : ∀ count n m', step k.machine c (.go count) = (.ok n, m') →
      rel (.ok n) m'.file ∧ m'.desc.flags = k.machine.desc.flags)
    (hOk : ∀ count, ∃ n m', step k.machine c (.go count) = (.ok n, m')) :
    ((sys c).toProc (handle env)).wp k fun r k' =>
      rel r k'.machine.file ∧ (NotAppending k → NotAppending k') := by
  have hWp : ((sys c).toProc (handle env)).wp k fun r k' =>
      ∃ d, (r, k'.machine) = (step k.machine c d).map Result.ofOs id :=
    Proc.wp_ofStep ⟨env k.log c, rfl⟩
  apply hWp.mono
  rintro r k' ⟨d, hEq⟩
  cases d with
  | fail e =>
    obtain ⟨rfl, hMachine⟩ := Prod.mk.inj hEq
    replace hMachine : k'.machine = k.machine := hMachine
    rw [hMachine]
    exact ⟨hFail _, fun hNot => notAppending_of_flags hNot (by rw [hMachine])⟩
  | go count =>
    obtain ⟨n, m', hStep⟩ := hOk count
    rw [hStep] at hEq
    obtain ⟨rfl, hMachine⟩ := Prod.mk.inj hEq
    replace hMachine : k'.machine = m' := hMachine
    obtain ⟨hRel, hFlags⟩ := hGo count n m' hStep
    rw [hMachine]
    exact ⟨hRel, fun hNot => notAppending_of_flags hNot (by rw [hMachine, hFlags])⟩

theorem read_left (env : Env) (hWin : LeadingWindow bufs win)
    (hStep : ∀ m count, step m c (.go count) = (m.read win count).map .ok id) :
    ((sys c).toProc (handle env)).wp k fun r k' =>
      k.machine.file.Fetches none bufs r k'.machine.file ∧
        (NotAppending k → NotAppending k') := by
  refine sys_left env (fun _ => rfl) (fun count n m' hEq => ?_) fun count => ?_
  · obtain ⟨n₁, m₁, hRead, hn, -, hAhead, hZero, hFile, hFlags⟩ :=
      k.machine.read_spec hWin count
    rw [hStep, hRead] at hEq
    obtain ⟨hn', rfl⟩ := Prod.mk.inj hEq
    obtain rfl := Except.ok.inj hn'
    exact ⟨⟨hn, hAhead, hZero, hFile⟩, hFlags⟩
  · exact ⟨_, _, hStep _ count⟩

theorem write_left (env : Env) (hNot : NotAppending k) (hWin : LeadingWindow bufs win)
    (hStep : ∀ m count, step m c (.go count) = (m.write win count).map .ok id) :
    ((sys c).toProc (handle env)).wp k fun r k' =>
      k.machine.file.Emits FileState.put bufs r k'.machine.file ∧
        (NotAppending k → NotAppending k') := by
  refine sys_left env (fun _ => rfl) (fun count n m' hEq => ?_) fun count => ?_
  · obtain ⟨n₁, m₁, hWrite, hn, -, hEmpty, hFile, hFlags⟩ := Machine.write_spec hNot hWin count
    rw [hStep, hWrite] at hEq
    obtain ⟨hn', rfl⟩ := Prod.mk.inj hEq
    obtain rfl := Except.ok.inj hn'
    exact ⟨⟨hn, hEmpty, hFile⟩, hFlags⟩
  · exact ⟨_, _, hStep _ count⟩

end Stream

-- ---------------------------------------------------------------------------
-- A handle on Unix
-- ---------------------------------------------------------------------------

section

variable {env : Env} {k : Kernel}

/-- A peek asks for the position and reads there; either call may fail. -/
theorem peek_left (p : Profile) (hEnv : env.RestoreSucceeds) (hNot : NotAppending k)
    (buf : Slice) :
    (File.peek (file p env) buf).wp k fun r k' =>
      k.machine.file.Fetches (some k.machine.file.pos) [buf] r k'.machine.file ∧
        NotAppending k' := by
  have hTarget : k.machine.file.target (.current 0) = (k.machine.file.pos : Int) :=
    Int.add_zero _
  refine Proc.wp_bind ((seek_left hEnv (by rw [hTarget]; exact Int.natCast_nonneg _)).mono ?_)
  rintro r k₁ ⟨hSeek, hFlags⟩
  have hNot₁ : NotAppending k₁ := by
    unfold NotAppending Desc.appends at *
    rwa [hFlags]
  cases r with
  | error e =>
    exact ⟨hSeek, hNot₁⟩
  | ok n =>
    obtain ⟨hn, hFile⟩ := hSeek
    rw [hTarget, Int.toNat_natCast] at hn
    have hSame : k₁.machine.file = k.machine.file := by
      rw [hFile, hn]
    apply (readAt_left hEnv buf n).mono
    rintro r k₂ ⟨hFetches, hDesc⟩
    rw [hSame, hn] at hFetches
    refine ⟨hFetches, ?_⟩
    show k₂.machine.desc.appends = false
    rw [hDesc]
    exact hNot₁

end

/-- A call on a handle that makes one transfer, on one description. -/
def performSingle (p : Profile) (env : Env) (senv : Stream.Env) :
    SingleOp → Proc Both Fault (Result Nat) :=
  SingleOp.perform ((file p env).onto Prod.fst Both.setFile)
    ((Stream.stream p senv).onto Both.stream Both.setStream)

/-- **The Unix implementation keeps the rules.** -/
theorem serves_singles (p : Profile) {env : Env} (senv : Stream.Env)
    (hEnv : env.RestoreSucceeds) :
    FileState.singles.Serves (performSingle p env senv) (fun b => b.1.machine.file)
      fun b => NotAppending b.1 := by
  intro op b hPre hNot
  have hNotS : Stream.NotAppending b.stream := hNot
  -- what a method has left on its part, as the answer of the call
  have hFile : ∀ {x : Proc Kernel Fault Nat} {rel : Result Nat → FileState → Prop},
      (x.wp b.1 fun r k' => rel r k'.machine.file ∧ NotAppending k') →
      ((onPart Prod.fst Both.setFile x).attempt).wp b fun r b' =>
        ∃ a, r = .ok a ∧ rel a b'.1.machine.file ∧ NotAppending b'.1 := by
    intro x rel hx
    refine Proc.wp_attempt (onPart_wp _ _ (hx.mono ?_))
    exact fun r k' hLeft => ⟨r, rfl, hLeft⟩
  have hKept : ∀ {x : Proc Kernel Fault Nat} {rel : Result Nat → FileState → Prop},
      x.wp b.1 (Left rel b.1) → x.wp b.1 fun r k' => rel r k'.machine.file ∧ NotAppending k' := by
    intro x rel hx
    apply hx.mono
    rintro r k' ⟨hRel, hDesc⟩
    refine ⟨hRel, ?_⟩
    show k'.machine.desc.appends = false
    rw [hDesc]
    exact hNot
  have hStream : ∀ {x : Proc Stream.Kernel Fault Nat} {rel : Result Nat → FileState → Prop},
      (x.wp b.stream fun r k' => rel r k'.machine.file ∧
        (Stream.NotAppending b.stream → Stream.NotAppending k')) →
      ((onPart Both.stream Both.setStream x).attempt).wp b fun r b' =>
        ∃ a, r = .ok a ∧ rel a b'.1.machine.file ∧ NotAppending b'.1 := by
    intro x rel hx
    refine Proc.wp_attempt (onPart_wp _ _ (hx.mono ?_))
    exact fun r k' hLeft => ⟨r, rfl, hLeft.1, hLeft.2 hNotS⟩
  cases op with
  | readAt buf offset => exact hFile (hKept (readAt_left hEnv buf offset))
  | readVectoredAt bufs offset => exact hFile (hKept (readVectoredAt_left hEnv bufs offset))
  | writeAt buf offset => exact hFile (hKept (writeAt_left hEnv hNot buf offset))
  | writeVectoredAt bufs offset =>
    exact hFile (hKept (writeVectoredAt_left hEnv hNot bufs offset))
  | append buf => exact hFile (hKept (append_left hEnv buf))
  | appendVectored bufs => exact hFile (hKept (appendVectored_left hEnv bufs))
  | read buf => exact hStream (Stream.read_left senv (leadingWindow_self buf) fun _ _ => rfl)
  | readVectored bufs =>
    exact hStream (Stream.read_left senv (leadingWindow_take (by decide)) fun _ _ => rfl)
  | write buf =>
    exact hStream (Stream.write_left senv hNotS (leadingWindow_self buf) fun _ _ => rfl)
  | writeVectored bufs =>
    exact hStream (Stream.write_left senv hNotS (leadingWindow_take (by decide)) fun _ _ => rfl)
  | peek buf =>
    show Proc.wp (Proc.attempt (File.peek ((file p env).onto Prod.fst Both.setFile) buf)) b _
    rw [File.peek_onto Prod.fst Both.setFile (fun _ _ => rfl) fun _ _ _ => rfl]
    exact hFile (peek_left p hEnv hNot buf)
  | seek pos =>
    refine hFile ((seek_left hEnv hPre.1).mono ?_)
    rintro r k' ⟨hSeek, hFlags⟩
    refine ⟨hSeek, ?_⟩
    unfold NotAppending Desc.appends at *
    rwa [hFlags]
  | streamPosition => exact hFile (hKept (streamPosition_left hEnv))

end Unix

-- ---------------------------------------------------------------------------
-- Windows
-- ---------------------------------------------------------------------------

namespace Windows

variable {env : Env} {file h : Nat} {hd : Handle} {w : World} {bufs : List Slice} {buf : Slice}
  {offset : Nat}

/-- What is left of a world that a call has worked on, beside the client's handle. -/
def Beside (file : Nat) (hd : Handle) (rel : Result Nat → FileState → Prop) (r : Result Nat)
    (w' : World) : Prop :=
  rel r (w'.file file) ∧ Own file hd w'

/-- One step beside the client's handle. -/
theorem step_beside {rel : Result Nat → FileState → Prop} {x : World → Result Nat × World}
    (hOwn : Own file hd w) (hFail : ∀ e, rel (.error e) (w.file file))
    (hGo : ∃ r w', x (w.atStep (w.steps + 1)) = (r, w') ∧ Beside file hd rel r w') :
    (env.step x).wp w (Beside file hd rel) := by
  refine step_wp (fun _ => ⟨hFail _, hOwn.atStep _⟩) fun _ => ?_
  obtain ⟨r, w', hEq, hBeside⟩ := hGo
  rw [hEq]
  exact hBeside

/-- A handle is opened for a call; nothing is done if it is not. -/
theorem opened_wp (access : Access) {rel : Result Nat → FileState → Prop}
    {x : Nat → Proc World Fault Nat} (hOwn : Own file hd w)
    (hFail : ∀ e, rel (.error e) (w.file file))
    (hNext : ∀ h w', Aside file hd h access w' → w'.file file = w.file file →
      (x h).wp w' (Beside file hd rel)) :
    ((env.step fun w => w.reopen access) >>= x).wp w (Beside file hd rel) := by
  refine Proc.wp_bind (step_wp (fun _ => ⟨hFail _, hOwn.atStep _⟩) fun _ => ?_)
  have hAside : Aside file hd w.opened access ((w.atStep (w.steps + 1)).reopen access).2 :=
    (hOwn.atStep (w.steps + 1)).reopen access
  refine hNext _ _ hAside ?_
  rw [hAside.own.file_eq, hOwn.file_eq]
  rfl

/-- One read through the handle aside. -/
theorem aside_readAt (hAside : Aside file hd h .read w) (hWin : LeadingWindow bufs [buf])
    (offset size : Nat) :
    ∃ r w', w.readAt h buf offset size = (r, w') ∧
      Beside file hd ((w.file file).Fetches (some offset) bufs) r w' := by
  obtain ⟨n, w', hEq, hn, -, hAhead, hZero, hMoved⟩ := readAt_spec (w := w) (h := h)
    (by rw [hAside.access]; rfl) hWin offset size
  have hAside' : Aside file hd h .read w' := hAside.moved hMoved.handles hMoved.opened
  refine ⟨.ok n, w', hEq, ⟨hn, hAhead, hZero, ?_⟩, hAside'.own⟩
  rw [hAside'.own.file_eq, hAside.own.file_eq, hMoved.mem, hMoved.content]
  rfl

/-- One write through the handle aside. -/
theorem aside_writeAt {access : Access} (hAside : Aside file hd h access w)
    (hWrites : access.writes = true) (hWin : LeadingWindow bufs [buf]) (offset size : Nat) :
    ∃ r w', w.writeAt h buf offset size = (r, w') ∧
      Beside file hd ((w.file file).Emits
        (fun f => f.write (if access = .append then none else some offset)) bufs) r w' := by
  obtain ⟨n, pos, w', hEq, -, hn, hZero, hMoved⟩ := writeAt_spec (w := w) (h := h)
    (by rw [hAside.access]; exact hWrites) hWin offset size
  rw [hAside.access] at hMoved
  have hAside' : Aside file hd h access w' := hAside.moved hMoved.handles hMoved.opened
  refine ⟨.ok n, w', hEq, ⟨hn, hZero, ?_⟩, hAside'.own⟩
  rw [hAside'.own.file_eq, hAside.own.file_eq, hMoved.mem, hMoved.content]
  rfl

theorem readAt_beside (hOwn : Own file hd w) (hMax : offset ≤ i64Max) (buf : Slice) :
    (readAt env.os file buf offset).wp w
      (Beside file hd ((w.file file).Fetches (some offset) [buf])) := by
  refine opened_wp .read hOwn (fun _ => rfl) fun h w₁ hAside hFile => ?_
  rw [← hFile]
  show Proc.wp (env.seekRead h buf offset) w₁ _
  refine step_beside hAside.own (fun _ => rfl) ?_
  rw [if_pos hMax]
  exact aside_readAt (hAside.atStep _) (leadingWindow_self buf) offset _

theorem readVectoredAt_beside (hOwn : Own file hd w) (hMax : offset ≤ i64Max)
    (bufs : List IoSliceMut) :
    (readVectoredAt env.os file bufs offset).wp w
      (Beside file hd ((w.file file).Fetches (some offset) bufs)) := by
  refine opened_wp .read hOwn (fun _ => rfl) fun h w₁ hAside hFile => ?_
  rw [← hFile]
  show Proc.wp ((env.step fun w => w.seek h (.start offset)) >>= fun _ =>
    env.read h (firstNonEmpty bufs)) w₁ _
  refine Proc.wp_bind (step_wp (fun _ => ⟨rfl, hAside.own.atStep _⟩) fun _ => ?_)
  rw [seek_start, if_pos hMax]
  set w₂ := (w₁.atStep (w₁.steps + 1)).setPos h offset with hw₂
  have hAside₂ : Aside file hd h .read w₂ := (hAside.atStep _).moved rfl rfl
  have hFile₂ : w₂.file file = w₁.file file := by
    rw [hAside₂.own.file_eq, hAside.own.file_eq]
    rfl
  have hPos : (w₂.handles h).pos = offset := by rw [hw₂, setPos_handles_self]
  rw [← hFile₂]
  refine step_beside hAside₂.own (fun _ => rfl) ?_
  show ∃ r w', World.readAt _ h _ (w₂.handles h).pos _ = (r, w') ∧ _
  rw [hPos]
  exact aside_readAt (hAside₂.atStep _) (leadingWindow_firstNonEmpty bufs) offset _

theorem writeAt_beside (hOwn : Own file hd w) (hMax : offset ≤ i64Max)
    (hWin : LeadingWindow bufs [buf]) :
    (writeAt env.os file buf offset).wp w
      (Beside file hd ((w.file file).Emits (fun f => f.write (some offset)) bufs)) := by
  refine opened_wp .write hOwn (fun _ => rfl) fun h w₁ hAside hFile => ?_
  rw [← hFile]
  show Proc.wp (env.seekWrite h buf offset) w₁ _
  refine step_beside hAside.own (fun _ => rfl) ?_
  rw [if_pos hMax]
  exact aside_writeAt (hAside.atStep _) rfl hWin offset _

theorem writeVectoredAt_beside (hOwn : Own file hd w) (hMax : offset ≤ i64Max)
    (bufs : List IoSlice) :
    (writeVectoredAt env.os file bufs offset).wp w
      (Beside file hd ((w.file file).Emits (fun f => f.write (some offset)) bufs)) := by
  unfold writeVectoredAt
  cases hFirst : bufs.find? fun b => !b.isEmpty with
  | some buf =>
    have hWin := leadingWindow_firstNonEmpty bufs
    rw [firstNonEmpty, hFirst] at hWin
    exact writeAt_beside hOwn hMax hWin
  | none =>
    refine Proc.wp_pure ⟨⟨Nat.zero_le _, fun _ buf hBuf => ?_, ?_⟩, hOwn⟩
    · have hEmpty := List.find?_eq_none.mp hFirst buf (List.mem_of_mem_head? hBuf)
      rw [Bool.not_eq_true, Bool.not_eq_false'] at hEmpty
      exact Slice.isEmpty_iff.mp hEmpty
    · exact ((w.file file).write_nil _).symm

theorem append_beside (hOwn : Own file hd w) (hWin : LeadingWindow bufs [buf]) :
    (append env.os file buf).wp w
      (Beside file hd ((w.file file).Emits (fun f => f.write none) bufs)) := by
  refine opened_wp .append hOwn (fun _ => rfl) fun h w₁ hAside hFile => ?_
  rw [← hFile]
  show Proc.wp (env.write h buf) w₁ _
  refine step_beside hAside.own (fun _ => rfl) ?_
  exact aside_writeAt (hAside.atStep _) rfl hWin _ _

theorem appendVectored_beside (hOwn : Own file hd w) (bufs : List IoSlice) :
    (appendVectored env.os file bufs).wp w
      (Beside file hd ((w.file file).Emits (fun f => f.write none) bufs)) :=
  append_beside hOwn (leadingWindow_firstNonEmpty bufs)

/-- One read at the position of the client's handle. -/
theorem read_left (hOpen : ReadsWrites h w) (hWin : LeadingWindow bufs [buf]) :
    (env.read h buf).wp w fun r w' =>
      (w.file h).Fetches none bufs r (w'.file h) ∧ ReadsWrites h w' := by
  refine step_wp (fun _ => ⟨rfl, hOpen.atStep _⟩) fun _ => ?_
  set w₁ := w.atStep (w.steps + 1) with hw₁
  have hOpen₁ : ReadsWrites h w₁ := hOpen.atStep _
  obtain ⟨n, w', hEq, hn, -, hAhead, hZero, hMoved⟩ := readAt_spec (w := w₁) (h := h)
    (by rw [hOpen₁.access]; rfl) hWin (w₁.handles h).pos (env.size w₁.transfers)
  rw [hEq]
  exact ⟨⟨hn, hAhead, hZero, hMoved.file_eq⟩, hOpen₁.moved hMoved⟩

/-- One write at the position of the client's handle. -/
theorem write_left (hOpen : ReadsWrites h w) (hWin : LeadingWindow bufs [buf]) :
    (env.write h buf).wp w fun r w' =>
      (w.file h).Emits FileState.put bufs r (w'.file h) ∧ ReadsWrites h w' := by
  refine step_wp (fun _ => ⟨rfl, hOpen.atStep _⟩) fun _ => ?_
  set w₁ := w.atStep (w.steps + 1) with hw₁
  obtain ⟨n, w', hEq, hn, -, hZero, hFile, hOpen'⟩ :=
    writeAt_put (w := w₁) (hOpen.atStep _) hWin (env.size w₁.transfers)
  rw [hEq]
  exact ⟨⟨hn, hZero, hFile⟩, hOpen'⟩

/-- A seek of the client's handle, to a position in range. -/
theorem seek_left {pos : SeekFrom} (hOpen : ReadsWrites h w)
    (hRange : 0 ≤ (w.file h).target pos ∧ (w.file h).target pos ≤ i64Max) :
    (env.step fun w => w.seek h pos).wp w fun r w' =>
      (w.file h).Seeks pos r (w'.file h) ∧ ReadsWrites h w' := by
  refine step_wp (fun _ => ⟨rfl, hOpen.atStep _⟩) fun _ => ?_
  set w₁ := w.atStep (w.steps + 1) with hw₁
  have hTarget : w₁.target h pos = (w.file h).target pos := by cases pos <;> rfl
  unfold World.seek
  rw [hTarget, if_pos hRange]
  refine ⟨⟨rfl, file_setPos_self w₁ h _⟩, hOpen.opened, ?_⟩
  rw [setPos_handles_self]
  exact hOpen.access

theorem target_current (f : FileState) : f.target (.current 0) = (f.pos : Int) := Int.add_zero _

/-- A peek asks the client's handle for its position, and reads through a handle aside. -/
theorem peek_left (p : Profile) (hOpen : ReadsWrites h w) (hPos : (w.file h).pos ≤ i64Max)
    (buf : Slice) :
    (File.peek (Windows.file p env h) buf).wp w fun r w' =>
      (w.file h).Fetches (some (w.file h).pos) [buf] r (w'.file h) ∧ ReadsWrites h w' := by
  have hRange : 0 ≤ (w.file h).target (.current 0) ∧
      (w.file h).target (.current 0) ≤ i64Max := by
    rw [target_current]
    exact ⟨Int.natCast_nonneg _, Int.ofNat_le.mpr hPos⟩
  refine Proc.wp_bind ((seek_left hOpen hRange).mono ?_)
  rintro r w₁ ⟨hSeek, hOpen₁⟩
  cases r with
  | error e => exact ⟨hSeek, hOpen₁⟩
  | ok n =>
    obtain ⟨hn, hFile⟩ := hSeek
    rw [target_current, Int.toNat_natCast] at hn
    have hSame : w₁.file h = w.file h := by rw [hFile, hn]
    have hOwn : Own h (w₁.handles h) w₁ := ⟨hOpen₁.opened, rfl⟩
    apply (readAt_beside hOwn (by rw [hn]; exact hPos) buf).mono
    rintro r w₂ ⟨hFetches, hOwn₂⟩
    rw [hSame, hn] at hFetches
    exact ⟨hFetches, hOwn₂.opened, by rw [hOwn₂.handle]; exact hOpen₁.access⟩

/-- A call on a handle that makes one transfer. -/
def performSingle (p : Profile) (env : Env) (h : Nat) :
    SingleOp → Proc World Fault (Result Nat) :=
  SingleOp.perform (Windows.file p env h) (ioExt p env.os h)

/-- **The Windows implementation keeps the rules.** -/
theorem serves_singles (p : Profile) (env : Env) (h : Nat) :
    FileState.singles.Serves (performSingle p env h) (fun w => w.file h)
      fun w => ReadsWrites h w ∧ (w.file h).pos ≤ i64Max := by
  rintro op w hPre ⟨hOpen, hPos⟩
  have hOwn : Own h (w.handles h) w := ⟨hOpen.opened, rfl⟩
  -- the position stays in range by the rules alone
  have hLeft : ∀ {x : Proc World Fault Nat},
      (x.wp w fun r w' => FileState.singles.Step op (w.file h) r (w'.file h) ∧
        ReadsWrites h w') →
      x.attempt.wp w fun r w' => ∃ a, r = .ok a ∧
        FileState.singles.Step op (w.file h) a (w'.file h) ∧
          ReadsWrites h w' ∧ (w'.file h).pos ≤ i64Max := by
    intro x hx
    refine Proc.wp_attempt (hx.mono ?_)
    rintro r w' ⟨hStep, hOpen'⟩
    exact ⟨r, rfl, hStep, hOpen', FileState.singles_pos_le hPre hPos hStep⟩
  have hBeside : ∀ {x : Proc World Fault Nat} {rel : Result Nat → FileState → Prop},
      x.wp w (Beside h (w.handles h) rel) →
      x.wp w fun r w' => rel r (w'.file h) ∧ ReadsWrites h w' := by
    intro x rel hx
    apply hx.mono
    rintro r w' ⟨hRel, hOwn'⟩
    exact ⟨hRel, hOwn'.opened, by rw [hOwn'.handle]; exact hOpen.access⟩
  cases op with
  | readAt buf offset => exact hLeft (hBeside (readAt_beside hOwn hPre buf))
  | readVectoredAt bufs offset => exact hLeft (hBeside (readVectoredAt_beside hOwn hPre bufs))
  | writeAt buf offset =>
    exact hLeft (hBeside (writeAt_beside hOwn hPre (leadingWindow_self buf)))
  | writeVectoredAt bufs offset => exact hLeft (hBeside (writeVectoredAt_beside hOwn hPre bufs))
  | append buf => exact hLeft (hBeside (append_beside hOwn (leadingWindow_self buf)))
  | appendVectored bufs => exact hLeft (hBeside (appendVectored_beside hOwn bufs))
  | read buf => exact hLeft (read_left hOpen (leadingWindow_self buf))
  | readVectored bufs => exact hLeft (read_left hOpen (leadingWindow_firstNonEmpty bufs))
  | write buf => exact hLeft (write_left hOpen (leadingWindow_self buf))
  | writeVectored bufs => exact hLeft (write_left hOpen (leadingWindow_firstNonEmpty bufs))
  | peek buf => exact hLeft (peek_left p hOpen hPos buf)
  | seek pos => exact hLeft (seek_left hOpen hPre)
  | streamPosition =>
    refine hLeft (seek_left hOpen ?_)
    rw [target_current]
    exact ⟨Int.natCast_nonneg _, Int.ofNat_le.mpr hPos⟩

end Windows

-- ---------------------------------------------------------------------------
-- Both systems
-- ---------------------------------------------------------------------------

/-- **What the rules say of a program holds of it on both systems.** The program makes
single transfers, peeks and seeks, each chosen by the answers to those before it. On Unix any
system call may fail in any way but those that put a description back, on Windows any step
may be interrupted, and every transfer may be short. -/
theorem singles_refine {α : Type} (p q : Profile) {env : Unix.Env} (senv : Unix.Stream.Env)
    (wenv : Windows.Env) (hEnv : env.RestoreSucceeds) (b : Unix.Both) (w : Windows.World)
    (h : Nat) (hAlike : Alike b w h) (x : Prog SingleOp (fun _ => Result Nat) Fault α)
    (Post : Except Fault α → FileState → Prop)
    (hx : x.Holds FileState.singles Post b.1.machine.file) :
    (∃ r b', (x.through (Unix.performSingle p env senv)).Returns b r b' ∧
      Post r b'.1.machine.file) ∧
    ∃ r w', (x.through (Windows.performSingle q wenv h)).Returns w r w' ∧
      Post r (w'.file h) := by
  constructor
  · obtain ⟨r, b', hRun, hPost, -⟩ :=
      (Unix.serves_singles p senv hEnv).prog hx hAlike.notAppending
    exact ⟨r, b', hRun, hPost⟩
  · rw [← hAlike.same] at hx
    obtain ⟨r, w', hRun, hPost, -⟩ := (Windows.serves_singles q wenv h).prog hx hAlike.readsWrites
    exact ⟨r, w', hRun, hPost⟩

/-- An append, and a read where it may have put its bytes. -/
def appendThenRead (data buf : Slice) :
    Prog SingleOp (fun _ => Result Nat) Fault (Result Nat × Result Nat) := do
  let appended ← .op (.append data)
  let got ← .op (.readAt buf 3)
  pure (appended, got)

/-- The file has grown by as many bytes as are reported. -/
theorem appendThenRead_holds (data buf : Slice) (f : FileState) :
    (appendThenRead data buf).Holds FileState.singles (fun r f' => ∃ appended got,
      r = .ok (appended, got) ∧ f.content <+: f'.content ∧
        ∀ n, appended = .ok n → f'.content.length = f.content.length + n) f := by
  refine ⟨trivial, fun appended f₁ hAppend => ⟨by show 3 ≤ i64Max; decide, ?_⟩⟩
  intro got f₂ hRead
  have hContent : f₂.content = f₁.content := by
    cases got with
    | ok n => rw [hRead.2.2.2]; rfl
    | error e => rw [show f₂ = f₁ from hRead]
  refine ⟨appended, got, rfl, ?_⟩
  rw [hContent]
  cases appended with
  | error e =>
    rw [show f₁ = f from hAppend]
    exact ⟨List.prefix_rfl, fun n hn => absurd hn (by simp)⟩
  | ok n =>
    obtain ⟨hn, -, rfl⟩ := hAppend
    have hLen : ((f.mem.gather [data]).take n).length = n :=
      List.length_take_of_le (by rw [Memory.length_gather]; exact hn)
    refine ⟨List.prefix_append .., fun m hm => ?_⟩
    obtain rfl := Except.ok.inj hm
    show (f.content ++ _).length = _
    rw [List.length_append, hLen]

/-- `pwritev2` is missing and every other write of the fallback is interrupted on the one
side, every third step on the other. -/
theorem singles_refine_append :
    (∃ r b', ((appendThenRead ⟨10, 3, by decide⟩ ⟨30, 4, by decide⟩).through
        (Unix.performSingle .debug (fun log call => match call with
          | .pwritev2 _ _ _ => .fail .NOSYS
          | .write _ => if log.length < 5 then .fail .INTR else .go 1
          | _ => .go 2) fun _ _ => .go 1)).Returns
        (⟨⟨fun _ => 7, [1, 2, 3], ⟨1, 0⟩⟩, []⟩, []) r b' ∧
      ∃ appended got, r = .ok (appended, got) ∧ [1, 2, 3] <+: b'.1.machine.file.content ∧
        ∀ n, appended = .ok n → b'.1.machine.file.content.length = 3 + n) ∧
    ∃ r w', ((appendThenRead ⟨10, 3, by decide⟩ ⟨30, 4, by decide⟩).through
        (Windows.performSingle .release ⟨fun i => i % 3 == 1, fun _ => 2⟩ 0)).Returns
        ⟨fun _ => 7, [1, 2, 3], fun _ => ⟨1, .readWrite⟩, 1, 0, 0⟩ r w' ∧
      ∃ appended got, r = .ok (appended, got) ∧ [1, 2, 3] <+: (w'.file 0).content ∧
        ∀ n, appended = .ok n → (w'.file 0).content.length = 3 + n :=
  singles_refine .debug .release (fun _ _ => .go 1) ⟨fun i => i % 3 == 1, fun _ => 2⟩
    (fun log call hRestores => by
      cases call with
      | pwritev2 bufs offset flags => exact hRestores.elim
      | write buf => exact hRestores.elim
      | _ => exact ⟨2, rfl⟩)
    (⟨⟨fun _ => 7, [1, 2, 3], ⟨1, 0⟩⟩, []⟩, [])
    ⟨fun _ => 7, [1, 2, 3], fun _ => ⟨1, .readWrite⟩, 1, 0, 0⟩ 0
    ⟨by decide, rfl, rfl, by decide, rfl⟩ _ _ (appendThenRead_holds _ _ _)

/-- **Peeks at a file take nothing**, on either system: every peek and every read that
returns has put the bytes into its buffer that follow those taken by the reads before it,
and the content is as it was. -/
theorem peeks_take_nothing (p q : Profile) {env : Unix.Env} (senv : Unix.Stream.Env)
    (wenv : Windows.Env) (hEnv : env.RestoreSucceeds) (b : Unix.Both) (w : Windows.World)
    (h : Nat) (hAlike : Alike b w h) (looks : List Look) (hSeparate : Separate looks)
    (hFits : b.1.machine.file.pos + (looks.map fun look => look.buf.len).sum ≤ i64Max) :
    (∃ rs b', ((browse looks).through (Unix.performSingle p env senv)).Returns b (.ok rs) b' ∧
      Browsed looks b.1.machine.file rs b'.1.machine.file) ∧
    ∃ rs w', ((browse looks).through (Windows.performSingle q wenv h)).Returns w (.ok rs) w' ∧
      Browsed looks b.1.machine.file rs (w'.file h) := by
  have hx := browse_holds looks hSeparate hFits
  constructor
  · obtain ⟨_, b', hRun, ⟨rs, rfl, hBrowsed⟩, -⟩ :=
      (Unix.serves_singles p senv hEnv).prog hx hAlike.notAppending
    exact ⟨rs, b', hRun, hBrowsed⟩
  · rw [← hAlike.same] at hx ⊢
    obtain ⟨_, w', hRun, ⟨rs, rfl, hBrowsed⟩, -⟩ :=
      (Windows.serves_singles q wenv h).prog hx hAlike.readsWrites
    exact ⟨rs, w', hRun, hBrowsed⟩

/-- The first peek and the first read are interrupted on the one side, the second step on
the other. -/
theorem peeks_take_nothing_four :
    (∃ rs b', ((browse [.peek ⟨30, 2, by decide⟩, .read ⟨40, 1, by decide⟩,
          .peek ⟨50, 3, by decide⟩, .read ⟨60, 3, by decide⟩]).through
          (Unix.performSingle .debug (fun log call => match call with
            | .pread _ _ => if log.length = 1 then .fail .INTR else .go 1
            | _ => .go 1) fun log _ => if log.isEmpty then .fail .INTR else .go 2)).Returns
        (⟨⟨fun _ => 7, [1, 2, 3], ⟨1, 0⟩⟩, []⟩, []) (.ok rs) b' ∧
      Browsed [.peek ⟨30, 2, by decide⟩, .read ⟨40, 1, by decide⟩, .peek ⟨50, 3, by decide⟩,
          .read ⟨60, 3, by decide⟩] ⟨fun _ => 7, [1, 2, 3], 1⟩ rs b'.1.machine.file) ∧
    ∃ rs w', ((browse [.peek ⟨30, 2, by decide⟩, .read ⟨40, 1, by decide⟩,
          .peek ⟨50, 3, by decide⟩, .read ⟨60, 3, by decide⟩]).through
          (Windows.performSingle .release ⟨fun i => i == 1, fun _ => 2⟩ 0)).Returns
        ⟨fun _ => 7, [1, 2, 3], fun _ => ⟨1, .readWrite⟩, 1, 0, 0⟩ (.ok rs) w' ∧
      Browsed [.peek ⟨30, 2, by decide⟩, .read ⟨40, 1, by decide⟩, .peek ⟨50, 3, by decide⟩,
          .read ⟨60, 3, by decide⟩] ⟨fun _ => 7, [1, 2, 3], 1⟩ rs (w'.file 0) :=
  peeks_take_nothing .debug .release (fun log _ => if log.isEmpty then .fail .INTR else .go 2)
    ⟨fun i => i == 1, fun _ => 2⟩
    (fun log call hRestores => by
      cases call with
      | pread buf offset => exact hRestores.elim
      | _ => exact ⟨1, rfl⟩)
    (⟨⟨fun _ => 7, [1, 2, 3], ⟨1, 0⟩⟩, []⟩, [])
    ⟨fun _ => 7, [1, 2, 3], fun _ => ⟨1, .readWrite⟩, 1, 0, 0⟩ 0
    ⟨by decide, rfl, rfl, by decide, rfl⟩ _ (by unfold Separate; decide) (by decide)

end SystemInterface
