import SystemInterface.Unix.AppendAll

/-!
# SystemInterface — the two paths of an append

An append goes through `pwritev2`, or is refused there and takes the fallback.
Both do the same to the file and to the description: `atomicAppend`, which adds
some bytes to the file or fails. A run of `append_all` is therefore a run of
the same loop around `atomicAppend`, whichever path each call takes.

Main result:

* `append_all_correct` — the append loops under every environment, and under
  every choice of paths.
-/

namespace SystemInterface.Unix

open Effect

-- ---------------------------------------------------------------------------
-- Appending in one step
-- ---------------------------------------------------------------------------

/-- A machine, and the number of attempts at a transfer made on it. -/
structure Attempted where
  machine : Machine
  attempts : Nat

/-- What an append is for: it adds bytes to the file, or fails. -/
def atomicAppend (answers : Nat → Decision) (bufs : List IoSlice) : Proc Attempted Fault Nat :=
  .ofStep fun a =>
    match answers a.attempts with
    | .fail e => (.error (.err (.os e)), ⟨a.machine, a.attempts + 1⟩)
    | .go count =>
      let (n, m) := a.machine.append bufs count
      (.ok n, ⟨m, a.attempts + 1⟩)

-- ---------------------------------------------------------------------------
-- Environments that choose the path
-- ---------------------------------------------------------------------------

/-- The answers with which a kernel or a file system refuses `pwritev2`. -/
def Refusal (e : Errno) : Prop := e = .NOSYS ∨ e = .NOTSUP

instance : DecidablePred Refusal := fun e =>
  inferInstanceAs (Decidable (e = .NOSYS ∨ e = .NOTSUP))

/-- The calls that attempt a transfer: a `pwritev2` that was not refused, and
the write of the fallback. -/
def Event.isAttempt (ev : Event) : Bool :=
  match ev.call, ev.outcome with
  | .pwritev2 _ _ _, .error e => !decide (Refusal e)
  | .pwritev2 _ _ _, .ok _ => true
  | .write _, _ => true
  | .writev _, _ => true
  | _, _ => false

def attempts (log : List Event) : Nat := log.countP Event.isAttempt

/-- The environment that refuses `pwritev2` where `path` says so, answers the
attempts in turn, and lets everything else succeed. -/
def pathEnv (path : List Event → Option Errno) (answers : Nat → Decision) : Env := fun log c =>
  match c with
  | .pwritev2 _ _ _ =>
    match path log with
    | some refusal => .fail refusal
    | none => answers (attempts log)
  | .write _ => answers (attempts log)
  | .writev _ => answers (attempts log)
  | _ => .go 0

/-- A path takes the fallback only where `pwritev2` is refused. -/
def IsPath (path : List Event → Option Errno) : Prop :=
  ∀ log e, path log = some e → Refusal e

/-- The transfer itself is never answered like a missing `pwritev2`. -/
def NotRefused (answers : Nat → Decision) : Prop := ∀ i e, answers i = .fail e → ¬ Refusal e

/-- The kernel has come as far as the attempts. -/
def Agree (k : Kernel) (a : Attempted) : Prop :=
  k.machine = a.machine ∧ attempts k.log = a.attempts

theorem pathEnv_restoreSucceeds (path : List Event → Option Errno) (answers : Nat → Decision) :
    (pathEnv path answers).RestoreSucceeds := by
  intro log c hRestores
  cases c with
  | fcntlSetfl flags => exact ⟨0, rfl⟩
  | seek pos => exact ⟨0, rfl⟩
  | _ => exact hRestores.elim

@[simp] theorem attempts_append (es fs : List Event) :
    attempts (es ++ fs) = attempts es + attempts fs := by
  simp [attempts]

-- ---------------------------------------------------------------------------
-- Both paths append in one step
-- ---------------------------------------------------------------------------

section

variable {path : List Event → Option Errno} {answers : Nat → Decision}

/-- The fallback around a write that ends with `o`. -/
theorem exec_appendFallback {write : Method (Except Errno Nat)} {k kw : Kernel}
    {o : Except Errno Nat}
    (hWrite : write.exec (Kernel.handle (pathEnv path answers))
      ⟨k.machine.setFlags (k.machine.desc.flags ||| OFlags.APPEND),
        k.log ++ [⟨.fcntlGetfl, .ok 0⟩] ++ [⟨.tell, .ok 0⟩] ++
          [⟨.fcntlSetfl (k.machine.desc.flags ||| OFlags.APPEND), .ok 0⟩]⟩ = (.ok o, kw)) :
    (appendFallback write).exec (Kernel.handle (pathEnv path answers)) k =
      (Result.ofOs o, ⟨{ kw.machine.setFlags k.machine.desc.flags with
          desc := ⟨k.machine.desc.pos, (kw.machine.setFlags k.machine.desc.flags).desc.flags⟩ },
        kw.log ++ [⟨.fcntlSetfl k.machine.desc.flags, .ok 0⟩] ++
          [⟨.seek (.start k.machine.desc.pos), .ok 0⟩]⟩) := by
  have hSeek : ∀ k' : Kernel, Kernel.handle (pathEnv path answers)
      (.seek (.start k.machine.desc.pos)) k' = (.ok k.machine.desc.pos,
        ⟨{ k'.machine with desc := ⟨k.machine.desc.pos, k'.machine.desc.flags⟩ },
          k'.log ++ [⟨.seek (.start k.machine.desc.pos), .ok 0⟩]⟩) := by
    intro k'
    simp only [Kernel.handle, pathEnv, Machine.step, Machine.lseek_start]
    rfl
  unfold appendFallback
  -- the calls before the write succeed
  show (write >>= _).exec (Kernel.handle (pathEnv path answers))
    ⟨k.machine.setFlags (k.machine.desc.flags ||| OFlags.APPEND),
      k.log ++ [⟨.fcntlGetfl, .ok 0⟩] ++ [⟨.tell, .ok 0⟩] ++
        [⟨.fcntlSetfl (k.machine.desc.flags ||| OFlags.APPEND), .ok 0⟩]⟩ = _
  rw [Prog.exec_bind, hWrite]
  -- and so do the two calls after it
  show (unwrap (Kernel.handle (pathEnv path answers) (.seek (.start k.machine.desc.pos))
      ⟨kw.machine.setFlags k.machine.desc.flags,
        kw.log ++ [⟨.fcntlSetfl k.machine.desc.flags, .ok 0⟩]⟩).1 >>= fun _ => try_ o).exec
    (Kernel.handle (pathEnv path answers))
    (Kernel.handle (pathEnv path answers) (.seek (.start k.machine.desc.pos))
      ⟨kw.machine.setFlags k.machine.desc.flags,
        kw.log ++ [⟨.fcntlSetfl k.machine.desc.flags, .ok 0⟩]⟩).2 = _
  rw [hSeek]
  rfl

/-- What the write of the fallback does under `pathEnv`, in append mode. -/
def WriteExec (path : List Event → Option Errno) (answers : Nat → Decision)
    (bufs : List IoSlice) (write : Method (Except Errno Nat)) : Prop :=
  ∀ k : Kernel, k.machine.desc.appends = true →
    ∃ ev, ev.isAttempt = true ∧
      write.exec (Kernel.handle (pathEnv path answers)) k =
        match answers (attempts k.log) with
        | .fail e => (.ok (.error e), ⟨k.machine, k.log ++ [ev]⟩)
        | .go count => (.ok (.ok (k.machine.write bufs count).1),
            ⟨(k.machine.write bufs count).2, k.log ++ [ev]⟩)

theorem writeExec_write (buf : Slice) :
    WriteExec path answers [buf] (sys (.write buf)) := by
  intro k _
  cases h : answers (attempts k.log) with
  | fail e =>
    refine ⟨⟨.write buf, .error e⟩, rfl, ?_⟩
    show Prog.exec _ (Prog.op _) _ = _
    simp only [Prog.op, Prog.exec, Kernel.handle, pathEnv, h, Machine.step]
    rfl
  | go count =>
    refine ⟨⟨.write buf, .ok (k.machine.write [buf] count).1⟩, rfl, ?_⟩
    simp only [sys, Prog.op, Prog.exec, Kernel.handle, pathEnv, h, Machine.step]
    rfl

theorem writeExec_writev (bufs : List IoSlice) :
    WriteExec path answers bufs (sys (.writev bufs)) := by
  intro k _
  cases h : answers (attempts k.log) with
  | fail e =>
    refine ⟨⟨.writev bufs, .error e⟩, rfl, ?_⟩
    simp only [sys, Prog.op, Prog.exec, Kernel.handle, pathEnv, h, Machine.step]
    rfl
  | go count =>
    refine ⟨⟨.writev bufs, .ok (k.machine.write bufs count).1⟩, rfl, ?_⟩
    simp only [sys, Prog.op, Prog.exec, Kernel.handle, pathEnv, h, Machine.step]
    rfl

theorem attempts_singleton {ev : Event} (h : ev.isAttempt = true) : attempts [ev] = 1 := by
  simp [attempts, h]

theorem attempts_singleton_false {ev : Event} (h : ev.isAttempt = false) : attempts [ev] = 0 := by
  simp [attempts, h]

/-- Switching to append mode, writing and switching back leaves what an append
in one step leaves. -/
theorem write_restored (m : Machine) (bufs : List IoSlice) (count : Nat) :
    ((m.setFlags (m.desc.flags ||| OFlags.APPEND)).write bufs count).1 = (m.append bufs count).1 ∧
    { (((m.setFlags (m.desc.flags ||| OFlags.APPEND)).write bufs count).2.setFlags
        m.desc.flags) with
      desc := ⟨m.desc.pos, (((m.setFlags (m.desc.flags ||| OFlags.APPEND)).write bufs
        count).2.setFlags m.desc.flags).desc.flags⟩ } = (m.append bufs count).2 := by
  have hAppends : (m.setFlags (m.desc.flags ||| OFlags.APPEND)).desc.appends = true :=
    appends_setFlags m.desc.flags m.desc.pos
  rw [Machine.write_of_appends hAppends]
  refine ⟨rfl, ?_⟩
  simp only [Machine.setFlags, setFlags_setFlags]
  rfl

/-- The same when the write fails. -/
theorem flags_restored (m : Machine) :
    { (m.setFlags (m.desc.flags ||| OFlags.APPEND)).setFlags m.desc.flags with
      desc := ⟨m.desc.pos, ((m.setFlags (m.desc.flags ||| OFlags.APPEND)).setFlags
        m.desc.flags).desc.flags⟩ } = m := by
  simp only [Machine.setFlags, setFlags_setFlags]

theorem exec_appendUsing_taken (bufs : List IoSlice) (write : Method (Except Errno Nat))
    {env : Env} {k k₁ : Kernel} {o : Except Errno Nat}
    (h : Kernel.handle env (.pwritev2 bufs 0 ReadWriteFlags.APPEND) k = (o, k₁))
    (hNot : ∀ e, o = .error e → ¬ Refusal e) :
    (appendUsing bufs write).exec (Kernel.handle env) k = (Result.ofOs o, k₁) := by
  unfold appendUsing
  rw [Prog.exec_op_bind h]
  cases o with
  | ok n => rfl
  | error e =>
    cases e with
    | NOSYS => exact absurd (Or.inl rfl) (hNot _ rfl)
    | NOTSUP => exact absurd (Or.inr rfl) (hNot _ rfl)
    | _ => rfl

theorem exec_appendUsing_refused (bufs : List IoSlice) (write : Method (Except Errno Nat))
    {env : Env} {k k₁ : Kernel} {e : Errno}
    (h : Kernel.handle env (.pwritev2 bufs 0 ReadWriteFlags.APPEND) k = (.error e, k₁))
    (hRefusal : Refusal e) :
    (appendUsing bufs write).exec (Kernel.handle env) k =
      (appendFallback write).exec (Kernel.handle env) k₁ := by
  unfold appendUsing
  rw [Prog.exec_op_bind h]
  rcases hRefusal with rfl | rfl <;> rfl

/-- The outcome `out` of a run from `k` is one of an append in one step. -/
def OneStep (answers : Nat → Decision) (bufs : List IoSlice) (k : Kernel)
    (out : Result Nat × Kernel) : Prop :=
  ∃ a, (atomicAppend answers bufs).Returns ⟨k.machine, attempts k.log⟩ out.1 a ∧ Agree out.2 a

theorem OneStep.fail {bufs : List IoSlice} {k k' : Kernel} {e : Errno}
    (hAnswer : answers (attempts k.log) = .fail e) (hMachine : k'.machine = k.machine)
    (hCount : attempts k'.log = attempts k.log + 1) :
    OneStep answers bufs k (Result.ofOs (.error e), k') := by
  refine ⟨⟨k.machine, attempts k.log + 1⟩, ?_, hMachine, hCount⟩
  simp [atomicAppend, hAnswer, Result.ofOs]

theorem OneStep.go {bufs : List IoSlice} {k k' : Kernel} {count n : Nat}
    (hAnswer : answers (attempts k.log) = .go count) (hn : n = (k.machine.append bufs count).1)
    (hMachine : k'.machine = (k.machine.append bufs count).2)
    (hCount : attempts k'.log = attempts k.log + 1) :
    OneStep answers bufs k (Result.ofOs (.ok n), k') := by
  refine ⟨⟨(k.machine.append bufs count).2, attempts k.log + 1⟩, ?_, hMachine, hCount⟩
  simp [atomicAppend, hAnswer, hn, Result.ofOs]

/-- The fast path, on which `pwritev2` is the attempt. -/
theorem appendUsing_taken (bufs : List IoSlice) (write : Method (Except Errno Nat))
    (hAnswers : NotRefused answers) {k : Kernel} (hTaken : path k.log = none) :
    OneStep answers bufs k
      ((appendUsing bufs write).exec (Kernel.handle (pathEnv path answers)) k) := by
  cases hAnswer : answers (attempts k.log) with
  | fail e =>
    have hCall : Kernel.handle (pathEnv path answers)
        (.pwritev2 bufs 0 ReadWriteFlags.APPEND) k = (.error e, ⟨k.machine,
          k.log ++ [⟨.pwritev2 bufs 0 ReadWriteFlags.APPEND, .error e⟩]⟩) := by
      simp only [Kernel.handle, pathEnv, hTaken, hAnswer]
      rfl
    have hNot : ¬ Refusal e := hAnswers _ e hAnswer
    rw [exec_appendUsing_taken bufs write hCall
      fun e' he => by rw [← Except.error.inj he]; exact hNot]
    refine OneStep.fail hAnswer rfl ?_
    rw [attempts_append, attempts_singleton (by simp [Event.isAttempt, hNot])]
  | go count =>
    have hCall : Kernel.handle (pathEnv path answers)
        (.pwritev2 bufs 0 ReadWriteFlags.APPEND) k = (.ok (k.machine.append bufs count).1,
          ⟨(k.machine.append bufs count).2, k.log ++ [⟨.pwritev2 bufs 0 ReadWriteFlags.APPEND,
            .ok (k.machine.append bufs count).1⟩]⟩) := by
      simp only [Kernel.handle, pathEnv, hTaken, hAnswer]
      rfl
    rw [exec_appendUsing_taken bufs write hCall fun e he => absurd he (by simp)]
    refine OneStep.go hAnswer rfl rfl ?_
    rw [attempts_append, attempts_singleton rfl]

/-- The slow path, on which the write of the fallback is the attempt. -/
theorem appendUsing_refused {bufs : List IoSlice} {write : Method (Except Errno Nat)}
    (hWrite : WriteExec path answers bufs write) {k : Kernel} {refusal : Errno}
    (hRefused : path k.log = some refusal) (hRefusal : Refusal refusal) :
    OneStep answers bufs k
      ((appendUsing bufs write).exec (Kernel.handle (pathEnv path answers)) k) := by
  have hCall : Kernel.handle (pathEnv path answers)
      (.pwritev2 bufs 0 ReadWriteFlags.APPEND) k = (.error refusal, ⟨k.machine,
        k.log ++ [⟨.pwritev2 bufs 0 ReadWriteFlags.APPEND, .error refusal⟩]⟩) := by
    simp only [Kernel.handle, pathEnv, hRefused]
    rfl
  rw [exec_appendUsing_refused bufs write hCall hRefusal]
  obtain ⟨ev, hev, hExec⟩ := hWrite
    ⟨k.machine.setFlags (k.machine.desc.flags ||| OFlags.APPEND),
      k.log ++ [⟨.pwritev2 bufs 0 ReadWriteFlags.APPEND, .error refusal⟩] ++
        [⟨.fcntlGetfl, .ok 0⟩] ++ [⟨.tell, .ok 0⟩] ++
        [⟨.fcntlSetfl (k.machine.desc.flags ||| OFlags.APPEND), .ok 0⟩]⟩
    (appends_setFlags k.machine.desc.flags k.machine.desc.pos)
  -- of the calls, only the write counts
  have hFirst : attempts [⟨.pwritev2 bufs 0 ReadWriteFlags.APPEND, .error refusal⟩] = 0 :=
    attempts_singleton_false (by simp [Event.isAttempt, hRefusal])
  have hSetfl : ∀ flags, attempts [⟨.fcntlSetfl flags, .ok 0⟩] = 0 := fun _ => rfl
  have hOthers : attempts [⟨.fcntlGetfl, .ok 0⟩] = 0 ∧ attempts [⟨.tell, .ok 0⟩] = 0 ∧
      ∀ pos, attempts [⟨.seek pos, .ok 0⟩] = 0 := ⟨rfl, rfl, fun _ => rfl⟩
  simp only [attempts_append, hFirst, hSetfl, hOthers, Nat.add_zero] at hExec
  cases hAnswer : answers (attempts k.log) with
  | fail e =>
    rw [hAnswer] at hExec
    rw [exec_appendFallback hExec]
    refine OneStep.fail hAnswer (flags_restored k.machine) ?_
    simp only [attempts_append, hFirst, hSetfl, hOthers, attempts_singleton hev, Nat.add_zero]
  | go count =>
    rw [hAnswer] at hExec
    obtain ⟨hLen, hMachine⟩ := write_restored k.machine bufs count
    rw [exec_appendFallback hExec]
    refine OneStep.go hAnswer hLen hMachine ?_
    simp only [attempts_append, hFirst, hSetfl, hOthers, attempts_singleton hev, Nat.add_zero]

/-- **Either path is an append in one step.** -/
theorem appendUsing_sim {bufs : List IoSlice} {write : Method (Except Errno Nat)}
    (hPath : IsPath path) (hAnswers : NotRefused answers)
    (hWrite : WriteExec path answers bufs write) :
    Proc.Sim Agree (Kernel.run (pathEnv path answers) (appendUsing bufs write))
      (atomicAppend answers bufs) := by
  intro k a ⟨hMachine, hAttempts⟩ r k' hr
  obtain ⟨m, i⟩ := a
  obtain rfl : k.machine = m := hMachine
  obtain rfl : attempts k.log = i := hAttempts
  have hOut : OneStep answers bufs k
      ((appendUsing bufs write).exec (Kernel.handle (pathEnv path answers)) k) := by
    cases hp : path k.log with
    | none => exact appendUsing_taken bufs write hAnswers hp
    | some refusal => exact appendUsing_refused hWrite hp (hPath k.log refusal hp)
  rw [Proc.returns_ofStep.mp hr] at hOut
  exact hOut

end

-- ---------------------------------------------------------------------------
-- Whole runs
-- ---------------------------------------------------------------------------

/-- From `k`, the two procedures have the same outcomes on the same machines. -/
def Indistinguishable {α : Type} (x y : Proc Kernel Fault α) (k : Kernel) : Prop :=
  ∀ r m, (∃ k', x.Returns k r k' ∧ k'.machine = m) ↔ ∃ k', y.Returns k r k' ∧ k'.machine = m

/-- Procedures that do the same as one in one step cannot be told apart. -/
theorem indistinguishable_of_sim {α : Type} {x y : Proc Kernel Fault α}
    {z : Proc Attempted Fault α} (hx : Proc.Sim Agree x z)
    (hx' : Proc.Sim (fun a k => Agree k a) z x) (hy : Proc.Sim Agree y z)
    (hy' : Proc.Sim (fun a k => Agree k a) z y) (k : Kernel) : Indistinguishable x y k := by
  intro r m
  constructor
  · rintro ⟨k', hr, rfl⟩
    obtain ⟨a, ha, hAgree⟩ := hx k ⟨k.machine, attempts k.log⟩ ⟨rfl, rfl⟩ r k' hr
    obtain ⟨k'', hk, hAgree'⟩ := hy' ⟨k.machine, attempts k.log⟩ k ⟨rfl, rfl⟩ r a ha
    exact ⟨k'', hk, hAgree'.1.trans hAgree.1.symm⟩
  · rintro ⟨k', hr, rfl⟩
    obtain ⟨a, ha, hAgree⟩ := hy k ⟨k.machine, attempts k.log⟩ ⟨rfl, rfl⟩ r k' hr
    obtain ⟨k'', hk, hAgree'⟩ := hx' ⟨k.machine, attempts k.log⟩ k ⟨rfl, rfl⟩ r a ha
    exact ⟨k'', hk, hAgree'.1.trans hAgree.1.symm⟩

theorem run_total (env : Env) {α : Type} (x : Method α) (k : Kernel) :
    ∃ r k', (Kernel.run env x).Returns k r k' := ⟨_, _, Proc.returns_ofStep.mpr rfl⟩

/-- Loops around calls that append in one step cannot be told apart, whichever
path each call takes. -/
theorem run_indistinguishable {S : Type} {t : Transfer S Fault} {call : S → Method Nat}
    {bufs : S → List IoSlice} {answers : Nat → Decision} {path path' : List Event → Option Errno}
    (hSim : ∀ path, IsPath path → ∀ s, Proc.Sim Agree
      (Kernel.run (pathEnv path answers) (call s)) (atomicAppend answers (bufs s)))
    (hPath : IsPath path) (hPath' : IsPath path') (s : S) (k : Kernel) :
    Indistinguishable (t.run (fun s => Kernel.run (pathEnv path answers) (call s)) s)
      (t.run (fun s => Kernel.run (pathEnv path' answers) (call s)) s) k :=
  indistinguishable_of_sim (Transfer.run_sim (hSim path hPath) s)
    (Transfer.run_sim (fun s => (hSim path hPath s).flip (run_total _ _)) s)
    (Transfer.run_sim (hSim path' hPath') s)
    (Transfer.run_sim (fun s => (hSim path' hPath' s).flip (run_total _ _)) s) k

/-- **Appending everything on Unix.** Whatever the kernel answers, short of
refusing to put the description back, memory, position and flags are what they
were, and the file is extended by the bytes accepted: all of the data, or a
prefix of it with the failure that stopped the loop. Which calls go through
`pwritev2` and which through the fallback makes no difference. -/
theorem append_all_correct (p : Profile) (k : Kernel) :
    (∀ env : Env, env.RestoreSucceeds →
      (∀ buf, AppendsEverything ((file p env).appendAll buf) env
        (k.machine.mem.gather [buf]) k) ∧
      (∀ bufs, AppendsEverything ((file p env).appendAllVectored bufs) env
        (k.machine.mem.gather bufs) k)) ∧
    (∀ (answers : Nat → Decision) (path path' : List Event → Option Errno),
      NotRefused answers → IsPath path → IsPath path' →
      (∀ buf, Indistinguishable ((file p (pathEnv path answers)).appendAll buf)
        ((file p (pathEnv path' answers)).appendAll buf) k) ∧
      (∀ bufs, Indistinguishable ((file p (pathEnv path answers)).appendAllVectored bufs)
        ((file p (pathEnv path' answers)).appendAllVectored bufs) k)) := by
  refine ⟨fun env hRestore => ⟨fun buf => ?_, fun bufs => ?_⟩,
    fun answers path path' hAnswers hPath hPath' => ⟨fun buf => ?_, fun bufs => ?_⟩⟩
  · have hCells : k.machine.mem.gather [buf] = buf.addrs.map k.machine.mem := by
      simp [Memory.gather]
    rw [hCells]
    exact appendAll_loop.appendsEverything hRestore buf trivial k
  · exact (appendAllVectored_loop p).appendsEverything hRestore bufs trivial k
  · exact run_indistinguishable
      (fun path hPath buf => appendUsing_sim hPath hAnswers (writeExec_write buf))
      hPath hPath' buf k
  · exact run_indistinguishable
      (fun path hPath bufs => appendUsing_sim hPath hAnswers (writeExec_writev (bufs.take iovMax)))
      hPath hPath' bufs k

/-- Three bytes appended one at a time through the fallback, on a description
at position 1. -/
theorem append_all_correct_fallback :
    AppendsEverything
      ((file .debug (pathEnv (fun _ => some .NOSYS) fun _ => .go 1)).appendAll ⟨10, 3, by decide⟩)
      (pathEnv (fun _ => some .NOSYS) fun _ => .go 1) [7, 7, 7]
      ⟨⟨fun _ => 7, [1, 2], ⟨1, 2⟩⟩, []⟩ :=
  ((append_all_correct .debug ⟨⟨fun _ => 7, [1, 2], ⟨1, 2⟩⟩, []⟩).1 _
    (pathEnv_restoreSucceeds _ _)).1 ⟨10, 3, by decide⟩

end SystemInterface.Unix
