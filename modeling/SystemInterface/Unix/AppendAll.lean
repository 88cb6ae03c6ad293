import Mathlib.Data.List.Infix
import SystemInterface.Device.Calls
import SystemInterface.Unix.Append

/-!
# SystemInterface — appending everything on Unix

`append_all` and `append_all_vectored` around the append methods, on a kernel
that answers every call as its environment likes, except that putting the
description back succeeds. Fast and slow path may alternate from call to call.

Main results:

* `AppendLoop.moved` — one turn of the loop, for a client whose file others
  may extend at any time;
* `AppendLoop.report` / `AppendLoop.terminates` — whole runs on a kernel of
  one's own.
-/

namespace SystemInterface.Unix

open Effect

variable {S : Type}

-- ---------------------------------------------------------------------------
-- Loops that append
-- ---------------------------------------------------------------------------

/-- What one append has done for the loop in state `s`. -/
def Accepted (mem : Memory) (l : BufferLoop S) (s : S) (o : Except Errno Nat)
    (evs : List Event) : Prop :=
  match o with
  | .ok n => n ≤ (l.addrs s).length ∧ n ≤ isizeMax ∧ (n = 0 → l.MayZero s) ∧
      written mem evs = ((l.addrs s).map mem).take n
  | .error e => written mem evs = [] ∧ ∃ ev ∈ evs, ev.outcome = .error e

/-- A loop whose calls append, retry `Interrupted` and do not single out
`Ok(0)`. -/
structure AppendLoop (l : BufferLoop S) (call : S → Method Nat) : Prop where
  zero : l.zero = none
  retry : l.transfer.retry = Fault.isInterrupted
  offset : ∀ s, l.offset s = none
  accepted : ∀ mem s loc, l.transfer.isEmpty s = false →
    (call s).Holds (appendRules mem) (fun r loc' => loc'.desc = loc.desc ∧
      ∃ evs o, loc'.log = loc.log ++ evs ∧ r = Result.ofOs o ∧ Accepted mem l s o evs) loc

theorem appendAll_loop : AppendLoop FileIoExt.Default.appendAll.bufferLoop append where
  zero := rfl
  retry := rfl
  offset _ := rfl
  accepted mem buf loc hne := by
    refine (append_holds buf loc).mono fun r loc' h => ⟨h.desc, ?_⟩
    obtain ⟨evs, o, hLog, hr, hReports⟩ := h.log
    have hCells : cells [buf] = buf.addrs := by simp
    have hPos : 0 < buf.len := Slice.isEmpty_eq_false.mp hne
    refine ⟨evs, o, hLog, hr, ?_⟩
    cases o with
    | ok n =>
      obtain ⟨hn, hMax, hZero, hWritten⟩ := hReports
      rw [← length_cells, hCells] at hn hZero
      refine ⟨hn, hMax, fun h0 => ?_, by rw [hWritten, Memory.gather, hCells]; rfl⟩
      have hLen := hZero h0
      rw [Slice.length_addrs] at hLen
      omega
    | error e => exact hReports

theorem appendAllVectored_loop (p : Profile) :
    AppendLoop (FileIoExt.Default.appendAllVectored.bufferLoop p) appendVectored where
  zero := rfl
  retry := rfl
  offset _ := rfl
  accepted mem bufs loc hne := by
    refine (appendVectored_holds bufs loc).mono fun r loc' h => ⟨h.desc, ?_⟩
    obtain ⟨evs, o, hLog, hr, hReports⟩ := h.log
    have hWin : LeadingWindow bufs (bufs.take iovMax) := leadingWindow_take (by decide)
    refine ⟨evs, o, hLog, hr, ?_⟩
    cases o with
    | ok n =>
      obtain ⟨hn, hMax, hZero, hWritten⟩ := hReports
      refine ⟨?_, hMax, fun h0 => hWin.headEmpty (hZero h0), ?_⟩
      · show n ≤ (cells bufs).length
        rw [length_cells]
        exact Nat.le_trans hn hWin.le
      · rw [hWritten, hWin.gather, List.take_take, Nat.min_eq_left hn]
        rfl
    | error e => exact hReports

-- ---------------------------------------------------------------------------
-- One turn
-- ---------------------------------------------------------------------------

namespace AppendLoop

variable {l : BufferLoop S} {call : S → Method Nat} {mem : Memory} {s₀ : S} {loc₀ : Local}

/-- The client has written the first `k` bytes since `loc₀`, and its
description is what it was. -/
structure Tracks (mem : Memory) (l : BufferLoop S) (s₀ : S) (loc₀ : Local) (k : Nat)
    (loc : Local) : Prop where
  desc : loc.desc = loc₀.desc
  log : ∃ evs, loc.log = loc₀.log ++ evs ∧ written mem evs = ((l.addrs s₀).map mem).take k

/-- The same, when the loop ends with the failure `f` of one of the calls. -/
def Failed (mem : Memory) (l : BufferLoop S) (s₀ : S) (loc₀ : Local) (k : Nat) (f : Fault)
    (loc : Local) : Prop :=
  loc.desc = loc₀.desc ∧ ∃ evs, loc.log = loc₀.log ++ evs ∧
    written mem evs = ((l.addrs s₀).map mem).take k ∧
    ∃ e, f = .err (.os e) ∧ e ≠ .INTR ∧ ∃ ev ∈ evs, ev.outcome = .error e

theorem Tracks.start : Tracks mem l s₀ loc₀ 0 loc₀ := ⟨rfl, [], by simp, by simp⟩

/-- **One turn of the loop**, under every answer of the kernel. -/
theorem moved (h : AppendLoop l call) {k : Nat} {s : S} {loc : Local} (hAt : l.At s₀ k s)
    (hne : l.transfer.isEmpty s = false) (hTracks : Tracks mem l s₀ loc₀ k loc) :
    (call s).Holds (appendRules mem)
      (l.Moved (l.addrs s).length (Tracks mem l s₀ loc₀) (Failed mem l s₀ loc₀) k) loc := by
  apply (h.accepted mem s loc hne).mono
  intro r loc' hA
  obtain ⟨hDesc, evs, o, hLog, rfl, hAccepted⟩ := hA
  obtain ⟨hDesc₀, evs₀, hLog₀, hWritten₀⟩ := hTracks
  replace hDesc : loc'.desc = loc₀.desc := hDesc.trans hDesc₀
  replace hLog : loc'.log = loc₀.log ++ (evs₀ ++ evs) := by
    rw [hLog, hLog₀, List.append_assoc]
  cases o with
  | ok n =>
    obtain ⟨hn, hMax, -, hWritten⟩ := hAccepted
    refine ⟨hn, Or.inl hMax, fun _ => ⟨hDesc, _, hLog, ?_⟩, fun f _ hf => ?_⟩
    · rw [written_append, hWritten₀, hWritten, hAt.addrs_eq, List.map_drop, ← List.take_add]
    · rw [h.zero] at hf
      exact absurd hf (by simp)
  | error e =>
    obtain ⟨hNone, ev, hev, hOutcome⟩ := hAccepted
    have hWritten : written mem (evs₀ ++ evs) = ((l.addrs s₀).map mem).take k := by
      rw [written_append, hWritten₀, hNone, List.append_nil]
    show if l.transfer.retry (.err (.os e)) then _ else _
    rw [h.retry]
    by_cases hIntr : e = .INTR
    · rw [if_pos (isInterrupted_os.mpr hIntr)]
      exact ⟨hDesc, _, hLog, hWritten⟩
    · rw [if_neg (by rw [isInterrupted_os]; exact hIntr)]
      exact ⟨hDesc, _, hLog, hWritten, e, rfl, hIntr, ev, List.mem_append_right _ hev, hOutcome⟩

end AppendLoop

-- ---------------------------------------------------------------------------
-- A kernel of one's own
-- ---------------------------------------------------------------------------

/-- Putting the description back succeeds. -/
def Env.RestoreSucceeds (env : Env) : Prop :=
  ∀ log c, Restores log c → ∃ count, env log c = .go count

/-- After finitely many calls none is interrupted any more. -/
def Env.FinitelyInterrupted (env : Env) : Prop :=
  ∃ N, ∀ log c, N ≤ log.length → env log c ≠ .fail .INTR

/-- The client that owns the kernel's one description. -/
def Kernel.view (k : Kernel) : Local := ⟨k.machine.desc, k.log⟩

/-- Since `k₀` the file has been extended by what the calls have written. -/
structure Kernel.Since (k₀ k : Kernel) : Prop where
  mem : k.machine.mem = k₀.machine.mem
  content : ∃ evs, k.log = k₀.log ++ evs ∧
    k.machine.content = k₀.machine.content ++ written k₀.machine.mem evs

/-- The calls interrupted since `k₀` are among the first `N` of the log. -/
def Kernel.InterruptedBefore (N : Nat) (k₀ k : Kernel) : Prop :=
  ∀ j ev, k.log[j]? = some ev → k₀.log.length ≤ j → ev.outcome = .error .INTR → j < N

theorem Kernel.Since.refl (k : Kernel) : Kernel.Since k k := ⟨rfl, [], by simp, by simp⟩

theorem interruptedBefore_refl (N : Nat) (k : Kernel) : Kernel.InterruptedBefore N k k := by
  intro j ev hj hge
  have hlt := (List.getElem?_eq_some_iff.mp hj).1
  omega

/-- Only the environment interrupts a call. -/
theorem step_interrupted {m : Machine} {c : SysCall} {d : Decision}
    (h : (m.step c d).1.map c.moved = .error .INTR) : d = .fail .INTR := by
  cases d with
  | fail e =>
    have he : (Except.error e : Except Errno Nat) = .error .INTR := h
    rw [Except.error.inj he]
  | go count =>
    exfalso
    have hOk : ∀ n, (Except.ok n : Except Errno Nat) ≠ .error .INTR := fun n => by simp
    cases c with
    | pwritev2 bufs offset flags =>
      simp only [Machine.step] at h
      split at h <;> exact hOk _ h
    | seek pos =>
      simp only [Machine.step, Machine.lseek] at h
      split at h <;> exact absurd h (by simp [Except.map])
    | _ => exact hOk _ h

section

variable {env : Env} {k₀ k : Kernel}

theorem handle_log (c : SysCall) :
    (Kernel.handle env c k).2.log = k.log ++ [⟨c, (Kernel.handle env c k).1.map c.moved⟩] := rfl

/-- One call by the kernel is a step of its client. -/
theorem handle_step (hRestore : env.RestoreSucceeds) (c : SysCall) (k : Kernel) :
    Local.Step k.machine.mem c k.view (Kernel.handle env c k).1 (Kernel.handle env c k).2.view :=
  ⟨k.machine.content, env k.log c, hRestore k.log c, rfl, rfl⟩

theorem Kernel.Since.handle (h : Kernel.Since k₀ k) {c : SysCall}
    (hPre : c.Appends k.machine.desc) : Kernel.Since k₀ (Kernel.handle env c k).2 := by
  obtain ⟨hContent, hMem⟩ := step_appends hPre (env k.log c)
  obtain ⟨evs, hLog, hOld⟩ := h.content
  refine ⟨hMem.trans h.mem, evs ++ [⟨c, (Kernel.handle env c k).1.map c.moved⟩], ?_, ?_⟩
  · rw [handle_log, ← List.append_assoc, ← hLog]
  · show (k.machine.step c (env k.log c)).2.content = _
    rw [hContent, hOld, h.mem, written_append, written_singleton, List.append_assoc]
    rfl

theorem Kernel.InterruptedBefore.handle {N : Nat} (h : Kernel.InterruptedBefore N k₀ k)
    (hN : ∀ log c, N ≤ log.length → env log c ≠ .fail .INTR) (c : SysCall) :
    Kernel.InterruptedBefore N k₀ (Kernel.handle env c k).2 := by
  intro j ev hj hge hOutcome
  change (k.log ++ [_])[j]? = some ev at hj
  rcases Nat.lt_or_ge j k.log.length with hlt | hle
  · rw [List.getElem?_append_left hlt] at hj
    exact h j ev hj hge hOutcome
  · rw [List.getElem?_append_right hle, List.getElem?_singleton] at hj
    split at hj
    · next hZero =>
      -- the call just made
      obtain rfl := Option.some.inj hj
      by_contra hNot
      exact hN k.log c (by omega) (step_interrupted hOutcome)
    · exact absurd hj (by simp)

/-- A method that holds under the rules, run on the kernel; `J` is a property
that every call keeps. -/
theorem run_wp (hRestore : env.RestoreSucceeds) (J : Kernel → Prop)
    (hJ : ∀ c k, J k → J (Kernel.handle env c k).2) {α : Type} {x : Method α}
    {Post : Result α → Local → Prop} (hx : x.Holds (appendRules k₀.machine.mem) Post k.view)
    (hk : Kernel.Since k₀ k ∧ J k) :
    (Kernel.run env x).wp k fun r k' => Post r k'.view ∧ Kernel.Since k₀ k' ∧ J k' := by
  apply Proc.wp_ofStep
  refine hx.exec Kernel.view (fun k => Kernel.Since k₀ k ∧ J k) ?_ hk
  intro c k ⟨hSince, hJk⟩ hPre
  have hStep := handle_step hRestore c k
  rw [hSince.mem] at hStep
  exact ⟨hStep, hSince.handle hPre, hJ c k hJk⟩

end

-- ---------------------------------------------------------------------------
-- Whole runs
-- ---------------------------------------------------------------------------

/-- What an append-everything call has done to kernel `k` when it returns `r`
in `k'`: memory, position and flags are what they were, and the file has been
extended by the bytes that the calls accepted. -/
structure AppendReport (data : List UInt8) (k : Kernel) (r : Result Unit) (k' : Kernel) :
    Prop where
  mem : k'.machine.mem = k.machine.mem
  desc : k'.machine.desc = k.machine.desc
  accepted : ∃ evs n, k'.log = k.log ++ evs ∧ written k.machine.mem evs = data.take n ∧
    k'.machine.content = k.machine.content ++ data.take n ∧ n ≤ data.length ∧
    (r = .ok () → n = data.length) ∧
    (∀ f, r = .error f → ∃ e, f = .err (.os e) ∧ e ≠ .INTR ∧ ∃ ev ∈ evs, ev.outcome = .error e)

/-- `append` extends the file by all of `data`, or by a prefix and says why; it
returns if only finitely many calls are interrupted. -/
def AppendsEverything (append : Proc Kernel Fault Unit) (env : Env) (data : List UInt8)
    (k : Kernel) : Prop :=
  (env.FinitelyInterrupted → ∃ r k', append.Returns k r k') ∧
  ∀ r k', append.Returns k r k' → AppendReport data k r k'

namespace AppendLoop

variable {l : BufferLoop S} {call : S → Method Nat} {env : Env} {s₀ : S}

/-- **What a run that returns has appended.** -/
theorem report (h : AppendLoop l call) (hRestore : env.RestoreSucceeds) (hReady : l.Ready s₀)
    (k : Kernel) :
    (l.transfer.run (fun s => Kernel.run env (call s)) s₀).wlp k
      (AppendReport ((l.addrs s₀).map k.machine.mem) k) := by
  have hRun : (l.transfer.run (fun s => Kernel.run env (call s)) s₀).wlp k
      (BufferLoop.Ended (l.addrs s₀).length
        (fun n k' => Tracks k.machine.mem l s₀ k.view n k'.view ∧ Kernel.Since k k')
        (fun n f k' => Failed k.machine.mem l s₀ k.view n f k'.view ∧ Kernel.Since k k')) := by
    refine l.wlp (BufferLoop.offsetFits_none (h.offset s₀)) hReady
      (fun n s k' hAt hne hTrack => ?_) ⟨Tracks.start, Kernel.Since.refl k⟩
    have hMoved := run_wp hRestore (fun _ => True) (fun _ _ _ => trivial)
      (h.moved hAt hne hTrack.1) ⟨hTrack.2, trivial⟩
    exact (hMoved.mono fun a k'' hA => hA.1.frame hA.2.1).wlp
  intro r k' hr
  have hEnd := hRun r k' hr
  match r, hEnd with
  | .ok (), ⟨hT, hSince⟩ =>
    obtain ⟨evs, hLog, hWritten⟩ := hT.log
    obtain ⟨evs', hLog', hContent⟩ := hSince.content
    obtain rfl : evs' = evs := List.append_cancel_left (hLog'.symm.trans hLog)
    refine ⟨hSince.mem, hT.desc, evs', (l.addrs s₀).length, hLog', hWritten, ?_, ?_, ?_, ?_⟩
    · rw [hContent, hWritten]
    · rw [List.length_map]
    · intro _
      rw [List.length_map]
    · exact fun f hf => absurd hf (by simp)
  | .error f, ⟨n, hn, hF, hSince⟩ =>
    obtain ⟨hDesc, evs, hLog, hWritten, hError⟩ := hF
    obtain ⟨evs', hLog', hContent⟩ := hSince.content
    obtain rfl : evs' = evs := List.append_cancel_left (hLog'.symm.trans hLog)
    refine ⟨hSince.mem, hDesc, evs', n, hLog', hWritten, ?_, ?_, ?_, ?_⟩
    · rw [hContent, hWritten]
    · rw [List.length_map]
      exact hn
    · exact fun hOk => absurd hOk (by simp)
    · intro f' hf'
      rw [← Except.error.inj hf']
      exact hError

/-- **A run with finitely many interrupted calls returns.** -/
theorem terminates (h : AppendLoop l call) (hRestore : env.RestoreSucceeds)
    (hFinite : env.FinitelyInterrupted) (hReady : l.Ready s₀) (k : Kernel) :
    ∃ r k', (l.transfer.run (fun s => Kernel.run env (call s)) s₀).Returns k r k' := by
  obtain ⟨N, hN⟩ := hFinite
  refine l.returns (fun k => N - k.log.length)
    (fun k' => Kernel.Since k k' ∧ Kernel.InterruptedBefore N k k')
    (BufferLoop.offsetFits_none (h.offset s₀)) hReady ?_
    ⟨Kernel.Since.refl k, interruptedBefore_refl N k⟩
  intro n s k' hAt hne ⟨hSince, hIntr⟩
  refine (run_wp hRestore _ (fun c k hI => hI.handle hN c) (h.accepted k.machine.mem s k'.view hne)
    ⟨hSince, hIntr⟩).mono fun a k'' hA => ?_
  obtain ⟨⟨-, evs, o, hLog, rfl, hAccepted⟩, hSince', hIntr'⟩ := hA
  replace hLog : k''.log = k'.log ++ evs := hLog
  obtain ⟨evs₀, hLog₀, -⟩ := hSince.content
  have hLen : k''.log.length = k'.log.length + evs.length := by rw [hLog, List.length_append]
  have hLen₀ : k'.log.length = k.log.length + evs₀.length := by rw [hLog₀, List.length_append]
  have hBudget : N - k''.log.length ≤ N - k'.log.length := by omega
  cases o with
  | ok m =>
    obtain ⟨hm, hMax, hZero, -⟩ := hAccepted
    exact ⟨hBudget, ⟨hSince', hIntr'⟩, hm, Or.inl hMax, fun h0 _ => hZero h0⟩
  | error e =>
    intro hr
    rw [h.retry] at hr
    obtain rfl := isInterrupted_os.mp hr
    obtain ⟨-, ev, hev, hOutcome⟩ := hAccepted
    -- the interrupted call is in the new part of the log, and before `N`
    obtain ⟨j, hj⟩ := List.mem_iff_getElem?.mp hev
    have hlt := (List.getElem?_eq_some_iff.mp hj).1
    have hAt : k''.log[k'.log.length + j]? = some ev := by
      rw [hLog, List.getElem?_append_right (by omega)]
      rw [show k'.log.length + j - k'.log.length = j from by omega]
      exact hj
    have hBefore := hIntr' _ ev hAt (by omega) hOutcome
    have hLess : N - k''.log.length < N - k'.log.length := by omega
    exact ⟨⟨hSince', hIntr'⟩, hLess⟩

theorem appendsEverything (h : AppendLoop l call) (hRestore : env.RestoreSucceeds) (s₀ : S)
    (hReady : l.Ready s₀) (k : Kernel) :
    AppendsEverything (l.transfer.run (fun s => Kernel.run env (call s)) s₀) env
      ((l.addrs s₀).map k.machine.mem) k :=
  ⟨fun hFinite => h.terminates hRestore hFinite hReady k, h.report hRestore hReady k⟩

end AppendLoop

end SystemInterface.Unix
