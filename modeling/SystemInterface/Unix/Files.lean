import SystemInterface.Model.FileState
import SystemInterface.Unix.Paths

/-!
# SystemInterface — complete transfers on Unix

What the methods of the Unix implementation do to a file when every system call
is carried out, in pieces of any size. Only `pwritev2` may be refused, at some
calls and not at others, so that an append takes either of its paths.

Main results, on a description that is not in append mode:

* `readExactAt_wp`, `readExactVectoredAt_wp` — the abstract read at the offset;
* `writeAllAt_wp`, `writeAllVectoredAt_wp` — the abstract write at the offset;
* `appendAll_wp`, `appendAllVectored_wp` — the abstract write at the end.
-/

namespace SystemInterface.Unix

open Effect

-- ---------------------------------------------------------------------------
-- Calls that are carried out
-- ---------------------------------------------------------------------------

/-- The call is carried out, or is a `pwritev2` that is not there. -/
def Decision.Calm (c : SysCall) (d : Decision) : Prop :=
  (∃ count, d = .go count) ∨
    ∃ bufs offset flags e, c = .pwritev2 bufs offset flags ∧ Refusal e ∧ d = .fail e

/-- An environment of short transfers only. -/
def Env.Calm (env : Env) : Prop := ∀ log c, Decision.Calm c (env log c)

/-- The steps of a machine whose calls are carried out. -/
def calmRules : Rules SysCall SysCall.Reply Machine where
  Pre _ _ := True
  Step c m r m' := ∃ d, Decision.Calm c d ∧ (r, m') = m.step c d

section

variable {env : Env} {α : Type} {m m' : Machine} {k : Kernel}

/-- A method that holds under the rules, run on the kernel. -/
theorem run_calm (hCalm : env.Calm) {x : Method α} {Post : Result α → Machine → Prop}
    (hx : x.Holds calmRules Post k.machine) :
    (Kernel.run env x).wp k fun r k' => Post r k'.machine := by
  apply Proc.wp_ofStep
  refine (hx.exec Kernel.machine (fun _ => True) (fun c k _ _ => ⟨?_, trivial⟩) trivial).1
  exact ⟨env k.log c, hCalm k.log c, rfl⟩

/-- All calls but `pwritev2` are carried out. -/
theorem calm_go {c : SysCall} {r : c.Reply}
    (hc : ∀ bufs offset flags, c ≠ .pwritev2 bufs offset flags)
    (h : calmRules.Step c m r m') : ∃ count, (r, m') = m.step c (.go count) := by
  obtain ⟨d, ⟨count, rfl⟩ | ⟨bufs, offset, flags, e, rfl, -, -⟩, hStep⟩ := h
  · exact ⟨count, hStep⟩
  · exact absurd rfl (hc bufs offset flags)

/-- A method of one call other than `pwritev2`. -/
theorem holds_call {c : SysCall} {f : c.Reply → Method α} {Post : Result α → Machine → Prop}
    (hc : ∀ bufs offset flags, c ≠ .pwritev2 bufs offset flags)
    (h : ∀ count, (f (m.step c (.go count)).1).Holds calmRules Post (m.step c (.go count)).2) :
    (sys c >>= f).Holds calmRules Post m := by
  apply Prog.holds_op trivial
  intro r m' hStep
  obtain ⟨count, hEq⟩ := calm_go hc hStep
  obtain ⟨rfl, rfl⟩ := Prod.mk.inj hEq
  exact h count

end

-- ---------------------------------------------------------------------------
-- The two paths of an append
-- ---------------------------------------------------------------------------

/-- What an append leaves: some bytes more, at the end. -/
def AppendedOn (bufs : List IoSlice) (m : Machine) (r : Result Nat) (m' : Machine) : Prop :=
  ∃ count, (r, m') = ((m.append bufs count).map Except.ok id : Result Nat × Machine)

/-- A write by `write` or `writev`. -/
def WritesBy (bufs : List IoSlice) (write : Method (Except Errno Nat)) : Prop :=
  ∀ (f : Except Errno Nat → Method Nat) (Post : Result Nat → Machine → Prop) (m : Machine),
    (∀ count, (f (.ok (m.write bufs count).1)).Holds calmRules Post (m.write bufs count).2) →
    (write >>= f).Holds calmRules Post m

/-- The fallback switches append mode on and off again around its write. -/
theorem appendFallback_calm {bufs : List IoSlice} {write : Method (Except Errno Nat)}
    (hWrite : WritesBy bufs write) (m : Machine) :
    (appendFallback write).Holds calmRules (AppendedOn bufs m) m := by
  unfold appendFallback
  refine holds_call (by simp) fun _ => ?_
  refine holds_call (by simp) fun _ => ?_
  refine holds_call (by simp) fun _ => ?_
  apply hWrite _ _ _
  intro count
  refine holds_call (by simp) fun _ => ?_
  refine holds_call (by simp) fun _ => ?_
  -- what the six calls leave is what one append leaves
  obtain ⟨hCount, hRestored⟩ := write_restored m bufs count
  have hSeek := Machine.lseek_start
    (((m.setFlags (m.desc.flags ||| OFlags.APPEND)).write bufs count).2.setFlags m.desc.flags)
    m.desc.pos
  rw [hRestored] at hSeek
  set mw := (m.setFlags (m.desc.flags ||| OFlags.APPEND)).write bufs count with hmw
  show (unwrap ((mw.2.setFlags m.desc.flags).lseek (.start m.desc.pos)).1 >>= fun _ =>
      try_ (.ok mw.1) : Method Nat).Holds calmRules (AppendedOn bufs m)
    ((mw.2.setFlags m.desc.flags).lseek (.start m.desc.pos)).2
  rw [hSeek]
  exact ⟨count, Prod.ext (congrArg Except.ok hCount) rfl⟩

/-- Either path of an append. -/
theorem appendUsing_calm {bufs : List IoSlice} {write : Method (Except Errno Nat)}
    (hWrite : WritesBy bufs write) (m : Machine) :
    (appendUsing bufs write).Holds calmRules (AppendedOn bufs m) m := by
  unfold appendUsing
  apply Prog.holds_op trivial
  intro r m' hStep
  obtain ⟨d, ⟨count, rfl⟩ | ⟨_, _, _, e, -, hRefusal, rfl⟩, hEq⟩ := hStep
  · obtain ⟨rfl, rfl⟩ := Prod.mk.inj hEq
    exact ⟨count, rfl⟩
  · obtain ⟨rfl, rfl⟩ := Prod.mk.inj hEq
    rcases hRefusal with rfl | rfl
    · exact appendFallback_calm hWrite m'
    · exact appendFallback_calm hWrite m'

theorem writesBy_write (buf : Slice) : WritesBy [buf] (sys (.write buf)) :=
  fun _ _ _ h => holds_call (by simp) h

theorem writesBy_writev (bufs : List IoSlice) : WritesBy bufs (sys (.writev bufs)) :=
  fun _ _ _ h => holds_call (by simp) h

-- ---------------------------------------------------------------------------
-- Single transfers
-- ---------------------------------------------------------------------------

namespace Machine

/-- The file as the owner of the description sees it. -/
def file (m : Machine) : FileState := ⟨m.mem, m.content, m.desc.pos⟩

variable {bufs win : List Slice}

/-- The bytes taken are the first ones of the list that the window was picked
from. -/
theorem taken_spec (m : Machine) (hWin : LeadingWindow bufs win) (count : Nat) :
    ∃ n, (m.taken win count).length = n ∧ m.taken win count = (m.mem.gather bufs).take n ∧
      n ≤ totalLen bufs ∧ n ≤ isizeMax ∧ (n = 0 → HeadEmpty bufs) := by
  have hLe := m.length_taken_le win count
  refine ⟨_, rfl, ?_, Nat.le_trans hLe hWin.le, m.length_taken_le_isizeMax win count,
    fun h0 => hWin.headEmpty (length_taken_eq_zero h0)⟩
  rw [← Nat.min_eq_left hLe, ← List.take_take, ← hWin.gather]
  exact m.taken_eq win count

/-- A read fills the first bytes of the list that the window was picked from. -/
theorem readAt_spec (m : Machine) (hWin : LeadingWindow bufs win) (offset count : Nat) :
    ∃ n, m.readAt win offset count =
        (n, { m with mem := store m.mem (cells bufs) ((m.content.drop offset).take n) }) ∧
      n ≤ totalLen bufs ∧ n ≤ isizeMax ∧ n ≤ (m.content.drop offset).length ∧
      (n = 0 → HeadEmpty bufs ∨ m.content.drop offset = []) := by
  set data := m.content.drop offset with hData
  set n := shortCount count (min (totalLen win) (min data.length maxRwCount)) with hn
  have hLe : n ≤ min (totalLen win) (min data.length maxRwCount) := shortCount_le ..
  have hTotal := hWin.le
  have hMax : maxRwCount ≤ isizeMax := by decide
  refine ⟨n, ?_, by omega, by omega, by omega, fun h0 => ?_⟩
  · have hStore : m.mem.scatter win (data.take n) = store m.mem (cells bufs) (data.take n) := by
      unfold Memory.scatter
      rw [hWin.cells_eq]
      exact store_take_addrs _ _ (by rw [List.length_take]; omega)
    simp only [readAt, ← hData, ← hn, hStore]
  · rw [hn, shortCount_eq_zero] at h0
    by_cases hEmpty : totalLen win = 0
    · exact Or.inl (hWin.headEmpty hEmpty)
    · right
      apply List.eq_nil_of_length_eq_zero
      unfold maxRwCount at h0
      omega

end Machine

section

variable {env : Env} {k : Kernel} {d : Desc} {S : Type} {l : BufferLoop S} {s : S}
  {bufs win : List Slice} {call : Method Nat}

/-- The description is still what it was. -/
def Kept (d : Desc) (k : Kernel) : Prop := k.machine.desc = d

/-- One read at an offset, as a call of a loop. -/
theorem read_fetched (hCalm : env.Calm) {offset : Nat}
    (hCall : call.Holds calmRules (fun r m' => ∃ count,
      (r, m') = (k.machine.readAt win offset count).map Except.ok id) k.machine)
    (hKept : Kept d k) (hOffset : l.offset s = some offset) (hAddrs : l.addrs s = cells bufs)
    (hFull : ¬ HeadEmpty bufs) (hWin : LeadingWindow bufs win) :
    (Kernel.run env call).wp k fun a k' =>
      FileState.Fetched l (fun k => k.machine.file) (Kept d) s k a k' ∧
        FileState.Spends (fun _ => 0) k a k' := by
  apply (run_calm hCalm hCall).mono
  rintro r k' ⟨count, hEq⟩
  obtain ⟨n, hRead, hn, hMax, hAhead, hZero⟩ := k.machine.readAt_spec hWin offset count
  rw [hRead] at hEq
  obtain ⟨rfl, hMachine⟩ := Prod.mk.inj hEq
  refine ⟨⟨?_, Or.inl hMax, ?_, fun h0 => ?_, ?_, ?_⟩, le_rfl⟩
  · rw [hAddrs, length_cells]
    exact hn
  · rw [hOffset]
    exact hAhead
  · rw [hOffset]
    exact (hZero h0).resolve_left hFull
  · show k'.machine.file = _
    rw [hMachine, hOffset, hAddrs]
    rfl
  · show k'.machine.desc = d
    rw [hMachine]
    exact hKept

/-- One write, as a call of a loop. -/
theorem write_sent (hCalm : env.Calm)
    (hCall : call.Holds calmRules (fun r m' => ∃ count,
      r = .ok (k.machine.taken win count).length ∧
      m' = { k.machine with
        content := place (l.offset s) k.machine.content (k.machine.taken win count) })
      k.machine)
    (hKept : Kept d k) (hAddrs : l.addrs s = cells bufs)
    (hLegit : HeadEmpty bufs → l.zero = none ∧ l.MayZero s) (hWin : LeadingWindow bufs win) :
    (Kernel.run env call).wp k fun a k' =>
      FileState.Sent l (fun k => k.machine.file) (Kept d) s k a k' ∧
        FileState.Spends (fun _ => 0) k a k' := by
  apply (run_calm hCalm hCall).mono
  rintro r k' ⟨count, rfl, hMachine⟩
  obtain ⟨n, hLen, hTaken, hn, hMax, hEmpty⟩ := k.machine.taken_spec hWin count
  rw [hLen]
  rw [hTaken] at hMachine
  refine ⟨⟨?_, Or.inl hMax, fun h0 => hLegit (hEmpty h0), ?_, ?_⟩, le_rfl⟩
  · rw [hAddrs, length_cells]
    exact hn
  · show k'.machine.file = _
    rw [hMachine, hAddrs]
    rfl
  · show k'.machine.desc = d
    rw [hMachine]
    exact hKept

end

-- ---------------------------------------------------------------------------
-- Whole transfers
-- ---------------------------------------------------------------------------

section

variable {env : Env} {k : Kernel} {d : Desc}

/-- **`read_exact_at`.** -/
theorem readExactAt_wp (p : Profile) (hCalm : env.Calm) (hKept : Kept d k) (buf : Slice)
    {offset : Nat} (hFits : offset + buf.len < 2 ^ 64) :
    ((file p env).readExactAt buf offset).wp k fun r k' =>
      (r, k'.machine.file) = k.machine.file.readExact (some offset) buf.addrs ∧ Kept d k' := by
  refine FileState.ReadLoop.wp (l := RustStd.readExactAt.bufferLoop p) rfl (fun s _ hne => ?_)
    (fun _ => 0) (fun _ s k _ hne hKept => ?_) (BufferLoop.offsetFits_some rfl ?_) trivial hKept
  · exact Slice.addrs_ne_nil (Slice.len_ne_zero hne)
  · refine read_fetched hCalm ?_ hKept rfl (cells_singleton s.1).symm
      (not_headEmpty_singleton hne) (leadingWindow_self s.1)
    exact holds_call (by simp) fun count => ⟨count, rfl⟩
  · show offset + buf.addrs.length < 2 ^ 64
    rwa [Slice.length_addrs]

/-- **`read_exact_vectored_at`.** -/
theorem readExactVectoredAt_wp (p : Profile) (hCalm : env.Calm) (hKept : Kept d k)
    (bufs : List IoSliceMut) {offset : Nat} (hFits : offset + totalLen bufs < 2 ^ 64) :
    ((file p env).readExactVectoredAt bufs offset).wp k fun r k' =>
      (r, k'.machine.file) = k.machine.file.readExact (some offset) (cells bufs) ∧
        Kept d k' := by
  rw [← cells_skipLeadingEmpties bufs]
  refine FileState.ReadLoop.wp (l := FileIoExt.Default.readExactVectoredAt.bufferLoop p) rfl
    (fun s hReady hne => HeadFull.cells_ne_nil hReady hne) (fun _ => 0)
    (fun _ s k hAt hne hKept => ?_) (BufferLoop.offsetFits_some rfl ?_)
    (headFull_skipLeadingEmpties bufs) hKept
  · refine read_fetched hCalm ?_ hKept rfl rfl (HeadFull.not_headEmpty hAt.ready hne)
      (leadingWindow_take (k := iovMax) (by decide))
    exact holds_call (by simp) fun count => ⟨count, rfl⟩
  · show offset + (cells (skipLeadingEmpties bufs)).length < 2 ^ 64
    rwa [cells_skipLeadingEmpties, length_cells]

/-- Without append mode, `pwrite` puts its bytes at the offset. -/
theorem writeAt_of_not_appends {m : Machine} (hNot : m.desc.appends = false)
    (bufs : List IoSlice) (offset count : Nat) :
    m.writeAt bufs offset count = ((m.taken bufs count).length,
      { m with content := place (some offset) m.content (m.taken bufs count) }) := by
  simp only [Machine.writeAt, hNot, Bool.false_eq_true, if_false, place]

/-- **`write_all_at`.** -/
theorem writeAllAt_wp (p : Profile) (hCalm : env.Calm) (hKept : Kept d k)
    (hNot : d.appends = false) (buf : Slice) {offset : Nat} (hFits : offset + buf.len < 2 ^ 64) :
    ((file p env).writeAllAt buf offset).wp k fun r k' =>
      r = .ok () ∧ k'.machine.file =
        k.machine.file.write (some offset) (buf.addrs.map k.machine.mem) ∧ Kept d k' := by
  refine FileState.writes_wp (l := RustStd.writeAllAt.bufferLoop p) (fun _ => 0)
    (fun _ s k _ hne hKept => ?_) (BufferLoop.offsetFits_some rfl ?_) trivial hKept
  · refine write_sent hCalm ?_ hKept (cells_singleton s.1).symm
      (fun hEmpty => absurd hEmpty (not_headEmpty_singleton hne)) (leadingWindow_self s.1)
    refine holds_call (by simp) fun count => ⟨count, ?_⟩
    exact Prod.mk.inj (congrArg (Prod.map Except.ok id)
      (writeAt_of_not_appends (by rw [hKept]; exact hNot) [s.1] s.2 count))
  · show offset + buf.addrs.length < 2 ^ 64
    rwa [Slice.length_addrs]

/-- **`write_all_vectored_at`.** -/
theorem writeAllVectoredAt_wp (p : Profile) (hCalm : env.Calm) (hKept : Kept d k)
    (hNot : d.appends = false) (bufs : List IoSlice) {offset : Nat}
    (hFits : offset + totalLen bufs < 2 ^ 64) :
    ((file p env).writeAllVectoredAt bufs offset).wp k fun r k' =>
      r = .ok () ∧ k'.machine.file =
        k.machine.file.write (some offset) (k.machine.mem.gather bufs) ∧ Kept d k' := by
  refine FileState.writes_wp (l := FileIoExt.Default.writeAllVectoredAt.bufferLoop p) (fun _ => 0)
    (fun _ s k _ hne hKept => ?_) (BufferLoop.offsetFits_some rfl ?_) trivial hKept
  · refine write_sent hCalm ?_ hKept rfl (fun hEmpty => ⟨rfl, hEmpty⟩)
      (leadingWindow_take (k := iovMax) (by decide))
    refine holds_call (by simp) fun count => ⟨count, ?_⟩
    exact Prod.mk.inj (congrArg (Prod.map Except.ok id)
      (writeAt_of_not_appends (by rw [hKept]; exact hNot) (s.1.take iovMax) s.2 count))
  · show offset + (cells bufs).length < 2 ^ 64
    rwa [length_cells]

/-- An append by either path, as the write of a loop. -/
theorem AppendedOn.sent {win : List Slice} {m m' : Machine} {r : Result Nat}
    (h : AppendedOn win m r m') : ∃ count, r = .ok (m.taken win count).length ∧
      m' = { m with content := place none m.content (m.taken win count) } := by
  obtain ⟨count, hEq⟩ := h
  exact ⟨count, Prod.mk.inj hEq⟩

/-- **`append_all`.** -/
theorem appendAll_wp (p : Profile) (hCalm : env.Calm) (hKept : Kept d k) (buf : Slice) :
    ((file p env).appendAll buf).wp k fun r k' =>
      r = .ok () ∧ k'.machine.file =
        k.machine.file.write none (buf.addrs.map k.machine.mem) ∧ Kept d k' := by
  refine FileState.writes_wp (l := FileIoExt.Default.appendAll.bufferLoop) (fun _ => 0)
    (fun _ s k _ hne hKept => ?_) (BufferLoop.offsetFits_none rfl) trivial hKept
  refine write_sent hCalm ?_ hKept (cells_singleton s).symm
    (fun hEmpty => absurd hEmpty (not_headEmpty_singleton hne)) (leadingWindow_self s)
  exact (appendUsing_calm (writesBy_write s) k.machine).mono fun _ _ h => h.sent

/-- **`append_all_vectored`.** -/
theorem appendAllVectored_wp (p : Profile) (hCalm : env.Calm) (hKept : Kept d k)
    (bufs : List IoSlice) :
    ((file p env).appendAllVectored bufs).wp k fun r k' =>
      r = .ok () ∧ k'.machine.file =
        k.machine.file.write none (k.machine.mem.gather bufs) ∧ Kept d k' := by
  refine FileState.writes_wp (l := FileIoExt.Default.appendAllVectored.bufferLoop p) (fun _ => 0)
    (fun _ s k _ _ hKept => ?_) (BufferLoop.offsetFits_none rfl) trivial hKept
  refine write_sent hCalm ?_ hKept rfl (fun hEmpty => ⟨rfl, hEmpty⟩)
    (leadingWindow_take (k := iovMax) (by decide))
  exact (appendUsing_calm (writesBy_writev _) k.machine).mono fun _ _ h => h.sent

/-- The description is not in append mode. -/
def NotAppending (k : Kernel) : Prop := k.machine.desc.appends = false

/-- **`seek`**, to a position in range. -/
theorem seek_wp (p : Profile) (hCalm : env.Calm) {pos : SeekFrom}
    (hRange : 0 ≤ k.machine.file.target pos) (hNot : NotAppending k) :
    ((file p env).seek pos).wp k fun r k' =>
      r = .ok (k.machine.file.target pos).toNat ∧
        k'.machine.file = { k.machine.file with pos := (k.machine.file.target pos).toNat } ∧
        NotAppending k' := by
  set target := (k.machine.file.target pos).toNat with hTarget
  have hSeek : k.machine.lseek pos =
      (.ok target, { k.machine with desc := ⟨target, k.machine.desc.flags⟩ }) := by
    have hEq : k.machine.target pos = k.machine.file.target pos := by cases pos <;> rfl
    unfold Machine.lseek
    rw [hEq, if_pos hRange]
  have hCall : (seek pos).Holds calmRules (fun r m' => r = .ok target ∧
      m' = { k.machine with desc := ⟨target, k.machine.desc.flags⟩ }) k.machine := by
    apply holds_call (by simp)
    intro count
    show (try_ (k.machine.lseek pos).1 : Method Nat).Holds calmRules _ (k.machine.lseek pos).2
    rw [hSeek]
    exact ⟨rfl, rfl⟩
  apply (run_calm hCalm hCall).mono
  rintro r k' ⟨rfl, hMachine⟩
  refine ⟨rfl, by rw [hMachine]; rfl, ?_⟩
  show k'.machine.desc.appends = false
  rw [hMachine]
  exact hNot

/-- **`stream_position`.** -/
theorem streamPosition_wp (p : Profile) (hCalm : env.Calm) :
    ((file p env).streamPosition).wp k fun r k' =>
      r = .ok k.machine.desc.pos ∧ k'.machine = k.machine := by
  have hCall : streamPosition.Holds calmRules
      (fun r m' => r = .ok k.machine.desc.pos ∧ m' = k.machine) k.machine :=
    holds_call (by simp) fun _ => ⟨rfl, rfl⟩
  exact run_calm hCalm hCall

end

end SystemInterface.Unix
