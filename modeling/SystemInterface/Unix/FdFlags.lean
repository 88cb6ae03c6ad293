import SystemInterface.Model.FdFlags
import SystemInterface.Model.Handles
import SystemInterface.Unix.Files

/-!
# SystemInterface — file descriptor flags on Unix

`GetSetFdFlags` on Linux: the status flags of the file description are read and set by
`fcntl`. They are the flags that the fallback of an append switches and switches back, and
one of them says where a positional write goes: in append mode it ignores its offset.

Which bits the flags for synchronized writes have is a parameter; that `F_SETFL` ignores
them is `SyncFlags.Ignored`.

A `FlaggedFile` is a file with its status flags one by one. Programs that mix the calls of
`FileIoExt` and of `GetSetFdFlags` are served as on a `FlaggedFile`, in append mode and out
of it; a change prepared by `new_set_fd_flags` may be made at any later time.

Main results:

* `Status.reported_changed` — what is reported after a change;
* `serves_flags` — each call does what it is for;
* `flagged_file_prog` — so does every program.
-/

namespace SystemInterface.Unix

open Effect

-- ---------------------------------------------------------------------------
-- The source
-- ---------------------------------------------------------------------------

namespace OFlags

-- as on x86-64; other architectures have other bits for `DIRECT`
def NONBLOCK : OFlags := 0x800
def ASYNC : OFlags := 0x2000
def DIRECT : OFlags := 0x4000
def NOATIME : OFlags := 0x40000

def empty : OFlags := 0

end OFlags

/-- The flags of `rustix::fs::OFlags` for synchronized writes. Their bits depend on the
backend: `DSYNC` is `O_DSYNC` of Linux with one and `O_SYNC` with another. -/
structure SyncFlags where
  DSYNC : OFlags
  RSYNC : OFlags
  SYNC : OFlags

/-- Linux silently ignores these flags in `F_SETFL`. -/
structure SyncFlags.Ignored (o : SyncFlags) : Prop where
  dsync : o.DSYNC &&& OFlags.settable = 0
  rsync : o.RSYNC &&& OFlags.settable = 0
  sync : o.SYNC &&& OFlags.settable = 0

def getFdFlags (o : SyncFlags) : Method FdFlags := do
  let fdFlags := FdFlags.empty
  let r ← sys .fcntlGetfl
  let flags : OFlags ← try_ r
  let fdFlags := Flags.set fdFlags FdFlags.APPEND (Flags.contains flags OFlags.APPEND)
  let fdFlags := Flags.set fdFlags FdFlags.DSYNC (Flags.contains flags o.DSYNC)
  let fdFlags := Flags.set fdFlags FdFlags.NONBLOCK (Flags.contains flags OFlags.NONBLOCK)
  let fdFlags := Flags.set fdFlags FdFlags.RSYNC (Flags.contains flags o.RSYNC)
  let fdFlags := Flags.set fdFlags FdFlags.SYNC (Flags.contains flags o.SYNC)
  return fdFlags

/-- `SetFdFlags<T>`: its field is private, so it holds no other flags than the ones that
`new_set_fd_flags` sets. -/
structure SetFdFlags where
  flags : OFlags
  only : Flags.contains (OFlags.APPEND ||| OFlags.NONBLOCK) flags = true

theorem only_append_nonblock (append nonblock : Bool) :
    Flags.contains (OFlags.APPEND ||| OFlags.NONBLOCK)
      (Flags.set (Flags.set OFlags.empty OFlags.APPEND append) OFlags.NONBLOCK nonblock) =
        true := by
  cases append <;> cases nonblock <;> decide

def newSetFdFlags (fdFlags : FdFlags) : Except IoError SetFdFlags := do
  let flags : Flags 32 := OFlags.empty
  let flags := flags.set OFlags.APPEND (fdFlags.contains FdFlags.APPEND)
  let flags := flags.set OFlags.NONBLOCK (fdFlags.contains FdFlags.NONBLOCK)
  -- Linux, FreeBSD, and others silently ignore these flags in `F_SETFL`.
  if fdFlags.intersects (FdFlags.DSYNC ||| FdFlags.SYNC ||| FdFlags.RSYNC) then
    throw (.new .other "setting fd_flags SYNC, DSYNC, and RSYNC is not supported")
  return ⟨flags, only_append_nonblock _ _⟩

def setFdFlags (setFdFlags : SetFdFlags) : Method Unit := do
  let r ← sys (.fcntlSetfl setFdFlags.flags)
  try_ r

/-- A call of `FileIoExt` or of `GetSetFdFlags`. -/
inductive FlagCall where
  | file (op : Op)
  | getFdFlags
  | newSetFdFlags (fdFlags : FdFlags)
  | setFdFlags (set : SetFdFlags)

def FlagCall.Value : FlagCall → Type
  | file _ => Reply
  | getFdFlags => Result FdFlags
  | newSetFdFlags _ => Except IoError SetFdFlags
  | setFdFlags _ => Result Unit

/-- A program over the calls. -/
abbrev FlagProg (α : Type) := Prog FlagCall FlagCall.Value Fault α

abbrev ask (c : FlagCall) : FlagProg c.Value := Prog.op c

def performFlag (p : Profile) (o : SyncFlags) (env : Env) :
    (c : FlagCall) → Proc Kernel Fault c.Value
  | .file op => op.perform (file p env)
  | .getFdFlags => (Kernel.run env (getFdFlags o)).attempt
  | .newSetFdFlags fdFlags => pure (newSetFdFlags fdFlags)
  | .setFdFlags set => (Kernel.run env (setFdFlags set)).attempt

-- ---------------------------------------------------------------------------
-- Status flags one by one
-- ---------------------------------------------------------------------------

/-- The status flags of a description. -/
@[ext] structure Status where
  append : Bool
  nonblock : Bool
  dsync : Bool
  rsync : Bool
  sync : Bool
  async : Bool
  direct : Bool
  noatime : Bool

namespace Status

def ofFlags (o : SyncFlags) (flags : OFlags) : Status where
  append := Flags.contains flags OFlags.APPEND
  nonblock := Flags.contains flags OFlags.NONBLOCK
  dsync := Flags.contains flags o.DSYNC
  rsync := Flags.contains flags o.RSYNC
  sync := Flags.contains flags o.SYNC
  async := Flags.contains flags OFlags.ASYNC
  direct := Flags.contains flags OFlags.DIRECT
  noatime := Flags.contains flags OFlags.NOATIME

/-- The flags that are reported. -/
def reported (s : Status) : FdFlags :=
  (if s.append then FdFlags.APPEND else 0) ||| (if s.dsync then FdFlags.DSYNC else 0) |||
    (if s.nonblock then FdFlags.NONBLOCK else 0) ||| (if s.rsync then FdFlags.RSYNC else 0) |||
    if s.sync then FdFlags.SYNC else 0

/-- After a change: the flags that `F_SETFL` can change and that are not in the new ones
are off. -/
def changed (s : Status) (set : SetFdFlags) : Status where
  append := Flags.contains set.flags OFlags.APPEND
  nonblock := Flags.contains set.flags OFlags.NONBLOCK
  dsync := s.dsync
  rsync := s.rsync
  sync := s.sync
  async := s.async
  direct := false
  noatime := false

end Status

/-- A file with its status flags. -/
structure FlaggedFile where
  file : FileState
  status : Status

namespace FlaggedFile

variable (f : FlaggedFile)

/-- Where a positional write goes. -/
def destination (offset : Nat) : Option Nat := if f.status.append then none else some offset

def applyOp : Op → Reply × FileState
  | .writeAllAt buf offset =>
    (.unit (.ok ()), f.file.write (f.destination offset) (buf.addrs.map f.file.mem))
  | .writeAllVectoredAt bufs offset =>
    (.unit (.ok ()), f.file.write (f.destination offset) (f.file.mem.gather bufs))
  | op => f.file.apply op

/-- What the calls are for. -/
def calls : Spec FlagCall FlagCall.Value FlaggedFile where
  apply f
    | .file op => (f.applyOp op).map id fun file => { f with file }
    | .getFdFlags => (.ok f.status.reported, f)
    | .newSetFdFlags fdFlags => (newSetFdFlags fdFlags, f)
    | .setFdFlags set => (.ok (), { f with status := f.status.changed set })
  allowed f
    | .file op => op.InRange f.file
    | _ => True

instance : (f : FlaggedFile) → (c : FlagCall) → Decidable (calls.allowed f c)
  | f, .file op => inferInstanceAs (Decidable (op.InRange f.file))
  | _, .getFdFlags => isTrue trivial
  | _, .newSetFdFlags _ => isTrue trivial
  | _, .setFdFlags _ => isTrue trivial

end FlaggedFile

-- ---------------------------------------------------------------------------
-- The flags of a description
-- ---------------------------------------------------------------------------

theorem append_eq_single : OFlags.APPEND = Flags.single (10 : Fin 32) := by decide

theorem Desc.appends_eq (d : Desc) (o : SyncFlags) :
    d.appends = (Status.ofFlags o d.flags).append := by
  show (d.flags &&& OFlags.APPEND != 0) = Flags.contains d.flags OFlags.APPEND
  rw [append_eq_single, Flags.and_single_ne_zero]

/-- The file with its status flags, as the owner of the description sees it. -/
def Machine.flaggedFile (o : SyncFlags) (m : Machine) : FlaggedFile :=
  ⟨m.file, Status.ofFlags o m.desc.flags⟩

/-- A prepared change has no flag but the two. -/
theorem SetFdFlags.contains_single {set : SetFdFlags} {i : Fin 32}
    (hOther : Flags.contains (OFlags.APPEND ||| OFlags.NONBLOCK) (.single i) = false) :
    Flags.contains set.flags (.single i) = false := by
  rw [Flags.contains_single] at hOther ⊢
  by_contra hOn
  rw [Bool.not_eq_false] at hOn
  rw [(Flags.contains_iff _ _).mp set.only i hOn] at hOther
  exact absurd hOther (by decide)

/-- **`F_SETFL` with a prepared change.** -/
theorem status_setFlags {o : SyncFlags} (hIgnored : o.Ignored) (m : Machine) (set : SetFdFlags) :
    Status.ofFlags o (m.setFlags set.flags).desc.flags =
      (Status.ofFlags o m.desc.flags).changed set := by
  have hOn : ∀ i : Fin 32, Flags.contains OFlags.settable (.single i) = true →
      Flags.contains (m.setFlags set.flags).desc.flags (.single i) =
        Flags.contains set.flags (.single i) := by
    intro i hi
    exact (Flags.masked_contains ..).trans (if_pos hi)
  have hOff : ∀ i : Fin 32, Flags.contains OFlags.settable (.single i) = true →
      Flags.contains (OFlags.APPEND ||| OFlags.NONBLOCK) (.single i) = false →
      Flags.contains (m.setFlags set.flags).desc.flags (.single i) = false := by
    intro i hi hOther
    rw [hOn i hi, SetFdFlags.contains_single hOther]
  have hKept : ∀ flag : OFlags, flag &&& OFlags.settable = 0 →
      Flags.contains (m.setFlags set.flags).desc.flags flag =
        Flags.contains m.desc.flags flag :=
    fun _ h => Flags.masked_contains_of_disjoint _ _ h
  ext
  · exact hOn 10 (by decide)
  · exact hOn 11 (by decide)
  · exact hKept o.DSYNC hIgnored.dsync
  · exact hKept o.RSYNC hIgnored.rsync
  · exact hKept o.SYNC hIgnored.sync
  · exact hKept OFlags.ASYNC (by decide)
  · exact hOff 14 (by decide) (by decide)
  · exact hOff 18 (by decide) (by decide)

theorem contains_append_nonblock (append nonblock : Bool) :
    Flags.contains
        (Flags.set (Flags.set OFlags.empty OFlags.APPEND append) OFlags.NONBLOCK nonblock)
        OFlags.APPEND = append ∧
      Flags.contains
        (Flags.set (Flags.set OFlags.empty OFlags.APPEND append) OFlags.NONBLOCK nonblock)
        OFlags.NONBLOCK = nonblock := by
  cases append <;> cases nonblock <;> decide

theorem newSetFdFlags_ok {fdFlags : FdFlags} {set : SetFdFlags}
    (hNew : newSetFdFlags fdFlags = .ok set) :
    Flags.contains set.flags OFlags.APPEND = fdFlags.contains FdFlags.APPEND ∧
      Flags.contains set.flags OFlags.NONBLOCK = fdFlags.contains FdFlags.NONBLOCK ∧
      fdFlags.intersects (FdFlags.DSYNC ||| FdFlags.SYNC ||| FdFlags.RSYNC) = false := by
  unfold newSetFdFlags at hNew
  cases hSync : fdFlags.intersects (FdFlags.DSYNC ||| FdFlags.SYNC ||| FdFlags.RSYNC) with
  | true =>
    rw [hSync] at hNew
    cases hNew
  | false =>
    rw [hSync] at hNew
    cases hNew
    obtain ⟨hAppend, hNonblock⟩ := contains_append_nonblock
      (fdFlags.contains FdFlags.APPEND) (fdFlags.contains FdFlags.NONBLOCK)
    exact ⟨hAppend, hNonblock, rfl⟩

/-- **What is reported after a change**: the two flags as they were asked for, the others as
before. -/
theorem Status.reported_changed (s : Status) {fdFlags : FdFlags} {set : SetFdFlags}
    (hNew : newSetFdFlags fdFlags = .ok set) :
    (s.changed set).reported = (fdFlags &&& (FdFlags.APPEND ||| FdFlags.NONBLOCK)) |||
      (s.reported &&& (FdFlags.DSYNC ||| FdFlags.SYNC ||| FdFlags.RSYNC)) := by
  obtain ⟨hAppend, hNonblock, -⟩ := newSetFdFlags_ok hNew
  have hA : FdFlags.APPEND = Flags.single (0 : Fin 32) := by decide
  have hN : FdFlags.NONBLOCK = Flags.single (2 : Fin 32) := by decide
  have hAsked : fdFlags &&& (FdFlags.APPEND ||| FdFlags.NONBLOCK) =
      (if fdFlags.contains FdFlags.APPEND then FdFlags.APPEND else 0) |||
        if fdFlags.contains FdFlags.NONBLOCK then FdFlags.NONBLOCK else 0 := by
    rw [BitVec.and_or_distrib_left, hA, hN, Flags.and_single, Flags.and_single]
  rw [hAsked]
  simp only [reported, changed, hAppend, hNonblock]
  cases fdFlags.contains FdFlags.APPEND <;> cases fdFlags.contains FdFlags.NONBLOCK <;>
    cases s.append <;> cases s.dsync <;> cases s.nonblock <;> cases s.rsync <;> cases s.sync <;>
    decide

-- ---------------------------------------------------------------------------
-- Positional writes in append mode
-- ---------------------------------------------------------------------------

theorem cumulative_write_none : FileState.Cumulative fun f data => f.write none data where
  nil f := f.write_nil none
  append f a b := by
    show FileState.mk f.mem (f.content ++ a ++ b) f.pos = ⟨f.mem, f.content ++ (a ++ b), f.pos⟩
    rw [List.append_assoc]
  mem _ _ := rfl

theorem writeAt_of_appends {m : Machine} (hAppends : m.desc.appends = true)
    (bufs : List IoSlice) (offset count : Nat) :
    m.writeAt bufs offset count = ((m.taken bufs count).length,
      { m with content := m.content ++ m.taken bufs count }) := by
  simp only [Machine.writeAt, hAppends, if_true]

section

variable {env : Env} {k : Kernel} {d : Desc} {S : Type} {l : BufferLoop S} {s : S}
  {bufs win : List Slice} {call : Method Nat}

/-- One positional write in append mode, as a call of a loop. -/
theorem write_emitted (hCalm : env.Calm)
    (hCall : call.Holds calmRules (fun r m' => ∃ count,
      r = .ok (k.machine.taken win count).length ∧
      m' = { k.machine with content := k.machine.content ++ k.machine.taken win count })
      k.machine)
    (hKept : Kept d k) (hAddrs : l.addrs s = cells bufs)
    (hLegit : HeadEmpty bufs → l.zero = none ∧ l.MayZero s) (hWin : LeadingWindow bufs win) :
    (Kernel.run env call).wp k fun a k' =>
      FileState.Emitted (fun f data => f.write none data) l (fun k => k.machine.file) (Kept d)
        s k a k' ∧ FileState.Spends (fun _ => 0) k a k' := by
  apply (run_calm hCalm hCall).mono
  rintro r k' ⟨count, rfl, hMachine⟩
  obtain ⟨n, hLen, hTaken, hn, hMax, hEmpty⟩ := k.machine.taken_spec hWin count
  rw [hLen]
  rw [hTaken] at hMachine
  refine ⟨⟨?_, Or.inl hMax, fun h0 => hLegit (hEmpty h0), ?_, ?_⟩, le_rfl⟩
  · rw [hAddrs, length_cells]
    exact hn
  · show k'.machine.file = _
    rw [hMachine, hAddrs]
    rfl
  · show k'.machine.desc = d
    rw [hMachine]
    exact hKept

/-- **`write_all_at`** in append mode. -/
theorem writeAllAt_appending_wp (p : Profile) (hCalm : env.Calm) (hKept : Kept d k)
    (hAppends : d.appends = true) (buf : Slice) {offset : Nat}
    (hFits : offset + buf.len < 2 ^ 64) :
    ((file p env).writeAllAt buf offset).wp k fun r k' =>
      r = .ok () ∧ k'.machine.file =
        k.machine.file.write none (buf.addrs.map k.machine.mem) ∧ Kept d k' := by
  refine FileState.emits_wp (l := RustStd.writeAllAt.bufferLoop p) cumulative_write_none
    (fun _ => 0) (fun s k hne hKept => ?_) (BufferLoop.offsetFits_some rfl ?_) trivial hKept
  · refine write_emitted hCalm ?_ hKept (cells_singleton s.1).symm
      (fun hEmpty => absurd hEmpty (not_headEmpty_singleton hne)) (leadingWindow_self s.1)
    refine holds_call (by simp) fun count => ⟨count, ?_⟩
    exact Prod.mk.inj (congrArg (Prod.map Except.ok id)
      (writeAt_of_appends (by rw [hKept]; exact hAppends) [s.1] s.2 count))
  · show offset + buf.addrs.length < 2 ^ 64
    rwa [Slice.length_addrs]

/-- **`write_all_vectored_at`** in append mode. -/
theorem writeAllVectoredAt_appending_wp (p : Profile) (hCalm : env.Calm) (hKept : Kept d k)
    (hAppends : d.appends = true) (bufs : List IoSlice) {offset : Nat}
    (hFits : offset + totalLen bufs < 2 ^ 64) :
    ((file p env).writeAllVectoredAt bufs offset).wp k fun r k' =>
      r = .ok () ∧ k'.machine.file =
        k.machine.file.write none (k.machine.mem.gather bufs) ∧ Kept d k' := by
  refine FileState.emits_wp (l := FileIoExt.Default.writeAllVectoredAt.bufferLoop p)
    cumulative_write_none (fun _ => 0) (fun s k _ hKept => ?_)
    (BufferLoop.offsetFits_some rfl ?_) trivial hKept
  · refine write_emitted hCalm ?_ hKept rfl (fun hEmpty => ⟨rfl, hEmpty⟩)
      (leadingWindow_take (k := iovMax) (by decide))
    refine holds_call (by simp) fun count => ⟨count, ?_⟩
    exact Prod.mk.inj (congrArg (Prod.map Except.ok id)
      (writeAt_of_appends (by rw [hKept]; exact hAppends) (s.1.take iovMax) s.2 count))
  · show offset + (cells bufs).length < 2 ^ 64
    rwa [length_cells]

-- ---------------------------------------------------------------------------
-- The calls
-- ---------------------------------------------------------------------------

/-- `lseek` keeps the flags. -/
theorem seek_flags_wp (p : Profile) (hCalm : env.Calm) {pos : SeekFrom}
    (hRange : 0 ≤ k.machine.file.target pos) :
    ((file p env).seek pos).wp k fun r k' =>
      r = .ok (k.machine.file.target pos).toNat ∧ k'.machine =
        { k.machine with
          desc := ⟨(k.machine.file.target pos).toNat, k.machine.desc.flags⟩ } := by
  have hSeek : k.machine.lseek pos = (.ok (k.machine.file.target pos).toNat,
      { k.machine with
        desc := ⟨(k.machine.file.target pos).toNat, k.machine.desc.flags⟩ }) := by
    have hEq : k.machine.target pos = k.machine.file.target pos := by cases pos <;> rfl
    unfold Machine.lseek
    rw [hEq, if_pos hRange]
  have hCall : (seek pos).Holds calmRules (fun r m' =>
      r = .ok (k.machine.file.target pos).toNat ∧ m' = { k.machine with
        desc := ⟨(k.machine.file.target pos).toNat, k.machine.desc.flags⟩ }) k.machine := by
    apply holds_call (by simp)
    intro count
    show (try_ (k.machine.lseek pos).1 : Method Nat).Holds calmRules _ (k.machine.lseek pos).2
    rw [hSeek]
    exact ⟨rfl, rfl⟩
  exact run_calm hCalm hCall

theorem Status.set_reported (s : Status) :
    Flags.set (Flags.set (Flags.set (Flags.set (Flags.set FdFlags.empty
      FdFlags.APPEND s.append) FdFlags.DSYNC s.dsync) FdFlags.NONBLOCK s.nonblock)
      FdFlags.RSYNC s.rsync) FdFlags.SYNC s.sync = s.reported := by
  unfold reported
  cases s.append <;> cases s.dsync <;> cases s.nonblock <;> cases s.rsync <;> cases s.sync <;>
    decide

/-- **`get_fd_flags`.** -/
theorem getFdFlags_wp (o : SyncFlags) (hCalm : env.Calm) (k : Kernel) :
    (Kernel.run env (getFdFlags o)).wp k fun r k' =>
      r = .ok (Status.ofFlags o k.machine.desc.flags).reported ∧ k'.machine = k.machine := by
  have hCall : (getFdFlags o).Holds calmRules (fun r m' =>
      r = .ok (Status.ofFlags o k.machine.desc.flags).reported ∧ m' = k.machine) k.machine := by
    refine holds_call (by simp) fun _ => ⟨congrArg Except.ok ?_, rfl⟩
    exact (Status.ofFlags o k.machine.desc.flags).set_reported
  exact run_calm hCalm hCall

/-- **`set_fd_flags`.** -/
theorem setFdFlags_wp (hCalm : env.Calm) (k : Kernel) (set : SetFdFlags) :
    (Kernel.run env (setFdFlags set)).wp k fun r k' =>
      r = .ok () ∧ k'.machine = k.machine.setFlags set.flags := by
  have hCall : (setFdFlags set).Holds calmRules
      (fun r m' => r = .ok () ∧ m' = k.machine.setFlags set.flags) k.machine :=
    holds_call (by simp) fun _ => ⟨rfl, rfl⟩
  exact run_calm hCalm hCall

/-- **The calls of `FileIoExt`**, in append mode and out of it. -/
theorem perform_flaggedFile (p : Profile) (o : SyncFlags) (hCalm : env.Calm) (op : Op) (k : Kernel)
    (hRange : op.InRange k.machine.file) :
    (op.perform (file p env)).wp k fun r k' =>
      r = .ok ((k.machine.flaggedFile o).applyOp op).1 ∧ k'.machine.flaggedFile o =
        { k.machine.flaggedFile o with file := ((k.machine.flaggedFile o).applyOp op).2 } := by
  have hKept : Kept k.machine.desc k := rfl
  have hWord : i64Max < 2 ^ 64 := by decide
  have hStatus : ∀ {k' : Kernel} {f : FileState}, k'.machine.file = f →
      Kept k.machine.desc k' →
      k'.machine.flaggedFile o = { k.machine.flaggedFile o with file := f } := by
    rintro k' f rfl hKept'
    show FlaggedFile.mk _ (Status.ofFlags o k'.machine.desc.flags) = _
    rw [hKept']
    rfl
  have hTo : ∀ offset, (k.machine.flaggedFile o).destination offset =
      if k.machine.desc.appends then none else some offset := by
    intro offset
    rw [Desc.appends_eq _ o]
    rfl
  cases op with
  | writeAllAt buf offset =>
    have hFits : offset + buf.len ≤ i64Max := hRange
    have hWp : ((file p env).writeAllAt buf offset).wp k fun r k' =>
        r = .ok () ∧ k'.machine.file =
          k.machine.file.write ((k.machine.flaggedFile o).destination offset)
            (buf.addrs.map k.machine.mem) ∧ Kept k.machine.desc k' := by
      rw [hTo]
      cases hMode : k.machine.desc.appends with
      | true => exact writeAllAt_appending_wp p hCalm hKept hMode buf (by omega)
      | false => exact writeAllAt_wp p hCalm hKept hMode buf (by omega)
    refine reply_wp (hWp.mono ?_)
    rintro r k' ⟨rfl, hFile, hKept'⟩
    exact ⟨rfl, hStatus hFile hKept'⟩
  | writeAllVectoredAt bufs offset =>
    have hFits : offset + totalLen bufs ≤ i64Max := hRange
    have hWp : ((file p env).writeAllVectoredAt bufs offset).wp k fun r k' =>
        r = .ok () ∧ k'.machine.file =
          k.machine.file.write ((k.machine.flaggedFile o).destination offset)
            (k.machine.mem.gather bufs) ∧ Kept k.machine.desc k' := by
      rw [hTo]
      cases hMode : k.machine.desc.appends with
      | true => exact writeAllVectoredAt_appending_wp p hCalm hKept hMode bufs (by omega)
      | false => exact writeAllVectoredAt_wp p hCalm hKept hMode bufs (by omega)
    refine reply_wp (hWp.mono ?_)
    rintro r k' ⟨rfl, hFile, hKept'⟩
    exact ⟨rfl, hStatus hFile hKept'⟩
  | readExactAt buf offset =>
    have hFits : offset + buf.len ≤ i64Max := hRange
    refine reply_wp ((readExactAt_wp p hCalm hKept buf (by omega)).mono ?_)
    rintro r k' ⟨hEq, hKept'⟩
    obtain ⟨rfl, hFile⟩ := Prod.mk.inj hEq
    exact ⟨rfl, hStatus hFile hKept'⟩
  | readExactVectoredAt bufs offset =>
    have hFits : offset + totalLen bufs ≤ i64Max := hRange
    refine reply_wp ((readExactVectoredAt_wp p hCalm hKept bufs (by omega)).mono ?_)
    rintro r k' ⟨hEq, hKept'⟩
    obtain ⟨rfl, hFile⟩ := Prod.mk.inj hEq
    exact ⟨rfl, hStatus hFile hKept'⟩
  | appendAll buf =>
    refine reply_wp ((appendAll_wp p hCalm hKept buf).mono ?_)
    rintro r k' ⟨rfl, hFile, hKept'⟩
    exact ⟨rfl, hStatus hFile hKept'⟩
  | appendAllVectored bufs =>
    refine reply_wp ((appendAllVectored_wp p hCalm hKept bufs).mono ?_)
    rintro r k' ⟨rfl, hFile, hKept'⟩
    exact ⟨rfl, hStatus hFile hKept'⟩
  | seek pos =>
    refine reply_wp ((seek_flags_wp p hCalm hRange.1).mono ?_)
    rintro r k' ⟨rfl, hMachine⟩
    refine ⟨rfl, ?_⟩
    rw [hMachine]
    rfl
  | streamPosition =>
    refine reply_wp ((streamPosition_wp p hCalm).mono ?_)
    rintro r k' ⟨rfl, hMachine⟩
    refine ⟨rfl, ?_⟩
    rw [hMachine]
    rfl

/-- **Each call does what it is for.** -/
theorem serves_flags (p : Profile) {o : SyncFlags} (hIgnored : o.Ignored) (hCalm : env.Calm) :
    FlaggedFile.calls.Serves (performFlag p o env) (fun k => k.machine.flaggedFile o)
      fun _ => True := by
  intro c k hAllowed _
  cases c with
  | file op =>
    apply (perform_flaggedFile p o hCalm op k hAllowed).mono
    rintro r k' ⟨rfl, hOpen⟩
    exact ⟨rfl, hOpen, trivial⟩
  | getFdFlags =>
    refine Proc.wp_attempt ((getFdFlags_wp o hCalm k).mono ?_)
    rintro r k' ⟨rfl, hMachine⟩
    exact ⟨rfl, congrArg (Machine.flaggedFile o) hMachine, trivial⟩
  | newSetFdFlags fdFlags => exact Proc.wp_pure ⟨rfl, rfl, trivial⟩
  | setFdFlags set =>
    refine Proc.wp_attempt ((setFdFlags_wp hCalm k set).mono ?_)
    rintro r k' ⟨rfl, hMachine⟩
    refine ⟨rfl, (congrArg (Machine.flaggedFile o) hMachine).trans ?_, trivial⟩
    exact congrArg (FlaggedFile.mk k.machine.file) (status_setFlags hIgnored k.machine set)

end

-- ---------------------------------------------------------------------------
-- Programs
-- ---------------------------------------------------------------------------

/-- **A program over a file with flags.** Calls of `FileIoExt` and of `GetSetFdFlags` in any
order, each chosen by the answers to those before it, on a description with any flags: the
program returns what it returns on the `FlaggedFile`, and leaves that file and those flags,
however the transfers are cut and whichever path the appends take. -/
theorem flagged_file_prog {α : Type} (p : Profile) {o : SyncFlags} (hIgnored : o.Ignored)
    {env : Env} (hCalm : env.Calm) (k : Kernel) (x : FlagProg α)
    (hAllows : FlaggedFile.calls.Allows (k.machine.flaggedFile o) x) :
    ∃ r k', (x.through (performFlag p o env)).Returns k r k' ∧
      (r, k'.machine.flaggedFile o) = FlaggedFile.calls.run x (k.machine.flaggedFile o) := by
  obtain ⟨r, k', hRun, hEq, -⟩ := (serves_flags p hIgnored hCalm).prog x hAllows trivial
  exact ⟨r, k', hRun, hEq⟩

/-- A positional write in append mode, an append, and a positional write after the change
that was prepared before it. -/
def leaveAppendMode : FlagProg (Result FdFlags) := do
  let prepared ← ask (.newSetFdFlags FdFlags.NONBLOCK)
  let _ ← ask (.file (.writeAllAt ⟨10, 5, by decide⟩ 0))
  let _ ← ask (.file (.appendAll ⟨10, 6, by decide⟩))
  let set ← Prog.ofExcept (Except.mapError Fault.err prepared)
  let _ ← ask (.setFdFlags set)
  let _ ← ask (.file (.writeAllAt ⟨10, 7, by decide⟩ 1))
  ask .getFdFlags

/-- One byte at a time, with `pwritev2` missing, on a description with `O_APPEND`, `O_DSYNC`
and `O_NOATIME`, where `DSYNC` is `O_DSYNC`. -/
theorem flagged_file_prog_leaves :
    ∃ r k', (leaveAppendMode.through (performFlag .debug ⟨0x1000, 0x101000, 0x101000⟩
        fun _ call => match call with
          | .pwritev2 _ _ _ => .fail .NOSYS
          | _ => .go 1)).Returns ⟨⟨fun _ => 7, [1, 2, 3], ⟨1, 0x41400⟩⟩, []⟩ r k' ∧
      (r, k'.machine.flaggedFile ⟨0x1000, 0x101000, 0x101000⟩) =
        FlaggedFile.calls.run leaveAppendMode
          ⟨⟨fun _ => 7, [1, 2, 3], 1⟩, Status.ofFlags ⟨0x1000, 0x101000, 0x101000⟩ 0x41400⟩ :=
  flagged_file_prog .debug ⟨by decide, by decide, by decide⟩ (fun _ call => by
      cases call with
      | pwritev2 bufs offset flags => exact .inr ⟨bufs, offset, flags, .NOSYS, rfl, .inl rfl, rfl⟩
      | _ => exact .inl ⟨1, rfl⟩)
    ⟨⟨fun _ => 7, [1, 2, 3], ⟨1, 0x41400⟩⟩, []⟩ leaveAppendMode (by decide)

/-- The first write goes to the end, the second one to its offset; `DSYNC` stays. -/
example : ((FlaggedFile.calls.run leaveAppendMode ⟨⟨fun _ => 7, [1, 2, 3], 1⟩,
      Status.ofFlags ⟨0x1000, 0x101000, 0x101000⟩ 0x41400⟩).map id fun f => f.file.content) =
    (.ok (.ok (FdFlags.NONBLOCK ||| FdFlags.DSYNC)),
      [1, 7, 7, 7, 7, 7, 7, 7, 7, 7, 7, 7, 7, 7]) := by decide

end SystemInterface.Unix
