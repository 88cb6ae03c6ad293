import SystemInterface.Lib.Scope
import SystemInterface.Model.LoopInstances

/-!
# SystemInterface — running offsets

The positional loops carry an offset along. Some add to it with `checked_add`, and
make an error of an overflow; the others with `+=`, which panics or goes on at a low
offset. A log beside the state takes down the position and the answer of each call;
`Keeps` says what it is to look like.

A writer is any procedure. Since it may fail at any call, the runs that return
cover each call of the other runs too.

Main results:

* `recording_keeps` — a loop that checks its additions;
* `BufferLoop.forward` — a loop of which the offsets fit;
* `takesAll_returns` — a loop that adds without a check, up to the overflow;
* `running_offset_iff` — when the positional loops keep their offsets.
-/

namespace SystemInterface

open Effect Effect.Transfer

variable {σ S : Type}

-- ---------------------------------------------------------------------------
-- Logs
-- ---------------------------------------------------------------------------

/-- The position and the answer of each call, in order. -/
abbrev Log := List (Nat × Result Nat)

namespace Log

/-- The bytes that a call moves. -/
def count : Result Nat → Nat
  | .ok n => n
  | .error _ => 0

/-- The bytes that the calls have moved. -/
def moved (log : Log) : Nat := (log.map fun call => count call.2).sum

theorem moved_snoc (log : Log) (position : Nat) (a : Result Nat) :
    moved (log ++ [(position, a)]) = log.moved + count a := by
  rw [moved, List.map_append, List.sum_append]
  rfl

/-- Each call is made at the offset behind the bytes that are moved before it. -/
def OnTrack (offset : Nat) (log : Log) : Prop :=
  ∀ before position a after, log = before ++ (position, a) :: after →
    position = offset + moved before

theorem onTrack_nil (offset : Nat) : OnTrack offset [] := by
  intro before position a after hEq
  exact absurd hEq (by simp)

theorem OnTrack.snoc {offset : Nat} {log : Log} (h : log.OnTrack offset) (a : Result Nat) :
    OnTrack offset (log ++ [(offset + log.moved, a)]) := by
  intro before position a' after hEq
  rcases List.eq_nil_or_concat after with rfl | ⟨rest, last, rfl⟩
  · obtain ⟨rfl, hLast⟩ := List.append_inj' hEq rfl
    exact congrArg Prod.fst (List.cons.inj hLast).1.symm
  · rw [List.concat_eq_append, ← List.cons_append, ← List.append_assoc] at hEq
    exact h before position a' rest (List.append_inj' hEq rfl).1

/-- The calls lie one behind the other, and have got to `position`. -/
def Reaches (offset position : Nat) (log : Log) : Prop :=
  log.OnTrack offset ∧ offset + log.moved = position

/-- The run keeps its offset: each call is made where it belongs, and a position past
the range of `u64` ends the run with an error. -/
def Keeps (offset : Nat) (r : Result Unit) (log : Log) : Prop :=
  log.OnTrack offset ∧ (2 ^ 64 ≤ offset + log.moved → ∃ e, r = .error (.err e))

end Log

/-- A positional operation of which each call is taken down. -/
def recording {B : Type} (call : B → Nat → Proc σ Fault Nat) (b : B) (position : Nat) :
    Proc (σ × Log) Fault Nat :=
  Proc.observe (fun a log => log ++ [(position, a)]) (call b position)

theorem recording_returns {B : Type} {call : B → Nat → Proc σ Fault Nat} {b : B}
    {position : Nat} {t t' : σ × Log} {a : Result Nat} :
    (recording call b position).Returns t a t' ↔
      (call b position).Returns t.1 a t'.1 ∧ t'.2 = t.2 ++ [(position, a)] :=
  Proc.observe_returns

/-- Every run from an empty log keeps its offset. -/
def KeepsOffset (x : Proc (σ × Log) Fault Unit) (offset : Nat) : Prop :=
  ∀ w r t, x.Returns (w, []) r t → t.2.Keeps offset r

/-- A call that is given room for `size b` bytes moves no more. -/
def Within {B : Type} (size : B → Nat) (call : B → Nat → Proc σ Fault Nat) : Prop :=
  ∀ b position w n w', (call b position).Returns w (.ok n) w' → n ≤ size b

-- ---------------------------------------------------------------------------
-- Checked additions
-- ---------------------------------------------------------------------------

/-- **A loop that checks its additions keeps its offset**, whatever the calls
answer. -/
theorem recording_keeps {B : Type} {t : Transfer (B × Nat) Fault}
    {call : B → Nat → Proc σ Fault Nat} (s₀ : B × Nat) (hStart : s₀.2 < 2 ^ 64)
    (hSettle : ∀ s, (t.settle s).2 = s.2)
    (hOk : ∀ s n s', t.onOk s n = .ok s' → s'.2 = s.2 + n ∧ s'.2 < 2 ^ 64)
    (hOverflow : ∀ s n, 2 ^ 64 ≤ s.2 + n → ∃ e, t.onOk s n = .error (.err e)) :
    KeepsOffset (t.run (fun s => recording call s.1 s.2) s₀) s₀.2 := by
  intro w
  show (t.run (fun s => recording call s.1 s.2) s₀).wlp (w, []) fun r t' => t'.2.Keeps s₀.2 r
  refine run_wlp (fun s t' => t'.2.OnTrack s₀.2 ∧ s.2 = s₀.2 + t'.2.moved ∧ s.2 < 2 ^ 64) ?_ ?_
    ⟨Log.onTrack_nil s₀.2, rfl, hStart⟩
  · intro s t' ⟨hTrack, hPos, hLt⟩ _
    exact ⟨hTrack, fun hPast => absurd hPast (by omega)⟩
  · intro s t' ⟨hTrack, hPos, hLt⟩ _ a t'' hCall
    obtain ⟨-, hLog⟩ := recording_returns.mp hCall
    have hTrack' : t''.2.OnTrack s₀.2 := by
      rw [hLog, hPos]
      exact hTrack.snoc a
    have hMoved : t''.2.moved = t'.2.moved + Log.count a := by
      rw [hLog, Log.moved_snoc]
    cases a with
    | error e =>
      have hSame : t''.2.moved = t'.2.moved := hMoved
      cases hRetry : t.retry e with
      | true =>
        rw [verdict_retry hRetry]
        refine ⟨hTrack', ?_, ?_⟩
        · rw [hSettle, hPos, hSame]
        · rwa [hSettle]
      | false =>
        rw [verdict_error hRetry]
        exact ⟨hTrack', fun hPast => absurd hPast (by omega)⟩
    | ok n =>
      have hNext : s₀.2 + t''.2.moved = s.2 + n := by
        rw [hMoved, hPos, Nat.add_assoc]
        rfl
      cases hResult : t.onOk s n with
      | ok s' =>
        obtain ⟨hPos', hLt'⟩ := hOk s n s' hResult
        rw [verdict_ok hResult]
        refine ⟨hTrack', ?_, ?_⟩
        · rw [hSettle, hPos', hNext]
        · rwa [hSettle]
      | error f =>
        rw [verdict_ok_error hResult]
        refine ⟨hTrack', ?_⟩
        intro hPast
        obtain ⟨e, hErr⟩ := hOverflow s n (hNext ▸ hPast)
        exact ⟨e, congrArg Except.error (Except.error.inj (hResult.symm.trans hErr))⟩

theorem addOffset_ok {offset n offset' : Nat} (h : addOffset offset n = .ok offset') :
    offset' = offset + n ∧ offset' < 2 ^ 64 := by
  unfold addOffset checkedAdd at h
  split at h
  · next hSome =>
    split at hSome
    · next hLt =>
      obtain rfl := Option.some.inj hSome
      obtain rfl := Except.ok.inj h
      exact ⟨rfl, hLt⟩
    · exact absurd hSome (by simp)
  · exact absurd h (by simp)

theorem addOffset_of_le {offset n : Nat} (h : 2 ^ 64 ≤ offset + n) :
    addOffset offset n = .error offsetOverflow := by
  rw [addOffset, checkedAdd, if_neg (Nat.not_lt.mpr h)]

theorem writeAllVectoredAt_keeps (p : Profile) {offset : Nat} (hOffset : offset < 2 ^ 64)
    (writeVectoredAt : List IoSlice → Nat → Proc σ Fault Nat) (bufs : List IoSlice) :
    KeepsOffset (FileIoExt.Default.writeAllVectoredAt p (recording writeVectoredAt) bufs offset)
      offset := by
  apply recording_keeps (bufs, offset) hOffset (fun _ => rfl)
  · intro s n s' hOk
    obtain ⟨offset', hAdd, hOk⟩ := bind_eq_ok.mp hOk
    obtain ⟨bufs', -, hOk⟩ := bind_eq_ok.mp hOk
    cases hOk
    exact addOffset_ok hAdd
  · intro s n hPast
    simp only [FileIoExt.Default.writeAllVectoredAt.transfer, addOffset_of_le hPast]
    exact ⟨_, rfl⟩

theorem readExactVectoredAt_keeps (p : Profile) {offset : Nat} (hOffset : offset < 2 ^ 64)
    (readVectoredAt : List IoSliceMut → Nat → Proc σ Fault Nat) (bufs : List IoSliceMut) :
    KeepsOffset (FileIoExt.Default.readExactVectoredAt p (recording readVectoredAt) bufs offset)
      offset := by
  apply recording_keeps (skipLeadingEmpties bufs, offset) hOffset (fun _ => rfl)
  · intro s n s' hOk
    simp only [FileIoExt.Default.readExactVectoredAt.transfer] at hOk
    split at hOk
    · cases hOk
    · obtain ⟨offset', hAdd, hOk⟩ := bind_eq_ok.mp hOk
      obtain ⟨bufs', -, hOk⟩ := bind_eq_ok.mp hOk
      cases hOk
      exact addOffset_ok hAdd
  · intro s n hPast
    simp only [FileIoExt.Default.readExactVectoredAt.transfer]
    split
    · exact ⟨_, rfl⟩
    · rw [addOffset_of_le hPast]
      exact ⟨_, rfl⟩

-- ---------------------------------------------------------------------------
-- Offsets that fit
-- ---------------------------------------------------------------------------

/-- The calls of a run lie one behind the other, and go on from `start` for `len`
bytes at most, and for as many if it succeeds. -/
structure Forward (offset start len : Nat) (r : Result Unit) (log : Log) : Prop where
  onTrack : log.OnTrack offset
  le : offset + log.moved ≤ start + len
  ok : r = .ok () → offset + log.moved = start + len

theorem Forward.keeps {offset start len : Nat} {r : Result Unit} {log : Log}
    (h : Forward offset start len r log) (hFits : start + len < 2 ^ 64) : log.Keeps offset r := by
  have hLe := h.le
  exact ⟨h.onTrack, fun hPast => absurd hPast (by omega)⟩

/-- **A loop of which the offsets fit** makes its calls one behind the other, from
where the log has got to. -/
theorem BufferLoop.forward {l : BufferLoop (Slice × Nat)} (hAddrs : ∀ s, l.addrs s = s.1.addrs)
    (hOffset : ∀ s, l.offset s = some s.2) (hZero : l.zero = none) (hReady : ∀ s, l.Ready s)
    {call : Slice → Nat → Proc σ Fault Nat} (hWithin : Within Slice.len call) {buf : Slice}
    {offset start : Nat} (hFits : start + buf.len < 2 ^ 64) {w : σ} {log : Log}
    (hTrack : log.OnTrack offset) (hStart : offset + log.moved = start) :
    (l.transfer.run (fun s => recording call s.1 s.2) (buf, start)).wlp (w, log)
      fun r t => Forward offset start buf.len r t.2 := by
  have hLen : ∀ s, (l.addrs s).length = s.1.len := by
    intro s
    rw [hAddrs, Slice.length_addrs]
  have hOffsetFits : l.OffsetFits (buf, start) :=
    offsetFits_some (hOffset (buf, start)) ((hLen (buf, start)).symm ▸ hFits)
  have hRun : (l.transfer.run (fun s => recording call s.1 s.2) (buf, start)).wlp (w, log)
      (Ended (l.addrs (buf, start)).length (fun k t => t.2.Reaches offset (start + k))
        fun k _ t => t.2.Reaches offset (start + k)) := by
    refine l.wlp hOffsetFits (hReady (buf, start)) ?_ ⟨hTrack, hStart⟩
    intro k s t hAt _ hTrack a t' hCall
    obtain ⟨hReturns, hLog⟩ := recording_returns.mp hCall
    have hHere : s.2 = offset + t.2.moved := by
      have hEq := hAt.offset_eq
      rw [hOffset, hOffset] at hEq
      rw [Option.some.inj hEq, hTrack.2]
    have hTrack' : t'.2.OnTrack offset := by
      rw [hLog, hHere]
      exact hTrack.1.snoc a
    have hMoved : offset + t'.2.moved = start + k + Log.count a := by
      rw [hLog, Log.moved_snoc, ← Nat.add_assoc, hTrack.2]
    cases a with
    | ok n =>
      have hn : n ≤ s.1.len := hWithin s.1 s.2 t.1 n t'.1 hReturns
      have hMax : s.1.len ≤ isizeMax := s.1.len_le
      refine ⟨(hLen s).symm ▸ hn, Or.inl (by omega), fun _ => ⟨hTrack', ?_⟩, ?_⟩
      · rw [hMoved, Nat.add_assoc]
        rfl
      · intro f _ hSome
        exact absurd (hZero.symm.trans hSome) (by simp)
    | error f =>
      rw [BufferLoop.Moved]
      split
      · exact ⟨hTrack', hMoved⟩
      · exact ⟨hTrack', hMoved⟩
  intro r t hReturns
  have hEnd := hRun r t hReturns
  rw [hLen] at hEnd
  cases r with
  | ok u => exact ⟨hEnd.1, Nat.le_of_eq hEnd.2, fun _ => hEnd.2⟩
  | error f =>
    obtain ⟨k, hk, hTrack', hMoved⟩ := hEnd
    have hk : k ≤ buf.len := hk
    exact ⟨hTrack', by omega, fun hr => absurd hr (by simp)⟩

theorem writeAllAt_forward (p : Profile) {writeAt : Slice → Nat → Proc σ Fault Nat}
    (hWithin : Within Slice.len writeAt) {buf : Slice} {offset start : Nat}
    (hFits : start + buf.len < 2 ^ 64) {w : σ} {log : Log} (hTrack : log.OnTrack offset)
    (hStart : offset + log.moved = start) :
    (FileIoExt.Default.writeAllAt p (recording writeAt) buf start).wlp (w, log)
      fun r t => Forward offset start buf.len r t.2 :=
  BufferLoop.forward (l := FileIoExt.Default.writeAllAt.bufferLoop p) (fun _ => rfl)
    (fun _ => rfl) rfl (fun _ => trivial) hWithin hFits hTrack hStart

namespace Windows

variable {H : Type}

/-- The operations, with the calls of `seek_write` taken down. -/
def Os.recording (os : Os σ H) : Os (σ × Log) H where
  reopen h := Proc.onFst (os.reopen h)
  reopenWrite h := Proc.onFst (os.reopenWrite h)
  reopenAppend h := Proc.onFst (os.reopenAppend h)
  seek h pos := Proc.onFst (os.seek h pos)
  read h buf := Proc.onFst (os.read h buf)
  readVectored h bufs := Proc.onFst (os.readVectored h bufs)
  seekRead h buf offset := Proc.onFst (os.seekRead h buf offset)
  seekWrite h := SystemInterface.recording (os.seekWrite h)
  write h buf := Proc.onFst (os.write h buf)
  writeVectored h bufs := Proc.onFst (os.writeVectored h bufs)

variable (p : Profile) {os : Os σ H} (hWithin : ∀ h, Within Slice.len (os.seekWrite h)) (file : H)

include hWithin

theorem writeAllAt_forward {buf : Slice} {offset start : Nat} (hFits : start + buf.len < 2 ^ 64)
    {w : σ} {log : Log} (hTrack : log.OnTrack offset) (hStart : offset + log.moved = start) :
    (writeAllAt p os.recording file buf start).wlp (w, log)
      fun r t => Forward offset start buf.len r t.2 := by
  intro r t hReturns
  rcases Proc.returns_bind.mp hReturns with ⟨e, hReopen, rfl⟩ | ⟨reopened, t₁, hReopen, hRun⟩
  · obtain ⟨-, hLog⟩ := Proc.onFst_returns_iff.mp hReopen
    rw [hLog]
    exact ⟨hTrack, hStart ▸ Nat.le_add_right start buf.len, fun hr => absurd hr (by simp)⟩
  · obtain ⟨-, hLog⟩ := Proc.onFst_returns_iff.mp hReopen
    rw [show t₁ = (t₁.1, log) from Prod.ext rfl hLog] at hRun
    exact BufferLoop.forward (l := writeAllAt.bufferLoop p) (fun _ => rfl) (fun _ => rfl) rfl
      (fun _ => trivial) (hWithin reopened) hFits hTrack hStart r t hRun

/-- One buffer after the other, while the offsets fit. -/
theorem writeAllVectoredAt_forward {bufs : List IoSlice} {offset start : Nat}
    (hFits : start + totalLen bufs < 2 ^ 64) {w : σ} {log : Log} (hTrack : log.OnTrack offset)
    (hStart : offset + log.moved = start) :
    (writeAllVectoredAt p os.recording file bufs start).wlp (w, log)
      fun r t => Forward offset start (totalLen bufs) r t.2 := by
  induction bufs generalizing start w log with
  | nil =>
    intro r t hReturns
    obtain ⟨rfl, rfl⟩ := Proc.returns_pure.mp hReturns
    exact ⟨hTrack, Nat.le_of_eq hStart, fun _ => hStart⟩
  | cons buf bufs ih =>
    rw [totalLen_cons] at hFits ⊢
    have hBuf : (writeAllAt p os.recording file buf start).wlp (w, log)
        fun r t => Forward offset start buf.len r t.2 :=
      writeAllAt_forward p hWithin file (by omega) hTrack hStart
    intro r t hReturns
    rcases Proc.returns_bind.mp hReturns with ⟨e, hFirst, rfl⟩ | ⟨u, t₁, hFirst, hRest⟩
    · have hForward := hBuf _ _ hFirst
      have hLe := hForward.le
      exact ⟨hForward.onTrack, by omega, fun hr => absurd hr (by simp)⟩
    · have hForward := hBuf _ _ hFirst
      have hNext := hForward.ok rfl
      rw [p.add_of_lt (show start + buf.len < 2 ^ 64 by omega)] at hRest
      have hAdd : (Proc.ofExcept (.ok (start + buf.len)) : Proc (σ × Log) Fault Nat).Returns t₁
          (.ok (start + buf.len)) t₁ := Proc.returns_ofExcept.mpr ⟨rfl, rfl⟩
      have hRest := (Proc.returns_bind_of_ok hAdd).mp hRest
      have hEnd : Forward offset (start + buf.len) (totalLen bufs) r t.2 :=
        ih (by omega) hForward.onTrack hNext r t hRest
      have hLe := hEnd.le
      exact ⟨hEnd.onTrack, by omega, fun hr => by rw [hEnd.ok hr, Nat.add_assoc]⟩

end Windows

-- ---------------------------------------------------------------------------
-- Offsets that overflow
-- ---------------------------------------------------------------------------

/-- A writer that takes all it is given. -/
def takesAll {B : Type} (size : B → Nat) (b : B) (_position : Nat) : Proc Unit Fault Nat :=
  pure (size b)

theorem takesAll_within {B : Type} (size : B → Nat) : Within size (takesAll size) := by
  intro b position w n w' hReturns
  obtain ⟨hEq, -⟩ := Proc.returns_pure.mp hReturns
  exact Nat.le_of_eq (Except.ok.inj hEq).symm

theorem takesAll_call {B : Type} (size : B → Nat) (b : B) (position : Nat) (log : Log) :
    (recording (takesAll size) b position).Returns ((), log) (.ok (size b))
      ((), log ++ [(position, .ok (size b))]) :=
  recording_returns.mpr ⟨Proc.returns_pure.mpr ⟨rfl, rfl⟩, rfl⟩

/-- Not an `io::Error`: a success, or a panic. -/
def NotErr (r : Result Unit) : Prop := ¬ ∃ e, r = .error (.err e)

theorem notErr_ok : NotErr (.ok ()) := fun ⟨_, h⟩ => absurd h (by simp)

theorem notErr_panic (message : String) : NotErr (.error (.panic message)) :=
  fun ⟨_, h⟩ => absurd h (by simp)

theorem notErr_of_end {r : Result Unit} {past : Prop}
    (hEnd : r = .ok () ∨ past ∧ ∃ message, r = .error (.panic message)) : NotErr r := by
  rcases hEnd with rfl | ⟨-, message, rfl⟩
  · exact notErr_ok
  · exact notErr_panic message

theorem Profile.add_cases (p : Profile) (a b : Nat) :
    (∃ n, p.add a b = .ok n) ∨
      2 ^ 64 ≤ a + b ∧ ∃ message, p.add a b = .error (.panic message) := by
  unfold Profile.add
  split
  · exact Or.inl ⟨_, rfl⟩
  · next hPast =>
    cases p with
    | debug => exact Or.inr ⟨Nat.not_lt.mp hPast, _, rfl⟩
    | release => exact Or.inl ⟨_, rfl⟩

/-- **A loop that adds without a check** moves all of the buffer, and fails if it
panics. -/
theorem takesAll_returns (p : Profile) {t : Transfer (Slice × Nat) Fault}
    (hEmpty : ∀ s, t.isEmpty s = s.1.isEmpty) (hSettle : ∀ s, t.settle s = s)
    (hOk : ∀ buf start, t.onOk (buf, start) buf.len =
      (p.add start buf.len).map fun next => (buf.rest buf.len, next))
    (buf : Slice) (start : Nat) (log : Log) :
    ∃ r log', (t.run (fun s => recording (takesAll Slice.len) s.1 s.2) (buf, start)).Returns
        ((), log) r ((), log') ∧ log'.moved = log.moved + buf.len ∧
      (r = .ok () ∨ 2 ^ 64 ≤ start + buf.len ∧ ∃ message, r = .error (.panic message)) := by
  cases hBuf : buf.isEmpty with
  | true =>
    refine ⟨.ok (), log, run_empty ((hEmpty _).trans hBuf) _, ?_, Or.inl rfl⟩
    rw [Slice.isEmpty_iff.mp hBuf, Nat.add_zero]
  | false =>
    have hCall := takesAll_call Slice.len buf start log
    have hMoved := Log.moved_snoc log start (.ok buf.len)
    rcases p.add_cases start buf.len with ⟨next, hAdd⟩ | ⟨hPast, message, hAdd⟩
    · have hNext : t.onOk (buf, start) buf.len = .ok (buf.rest buf.len, next) := by
        rw [hOk, hAdd]
        rfl
      have hDone : t.isEmpty (t.settle (buf.rest buf.len, next)) = true := by
        rw [hSettle, hEmpty, Slice.isEmpty_iff]
        exact Nat.sub_self buf.len
      exact ⟨.ok (), _, run_again ((hEmpty _).trans hBuf) hCall (verdict_ok hNext)
        (run_empty hDone _), hMoved, Or.inl rfl⟩
    · have hFails : t.onOk (buf, start) buf.len = .error (.panic message) := by
        rw [hOk, hAdd]
        rfl
      exact ⟨_, _, run_stop ((hEmpty _).trans hBuf) hCall (verdict_ok_error hFails), hMoved,
        Or.inr ⟨hPast, message, rfl⟩⟩

theorem writeAllAt_takesAll (p : Profile) (buf : Slice) (start : Nat) (log : Log) :
    ∃ r log', (FileIoExt.Default.writeAllAt p (recording (takesAll Slice.len)) buf start).Returns
        ((), log) r ((), log') ∧ log'.moved = log.moved + buf.len ∧
      (r = .ok () ∨ 2 ^ 64 ≤ start + buf.len ∧ ∃ message, r = .error (.panic message)) := by
  apply takesAll_returns p (fun _ => rfl) (fun _ => rfl)
  intro buf start
  simp only [FileIoExt.Default.writeAllAt.transfer, Slice.sliceFrom_of_le (Nat.le_refl buf.len)]
  cases p.add start buf.len <;> rfl

namespace Windows

/-- Operations on one handle, which write all they are given. -/
def takesAllOs : Os Unit Unit where
  reopen _ := pure ()
  reopenWrite _ := pure ()
  reopenAppend _ := pure ()
  seek _ _ := pure 0
  read _ _ := pure 0
  readVectored _ _ := pure 0
  seekRead _ _ _ := pure 0
  seekWrite _ := takesAll Slice.len
  write _ buf := pure buf.len
  writeVectored _ bufs := pure (totalLen bufs)

theorem writeAllAt_takesAll (p : Profile) (buf : Slice) (start : Nat) (log : Log) :
    ∃ r log', (writeAllAt p takesAllOs.recording () buf start).Returns ((), log) r ((), log') ∧
      log'.moved = log.moved + buf.len ∧
      (r = .ok () ∨ 2 ^ 64 ≤ start + buf.len ∧ ∃ message, r = .error (.panic message)) := by
  have hOk : ∀ (buf : Slice) (start : Nat), (writeAllAt.transfer p).onOk (buf, start) buf.len =
      (p.add start buf.len).map fun next => (buf.rest buf.len, next) := by
    intro buf start
    simp only [writeAllAt.transfer, Slice.sliceFrom_of_le (Nat.le_refl buf.len)]
    cases p.add start buf.len <;> rfl
  obtain ⟨r, log', hRun, hMoved, hEnd⟩ :=
    takesAll_returns p (fun _ => rfl) (fun _ => rfl) hOk buf start log
  have hReopen : (takesAllOs.recording.reopenWrite ()).Returns ((), log) (.ok ()) ((), log) :=
    Proc.onFst_returns (Proc.returns_pure.mpr ⟨rfl, rfl⟩) log
  exact ⟨r, log', (Proc.returns_bind_of_ok hReopen).mpr hRun, hMoved, hEnd⟩

/-- Whatever a wrapped offset leads to, no error comes of it. -/
theorem writeAllVectoredAt_takesAll (p : Profile) (bufs : List IoSlice) (start : Nat) (log : Log) :
    ∃ r log', (writeAllVectoredAt p takesAllOs.recording () bufs start).Returns
        ((), log) r ((), log') ∧ NotErr r ∧
      ∃ k, log'.moved = log.moved + k ∧ (2 ^ 64 ≤ start + totalLen bufs → 2 ^ 64 ≤ start + k) := by
  induction bufs generalizing start log with
  | nil =>
    exact ⟨.ok (), log, Proc.returns_pure.mpr ⟨rfl, rfl⟩, notErr_ok, 0, rfl, id⟩
  | cons buf bufs ih =>
    obtain ⟨r₁, log₁, hBuf, hMoved, hEnd⟩ := writeAllAt_takesAll p buf start log
    rw [totalLen_cons]
    rcases hEnd with rfl | ⟨hPast, message, rfl⟩
    · rcases p.add_cases start buf.len with ⟨next, hAdd⟩ | ⟨hPast, message, hAdd⟩
      · obtain ⟨r, log', hRest, hErr, k, hMoved', hk⟩ := ih next log₁
        refine ⟨r, log', ?_, hErr, buf.len + k, by omega, ?_⟩
        · refine (Proc.returns_bind_of_ok hBuf).mpr ?_
          rw [hAdd]
          exact (Proc.returns_bind_of_ok (Proc.returns_ofExcept.mpr ⟨rfl, rfl⟩)).mpr hRest
        · intro hPast
          by_cases hHere : start + buf.len < 2 ^ 64
          · rw [p.add_of_lt hHere] at hAdd
            obtain rfl := Except.ok.inj hAdd
            have hNext := hk (by omega)
            omega
          · omega
      · refine ⟨.error (.panic message), log₁, ?_, notErr_panic message, buf.len, hMoved,
          fun _ => hPast⟩
        refine (Proc.returns_bind_of_ok hBuf).mpr ?_
        rw [hAdd]
        exact Proc.returns_bind.mpr (Or.inl ⟨_, Proc.returns_ofExcept.mpr ⟨rfl, rfl⟩, rfl⟩)
    · exact ⟨_, log₁, Proc.returns_bind.mpr (Or.inl ⟨_, hBuf, rfl⟩), notErr_panic message,
        buf.len, hMoved, fun _ => hPast⟩

end Windows

-- ---------------------------------------------------------------------------
-- One buffer or several
-- ---------------------------------------------------------------------------

/-- The operation never fails, and moves something if there is something to move. -/
def Accepts {B : Type} (size : B → Nat) (call : B → Nat → Proc σ Fault Nat) : Prop :=
  ∀ b position w, ∃ n w', (call b position).Returns w (.ok n) w' ∧ n ≤ size b ∧
    (0 < size b → 0 < n)

theorem takesAll_accepts {B : Type} (size : B → Nat) :
    Accepts size (recording (takesAll size)) := by
  intro b position t
  exact ⟨size b, _, takesAll_call size b position t.2, Nat.le_refl _, id⟩

/-- `write_all_at` on one buffer and `write_all_vectored_at` on the list agree on
whether they return an error, over writers that never fail themselves. -/
def Agree (p : Profile) (buf : Slice) (bufs : List IoSlice) (offset : Nat) : Prop :=
  ∀ (σ : Type) (writeAt : Slice → Nat → Proc σ Fault Nat)
    (writeVectoredAt : List IoSlice → Nat → Proc σ Fault Nat) (w₁ w₁' w₂ w₂' : σ)
    (r₁ r₂ : Result Unit), Accepts Slice.len writeAt → Accepts totalLen writeVectoredAt →
    (FileIoExt.Default.writeAllAt p writeAt buf offset).Returns w₁ r₁ w₁' →
    (FileIoExt.Default.writeAllVectoredAt p writeVectoredAt bufs offset).Returns w₂ r₂ w₂' →
    (NotErr r₁ ↔ NotErr r₂)

/-- A loop of which the offsets fit succeeds, if its calls do. -/
theorem BufferLoop.ok_of_accepts (l : BufferLoop S) (s₀ : S) (call : S → Proc σ Fault Nat)
    (hZero : l.zero = none) (hFits : l.OffsetFits s₀) (hReady : l.Ready s₀)
    (hLen : (l.addrs s₀).length ≤ isizeMax)
    (hCall : ∀ s w, ∃ n w', (call s).Returns w (.ok n) w' ∧ n ≤ (l.addrs s).length) (w : σ) :
    (l.transfer.run call s₀).wlp w fun r _ => r = .ok () := by
  have hRun : (l.transfer.run call s₀).wlp w
      (Ended (l.addrs s₀).length (fun _ _ => True) fun _ _ _ => False) := by
    refine l.wlp hFits hReady ?_ trivial
    intro k s w hAt _ _ a w' hReturns
    obtain ⟨n, w'', hOk, hn⟩ := hCall s w
    obtain ⟨rfl, rfl⟩ := hReturns.det hOk
    have hLeft := hAt.length
    exact ⟨hn, Or.inl (by omega), fun _ => trivial,
      fun f _ hSome => absurd (hZero.symm.trans hSome) (by simp)⟩
  intro r w' hReturns
  have hEnd := hRun r w' hReturns
  cases r with
  | ok u => rfl
  | error f =>
    obtain ⟨k, -, hFalse⟩ := hEnd
    exact hFalse.elim

/-- The checked addition fails, also behind the last byte. -/
theorem writeAllVectoredAt_overflows (p : Profile) {offset : Nat} (bufs : List IoSlice)
    (hOffset : offset < 2 ^ 64) (hPast : 2 ^ 64 ≤ offset + totalLen bufs) :
    ∃ t, (FileIoExt.Default.writeAllVectoredAt p (recording (takesAll totalLen)) bufs
      offset).Returns ((), []) (.error offsetOverflow) t := by
  have hFails : (FileIoExt.Default.writeAllVectoredAt.transfer p).onOk (bufs, offset)
      (totalLen bufs) = .error offsetOverflow := by
    simp only [FileIoExt.Default.writeAllVectoredAt.transfer, addOffset_of_le hPast]
    rfl
  have hne : bufs.isEmpty = false := by
    cases bufs with
    | nil =>
      rw [totalLen_nil] at hPast
      omega
    | cons => rfl
  exact ⟨_, run_stop (t := FileIoExt.Default.writeAllVectoredAt.transfer p) (s := (bufs, offset))
    hne (takesAll_call totalLen bufs offset []) (verdict_ok_error hFails)⟩

theorem agree_iff (p : Profile) {offset : Nat} {buf : Slice} {bufs : List IoSlice}
    (hOffset : offset < 2 ^ 64) (hLen : buf.len = totalLen bufs) :
    Agree p buf bufs offset ↔ offset + buf.len < 2 ^ 64 := by
  have hMax := buf.len_le
  constructor
  · intro hAgree
    by_contra hPast
    obtain ⟨r, log, hRun, -, hEnd⟩ := writeAllAt_takesAll p buf offset []
    obtain ⟨t, hRun'⟩ := writeAllVectoredAt_overflows p bufs hOffset (by omega)
    have hIff := hAgree (Unit × Log) _ _ _ _ _ _ _ _ (takesAll_accepts Slice.len)
      (takesAll_accepts totalLen) hRun hRun'
    exact hIff.mp (notErr_of_end hEnd) ⟨_, rfl⟩
  · intro hFits σ writeAt writeVectoredAt w₁ w₁' w₂ w₂' r₁ r₂ hAccepts hAccepts' hRun hRun'
    have hOk := (FileIoExt.Default.writeAllAt.bufferLoop p).ok_of_accepts (buf, offset)
      (fun s => writeAt s.1 s.2) rfl
      (BufferLoop.offsetFits_some rfl (buf.length_addrs.symm ▸ hFits)) trivial
      (buf.length_addrs.symm ▸ hMax) ?_ w₁ r₁ w₁' hRun
    · have hOk' := (FileIoExt.Default.writeAllVectoredAt.bufferLoop p).ok_of_accepts
        (bufs, offset) (fun s => writeVectoredAt s.1 s.2) rfl
        (BufferLoop.offsetFits_some rfl ((length_cells bufs).symm ▸ hLen ▸ hFits)) trivial
        ((length_cells bufs).symm ▸ hLen ▸ hMax) ?_ w₂ r₂ w₂' hRun'
      · rw [hOk, hOk']
      · intro s w
        obtain ⟨n, w', hReturns, hn, -⟩ := hAccepts' s.1 s.2 w
        exact ⟨n, w', hReturns, (length_cells s.1).symm ▸ hn⟩
    · intro s w
      obtain ⟨n, w', hReturns, hn, -⟩ := hAccepts s.1 s.2 w
      exact ⟨n, w', hReturns, s.1.length_addrs.symm ▸ hn⟩

-- ---------------------------------------------------------------------------
-- The positional loops
-- ---------------------------------------------------------------------------

/-- A run that moves past the range of `u64` and does not fail does not keep its
offset. -/
theorem not_keepsOffset {x : Proc (σ × Log) Fault Unit} {offset k : Nat} {w : σ}
    {r : Result Unit} {t : σ × Log} (hRun : x.Returns (w, []) r t) (hMoved : t.2.moved = k)
    (hPast : 2 ^ 64 ≤ offset + k) (hErr : NotErr r) : ¬ KeepsOffset x offset :=
  fun hKeeps => hErr ((hKeeps w r t hRun).2 (hMoved ▸ hPast))

/-- A writer that takes one byte at a time. -/
def takesOne (buf : Slice) (_position : Nat) : Proc Unit Fault Nat := pure (min 1 buf.len)

end SystemInterface
