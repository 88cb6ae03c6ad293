import SystemInterface.Model.Session
import SystemInterface.Unix.Files
import SystemInterface.Windows.Files

/-!
# SystemInterface — two implementations, one model

The Windows and the Unix implementation of `FileIoExt` go about the same calls
in different ways: the one opens the file again and uses the stream of the new
handle, or writes one buffer after the other; the other makes positional
vectored calls with a running offset. Both serve `FileState.run`, so they agree
with each other on every session, however the single transfers are cut.

Main results:

* `Unix.serves`, `Windows.serves` — each implementation does what each call is
  for;
* `backends_agree` — both return the same and leave the same file.
-/

namespace SystemInterface

open Effect

-- ---------------------------------------------------------------------------
-- Unix
-- ---------------------------------------------------------------------------

namespace Unix

variable {env : Env}

/-- **The Unix implementation serves every call.** -/
theorem serves (p : Profile) (hCalm : env.Calm) :
    Serves (file p env) (fun k => k.machine.file) NotAppending := by
  intro op k hRange hNot
  have hKept : Kept k.machine.desc k := rfl
  have hWord : i64Max < 2 ^ 64 := by decide
  have hBack : ∀ {k' : Kernel}, Kept k.machine.desc k' → NotAppending k' := fun h => by
    show _ = _
    rw [h]
    exact hNot
  cases op with
  | writeAllAt buf offset =>
    have hFits : offset + buf.len ≤ i64Max := hRange
    refine reply_wp ((writeAllAt_wp p hCalm hKept hNot buf (by omega)).mono ?_)
    rintro r k' ⟨rfl, hFile, hKept'⟩
    exact ⟨rfl, hFile, hBack hKept'⟩
  | writeAllVectoredAt bufs offset =>
    have hFits : offset + totalLen bufs ≤ i64Max := hRange
    refine reply_wp ((writeAllVectoredAt_wp p hCalm hKept hNot bufs (by omega)).mono ?_)
    rintro r k' ⟨rfl, hFile, hKept'⟩
    exact ⟨rfl, hFile, hBack hKept'⟩
  | readExactAt buf offset =>
    have hFits : offset + buf.len ≤ i64Max := hRange
    refine reply_wp ((readExactAt_wp p hCalm hKept buf (by omega)).mono ?_)
    rintro r k' ⟨hEq, hKept'⟩
    obtain ⟨rfl, hFile⟩ := Prod.mk.inj hEq
    exact ⟨rfl, hFile, hBack hKept'⟩
  | readExactVectoredAt bufs offset =>
    have hFits : offset + totalLen bufs ≤ i64Max := hRange
    refine reply_wp ((readExactVectoredAt_wp p hCalm hKept bufs (by omega)).mono ?_)
    rintro r k' ⟨hEq, hKept'⟩
    obtain ⟨rfl, hFile⟩ := Prod.mk.inj hEq
    exact ⟨rfl, hFile, hBack hKept'⟩
  | appendAll buf =>
    refine reply_wp ((appendAll_wp p hCalm hKept buf).mono ?_)
    rintro r k' ⟨rfl, hFile, hKept'⟩
    exact ⟨rfl, hFile, hBack hKept'⟩
  | appendAllVectored bufs =>
    refine reply_wp ((appendAllVectored_wp p hCalm hKept bufs).mono ?_)
    rintro r k' ⟨rfl, hFile, hKept'⟩
    exact ⟨rfl, hFile, hBack hKept'⟩
  | seek pos =>
    refine reply_wp ((seek_wp p hCalm hRange.1 hNot).mono ?_)
    rintro r k' ⟨rfl, hFile, hNot'⟩
    exact ⟨rfl, hFile, hNot'⟩
  | streamPosition =>
    refine reply_wp ((streamPosition_wp p hCalm).mono ?_)
    rintro r k' ⟨rfl, hMachine⟩
    refine ⟨rfl, congrArg Machine.file hMachine, ?_⟩
    show k'.machine.desc.appends = false
    rw [hMachine]
    exact hNot

end Unix

-- ---------------------------------------------------------------------------
-- Windows
-- ---------------------------------------------------------------------------

namespace Windows

variable {env : Env} {h : Nat}

/-- **The Windows implementation serves every call**, when no step is
interrupted. -/
theorem serves (p : Profile) (hCalm : env.InterruptedBefore 0) :
    Serves (file p env h) (fun w => w.file h) (Positioned h) := by
  intro op w hRange hPositioned
  have hOwn : Own h (w.handles h) w := ⟨hPositioned.opened, rfl⟩
  cases op with
  | writeAllAt buf offset =>
    refine reply_wp ((writeAllAt_wp p hCalm hOwn buf hRange).mono ?_)
    rintro r w' ⟨rfl, hFile, hOwn'⟩
    exact ⟨rfl, hFile, hPositioned.of_own hOwn'⟩
  | writeAllVectoredAt bufs offset =>
    refine reply_wp ((writeAllVectoredAt_wp p hCalm bufs hOwn hRange).mono ?_)
    rintro r w' ⟨rfl, hFile, hOwn'⟩
    exact ⟨rfl, hFile, hPositioned.of_own hOwn'⟩
  | readExactAt buf offset =>
    have hFits : offset + buf.len ≤ i64Max := hRange
    refine reply_wp ((readExactAt_wp p hCalm hOwn buf offset).mono ?_)
    rintro r w' ⟨hEq, hOwn'⟩
    rw [readExactOr, if_pos (by omega)] at hEq
    obtain ⟨rfl, hFile⟩ := Prod.mk.inj hEq
    exact ⟨rfl, hFile, hPositioned.of_own hOwn'⟩
  | readExactVectoredAt bufs offset =>
    have hFits : offset + totalLen bufs ≤ i64Max := hRange
    refine reply_wp ((readExactVectoredAt_wp p hCalm hOwn bufs offset).mono ?_)
    rintro r w' ⟨hEq, hOwn'⟩
    rw [readExactOr, if_pos (by omega)] at hEq
    obtain ⟨rfl, hFile⟩ := Prod.mk.inj hEq
    exact ⟨rfl, hFile, hPositioned.of_own hOwn'⟩
  | appendAll buf =>
    refine reply_wp ((appendAll_wp p hCalm hOwn buf).mono ?_)
    rintro r w' ⟨rfl, hFile, hOwn'⟩
    exact ⟨rfl, hFile, hPositioned.of_own hOwn'⟩
  | appendAllVectored bufs =>
    refine reply_wp ((appendAllVectored_wp p hCalm hOwn bufs).mono ?_)
    rintro r w' ⟨rfl, hFile, hOwn'⟩
    exact ⟨rfl, hFile, hPositioned.of_own hOwn'⟩
  | seek pos =>
    refine reply_wp ((seek_wp p hCalm hRange hPositioned).mono ?_)
    rintro r w' ⟨rfl, hFile, hPositioned'⟩
    exact ⟨rfl, hFile, hPositioned'⟩
  | streamPosition =>
    refine reply_wp ((streamPosition_wp p hCalm hPositioned).mono ?_)
    rintro r w' ⟨rfl, hFile, hPositioned'⟩
    exact ⟨rfl, hFile, hPositioned'⟩

end Windows

-- ---------------------------------------------------------------------------
-- Agreement
-- ---------------------------------------------------------------------------

/-- **The two implementations agree.** On a file with the same content and the
same position, every session in range returns the same on both, whatever the
sizes of the single transfers and the paths of the appends: what the abstract
session returns. The caller's memory, the content and the position are the
same at the end. -/
theorem backends_agree (p q : Profile) {env : Unix.Env} {wenv : Windows.Env}
    (hUnix : env.Calm) (hWindows : ∀ i, wenv.interrupted i = false)
    (k : Unix.Kernel) (w : Windows.World) (h : Nat) (hOpened : h < w.opened)
    (hNot : k.machine.desc.appends = false) (hPos : k.machine.desc.pos ≤ i64Max)
    (hSame : w.file h = k.machine.file) (ops : List Op)
    (hRange : AllInRange k.machine.file ops) :
    ∃ replies k' w',
      (session (Unix.file p env) ops).Returns k (.ok replies) k' ∧
      (session (Windows.file q wenv h) ops).Returns w (.ok replies) w' ∧
      k'.machine.file = w'.file h ∧
      (replies, k'.machine.file) = k.machine.file.run ops := by
  have hCalm : wenv.InterruptedBefore 0 := fun i hi => by
    rw [hWindows i] at hi
    exact absurd hi Bool.false_ne_true
  have hPositioned : Windows.Positioned h w := by
    refine ⟨hOpened, ?_⟩
    have hEq : (w.handles h).pos = k.machine.desc.pos := congrArg FileState.pos hSame
    rw [hEq]
    exact hPos
  obtain ⟨_, k', hUnixRun, rfl, hUnixFile, -⟩ := (Unix.serves p hUnix).session ops hRange hNot
  obtain ⟨_, w', hWindowsRun, rfl, hWindowsFile, -⟩ :=
    (Windows.serves q hCalm).session ops (hSame ▸ hRange) hPositioned
  rw [hSame] at hWindowsRun hWindowsFile
  exact ⟨_, k', w', hUnixRun, hWindowsRun, hUnixFile.trans hWindowsFile.symm,
    Prod.ext rfl hUnixFile⟩

/-- A seek, an append of two buffers, a write past the end and a read: one
byte at a time and with `pwritev2` missing on the one side, two bytes at a time
on the other. -/
theorem backends_agree_short :
    ∃ replies k' w',
      (session (Unix.file .debug fun _ call => match call with
          | .pwritev2 _ _ _ => .fail .NOSYS
          | _ => .go 1)
        [.seek (.fromEnd (-1)), .appendAllVectored [⟨10, 0, by decide⟩, ⟨20, 3, by decide⟩],
          .writeAllAt ⟨10, 4, by decide⟩ 9, .readExactAt ⟨30, 2, by decide⟩ 1,
          .streamPosition]).Returns ⟨⟨fun _ => 7, [1, 2, 3], ⟨1, 0⟩⟩, []⟩ (.ok replies) k' ∧
      (session (Windows.file .release ⟨fun _ => false, fun _ => 2⟩ 0)
        [.seek (.fromEnd (-1)), .appendAllVectored [⟨10, 0, by decide⟩, ⟨20, 3, by decide⟩],
          .writeAllAt ⟨10, 4, by decide⟩ 9, .readExactAt ⟨30, 2, by decide⟩ 1,
          .streamPosition]).Returns
        ⟨fun _ => 7, [1, 2, 3], fun _ => ⟨1, .readWrite⟩, 1, 0, 0⟩ (.ok replies) w' ∧
      k'.machine.file = w'.file 0 ∧
      (replies, k'.machine.file) = FileState.run ⟨fun _ => 7, [1, 2, 3], 1⟩
        [.seek (.fromEnd (-1)), .appendAllVectored [⟨10, 0, by decide⟩, ⟨20, 3, by decide⟩],
          .writeAllAt ⟨10, 4, by decide⟩ 9, .readExactAt ⟨30, 2, by decide⟩ 1,
          .streamPosition] :=
  backends_agree .debug .release (fun _ call => by
      cases call with
      | pwritev2 bufs offset flags => exact .inr ⟨bufs, offset, flags, .NOSYS, rfl, .inl rfl, rfl⟩
      | _ => exact .inl ⟨1, rfl⟩)
    (fun _ => rfl) ⟨⟨fun _ => 7, [1, 2, 3], ⟨1, 0⟩⟩, []⟩
    ⟨fun _ => 7, [1, 2, 3], fun _ => ⟨1, .readWrite⟩, 1, 0, 0⟩ 0 (by decide) (by decide)
    (by decide) rfl _
    ⟨⟨by decide, by decide⟩, trivial, by show 9 + 4 ≤ i64Max; decide,
      by show 1 + 2 ≤ i64Max; decide, trivial, trivial⟩

end SystemInterface
