import SystemInterface.Lib.Scope
import SystemInterface.Lib.Spec
import SystemInterface.Model.Streams

/-!
# SystemInterface — the calls of a handle

A handle has the methods of `FileIoExt` and those of `IoExt`: the ones work at an offset or
at the end of the file, the others at the current position. A program over the calls of a
handle mixes them, and may choose each by the answers to those before it.

`FileState.handle` says what the calls are for. A stream write that is complete puts all
of its data at the position, and moves it along.

Main results:

* `FileState.emits_wp` — a loop of writes, wherever its bytes go;
* `HandleOp.perform_onto` — the calls of a handle that is a part of a larger state.
-/

namespace SystemInterface

open Effect

variable {σ τ : Type}

-- ---------------------------------------------------------------------------
-- Writing in pieces
-- ---------------------------------------------------------------------------

namespace FileState

/-- Write all of `data` at the position. -/
def put (f : FileState) (data : List UInt8) : FileState :=
  { f with content := splice 0 f.content f.pos data, pos := f.pos + data.length }

/-- A way to write that may be used in pieces. -/
structure Cumulative (act : FileState → List UInt8 → FileState) : Prop where
  nil : ∀ f, act f [] = f
  append : ∀ f a b, act (act f a) b = act f (a ++ b)
  mem : ∀ f data, (act f data).mem = f.mem

theorem cumulative_put : Cumulative put where
  nil _ := rfl
  append f a b := by simp only [put, splice_append, List.length_append, Nat.add_assoc]
  mem _ _ := rfl

variable {S : Type} {l : BufferLoop S} {s₀ : S} {abs : σ → FileState} {J : σ → Prop}
  {act : FileState → List UInt8 → FileState} {call : S → Proc σ Fault Nat} {w : σ}

/-- What one call of a write loop does: it writes some of the bytes, none only where that
is legitimate, or fails and may be tried again. -/
def Emitted (act : FileState → List UInt8 → FileState) (l : BufferLoop S) (abs : σ → FileState)
    (J : σ → Prop) (s : S) (w : σ) : Result Nat → σ → Prop
  | .ok n, w' => n ≤ (l.addrs s).length ∧ AdvanceFits (l.addrs s).length n ∧
      (n = 0 → l.zero = none ∧ l.MayZero s) ∧
      abs w' = act (abs w) (((l.addrs s).map (abs w).mem).take n) ∧ J w'
  | .error f, w' => l.transfer.retry f = true ∧ abs w' = abs w ∧ J w'

/-- **A loop of writes** writes all of its data. -/
theorem emits_wp (hAct : Cumulative act) (budget : σ → Nat)
    (hCall : ∀ s w, l.transfer.isEmpty s = false → J w →
      (call s).wp w fun a w' => Emitted act l abs J s w a w' ∧ Spends budget w a w')
    (hFits : l.OffsetFits s₀) (hReady : l.Ready s₀) (hJ : J w) :
    (l.transfer.run call s₀).wp w fun r w' =>
      r = .ok () ∧ abs w' = act (abs w) ((l.addrs s₀).map (abs w).mem) ∧ J w' := by
  set data := (l.addrs s₀).map (abs w).mem with hData
  have hRun : (l.transfer.run call s₀).wp w (BufferLoop.Ended (l.addrs s₀).length
      (fun k w' => abs w' = act (abs w) (data.take k) ∧ J w') fun _ _ _ => False) := by
    refine l.wp budget hFits hReady ?_ ⟨by rw [List.take_zero, hAct.nil], hJ⟩
    rintro k s v hAt hne ⟨hEq, hJ'⟩
    apply (hCall s v hne hJ').mono
    rintro a v' ⟨hEmitted, hSpends⟩
    cases a with
    | ok n =>
      obtain ⟨hn, hAdvance, hZero, hEq', hJ''⟩ := hEmitted
      refine ⟨⟨hn, hAdvance, fun _ => ⟨?_, hJ''⟩, fun f hn0 hf => ?_⟩, hSpends,
        fun hn0 _ => (hZero hn0).2⟩
      · have hMem : (abs v).mem = (abs w).mem := by rw [hEq, hAct.mem]
        rw [hEq', hMem, hAt.addrs_eq, List.map_drop, ← hData, hEq, hAct.append, ← List.take_add]
      · rw [(hZero hn0).1] at hf
        exact absurd hf (by simp)
    | error e =>
      obtain ⟨hRetry, hEq', hJ''⟩ := hEmitted
      refine ⟨?_, fun _ => hSpends⟩
      rw [BufferLoop.Moved, if_pos hRetry]
      exact ⟨hEq'.trans hEq, hJ''⟩
  apply hRun.mono
  intro r w' hEnd
  cases r with
  | ok u =>
    obtain ⟨hEq, hJ'⟩ := hEnd
    have hAll : data.take (l.addrs s₀).length = data := by
      rw [hData, ← List.map_take, List.take_length]
    rw [hAll] at hEq
    exact ⟨rfl, hEq, hJ'⟩
  | error e =>
    obtain ⟨k, -, hFalse⟩ := hEnd
    exact hFalse.elim

end FileState

-- ---------------------------------------------------------------------------
-- Calls on a handle
-- ---------------------------------------------------------------------------

/-- A call on a handle: one of `FileIoExt`, or a complete one of `IoExt`. -/
inductive HandleOp where
  | file (op : Op)
  | readExact (buf : Slice)
  | readExactVectored (bufs : List IoSliceMut)
  | writeAll (buf : Slice)
  | writeAllVectored (bufs : List IoSlice)

def HandleOp.perform (file : FileIoExt σ) (io : IoExt σ) : HandleOp → Proc σ Fault Reply
  | .file op => op.perform file
  | readExact buf => reply (io.readExact buf) .unit
  | readExactVectored bufs => reply (io.readExactVectored bufs) .unit
  | writeAll buf => reply (io.writeAll buf) .unit
  | writeAllVectored bufs => reply (io.writeAllVectored bufs) .unit

/-- The call is in range; a stream call ends at a position. -/
def HandleOp.InRange (f : FileState) : HandleOp → Prop
  | .file op => op.InRange f
  | readExact buf => f.pos + buf.len ≤ i64Max
  | readExactVectored bufs => f.pos + totalLen bufs ≤ i64Max
  | writeAll buf => f.pos + buf.len ≤ i64Max
  | writeAllVectored bufs => f.pos + totalLen bufs ≤ i64Max

instance (f : FileState) : (op : Op) → Decidable (op.InRange f)
  | .writeAllAt buf offset => inferInstanceAs (Decidable (offset + buf.len ≤ i64Max))
  | .writeAllVectoredAt bufs offset => inferInstanceAs (Decidable (offset + totalLen bufs ≤ i64Max))
  | .readExactAt buf offset => inferInstanceAs (Decidable (offset + buf.len ≤ i64Max))
  | .readExactVectoredAt bufs offset =>
    inferInstanceAs (Decidable (offset + totalLen bufs ≤ i64Max))
  | .appendAll _ => isTrue trivial
  | .appendAllVectored _ => isTrue trivial
  | .seek pos => inferInstanceAs (Decidable (0 ≤ f.target pos ∧ f.target pos ≤ i64Max))
  | .streamPosition => isTrue trivial

instance (f : FileState) : (op : HandleOp) → Decidable (op.InRange f)
  | .file op => inferInstanceAs (Decidable (op.InRange f))
  | .readExact buf => inferInstanceAs (Decidable (f.pos + buf.len ≤ i64Max))
  | .readExactVectored bufs => inferInstanceAs (Decidable (f.pos + totalLen bufs ≤ i64Max))
  | .writeAll buf => inferInstanceAs (Decidable (f.pos + buf.len ≤ i64Max))
  | .writeAllVectored bufs => inferInstanceAs (Decidable (f.pos + totalLen bufs ≤ i64Max))

/-- What the calls on a handle are for. -/
def FileState.handle : Spec HandleOp (fun _ => Reply) FileState where
  apply f
    | .file op => f.apply op
    | .readExact buf => (f.readExact none buf.addrs).map .unit id
    | .readExactVectored bufs => (f.readExact none (cells bufs)).map .unit id
    | .writeAll buf => (.unit (.ok ()), f.put (buf.addrs.map f.mem))
    | .writeAllVectored bufs => (.unit (.ok ()), f.put (f.mem.gather bufs))
  allowed f op := op.InRange f

instance (f : FileState) (op : HandleOp) : Decidable (FileState.handle.allowed f op) :=
  inferInstanceAs (Decidable (op.InRange f))

-- ---------------------------------------------------------------------------
-- A part of a larger state
-- ---------------------------------------------------------------------------

section

variable (enter : τ → σ) (leave : τ → σ → τ)

/-- Run `x` on the part. -/
def onPart {α : Type} (x : Proc σ Fault α) : Proc τ Fault α := Proc.focus enter leave fun _ => x

def FileIoExt.onto (file : FileIoExt σ) : FileIoExt τ where
  readAt buf offset := onPart enter leave (file.readAt buf offset)
  readExactAt buf offset := onPart enter leave (file.readExactAt buf offset)
  readVectoredAt bufs offset := onPart enter leave (file.readVectoredAt bufs offset)
  readExactVectoredAt bufs offset :=
    onPart enter leave (file.readExactVectoredAt bufs offset)
  writeAt buf offset := onPart enter leave (file.writeAt buf offset)
  writeAllAt buf offset := onPart enter leave (file.writeAllAt buf offset)
  writeVectoredAt bufs offset := onPart enter leave (file.writeVectoredAt bufs offset)
  writeAllVectoredAt bufs offset :=
    onPart enter leave (file.writeAllVectoredAt bufs offset)
  append buf := onPart enter leave (file.append buf)
  appendAll buf := onPart enter leave (file.appendAll buf)
  appendVectored bufs := onPart enter leave (file.appendVectored bufs)
  appendAllVectored bufs := onPart enter leave (file.appendAllVectored bufs)
  seek pos := onPart enter leave (file.seek pos)
  streamPosition := onPart enter leave file.streamPosition

def IoExt.onto (io : IoExt σ) : IoExt τ where
  read buf := onPart enter leave (io.read buf)
  readExact buf := onPart enter leave (io.readExact buf)
  readVectored bufs := onPart enter leave (io.readVectored bufs)
  readExactVectored bufs := onPart enter leave (io.readExactVectored bufs)
  write buf := onPart enter leave (io.write buf)
  writeAll buf := onPart enter leave (io.writeAll buf)
  writeVectored bufs := onPart enter leave (io.writeVectored bufs)
  writeAllVectored bufs := onPart enter leave (io.writeAllVectored bufs)

theorem onPart_wp {α : Type} {x : Proc σ Fault α} {t : τ} {Post : Result α → τ → Prop}
    (h : x.wp (enter t) fun r w => Post r (leave t w)) : (onPart enter leave x).wp t Post :=
  Proc.focus_wp h

theorem reply_onPart {α : Type} (x : Proc σ Fault α) (of : Result α → Reply) :
    reply (onPart enter leave x) of = onPart enter leave (reply x of) := by
  refine Proc.ext fun n t => ?_
  simp only [reply, onPart, Proc.run_attempt_bind, Proc.focus]
  rcases x.run n (enter t) with _ | ⟨r, w⟩ <;> rfl

/-- A call of the part is the call on the part. -/
theorem Op.perform_onto (file : FileIoExt σ) (op : Op) :
    op.perform (file.onto enter leave) = onPart enter leave (op.perform file) := by
  cases op <;> exact reply_onPart enter leave _ _

end

end SystemInterface
