import SystemInterface.Model.Handles

/-!
# SystemInterface — single transfers

The methods that make one transfer may move fewer bytes than there are, and may fail: what
they do is not one function of the file. `FileState.singles` are the rules they keep. A
transfer moves some of the bytes, in order and from the first one on, and reports how many
they were; none at all only if there are none to move. A failure has done nothing.
-/

namespace SystemInterface

open Effect

variable {σ : Type}

-- ---------------------------------------------------------------------------
-- Calls
-- ---------------------------------------------------------------------------

/-- `Peek::peek` of `impl Peek for File`. -/
def File.peek (file : FileIoExt σ) (buf : Slice) : Proc σ Fault Nat := do
  let pos ← file.seek (.current 0)
  file.readAt buf pos

/-- A peek of the part is the peek on the part. -/
theorem File.peek_onto {τ : Type} (enter : τ → σ) (leave : τ → σ → τ)
    (hGet : ∀ t w, enter (leave t w) = w) (hPut : ∀ t w w', leave (leave t w) w' = leave t w')
    (file : FileIoExt σ) (buf : Slice) :
    File.peek (file.onto enter leave) buf = onPart enter leave (File.peek file buf) := by
  refine Proc.ext fun n t => ?_
  simp only [File.peek, FileIoExt.onto, onPart, Proc.run_bind, Proc.focus]
  cases (file.seek (.current 0)).run n (enter t) with
  | none => rfl
  | some o =>
    obtain ⟨r, w⟩ := o
    cases r with
    | error e => rfl
    | ok pos =>
      simp only [Option.map_some, hGet, hPut]

/-- A call that makes one transfer, or none. -/
inductive SingleOp where
  | readAt (buf : Slice) (offset : Nat)
  | readVectoredAt (bufs : List IoSliceMut) (offset : Nat)
  | writeAt (buf : Slice) (offset : Nat)
  | writeVectoredAt (bufs : List IoSlice) (offset : Nat)
  | append (buf : Slice)
  | appendVectored (bufs : List IoSlice)
  | read (buf : Slice)
  | readVectored (bufs : List IoSliceMut)
  | write (buf : Slice)
  | writeVectored (bufs : List IoSlice)
  | peek (buf : Slice)
  | seek (pos : SeekFrom)
  | streamPosition

/-- The method called; its outcome is the answer. -/
def SingleOp.method (file : FileIoExt σ) (io : IoExt σ) : SingleOp → Proc σ Fault Nat
  | readAt buf offset => file.readAt buf offset
  | readVectoredAt bufs offset => file.readVectoredAt bufs offset
  | writeAt buf offset => file.writeAt buf offset
  | writeVectoredAt bufs offset => file.writeVectoredAt bufs offset
  | append buf => file.append buf
  | appendVectored bufs => file.appendVectored bufs
  | read buf => io.read buf
  | readVectored bufs => io.readVectored bufs
  | write buf => io.write buf
  | writeVectored bufs => io.writeVectored bufs
  | peek buf => File.peek file buf
  | seek pos => file.seek pos
  | streamPosition => file.streamPosition

def SingleOp.perform (file : FileIoExt σ) (io : IoExt σ) (op : SingleOp) :
    Proc σ Fault (Result Nat) := (op.method file io).attempt

-- ---------------------------------------------------------------------------
-- What they may do
-- ---------------------------------------------------------------------------

namespace FileState

/-- A read at `o`: some of the bytes there, or a failure. -/
def Fetches (f : FileState) (o : Option Nat) (bufs : List Slice) : Result Nat → FileState → Prop
  | .ok n, f' => n ≤ totalLen bufs ∧ n ≤ (f.ahead o).length ∧
      (n = 0 → HeadEmpty bufs ∨ f.ahead o = []) ∧ f' = f.fill o (cells bufs) n
  | .error _, f' => f' = f

/-- A write by `act`: some of the bytes, or a failure. -/
def Emits (act : FileState → List UInt8 → FileState) (f : FileState) (bufs : List Slice) :
    Result Nat → FileState → Prop
  | .ok n, f' => n ≤ totalLen bufs ∧ (n = 0 → HeadEmpty bufs) ∧
      f' = act f ((f.mem.gather bufs).take n)
  | .error _, f' => f' = f

/-- A move of the position, or a failure. -/
def Seeks (f : FileState) (pos : SeekFrom) : Result Nat → FileState → Prop
  | .ok n, f' => n = (f.target pos).toNat ∧ f' = { f with pos := n }
  | .error _, f' => f' = f

/-- What the calls may do, and where: at positions, and no further. -/
def singles : Rules SingleOp (fun _ => Result Nat) FileState where
  Pre op f := match op with
    | .readAt _ offset => offset ≤ i64Max
    | .readVectoredAt _ offset => offset ≤ i64Max
    | .writeAt _ offset => offset ≤ i64Max
    | .writeVectoredAt _ offset => offset ≤ i64Max
    | .read buf => f.pos + buf.len ≤ i64Max
    | .readVectored bufs => f.pos + totalLen bufs ≤ i64Max
    | .write buf => f.pos + buf.len ≤ i64Max
    | .writeVectored bufs => f.pos + totalLen bufs ≤ i64Max
    | .seek pos => 0 ≤ f.target pos ∧ f.target pos ≤ i64Max
    | _ => True
  Step op f r f' := match op with
    | .readAt buf offset => f.Fetches (some offset) [buf] r f'
    | .readVectoredAt bufs offset => f.Fetches (some offset) bufs r f'
    | .writeAt buf offset => f.Emits (fun f => f.write (some offset)) [buf] r f'
    | .writeVectoredAt bufs offset => f.Emits (fun f => f.write (some offset)) bufs r f'
    | .append buf => f.Emits (fun f => f.write none) [buf] r f'
    | .appendVectored bufs => f.Emits (fun f => f.write none) bufs r f'
    | .read buf => f.Fetches none [buf] r f'
    | .readVectored bufs => f.Fetches none bufs r f'
    | .write buf => f.Emits put [buf] r f'
    | .writeVectored bufs => f.Emits put bufs r f'
    | .peek buf => f.Fetches (some f.pos) [buf] r f'
    | .seek pos => f.Seeks pos r f'
    | .streamPosition => f.Seeks (.current 0) r f'

-- ---------------------------------------------------------------------------
-- The position
-- ---------------------------------------------------------------------------

variable {f f' : FileState} {bufs : List Slice} {r : Result Nat}

theorem Fetches.pos_at {offset : Nat} (h : f.Fetches (some offset) bufs r f') :
    f'.pos = f.pos := by
  cases r with
  | ok n => rw [h.2.2.2]; rfl
  | error e => rw [show f' = f from h]

theorem Fetches.pos_le (h : f.Fetches none bufs r f') {max : Nat}
    (hMax : f.pos + totalLen bufs ≤ max) : f'.pos ≤ max := by
  cases r with
  | ok n =>
    obtain ⟨hn, -, -, rfl⟩ := h
    exact (Nat.add_le_add_left hn f.pos).trans hMax
  | error e =>
    rw [show f' = f from h]
    exact (Nat.le_add_right ..).trans hMax

theorem Emits.pos_write {o : Option Nat} (h : f.Emits (fun f => f.write o) bufs r f') :
    f'.pos = f.pos := by
  cases r with
  | ok n => rw [h.2.2]; rfl
  | error e => rw [show f' = f from h]

theorem Emits.pos_le (h : f.Emits put bufs r f') {max : Nat}
    (hMax : f.pos + totalLen bufs ≤ max) : f'.pos ≤ max := by
  cases r with
  | ok n =>
    obtain ⟨hn, -, rfl⟩ := h
    have hLen : ((f.mem.gather bufs).take n).length = n :=
      List.length_take_of_le (by rw [Memory.length_gather]; exact hn)
    show f.pos + ((f.mem.gather bufs).take n).length ≤ max
    omega
  | error e =>
    rw [show f' = f from h]
    exact (Nat.le_add_right ..).trans hMax

theorem Seeks.pos_le {pos : SeekFrom} (h : f.Seeks pos r f') (hPos : f.pos ≤ i64Max)
    (hMax : f.target pos ≤ i64Max) : f'.pos ≤ i64Max := by
  cases r with
  | ok n =>
    obtain ⟨rfl, rfl⟩ := h
    exact Int.toNat_le.mpr hMax
  | error e =>
    rw [show f' = f from h]
    exact hPos

theorem totalLen_singleton (buf : Slice) : totalLen [buf] = buf.len := by
  rw [totalLen_cons, totalLen_nil, Nat.add_zero]

/-- **A position in range stays in range.** -/
theorem singles_pos_le {op : SingleOp} (hPre : singles.Pre op f) (hPos : f.pos ≤ i64Max)
    (hStep : singles.Step op f r f') : f'.pos ≤ i64Max := by
  cases op with
  | readAt buf offset => rwa [hStep.pos_at]
  | readVectoredAt bufs offset => rwa [hStep.pos_at]
  | writeAt buf offset => rwa [hStep.pos_write]
  | writeVectoredAt bufs offset => rwa [hStep.pos_write]
  | append buf => rwa [hStep.pos_write]
  | appendVectored bufs => rwa [hStep.pos_write]
  | read buf => exact hStep.pos_le (by rw [totalLen_singleton]; exact hPre)
  | readVectored bufs => exact hStep.pos_le hPre
  | write buf => exact hStep.pos_le (by rw [totalLen_singleton]; exact hPre)
  | writeVectored bufs => exact hStep.pos_le hPre
  | peek buf => rwa [hStep.pos_at]
  | seek pos => exact hStep.pos_le hPos hPre.2
  | streamPosition =>
    refine hStep.pos_le hPos ?_
    show (f.pos : Int) + 0 ≤ i64Max
    omega

end FileState

end SystemInterface
