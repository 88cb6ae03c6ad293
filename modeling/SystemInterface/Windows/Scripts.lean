import SystemInterface.Lib.Crowd
import SystemInterface.Model.Session
import SystemInterface.Windows.Files

/-!
# SystemInterface — the Windows implementation, call by call

The methods of the Windows implementation as scripts over the operations on handles, so
that those of several clients can be interleaved, and clients that share a handle. A
script run whole is the method.

Main result:

* `sessionScript_toProc` — a session, one operation at a time.
-/

namespace SystemInterface.Windows

open Effect

-- ---------------------------------------------------------------------------
-- Operations
-- ---------------------------------------------------------------------------

/-- An operation on a handle: a field of `Os`, with its arguments. -/
inductive OsCall where
  | reopen (h : Nat)
  | reopenWrite (h : Nat)
  | reopenAppend (h : Nat)
  | seek (h : Nat) (pos : SeekFrom)
  | read (h : Nat) (buf : Slice)
  | readVectored (h : Nat) (bufs : List IoSliceMut)
  | seekRead (h : Nat) (buf : Slice) (offset : Nat)
  | seekWrite (h : Nat) (buf : Slice) (offset : Nat)
  | write (h : Nat) (buf : Slice)
  | writeVectored (h : Nat) (bufs : List IoSlice)

/-- What an operation returns: a handle, a position or a number of bytes. -/
abbrev OsCall.Reply (_ : OsCall) : Type := Result Nat

namespace Env

variable (env : Env)

/-- An operation that is not interrupted. -/
def act : OsCall → World → Result Nat × World
  | .reopen _, w => w.reopen .read
  | .reopenWrite _, w => w.reopen .write
  | .reopenAppend _, w => w.reopen .append
  | .seek h pos, w => w.seek h pos
  | .read h buf, w => w.readAt h buf (w.handles h).pos (env.size w.transfers)
  | .readVectored h bufs, w =>
    w.readAt h (firstNonEmpty bufs) (w.handles h).pos (env.size w.transfers)
  | .seekRead h buf offset, w =>
    if offset ≤ i64Max then w.readAt h buf offset (env.size w.transfers)
    else (.error invalidParameter, w)
  | .seekWrite h buf offset, w =>
    if offset ≤ i64Max then w.writeAt h buf offset (env.size w.transfers)
    else (.error invalidParameter, w)
  | .write h buf, w => w.writeAt h buf (w.handles h).pos (env.size w.transfers)
  | .writeVectored h bufs, w =>
    w.writeAt h (firstNonEmpty bufs) (w.handles h).pos (env.size w.transfers)

/-- One operation, which may be interrupted. -/
def handle (c : OsCall) (w : World) : Result Nat × World :=
  if env.interrupted w.steps then (.error interruption, w.atStep (w.steps + 1))
  else env.act c (w.atStep (w.steps + 1))

end Env

-- ---------------------------------------------------------------------------
-- Operations by kind
-- ---------------------------------------------------------------------------

/-- What an operation does, and through which handle. -/
inductive OsCall.Kind where
  | opens (access : Access)
  | seeks (h : Nat) (pos : SeekFrom)
  | reads (h : Nat) (bufs : List IoSliceMut)
  | writes (h : Nat) (bufs : List IoSlice)
  | readsAt (h : Nat) (buf : Slice) (offset : Nat)
  | writesAt (h : Nat) (buf : Slice) (offset : Nat)

def OsCall.kind : OsCall → Kind
  | reopen _ => .opens .read
  | reopenWrite _ => .opens .write
  | reopenAppend _ => .opens .append
  | seek h pos => .seeks h pos
  | read h buf => .reads h [buf]
  | readVectored h bufs => .reads h bufs
  | seekRead h buf offset => .readsAt h buf offset
  | seekWrite h buf offset => .writesAt h buf offset
  | write h buf => .writes h [buf]
  | writeVectored h bufs => .writes h bufs

section

variable (env : Env) {c : OsCall} {h : Nat} {bufs : List Slice}

theorem act_opens {access : Access} (hKind : c.kind = .opens access) (w : World) :
    env.act c w = w.reopen access := by
  cases c <;> cases hKind <;> rfl

theorem act_seeks {pos : SeekFrom} (hKind : c.kind = .seeks h pos) (w : World) :
    env.act c w = w.seek h pos := by
  cases c <;> cases hKind
  rfl

theorem act_reads (hKind : c.kind = .reads h bufs) :
    ∃ buf, LeadingWindow bufs [buf] ∧
      ∀ w, env.act c w = w.readAt h buf (w.handles h).pos (env.size w.transfers) := by
  cases c with
  | read h' buf =>
    cases hKind
    exact ⟨buf, leadingWindow_self buf, fun _ => rfl⟩
  | readVectored h' bufs' =>
    cases hKind
    exact ⟨_, leadingWindow_firstNonEmpty _, fun _ => rfl⟩
  | _ => cases hKind

theorem act_writes (hKind : c.kind = .writes h bufs) :
    ∃ buf, LeadingWindow bufs [buf] ∧
      ∀ w, env.act c w = w.writeAt h buf (w.handles h).pos (env.size w.transfers) := by
  cases c with
  | write h' buf =>
    cases hKind
    exact ⟨buf, leadingWindow_self buf, fun _ => rfl⟩
  | writeVectored h' bufs' =>
    cases hKind
    exact ⟨_, leadingWindow_firstNonEmpty _, fun _ => rfl⟩
  | _ => cases hKind

theorem act_writesAt {buf : Slice} {offset : Nat} (hKind : c.kind = .writesAt h buf offset)
    (w : World) :
    env.act c w = if offset ≤ i64Max then w.writeAt h buf offset (env.size w.transfers)
      else (.error invalidParameter, w) := by
  cases c <;> cases hKind
  rfl

end

-- ---------------------------------------------------------------------------
-- Operations beside the client's handle
-- ---------------------------------------------------------------------------

/-- A handle is opened. -/
structure Opens (file : Nat) (hd : Handle) (access : Access) (w : World) (o : Result Nat × World) :
    Prop where
  mem : o.2.mem = w.mem
  content : o.2.content = w.content
  own : Own file hd o.2
  result : o.1 = .error interruption ∨
    ∃ h, o.1 = .ok h ∧ Aside file hd h access o.2 ∧ (o.2.handles h).pos = 0

/-- A handle is positioned. -/
structure Seeks (file : Nat) (hd : Handle) (h : Nat) (access : Access) (offset : Nat) (w : World)
    (o : Result Nat × World) : Prop where
  mem : o.2.mem = w.mem
  content : o.2.content = w.content
  aside : Aside file hd h access o.2
  result : o.1 = .error interruption ∨
    o.1 = (if offset ≤ i64Max then .ok offset else .error negativeSeek) ∧
      (offset ≤ i64Max → (o.2.handles h).pos = offset)

/-- `d` is read, at the position. -/
structure Reads (file : Nat) (hd : Handle) (h : Nat) (bufs : List IoSliceMut) (d : List UInt8)
    (w : World) (o : Result Nat × World) : Prop where
  le : d.length ≤ totalLen bufs
  le_max : d.length ≤ u32Max
  there : d = (w.content.drop (w.handles h).pos).take d.length
  mem : o.2.mem = store w.mem (cells bufs) d
  content : o.2.content = w.content
  aside : Aside file hd h .read o.2
  pos : (o.2.handles h).pos = (w.handles h).pos + d.length
  result : o.1 = .ok d.length ∨ o.1 = .error interruption ∧ d = []

/-- `n` bytes are written, where `start` says or at the end. -/
structure Writes (file : Nat) (hd : Handle) (h : Nat) (access : Access) (start : Option Nat)
    (bufs : List IoSlice) (n : Nat) (w : World) (o : Result Nat × World) : Prop where
  le : n ≤ totalLen bufs
  le_max : n ≤ u32Max
  mem : o.2.mem = w.mem
  content : o.2.content = place start w.content ((w.mem.gather bufs).take n)
  aside : Aside file hd h access o.2
  result : o.1 = .ok n ∨ (∃ f, o.1 = .error f) ∧ n = 0

section

variable (env : Env) {c : OsCall} {h file : Nat} {hd : Handle} {access : Access} {w : World}
  {bufs : List Slice}

/-- An operation is interrupted, or made. -/
theorem handle_cases {P : Result Nat × World → Prop}
    (hIntr : P (.error interruption, w.atStep (w.steps + 1)))
    (hGo : P (env.act c (w.atStep (w.steps + 1)))) : P (env.handle c w) := by
  unfold Env.handle
  split
  · exact hIntr
  · exact hGo

theorem handle_opens (hKind : c.kind = .opens access) (hOwn : Own file hd w) :
    Opens file hd access w (env.handle c w) := by
  refine handle_cases env ⟨rfl, rfl, hOwn.atStep _, .inl rfl⟩ ?_
  have hAside := (hOwn.atStep (w.steps + 1)).reopen access
  rw [act_opens env hKind]
  refine ⟨rfl, rfl, hAside.own, .inr ⟨w.opened, rfl, hAside, ?_⟩⟩
  show (Function.update w.handles w.opened ⟨0, access⟩ w.opened).pos = 0
  rw [Function.update_self]

theorem handle_seeks {offset : Nat} (hKind : c.kind = .seeks h (.start offset))
    (hAside : Aside file hd h access w) :
    Seeks file hd h access offset w (env.handle c w) := by
  refine handle_cases env ⟨rfl, rfl, hAside.atStep _, .inl rfl⟩ ?_
  rw [act_seeks env hKind, seek_start]
  split
  · next hMax =>
    refine ⟨rfl, rfl, (hAside.atStep _).moved (rfl : _ = (World.setPos _ h offset).handles) rfl,
      .inr ⟨?_, fun _ => ?_⟩⟩
    · rw [if_pos hMax]
    · exact congrArg Handle.pos (setPos_handles_self _ h offset)
  · next hMax =>
    refine ⟨rfl, rfl, hAside.atStep _, .inr ⟨?_, fun h => absurd h hMax⟩⟩
    rw [if_neg hMax]

theorem handle_reads (hKind : c.kind = .reads h bufs) (hAside : Aside file hd h .read w) :
    ∃ d, Reads file hd h bufs d w (env.handle c w) := by
  obtain ⟨buf, hWin, hAct⟩ := act_reads env hKind
  refine handle_cases env (P := fun o => ∃ d, Reads file hd h bufs d w o)
    ⟨[], by simp, by simp, by simp, (store_nil_right ..).symm, rfl, hAside.atStep _, rfl,
      .inr ⟨rfl, rfl⟩⟩ ?_
  set w₁ := w.atStep (w.steps + 1) with hw₁
  obtain ⟨n, w', hEq, hLe, hMax, hAhead, -, hMoved⟩ := readAt_spec (w := w₁) (h := h)
    (by rw [(hAside.atStep _).access]; rfl) hWin (w₁.handles h).pos (env.size w₁.transfers)
  have hLen : ((w₁.content.drop (w₁.handles h).pos).take n).length = n :=
    List.length_take_of_le hAhead
  rw [hAct, hEq]
  refine ⟨(w₁.content.drop (w₁.handles h).pos).take n, by rw [hLen]; exact hLe,
    by rw [hLen]; exact hMax, by rw [hLen]; rfl, hMoved.mem, hMoved.content,
    (hAside.atStep _).moved hMoved.handles hMoved.opened, ?_, .inl (by rw [hLen])⟩
  show (w'.handles h).pos = _
  rw [hMoved.handles, setPos_handles_self, hLen]
  rfl

/-- A write through a handle that appends. -/
theorem handle_writes (hKind : c.kind = .writes h bufs) (hAside : Aside file hd h .append w) :
    ∃ n, Writes file hd h .append none bufs n w (env.handle c w) := by
  obtain ⟨buf, hWin, hAct⟩ := act_writes env hKind
  refine handle_cases env (P := fun o => ∃ n, Writes file hd h .append none bufs n w o)
    ⟨0, Nat.zero_le _, Nat.zero_le _, rfl, (List.append_nil _).symm, hAside.atStep _,
      .inr ⟨⟨_, rfl⟩, rfl⟩⟩ ?_
  set w₁ := w.atStep (w.steps + 1) with hw₁
  have hAside₁ : Aside file hd h .append w₁ := hAside.atStep _
  obtain ⟨n, pos, w', hEq, hSize, hLe, -, hMoved⟩ := writeAt_spec (w := w₁) (h := h)
    (by rw [hAside₁.access]; rfl) hWin (w₁.handles h).pos (env.size w₁.transfers)
  rw [if_pos hAside₁.access] at hMoved
  have hShort := shortCount_le (env.size w₁.transfers) (min buf.len u32Max)
  rw [hAct, hEq]
  exact ⟨n, hLe, by omega, hMoved.mem, hMoved.content,
    hAside₁.moved hMoved.handles hMoved.opened, .inl rfl⟩

/-- A write at an offset. -/
theorem handle_writesAt {buf : Slice} {offset : Nat} (hKind : c.kind = .writesAt h buf offset)
    (hAside : Aside file hd h .write w) :
    ∃ n, Writes file hd h .write (some offset) [buf] n w (env.handle c w) := by
  refine handle_cases env (P := fun o => ∃ n, Writes file hd h .write (some offset) [buf] n w o)
    ⟨0, Nat.zero_le _, Nat.zero_le _, rfl, rfl, hAside.atStep _, .inr ⟨⟨_, rfl⟩, rfl⟩⟩ ?_
  set w₁ := w.atStep (w.steps + 1) with hw₁
  have hAside₁ : Aside file hd h .write w₁ := hAside.atStep _
  rw [act_writesAt env hKind]
  split
  · obtain ⟨n, pos, w', hEq, hSize, hLe, -, hMoved⟩ := writeAt_spec (w := w₁) (h := h)
      (by rw [hAside₁.access]; rfl) (leadingWindow_self buf) offset (env.size w₁.transfers)
    rw [if_neg (by rw [hAside₁.access]; decide)] at hMoved
    have hShort := shortCount_le (env.size w₁.transfers) (min buf.len u32Max)
    rw [hEq]
    exact ⟨n, hLe, by omega, hMoved.mem, hMoved.content,
      hAside₁.moved hMoved.handles hMoved.opened, .inl rfl⟩
  · exact ⟨0, Nat.zero_le _, Nat.zero_le _, rfl, rfl, hAside₁, .inr ⟨⟨_, rfl⟩, rfl⟩⟩

end

-- ---------------------------------------------------------------------------
-- Methods
-- ---------------------------------------------------------------------------

/-- A method of the implementation, with its loops. -/
abbrev Script (α : Type) := Effect.Script OsCall OsCall.Reply Fault α

/-- One operation. -/
def call (c : OsCall) : Script Nat := .call c .done

def retried {α : Type} (x : Script α) : Script α := x.retry Fault.isInterrupted

/-- Hand the outcome of a call over as a reply. -/
def replied {α : Type} (x : Script α) (of : Result α → Reply) : Script Reply :=
  x.andThen fun r => .done (.ok (of r))

section

variable (p : Profile) (file : Nat)

def readExactAtScript (buf : Slice) (offset : Nat) : Script Unit := do
  let reopened ← retried (call (.reopen file))
  let _ ← retried (call (.seek reopened (.start offset)))
  RustStd.readExact.transfer.script (fun buf => call (.read reopened buf)) buf

def readExactVectoredAtScript (bufs : List IoSliceMut) (offset : Nat) : Script Unit := do
  let reopened ← retried (call (.reopen file))
  let _ ← retried (call (.seek reopened (.start offset)))
  (IoExt.Default.readExactVectored.transfer p).script
    (fun bufs => call (.readVectored reopened bufs)) (skipLeadingEmpties bufs)

def writeAllAtScript (buf : Slice) (offset : Nat) : Script Unit := do
  let reopened ← call (.reopenWrite file)
  (writeAllAt.transfer p).script (fun s => call (.seekWrite reopened s.1 s.2)) (buf, offset)

def writeAllVectoredAtScript : List IoSlice → Nat → Script Unit
  | [], _ => pure ()
  | buf :: bufs, offset => do
    writeAllAtScript p file buf offset
    let offset ← Script.ofExcept (p.add offset buf.len)
    writeAllVectoredAtScript bufs offset

def appendScript (buf : Slice) : Script Nat := do
  let reopened ← call (.reopenAppend file)
  call (.write reopened buf)

def appendVectoredScript (bufs : List IoSlice) : Script Nat := do
  let reopened ← call (.reopenAppend file)
  call (.writeVectored reopened bufs)

/-- A call on a file. -/
def script : Op → Script Reply
  | .writeAllAt buf offset => replied (writeAllAtScript p file buf offset) .unit
  | .writeAllVectoredAt bufs offset => replied (writeAllVectoredAtScript p file bufs offset) .unit
  | .readExactAt buf offset => replied (readExactAtScript file buf offset) .unit
  | .readExactVectoredAt bufs offset =>
    replied (readExactVectoredAtScript p file bufs offset) .unit
  | .appendAll buf =>
    replied (FileIoExt.Default.appendAll.transfer.script (appendScript file) buf) .unit
  | .appendAllVectored bufs =>
    replied ((FileIoExt.Default.appendAllVectored.transfer p).script (appendVectoredScript file)
      bufs) .unit
  | .seek pos => replied (call (.seek file pos)) .position
  | .streamPosition => replied (call (.seek file (.current 0))) .position

def sessionScript (ops : List Op) : Script (List Reply) := Effect.Script.each (script p file) ops

end

-- ---------------------------------------------------------------------------
-- Scripts run whole
-- ---------------------------------------------------------------------------

section

variable (p : Profile) (env : Env) (file : Nat)

theorem call_toProc (c : OsCall) : (call c).toProc env.handle = .ofStep (env.handle c) :=
  Proc.ext fun _ _ => rfl

theorem retried_toProc {α : Type} (x : Script α) :
    (retried x).toProc env.handle = retryInterrupted (x.toProc env.handle) :=
  Script.toProc_retry _ x

theorem replied_toProc {α : Type} (x : Script α) (of : Result α → Reply) :
    (replied x of).toProc env.handle = reply (x.toProc env.handle) of :=
  Script.toProc_andThen x _

theorem writeAllAtScript_toProc (buf : Slice) (offset : Nat) :
    (writeAllAtScript p file buf offset).toProc env.handle =
      writeAllAt p env.os file buf offset := by
  simp only [writeAllAtScript, Script.toProc_bind, call_toProc, Transfer.script_toProc]
  rfl

theorem writeAllVectoredAtScript_toProc (bufs : List IoSlice) (offset : Nat) :
    (writeAllVectoredAtScript p file bufs offset).toProc env.handle =
      writeAllVectoredAt p env.os file bufs offset := by
  induction bufs generalizing offset with
  | nil => rfl
  | cons buf bufs ih =>
    simp only [writeAllVectoredAtScript, writeAllVectoredAt, Script.toProc_bind,
      writeAllAtScript_toProc, ih]
    rfl

/-- A call run whole is the method. -/
theorem script_toProc (op : Op) :
    (script p file op).toProc env.handle = op.perform (Windows.file p env file) := by
  cases op with
  | writeAllAt buf offset =>
    refine (replied_toProc env _ _).trans (congrArg (reply · _) ?_)
    exact writeAllAtScript_toProc p env file buf offset
  | writeAllVectoredAt bufs offset =>
    refine (replied_toProc env _ _).trans (congrArg (reply · _) ?_)
    exact writeAllVectoredAtScript_toProc p env file bufs offset
  | readExactAt buf offset =>
    refine (replied_toProc env _ _).trans (congrArg (reply · _) ?_)
    simp only [readExactAtScript, Script.toProc_bind, retried_toProc, call_toProc,
      Transfer.script_toProc]
    rfl
  | readExactVectoredAt bufs offset =>
    refine (replied_toProc env _ _).trans (congrArg (reply · _) ?_)
    simp only [readExactVectoredAtScript, Script.toProc_bind, retried_toProc, call_toProc,
      Transfer.script_toProc]
    rfl
  | appendAll buf =>
    refine (replied_toProc env _ _).trans (congrArg (reply · _) ?_)
    simp only [appendScript, Transfer.script_toProc, Script.toProc_bind, call_toProc]
    rfl
  | appendAllVectored bufs =>
    refine (replied_toProc env _ _).trans (congrArg (reply · _) ?_)
    simp only [appendVectoredScript, Transfer.script_toProc, Script.toProc_bind, call_toProc]
    rfl
  | seek pos => exact (replied_toProc env _ _).trans (congrArg (reply · _) (call_toProc env _))
  | streamPosition =>
    exact (replied_toProc env _ _).trans (congrArg (reply · _) (call_toProc env _))

/-- **A session, one operation at a time.** -/
theorem sessionScript_toProc (ops : List Op) :
    (sessionScript p file ops).toProc env.handle = session (Windows.file p env file) ops := by
  induction ops with
  | nil => rfl
  | cons op ops ih =>
    rw [sessionScript, Script.toProc_each_cons, script_toProc, session]
    exact congrArg _ (funext fun r => congrArg (· >>= _) ih)

end

-- ---------------------------------------------------------------------------
-- Clients of one handle
-- ---------------------------------------------------------------------------

/-- What belongs to one client: its memory and its table of handles, and the operations
that it has made. -/
structure Client where
  mem : Memory
  handles : Nat → Handle
  opened : Nat
  steps : Nat
  transfers : Nat

/-- What the clients share: the file, and a handle that each of them has in its table. -/
structure OpenFile where
  content : List UInt8
  handle : Handle

/-- The world as a client finds it that has the shared handle as `file`. -/
def Client.world (l : Client) (file : Nat) (t : OpenFile) : World :=
  ⟨l.mem, t.content, Function.update l.handles file t.handle, l.opened, l.steps, l.transfers⟩

def World.client (w : World) : Client := ⟨w.mem, w.handles, w.opened, w.steps, w.transfers⟩

def World.shared (w : World) (file : Nat) : OpenFile := ⟨w.content, w.handles file⟩

/-- A world is a client with what it shares. -/
@[simp] theorem World.client_world (w : World) (file : Nat) :
    w.client.world file (w.shared file) = w := by
  simp only [Client.world, World.client, World.shared, Function.update_eq_self]

/-- Beside the shared handle, `h` is open in the table of a client. -/
structure Client.HasOpen (file h : Nat) (access : Access) (l : Client) : Prop where
  opened : file < l.opened
  ne : h ≠ file
  access : (l.handles h).access = access

section

variable {file h : Nat} {hd : Handle} {access : Access} {l : Client} {t : OpenFile} {w : World}

theorem Client.world_own (hOpened : file < l.opened) : Own file t.handle (l.world file t) :=
  ⟨hOpened, Function.update_self ..⟩

theorem Client.world_handles (hNe : h ≠ file) : (l.world file t).handles h = l.handles h :=
  Function.update_of_ne hNe ..

/-- What a client has open is open in its world, and the other way round. -/
theorem Client.HasOpen.aside (hOpen : l.HasOpen file h access) :
    Aside file t.handle h access (l.world file t) :=
  ⟨world_own hOpen.opened, hOpen.ne, by rw [world_handles hOpen.ne]; exact hOpen.access⟩

theorem Aside.hasOpen (hAside : Aside file hd h access w) : w.client.HasOpen file h access :=
  ⟨hAside.own.opened, hAside.ne, hAside.access⟩

/-- Before a loop of reads, a handle is opened and put at the offset; `J` is what either
keeps. -/
theorem positioned_safe {L α : Type} {P : Rules OsCall OsCall.Reply L} {offset : Nat} {l₀ : L}
    {Post : Except Fault α → L → Prop} {read : Nat → Script α} (client : L → Client) (J : L → Prop)
    (hOpens : ∀ l, J l → file < (client l).opened → Script.Safe P
      (fun r l' => J l' ∧ file < (client l').opened ∧ (r = .error interruption ∨
        ∃ h, r = .ok h ∧ (client l').HasOpen file h .read ∧ ((client l').handles h).pos = 0))
      (call (.reopen file)) l)
    (hSeeks : ∀ h l, J l → (client l).HasOpen file h .read → Script.Safe P
      (fun r l' => J l' ∧ (client l').HasOpen file h .read ∧ (r = .error interruption ∨
        r = .ok offset ∧ ((client l').handles h).pos = offset))
      (call (.seek h (.start offset))) l)
    (hRead : ∀ h l, J l → (client l).HasOpen file h .read → ((client l).handles h).pos = offset →
      Script.Safe P Post (read h) l)
    (hJ : J l₀) (hOpened : file < (client l₀).opened) :
    Script.Safe P Post (do
      let reopened ← retried (call (.reopen file))
      let _ ← retried (call (.seek reopened (.start offset)))
      read reopened) l₀ := by
  have hReopened : Script.Safe P
      (fun r l => ∃ h, r = .ok h ∧ J l ∧ (client l).HasOpen file h .read)
      (retried (call (.reopen file))) l₀ := by
    refine Script.Safe.retry (fun l => J l ∧ file < (client l).opened) (fun l hJ => ?_)
      ⟨hJ, hOpened⟩
    refine (hOpens l hJ.1 hJ.2).mono ?_
    rintro r l' ⟨hJ', hOpened', rfl | ⟨h, rfl, hOpen, -⟩⟩
    · exact .inl ⟨_, rfl, isInterrupted_interruption, hJ', hOpened'⟩
    · exact .inr ⟨fun e he => absurd he (by simp), h, rfl, hJ', hOpen⟩
  refine hReopened.bind ?_ ?_
  · rintro h l₁ ⟨_, hEq, hJ₁, hOpen₁⟩
    obtain rfl := Except.ok.inj hEq
    have hSought : Script.Safe P
        (fun r l => r = .ok offset ∧ J l ∧ (client l).HasOpen file h .read ∧
          ((client l).handles h).pos = offset)
        (retried (call (.seek h (.start offset)))) l₁ := by
      refine Script.Safe.retry (fun l => J l ∧ (client l).HasOpen file h .read) (fun l hJ => ?_)
        ⟨hJ₁, hOpen₁⟩
      refine (hSeeks h l hJ.1 hJ.2).mono ?_
      rintro r l' ⟨hJ', hOpen, rfl | ⟨rfl, hPos⟩⟩
      · exact .inl ⟨_, rfl, isInterrupted_interruption, hJ', hOpen⟩
      · exact .inr ⟨fun e he => absurd he (by simp), rfl, hJ', hOpen, hPos⟩
    refine hSought.bind ?_ ?_
    · rintro _ l₂ ⟨-, hJ₂, hOpen₂, hPos₂⟩
      exact hRead h l₂ hJ₂ hOpen₂ hPos₂
    · rintro f l₂ ⟨hEq, -⟩
      exact absurd hEq (by simp)
  · rintro f l₁ ⟨_, hEq, -⟩
    exact absurd hEq (by simp)

end

end SystemInterface.Windows
