import SystemInterface.Model.Log
import SystemInterface.Windows.Scripts

/-!
# SystemInterface — a log on Windows

Any number of clients append to one file and read it, through one handle that they
share. Every method opens a handle of its own; the clients take turns operation by
operation, and any operation may be interrupted.

Main result:

* `log_of_one_handle` — the shared handle stays where it is, and the file is its initial
  content with what the clients have appended, chunk by chunk.
-/

namespace SystemInterface.Windows

open Effect

namespace Log

-- ---------------------------------------------------------------------------
-- The system
-- ---------------------------------------------------------------------------

/-- What belongs to one client, and what it has added to the file and seen of it. -/
structure Part where
  client : Client
  ledger : List (Entry UInt8)

/-- The bytes that a transfer has moved. -/
def moved : Result Nat → Nat
  | .ok n => n
  | .error _ => 0

/-- What an operation that answers `r` adds to the file, or sees of it. -/
def entry (w : World) (c : OsCall) (r : Result Nat) : Entry UInt8 :=
  match c.kind with
  | .reads h _ => .saw (w.handles h).pos ((w.content.drop (w.handles h).pos).take (moved r))
  | .writes _ bufs => .wrote ((w.mem.gather bufs).take (moved r))
  | _ => .wrote []

/-- The operation of a client that has the shared handle as `file`. -/
def act (env : Env) (file : Nat) (c : OsCall) (l : Part) (t : OpenFile) : Result Nat × World :=
  env.handle c (l.client.world file t)

/-- The client after an operation. -/
def after (env : Env) (file : Nat) (c : OsCall) (l : Part) (t : OpenFile) : Part :=
  let o := act env file c l t
  ⟨o.2.client, l.ledger ++ [entry (l.client.world file t) c o.1]⟩

/-- An operation of client `i`, which has the shared handle as `file i` and whose
operations `env i` interrupts. -/
def acts {I : Type} (env : I → Env) (file : I → Nat) : Acts I OsCall OsCall.Reply Part OpenFile :=
  fun i c s =>
    let o := act (env i) (file i) c s.1 s.2
    (o.1, after (env i) (file i) c s.1 s.2, o.2.shared (file i))

/-- The clients before the first step. -/
def clients {I α : Type} (client : I → Client) (t : OpenFile) (script : I → Script α) :
    Crowd I OsCall OsCall.Reply Fault Part OpenFile α :=
  ⟨t, fun i => ⟨client i, []⟩, script⟩

-- ---------------------------------------------------------------------------
-- What a client relies on
-- ---------------------------------------------------------------------------

/-- The operations of a client: it leaves the shared handle alone, and makes its writes
in append mode. -/
inductive Allowed (file : Nat) (c : OsCall) (l : Part) : Prop where
  | opens {access : Access} (kind : c.kind = .opens access) (opened : file < l.client.opened)
  | seeks {h offset : Nat} {access : Access} (kind : c.kind = .seeks h (.start offset))
    (isOpen : l.client.HasOpen file h access)
  | reads {h : Nat} {bufs : List IoSliceMut} (kind : c.kind = .reads h bufs)
    (isOpen : l.client.HasOpen file h .read)
  | writes {h : Nat} {bufs : List IoSlice} (kind : c.kind = .writes h bufs)
    (isOpen : l.client.HasOpen file h .append)

def logRules (env : Env) (file : Nat) (hd : Handle) : Rules OsCall OsCall.Reply Part where
  Pre := Allowed file
  Step c l r l' := ∃ content, r = (act env file c l ⟨content, hd⟩).1 ∧
    l' = after env file c l ⟨content, hd⟩

-- ---------------------------------------------------------------------------
-- Single operations
-- ---------------------------------------------------------------------------

section

variable (env : Env) {file h : Nat} {hd : Handle} {access : Access} {c : OsCall}
  {bufs : List Slice} {w : World} {o : Result Nat × World}

theorem entry_opens (hKind : c.kind = .opens access) (r : Result Nat) :
    entry w c r = .wrote [] := by
  rw [entry, hKind]

theorem entry_seeks {pos : SeekFrom} (hKind : c.kind = .seeks h pos) (r : Result Nat) :
    entry w c r = .wrote [] := by
  rw [entry, hKind]

theorem entry_reads {d : List UInt8} (hKind : c.kind = .reads h bufs)
    (hReads : Reads file hd h bufs d w o) : entry w c o.1 = .saw (w.handles h).pos d := by
  have hMoved : moved o.1 = d.length := by
    rcases hReads.result with hr | ⟨hr, rfl⟩
    · rw [hr]
      rfl
    · rw [hr]
      rfl
  rw [entry, hKind, hMoved]
  exact congrArg _ hReads.there.symm

theorem entry_writes {start : Option Nat} {n : Nat} (hKind : c.kind = .writes h bufs)
    (hWrites : Writes file hd h access start bufs n w o) :
    entry w c o.1 = .wrote ((w.mem.gather bufs).take n) := by
  have hMoved : moved o.1 = n := by
    rcases hWrites.result with hr | ⟨⟨f, hr⟩, rfl⟩
    · rw [hr]
      rfl
    · rw [hr]
      rfl
  rw [entry, hKind, hMoved]

variable {l : Part} {t : OpenFile}

/-- **An operation of a client** leaves the shared handle where it was, and the file with
what it enters. -/
theorem act_leaves (hAllowed : Allowed file c l) (t : OpenFile) :
    (act env file c l t).2.handles file = t.handle ∧
      (act env file c l t).2.content =
        t.content ++ (entry (l.client.world file t) c (act env file c l t).1).added ∧
      (entry (l.client.world file t) c (act env file c l t).1).Agrees
        (act env file c l t).2.content := by
  unfold act
  cases hAllowed with
  | opens kind opened =>
    have hOpens := handle_opens env kind (l.client.world_own (t := t) opened)
    rw [entry_opens kind, hOpens.content]
    exact ⟨hOpens.own.handle, (List.append_nil _).symm, trivial⟩
  | seeks kind isOpen =>
    have hSeeks := handle_seeks env kind (isOpen.aside (t := t))
    rw [entry_seeks kind, hSeeks.content]
    exact ⟨hSeeks.aside.own.handle, (List.append_nil _).symm, trivial⟩
  | reads kind isOpen =>
    obtain ⟨d, hReads⟩ := handle_reads env kind (isOpen.aside (t := t))
    rw [entry_reads kind hReads, hReads.content]
    refine ⟨hReads.aside.own.handle, (List.append_nil _).symm, ?_⟩
    rw [hReads.there]
    exact List.take_prefix _ _
  | writes kind isOpen =>
    obtain ⟨n, hWrites⟩ := handle_writes env kind (isOpen.aside (t := t))
    rw [entry_writes kind hWrites]
    exact ⟨hWrites.aside.own.handle, hWrites.content, trivial⟩

variable {I : Type} (env : I → Env) (file : I → Nat) (hd : Handle)

/-- **The operations of all clients** enter what they do into the ledgers. -/
theorem acts_logs :
    Logs (acts env file) (fun i => logRules (env i) (file i) hd) (fun t => t.handle = hd)
      Part.ledger OpenFile.content where
  step i c own t hHandle _ := by
    subst hHandle
    exact ⟨t.content, rfl, rfl⟩
  keeps i c own t hHandle hPre := (act_leaves (env i) hPre t).1.trans hHandle
  enters i c own t _ hPre := ⟨_, rfl, (act_leaves (env i) hPre t).2⟩

end

-- ---------------------------------------------------------------------------
-- Calls of one client
-- ---------------------------------------------------------------------------

/-- A client has neither added to the file nor read it. -/
def Idle (l l' : Part) : Prop :=
  l'.client.mem = l.client.mem ∧ ∃ es, l'.ledger = l.ledger ++ es ∧ added es = []

theorem Idle.trans {l₁ l₂ l₃ : Part} (h : Idle l₁ l₂) (h' : Idle l₂ l₃) : Idle l₁ l₃ := by
  obtain ⟨hMem, es, hLedger, hNone⟩ := h
  obtain ⟨hMem', es', hLedger', hNone'⟩ := h'
  refine ⟨hMem'.trans hMem, es ++ es', by rw [hLedger', hLedger, List.append_assoc], ?_⟩
  rw [added_append, hNone, hNone']
  rfl

def books : Books Part := ⟨fun l => l.client.mem, Part.ledger⟩

section

variable {env : Env} {file h : Nat} {hd : Handle} {access : Access} {c : OsCall} {l : Part}
  {offset : Nat} {bufs : List Slice} {addrs : List Nat}

theorem opens_safe (hKind : c.kind = .opens access) (hOpened : file < l.client.opened) :
    Script.Safe (logRules env file hd) (fun r l' => Idle l l' ∧ file < l'.client.opened ∧
      (r = .error interruption ∨ ∃ h, r = .ok h ∧ l'.client.HasOpen file h access ∧
        (l'.client.handles h).pos = 0))
      (call c) l := by
  refine Script.safe_call (.opens hKind hOpened) ?_
  rintro r l' ⟨content, rfl, rfl⟩
  have hOpens := handle_opens env hKind
    (l.client.world_own (t := ⟨content, hd⟩) hOpened)
  refine Script.safe_done ⟨⟨hOpens.mem, _, rfl, ?_⟩, hOpens.own.opened, ?_⟩
  · rw [entry_opens hKind]
    rfl
  · exact hOpens.result.imp id fun ⟨h, hr, hAside, hPos⟩ => ⟨h, hr, hAside.hasOpen, hPos⟩

theorem seeks_safe (hMax : offset ≤ i64Max) (hOpen : l.client.HasOpen file h access) :
    Script.Safe (logRules env file hd) (fun r l' => Idle l l' ∧ l'.client.HasOpen file h access ∧
      (r = .error interruption ∨ r = .ok offset ∧ (l'.client.handles h).pos = offset))
      (call (.seek h (.start offset))) l := by
  refine Script.safe_call (.seeks rfl hOpen) ?_
  rintro r l' ⟨content, rfl, rfl⟩
  have hSeeks := handle_seeks env (c := .seek h (.start offset)) rfl
    (hOpen.aside (t := ⟨content, hd⟩))
  refine Script.safe_done ⟨⟨hSeeks.mem, _, rfl, rfl⟩, hSeeks.aside.hasOpen, ?_⟩
  have hResult := hSeeks.result
  rw [if_pos hMax] at hResult
  exact hResult.imp id fun ⟨hr, hPos⟩ => ⟨hr, hPos hMax⟩

theorem u32Max_le : u32Max ≤ isizeMax := by decide

/-- One read, as the file is at the position. -/
theorem reads_safe (hKind : c.kind = .reads h bufs) (hOpen : l.client.HasOpen file h .read)
    (hPos : (l.client.handles h).pos = offset) :
    Script.Safe (logRules env file hd) (books.Sees (cells bufs) offset
      (fun pos l' => l'.client.HasOpen file h .read ∧ (l'.client.handles h).pos = pos) l)
      (call c) l := by
  refine Script.safe_call (.reads hKind hOpen) ?_
  rintro r l' ⟨content, rfl, rfl⟩
  obtain ⟨d, hReads⟩ := handle_reads env hKind (hOpen.aside (t := ⟨content, hd⟩))
  have hAt : ((l.client.world file ⟨content, hd⟩).handles h).pos = offset := by
    rw [Client.world_handles hOpen.ne, hPos]
  refine Script.safe_done ⟨d, hReads.mem, ?_, ?_, hReads.le_max.trans u32Max_le,
    ⟨hReads.aside.hasOpen, ?_⟩, hReads.result.imp id fun ⟨hr, h0⟩ => ⟨⟨_, hr⟩, h0⟩⟩
  · show l.ledger ++ [_] = l.ledger ++ [_]
    rw [act, entry_reads hKind hReads, hAt]
  · rw [length_cells]
    exact hReads.le
  · rw [← hAt]
    exact hReads.pos

/-- One write, through a handle that appends. -/
theorem writes_safe (hKind : c.kind = .writes h bufs) (hOpen : l.client.HasOpen file h .append) :
    Script.Safe (logRules env file hd) (fun r l' => books.Adds (cells bufs) l r l' ∧
      file < l'.client.opened) (call c) l := by
  refine Script.safe_call (.writes hKind hOpen) ?_
  rintro r l' ⟨content, rfl, rfl⟩
  obtain ⟨n, hWrites⟩ := handle_writes env hKind (hOpen.aside (t := ⟨content, hd⟩))
  refine Script.safe_done ⟨⟨n, _, hWrites.mem, rfl, ?_, ?_, hWrites.le_max.trans u32Max_le,
    hWrites.result⟩, hWrites.aside.own.opened⟩
  · rw [act, entry_writes hKind hWrites]
    exact added_singleton _
  · rw [length_cells]
    exact hWrites.le

end

-- ---------------------------------------------------------------------------
-- Methods
-- ---------------------------------------------------------------------------

section

variable {env : Env} {file : Nat} {hd : Handle} {l l' l₀ : Part} {r : Result Nat} {offset : Nat}
  {bufs : List Slice} {addrs : List Nat}

theorem Idle.adds (hIdle : Idle l l') {f : Fault} (hr : r = .error f) :
    books.Adds addrs l r l' := by
  obtain ⟨hMem, es, hLedger, hNone⟩ := hIdle
  exact ⟨0, es, hMem, hLedger, hNone, Nat.zero_le _, Nat.zero_le _, .inr ⟨⟨f, hr⟩, rfl⟩⟩

theorem Idle.adds_trans (hIdle : Idle l₀ l) (hAdds : books.Adds addrs l r l') :
    books.Adds addrs l₀ r l' := by
  obtain ⟨hMem, es, hLedger, hNone⟩ := hIdle
  obtain ⟨n, es', hMem', hLedger', hData, hLe, hMax, hEnd⟩ := hAdds
  replace hMem : books.mem l = books.mem l₀ := hMem
  replace hLedger : books.ledger l = books.ledger l₀ ++ es := hLedger
  refine ⟨n, es ++ es', hMem'.trans hMem, by rw [hLedger', hLedger, List.append_assoc], ?_, hLe,
    hMax, hEnd⟩
  rw [added_append, hNone, hData, hMem]
  rfl

/-- **One append**: a handle is opened for it. -/
theorem append_adds {c : Nat → OsCall} (hKind : ∀ h, (c h).kind = .writes h bufs)
    (hOpened : file < l.client.opened) :
    Script.Safe (logRules env file hd)
      (fun r l' => books.Adds (cells bufs) l r l' ∧ file < l'.client.opened)
      (call (.reopenAppend file) >>= fun h => call (c h)) l := by
  refine (opens_safe (c := .reopenAppend file) rfl hOpened).bind ?_ ?_
  · rintro h l₁ ⟨hIdle, -, hOk⟩
    obtain ⟨_, hEq, hOpen, -⟩ := hOk.resolve_left (by simp)
    obtain rfl := Except.ok.inj hEq
    exact (writes_safe (hKind h) hOpen).mono fun r l' hAdds =>
      ⟨hIdle.adds_trans hAdds.1, hAdds.2⟩
  · rintro f l₁ ⟨hIdle, hOpened₁, -⟩
    exact ⟨hIdle.adds rfl, hOpened₁⟩

theorem Idle.saw (hIdle : Idle l₀ l) {r : Result Unit} {es : List (Entry UInt8)}
    (hLedger : l'.ledger = l.ledger ++ es)
    (hSaw : Op.Saw addrs offset l.client.mem r es l'.client.mem) :
    ∃ es, l'.ledger = l₀.ledger ++ es ∧
      Op.Saw addrs offset l₀.client.mem r es l'.client.mem := by
  obtain ⟨hMem, es₀, hLedger₀, hNone₀⟩ := hIdle
  obtain ⟨hNone, d, hLe, hStore, hShows, hAll⟩ := hSaw
  refine ⟨es₀ ++ es, by rw [hLedger, hLedger₀, List.append_assoc], ?_, d, hLe, ?_, ?_, hAll⟩
  · rw [added_append, hNone₀, hNone]
    rfl
  · rw [hStore, hMem]
  · exact hShows.mono fun e he => List.mem_append_right es₀ he

/-- **A loop of reads**, through a handle of its own. -/
theorem reads_served {S : Type} {b : BufferLoop S} {c : Nat → S → OsCall} {op : Op} (s₀ : S)
    (hKind : ∀ h s, ∃ bufs, (c h s).kind = .reads h bufs ∧ cells bufs = b.addrs s)
    (hOp : op.filled = some (b.addrs s₀, offset)) (hMax : offset ≤ i64Max)
    (hNone : b.offset s₀ = none) (hReady : b.Ready s₀)
    (hOpened : file < l₀.client.opened) :
    Script.Safe (logRules env file hd) (fun r l => ∃ reply, r = .ok reply ∧
      books.Served op l₀ reply l ∧ file < l.client.opened)
      (replied (do
        let reopened ← retried (call (.reopen file))
        let _ ← retried (call (.seek reopened (.start offset)))
        b.transfer.script (fun s => call (c reopened s)) s₀) .unit) l₀ := by
  refine served_of_saw hOp (positioned_safe Part.client (Idle l₀)
    (fun l hIdle hOpened' => (opens_safe rfl hOpened').mono
      fun r l' hOpens => ⟨hIdle.trans hOpens.1, hOpens.2.1, hOpens.2.2⟩)
    (fun h l hIdle hOpen => (seeks_safe hMax hOpen).mono
      fun r l' hSeeks => ⟨hIdle.trans hSeeks.1, hSeeks.2⟩)
    (fun h l hIdle hOpen hPos => ?_) ⟨rfl, [], by simp, rfl⟩ hOpened)
  refine (sees_safe books
    (fun pos l => l.client.HasOpen file h .read ∧ (l.client.handles h).pos = pos)
    s₀ (BufferLoop.offsetFits_none hNone) hReady ?_ ⟨hOpen, hPos⟩).mono ?_
  · rintro k s l - - ⟨hOpen', hPos'⟩
    obtain ⟨bufs, hReads, hCells⟩ := hKind h s
    rw [← hCells]
    exact reads_safe hReads hOpen' hPos'
  · rintro r l' ⟨⟨pos, hOpen', -⟩, es, hLedger, hSaw⟩
    exact ⟨hOpen'.opened, hIdle.saw hLedger hSaw⟩

/-- **A loop of appends.** -/
theorem appends_served {S : Type} {b : BufferLoop S} {c : S → Nat → OsCall} {op : Op} (s₀ : S)
    (hKind : ∀ s, ∃ bufs, (∀ h, (c s h).kind = .writes h bufs) ∧ cells bufs = b.addrs s)
    (hOp : op.appended = some (b.addrs s₀)) (hZero : b.zero = none)
    (hNone : b.offset s₀ = none) (hReady : b.Ready s₀)
    (hOpened : file < l₀.client.opened) :
    Script.Safe (logRules env file hd) (fun r l => ∃ reply, r = .ok reply ∧
      books.Served op l₀ reply l ∧ file < l.client.opened)
      (replied (b.transfer.script
        (fun s => call (.reopenAppend file) >>= fun h => call (c s h)) s₀) .unit) l₀ := by
  refine served_of_added hOp (adds_safe books (fun l => file < l.client.opened) s₀ hZero
    (BufferLoop.offsetFits_none hNone) hReady (fun s l _ hOpened' => ?_) hOpened)
  obtain ⟨bufs, hWrites, hCells⟩ := hKind s
  rw [← hCells]
  exact append_adds hWrites hOpened'

/-- **A call on the log**, whatever the others do to the file meanwhile. -/
theorem script_served (p : Profile) {op : Op} (hOp : op.OnLog) (hOpened : file < l₀.client.opened) :
    Script.Safe (logRules env file hd) (fun r l => ∃ reply, r = .ok reply ∧
      books.Served op l₀ reply l ∧ file < l.client.opened) (script p file op) l₀ := by
  rcases hOp with ⟨addrs, hAppended⟩ | ⟨addrs, offset, hFilled, hFits⟩
  · cases op with
    | appendAll buf =>
      exact appends_served (b := FileIoExt.Default.appendAll.bufferLoop)
        (c := fun buf h => .write h buf) buf
        (fun buf => ⟨[buf], fun _ => rfl, cells_singleton buf⟩) rfl rfl rfl trivial hOpened
    | appendAllVectored bufs =>
      exact appends_served (b := FileIoExt.Default.appendAllVectored.bufferLoop p)
        (c := fun bufs h => .writeVectored h bufs) bufs
        (fun bufs => ⟨bufs, fun _ => rfl, rfl⟩) rfl rfl rfl trivial hOpened
    | _ => exact absurd hAppended (by simp [Op.appended])
  · cases op with
    | readExactAt buf o =>
      obtain ⟨rfl, rfl⟩ := Prod.mk.inj (Option.some.inj hFilled)
      exact reads_served (b := RustStd.readExact.bufferLoop) (c := fun h buf => .read h buf) buf
        (fun h buf => ⟨[buf], rfl, cells_singleton buf⟩) rfl (by omega) rfl trivial hOpened
    | readExactVectoredAt bufs o =>
      obtain ⟨rfl, rfl⟩ := Prod.mk.inj (Option.some.inj hFilled)
      have hCells := cells_skipLeadingEmpties bufs
      exact reads_served (b := IoExt.Default.readExactVectored.bufferLoop p)
        (c := fun h bufs => .readVectored h bufs) (skipLeadingEmpties bufs)
        (fun h bufs => ⟨bufs, rfl, rfl⟩)
        (congrArg (fun addrs => some (addrs, o)) hCells.symm) (by omega) rfl
        (headFull_skipLeadingEmpties bufs) hOpened
    | _ => exact absurd hFilled (by simp [Op.filled])

end

/-- **A log on Windows.** Any number of clients, who share a handle of one file, append to
the file and read it. At every point of every schedule of their operations the shared
handle is where it was, the file is its initial content followed by the chunks written,
and at every later point it is the same with more behind it. Of a client that is through,
the chunks are its data, call by call, and what its reads have filled its buffers with is
in the file where it was asked for. -/
theorem log_of_one_handle {I : Type} [DecidableEq I] (p : Profile) (env : I → Env)
    (file : I → Nat) (client : I → Client) (t : OpenFile)
    (hOpened : ∀ i, file i < (client i).opened) (sessions : I → List Op)
    (hOnLog : ∀ i, ∀ op ∈ sessions i, op.OnLog)
    {w w' : Crowd I OsCall OsCall.Reply Fault Part OpenFile (List Reply)}
    (hReaches : Crowd.Reaches (acts env file)
      (clients client t fun i => sessionScript p (file i) (sessions i)) w)
    (hLater : Crowd.Reaches (acts env file) w w') :
    w.shared.handle = t.handle ∧ w.shared.content <+: w'.shared.content ∧
    ∃ chunks : List (I × List UInt8), w.shared.content = t.content ++ chunks.flatMap Prod.snd ∧
      ∀ i r, (w.progress i).result = some r → ∃ rs, r = .ok rs ∧
        LogRun (fun offset d => d <+: w.shared.content.drop offset) (sessions i)
          (client i).mem rs ((chunks.filter fun x => x.1 = i).flatMap Prod.snd)
          (w.own i).client.mem := by
  have hLogs := acts_logs env file t.handle
  have hStart : Crowd.Inv (fun i => logRules (env i) (file i) t.handle)
      (fun own s => s.handle = t.handle ∧ Ledger t.content Part.ledger OpenFile.content own s)
      (fun i r own => ∃ rs, r = .ok rs ∧
        books.Made (sessions i) ⟨client i, []⟩ rs own ∧ file i < own.client.opened)
      (clients client t fun i => sessionScript p (file i) (sessions i)) :=
    ⟨⟨rfl, [], fun _ => rfl, (List.append_nil t.content).symm, by simp⟩,
      fun i => each_served (fun own : Part => file i < own.client.opened)
        (fun op hop _ hOpened' => script_served p (hOnLog i op hop) hOpened') (hOpened i)⟩
  have hInv := (hLogs.guarded t.content).reaches hReaches hStart
  obtain ⟨hHandle, hLedger⟩ := hInv.whole
  obtain ⟨chunks, hContent, hChunks⟩ := hLedger.chunks
  refine ⟨hHandle, hLogs.grows hInv hLater, chunks, hContent, fun i r hr => ?_⟩
  have hClient := hInv.client i
  rw [Script.eq_done_of_result hr] at hClient
  obtain ⟨rs, rfl, ⟨es, hEntered, hRun⟩, -⟩ := hClient.post
  replace hEntered : (w.own i).ledger = es := hEntered
  refine ⟨rs, rfl, ?_⟩
  rw [hChunks i, hEntered]
  exact LogRun.mono (fun offset d hShows => hLedger.shows (i := i) (hEntered ▸ hShows)) hRun

/-- A client that appends three bytes, two at a time, and one that reads four bytes
meanwhile and is interrupted; the handle is `1` for one of them and `0` for the other. -/
theorem log_of_one_handle_two :
    ∃ w : Crowd (Fin 2) OsCall OsCall.Reply Fault Part OpenFile (List Reply),
      (∀ i, (w.progress i).result = some (.ok [.unit (.ok ())])) ∧
      w.shared.content = [1, 2, 3, 10, 11, 12] ∧
      [30, 31, 32, 33].map (w.own 1).client.mem = [2, 3, 10, 11] ∧
      w.shared.handle = ⟨2, .readWrite⟩ ∧ w.shared.content <+: w.shared.content ∧
      ∃ chunks : List (Fin 2 × List UInt8),
        w.shared.content = [1, 2, 3] ++ chunks.flatMap Prod.snd ∧
        ∀ i r, (w.progress i).result = some r → ∃ rs, r = .ok rs ∧
          LogRun (fun offset d => d <+: w.shared.content.drop offset)
            (if i = 0 then [.appendAll ⟨10, 3, by decide⟩]
              else [.readExactVectoredAt [⟨20, 0, by decide⟩, ⟨30, 4, by decide⟩] 1])
            UInt8.ofNat rs ((chunks.filter fun x => x.1 = i).flatMap Prod.snd)
            (w.own i).client.mem := by
  refine ⟨_, ?_, ?_, ?_, log_of_one_handle .debug (fun _ : Fin 2 => ⟨fun n => n == 2, fun _ => 2⟩)
    (fun i => if i = 0 then 1 else 0)
    (fun _ => ⟨UInt8.ofNat, fun _ => ⟨0, .readWrite⟩, 2, 0, 0⟩)
    ⟨[1, 2, 3], ⟨2, .readWrite⟩⟩ ?_
    (fun i => if i = 0 then [.appendAll ⟨10, 3, by decide⟩]
      else [.readExactVectoredAt [⟨20, 0, by decide⟩, ⟨30, 4, by decide⟩] 1]) ?_
    (Crowd.reaches_run _ [0, 0, 0, 1, 1, 1, 1, 1, 1, 1, 1, 1, 1, 0, 0, 0, 0, 0, 0, 0, 0, 0, 0,
      1, 1, 1, 1, 1, 1] _)
    .refl⟩
  · decide
  · decide
  · decide
  · decide
  · intro i op hop
    by_cases hi : i = 0
    · simp only [hi, if_true, List.mem_singleton] at hop
      subst hop
      exact .inl ⟨_, rfl⟩
    · simp only [hi, if_false, List.mem_singleton] at hop
      subst hop
      exact .inr ⟨_, _, rfl, by decide⟩

end Log

end SystemInterface.Windows
