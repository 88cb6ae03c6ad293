import SystemInterface.Model.Log
import SystemInterface.Unix.Paths
import SystemInterface.Unix.Scripts

/-!
# SystemInterface — a log on Unix

Any number of clients append to one file and read it, each by an open file description
of its own. They take turns system call by system call, and the kernel answers each
call as it likes, short of refusing to put a description back.

The readers may come between the calls of an append, and the writers between the calls
of a read. All of them see one file that only grows.

Main result:

* `shared_log` — the file is its initial content with what the clients have appended,
  and what any of them has read is in it ever after.
-/

namespace SystemInterface.Unix

open Effect

/-- The buffers that a call fills, and the offset it reads at. -/
def SysCall.readsAt : SysCall → Option (List IoSliceMut × Nat)
  | pread buf offset => some ([buf], offset)
  | preadv bufs offset => some (bufs, offset)
  | _ => none

namespace Log

-- ---------------------------------------------------------------------------
-- The system
-- ---------------------------------------------------------------------------

/-- What belongs to one client: its memory, its description and the log of its calls,
and what it has added to the file and seen of it. -/
structure Own where
  mem : Memory
  desc : Desc
  log : List Event
  ledger : List (Entry UInt8)

/-- What a call that answers `r` adds to the file, or sees of it. -/
def entry (mem : Memory) (content : List UInt8) (c : SysCall) (r : c.Reply) : Entry UInt8 :=
  match c.readsAt, r.map c.moved with
  | some (_, offset), .ok n => .saw offset ((content.drop offset).take n)
  | some (_, offset), .error _ => .saw offset []
  | none, o => .wrote (Event.bytes mem ⟨c, o⟩)

/-- A system call of client `i`; `env i` says how the kernel answers the calls of
that client, in view of those it has answered. -/
def acts {I : Type} (env : I → Env) : Acts I SysCall SysCall.Reply Own (List UInt8) :=
  fun i c s =>
    let (l, content) := s
    let (r, m) := Machine.step ⟨l.mem, content, l.desc⟩ c (env i l.log c)
    (r, ⟨m.mem, m.desc, l.log ++ [⟨c, r.map c.moved⟩], l.ledger ++ [entry l.mem content c r]⟩,
      m.content)

/-- The clients before the first step. -/
def clients {I α : Type} (mem : I → Memory) (content : List UInt8) (desc : I → Desc)
    (script : I → Script α) : Crowd I SysCall SysCall.Reply Fault Own (List UInt8) α :=
  ⟨content, fun i => ⟨mem i, desc i, [], []⟩, script⟩

-- ---------------------------------------------------------------------------
-- What a client relies on
-- ---------------------------------------------------------------------------

/-- A call that reads, as its client finds it. -/
def Reads (bufs : List IoSliceMut) (offset : Nat) (o : Except Errno Nat) (l l' : Own) : Prop :=
  ∃ d, l'.mem = l.mem.scatter bufs d ∧ l'.desc = l.desc ∧
    l'.ledger = l.ledger ++ [.saw offset d] ∧ d.length ≤ totalLen bufs ∧ d.length ≤ isizeMax ∧
    (o = .ok d.length ∨ (∃ e, o = .error e) ∧ d = [])

/-- A call that may append, as its client finds it. -/
def Appends (c : SysCall) (l : Own) (r : c.Reply) (l' : Own) : Prop :=
  l'.mem = l.mem ∧ Local.Step l.mem c ⟨l.desc, l.log⟩ r ⟨l'.desc, l'.log⟩ ∧
    l'.ledger = l.ledger ++ [.wrote (Event.bytes l.mem ⟨c, r.map c.moved⟩)]

/-- A client reads at offsets, and makes its writes in append mode. -/
def logRules : Rules SysCall SysCall.Reply Own where
  Pre c l := c.readsAt ≠ none ∨ c.Appends l.desc
  Step c l r l' := match c.readsAt with
    | some (bufs, offset) => Reads bufs offset (r.map c.moved) l l'
    | none => Appends c l r l'

section

variable {c : SysCall} {l l' : Own} {r : c.Reply}

theorem logRules_reads {bufs : List IoSliceMut} {offset : Nat}
    (h : c.readsAt = some (bufs, offset)) :
    logRules.Step c l r l' ↔ Reads bufs offset (r.map c.moved) l l' := by
  simp only [logRules, h]

theorem logRules_appends (h : c.readsAt = none) :
    logRules.Step c l r l' ↔ Appends c l r l' := by
  simp only [logRules, h]

end

theorem readsAt_of_appends {c : SysCall} {d : Desc} (h : c.Appends d) : c.readsAt = none := by
  cases c with
  | pread buf offset => exact h.elim
  | preadv bufs offset => exact h.elim
  | _ => rfl

/-- What a read makes of the machine. -/
theorem readAt_reads (m : Machine) (bufs : List IoSliceMut) (offset count : Nat) :
    ∃ n, m.readAt bufs offset count =
        (n, { m with mem := m.mem.scatter bufs ((m.content.drop offset).take n) }) ∧
      ((m.content.drop offset).take n).length = n ∧ n ≤ totalLen bufs ∧ n ≤ isizeMax := by
  have hLe := shortCount_le count
    (min (totalLen bufs) (min (m.content.drop offset).length maxRwCount))
  have hMax : maxRwCount ≤ isizeMax := by decide
  refine ⟨_, rfl, ?_, by omega, by omega⟩
  rw [List.length_take]
  omega

section

variable {I : Type} (env : I → Env)

/-- **A read** leaves the file alone, and sees what is there. -/
theorem acts_reads (i : I) {c : SysCall} {bufs : List IoSliceMut} {offset : Nat}
    (hReads : c.readsAt = some (bufs, offset)) (l : Own) (content : List UInt8) :
    Reads bufs offset ((acts env i c (l, content)).1.map c.moved) l
        (acts env i c (l, content)).2.1 ∧
      (acts env i c (l, content)).2.2 = content := by
  simp only [acts]
  cases env i l.log c with
  | fail e =>
    refine ⟨⟨[], (store_nil_right l.mem _).symm, rfl, ?_, by simp, by simp, .inr ⟨⟨e, rfl⟩, rfl⟩⟩,
      rfl⟩
    simp only [Machine.step, entry, hReads, Except.map]
  | go count =>
    obtain ⟨n, hRead, hLen, hTotal, hMax⟩ :=
      readAt_reads ⟨l.mem, content, l.desc⟩ bufs offset count
    refine ⟨⟨(content.drop offset).take n, ?_⟩, ?_⟩
    · cases c with
      | pread buf o =>
        cases hReads
        simp only [Machine.step, hRead]
        exact ⟨rfl, rfl, rfl, by rw [hLen]; exact hTotal, by rw [hLen]; exact hMax,
          .inl (by rw [hLen]; rfl)⟩
      | preadv bufs' o =>
        cases hReads
        simp only [Machine.step, hRead]
        exact ⟨rfl, rfl, rfl, by rw [hLen]; exact hTotal, by rw [hLen]; exact hMax,
          .inl (by rw [hLen]; rfl)⟩
      | _ => cases hReads
    · cases c with
      | pread buf o => rfl
      | preadv bufs' o => rfl
      | _ => cases hReads

variable {env} (hRestore : ∀ i, (env i).RestoreSucceeds)
include hRestore

/-- **The calls of all clients** enter what they do into the ledgers. -/
theorem acts_logs :
    Logs (acts env) (fun _ => logRules) (fun _ => True) Own.ledger id where
  step i c own t _ hPre := by
    cases hReads : c.readsAt with
    | some target => exact (logRules_reads hReads).mpr (acts_reads env i hReads (own i) t).1
    | none =>
      have hAppends : c.Appends (own i).desc := hPre.resolve_left (fun h => h hReads)
      refine (logRules_appends hReads).mpr
        ⟨(step_appends (m := ⟨(own i).mem, t, (own i).desc⟩) hAppends _).2,
        ⟨t, env i (own i).log c, hRestore i (own i).log c, rfl, rfl⟩, ?_⟩
      simp only [acts, entry, hReads]
  keeps _ _ _ _ _ _ := trivial
  enters i c own t _ hPre := by
    refine ⟨entry (own i).mem t c (acts env i c (own i, t)).1, rfl, ?_⟩
    cases hReads : c.readsAt with
    | some target =>
      have hSame := (acts_reads env i hReads (own i) t).2
      simp only [id] at hSame ⊢
      rw [hSame, entry, hReads]
      split
      · exact ⟨(List.append_nil t).symm, List.take_prefix _ _⟩
      · exact ⟨(List.append_nil t).symm, List.nil_prefix⟩
      · next h => exact absurd h (by simp)
    | none =>
      have hAppends : c.Appends (own i).desc := hPre.resolve_left (fun h => h hReads)
      have hStep := (step_appends (m := ⟨(own i).mem, t, (own i).desc⟩) hAppends
        (env i (own i).log c)).1
      rw [entry, hReads]
      exact ⟨hStep, trivial⟩

end

-- ---------------------------------------------------------------------------
-- Calls that read
-- ---------------------------------------------------------------------------

/-- How a client keeps its memory and its ledger. -/
def books : Books Own := ⟨Own.mem, Own.ledger⟩

section

variable {S : Type} {l : BufferLoop S} {call : S → Method Nat} {l₀ own : Own} {desc : Desc}

/-- A call of the loop sees the file at the offset of the loop. -/
def SeesAt (l : BufferLoop S) (call : S → Method Nat) : Prop :=
  ∀ s offset own desc, l.offset s = some offset → own.desc = desc → (call s).Holds logRules
    (books.Sees (l.addrs s) offset (fun _ own => own.desc = desc) own) own

theorem seesAt_of_call {c : S → SysCall} {f : (s : S) → (c s).Reply → Method Nat}
    (hOk : ∀ s (v : (c s).Value), f s (.ok v) = Prog.ofExcept (.ok ((c s).moved v)))
    (hError : ∀ s e, ∃ fault, f s (.error e) = Prog.ofExcept (.error fault))
    (hReads : ∀ s offset, l.offset s = some offset → ∃ bufs,
      (c s).readsAt = some (bufs, offset) ∧ cells bufs = (l.addrs s).take (totalLen bufs)) :
    SeesAt l fun s => sys (c s) >>= f s := by
  intro s offset own desc hOffset hDesc₀
  obtain ⟨bufs, hAt, hWindow⟩ := hReads s offset hOffset
  have hLe : totalLen bufs ≤ (l.addrs s).length := by
    rw [← length_cells, hWindow]
    exact List.length_take_le' ..
  refine Prog.holds_op (.inl (by rw [hAt]; simp)) fun r own' hStep => ?_
  obtain ⟨d, hMem, hDesc, hLedger, hTotal, hMax, hEnd⟩ := (logRules_reads hAt).mp hStep
  have hStore : own'.mem = store own.mem (l.addrs s) d := by
    rw [hMem, Memory.scatter, hWindow]
    exact store_take_addrs _ _ hTotal
  cases r with
  | error e =>
    obtain ⟨fault, hFault⟩ := hError s e
    have hNone : d = [] := (hEnd.resolve_left (by simp [Except.map])).2
    rw [hFault]
    exact ⟨d, hStore, hLedger, Nat.le_trans hTotal hLe, hMax, hDesc.trans hDesc₀,
      .inr ⟨⟨fault, rfl⟩, hNone⟩⟩
  | ok v =>
    have hMoved : (c s).moved v = d.length :=
      Except.ok.inj (hEnd.resolve_right fun h => absurd h.1 (by simp [Except.map]))
    rw [hOk, hMoved]
    exact ⟨d, hStore, hLedger, Nat.le_trans hTotal hLe, hMax, hDesc.trans hDesc₀, .inl rfl⟩

/-- A loop that reads, as a call on the log. -/
theorem reads_served {op : Op} {offset : Nat} (s₀ : S) (hSees : SeesAt l call)
    (hOp : op.filled = some (l.addrs s₀, offset)) (hOffset : l.offset s₀ = some offset)
    (hFits : offset + (l.addrs s₀).length ≤ i64Max) (hReady : l.Ready s₀)
    (hDesc : l₀.desc = desc) :
    Script.Safe logRules (fun r own => ∃ reply, r = .ok reply ∧
      books.Served op l₀ reply own ∧ own.desc = desc)
      (replied (l.transfer.script (fun s => .ofProg (call s)) s₀) .unit) l₀ := by
  have hWord : i64Max < 2 ^ 64 := by decide
  have hFits' : l.OffsetFits s₀ := BufferLoop.offsetFits_some hOffset (by omega)
  refine served_of_saw hOp (Script.Safe.mono (fun r own ⟨⟨_, hOwn⟩, h⟩ => ⟨hOwn, h⟩)
    (sees_safe books (fun _ own => own.desc = desc) s₀ hFits' hReady ?_ hDesc))
  intro k s own hAt _ hDesc'
  have hOffset' : l.offset s = some (offset + k) := by rw [hAt.offset_eq, hOffset]; rfl
  exact Script.safe_ofProg (hSees s (offset + k) own desc hOffset' hDesc')

end

theorem seesAt_readAt (p : Profile) :
    SeesAt (RustStd.readExactAt.bufferLoop p) fun s => readAt s.1 s.2 :=
  seesAt_of_call (c := fun s : Slice × Nat => .pread s.1 s.2) (fun _ _ => rfl)
    (fun _ e => ⟨.err (.os e), rfl⟩) fun s offset hOffset => by
      obtain rfl : s.2 = offset := Option.some.inj hOffset
      refine ⟨[s.1], rfl, ?_⟩
      show cells [s.1] = s.1.addrs.take _
      rw [cells_singleton, List.take_of_length_le (by simp)]

theorem seesAt_readVectoredAt (p : Profile) :
    SeesAt (FileIoExt.Default.readExactVectoredAt.bufferLoop p)
      fun s => readVectoredAt s.1 s.2 :=
  seesAt_of_call (c := fun s : List IoSliceMut × Nat => .preadv (s.1.take iovMax) s.2)
    (fun _ _ => rfl) (fun _ e => ⟨.err (.os e), rfl⟩) fun s offset hOffset => by
      obtain rfl : s.2 = offset := Option.some.inj hOffset
      exact ⟨s.1.take iovMax, rfl, cells_take s.1 iovMax⟩

-- ---------------------------------------------------------------------------
-- Calls that append
-- ---------------------------------------------------------------------------

section

variable {S : Type} {l : BufferLoop S} {call : S → Method Nat} {l₀ own : Own} {desc : Desc}

/-- What its description shows of a client. -/
def Own.part (l : Own) : Local := ⟨l.desc, l.log⟩

/-- The calls since `l₀` are in the ledger, each with the bytes it has written. -/
def Kept (l₀ own : Own) : Prop :=
  own.mem = l₀.mem ∧ ∃ evs, own.log = l₀.log ++ evs ∧
    own.ledger = l₀.ledger ++ evs.map fun ev => .wrote (ev.bytes l₀.mem)

theorem kept_refl (l : Own) : Kept l l := ⟨rfl, [], by simp, by simp⟩

theorem added_map (mem : Memory) (evs : List Event) :
    added (evs.map fun ev => .wrote (ev.bytes mem)) = written mem evs :=
  List.flatMap_map ..

/-- A call of an append is one of a client of the log. -/
theorem appends_kept {c : SysCall} {l l' : Own} {r : c.Reply} (hKept : Kept l₀ l)
    (hAppends : c.Appends l.desc) (hStep : logRules.Step c l r l') :
    (appendRules l₀.mem).Step c l.part r l'.part ∧ Kept l₀ l' := by
  obtain ⟨hMem, hLocal, hLedger⟩ := (logRules_appends (readsAt_of_appends hAppends)).mp hStep
  obtain ⟨hMem₀, evs, hLog₀, hLedger₀⟩ := hKept
  rw [hMem₀] at hLocal hLedger
  have hLog : l'.log = l.log ++ [⟨c, r.map c.moved⟩] := by
    obtain ⟨content, d, -, -, hEq⟩ := hLocal
    exact congrArg Local.log hEq
  refine ⟨hLocal, hMem.trans hMem₀, evs ++ [⟨c, r.map c.moved⟩], ?_, ?_⟩
  · rw [hLog, hLog₀, List.append_assoc]
  · rw [hLedger, hLedger₀, List.map_append, List.append_assoc]
    rfl

/-- **One append**, by either path. -/
theorem AppendLoop.adds (h : AppendLoop l call) {s : S} (hne : l.transfer.isEmpty s = false)
    (hDesc : own.desc = desc) :
    (call s).Holds logRules
      (fun r own' => books.Adds (l.addrs s) own r own' ∧ own'.desc = desc) own := by
  refine (Prog.Holds.along (Q := logRules) Own.part (Kept own)
    (fun c v _ hAppends => Or.inr hAppends)
    (fun c v r v' hKept hAppends hStep => appends_kept hKept hAppends hStep)
    (h.accepted own.mem s own.part hne) (kept_refl own)).mono ?_
  rintro r own' ⟨⟨hDesc', evs, o, hLog, hReply, hAccepted⟩, hMem, evs', hLog', hLedger⟩
  obtain rfl : evs = evs' := List.append_cancel_left (hLog.symm.trans hLog')
  refine ⟨?_, hDesc'.trans hDesc⟩
  cases o with
  | ok n =>
    obtain ⟨hLe, hMax, -, hWritten⟩ := hAccepted
    exact ⟨n, _, hMem, hLedger, (added_map own.mem evs).trans hWritten, hLe, hMax, .inl hReply⟩
  | error e =>
    refine ⟨0, _, hMem, hLedger, (added_map own.mem evs).trans hAccepted.1, Nat.zero_le _,
      Nat.zero_le _, .inr ⟨⟨_, hReply⟩, rfl⟩⟩

/-- A loop that appends, as a call on the log. -/
theorem appends_served {op : Op} (s₀ : S) (h : AppendLoop l call)
    (hOp : op.appended = some (l.addrs s₀)) (hReady : l.Ready s₀) (hDesc : l₀.desc = desc) :
    Script.Safe logRules (fun r own => ∃ reply, r = .ok reply ∧
      books.Served op l₀ reply own ∧ own.desc = desc)
      (replied (l.transfer.script (fun s => .ofProg (call s)) s₀) .unit) l₀ :=
  served_of_added hOp (adds_safe books (fun own => own.desc = desc) s₀ h.zero
    (BufferLoop.offsetFits_none (h.offset s₀)) hReady
    (fun _ _ hne hDesc' => Script.safe_ofProg (AppendLoop.adds h hne hDesc')) hDesc)

end

-- ---------------------------------------------------------------------------
-- Sessions
-- ---------------------------------------------------------------------------

section

variable {l₀ : Own} {desc : Desc}

/-- **A call on the log**, whatever the others do to the file meanwhile. -/
theorem script_served (p : Profile) {op : Op} (hOp : op.OnLog) (hDesc : l₀.desc = desc) :
    Script.Safe logRules (fun r own => ∃ reply, r = .ok reply ∧
      books.Served op l₀ reply own ∧ own.desc = desc) (script p op) l₀ := by
  rcases hOp with ⟨addrs, hAppended⟩ | ⟨addrs, offset, hFilled, hFits⟩
  · cases op with
    | appendAll buf => exact appends_served buf appendAll_loop rfl trivial hDesc
    | appendAllVectored bufs =>
      exact appends_served bufs (appendAllVectored_loop p) rfl trivial hDesc
    | _ => exact absurd hAppended (by simp [Op.appended])
  · cases op with
    | readExactAt buf o =>
      obtain ⟨rfl, rfl⟩ := Prod.mk.inj (Option.some.inj hFilled)
      exact reads_served (buf, o) (seesAt_readAt p) rfl rfl hFits trivial hDesc
    | readExactVectoredAt bufs o =>
      obtain ⟨rfl, rfl⟩ := Prod.mk.inj (Option.some.inj hFilled)
      have hCells := cells_skipLeadingEmpties bufs
      refine reads_served (skipLeadingEmpties bufs, o) (seesAt_readVectoredAt p)
        (congrArg (fun addrs => some (addrs, o)) hCells.symm) rfl ?_
        (headFull_skipLeadingEmpties bufs) hDesc
      show o + (cells (skipLeadingEmpties bufs)).length ≤ i64Max
      rwa [hCells]
    | _ => exact absurd hFilled (by simp [Op.filled])

end

/-- **A log on Unix.** Any number of clients, each with an open file description of its
own of one file, append to it and read it. At every point of every schedule of their
system calls the file is its initial content followed by the chunks written, and at every
later point it is the same with more behind it. A client that is through has its
description back; its chunks are its data, call by call, and what its reads have filled
its buffers with is in the file where it was asked for. -/
theorem shared_log {I : Type} [DecidableEq I] (p : Profile) (env : I → Env)
    (hRestore : ∀ i, (env i).RestoreSucceeds) (mem : I → Memory) (content : List UInt8)
    (desc : I → Desc) (sessions : I → List Op) (hOnLog : ∀ i, ∀ op ∈ sessions i, op.OnLog)
    {w w' : Crowd I SysCall SysCall.Reply Fault Own (List UInt8) (List Reply)}
    (hReaches : Crowd.Reaches (acts env)
      (clients mem content desc fun i => sessionScript p (sessions i)) w)
    (hLater : Crowd.Reaches (acts env) w w') :
    w.shared <+: w'.shared ∧
    ∃ chunks : List (I × List UInt8), w.shared = content ++ chunks.flatMap Prod.snd ∧
      ∀ i r, (w.progress i).result = some r → (w.own i).desc = desc i ∧ ∃ rs, r = .ok rs ∧
        LogRun (fun offset d => d <+: w.shared.drop offset) (sessions i) (mem i) rs
          ((chunks.filter fun x => x.1 = i).flatMap Prod.snd) (w.own i).mem := by
  have hLogs := acts_logs hRestore
  have hStart : Crowd.Inv (fun _ => logRules)
      (fun own t => True ∧ Ledger content Own.ledger id own t)
      (fun i r own => ∃ rs, r = .ok rs ∧
        books.Made (sessions i) ⟨mem i, desc i, [], []⟩ rs own ∧ own.desc = desc i)
      (clients mem content desc fun i => sessionScript p (sessions i)) :=
    ⟨⟨trivial, [], fun _ => rfl, (List.append_nil content).symm, by simp⟩,
      fun i => each_served (fun own : Own => own.desc = desc i)
        (fun op hop _ hDesc => script_served p (hOnLog i op hop) hDesc) rfl⟩
  have hInv := (hLogs.guarded content).reaches hReaches hStart
  have hLedger := hInv.whole.2
  obtain ⟨chunks, hContent, hChunks⟩ := hLedger.chunks
  refine ⟨hLogs.grows hInv hLater, chunks, hContent, fun i r hr => ?_⟩
  have hClient := hInv.client i
  rw [Script.eq_done_of_result hr] at hClient
  obtain ⟨rs, rfl, ⟨es, hEntered, hRun⟩, hDesc⟩ := hClient.post
  replace hEntered : (w.own i).ledger = es := hEntered
  refine ⟨hDesc, rs, rfl, ?_⟩
  rw [hChunks i, hEntered]
  exact LogRun.mono (fun offset d hShows => hLedger.shows (i := i) (hEntered ▸ hShows)) hRun

/-- A client that appends three bytes, two at a time and without `pwritev2`, and one that
reads four bytes meanwhile. -/
theorem shared_log_two :
    ∃ w : Crowd (Fin 2) SysCall SysCall.Reply Fault Own (List UInt8) (List Reply),
      (∀ i, (w.progress i).result = some (.ok [.unit (.ok ())])) ∧
      w.shared = [1, 2, 3, 10, 11, 12] ∧ [30, 31, 32, 33].map (w.own 1).mem = [2, 3, 10, 11] ∧
      w.shared <+: w.shared ∧
      ∃ chunks : List (Fin 2 × List UInt8),
        w.shared = [1, 2, 3] ++ chunks.flatMap Prod.snd ∧
        ∀ i r, (w.progress i).result = some r → (w.own i).desc = ⟨1, 2⟩ ∧ ∃ rs, r = .ok rs ∧
          LogRun (fun offset d => d <+: w.shared.drop offset)
            (if i = 0 then [.appendAll ⟨10, 3, by decide⟩]
              else [.readExactVectoredAt [⟨20, 0, by decide⟩, ⟨30, 4, by decide⟩] 1])
            UInt8.ofNat rs ((chunks.filter fun x => x.1 = i).flatMap Prod.snd) (w.own i).mem := by
  refine ⟨_, ?_, ?_, ?_, shared_log .debug
    (fun _ : Fin 2 => pathEnv (fun _ => some .NOSYS) fun _ => .go 2)
    (fun _ => pathEnv_restoreSucceeds _ _)
    (fun _ => UInt8.ofNat) [1, 2, 3] (fun _ => ⟨1, 2⟩)
    (fun i => if i = 0 then [.appendAll ⟨10, 3, by decide⟩]
      else [.readExactVectoredAt [⟨20, 0, by decide⟩, ⟨30, 4, by decide⟩] 1]) ?_
    (Crowd.reaches_run _ [0, 0, 0, 0, 0, 1, 1, 0, 0, 0, 0, 1, 1, 0, 0, 0, 0, 0, 0, 0, 0, 1, 1,
      1, 1, 1] _)
    .refl⟩
  · decide
  · decide
  · decide
  · intro i op hop
    by_cases hi : i = 0
    · simp only [hi, if_true, List.mem_singleton] at hop
      subst hop
      exact .inl ⟨_, rfl⟩
    · simp only [hi, if_false, List.mem_singleton] at hop
      subst hop
      exact .inr ⟨_, _, rfl, by decide⟩

end Log

end SystemInterface.Unix
