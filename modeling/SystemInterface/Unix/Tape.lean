import SystemInterface.Lib.Crowd
import SystemInterface.Unix.Append
import SystemInterface.Unix.Streams

/-!
# SystemInterface — streams that share a position

Any number of clients share one open file description and read and write at its
position, as parent and child do after a fork. They take turns system call by system
call, and the kernel answers each call as it likes.

The position moves over the file once, as a tape under a head: every byte it passes
over was read by one client, or written by one, and no byte is passed over twice.

Main result:

* `shared_tape` — what the clients have read and written, in the order of their calls,
  is what lies between the old position and the new one.
-/

namespace SystemInterface.Unix.Stream

open Effect

-- ---------------------------------------------------------------------------
-- The system
-- ---------------------------------------------------------------------------

/-- What belongs to one client: its memory and the log of its calls. -/
structure Own where
  mem : Memory
  log : List Event

/-- A system call of client `i`; `env i` says how the kernel answers the calls of
that client, in view of those it has answered. -/
def acts {I : Type} (env : I → Env) : Acts I Call Call.Reply Own OpenFile :=
  fun i c s =>
    let (r, k) := handle (env i) c ⟨⟨s.1.mem, s.2.content, s.2.desc⟩, s.1.log⟩
    (r, ⟨k.machine.mem, k.log⟩, ⟨k.machine.content, k.machine.desc⟩)

/-- The clients before the first step. -/
def clients {I α : Type} (mem : I → Memory) (content : List UInt8) (desc : Desc)
    (script : I → Script α) : Crowd I Call Call.Reply Fault Own OpenFile α :=
  ⟨⟨content, desc⟩, fun i => ⟨mem i, []⟩, script⟩

def Event.bytes (ev : Event) : List UInt8 :=
  match ev.outcome with
  | .ok d => d
  | .error _ => []

/-- The bytes that the calls have moved, in order. -/
def moved (events : List Event) : List UInt8 := events.flatMap Event.bytes

@[simp] theorem moved_nil : moved [] = [] := rfl

@[simp] theorem moved_append (evs evs' : List Event) :
    moved (evs ++ evs') = moved evs ++ moved evs' :=
  List.flatMap_append

@[simp] theorem moved_ok (c : Call) (d : List UInt8) : moved [⟨c, .ok d⟩] = d :=
  List.append_nil d

@[simp] theorem moved_error (c : Call) (e : Errno) : moved [⟨c, .error e⟩] = [] := rfl

-- ---------------------------------------------------------------------------
-- Single calls
-- ---------------------------------------------------------------------------

/-- The machine after a call that has moved `n` bytes. -/
def after (m : Machine) (c : Call) (n : Nat) : Machine where
  mem := if c.reads then m.mem.scatter c.buffers (bytes m c n) else m.mem
  content := splice 0 m.content m.desc.pos (bytes m c n)
  desc := ⟨m.desc.pos + n, m.desc.flags⟩

/-- A call can move `n` bytes: as many as it has room for and there are, and none only
where there is nothing to move. -/
structure Moves (m : Machine) (c : Call) (n : Nat) : Prop where
  le : n ≤ totalLen c.buffers
  le_max : n ≤ isizeMax
  length_eq : (bytes m c n).length = n
  zero : n = 0 → totalLen c.buffers = 0 ∨ c.reads = true ∧ m.content.length ≤ m.desc.pos

section

variable {m : Machine}

theorem read_moves {c : Call} (hReads : c.reads = true) (count : Nat) :
    ∃ n, Moves m c n ∧ m.read c.buffers count = (n, after m c n) := by
  set room := min (totalLen c.buffers) (min (m.content.drop m.desc.pos).length maxRwCount)
    with hRoom
  have hLe : shortCount count room ≤ room := shortCount_le count room
  have hZero : shortCount count room = 0 ↔ room = 0 := shortCount_eq_zero
  have hMax : maxRwCount ≤ isizeMax := by decide
  have hBytes : ∀ n, bytes m c n = (m.content.drop m.desc.pos).take n := fun n => if_pos hReads
  refine ⟨shortCount count room, ⟨by omega, by omega, ?_, fun h0 => ?_⟩, ?_⟩
  · rw [hBytes, List.length_take]
    omega
  · have hNone := hZero.mp h0
    rw [hRoom, List.length_drop] at hNone
    have hPos : 0 < maxRwCount := by decide
    by_cases hTotal : totalLen c.buffers = 0
    · exact .inl hTotal
    · exact .inr ⟨hReads, by omega⟩
  · -- what is read is written back
    simp only [Machine.read, Machine.readAt, ← hRoom, after, hBytes, splice_take_drop, hReads,
      if_true]

theorem write_moves (hNot : m.desc.appends = false) {c : Call} (hReads : c.reads = false)
    (count : Nat) : ∃ n, Moves m c n ∧ m.write c.buffers count = (n, after m c n) := by
  have hBytes : bytes m c (m.taken c.buffers count).length = m.taken c.buffers count := by
    rw [bytes, hReads, if_neg Bool.false_ne_true, Machine.taken, List.length_take,
      ← List.take_eq_take_min]
  refine ⟨_, ⟨m.length_taken_le _ count, m.length_taken_le_isizeMax _ count, by rw [hBytes],
    fun h0 => .inl (Machine.length_taken_eq_zero h0)⟩, ?_⟩
  simp only [Machine.write, hNot, after, hBytes, hReads, Bool.false_eq_true, if_false]

/-- **One call moves bytes at the position**, and the position by as many. -/
theorem step_moves (hNot : m.desc.appends = false) (c : Call) (count : Nat) :
    ∃ n, Moves m c n ∧ step m c (.go count) = (.ok n, after m c n) := by
  have hMap : ∀ x : Nat × Machine, ∀ n m', x = (n, m') →
      Prod.map (Except.ok : Nat → Except Errno Nat) id x = (.ok n, m') := by
    rintro x n m' rfl
    rfl
  cases c with
  | read buf =>
    obtain ⟨n, hMoves, hEq⟩ := read_moves (m := m) (c := .read buf) rfl count
    exact ⟨n, hMoves, hMap _ _ _ hEq⟩
  | readv bufs =>
    obtain ⟨n, hMoves, hEq⟩ := read_moves (m := m) (c := .readv bufs) rfl count
    exact ⟨n, hMoves, hMap _ _ _ hEq⟩
  | write buf =>
    obtain ⟨n, hMoves, hEq⟩ := write_moves hNot (c := .write buf) rfl count
    exact ⟨n, hMoves, hMap _ _ _ hEq⟩
  | writev bufs =>
    obtain ⟨n, hMoves, hEq⟩ := write_moves hNot (c := .writev bufs) rfl count
    exact ⟨n, hMoves, hMap _ _ _ hEq⟩

end

-- ---------------------------------------------------------------------------
-- The tape
-- ---------------------------------------------------------------------------

/-- What the calls `events`, made one after the other, have made of a file that was
`content` with the position at `desc`: they have passed over it once. What a read has
delivered was there from the beginning, and it is nothing only at the end. -/
structure OnTape (content : List UInt8) (desc : Desc) (events : List Event) (t : OpenFile) :
    Prop where
  content_eq : t.content = splice 0 content desc.pos (moved events)
  desc_eq : t.desc = ⟨desc.pos + (moved events).length, desc.flags⟩
  read : ∀ before ev rest, events = before ++ ev :: rest → ev.call.reads = true →
    ∀ d, ev.outcome = .ok d →
      d = (content.drop (desc.pos + (moved before).length)).take d.length ∧
      (d = [] → totalLen ev.call.buffers = 0 ∨
        content.length ≤ desc.pos + (moved before).length)

section

variable {content : List UInt8} {desc : Desc} {events : List Event} {t t' : OpenFile}

theorem onTape_start : OnTape content desc [] ⟨content, desc⟩ where
  content_eq := rfl
  desc_eq := rfl
  read before ev rest h := absurd h.symm (by simp)

/-- What lies ahead of the head is as it was. -/
theorem OnTape.ahead (h : OnTape content desc events t) :
    t.content.drop t.desc.pos = content.drop (desc.pos + (moved events).length) := by
  rw [h.content_eq, h.desc_eq]
  exact drop_splice 0 content desc.pos (moved events)

theorem OnTape.length_le (h : OnTape content desc events t)
    (hEnd : t.content.length ≤ t.desc.pos) :
    content.length ≤ desc.pos + (moved events).length := by
  have hNone : t.content.drop t.desc.pos = [] := List.drop_of_length_le hEnd
  rw [h.ahead, List.drop_eq_nil_iff] at hNone
  exact hNone

/-- One more call, which is the last or among the earlier ones. -/
theorem OnTape.concat (h : OnTape content desc events t) {ev : Event}
    (hContent : t'.content = splice 0 t.content t.desc.pos (moved [ev]))
    (hDesc : t'.desc = ⟨t.desc.pos + (moved [ev]).length, t.desc.flags⟩)
    (hRead : ev.call.reads = true → ∀ d, ev.outcome = .ok d →
      d = (t.content.drop t.desc.pos).take d.length ∧
      (d = [] → totalLen ev.call.buffers = 0 ∨ t.content.length ≤ t.desc.pos)) :
    OnTape content desc (events ++ [ev]) t' where
  content_eq := by
    rw [hContent, h.content_eq, h.desc_eq, moved_append, splice_append]
  desc_eq := by
    rw [hDesc, h.desc_eq, moved_append, List.length_append, Nat.add_assoc]
  read before ev' rest hSplit hReads d hd := by
    rcases List.eq_nil_or_concat rest with rfl | ⟨rest, last, rfl⟩
    · obtain ⟨rfl, hLast⟩ := List.append_inj' hSplit rfl
      obtain rfl := (List.cons.inj hLast).1
      obtain ⟨hBytes, hNone⟩ := hRead hReads d hd
      rw [h.ahead] at hBytes
      exact ⟨hBytes, fun h0 => (hNone h0).imp id h.length_le⟩
    · rw [List.concat_eq_append, ← List.cons_append, ← List.append_assoc] at hSplit
      exact h.read before ev' rest (List.append_inj' hSplit rfl).1 hReads d hd

theorem OnTape.failed (h : OnTape content desc events t) (c : Call) (e : Errno) :
    OnTape content desc (events ++ [⟨c, .error e⟩]) t :=
  h.concat rfl rfl fun _ d hd => absurd hd (by simp)

theorem OnTape.moves (h : OnTape content desc events t) {mem : Memory} {c : Call} {n : Nat}
    (hMoves : Moves ⟨mem, t.content, t.desc⟩ c n) :
    OnTape content desc (events ++ [⟨c, .ok (bytes ⟨mem, t.content, t.desc⟩ c n)⟩])
      ⟨(after ⟨mem, t.content, t.desc⟩ c n).content,
        (after ⟨mem, t.content, t.desc⟩ c n).desc⟩ := by
  refine h.concat (by rw [moved_ok]; rfl) (by rw [moved_ok, hMoves.length_eq]; rfl) ?_
  intro hReads d hd
  obtain rfl : bytes ⟨mem, t.content, t.desc⟩ c n = d := Except.ok.inj hd
  have hLen := hMoves.length_eq
  refine ⟨?_, fun h0 => ?_⟩
  · rw [hLen]
    exact if_pos hReads
  · rw [h0] at hLen
    exact (hMoves.zero hLen.symm).imp id And.right

end

-- ---------------------------------------------------------------------------
-- What a client relies on
-- ---------------------------------------------------------------------------

/-- A call, as the client that makes it finds it: bytes come from its buffers, or go
into them. -/
def Follows (c : Call) (l : Own) (r : Except Errno Nat) (l' : Own) : Prop :=
  match r with
  | .error e => l' = ⟨l.mem, l.log ++ [⟨c, .error e⟩]⟩
  | .ok n => ∃ d, d.length = n ∧ n ≤ totalLen c.buffers ∧ n ≤ isizeMax ∧
      l' = ⟨if c.reads then l.mem.scatter c.buffers d else l.mem, l.log ++ [⟨c, .ok d⟩]⟩ ∧
      (c.reads = false → d = (l.mem.gather c.buffers).take n ∧ (n = 0 → totalLen c.buffers = 0))

def streamRules : Rules Call Call.Reply Own where
  Pre _ _ := True
  Step := Follows

/-- **The calls of all clients** leave what each of them relies on, and move one tape. -/
theorem acts_guarded {I : Type} [DecidableEq I] (env : I → Env) (content : List UInt8)
    {desc : Desc} (hNot : desc.appends = false) :
    Guarded (acts env) (fun _ => streamRules) fun own t => ∃ history : List (I × Event),
      (∀ i, entries history i = (own i).log) ∧
        OnTape content desc (history.map Prod.snd) t where
  step i c own t hG _ := by
    obtain ⟨history, hLogs, hTape⟩ := hG
    have hNot' : t.desc.appends = false := by rw [hTape.desc_eq]; exact hNot
    simp only [acts, handle]
    cases env i (own i).log c with
    | fail e => exact rfl
    | go count =>
      obtain ⟨n, hMoves, hStep⟩ := step_moves (m := ⟨(own i).mem, t.content, t.desc⟩) hNot' c count
      rw [hStep]
      refine ⟨_, hMoves.length_eq, hMoves.le, hMoves.le_max, rfl, fun hWrites => ⟨?_, ?_⟩⟩
      · rw [bytes, hWrites, if_neg Bool.false_ne_true]
      · intro h0
        exact (hMoves.zero h0).resolve_right fun h => absurd (hWrites.symm.trans h.1) (by simp)
  keeps i c own t hG _ := by
    obtain ⟨history, hLogs, hTape⟩ := hG
    have hNot' : t.desc.appends = false := by rw [hTape.desc_eq]; exact hNot
    have hConcat : ∀ ev mem, ∀ j, entries (history ++ [(i, ev)]) j =
        (Function.update own i ⟨mem, (own i).log ++ [ev]⟩ j).log := by
      intro ev mem j
      rw [entries_concat]
      by_cases hj : i = j
      · subst hj
        rw [if_pos rfl, Function.update_self, hLogs]
      · rw [if_neg hj, Function.update_of_ne (Ne.symm hj), hLogs]
    simp only [acts, handle]
    cases env i (own i).log c with
    | fail e =>
      refine ⟨history ++ [(i, ⟨c, .error e⟩)], hConcat _ _, ?_⟩
      rw [List.map_append]
      exact hTape.failed c e
    | go count =>
      obtain ⟨n, hMoves, hStep⟩ := step_moves (m := ⟨(own i).mem, t.content, t.desc⟩) hNot' c count
      rw [hStep]
      refine ⟨history ++ [(i, ⟨c, .ok (bytes ⟨(own i).mem, t.content, t.desc⟩ c n)⟩)],
        hConcat _ _, ?_⟩
      rw [List.map_append]
      exact hTape.moves hMoves

-- ---------------------------------------------------------------------------
-- What a client does
-- ---------------------------------------------------------------------------

/-- Calls that have carried the bytes of the addresses, in order and from the first on:
into them if the calls read, and else out of them. -/
structure Carried (reads : Bool) (addrs : List Nat) (mem mem' : Memory) (events : List Event) :
    Prop where
  calls : ∀ ev ∈ events, ev.call.reads = reads
  le : (moved events).length ≤ addrs.length
  mem_eq : mem' = if reads then store mem addrs (moved events) else mem
  data : reads = false → moved events = (addrs.map mem).take (moved events).length

/-- The failure is that of the last call, or the last read has come to the end. -/
def Fails (reads : Bool) (f : Fault) (events : List Event) : Prop :=
  (∃ e c, f = .err (.os e) ∧ events.getLast? = some ⟨c, .error e⟩) ∨
  (reads = true ∧ f = failedToFill ∧
    ∃ c, events.getLast? = some ⟨c, .ok []⟩ ∧ totalLen c.buffers ≠ 0)

/-- The reply is about what was carried. -/
def Accounts (op : StreamOp) (events : List Event) : StreamReply → Prop
  | .unit (.ok ()) => (moved events).length = op.addrs.length
  | .count (.ok n) => (moved events).length = n
  | .unit (.error f) => Fails op.reads f events
  | .count (.error f) => Fails op.reads f events

/-- A stream session: the calls carry their bytes one after the other. -/
inductive Sessions : List StreamOp → Memory → List StreamReply → List Event → Memory → Prop where
  | nil (mem : Memory) : Sessions [] mem [] [] mem
  | cons {op : StreamOp} {ops : List StreamOp} {r : StreamReply} {rs : List StreamReply}
      {evs evs' : List Event} {mem mem₁ mem₂ : Memory}
      (carried : Carried op.reads op.addrs mem mem₁ evs) (accounts : Accounts op evs r)
      (rest : Sessions ops mem₁ rs evs' mem₂) :
      Sessions (op :: ops) mem (r :: rs) (evs ++ evs') mem₂

section

variable {reads : Bool} {addrs : List Nat} {mem mem' : Memory} {events : List Event}
  {l l' l₀ : Own} {c : Call} {n : Nat}

theorem carried_nil : Carried reads addrs mem mem [] where
  calls ev h := absurd h (by simp)
  le := Nat.zero_le _
  mem_eq := by cases reads <;> simp
  data _ := rfl

/-- After a call that failed. -/
theorem Carried.failed (h : Carried reads addrs mem mem' events) (hReads : c.reads = reads)
    (e : Errno) : Carried reads addrs mem mem' (events ++ [⟨c, .error e⟩]) where
  calls ev hev := by
    rcases List.mem_append.mp hev with hev | hev
    · exact h.calls ev hev
    · obtain rfl := List.mem_singleton.mp hev
      exact hReads
  le := by simpa using h.le
  mem_eq := by simpa using h.mem_eq
  data hr := by simpa using h.data hr

/-- After a call that has moved the next bytes. -/
theorem Carried.moves (h : Carried reads addrs mem l.mem events) (hReads : c.reads = reads)
    (hWindow : cells c.buffers =
      (addrs.drop (moved events).length).take (totalLen c.buffers))
    (hFollows : Follows c l (.ok n) l') :
    ∃ d, d.length = n ∧ l'.log = l.log ++ [⟨c, .ok d⟩] ∧
      Carried reads addrs mem l'.mem (events ++ [⟨c, .ok d⟩]) := by
  obtain ⟨d, hLen, hTotal, -, rfl, hData⟩ := hFollows
  have hRoom : totalLen c.buffers ≤ addrs.length - (moved events).length := by
    have hCells := congrArg List.length hWindow
    rw [length_cells, List.length_take, List.length_drop] at hCells
    omega
  have hLe := h.le
  refine ⟨d, hLen, rfl, ?_, ?_, ?_, ?_⟩
  · intro ev hev
    rcases List.mem_append.mp hev with hev | hev
    · exact h.calls ev hev
    · obtain rfl := List.mem_singleton.mp hev
      exact hReads
  · rw [moved_append, moved_ok, List.length_append]
    omega
  · have hMem := h.mem_eq
    cases reads with
    | false =>
      simp only [hReads, Bool.false_eq_true, if_false] at hMem ⊢
      exact hMem
    | true =>
      simp only [hReads, if_true] at hMem ⊢
      rw [moved_append, moved_ok, store_append, ← hMem, Memory.scatter, hWindow]
      exact store_take_addrs l.mem _ (by omega)
  · intro hr
    have hMem : l.mem = mem := by
      rw [h.mem_eq, hr]
      rfl
    have hd := (hData (hReads.trans hr)).1
    rw [Memory.gather, hWindow, hMem, List.map_take, List.map_drop, List.take_take,
      Nat.min_eq_left hTotal] at hd
    rw [moved_append, moved_ok, List.length_append, List.take_add, ← h.data hr, hLen, ← hd]

end

-- ---------------------------------------------------------------------------
-- Loops
-- ---------------------------------------------------------------------------

/-- A loop around a system call on its first buffers. -/
structure StreamLoop {S : Type} (l : BufferLoop S) (reads : Bool) (call : S → Call) : Prop where
  offset : ∀ s, l.offset s = none
  calls : ∀ s, (call s).reads = reads
  window : ∀ s, cells (call s).buffers = (l.addrs s).take (totalLen (call s).buffers)
  zero : ∀ f, l.zero = some f → reads = true → f = failedToFill
  full : ∀ s, l.transfer.isEmpty s = false → l.Ready s → l.zero ≠ none →
    totalLen (call s).buffers ≠ 0

section

variable {S : Type} {l : BufferLoop S} {reads : Bool} {call : S → Call} {s₀ s : S} {l₀ own : Own}

/-- The loop has carried `k` bytes. -/
def Tracks (l : BufferLoop S) (reads : Bool) (s₀ : S) (l₀ : Own) (k : Nat) (own : Own) : Prop :=
  ∃ events, own.log = l₀.log ++ events ∧ (moved events).length = k ∧
    Carried reads (l.addrs s₀) l₀.mem own.mem events

def Failed (l : BufferLoop S) (reads : Bool) (s₀ : S) (l₀ : Own) (f : Fault) (own : Own) : Prop :=
  ∃ events, own.log = l₀.log ++ events ∧
    Carried reads (l.addrs s₀) l₀.mem own.mem events ∧ Fails reads f events

/-- One call of the loop. -/
theorem StreamLoop.call_holds (h : StreamLoop l reads call) {k : Nat} (hAt : l.At s₀ k s)
    (hne : l.transfer.isEmpty s = false) (hTracks : Tracks l reads s₀ l₀ k own) :
    (sys (call s)).Holds streamRules
      (l.Moved (l.addrs s).length (Tracks l reads s₀ l₀) (fun _ => Failed l reads s₀ l₀) k)
      own := by
  obtain ⟨events, hLog, rfl, hCarried⟩ := hTracks
  refine Prog.holds_op trivial fun r own' hFollows => ?_
  cases r with
  | error e =>
    have hOwn : own' = ⟨own.mem, own.log ++ [(⟨call s, .error e⟩ : Event)]⟩ := hFollows
    subst hOwn
    have hNext := hCarried.failed (h.calls s) e
    have hLog' : own.log ++ [⟨call s, .error e⟩] = l₀.log ++ (events ++ [⟨call s, .error e⟩]) := by
      rw [hLog, List.append_assoc]
    show if l.transfer.retry (.err (.os e)) then _ else _
    split
    · exact ⟨_, hLog', by simp, hNext⟩
    · exact ⟨_, hLog', hNext, .inl ⟨e, call s, rfl, by simp⟩⟩
  | ok n =>
    have hWindow := h.window s
    rw [hAt.addrs_eq] at hWindow
    obtain ⟨d, hLen, hLog', hNext⟩ := hCarried.moves (h.calls s) hWindow hFollows
    obtain ⟨_, -, hTotal, hMax, -, hData⟩ := hFollows
    have hLe : totalLen (call s).buffers ≤ (l.addrs s).length := by
      rw [← length_cells, h.window s]
      exact List.length_take_le' ..
    have hLog'' : own'.log = l₀.log ++ (events ++ [⟨call s, .ok d⟩]) := by
      rw [hLog', hLog, List.append_assoc]
    refine ⟨by omega, .inl hMax, fun _ => ⟨_, hLog'', ?_, hNext⟩, fun f h0 hf => ?_⟩
    · rw [moved_append, moved_ok, List.length_append, hLen]
    · -- the loop takes `Ok(0)` for a failure, and there was room
      have hFull := h.full s hne hAt.ready (by rw [hf]; simp)
      subst h0
      cases hr : reads with
      | false =>
        have hWrites : (call s).reads = false := (h.calls s).trans hr
        exact absurd ((hData hWrites).2 rfl) hFull
      | true =>
        obtain rfl := List.eq_nil_of_length_eq_zero hLen
        rw [hr] at hNext
        exact ⟨_, hLog'', hNext, .inr ⟨rfl, h.zero f hf hr, call s, by simp, hFull⟩⟩

/-- **A loop carries its bytes**, or a part of them up to the failure it returns. -/
theorem StreamLoop.safe (h : StreamLoop l reads call) (hReady : l.Ready s₀) :
    Script.Safe streamRules (fun r own => ∃ events, own.log = l₀.log ++ events ∧
      Carried reads (l.addrs s₀) l₀.mem own.mem events ∧
      match r with
      | .ok () => (moved events).length = (l.addrs s₀).length
      | .error f => Fails reads f events)
      (looped l.transfer (fun s => sys (call s)) s₀) l₀ := by
  refine Transfer.script_safe (l.At s₀) (Tracks l reads s₀ l₀) (fun _ => Failed l reads s₀ l₀)
    ?_ ?_ ?_ (BufferLoop.At.start hReady) ⟨[], by simp, rfl, carried_nil⟩
  · rintro k s own hAt hE ⟨events, hLog, rfl, hCarried⟩
    exact ⟨events, hLog, hCarried, hAt.eq_total hE⟩
  · rintro k s f own hAt ⟨events, hLog, hCarried, hFails⟩
    exact ⟨events, hLog, hCarried, hFails⟩
  · intro k s own hAt hne hTracks
    exact Script.safe_ofProg ((h.call_holds hAt hne hTracks).mono fun a own' hMoved =>
      hAt.moves (BufferLoop.offsetFits_none (h.offset s₀)) hne hMoved)

end

theorem window_singleton (buf : Slice) : cells [buf] = buf.addrs.take (totalLen [buf]) := by
  rw [cells_singleton, List.take_of_length_le]
  simp

theorem totalLen_singleton_ne_zero {buf : Slice} (hne : buf.isEmpty = false) :
    totalLen [buf] ≠ 0 := by
  have := Slice.len_ne_zero hne
  simpa using this

theorem readExact_loop : StreamLoop RustStd.readExact.bufferLoop true .read where
  offset _ := rfl
  calls _ := rfl
  window := window_singleton
  zero _ hf _ := (Option.some.inj hf).symm
  full _ hne _ _ := totalLen_singleton_ne_zero hne

theorem writeAll_loop : StreamLoop RustStd.writeAll.bufferLoop false .write where
  offset _ := rfl
  calls _ := rfl
  window := window_singleton
  zero _ _ h := absurd h (by simp)
  full _ hne _ _ := totalLen_singleton_ne_zero hne

theorem readExactVectored_loop (p : Profile) :
    StreamLoop (IoExt.Default.readExactVectored.bufferLoop p) true
      fun bufs => .readv (bufs.take iovMax) where
  offset _ := rfl
  calls _ := rfl
  window bufs := cells_take bufs iovMax
  zero _ hf _ := (Option.some.inj hf).symm
  full _ hne hReady _ h0 :=
    HeadFull.not_headEmpty hReady hne ((leadingWindow_take (by decide)).headEmpty h0)

theorem writeAllVectored_loop (p : Profile) :
    StreamLoop (IoExt.Default.writeAllVectored.bufferLoop p) false
      fun bufs => .writev (bufs.take iovMax) where
  offset _ := rfl
  calls _ := rfl
  window bufs := cells_take bufs iovMax
  zero _ _ h := absurd h (by simp)
  full _ _ _ h := absurd rfl h

-- ---------------------------------------------------------------------------
-- Sessions
-- ---------------------------------------------------------------------------

/-- What a call on the stream has done to the client that made it. -/
def Did (op : StreamOp) (l₀ : Own) (reply : StreamReply) (own : Own) : Prop :=
  ∃ events, own.log = l₀.log ++ events ∧
    Carried op.reads op.addrs l₀.mem own.mem events ∧ Accounts op events reply

/-- What a session has done to the client that made it. -/
def Made (ops : List StreamOp) (l₀ : Own) (rs : List StreamReply) (own : Own) : Prop :=
  ∃ events, own.log = l₀.log ++ events ∧ Sessions ops l₀.mem rs events own.mem

section

variable {l₀ : Own} {op : StreamOp}

/-- A call that is one system call. -/
theorem single_did {c : Call} (hReads : c.reads = op.reads)
    (hWindow : cells c.buffers = op.addrs.take (totalLen c.buffers)) :
    Script.Safe streamRules (fun r own => ∃ reply, r = .ok reply ∧ Did op l₀ reply own)
      (replied (.ofProg (sys c)) .count) l₀ := by
  have hStart : Carried op.reads op.addrs l₀.mem l₀.mem [] := carried_nil
  have hCall : Script.Safe streamRules (fun r own => Did op l₀ (.count r) own)
      (.ofProg (sys c)) l₀ := by
    refine Script.safe_ofProg (Prog.holds_op trivial fun r own' hFollows => ?_)
    cases r with
    | error e =>
      have hOwn : own' = ⟨l₀.mem, l₀.log ++ [(⟨c, .error e⟩ : Event)]⟩ := hFollows
      subst hOwn
      exact ⟨_, rfl, hStart.failed hReads e, .inl ⟨e, c, rfl, rfl⟩⟩
    | ok n =>
      obtain ⟨d, hLen, hLog, hNext⟩ := hStart.moves hReads hWindow hFollows
      refine ⟨_, hLog, hNext, ?_⟩
      show (moved [⟨c, .ok d⟩]).length = n
      rw [moved_ok, hLen]
  exact hCall.andThen fun r own h => Script.safe_done ⟨_, rfl, h⟩

/-- A call that is a loop. -/
theorem loop_did (op : StreamOp) {S : Type} {l : BufferLoop S} {call : S → Call} (s₀ : S)
    (h : StreamLoop l op.reads call) (hReady : l.Ready s₀) (hAddrs : l.addrs s₀ = op.addrs) :
    Script.Safe streamRules (fun r own => ∃ reply, r = .ok reply ∧ Did op l₀ reply own)
      (replied (looped l.transfer (fun s => sys (call s)) s₀) .unit) l₀ := by
  refine (h.safe hReady).andThen ?_
  rintro r own ⟨events, hLog, hCarried, hEnd⟩
  rw [hAddrs] at hCarried hEnd
  refine Script.safe_done ⟨_, rfl, events, hLog, hCarried, ?_⟩
  cases r with
  | ok u => exact hEnd
  | error f => exact hEnd

/-- **A call on the stream**, whatever the kernel and the other clients do. -/
theorem script_did (p : Profile) (op : StreamOp) (l₀ : Own) :
    Script.Safe streamRules (fun r own => ∃ reply, r = .ok reply ∧ Did op l₀ reply own)
      (script p op) l₀ := by
  cases op with
  | read buf => exact single_did rfl (window_singleton buf)
  | readExact buf => exact loop_did (.readExact buf) buf readExact_loop trivial rfl
  | readVectored bufs => exact single_did rfl (cells_take bufs iovMax)
  | readExactVectored bufs =>
    exact loop_did (.readExactVectored bufs) _ (readExactVectored_loop p)
      (headFull_skipLeadingEmpties bufs) (cells_skipLeadingEmpties bufs)
  | write buf => exact single_did rfl (window_singleton buf)
  | writeAll buf => exact loop_did (.writeAll buf) buf writeAll_loop trivial rfl
  | writeVectored bufs => exact single_did rfl (cells_take bufs iovMax)
  | writeAllVectored bufs =>
    exact loop_did (.writeAllVectored bufs) bufs (writeAllVectored_loop p) trivial rfl

theorem sessionScript_did (p : Profile) (ops : List StreamOp) (l₀ : Own) :
    Script.Safe streamRules (fun r own => ∃ rs, r = .ok rs ∧ Made ops l₀ rs own)
      (sessionScript p ops) l₀ := by
  refine (Script.Safe.each (fun _ => True) (fun l => ⟨[], by simp, .nil l.mem⟩) ?_
    (fun op _ l _ => (script_did p op l).mono fun r own ⟨reply, hr, hDid⟩ =>
      ⟨reply, hr, hDid, trivial⟩) trivial).mono fun r own ⟨rs, hr, hMade, _⟩ => ⟨rs, hr, hMade⟩
  rintro op ops l r l₁ rs l₂ ⟨events, hLog, hCarried, hAccounts⟩ ⟨events', hLog', hRest⟩
  refine ⟨events ++ events', ?_, .cons hCarried hAccounts hRest⟩
  rw [hLog', hLog, List.append_assoc]

end

/-- A session in which a call reports the end of the file has come to it. -/
theorem Sessions.at_end {ops : List StreamOp} {mem mem' : Memory} {rs : List StreamReply}
    {events : List Event} (h : Sessions ops mem rs events mem')
    (hEnd : .unit (.error failedToFill) ∈ rs) :
    ∃ c, ⟨c, .ok []⟩ ∈ events ∧ c.reads = true ∧ totalLen c.buffers ≠ 0 := by
  induction h with
  | nil mem => exact absurd hEnd (by simp)
  | cons hCarried hAccounts _ ih =>
    rcases List.mem_cons.mp hEnd with rfl | hRest
    · rcases hAccounts with ⟨e, c, hFault, -⟩ | ⟨hReads, -, c, hLast, hRoom⟩
      · exact absurd hFault (by simp [failedToFill])
      · have hMem := List.mem_of_getLast? hLast
        exact ⟨c, List.mem_append_left _ hMem, (hCarried.calls _ hMem).trans hReads, hRoom⟩
    · obtain ⟨c, hMem, hFound⟩ := ih hRest
      exact ⟨c, List.mem_append_right _ hMem, hFound⟩

/-- **Streams that share a position.** Any number of clients share one description, not
in append mode, each with a session of reads and writes at its position. At every point
of every schedule there is one history of their system calls, of which each client's log
is its own part: what the calls have moved, in this order, lies between the old position
and the new one; what a read has delivered was there from the beginning. A client that is
through has carried the bytes of its buffers in order, all of them where it reports `Ok`;
and none reports the end of the file before the position is there. -/
theorem shared_tape {I : Type} [DecidableEq I] (p : Profile) (env : I → Env) (mem : I → Memory)
    (content : List UInt8) (desc : Desc) (hNot : desc.appends = false)
    (sessions : I → List StreamOp)
    {w : Crowd I Call Call.Reply Fault Own OpenFile (List StreamReply)}
    (hReaches : Crowd.Reaches (acts env)
      (clients mem content desc fun i => sessionScript p (sessions i)) w) :
    ∃ history : List (I × Event), (∀ i, entries history i = (w.own i).log) ∧
      OnTape content desc (history.map Prod.snd) w.shared ∧
      ∀ i r, (w.progress i).result = some r → ∃ rs, r = .ok rs ∧
        Sessions (sessions i) (mem i) rs (w.own i).log (w.own i).mem ∧
        (.unit (.error failedToFill) ∈ rs → content.length ≤ w.shared.desc.pos) := by
  have hStart : Crowd.Inv (fun _ => streamRules)
      (fun own t => ∃ history : List (I × Event), (∀ i, entries history i = (own i).log) ∧
        OnTape content desc (history.map Prod.snd) t)
      (fun i r own => ∃ rs, r = .ok rs ∧ Made (sessions i) ⟨mem i, []⟩ rs own)
      (clients mem content desc fun i => sessionScript p (sessions i)) :=
    ⟨⟨[], fun _ => rfl, onTape_start⟩, fun i => sessionScript_did p (sessions i) ⟨mem i, []⟩⟩
  have hInv := (acts_guarded env content hNot).reaches hReaches hStart
  obtain ⟨history, hLogs, hTape⟩ := hInv.whole
  refine ⟨history, hLogs, hTape, fun i r hr => ?_⟩
  have hClient := hInv.client i
  rw [Script.eq_done_of_result hr] at hClient
  obtain ⟨rs, rfl, events, hLog, hSession⟩ := hClient.post
  rw [List.nil_append] at hLog
  refine ⟨rs, rfl, hLog ▸ hSession, fun hEnd => ?_⟩
  obtain ⟨c, hMem, hReads, hRoom⟩ := hSession.at_end hEnd
  rw [← hLog, ← hLogs i] at hMem
  obtain ⟨before, rest, hSplit⟩ := List.append_of_mem (mem_of_entries hMem)
  obtain ⟨-, hNone⟩ := hTape.read before _ rest hSplit hReads [] rfl
  have hLe := (hNone rfl).resolve_left hRoom
  rw [hTape.desc_eq, hSplit]
  simp only [moved_append, List.length_append]
  omega

/-- A client that writes three bytes, two at a time, and one that reads until there are
none left; they take turns. -/
theorem shared_tape_two :
    ∃ w : Crowd (Fin 2) Call Call.Reply Fault Own OpenFile (List StreamReply),
      (w.progress 0).result = some (.ok [.unit (.ok ())]) ∧
      (w.progress 1).result = some (.ok [.unit (.error failedToFill)]) ∧
      w.shared.content = [1, 10, 11, 4, 12, 6, 7] ∧ w.shared.desc = ⟨7, 2⟩ ∧
      [30, 31, 32, 33].map (w.own 1).mem = [4, 6, 7, 33] ∧
      ∃ history : List (Fin 2 × Event), (∀ i, entries history i = (w.own i).log) ∧
        OnTape [1, 2, 3, 4, 5, 6, 7] ⟨1, 2⟩ (history.map Prod.snd) w.shared ∧
        ∀ i r, (w.progress i).result = some r → ∃ rs, r = .ok rs ∧
          Sessions (if i = 0 then [.writeAll ⟨10, 3, by decide⟩]
            else [.readExactVectored [⟨20, 0, by decide⟩, ⟨30, 4, by decide⟩]])
            UInt8.ofNat rs (w.own i).log (w.own i).mem ∧
          (.unit (.error failedToFill) ∈ rs →
            [(1 : UInt8), 2, 3, 4, 5, 6, 7].length ≤ w.shared.desc.pos) := by
  refine ⟨_, ?_, ?_, ?_, ?_, ?_, shared_tape .debug
    (fun (i : Fin 2) log _ => .go (if i = 0 ∨ log ≠ [] then 2 else 1)) (fun _ => UInt8.ofNat)
    [1, 2, 3, 4, 5, 6, 7] ⟨1, 2⟩ (by decide)
    (fun i => if i = 0 then [.writeAll ⟨10, 3, by decide⟩]
      else [.readExactVectored [⟨20, 0, by decide⟩, ⟨30, 4, by decide⟩]])
    (Crowd.reaches_run _ [0, 0, 1, 1, 0, 0, 0, 1, 1, 1, 1, 1] _)⟩
  · decide
  · decide
  · decide
  · decide
  · decide

end SystemInterface.Unix.Stream
