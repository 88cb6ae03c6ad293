import SystemInterface.Model.LoopInstances
import SystemInterface.Unix.Kernel

/-!
# SystemInterface — one append on Unix

`append` and `append_vectored` as programs over system calls, under every
answer of the kernel. The description of a client changes only by the client's
own calls, so the facts about it are stated over its description and the log
of its calls (`Local`), whatever the file looks like in between.

Main results:

* `step_appends` — an appending call adds its bytes to the end of the file;
* `append_holds`, `appendVectored_holds` — every write is made in append mode,
  and at the end the description is what it was.
-/

namespace SystemInterface.Unix

open Effect

-- ---------------------------------------------------------------------------
-- The bytes of a log
-- ---------------------------------------------------------------------------

/-- The buffers whose bytes a call writes. -/
def SysCall.source : SysCall → List IoSlice
  | pwrite buf _ => [buf]
  | pwritev bufs _ => bufs
  | pwritev2 bufs _ _ => bufs
  | write buf => [buf]
  | writev bufs => bufs
  | _ => []

/-- The bytes a call has written. -/
def Event.bytes (mem : Memory) (e : Event) : List UInt8 :=
  match e.outcome with
  | .ok n => (mem.gather e.call.source).take n
  | .error _ => []

/-- The bytes the calls of a log have written, in order. -/
def written (mem : Memory) (log : List Event) : List UInt8 := log.flatMap (Event.bytes mem)

@[simp] theorem written_nil (mem : Memory) : written mem [] = [] := rfl

@[simp] theorem written_append (mem : Memory) (es fs : List Event) :
    written mem (es ++ fs) = written mem es ++ written mem fs := by
  simp [written]

@[simp] theorem written_singleton (mem : Memory) (e : Event) :
    written mem [e] = e.bytes mem := by
  simp [written]

@[simp] theorem bytes_error (mem : Memory) (c : SysCall) (e : Errno) :
    Event.bytes mem ⟨c, .error e⟩ = [] := rfl

theorem bytes_of_source_nil (mem : Memory) {c : SysCall} (hc : c.source = [])
    (o : Except Errno Nat) : Event.bytes mem ⟨c, o⟩ = [] := by
  cases o with
  | error e => rfl
  | ok n =>
    show (mem.gather c.source).take n = []
    rw [hc]
    exact List.take_nil

-- ---------------------------------------------------------------------------
-- Appending calls
-- ---------------------------------------------------------------------------

/-- The call writes only at the end of the file, if at all. -/
def SysCall.Appends (c : SysCall) (d : Desc) : Prop :=
  match c with
  | write _ => d.appends = true
  | writev _ => d.appends = true
  | pwritev2 _ _ flags => flags &&& ReadWriteFlags.APPEND ≠ 0
  | fcntlGetfl => True
  | fcntlSetfl _ => True
  | tell => True
  | seek _ => True
  | _ => False

namespace Machine

theorem length_taken (m : Machine) (bufs : List IoSlice) (count : Nat) :
    (m.taken bufs count).length = shortCount count (min (totalLen bufs) maxRwCount) := by
  have hLe := shortCount_le count (min (totalLen bufs) maxRwCount)
  rw [taken, List.length_take, Memory.length_gather]
  omega

theorem length_taken_le (m : Machine) (bufs : List IoSlice) (count : Nat) :
    (m.taken bufs count).length ≤ totalLen bufs := by
  have hLe := shortCount_le count (min (totalLen bufs) maxRwCount)
  rw [length_taken]
  omega

/-- No call moves more bytes than a slice may have. -/
theorem length_taken_le_isizeMax (m : Machine) (bufs : List IoSlice) (count : Nat) :
    (m.taken bufs count).length ≤ isizeMax := by
  have hLe := shortCount_le count (min (totalLen bufs) maxRwCount)
  have hMax : maxRwCount ≤ isizeMax := by decide
  rw [length_taken]
  omega

/-- Nothing is taken only from buffers that hold nothing. -/
theorem length_taken_eq_zero {m : Machine} {bufs : List IoSlice} {count : Nat}
    (h : (m.taken bufs count).length = 0) : totalLen bufs = 0 := by
  rw [length_taken, shortCount_eq_zero] at h
  unfold maxRwCount at h
  omega

/-- The bytes taken, in terms of their number. -/
theorem taken_eq (m : Machine) (bufs : List IoSlice) (count : Nat) :
    m.taken bufs count = (m.mem.gather bufs).take (m.taken bufs count).length := by
  rw [length_taken]
  rfl

/-- A seek to an offset is always carried out. -/
theorem lseek_start (m : Machine) (offset : Nat) :
    m.lseek (.start offset) = (.ok offset, { m with desc := ⟨offset, m.desc.flags⟩ }) := by
  unfold lseek target
  rw [if_pos (Int.natCast_nonneg offset)]
  rfl

theorem write_of_appends {m : Machine} (h : m.desc.appends = true) (bufs : List IoSlice)
    (count : Nat) :
    m.write bufs count = ((m.taken bufs count).length, { m with
      content := m.content ++ m.taken bufs count
      desc := { m.desc with pos := m.content.length + (m.taken bufs count).length } }) := by
  simp only [write, h, if_true, splice_length_self]

end Machine

/-- **An appending call adds its bytes to the end of the file**, and changes
nothing else there. -/
theorem step_appends {m : Machine} {c : SysCall} (hc : c.Appends m.desc) (d : Decision) :
    (m.step c d).2.content =
      m.content ++ Event.bytes m.mem ⟨c, (m.step c d).1.map c.moved⟩ ∧
    (m.step c d).2.mem = m.mem := by
  cases d with
  | fail e => exact ⟨(List.append_nil _).symm, rfl⟩
  | go count =>
    cases c with
    | write buf =>
      have hWrite := Machine.write_of_appends hc [buf] count
      refine ⟨?_, by simp only [Machine.step, hWrite, Prod.map, id]⟩
      simp only [Machine.step, hWrite, Prod.map, id]
      exact congrArg _ (m.taken_eq [buf] count)
    | writev bufs =>
      have hWrite := Machine.write_of_appends hc bufs count
      refine ⟨?_, by simp only [Machine.step, hWrite, Prod.map, id]⟩
      simp only [Machine.step, hWrite, Prod.map, id]
      exact congrArg _ (m.taken_eq bufs count)
    | pwritev2 bufs offset flags =>
      have hFlags : (flags &&& ReadWriteFlags.APPEND != 0) = true := bne_iff_ne.mpr hc
      simp only [Machine.step, hFlags, if_true]
      exact ⟨congrArg _ (m.taken_eq bufs count), rfl⟩
    | fcntlGetfl => exact ⟨by rw [bytes_of_source_nil _ rfl, List.append_nil]; rfl, rfl⟩
    | fcntlSetfl flags => exact ⟨by rw [bytes_of_source_nil _ rfl, List.append_nil]; rfl, rfl⟩
    | tell => exact ⟨by rw [bytes_of_source_nil _ rfl, List.append_nil]; rfl, rfl⟩
    | seek pos =>
      rw [bytes_of_source_nil _ rfl, List.append_nil]
      show (m.lseek pos).2.content = m.content ∧ (m.lseek pos).2.mem = m.mem
      unfold Machine.lseek
      split <;> exact ⟨rfl, rfl⟩
    | pread buf offset => exact hc.elim
    | preadv bufs offset => exact hc.elim
    | pwrite buf offset => exact hc.elim
    | pwritev bufs offset => exact hc.elim

-- ---------------------------------------------------------------------------
-- A client's view
-- ---------------------------------------------------------------------------

/-- What belongs to one client: its description and the log of its calls. -/
structure Local where
  desc : Desc
  log : List Event

def SysCall.IsWrite : SysCall → Prop
  | write _ => True
  | writev _ => True
  | _ => False

/-- The calls that put the description back after a write. -/
def Restores (log : List Event) (c : SysCall) : Prop :=
  match c with
  | .seek _ => True
  | .fcntlSetfl _ => ∃ e ∈ log.getLast?, e.call.IsWrite
  | _ => False

/-- One call by a client, on whatever the file is at that time; putting the
description back succeeds. -/
def Local.Step (mem : Memory) (c : SysCall) (l : Local) (r : c.Reply) (l' : Local) : Prop :=
  ∃ content d, (Restores l.log c → ∃ count, d = .go count) ∧
    r = (Machine.step ⟨mem, content, l.desc⟩ c d).1 ∧
    l' = ⟨(Machine.step ⟨mem, content, l.desc⟩ c d).2.desc, l.log ++ [⟨c, r.map c.moved⟩]⟩

/-- The rules of appending: writes are made in append mode. -/
def appendRules (mem : Memory) : Rules SysCall SysCall.Reply Local where
  Pre c l := c.Appends l.desc
  Step := Local.Step mem

-- ---------------------------------------------------------------------------
-- Flags
-- ---------------------------------------------------------------------------

/-- Setting `O_APPEND` on top of the current flags sets it. -/
theorem appends_setFlags (flags : OFlags) (pos : Nat) :
    Desc.appends ⟨pos, (flags &&& ~~~OFlags.settable) |||
      ((flags ||| OFlags.APPEND) &&& OFlags.settable)⟩ = true := by
  have hSettable : OFlags.APPEND &&& OFlags.settable = OFlags.APPEND := by decide
  have hBit : ((flags &&& ~~~OFlags.settable) |||
      ((flags ||| OFlags.APPEND) &&& OFlags.settable)) &&& OFlags.APPEND = OFlags.APPEND := by
    ext i hi
    have hi' := congrArg (fun v : OFlags => v[i]) hSettable
    simp only [BitVec.getElem_and, BitVec.getElem_or, BitVec.getElem_not] at hi' ⊢
    grind
  unfold Desc.appends
  rw [hBit]
  decide

/-- Setting the old flags again undoes a change of the flags. -/
theorem setFlags_setFlags (flags new : OFlags) :
    (((flags &&& ~~~OFlags.settable) ||| (new &&& OFlags.settable)) &&& ~~~OFlags.settable) |||
      (flags &&& OFlags.settable) = flags := by
  ext i hi
  simp only [BitVec.getElem_and, BitVec.getElem_or, BitVec.getElem_not]
  grind

-- ---------------------------------------------------------------------------
-- Single calls of a client
-- ---------------------------------------------------------------------------

section

variable {mem : Memory} {l l' : Local}

/-- A call that failed leaves the description as it is. -/
theorem Local.Step.cases {c : SysCall} {r : c.Reply} (h : Local.Step mem c l r l') :
    (∃ e, ¬ Restores l.log c ∧ r = .error e ∧ l' = ⟨l.desc, l.log ++ [⟨c, .error e⟩]⟩) ∨
    (∃ content count, r = (Machine.step ⟨mem, content, l.desc⟩ c (.go count)).1 ∧
      l' = ⟨(Machine.step ⟨mem, content, l.desc⟩ c (.go count)).2.desc,
        l.log ++ [⟨c, r.map c.moved⟩]⟩) := by
  obtain ⟨content, d, hRestores, hr, hl⟩ := h
  cases d with
  | go count => exact Or.inr ⟨content, count, hr, hl⟩
  | fail e =>
    refine Or.inl ⟨e, fun hR => ?_, hr, ?_⟩
    · obtain ⟨count, hCount⟩ := hRestores hR
      exact absurd hCount (by simp)
    · rw [hl, hr]
      rfl

theorem Local.step_getfl {r : Except Errno OFlags}
    (h : Local.Step mem .fcntlGetfl l r l') :
    (∃ e, r = .error e ∧ l' = ⟨l.desc, l.log ++ [⟨.fcntlGetfl, .error e⟩]⟩) ∨
    (r = .ok l.desc.flags ∧ l' = ⟨l.desc, l.log ++ [⟨.fcntlGetfl, .ok 0⟩]⟩) := by
  rcases h.cases with ⟨e, -, hr, hl⟩ | ⟨content, count, hr, hl⟩
  · exact Or.inl ⟨e, hr, hl⟩
  · refine Or.inr ⟨hr, ?_⟩
    rw [hl, hr]
    rfl

theorem Local.step_tell {r : Except Errno Nat} (h : Local.Step mem .tell l r l') :
    (∃ e, r = .error e ∧ l' = ⟨l.desc, l.log ++ [⟨.tell, .error e⟩]⟩) ∨
    (r = .ok l.desc.pos ∧ l' = ⟨l.desc, l.log ++ [⟨.tell, .ok 0⟩]⟩) := by
  rcases h.cases with ⟨e, -, hr, hl⟩ | ⟨content, count, hr, hl⟩
  · exact Or.inl ⟨e, hr, hl⟩
  · refine Or.inr ⟨hr, ?_⟩
    rw [hl, hr]
    rfl

theorem Local.step_setfl {flags : OFlags} {r : Except Errno Unit}
    (h : Local.Step mem (.fcntlSetfl flags) l r l') :
    (∃ e, ¬ Restores l.log (.fcntlSetfl flags) ∧ r = .error e ∧
      l' = ⟨l.desc, l.log ++ [⟨.fcntlSetfl flags, .error e⟩]⟩) ∨
    (r = .ok () ∧ l' = ⟨⟨l.desc.pos, (l.desc.flags &&& ~~~OFlags.settable) |||
      (flags &&& OFlags.settable)⟩, l.log ++ [⟨.fcntlSetfl flags, .ok 0⟩]⟩) := by
  rcases h.cases with ⟨e, hR, hr, hl⟩ | ⟨content, count, hr, hl⟩
  · exact Or.inl ⟨e, hR, hr, hl⟩
  · refine Or.inr ⟨hr, ?_⟩
    rw [hl, hr]
    rfl

theorem Local.step_seek {offset : Nat} {r : Except Errno Nat}
    (h : Local.Step mem (.seek (.start offset)) l r l') :
    r = .ok offset ∧
      l' = ⟨⟨offset, l.desc.flags⟩, l.log ++ [⟨.seek (.start offset), .ok 0⟩]⟩ := by
  rcases h.cases with ⟨e, hR, -, -⟩ | ⟨content, count, hr, hl⟩
  · exact absurd trivial hR
  · have hSeek : (Machine.step ⟨mem, content, l.desc⟩ (.seek (.start offset)) (.go count)) =
        (.ok offset, ⟨mem, content, ⟨offset, l.desc.flags⟩⟩) := Machine.lseek_start _ offset
    rw [hSeek] at hr hl
    refine ⟨hr, ?_⟩
    rw [hl, hr]
    rfl

/-- What a writing call has taken from its buffers. -/
def Took (mem : Memory) (bufs : List IoSlice) (ev : Event) : Except Errno Nat → Prop
  | .ok n => n ≤ totalLen bufs ∧ n ≤ isizeMax ∧ (n = 0 → totalLen bufs = 0) ∧
      ev.bytes mem = (mem.gather bufs).take n
  | .error _ => True

theorem took_of_taken {m : Machine} {c : SysCall} {bufs : List IoSlice} (hc : c.source = bufs)
    (count : Nat) :
    Took m.mem bufs ⟨c, .ok (m.taken bufs count).length⟩ (.ok (m.taken bufs count).length) :=
  ⟨m.length_taken_le bufs count, m.length_taken_le_isizeMax bufs count,
    Machine.length_taken_eq_zero, by subst hc; rfl⟩

/-- The write of the fallback: it moves the position and nothing else of the
description. -/
def Writes (mem : Memory) (bufs : List IoSlice) (l : Local) (r : Except Errno Nat)
    (l' : Local) : Prop :=
  ∃ pos c, c.IsWrite ∧ l' = ⟨⟨pos, l.desc.flags⟩, l.log ++ [⟨c, r⟩]⟩ ∧
    Took mem bufs ⟨c, r⟩ r

theorem Local.step_write {buf : Slice} {r : Except Errno Nat}
    (h : Local.Step mem (.write buf) l r l') : Writes mem [buf] l r l' := by
  rcases h.cases with ⟨e, -, hr, hl⟩ | ⟨content, count, hr, hl⟩
  · subst hr
    exact ⟨l.desc.pos, .write buf, trivial, hl, trivial⟩
  · subst hr
    exact ⟨_, .write buf, trivial, hl,
      took_of_taken (m := ⟨mem, content, l.desc⟩) (c := .write buf) rfl count⟩

theorem Local.step_writev {bufs : List IoSlice} {r : Except Errno Nat}
    (h : Local.Step mem (.writev bufs) l r l') : Writes mem bufs l r l' := by
  rcases h.cases with ⟨e, -, hr, hl⟩ | ⟨content, count, hr, hl⟩
  · subst hr
    exact ⟨l.desc.pos, .writev bufs, trivial, hl, trivial⟩
  · subst hr
    exact ⟨_, .writev bufs, trivial, hl,
      took_of_taken (m := ⟨mem, content, l.desc⟩) (c := .writev bufs) rfl count⟩

theorem Local.step_pwritev2 {bufs : List IoSlice} {offset : Nat} {r : Except Errno Nat}
    (h : Local.Step mem (.pwritev2 bufs offset ReadWriteFlags.APPEND) l r l') :
    l' = ⟨l.desc, l.log ++ [⟨.pwritev2 bufs offset ReadWriteFlags.APPEND, r⟩]⟩ ∧
      Took mem bufs ⟨.pwritev2 bufs offset ReadWriteFlags.APPEND, r⟩ r := by
  rcases h.cases with ⟨e, -, hr, hl⟩ | ⟨content, count, hr, hl⟩
  · subst hr
    exact ⟨hl, trivial⟩
  · subst hr
    exact ⟨hl, took_of_taken (m := ⟨mem, content, l.desc⟩)
      (c := .pwritev2 bufs offset ReadWriteFlags.APPEND) rfl count⟩

end

-- ---------------------------------------------------------------------------
-- The append methods
-- ---------------------------------------------------------------------------

/-- The calls have written the bytes that `o` reports, or none, and one of them
failed as `o` says. -/
def Reports (mem : Memory) (bufs : List IoSlice) (o : Except Errno Nat) (evs : List Event) :
    Prop :=
  match o with
  | .ok n => n ≤ totalLen bufs ∧ n ≤ isizeMax ∧ (n = 0 → totalLen bufs = 0) ∧
      written mem evs = (mem.gather bufs).take n
  | .error e => written mem evs = [] ∧ ∃ ev ∈ evs, ev.outcome = .error e

/-- What one append has done to its client: the description is what it was,
and the calls made since have written the bytes it reports. -/
structure Appended (mem : Memory) (bufs : List IoSlice) (l : Local) (r : Result Nat)
    (l' : Local) : Prop where
  desc : l'.desc = l.desc
  log : ∃ evs o, l'.log = l.log ++ evs ∧ r = Result.ofOs o ∧ Reports mem bufs o evs

/-- Since `l₀` the client has made calls, but written nothing. -/
def Quiet (mem : Memory) (l₀ l : Local) : Prop :=
  ∃ evs, l.log = l₀.log ++ evs ∧ written mem evs = []

section

variable {mem : Memory} {bufs : List IoSlice} {l₀ l : Local}

theorem Quiet.refl : Quiet mem l l := ⟨[], by simp, rfl⟩

theorem Quiet.concat (h : Quiet mem l₀ l) {ev : Event} (hev : ev.bytes mem = []) (d : Desc) :
    Quiet mem l₀ ⟨d, l.log ++ [ev]⟩ := by
  obtain ⟨evs, hLog, hEvs⟩ := h
  refine ⟨evs ++ [ev], ?_, ?_⟩
  · show l.log ++ [ev] = _
    rw [hLog, List.append_assoc]
  · rw [written_append, hEvs, written_singleton, hev, List.append_nil]

/-- A call that moves bytes, or fails, after calls that have written nothing. -/
theorem Quiet.reports (h : Quiet mem l₀ l) {c : SysCall} {o : Except Errno Nat}
    (hTook : Took mem bufs ⟨c, o⟩ o) :
    ∃ evs, l.log ++ [⟨c, o⟩] = l₀.log ++ evs ∧ Reports mem bufs o evs := by
  obtain ⟨evs, hLog, hEvs⟩ := h
  refine ⟨evs ++ [⟨c, o⟩], by rw [hLog, List.append_assoc], ?_⟩
  have hWritten : written mem (evs ++ [⟨c, o⟩]) = Event.bytes mem ⟨c, o⟩ := by
    rw [written_append, hEvs, written_singleton, List.nil_append]
  cases o with
  | ok n =>
    obtain ⟨hn, hMax, hZero, hBytes⟩ := hTook
    exact ⟨hn, hMax, hZero, hWritten.trans hBytes⟩
  | error e => exact ⟨hWritten, ⟨c, .error e⟩, by simp, rfl⟩

theorem Reports.concat {o : Except Errno Nat} {evs : List Event} (h : Reports mem bufs o evs)
    {ev : Event} (hev : ev.bytes mem = []) : Reports mem bufs o (evs ++ [ev]) := by
  have hWritten : written mem (evs ++ [ev]) = written mem evs := by
    rw [written_append, written_singleton, hev, List.append_nil]
  cases o with
  | ok n =>
    obtain ⟨hn, hMax, hZero, hBytes⟩ := h
    exact ⟨hn, hMax, hZero, hWritten.trans hBytes⟩
  | error e =>
    obtain ⟨hNone, ev', hMem, hOutcome⟩ := h
    exact ⟨hWritten.trans hNone, ev', List.mem_append_left _ hMem, hOutcome⟩

/-- A failure before anything was written. -/
theorem Quiet.appended_error (h : Quiet mem l₀ l) (hDesc : l.desc = l₀.desc) {c : SysCall}
    {e : Errno} :
    Appended mem bufs l₀ (.error (.err (.os e))) ⟨l.desc, l.log ++ [⟨c, .error e⟩]⟩ := by
  obtain ⟨evs, hLog, hReports⟩ := h.reports (c := c) (o := .error e) trivial
  exact ⟨hDesc, evs, .error e, hLog, rfl, hReports⟩

/-- **The fallback.** Whatever fails, and however much the write accepts, it is
made in append mode, and flags and position are put back. -/
theorem appendFallback_holds {write : Method (Except Errno Nat)}
    (hWrite : ∀ (f : Except Errno Nat → Method Nat) (Post : Result Nat → Local → Prop) l,
      l.desc.appends = true →
      (∀ r l', Writes mem bufs l r l' → (f r).Holds (appendRules mem) Post l') →
      (write >>= f).Holds (appendRules mem) Post l)
    (hQuiet : Quiet mem l₀ l) (hDesc : l.desc = l₀.desc) :
    (appendFallback write).Holds (appendRules mem) (Appended mem bufs l₀) l := by
  unfold appendFallback
  apply Prog.holds_op trivial
  intro flags l₁ hGetfl
  rcases Local.step_getfl hGetfl with ⟨e, rfl, rfl⟩ | ⟨rfl, rfl⟩
  · exact hQuiet.appended_error hDesc
  replace hQuiet := hQuiet.concat (bytes_of_source_nil mem (c := .fcntlGetfl) rfl (.ok 0)) l.desc
  apply Prog.holds_op trivial
  intro pos l₂ hTell
  rcases Local.step_tell hTell with ⟨e, rfl, rfl⟩ | ⟨rfl, rfl⟩
  · exact hQuiet.appended_error hDesc
  replace hQuiet := hQuiet.concat (bytes_of_source_nil mem (c := .tell) rfl (.ok 0)) l.desc
  apply Prog.holds_op trivial
  intro set l₃ hSet
  rcases Local.step_setfl hSet with ⟨e, -, rfl, rfl⟩ | ⟨rfl, rfl⟩
  · exact hQuiet.appended_error hDesc
  -- append mode is on: the write, then the two calls that undo the change
  apply hWrite _ _ _ (appends_setFlags l.desc.flags l.desc.pos)
  intro result l₄ hWrites
  obtain ⟨pos, c, hIsWrite, rfl, hTook⟩ := hWrites
  replace hQuiet := hQuiet.concat
    (bytes_of_source_nil mem (c := .fcntlSetfl (l.desc.flags ||| OFlags.APPEND)) rfl (.ok 0))
    l.desc
  obtain ⟨evs, hLog, hReports⟩ := hQuiet.reports hTook
  apply Prog.holds_op trivial
  intro reset l₅ hReset
  rcases Local.step_setfl hReset with ⟨e, hNot, -, -⟩ | ⟨rfl, rfl⟩
  · exact absurd ⟨⟨c, result⟩, by simp, hIsWrite⟩ hNot
  apply Prog.holds_op trivial
  intro back l₆ hBack
  obtain ⟨rfl, rfl⟩ := Local.step_seek hBack
  refine ⟨?_, evs ++ [⟨.fcntlSetfl l.desc.flags, .ok 0⟩] ++ [⟨.seek (.start l.desc.pos), .ok 0⟩],
    result, ?_, rfl, ?_⟩
  · simp only [setFlags_setFlags]
    exact hDesc
  · simp only [← List.append_assoc, ← hLog]
  · exact (hReports.concat (bytes_of_source_nil mem rfl _)).concat (bytes_of_source_nil mem rfl _)

/-- Both paths of an append. -/
theorem appendUsing_holds {write : Method (Except Errno Nat)}
    (hWrite : ∀ (f : Except Errno Nat → Method Nat) (Post : Result Nat → Local → Prop) l,
      l.desc.appends = true →
      (∀ r l', Writes mem bufs l r l' → (f r).Holds (appendRules mem) Post l') →
      (write >>= f).Holds (appendRules mem) Post l) (l : Local) :
    (appendUsing bufs write).Holds (appendRules mem) (Appended mem bufs l) l := by
  unfold appendUsing
  apply Prog.holds_op (by show _ ≠ _; decide)
  intro r l₁ hStep
  obtain ⟨rfl, hTook⟩ := Local.step_pwritev2 hStep
  have hPath : (try_ r : Method Nat).Holds (appendRules mem) (Appended mem bufs l)
      ⟨l.desc, l.log ++ [⟨.pwritev2 bufs 0 ReadWriteFlags.APPEND, r⟩]⟩ := by
    obtain ⟨evs, hLog, hReports⟩ := Quiet.refl.reports hTook
    exact ⟨rfl, evs, r, hLog, rfl, hReports⟩
  split
  · exact appendFallback_holds hWrite (Quiet.refl.concat (bytes_error mem _ _) _) rfl
  · exact appendFallback_holds hWrite (Quiet.refl.concat (bytes_error mem _ _) _) rfl
  · exact hPath

/-- **`append`**, under every answer of the kernel. -/
theorem append_holds (buf : Slice) (l : Local) :
    (append buf).Holds (appendRules mem) (Appended mem [buf] l) l :=
  appendUsing_holds (fun _ _ _ hAppends h =>
    Prog.holds_op hAppends fun r l' hStep => h r l' (Local.step_write hStep)) l

/-- **`append_vectored`**, under every answer of the kernel. -/
theorem appendVectored_holds (bufs : List IoSlice) (l : Local) :
    (appendVectored bufs).Holds (appendRules mem) (Appended mem (bufs.take iovMax) l) l :=
  appendUsing_holds (fun _ _ _ hAppends h =>
    Prog.holds_op hAppends fun r l' hStep => h r l' (Local.step_writev hStep)) l

end

end SystemInterface.Unix
