import SystemInterface.Lib.Crowd
import SystemInterface.Lib.Regions
import SystemInterface.Unix.Files
import SystemInterface.Unix.Scripts

/-!
# SystemInterface — positional calls on one description

Any number of clients share one open file description and make positional calls on
it, each of them in a region of the file that is its own. They take turns system call
by system call, and the kernel answers each call as it likes.

A client sees its own region as it leaves it, and the rest of the file as it was at
first; the calls of the others do not show. So its session is one that it could have
made alone.

Main result:

* `isolated_sessions` — every client returns what it returns alone.
-/

namespace SystemInterface.Unix

open Effect

-- ---------------------------------------------------------------------------
-- The system
-- ---------------------------------------------------------------------------

/-- What belongs to one client: its memory and the log of its calls. -/
structure Own where
  mem : Memory
  log : List Event

/-- The kernel as a client finds it. -/
def Own.kernel (l : Own) (t : OpenFile) : Kernel := ⟨⟨l.mem, t.content, t.desc⟩, l.log⟩

/-- A system call of client `i`; `env i` says how the kernel answers the calls of
that client, in view of those it has answered. -/
def acts {I : Type} (env : I → Env) : Acts I SysCall SysCall.Reply Own OpenFile :=
  fun i c s =>
    let (r, k) := Kernel.handle (env i) c (s.1.kernel s.2)
    (r, ⟨k.machine.mem, k.log⟩, ⟨k.machine.content, k.machine.desc⟩)

/-- The clients before the first step. -/
def clients {I α : Type} (mem : I → Memory) (content : List UInt8) (desc : Desc)
    (script : I → Script α) : Crowd I SysCall SysCall.Reply Fault Own OpenFile α :=
  ⟨⟨content, desc⟩, fun i => ⟨mem i, []⟩, script⟩

-- ---------------------------------------------------------------------------
-- Calls inside of a region
-- ---------------------------------------------------------------------------

/-- A positional transfer inside of the region. -/
def SysCall.Inside (region : Set Nat) : SysCall → Prop
  | pread buf offset => Set.Ico offset (offset + totalLen [buf]) ⊆ region
  | preadv bufs offset => Set.Ico offset (offset + totalLen bufs) ⊆ region
  | pwrite buf offset => Set.Ico offset (offset + totalLen [buf]) ⊆ region
  | pwritev bufs offset => Set.Ico offset (offset + totalLen bufs) ⊆ region
  | _ => False

/-- The buffers of a positional transfer. -/
def SysCall.buffers : SysCall → List Slice
  | pread buf _ => [buf]
  | preadv bufs _ => bufs
  | pwrite buf _ => [buf]
  | pwritev bufs _ => bufs
  | _ => []

/-- A client makes positional transfers inside of its region, and the kernel moves
no more bytes than it is asked to. -/
def insideRules (region : Set Nat) : Rules SysCall SysCall.Reply Own where
  Pre c _ := c.Inside region
  Step c _ r _ := ∀ v, r = .ok v → c.moved v ≤ totalLen c.buffers ∧ c.moved v ≤ isizeMax

namespace Machine

variable {m : Machine} {bufs : List Slice} {offset count : Nat} {region : Set Nat}
  {base : List UInt8}

/-- The machine, as far as its file is seen in the region. -/
noncomputable def seenIn (region : Set Nat) (base : List UInt8) (m : Machine) : Machine :=
  { m with content := within region base m.content }

theorem readAt_le (m : Machine) (bufs : List Slice) (offset count : Nat) :
    (m.readAt bufs offset count).1 ≤ totalLen bufs ∧
      (m.readAt bufs offset count).1 ≤ isizeMax := by
  have hLe := shortCount_le count
    (min (totalLen bufs) (min (m.content.drop offset).length maxRwCount))
  have hMax : maxRwCount ≤ isizeMax := by decide
  simp only [readAt]
  omega

theorem readAt_seenIn (m : Machine) (base : List UInt8) {bufs : List Slice} {offset : Nat}
    (hIn : Set.Ico offset (offset + totalLen bufs) ⊆ region) (count : Nat) :
    (m.seenIn region base).readAt bufs offset count =
      ((m.readAt bufs offset count).1, (m.readAt bufs offset count).2.seenIn region base) := by
  have hLen : (within region base m.content).length = m.content.length := length_within
  have hLe := (m.readAt_le bufs offset count).1
  have hRange : ∀ n ≤ totalLen bufs, ((within region base m.content).drop offset).take n =
      (m.content.drop offset).take n := fun n hn => take_drop_within
    (Set.Subset.trans (Set.Ico_subset_Ico_right (by omega)) hIn)
  simp only [readAt, seenIn, List.length_drop, hLen] at hLe ⊢
  rw [hRange _ hLe]

theorem writeAt_seenIn {m : Machine} (hNot : m.desc.appends = false)
    (hLen : m.content.length = base.length) (hRegion : ∀ i ∈ region, i < base.length)
    {bufs : List Slice} {offset : Nat}
    (hIn : Set.Ico offset (offset + totalLen bufs) ⊆ region) (count : Nat) :
    (m.seenIn region base).writeAt bufs offset count =
      ((m.writeAt bufs offset count).1, (m.writeAt bufs offset count).2.seenIn region base) := by
  obtain ⟨hTaken, hEnd⟩ := range_of_length_le hIn hRegion (m.length_taken_le bufs count)
  rw [← hLen] at hEnd
  have hSplice := within_splice 0 hLen hTaken hEnd
  rw [writeAt_of_not_appends hNot, writeAt_of_not_appends (m := m.seenIn region base) hNot]
  simp only [place, seenIn, hSplice]
  rfl

variable {c : SysCall}

theorem writtenIn_writeAt {m : Machine} (hNot : m.desc.appends = false)
    (hRegion : ∀ i ∈ region, i < m.content.length) {bufs : List Slice} {offset : Nat}
    (hIn : Set.Ico offset (offset + totalLen bufs) ⊆ region) (count : Nat) :
    (m.writeAt bufs offset count).2.desc = m.desc ∧
      WrittenIn 0 region m.content (m.writeAt bufs offset count).2.content := by
  rw [writeAt_of_not_appends hNot]
  exact ⟨rfl, offset, _, rfl, range_of_length_le hIn hRegion (m.length_taken_le bufs count)⟩

/-- **A positional transfer touches only its region.** -/
theorem step_writtenIn (hc : c.Inside region) (hNot : m.desc.appends = false)
    (hRegion : ∀ i ∈ region, i < m.content.length) (d : Decision) :
    (m.step c d).2.desc = m.desc ∧ WrittenIn 0 region m.content (m.step c d).2.content := by
  cases d with
  | fail e => exact ⟨rfl, writtenIn_refl⟩
  | go count =>
    cases c with
    | pread buf offset => exact ⟨rfl, writtenIn_refl⟩
    | preadv bufs offset => exact ⟨rfl, writtenIn_refl⟩
    | pwrite buf offset => exact writtenIn_writeAt hNot hRegion hc count
    | pwritev bufs offset => exact writtenIn_writeAt hNot hRegion hc count
    | _ => exact hc.elim

/-- **What is seen in the region** is what the call makes of what was seen there. -/
theorem step_seenIn (hc : c.Inside region) (hNot : m.desc.appends = false)
    (hLen : m.content.length = base.length) (hRegion : ∀ i ∈ region, i < base.length)
    (d : Decision) :
    (m.seenIn region base).step c d =
      ((m.step c d).1, (m.step c d).2.seenIn region base) := by
  cases d with
  | fail e => rfl
  | go count =>
    cases c with
    | pread buf offset =>
      simp only [step, m.readAt_seenIn base hc]
      rfl
    | preadv bufs offset =>
      simp only [step, m.readAt_seenIn base hc]
      rfl
    | pwrite buf offset =>
      simp only [step, writeAt_seenIn hNot hLen hRegion hc]
      rfl
    | pwritev bufs offset =>
      simp only [step, writeAt_seenIn hNot hLen hRegion hc]
      rfl
    | _ => exact hc.elim

theorem step_moved (hc : c.Inside region) {d : Decision} {v : c.Value}
    (hv : (m.step c d).1 = .ok v) :
    c.moved v ≤ totalLen c.buffers ∧ c.moved v ≤ isizeMax := by
  cases d with
  | fail e => exact absurd hv (by simp [step])
  | go count =>
    cases c with
    | pread buf offset =>
      cases hv
      exact m.readAt_le [buf] offset count
    | preadv bufs offset =>
      cases hv
      exact m.readAt_le bufs offset count
    | pwrite buf offset =>
      cases hv
      exact ⟨m.length_taken_le [buf] count, m.length_taken_le_isizeMax [buf] count⟩
    | pwritev bufs offset =>
      cases hv
      exact ⟨m.length_taken_le bufs count, m.length_taken_le_isizeMax bufs count⟩
    | _ => exact hc.elim

end Machine

-- ---------------------------------------------------------------------------
-- The invariant
-- ---------------------------------------------------------------------------

section

variable {I : Type} {content : List UInt8} {desc : Desc} {region : I → Set Nat}

/-- The description is as it was, and so are the size of the file and what lies in no
region. -/
def Untouched (region : I → Set Nat) (content : List UInt8) (desc : Desc) (_ : I → Own)
    (t : OpenFile) : Prop :=
  t.desc = desc ∧ Apart region content t.content

/-- What client `i` sees: its own region as it is, and the rest as it was. -/
noncomputable def clientView (region : I → Set Nat) (content : List UInt8) (i : I) (l : Own)
    (t : OpenFile) : Kernel :=
  ⟨Machine.seenIn (region i) content ⟨l.mem, t.content, t.desc⟩, l.log⟩

theorem clientView_start (i : I) (mem : Memory) :
    clientView region content i ⟨mem, []⟩ ⟨content, desc⟩ = ⟨⟨mem, content, desc⟩, []⟩ := by
  simp only [clientView, Machine.seenIn, within_self]

variable [DecidableEq I] (env : I → Env)

theorem acts_isolated (hNot : desc.appends = false)
    (hDisjoint : ∀ i j, i ≠ j → ∀ x ∈ region i, x ∉ region j)
    (hFile : ∀ i, ∀ x ∈ region i, x < content.length) :
    Isolated (acts env) (fun i => insideRules (region i)) (Untouched region content desc)
      (clientView region content) (fun i => Kernel.handle (env i)) where
  step i c own t _ hc v hv :=
    Machine.step_moved (m := ⟨(own i).mem, t.content, t.desc⟩) hc hv
  keeps i c own t hT hc := by
    obtain ⟨rfl, hApart⟩ := hT
    obtain ⟨hDesc, hWritten⟩ := Machine.step_writtenIn (m := ⟨(own i).mem, t.content, t.desc⟩) hc
      hNot (fun x hx => hApart.length_eq ▸ hFile i x hx) (env i (own i).log c)
    exact ⟨hDesc, hApart.written hWritten⟩
  own i c own t hT hc := by
    obtain ⟨rfl, hApart⟩ := hT
    have hStep := Machine.step_seenIn (m := ⟨(own i).mem, t.content, t.desc⟩) hc hNot
      hApart.length_eq (hFile i) (env i (own i).log c)
    simp only [Kernel.handle, clientView, acts, Own.kernel]
    rw [hStep]
  other i j c own t hj hT hc := by
    obtain ⟨rfl, hApart⟩ := hT
    obtain ⟨hDesc, hWritten⟩ := Machine.step_writtenIn (m := ⟨(own j).mem, t.content, t.desc⟩) hc
      hNot (fun x hx => hApart.length_eq ▸ hFile j x hx) (env j (own j).log c)
    have hSame := hWritten.within_eq hApart.length_eq (hDisjoint i j hj.symm)
    simp only [clientView, Machine.seenIn, acts, Own.kernel, Kernel.handle, hSame, hDesc]

end

-- ---------------------------------------------------------------------------
-- Sessions inside of a region
-- ---------------------------------------------------------------------------

section

variable {S : Type} {l : BufferLoop S} {call : S → Method Nat} {region : Set Nat} {own : Own}

/-- A transfer of one system call at the offset of the loop, from its buffers. -/
def Transfers (l : BufferLoop S) (call : S → Method Nat) : Prop :=
  ∀ s o region own, l.offset s = some o → Set.Ico o (o + (l.addrs s).length) ⊆ region →
    (call s).Holds (insideRules region)
      (fun r _ => ∀ n, r = .ok n → n ≤ (l.addrs s).length ∧ n ≤ isizeMax) own

theorem transfers_of_call {c : S → SysCall} {f : (s : S) → (c s).Reply → Method Nat}
    (hOk : ∀ s (v : (c s).Value), f s (.ok v) = Prog.ofExcept (.ok ((c s).moved v)))
    (hError : ∀ s e, ∃ fault, f s (.error e) = Prog.ofExcept (.error fault))
    (hInside : ∀ s o region, l.offset s = some o →
      Set.Ico o (o + (l.addrs s).length) ⊆ region → (c s).Inside region)
    (hLe : ∀ s, totalLen (c s).buffers ≤ (l.addrs s).length) :
    Transfers l fun s => sys (c s) >>= f s := by
  intro s o region own hOffset hIn
  refine Prog.holds_op (hInside s o region hOffset hIn) fun r own' hStep => ?_
  cases r with
  | error e =>
    obtain ⟨fault, hFault⟩ := hError s e
    rw [hFault]
    intro n hn
    cases hn
  | ok v =>
    rw [hOk]
    intro n hn
    obtain rfl := Except.ok.inj hn
    obtain ⟨hMoved, hMax⟩ := hStep v rfl
    exact ⟨Nat.le_trans hMoved (hLe s), hMax⟩

/-- **A loop of positional transfers stays in its range.** -/
theorem inside_safe (hCall : Transfers l call) (s₀ : S) {o : Nat} (hOffset : l.offset s₀ = some o)
    (hFits : o + (l.addrs s₀).length < 2 ^ 64) (hReady : l.Ready s₀)
    (hIn : Set.Ico o (o + (l.addrs s₀).length) ⊆ region) :
    Script.Safe (insideRules region) (fun _ _ => True)
      (l.transfer.script (fun s => .ofProg (call s)) s₀) own := by
  have hFits' : l.OffsetFits s₀ := BufferLoop.offsetFits_some hOffset hFits
  refine Transfer.script_safe (l.At s₀) (fun _ _ => True) (fun _ _ _ => True)
    (fun _ _ _ _ _ _ => trivial) (fun _ _ _ _ _ _ => trivial) ?_
    (BufferLoop.At.start hReady) trivial
  intro k s w hAt hne _
  have hRange : Set.Ico (o + k) (o + k + (l.addrs s).length) ⊆ region := by
    have hLen := hAt.length
    have hLe := hAt.le
    exact Set.Subset.trans (Set.Ico_subset_Ico (by omega) (by omega)) hIn
  have hOffset' : l.offset s = some (o + k) := by rw [hAt.offset_eq, hOffset]; rfl
  refine Script.safe_ofProg ((hCall s (o + k) region w hOffset' hRange).mono ?_)
  intro r w' hMoved
  refine hAt.moves hFits' hne ?_
  cases r with
  | ok n =>
    obtain ⟨hn, hMax⟩ := hMoved n rfl
    exact ⟨hn, .inl hMax, fun _ => trivial, fun _ _ _ => trivial⟩
  | error f => simp only [BufferLoop.Moved, ite_self]

end

section

variable {region : Set Nat} {own : Own}

/-- A transfer of the first buffers only stays in the range of them all. -/
theorem subset_of_total {o total : Nat} {bufs : List Slice} (hLe : totalLen bufs ≤ total)
    (hIn : Set.Ico o (o + total) ⊆ region) : Set.Ico o (o + totalLen bufs) ⊆ region :=
  Set.Subset.trans (Set.Ico_subset_Ico_right (Nat.add_le_add_left hLe o)) hIn

theorem totalLen_singleton_le (buf : Slice) : totalLen [buf] ≤ buf.addrs.length := by
  rw [Slice.length_addrs]
  exact Nat.le_refl buf.len

theorem totalLen_take_le_cells (bufs : List Slice) :
    totalLen (bufs.take iovMax) ≤ (cells bufs).length := by
  rw [length_cells]
  exact totalLen_take_le bufs iovMax

theorem transfers_readAt (p : Profile) :
    Transfers (RustStd.readExactAt.bufferLoop p) fun s => readAt s.1 s.2 :=
  transfers_of_call (c := fun s : Slice × Nat => .pread s.1 s.2) (fun _ _ => rfl)
    (fun _ e => ⟨.err (.os e), rfl⟩) (fun s _ _ hOffset hIn => by
      obtain rfl := Option.some.inj hOffset
      exact subset_of_total (totalLen_singleton_le s.1) hIn)
    (fun s => totalLen_singleton_le s.1)

theorem transfers_readVectoredAt (p : Profile) :
    Transfers (FileIoExt.Default.readExactVectoredAt.bufferLoop p)
      fun s => readVectoredAt s.1 s.2 :=
  transfers_of_call (c := fun s : List IoSliceMut × Nat => .preadv (s.1.take iovMax) s.2)
    (fun _ _ => rfl) (fun _ e => ⟨.err (.os e), rfl⟩) (fun s _ _ hOffset hIn => by
      obtain rfl := Option.some.inj hOffset
      exact subset_of_total (totalLen_take_le_cells s.1) hIn)
    (fun s => totalLen_take_le_cells s.1)

theorem transfers_writeAt (p : Profile) :
    Transfers (RustStd.writeAllAt.bufferLoop p) fun s => writeAt s.1 s.2 :=
  transfers_of_call (c := fun s : Slice × Nat => .pwrite s.1 s.2) (fun _ _ => rfl)
    (fun _ e => ⟨.err (.os e), rfl⟩) (fun s _ _ hOffset hIn => by
      obtain rfl := Option.some.inj hOffset
      exact subset_of_total (totalLen_singleton_le s.1) hIn)
    (fun s => totalLen_singleton_le s.1)

theorem transfers_writeVectoredAt (p : Profile) :
    Transfers (FileIoExt.Default.writeAllVectoredAt.bufferLoop p)
      fun s => writeVectoredAt s.1 s.2 :=
  transfers_of_call (c := fun s : List IoSlice × Nat => .pwritev (s.1.take iovMax) s.2)
    (fun _ _ => rfl) (fun _ e => ⟨.err (.os e), rfl⟩) (fun s _ _ hOffset hIn => by
      obtain rfl := Option.some.inj hOffset
      exact subset_of_total (totalLen_take_le_cells s.1) hIn)
    (fun s => totalLen_take_le_cells s.1)

/-- A call inside of the region makes positional transfers inside of it. -/
theorem script_inside (p : Profile) {op : Op} (hOp : op.Inside region) :
    Script.Safe (insideRules region) (fun _ _ => True) (script p op) own := by
  have hWord : i64Max < 2 ^ 64 := by decide
  cases op with
  | writeAllAt buf offset =>
    obtain ⟨hFits, hIn⟩ := hOp
    rw [← Slice.length_addrs] at hFits hIn
    exact (inside_safe (transfers_writeAt p) (buf, offset) rfl
      (Nat.lt_of_le_of_lt hFits hWord) trivial hIn).andThen fun _ _ _ => Script.safe_done trivial
  | writeAllVectoredAt bufs offset =>
    obtain ⟨hFits, hIn⟩ := hOp
    rw [← length_cells] at hFits hIn
    exact (inside_safe (transfers_writeVectoredAt p) (bufs, offset) rfl
      (Nat.lt_of_le_of_lt hFits hWord) trivial hIn).andThen fun _ _ _ => Script.safe_done trivial
  | readExactAt buf offset =>
    obtain ⟨hFits, hIn⟩ := hOp
    rw [← Slice.length_addrs] at hFits hIn
    exact (inside_safe (transfers_readAt p) (buf, offset) rfl
      (Nat.lt_of_le_of_lt hFits hWord) trivial hIn).andThen fun _ _ _ => Script.safe_done trivial
  | readExactVectoredAt bufs offset =>
    obtain ⟨hFits, hIn⟩ := hOp
    rw [← length_cells, ← cells_skipLeadingEmpties] at hFits hIn
    exact (inside_safe (transfers_readVectoredAt p) (skipLeadingEmpties bufs, offset) rfl
      (Nat.lt_of_le_of_lt hFits hWord) (headFull_skipLeadingEmpties bufs) hIn).andThen
      fun _ _ _ => Script.safe_done trivial
  | _ => exact hOp.elim

theorem sessionScript_inside (p : Profile) {ops : List Op} (hOps : ∀ op ∈ ops, op.Inside region) :
    Script.Safe (insideRules region) (fun _ _ => True) (sessionScript p ops) own :=
  Script.Safe.each_keeps (fun _ => True) (fun op hop _ _ => script_inside p (hOps op hop)) trivial

end

/-- **Clients that keep to their regions are alone.** Any number of clients share one
description, each with a session of positional calls in a region of its own inside of
the file. However their system calls follow on one another and are answered, the
description and the size of the file stay as they are, what lies in no region is not
touched, and a client that is through has returned, read and written what its session
returns, reads and writes alone. -/
theorem isolated_sessions {I : Type} [DecidableEq I] (p : Profile) (env : I → Env)
    (mem : I → Memory) (content : List UInt8) (desc : Desc) (hNot : desc.appends = false)
    (region : I → Set Nat) (hDisjoint : ∀ i j, i ≠ j → ∀ x ∈ region i, x ∉ region j)
    (hFile : ∀ i, ∀ x ∈ region i, x < content.length) (sessions : I → List Op)
    (hInside : ∀ i, ∀ op ∈ sessions i, op.Inside (region i))
    {w : Crowd I SysCall SysCall.Reply Fault Own OpenFile (List Reply)}
    (hReaches : Crowd.Reaches (acts env)
      (clients mem content desc fun i => sessionScript p (sessions i)) w) :
    w.shared.desc = desc ∧ w.shared.content.length = content.length ∧
    (∀ x, (∀ i, x ∉ region i) → w.shared.content[x]? = content[x]?) ∧
    ∀ i r, (w.progress i).result = some r → ∃ alone : List UInt8,
      (session (file p (env i)) (sessions i)).Returns ⟨⟨mem i, content, desc⟩, []⟩ r
        ⟨⟨(w.own i).mem, alone, desc⟩, (w.own i).log⟩ ∧
      (∀ x ∈ region i, w.shared.content[x]? = alone[x]?) ∧
      ∀ x, x ∉ region i → alone[x]? = content[x]? := by
  have hIsolated := acts_isolated env hNot hDisjoint hFile
  have hStart : Crowd.Inv (fun i => insideRules (region i)) (Untouched region content desc)
      (fun _ _ _ => True) (clients mem content desc fun i => sessionScript p (sessions i)) :=
    ⟨⟨rfl, rfl, fun _ _ => rfl⟩, fun i => sessionScript_inside p (hInside i)⟩
  obtain ⟨hDesc, hApart⟩ := (hIsolated.toGuarded.reaches hReaches hStart).whole
  refine ⟨hDesc, hApart.length_eq, hApart.outside, fun i r hr => ?_⟩
  have hStartView : clientView region content i ⟨mem i, []⟩ ⟨content, desc⟩ =
      ⟨⟨mem i, content, desc⟩, []⟩ := clientView_start i (mem i)
  have hEndView : clientView region content i (w.own i) w.shared =
      ⟨⟨(w.own i).mem, within (region i) content w.shared.content, desc⟩, (w.own i).log⟩ := by
    simp only [clientView, Machine.seenIn, hDesc]
  have hReturns := hIsolated.returns hReaches hStart hr
  rw [hEndView] at hReturns
  refine ⟨within (region i) content w.shared.content, ?_,
    fun x hx => (getElem?_within_of_mem hx).symm,
    fun x hx => getElem?_within_of_not_mem hApart.length_eq hx⟩
  rw [← sessionScript_toProc, ← hStartView]
  exact hReturns

/-- A client that writes two bytes at a time, and one that reads at once; the first
buffer of the second is empty. -/
theorem isolated_sessions_two :
    ∃ w : Crowd (Fin 2) SysCall SysCall.Reply Fault Own OpenFile (List Reply),
      (∀ i, (w.progress i).result = some (.ok [.unit (.ok ())])) ∧
      w.shared.content = [10, 11, 12, 4, 5, 6] ∧ w.shared.desc = ⟨0, 2⟩ ∧
      w.shared.content.length = [(1 : UInt8), 2, 3, 4, 5, 6].length ∧
      (∀ x, (∀ i : Fin 2, x ∉ Set.Ico (3 * i.val) (3 * i.val + 3)) →
        w.shared.content[x]? = [(1 : UInt8), 2, 3, 4, 5, 6][x]?) ∧
      ∀ (i : Fin 2) r, (w.progress i).result = some r → ∃ alone : List UInt8,
        (session (file .debug fun _ _ => .go (2 + i))
          (if i = 0 then [.writeAllAt ⟨10, 3, by decide⟩ 0]
            else [.readExactVectoredAt [⟨20, 0, by decide⟩, ⟨30, 2, by decide⟩] 4])).Returns
          ⟨⟨UInt8.ofNat, [1, 2, 3, 4, 5, 6], ⟨0, 2⟩⟩, []⟩ r
          ⟨⟨(w.own i).mem, alone, ⟨0, 2⟩⟩, (w.own i).log⟩ ∧
        (∀ x ∈ Set.Ico (3 * i.val) (3 * i.val + 3), w.shared.content[x]? = alone[x]?) ∧
        ∀ x, x ∉ Set.Ico (3 * i.val) (3 * i.val + 3) →
          alone[x]? = [(1 : UInt8), 2, 3, 4, 5, 6][x]? := by
  refine ⟨_, ?_, ?_, isolated_sessions .debug (fun (i : Fin 2) _ _ => .go (2 + i))
    (fun _ => UInt8.ofNat) [1, 2, 3, 4, 5, 6] ⟨0, 2⟩ (by decide)
    (fun i => Set.Ico (3 * i.val) (3 * i.val + 3)) ?_ ?_
    (fun i => if i = 0 then [.writeAllAt ⟨10, 3, by decide⟩ 0]
      else [.readExactVectoredAt [⟨20, 0, by decide⟩, ⟨30, 2, by decide⟩] 4]) ?_
    (Crowd.reaches_run _ [0, 1, 0, 0, 1, 0, 1, 0] _)⟩
  · decide
  · decide
  · intro i j hij
    have hVal : i.val ≠ j.val := fun h => hij (Fin.ext h)
    intro x hi hj
    rw [Set.mem_Ico] at hi hj
    omega
  · intro i x hx
    rw [Set.mem_Ico] at hx
    have := i.isLt
    show x < 6
    omega
  · intro i op hop
    match i, hop with
    | 0, hop =>
      obtain rfl := List.mem_singleton.mp hop
      exact ⟨by decide, Set.Subset.refl _⟩
    | 1, hop =>
      obtain rfl := List.mem_singleton.mp hop
      exact ⟨by decide, Set.Ico_subset_Ico (by decide) (by decide)⟩

end SystemInterface.Unix
