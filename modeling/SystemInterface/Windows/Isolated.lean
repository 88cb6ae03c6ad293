import SystemInterface.Lib.Regions
import SystemInterface.Windows.Scripts

/-!
# SystemInterface — positional calls through one handle

Any number of clients share a handle of one file and make positional calls, each of them
in a region of the file that is its own. Every call works on a handle that it opens, and
moves the position of that one. The clients take turns operation by operation, and any
operation may be interrupted.

Main result:

* `isolated_handles` — every client returns what it returns alone, and the shared handle
  stays where it is.
-/

namespace SystemInterface.Windows

open Effect

-- ---------------------------------------------------------------------------
-- The system
-- ---------------------------------------------------------------------------

/-- An operation of client `i`, which has the shared handle as `file i` and whose
operations `env i` interrupts. -/
def acts {I : Type} (env : I → Env) (file : I → Nat) :
    Acts I OsCall OsCall.Reply Client OpenFile :=
  fun i c s =>
    let o := (env i).handle c (s.1.world (file i) s.2)
    (o.1, o.2.client, o.2.shared (file i))

/-- The clients before the first step. -/
def clients {I α : Type} (client : I → Client) (t : OpenFile) (script : I → Script α) :
    Crowd I OsCall OsCall.Reply Fault Client OpenFile α :=
  ⟨t, client, script⟩

-- ---------------------------------------------------------------------------
-- Operations inside of a region
-- ---------------------------------------------------------------------------

/-- An operation that leaves the shared handle alone, and moves bytes inside of the region
only. -/
inductive Inside (region : Set Nat) (file : Nat) (c : OsCall) (l : Client) : Prop where
  | opens {access : Access} (kind : c.kind = .opens access) (opened : file < l.opened)
  | seeks {h offset : Nat} {access : Access} (kind : c.kind = .seeks h (.start offset))
    (isOpen : l.HasOpen file h access)
  | reads {h : Nat} {bufs : List IoSliceMut} (kind : c.kind = .reads h bufs)
    (isOpen : l.HasOpen file h .read)
    (range : Set.Ico (l.handles h).pos ((l.handles h).pos + totalLen bufs) ⊆ region)
  | writesAt {h : Nat} {buf : Slice} {offset : Nat} (kind : c.kind = .writesAt h buf offset)
    (isOpen : l.HasOpen file h .write) (range : Set.Ico offset (offset + buf.len) ⊆ region)

def insideRules (region : Set Nat) (env : Env) (file : Nat) (hd : Handle) :
    Rules OsCall OsCall.Reply Client where
  Pre := Inside region file
  Step c l r l' := ∃ content, r = (env.handle c (l.world file ⟨content, hd⟩)).1 ∧
    l' = (env.handle c (l.world file ⟨content, hd⟩)).2.client

section

variable {region : Set Nat} {base : List UInt8} (env : Env) {file h : Nat} {c : OsCall} {l : Client}
  {t : OpenFile} {w : World}

/-- The world, as far as the file is seen in the region. -/
noncomputable def World.seenIn (region : Set Nat) (base : List UInt8) (w : World) : World :=
  { w with content := within region base w.content }

theorem readAt_seenIn {bufs : List Slice} {buf : Slice} {offset : Nat}
    (hReads : (w.handles h).access.reads = true) (hWin : LeadingWindow bufs [buf])
    (hIn : Set.Ico offset (offset + totalLen bufs) ⊆ region) (size : Nat) :
    (w.seenIn region base).readAt h buf offset size =
      ((w.readAt h buf offset size).1, (w.readAt h buf offset size).2.seenIn region base) := by
  have hLen : (within region base w.content).length = w.content.length := length_within
  have hBuf : buf.len ≤ totalLen bufs := hWin.le
  have hRange : ∀ n ≤ buf.len, ((within region base w.content).drop offset).take n =
      (w.content.drop offset).take n := fun n hn => take_drop_within
    (Set.Subset.trans (Set.Ico_subset_Ico_right (by omega)) hIn)
  have hLe := shortCount_le size (min (min buf.len u32Max) (w.content.drop offset).length)
  simp only [World.readAt, World.seenIn, hReads, if_true, List.length_drop, hLen] at hLe ⊢
  rw [hRange _ (by omega)]
  rfl

theorem writeAt_seenIn {buf : Slice} {offset : Nat} (hWrites : (w.handles h).access = .write)
    (hLen : w.content.length = base.length) (hRegion : ∀ i ∈ region, i < base.length)
    (hIn : Set.Ico offset (offset + buf.len) ⊆ region) (size : Nat) :
    (w.seenIn region base).writeAt h buf offset size =
      ((w.writeAt h buf offset size).1, (w.writeAt h buf offset size).2.seenIn region base) := by
  set d := (w.mem.gather [buf]).take (shortCount size (min buf.len u32Max)) with hd
  obtain ⟨hTaken, hEnd⟩ := range_of_length_le hIn hRegion (d := d) (by
    have hShort := shortCount_le size (min buf.len u32Max)
    rw [hd, List.length_take]
    omega)
  rw [← hLen] at hEnd
  have hSplice := within_splice 0 hLen hTaken hEnd
  simp only [World.writeAt, World.seenIn, hWrites, Access.writes, if_true, reduceCtorEq, if_false,
    ← hd, ← hSplice]
  rfl

/-- **What is seen in the region** is what the operation makes of what was seen there. -/
theorem handle_seenIn (hInside : Inside region file c l) (hLen : t.content.length = base.length)
    (hRegion : ∀ i ∈ region, i < base.length) :
    env.handle c ((l.world file t).seenIn region base) =
      ((env.handle c (l.world file t)).1,
        (env.handle c (l.world file t)).2.seenIn region base) := by
  unfold Env.handle
  show (if env.interrupted l.steps then _ else _) = _
  cases hIntr : env.interrupted (l.world file t).steps with
  | true =>
    simp only [show env.interrupted l.steps = true from hIntr, if_true]
    rfl
  | false =>
    simp only [show env.interrupted l.steps = false from hIntr, Bool.false_eq_true, if_false]
    set w := (l.world file t).atStep ((l.world file t).steps + 1) with hw
    show env.act c (w.seenIn region base) = _
    cases hInside with
    | opens kind opened =>
      rw [act_opens env kind, act_opens env kind]
      rfl
    | seeks kind isOpen =>
      rw [act_seeks env kind, act_seeks env kind, seek_start, seek_start]
      split
      · rfl
      · rfl
    | @reads h bufs kind isOpen range =>
      obtain ⟨buf, hWin, hAct⟩ := act_reads env kind
      have hAside : Aside file t.handle h .read w := isOpen.aside.atStep _
      have hPos : (w.handles h).pos = (l.handles h).pos :=
        congrArg Handle.pos (Client.world_handles isOpen.ne)
      rw [← hPos] at range
      rw [hAct, hAct]
      exact readAt_seenIn (by rw [hAside.access]; rfl) hWin range _
    | writesAt kind isOpen range =>
      have hAside : Aside file t.handle _ .write w := isOpen.aside.atStep _
      rw [act_writesAt env kind, act_writesAt env kind]
      split
      · exact writeAt_seenIn hAside.access hLen hRegion range _
      · rfl

/-- **An operation of a client** leaves the shared handle where it was, and writes inside of
the region only. -/
theorem handle_writtenIn (hInside : Inside region file c l)
    (hRegion : ∀ i ∈ region, i < t.content.length) :
    (env.handle c (l.world file t)).2.handles file = t.handle ∧
      WrittenIn 0 region t.content (env.handle c (l.world file t)).2.content := by
  cases hInside with
  | opens kind opened =>
    have hOpens := handle_opens env kind (l.world_own (t := t) opened)
    rw [hOpens.content]
    exact ⟨hOpens.own.handle, writtenIn_refl⟩
  | seeks kind isOpen =>
    have hSeeks := handle_seeks env kind (isOpen.aside (t := t))
    rw [hSeeks.content]
    exact ⟨hSeeks.aside.own.handle, writtenIn_refl⟩
  | reads kind isOpen =>
    obtain ⟨d, hReads⟩ := handle_reads env kind (isOpen.aside (t := t))
    rw [hReads.content]
    exact ⟨hReads.aside.own.handle, writtenIn_refl⟩
  | @writesAt h buf offset kind isOpen range =>
    obtain ⟨n, hWrites⟩ := handle_writesAt env kind (isOpen.aside (t := t))
    refine ⟨hWrites.aside.own.handle, offset, _, hWrites.content,
      range_of_length_le range hRegion ?_⟩
    have hLe := hWrites.le
    rw [totalLen_cons, totalLen_nil] at hLe
    rw [List.length_take]
    omega

end

-- ---------------------------------------------------------------------------
-- The invariant
-- ---------------------------------------------------------------------------

section

variable {I : Type} {region : I → Set Nat} {file : I → Nat} {t : OpenFile}

/-- The shared handle is where it was, and the file is as it was but for the regions. -/
def Untouched (region : I → Set Nat) (t : OpenFile) (_ : I → Client) (t' : OpenFile) : Prop :=
  t'.handle = t.handle ∧ Apart region t.content t'.content

/-- What client `i` sees: its own region as it is, and the rest as it was. -/
noncomputable def clientView (region : I → Set Nat) (file : I → Nat) (content : List UInt8) (i : I)
    (l : Client) (t : OpenFile) : World :=
  (l.world (file i) t).seenIn (region i) content

theorem clientView_congr {content : List UInt8} {i : I} {l : Client} {s s' : OpenFile}
    (hContent : within (region i) content s'.content = within (region i) content s.content)
    (hHandle : s'.handle = s.handle) :
    clientView region file content i l s' = clientView region file content i l s := by
  simp only [clientView, World.seenIn, Client.world, hContent, hHandle]

theorem acts_isolated [DecidableEq I] (env : I → Env) (file : I → Nat) (t : OpenFile)
    (hDisjoint : ∀ i j, i ≠ j → ∀ x ∈ region i, x ∉ region j)
    (hFile : ∀ i, ∀ x ∈ region i, x < t.content.length) :
    Isolated (acts env file) (fun i => insideRules (region i) (env i) (file i) t.handle)
      (Untouched region t) (clientView region file t.content) (fun i => (env i).handle) where
  step i c own s hS _ := by
    obtain ⟨hHandle, -⟩ := hS
    rw [← hHandle]
    exact ⟨s.content, rfl, rfl⟩
  keeps i c own s hS hc := by
    obtain ⟨hHandle, hApart⟩ := hS
    obtain ⟨hKept, hWritten⟩ := handle_writtenIn (env i) hc
      (t := s) fun x hx => hApart.length_eq ▸ hFile i x hx
    exact ⟨hKept.trans hHandle, hApart.written hWritten⟩
  own i c own s hS hc := by
    obtain ⟨-, hApart⟩ := hS
    rw [clientView, handle_seenIn (env i) hc hApart.length_eq (hFile i)]
    simp only [clientView, acts, World.client_world]
  other i j c own s hj hS hc := by
    obtain ⟨-, hApart⟩ := hS
    obtain ⟨hKept, hWritten⟩ := handle_writtenIn (env j) hc
      (t := s) fun x hx => hApart.length_eq ▸ hFile j x hx
    exact clientView_congr (hWritten.within_eq hApart.length_eq (hDisjoint i j hj.symm)) hKept

end

-- ---------------------------------------------------------------------------
-- Sessions inside of a region
-- ---------------------------------------------------------------------------

section

variable {region : Set Nat} {env : Env} {file h offset : Nat} {hd : Handle} {access : Access}
  {c : OsCall} {l : Client}

theorem opens_inside (hKind : c.kind = .opens access) (hOpened : file < l.opened) :
    Script.Safe (insideRules region env file hd) (fun r l' => file < l'.opened ∧
      (r = .error interruption ∨ ∃ h, r = .ok h ∧ l'.HasOpen file h access ∧
        (l'.handles h).pos = 0)) (call c) l := by
  refine Script.safe_call (.opens hKind hOpened) ?_
  rintro r l' ⟨content, rfl, rfl⟩
  have hOpens := handle_opens env hKind (l.world_own (t := ⟨content, hd⟩) hOpened)
  refine Script.safe_done ⟨hOpens.own.opened, ?_⟩
  exact hOpens.result.imp id fun ⟨h, hr, hAside, hPos⟩ => ⟨h, hr, hAside.hasOpen, hPos⟩

theorem seeks_inside (hMax : offset ≤ i64Max) (hOpen : l.HasOpen file h access) :
    Script.Safe (insideRules region env file hd) (fun r l' => l'.HasOpen file h access ∧
      (r = .error interruption ∨ r = .ok offset ∧ (l'.handles h).pos = offset))
      (call (.seek h (.start offset))) l := by
  refine Script.safe_call (.seeks rfl hOpen) ?_
  rintro r l' ⟨content, rfl, rfl⟩
  have hSeeks := handle_seeks env (c := .seek h (.start offset)) rfl
    (hOpen.aside (t := ⟨content, hd⟩))
  refine Script.safe_done ⟨hSeeks.aside.hasOpen, ?_⟩
  have hResult := hSeeks.result
  rw [if_pos hMax] at hResult
  exact hResult.imp id fun ⟨hr, hPos⟩ => ⟨hr, hPos hMax⟩

/-- **A loop of reads stays in its range**: the handle is where the loop is. -/
theorem reads_inside {S : Type} {b : BufferLoop S} {c : Nat → S → OsCall} (s₀ : S)
    (hKind : ∀ h s, ∃ bufs, (c h s).kind = .reads h bufs ∧ cells bufs = b.addrs s)
    (hNone : b.offset s₀ = none) (hReady : b.Ready s₀) (hMax : offset ≤ i64Max)
    (hIn : Set.Ico offset (offset + (b.addrs s₀).length) ⊆ region) (hOpened : file < l.opened) :
    Script.Safe (insideRules region env file hd) (fun _ l' => file < l'.opened) (do
      let reopened ← retried (call (.reopen file))
      let _ ← retried (call (.seek reopened (.start offset)))
      b.transfer.script (fun s => call (c reopened s)) s₀) l := by
  refine positioned_safe id (fun _ => True)
    (fun l _ hOpened' => (opens_inside rfl hOpened').mono fun _ _ h => ⟨trivial, h⟩)
    (fun h l _ hOpen => (seeks_inside hMax hOpen).mono fun _ _ h => ⟨trivial, h⟩)
    (fun h l _ hOpen hPos => ?_) trivial hOpened
  refine Transfer.script_safe (b.At s₀)
    (fun k l => l.HasOpen file h .read ∧ (l.handles h).pos = offset + k)
    (fun _ _ l => file < l.opened) (fun _ _ _ _ _ hTrack => hTrack.1.opened)
    (fun _ _ _ _ _ hFailed => hFailed) ?_ (BufferLoop.At.start hReady) ⟨hOpen, hPos⟩
  rintro k s l hAt hne ⟨hOpen', hPos'⟩
  obtain ⟨bufs, hReads, hCells⟩ := hKind h s
  have hRange : Set.Ico (l.handles h).pos ((l.handles h).pos + totalLen bufs) ⊆ region := by
    have hLen := hAt.length
    have hLe := hAt.le
    rw [← hCells, length_cells] at hLen
    exact Set.Subset.trans (Set.Ico_subset_Ico (by omega) (by omega)) hIn
  refine Script.safe_call (.reads hReads hOpen' hRange) ?_
  rintro r l' ⟨content, rfl, rfl⟩
  obtain ⟨d, hRead⟩ := handle_reads env hReads (hOpen'.aside (t := ⟨content, hd⟩))
  have hPos₁ := hRead.pos
  rw [Client.world_handles hOpen'.ne, hPos'] at hPos₁
  refine Script.safe_done (hAt.moves (BufferLoop.offsetFits_none hNone) hne ?_)
  rcases hRead.result with hr | ⟨hr, rfl⟩
  · rw [hr]
    refine ⟨?_, .inl (hRead.le_max.trans (by decide)),
      fun _ => ⟨hRead.aside.hasOpen, by rw [← Nat.add_assoc]; exact hPos₁⟩,
      fun _ _ _ => hRead.aside.own.opened⟩
    rw [← hCells, length_cells]
    exact hRead.le
  · rw [hr]
    show if b.transfer.retry interruption then _ else _
    split
    · exact ⟨hRead.aside.hasOpen, hPos₁⟩
    · exact hRead.aside.own.opened

/-- **`write_all_at` stays in its range.** -/
theorem writeAllAt_inside (p : Profile) (buf : Slice) (hFits : offset + buf.len ≤ i64Max)
    (hIn : Set.Ico offset (offset + buf.len) ⊆ region) (hOpened : file < l.opened) :
    Script.Safe (insideRules region env file hd) (fun _ l' => file < l'.opened)
      (writeAllAtScript p file buf offset) l := by
  have hWord : i64Max < 2 ^ 64 := by decide
  rw [← Slice.length_addrs] at hFits hIn
  have hFits' : (writeAllAt.bufferLoop p).OffsetFits (buf, offset) :=
    BufferLoop.offsetFits_some rfl (Nat.lt_of_le_of_lt hFits hWord)
  refine (opens_inside (c := .reopenWrite file) rfl hOpened).bind ?_ fun _ _ hOpens => hOpens.1
  rintro h l₁ ⟨-, hOk⟩
  obtain ⟨_, hEq, hOpen, -⟩ := hOk.resolve_left (by simp)
  obtain rfl := Except.ok.inj hEq
  refine Transfer.script_safe ((writeAllAt.bufferLoop p).At (buf, offset))
    (fun _ l => l.HasOpen file h .write) (fun _ _ l => file < l.opened)
    (fun _ _ _ _ _ hTrack => hTrack.opened) (fun _ _ _ _ _ hFailed => hFailed) ?_
    (BufferLoop.At.start trivial) hOpen
  intro k s l hAt hne hOpen'
  have hOffset : s.2 = offset + k := Option.some.inj hAt.offset_eq
  have hLen : s.1.len = buf.addrs.length - k := (Slice.length_addrs s.1).symm.trans hAt.length
  have hLe : k ≤ buf.addrs.length := hAt.le
  have hRange : Set.Ico s.2 (s.2 + s.1.len) ⊆ region :=
    Set.Subset.trans (Set.Ico_subset_Ico (by omega) (by omega)) hIn
  refine Script.safe_call (.writesAt (h := h) rfl hOpen' hRange) ?_
  rintro r l' ⟨content, rfl, rfl⟩
  obtain ⟨n, hWrites⟩ := handle_writesAt env (c := .seekWrite h s.1 s.2) rfl
    (hOpen'.aside (t := ⟨content, hd⟩))
  refine Script.safe_done (hAt.moves hFits' hne ?_)
  rcases hWrites.result with hr | ⟨⟨f, hr⟩, rfl⟩
  · rw [hr]
    refine ⟨?_, .inl (hWrites.le_max.trans (by decide)), fun _ => hWrites.aside.hasOpen,
      fun _ _ _ => hWrites.aside.own.opened⟩
    show n ≤ s.1.addrs.length
    rw [← cells_singleton, length_cells]
    exact hWrites.le
  · rw [hr]
    exact hWrites.aside.own.opened

/-- **`write_all_vectored_at` stays in its range**, buffer after buffer. -/
theorem writeAllVectoredAt_inside (p : Profile) {bufs : List IoSlice}
    (hFits : offset + totalLen bufs ≤ i64Max)
    (hIn : Set.Ico offset (offset + totalLen bufs) ⊆ region) (hOpened : file < l.opened) :
    Script.Safe (insideRules region env file hd) (fun _ l' => file < l'.opened)
      (writeAllVectoredAtScript p file bufs offset) l := by
  induction bufs generalizing offset l with
  | nil => exact Script.safe_done hOpened
  | cons buf bufs ih =>
    rw [totalLen_cons] at hFits hIn
    have hAdd : p.add offset buf.len = .ok (offset + buf.len) :=
      p.add_of_lt (by unfold i64Max at hFits; omega)
    refine (writeAllAt_inside p buf (by omega) ?_ hOpened).bind (fun _ l₁ hOpened₁ => ?_)
      fun _ _ hOpened₁ => hOpened₁
    · exact Set.Subset.trans (Set.Ico_subset_Ico_right (by omega)) hIn
    · rw [hAdd]
      show Script.Safe _ _ (writeAllVectoredAtScript p file bufs (offset + buf.len)) l₁
      refine ih (by omega) ?_ hOpened₁
      exact Set.Subset.trans (Set.Ico_subset_Ico (by omega) (by omega)) hIn

/-- A call inside of the region. -/
theorem script_inside (p : Profile) {op : Op} (hOp : op.Inside region) (hOpened : file < l.opened) :
    Script.Safe (insideRules region env file hd) (fun _ l' => file < l'.opened)
      (script p file op) l := by
  cases op with
  | writeAllAt buf offset =>
    exact (writeAllAt_inside p buf hOp.1 hOp.2 hOpened).andThen fun _ _ h => Script.safe_done h
  | writeAllVectoredAt bufs offset =>
    exact (writeAllVectoredAt_inside p hOp.1 hOp.2 hOpened).andThen
      fun _ _ h => Script.safe_done h
  | readExactAt buf offset =>
    obtain ⟨hFits, hIn⟩ := hOp
    rw [← Slice.length_addrs] at hIn
    exact (reads_inside (b := RustStd.readExact.bufferLoop) (c := fun h buf => .read h buf) buf
      (fun h buf => ⟨[buf], rfl, cells_singleton buf⟩) rfl trivial (by omega) hIn hOpened).andThen
      fun _ _ h => Script.safe_done h
  | readExactVectoredAt bufs offset =>
    obtain ⟨hFits, hIn⟩ := hOp
    rw [← length_cells, ← cells_skipLeadingEmpties] at hIn
    exact (reads_inside (b := IoExt.Default.readExactVectored.bufferLoop p)
      (c := fun h bufs => .readVectored h bufs) (skipLeadingEmpties bufs)
      (fun h bufs => ⟨bufs, rfl, rfl⟩) rfl (headFull_skipLeadingEmpties bufs) (by omega) hIn
      hOpened).andThen fun _ _ h => Script.safe_done h
  | _ => exact hOp.elim

end

/-- **Clients that keep to their regions are alone**, though they share the handle. Each has
a session of positional calls in a region of its own inside of the file. However their
operations follow on one another and are interrupted, the shared handle and the size of
the file stay as they are, what lies in no region is not touched, and a client that is
through has returned, read and written what its session returns, reads and writes
alone. -/
theorem isolated_handles {I : Type} [DecidableEq I] (p : Profile) (env : I → Env) (file : I → Nat)
    (client : I → Client) (t : OpenFile) (hOpened : ∀ i, file i < (client i).opened)
    (region : I → Set Nat) (hDisjoint : ∀ i j, i ≠ j → ∀ x ∈ region i, x ∉ region j)
    (hFile : ∀ i, ∀ x ∈ region i, x < t.content.length) (sessions : I → List Op)
    (hInside : ∀ i, ∀ op ∈ sessions i, op.Inside (region i))
    {w : Crowd I OsCall OsCall.Reply Fault Client OpenFile (List Reply)}
    (hReaches : Crowd.Reaches (acts env file)
      (clients client t fun i => sessionScript p (file i) (sessions i)) w) :
    w.shared.handle = t.handle ∧ w.shared.content.length = t.content.length ∧
    (∀ x, (∀ i, x ∉ region i) → w.shared.content[x]? = t.content[x]?) ∧
    ∀ i r, (w.progress i).result = some r → ∃ alone : List UInt8,
      (session (Windows.file p (env i) (file i)) (sessions i)).Returns
        ((client i).world (file i) t) r ((w.own i).world (file i) ⟨alone, t.handle⟩) ∧
      (∀ x ∈ region i, w.shared.content[x]? = alone[x]?) ∧
      ∀ x, x ∉ region i → alone[x]? = t.content[x]? := by
  have hIsolated := acts_isolated env file t hDisjoint hFile
  have hStart : Crowd.Inv (fun i => insideRules (region i) (env i) (file i) t.handle)
      (Untouched region t) (fun i _ l => file i < l.opened)
      (clients client t fun i => sessionScript p (file i) (sessions i)) :=
    ⟨⟨rfl, rfl, fun _ _ => rfl⟩, fun i => Script.Safe.each_keeps
      (fun l : Client => file i < l.opened)
      (fun op hop l hl => script_inside p (hInside i op hop) hl) (hOpened i)⟩
  obtain ⟨hHandle, hApart⟩ := (hIsolated.toGuarded.reaches hReaches hStart).whole
  refine ⟨hHandle, hApart.length_eq, hApart.outside, fun i r hr => ?_⟩
  have hStartView : clientView region file t.content i (client i) t =
      (client i).world (file i) t := by
    simp only [clientView, World.seenIn, Client.world, within_self]
  have hEndView : clientView region file t.content i (w.own i) w.shared =
      (w.own i).world (file i) ⟨within (region i) t.content w.shared.content, t.handle⟩ := by
    simp only [clientView, World.seenIn, Client.world, hHandle]
  have hReturns := hIsolated.returns hReaches hStart hr
  rw [hEndView] at hReturns
  refine ⟨within (region i) t.content w.shared.content, ?_,
    fun x hx => (getElem?_within_of_mem hx).symm,
    fun x hx => getElem?_within_of_not_mem hApart.length_eq hx⟩
  rw [← sessionScript_toProc, ← hStartView]
  exact hReturns

/-- A client that writes two bytes at a time, and one that reads and is interrupted; the
first buffer of the second is empty. -/
theorem isolated_handles_two :
    ∃ w : Crowd (Fin 2) OsCall OsCall.Reply Fault Client OpenFile (List Reply),
      (∀ i, (w.progress i).result = some (.ok [.unit (.ok ())])) ∧
      w.shared.content = [10, 11, 12, 4, 5, 6] ∧ w.shared.handle = ⟨2, .readWrite⟩ ∧
      w.shared.content.length = [(1 : UInt8), 2, 3, 4, 5, 6].length ∧
      (∀ x, (∀ i : Fin 2, x ∉ Set.Ico (3 * i.val) (3 * i.val + 3)) →
        w.shared.content[x]? = [(1 : UInt8), 2, 3, 4, 5, 6][x]?) ∧
      ∀ (i : Fin 2) r, (w.progress i).result = some r → ∃ alone : List UInt8,
        (session (Windows.file .debug ⟨fun n => i.val * n == 2, fun _ => 2⟩ 0)
          (if i = 0 then [.writeAllAt ⟨10, 3, by decide⟩ 0]
            else [.readExactVectoredAt [⟨20, 0, by decide⟩, ⟨30, 2, by decide⟩] 4])).Returns
          (Client.world ⟨UInt8.ofNat, fun _ => ⟨0, .readWrite⟩, 1, 0, 0⟩ 0
            ⟨[1, 2, 3, 4, 5, 6], ⟨2, .readWrite⟩⟩) r
          ((w.own i).world 0 ⟨alone, ⟨2, .readWrite⟩⟩) ∧
        (∀ x ∈ Set.Ico (3 * i.val) (3 * i.val + 3), w.shared.content[x]? = alone[x]?) ∧
        ∀ x, x ∉ Set.Ico (3 * i.val) (3 * i.val + 3) →
          alone[x]? = [(1 : UInt8), 2, 3, 4, 5, 6][x]? := by
  refine ⟨_, ?_, ?_, isolated_handles .debug
    (fun i : Fin 2 => ⟨fun n => i.val * n == 2, fun _ => 2⟩) (fun _ => 0)
    (fun _ => ⟨UInt8.ofNat, fun _ => ⟨0, .readWrite⟩, 1, 0, 0⟩)
    ⟨[1, 2, 3, 4, 5, 6], ⟨2, .readWrite⟩⟩ (fun _ => by decide)
    (fun i => Set.Ico (3 * i.val) (3 * i.val + 3)) ?_ ?_
    (fun i => if i = 0 then [.writeAllAt ⟨10, 3, by decide⟩ 0]
      else [.readExactVectoredAt [⟨20, 0, by decide⟩, ⟨30, 2, by decide⟩] 4]) ?_
    (Crowd.reaches_run _ [0, 1, 0, 1, 0, 1, 1, 1, 0, 1, 0, 1, 0, 1, 0, 1, 1, 1] _)⟩
  · decide
  · decide
  · intro i j hij x hi hj
    have hVal : i.val ≠ j.val := fun h => hij (Fin.ext h)
    rw [Set.mem_Ico] at hi hj
    omega
  · intro i x hx
    rw [Set.mem_Ico] at hx
    have := i.isLt
    show x < 6
    omega
  · intro i op hop
    match i, hop with
    | 0, hop =>
      obtain rfl := List.mem_singleton.mp hop
      exact ⟨by decide, Set.Subset.refl _⟩
    | 1, hop =>
      obtain rfl := List.mem_singleton.mp hop
      exact ⟨by decide, Set.Ico_subset_Ico (by decide) (by decide)⟩

end SystemInterface.Windows
