import SystemInterface.Lib.Ledger
import SystemInterface.Model.Session

/-!
# SystemInterface — sessions on a log

A log is a file that is only read and appended to. `LogRun` says what a session on a
log comes to, when other clients append to it at the same time: what is appended is a
prefix of the data, and what is read is in the file, at the offset asked for.

Main result:

* `LogRun.mono` — what was read from the file is there as long as the file only grows;
* `adds_safe`, `sees_safe` — a loop of calls that each append a piece, or read one;
* `each_served` — a session of calls on a log.
-/

namespace SystemInterface

open Effect

namespace Op

/-- The addresses of the bytes that a call appends. -/
def appended : Op → Option (List Nat)
  | appendAll buf => some buf.addrs
  | appendAllVectored bufs => some (cells bufs)
  | _ => none

/-- The addresses that a call fills, and the offset it reads at. -/
def filled : Op → Option (List Nat × Nat)
  | readExactAt buf offset => some (buf.addrs, offset)
  | readExactVectoredAt bufs offset => some (cells bufs, offset)
  | _ => none

/-- The calls on a log: they append, or read where the file has positions. -/
def OnLog (op : Op) : Prop :=
  (∃ addrs, op.appended = some addrs) ∨
    ∃ addrs offset, op.filled = some (addrs, offset) ∧ offset + addrs.length ≤ i64Max

end Op

/-- A session on a log, of which `There offset d` says that it has `d` at the offset. The
session has appended `data`. -/
inductive LogRun (There : Nat → List UInt8 → Prop) :
    List Op → Memory → List Reply → List UInt8 → Memory → Prop where
  | nil (mem : Memory) : LogRun There [] mem [] [] mem
  | append {op : Op} {ops : List Op} {addrs : List Nat} {mem mem' : Memory} {r : Result Unit}
      {rs : List Reply} {n : Nat} {data : List UInt8} (appended : op.appended = some addrs)
      (le : n ≤ addrs.length) (all : r = .ok () → n = addrs.length)
      (rest : LogRun There ops mem rs data mem') :
      LogRun There (op :: ops) mem (.unit r :: rs) ((addrs.map mem).take n ++ data) mem'
  | read {op : Op} {ops : List Op} {addrs : List Nat} {offset : Nat} {mem mem' : Memory}
      {r : Result Unit} {rs : List Reply} {d data : List UInt8}
      (filled : op.filled = some (addrs, offset)) (there : There offset d)
      (le : d.length ≤ addrs.length) (all : r = .ok () → d.length = addrs.length)
      (rest : LogRun There ops (store mem addrs d) rs data mem') :
      LogRun There (op :: ops) mem (.unit r :: rs) data mem'

theorem LogRun.mono {There There' : Nat → List UInt8 → Prop}
    (h : ∀ offset d, There offset d → There' offset d) {ops : List Op} {mem mem' : Memory}
    {rs : List Reply} {data : List UInt8} (hRun : LogRun There ops mem rs data mem') :
    LogRun There' ops mem rs data mem' := by
  induction hRun with
  | nil mem => exact .nil mem
  | append appended le all _ ih => exact .append appended le all ih
  | read filled there le all _ ih => exact .read filled (h _ _ there) le all ih

/-- What a session has entered shows what it has read. -/
def LogRun.Entered (ops : List Op) (mem : Memory) (rs : List Reply) (es : List (Entry UInt8))
    (mem' : Memory) : Prop := LogRun (Shows es) ops mem rs (added es) mem'

-- ---------------------------------------------------------------------------
-- What a call enters
-- ---------------------------------------------------------------------------

/-- A call has added a prefix of its data, and all of it on success. -/
structure Op.Added (addrs : List Nat) (mem : Memory) (r : Result Unit) (es : List (Entry UInt8))
    (mem' : Memory) : Prop where
  mem_eq : mem' = mem
  data : ∃ n, n ≤ addrs.length ∧ added es = (addrs.map mem).take n ∧
    (r = .ok () → n = addrs.length)

/-- A call has seen what it has filled its buffers with, all of them on success. -/
structure Op.Saw (addrs : List Nat) (offset : Nat) (mem : Memory) (r : Result Unit)
    (es : List (Entry UInt8)) (mem' : Memory) : Prop where
  added_eq : added es = []
  data : ∃ d, d.length ≤ addrs.length ∧ mem' = store mem addrs d ∧ Shows es offset d ∧
    (r = .ok () → d.length = addrs.length)

/-- What a call on a log has entered. -/
def Op.Did (op : Op) (mem : Memory) (r : Result Unit) (es : List (Entry UInt8)) (mem' : Memory) :
    Prop :=
  (∃ addrs, op.appended = some addrs ∧ Added addrs mem r es mem') ∨
    ∃ addrs offset, op.filled = some (addrs, offset) ∧ Saw addrs offset mem r es mem'

/-- A call, and then the rest of the session. -/
theorem Op.Did.cons {op : Op} {ops : List Op} {mem mem₁ mem' : Memory} {r : Result Unit}
    {rs : List Reply} {es es' : List (Entry UInt8)} (hDid : op.Did mem r es mem₁)
    (hRest : LogRun.Entered ops mem₁ rs es' mem') :
    LogRun.Entered (op :: ops) mem (.unit r :: rs) (es ++ es') mem' := by
  have hLater : LogRun (Shows (es ++ es')) ops mem₁ rs (added es') mem' :=
    LogRun.mono (fun _ _ hShows => hShows.mono fun e he => List.mem_append_right es he) hRest
  unfold LogRun.Entered
  rcases hDid with ⟨addrs, hOp, hAdded⟩ | ⟨addrs, offset, hOp, hSaw⟩
  · obtain ⟨rfl, n, hLe, hData, hAll⟩ := hAdded
    rw [added_append, hData]
    exact .append hOp hLe hAll hLater
  · obtain ⟨hNone, d, hLe, rfl, hShows, hAll⟩ := hSaw
    rw [added_append, hNone, List.nil_append]
    exact .read hOp (hShows.mono fun e he => List.mem_append_left es' he) hLe hAll hLater

-- ---------------------------------------------------------------------------
-- Clients of a log
-- ---------------------------------------------------------------------------

/-- How a client of a log keeps its memory and its ledger. -/
structure Books (L : Type) where
  mem : L → Memory
  ledger : L → List (Entry UInt8)

section

variable {C L S : Type} {Rep : C → Type} {P : Rules C Rep L} {b : Books L}
  {l : BufferLoop S} {call : S → Script C Rep Fault Nat} {own own' l₀ : L} {addrs : List Nat}
  {r : Result Nat}

/-- One call that appends: it has added the first bytes of its buffers, as many as it
answers, or has failed. -/
def Books.Adds (b : Books L) (addrs : List Nat) (own : L) (r : Result Nat) (own' : L) : Prop :=
  ∃ n es, b.mem own' = b.mem own ∧ b.ledger own' = b.ledger own ++ es ∧
    added es = (addrs.map (b.mem own)).take n ∧ n ≤ addrs.length ∧ n ≤ isizeMax ∧
    (r = .ok n ∨ (∃ f, r = .error f) ∧ n = 0)

/-- One call that reads: it has filled the first bytes of its buffers, as many as it
answers, with what it has seen at the offset, or has failed. -/
def Books.Sees (b : Books L) (addrs : List Nat) (offset : Nat) (J : Nat → L → Prop) (own : L)
    (r : Result Nat) (own' : L) : Prop :=
  ∃ d, b.mem own' = store (b.mem own) addrs d ∧ b.ledger own' = b.ledger own ++ [.saw offset d] ∧
    d.length ≤ addrs.length ∧ d.length ≤ isizeMax ∧ J (offset + d.length) own' ∧
    (r = .ok d.length ∨ (∃ f, r = .error f) ∧ d = [])

/-- `k` bytes were added since `l₀`. -/
def Books.AddedTo (b : Books L) (addrs : List Nat) (l₀ : L) (J : L → Prop) (k : Nat) (own : L) :
    Prop :=
  J own ∧ b.mem own = b.mem l₀ ∧ ∃ es, b.ledger own = b.ledger l₀ ++ es ∧
    added es = (addrs.map (b.mem l₀)).take k

/-- `k` bytes were filled since `l₀`, with what was seen at the offset. -/
def Books.FilledTo (b : Books L) (addrs : List Nat) (offset : Nat) (l₀ : L) (J : Nat → L → Prop)
    (k : Nat) (own : L) : Prop :=
  J (offset + k) own ∧ ∃ d es, d.length = k ∧ b.mem own = store (b.mem l₀) addrs d ∧
    b.ledger own = b.ledger l₀ ++ es ∧ added es = [] ∧ Shows es offset d

/-- One more piece. -/
theorem Books.FilledTo.concat {offset k : Nat} {J : Nat → L → Prop} {d : List UInt8}
    (h : b.FilledTo addrs offset l₀ J k own) (hJ : J (offset + k + d.length) own')
    (hMem : b.mem own' = store (b.mem own) (addrs.drop k) d)
    (hLedger : b.ledger own' = b.ledger own ++ [.saw (offset + k) d]) :
    b.FilledTo addrs offset l₀ J (k + d.length) own' := by
  obtain ⟨-, d₀, es, rfl, hMem₀, hLedger₀, hNone, hShows⟩ := h
  refine ⟨by rwa [← Nat.add_assoc], d₀ ++ d, es ++ [.saw (offset + d₀.length) d],
    List.length_append, ?_, ?_, ?_, hShows.concat⟩
  · rw [hMem, hMem₀, store_append]
  · rw [hLedger, hLedger₀, List.append_assoc]
  · rw [added_append, hNone, added_singleton]
    rfl

/-- **A loop of calls that append** adds a prefix of its data, and all of it on success. -/
theorem adds_safe (b : Books L) (J : L → Prop) (s₀ : S) (hZero : l.zero = none)
    (hFits : l.OffsetFits s₀) (hReady : l.Ready s₀)
    (hCall : ∀ s own, l.transfer.isEmpty s = false → J own →
      Script.Safe P (fun r own' => b.Adds (l.addrs s) own r own' ∧ J own') (call s) own)
    (hJ : J l₀) :
    Script.Safe P (fun r own => J own ∧ ∃ es, b.ledger own = b.ledger l₀ ++ es ∧
      Op.Added (l.addrs s₀) (b.mem l₀) r es (b.mem own)) (l.transfer.script call s₀) l₀ := by
  refine Transfer.script_safe (l.At s₀) (b.AddedTo (l.addrs s₀) l₀ J)
    (fun k _ own => k ≤ (l.addrs s₀).length ∧ b.AddedTo (l.addrs s₀) l₀ J k own)
    ?_ ?_ ?_ (BufferLoop.At.start hReady) ⟨hJ, rfl, [], by simp, by simp⟩
  · rintro k s own hAt hE ⟨hJ', hMem, es, hLedger, hData⟩
    exact ⟨hJ', es, hLedger, hMem, k, hAt.le, hData, fun _ => hAt.eq_total hE⟩
  · rintro k s f own hAt ⟨hLe, hJ', hMem, es, hLedger, hData⟩
    exact ⟨hJ', es, hLedger, hMem, k, hLe, hData, fun h => absurd h (by simp)⟩
  · rintro k s own hAt hne ⟨hJ', hMem, es, hLedger, hData⟩
    refine (hCall s own hne hJ').mono ?_
    rintro r own' ⟨⟨n, es', hMem', hLedger', hData', hLe, hMax, hEnd⟩, hJ''⟩
    have hNext : b.AddedTo (l.addrs s₀) l₀ J (k + n) own' := by
      refine ⟨hJ'', hMem'.trans hMem, es ++ es', by rw [hLedger', hLedger, List.append_assoc], ?_⟩
      rw [added_append, hData, hData', hMem, hAt.addrs_eq, List.map_drop, ← List.take_add]
    refine hAt.moves hFits hne ?_
    rcases hEnd with rfl | ⟨⟨f, rfl⟩, rfl⟩
    · refine ⟨hLe, .inl hMax, fun _ => hNext, fun f _ hf => ?_⟩
      rw [hZero] at hf
      exact absurd hf (by simp)
    · show if l.transfer.retry f then _ else _
      split
      · exact hNext
      · exact ⟨hAt.le, hNext⟩

/-- **A loop of calls that read** fills its buffers with what is in the file, however the
others go on writing. -/
theorem sees_safe (b : Books L) (J : Nat → L → Prop) (s₀ : S) {offset : Nat}
    (hFits : l.OffsetFits s₀) (hReady : l.Ready s₀)
    (hCall : ∀ k s own, l.At s₀ k s → l.transfer.isEmpty s = false → J (offset + k) own →
      Script.Safe P (b.Sees (l.addrs s) (offset + k) J own) (call s) own)
    (hJ : J offset l₀) :
    Script.Safe P (fun r own => (∃ pos, J pos own) ∧ ∃ es, b.ledger own = b.ledger l₀ ++ es ∧
      Op.Saw (l.addrs s₀) offset (b.mem l₀) r es (b.mem own)) (l.transfer.script call s₀) l₀ := by
  refine Transfer.script_safe (l.At s₀) (b.FilledTo (l.addrs s₀) offset l₀ J)
    (fun k _ own => k ≤ (l.addrs s₀).length ∧ b.FilledTo (l.addrs s₀) offset l₀ J k own)
    ?_ ?_ ?_ (BufferLoop.At.start hReady)
    ⟨hJ, [], [], rfl, (store_nil_right _ _).symm, by simp, rfl, shows_nil⟩
  · rintro k s own hAt hE ⟨hJ', d, es, rfl, hMem, hLedger, hNone, hShows⟩
    exact ⟨⟨_, hJ'⟩, es, hLedger, hNone, d, hAt.le, hMem, hShows, fun _ => hAt.eq_total hE⟩
  · rintro k s f own hAt ⟨hLe, hJ', d, es, rfl, hMem, hLedger, hNone, hShows⟩
    exact ⟨⟨_, hJ'⟩, es, hLedger, hNone, d, hLe, hMem, hShows, fun h => absurd h (by simp)⟩
  · intro k s own hAt hne hFilled
    refine (hCall k s own hAt hne hFilled.1).mono ?_
    rintro r own' ⟨d, hMem, hLedger, hLe, hMax, hJ', hEnd⟩
    rw [hAt.addrs_eq] at hMem
    have hNext := hFilled.concat hJ' hMem hLedger
    refine hAt.moves hFits hne ?_
    rcases hEnd with rfl | ⟨⟨f, rfl⟩, rfl⟩
    · refine ⟨hLe, .inl hMax, fun _ => hNext, fun f h0 _ => ⟨hAt.le, ?_⟩⟩
      rwa [h0] at hNext
    · show if l.transfer.retry f then _ else _
      split
      · exact hNext
      · exact ⟨hAt.le, hNext⟩

-- ---------------------------------------------------------------------------
-- Sessions
-- ---------------------------------------------------------------------------

variable {J : L → Prop}

/-- What a call on the log has done for its client. -/
def Books.Served (b : Books L) (op : Op) (l₀ : L) (reply : Reply) (own : L) : Prop :=
  ∃ r es, reply = .unit r ∧ b.ledger own = b.ledger l₀ ++ es ∧ op.Did (b.mem l₀) r es (b.mem own)

/-- What a session on the log has done for its client. -/
def Books.Made (b : Books L) (ops : List Op) (l₀ : L) (rs : List Reply) (own : L) : Prop :=
  ∃ es, b.ledger own = b.ledger l₀ ++ es ∧ LogRun.Entered ops (b.mem l₀) rs es (b.mem own)

/-- A loop that appends, as a call. -/
theorem served_of_added {op : Op} {x : Script C Rep Fault Unit} {J : L → Prop}
    (hOp : op.appended = some addrs)
    (h : Script.Safe P (fun r own => J own ∧ ∃ es, b.ledger own = b.ledger l₀ ++ es ∧
      Op.Added addrs (b.mem l₀) r es (b.mem own)) x l₀) :
    Script.Safe P (fun r own => ∃ reply, r = .ok reply ∧ b.Served op l₀ reply own ∧ J own)
      (x.andThen fun r => .done (.ok (.unit r))) l₀ :=
  h.andThen fun r _ ⟨hJ, es, hLedger, hAdded⟩ =>
    Script.safe_done ⟨_, rfl, ⟨r, es, rfl, hLedger, .inl ⟨addrs, hOp, hAdded⟩⟩, hJ⟩

/-- A loop that reads, as a call. -/
theorem served_of_saw {op : Op} {offset : Nat} {x : Script C Rep Fault Unit} {J : L → Prop}
    (hOp : op.filled = some (addrs, offset))
    (h : Script.Safe P (fun r own => J own ∧ ∃ es, b.ledger own = b.ledger l₀ ++ es ∧
      Op.Saw addrs offset (b.mem l₀) r es (b.mem own)) x l₀) :
    Script.Safe P (fun r own => ∃ reply, r = .ok reply ∧ b.Served op l₀ reply own ∧ J own)
      (x.andThen fun r => .done (.ok (.unit r))) l₀ :=
  h.andThen fun r _ ⟨hJ, es, hLedger, hSaw⟩ =>
    Script.safe_done ⟨_, rfl, ⟨r, es, rfl, hLedger, .inr ⟨addrs, offset, hOp, hSaw⟩⟩, hJ⟩

/-- **A session** of calls that serve their client. -/
theorem each_served {script : Op → Script C Rep Fault Reply} {ops : List Op} (J : L → Prop)
    (hEach : ∀ op ∈ ops, ∀ own, J own → Script.Safe P
      (fun r own' => ∃ reply, r = .ok reply ∧ b.Served op own reply own' ∧ J own') (script op) own)
    (hJ : J l₀) :
    Script.Safe P (fun r own => ∃ rs, r = .ok rs ∧ b.Made ops l₀ rs own ∧ J own)
      (Script.each script ops) l₀ := by
  refine Script.Safe.each J (fun l => ⟨[], by simp, .nil (b.mem l)⟩) ?_ hEach hJ
  rintro op ops l reply l₁ rs l₂ ⟨r, es, rfl, hLedger, hDid⟩ ⟨es', hLedger', hRest⟩
  refine ⟨es ++ es', by rw [hLedger', hLedger, List.append_assoc], hDid.cons hRest⟩

end

end SystemInterface
