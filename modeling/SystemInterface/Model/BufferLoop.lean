import SystemInterface.Lib.Conditional
import SystemInterface.Model.Loops

/-!
# SystemInterface — what the transfer loops share

`BufferLoop` is a transfer loop together with what ties its state to the
caller's buffers: the addresses still to be transferred and the offset, if the
loop carries one. Its fields say that a transfer of `n` bytes drops `n`
addresses and adds `n` to the offset; each loop of `Model/Loops.lean` is one.

Main results, for every `BufferLoop`:

* `BufferLoop.wlp` — a returning run has moved all bytes, or a prefix of them
  and failed;
* `BufferLoop.wp`, `BufferLoop.returns` — a run whose calls make progress
  returns; `BufferLoop.runsIf` is both;
* `BufferLoop.stuck` — a run whose loop does not single out `Ok(0)` never
  returns once the operation moves nothing.
-/

namespace SystemInterface

open Effect Effect.Transfer

variable {σ S : Type}

/-- A transfer loop over buffers. -/
structure BufferLoop (S : Type) where
  transfer : Transfer S Fault
  /-- The addresses still to be transferred, in order. -/
  addrs : S → List Nat
  /-- The offset the next call is made at, for the positional loops. -/
  offset : S → Option Nat
  /-- The failure the loop makes of `Ok(0)`, if it singles it out. -/
  zero : Option Fault
  /-- What holds of the loop state at every call. -/
  Ready : S → Prop
  /-- `Ok(0)` is a legitimate answer: the first buffer is empty. -/
  MayZero : S → Prop
  size : S → Nat
  empty : ∀ s, transfer.isEmpty s = true → addrs s = []
  settle : ∀ s, Ready s → transfer.settle s = s
  onZero : ∀ s f, zero = some f → transfer.onOk s 0 = .error f
  onOk : ∀ s n, transfer.isEmpty s = false → Ready s → (zero ≠ none → n ≠ 0) →
    n ≤ (addrs s).length → AdvanceFits (addrs s).length n →
    (∀ o ∈ offset s, o + n < 2 ^ 64) →
    ∃ s', transfer.onOk s n = .ok s' ∧ Ready (transfer.settle s') ∧
      addrs (transfer.settle s') = (addrs s).drop n ∧
      offset (transfer.settle s') = (offset s).map (· + n) ∧
      ((n = 0 → MayZero s) → size (transfer.settle s') < size s)

namespace BufferLoop

variable (l : BufferLoop S)

/-- The loop has transferred `k` bytes since it was in state `s₀`. -/
structure At (s₀ : S) (k : Nat) (s : S) : Prop where
  le : k ≤ (l.addrs s₀).length
  addrs_eq : l.addrs s = (l.addrs s₀).drop k
  offset_eq : l.offset s = (l.offset s₀).map (· + k)
  ready : l.Ready s

/-- No offset of the run leaves the 64-bit range. -/
def OffsetFits (s₀ : S) : Prop := ∀ o ∈ l.offset s₀, o + (l.addrs s₀).length < 2 ^ 64

variable {l} {s₀ s : S} {k n : Nat}

theorem offsetFits_none (hOffset : l.offset s₀ = none) : l.OffsetFits s₀ := by
  intro o ho
  rw [hOffset] at ho
  exact absurd ho (Option.not_mem_none o)

theorem offsetFits_some {o : Nat} (hOffset : l.offset s₀ = some o)
    (hFits : o + (l.addrs s₀).length < 2 ^ 64) : l.OffsetFits s₀ := by
  intro o' ho
  rw [hOffset] at ho
  obtain rfl : o = o' := Option.some.inj ho
  exact hFits

theorem At.start (hReady : l.Ready s₀) : l.At s₀ 0 s₀ :=
  ⟨Nat.zero_le _, rfl, by cases l.offset s₀ <;> rfl, hReady⟩

theorem At.length (h : l.At s₀ k s) : (l.addrs s).length = (l.addrs s₀).length - k := by
  rw [h.addrs_eq, List.length_drop]

/-- `Ok(n)` takes the loop from `k` bytes to `k + n`. -/
theorem At.onOk (h : l.At s₀ k s) (hFits : l.OffsetFits s₀)
    (hne : l.transfer.isEmpty s = false) (hz : l.zero ≠ none → n ≠ 0)
    (hn : n ≤ (l.addrs s).length) (hAdvance : AdvanceFits (l.addrs s).length n) :
    ∃ s', l.transfer.onOk s n = .ok s' ∧ l.At s₀ (k + n) (l.transfer.settle s') ∧
      ((n = 0 → l.MayZero s) → l.size (l.transfer.settle s') < l.size s) := by
  have hLen := h.length
  have hOff : ∀ o ∈ l.offset s, o + n < 2 ^ 64 := by
    intro o ho
    rw [h.offset_eq, Option.mem_def, Option.map_eq_some_iff] at ho
    obtain ⟨o₀, ho₀, rfl⟩ := ho
    have := hFits o₀ ho₀
    have := h.le
    omega
  obtain ⟨s', hs', hReady, hAddrs, hOffset, hSize⟩ :=
    l.onOk s n hne h.ready hz hn hAdvance hOff
  refine ⟨s', hs', ⟨?_, ?_, ?_, hReady⟩, hSize⟩
  · have := h.le
    omega
  · rw [hAddrs, h.addrs_eq, List.drop_drop]
  · rw [hOffset, h.offset_eq]
    cases l.offset s₀ with
    | none => rfl
    | some o => simp [Nat.add_assoc]

/-! ## Partial correctness -/

/-- One call after `k` bytes, with `room` bytes still to go: `Track` follows
the bytes moved and `Failed` is what a failing turn leaves. -/
def Moved (l : BufferLoop S) (room : Nat) (Track : Nat → σ → Prop)
    (Failed : Nat → Fault → σ → Prop) (k : Nat) : Result Nat → σ → Prop
  | .ok n, w' => n ≤ room ∧ AdvanceFits room n ∧
      (n ≠ 0 ∨ l.zero = none → Track (k + n) w') ∧
      (∀ f, n = 0 → l.zero = some f → Failed k f w')
  | .error f, w' => if l.transfer.retry f then Track k w' else Failed k f w'

/-- Such a call seen through an abstraction of the state, with a property of
the state that it keeps. -/
theorem Moved.frame {τ : Type} {abs : τ → σ} {J : τ → Prop} {room : Nat} {Track : Nat → σ → Prop}
    {Failed : Nat → Fault → σ → Prop} {a : Result Nat} {v : τ}
    (h : l.Moved room Track Failed k a (abs v)) (hJ : J v) :
    l.Moved room (fun k v => Track k (abs v) ∧ J v) (fun k f v => Failed k f (abs v) ∧ J v)
      k a v := by
  cases a with
  | ok n =>
    obtain ⟨hn, hAdvance, hNext, hZero⟩ := h
    exact ⟨hn, hAdvance, fun hn0 => ⟨hNext hn0, hJ⟩, fun f hn0 hf => ⟨hZero f hn0 hf, hJ⟩⟩
  | error f =>
    rw [Moved] at h ⊢
    cases hr : l.transfer.retry f with
    | true =>
      rw [hr, if_pos rfl] at h
      exact ⟨h, hJ⟩
    | false =>
      rw [hr, if_neg Bool.false_ne_true] at h
      exact ⟨h, hJ⟩

/-- How a run over `total` bytes ends. -/
def Ended (total : Nat) (Track : Nat → σ → Prop) (Failed : Nat → Fault → σ → Prop) :
    Result Unit → σ → Prop
  | .ok (), w' => Track total w'
  | .error f, w' => ∃ k, k ≤ total ∧ Failed k f w'

/-- A loop that is empty has moved everything. -/
theorem At.eq_total (h : l.At s₀ k s) (hE : l.transfer.isEmpty s = true) :
    k = (l.addrs s₀).length := by
  have hLen := h.length
  rw [l.empty s hE, List.length_nil] at hLen
  have := h.le
  omega

/-- What such a call makes of the count of the loop. -/
theorem At.moves {Track : Nat → σ → Prop} {Failed : Nat → Fault → σ → Prop} {a : Result Nat}
    {w : σ} (hAt : l.At s₀ k s) (hFits : l.OffsetFits s₀) (hne : l.transfer.isEmpty s = false)
    (h : l.Moved (l.addrs s).length Track Failed k a w) :
    l.transfer.Moves (l.At s₀) Track Failed k s a w := by
  cases a with
  | ok n =>
    obtain ⟨hn, hAdvance, hNext, hZero⟩ := h
    rw [Moves]
    cases hz : l.zero with
    | none =>
      obtain ⟨s', hs', hAt', -⟩ := hAt.onOk hFits hne (fun h => absurd hz h) hn hAdvance
      rw [hs']
      exact ⟨hAt', hNext (Or.inr hz)⟩
    | some f =>
      by_cases hn0 : n = 0
      · subst hn0
        rw [l.onZero s f hz]
        exact hZero f rfl hz
      · obtain ⟨s', hs', hAt', -⟩ := hAt.onOk hFits hne (fun _ => hn0) hn hAdvance
        rw [hs']
        exact ⟨hAt', hNext (Or.inl hn0)⟩
  | error f =>
    rw [Moved] at h
    rw [Moves]
    cases hr : l.transfer.retry f with
    | true =>
      rw [hr, if_pos rfl] at h
      rw [if_pos rfl, l.settle s hAt.ready]
      exact ⟨hAt, h⟩
    | false =>
      rw [hr, if_neg Bool.false_ne_true] at h
      rw [if_neg Bool.false_ne_true]
      exact h

/-- **A returning run has moved a prefix of the bytes**, all of them on
success, however the single calls cut them up. -/
theorem wlp {call : S → Proc σ Fault Nat} {Track : Nat → σ → Prop}
    {Failed : Nat → Fault → σ → Prop} {w : σ} (hFits : l.OffsetFits s₀)
    (hReady : l.Ready s₀)
    (hCall : ∀ k s w, l.At s₀ k s → l.transfer.isEmpty s = false → Track k w →
      (call s).wlp w (l.Moved (l.addrs s).length Track Failed k))
    (hTrack : Track 0 w) :
    (l.transfer.run call s₀).wlp w (Ended (l.addrs s₀).length Track Failed) := by
  have hRun : (l.transfer.run call s₀).wlp w _ :=
    run_tracks (l.addrs s₀).length (l.At s₀) Track Failed (fun _ _ hAt hE => hAt.eq_total hE)
      (fun k s w hAt hT hne a w' ha => hAt.moves hFits hne (hCall k s w hAt hne hT a w' ha))
      (At.start hReady) hTrack
  intro r w' hr
  have hEnd := hRun r w' hr
  match r, hEnd with
  | .ok (), hT => exact hT
  | .error f, ⟨k, s, hAt, hFailed⟩ => exact ⟨k, hAt.le, hFailed⟩

/-! ## Total correctness -/

/-- A call that makes progress: it moves a byte, or nothing where that is
legitimate, or uses up a part of the budget of transient failures. -/
def Progress (l : BufferLoop S) (budget : σ → Nat) (s : S) (w : σ) : Result Nat → σ → Prop
  | .ok n, w' => budget w' ≤ budget w ∧ (n = 0 → l.zero = none → l.MayZero s)
  | .error f, w' => l.transfer.retry f = true → budget w' < budget w

/-- **A run whose calls make progress returns**, having moved a prefix of the
bytes, and all of them on success. -/
theorem wp {call : S → Proc σ Fault Nat} {Track : Nat → σ → Prop}
    {Failed : Nat → Fault → σ → Prop} {w : σ} (budget : σ → Nat) (hFits : l.OffsetFits s₀)
    (hReady : l.Ready s₀)
    (hCall : ∀ k s w, l.At s₀ k s → l.transfer.isEmpty s = false → Track k w →
      (call s).wp w fun a w' => l.Moved (l.addrs s).length Track Failed k a w' ∧
        l.Progress budget s w a w')
    (hTrack : Track 0 w) :
    (l.transfer.run call s₀).wp w (Ended (l.addrs s₀).length Track Failed) := by
  refine run_wp (fun s w => ∃ k, l.At s₀ k s ∧ Track k w) (fun s w => l.size s + budget w)
    ?_ ?_ ⟨0, At.start hReady, hTrack⟩
  · intro s w ⟨k, hAt, hT⟩ hE
    rw [Ended, ← hAt.eq_total hE]
    exact hT
  · intro s w ⟨k, hAt, hT⟩ hne
    apply (hCall k s w hAt hne hT).mono
    rintro a w' ⟨hMoved, hProgress⟩
    cases a with
    | ok n =>
      obtain ⟨hn, hAdvance, hNext, hZero⟩ := hMoved
      obtain ⟨hBudget, hLegit⟩ := hProgress
      by_cases hFail : n = 0 ∧ l.zero ≠ none
      · -- the loop singles out `Ok(0)`
        obtain ⟨f, hf⟩ := Option.ne_none_iff_exists'.mp hFail.2
        have hErr := l.onZero s f hf
        rw [← hFail.1] at hErr
        rw [verdict_ok_error hErr]
        exact ⟨k, hAt.le, hZero f hFail.1 hf⟩
      · have hz : l.zero ≠ none → n ≠ 0 := fun hz hn0 => hFail ⟨hn0, hz⟩
        obtain ⟨s', hs', hAt', hSize⟩ := hAt.onOk hFits hne hz hn hAdvance
        have hNone : n = 0 → l.zero = none := fun hn0 => by
          by_contra hz'
          exact hz hz' hn0
        have hLess := hSize fun hn0 => hLegit hn0 (hNone hn0)
        have hTrack' : Track (k + n) w' := by
          by_cases hn0 : n = 0
          · exact hNext (Or.inr (hNone hn0))
          · exact hNext (Or.inl hn0)
        rw [verdict_ok hs']
        exact ⟨⟨k + n, hAt', hTrack'⟩, by omega⟩
    | error f =>
      rw [Moved] at hMoved
      cases hr : l.transfer.retry f with
      | true =>
        rw [hr, if_pos rfl] at hMoved
        have hLess := hProgress hr
        rw [verdict_retry hr, l.settle s hAt.ready]
        exact ⟨⟨k, hAt, hMoved⟩, by omega⟩
      | false =>
        rw [hr, if_neg Bool.false_ne_true] at hMoved
        rw [verdict_error hr]
        exact ⟨k, hAt.le, hMoved⟩

/-- Both at once: the calls make progress on a condition, and then a run returns. -/
theorem runsIf {C : Prop} {call : S → Proc σ Fault Nat} {Track : Nat → σ → Prop}
    {Failed : Nat → Fault → σ → Prop} {w : σ} (budget : σ → Nat) (hFits : l.OffsetFits s₀)
    (hReady : l.Ready s₀)
    (hCall : ∀ k s w, l.At s₀ k s → l.transfer.isEmpty s = false → Track k w →
      (call s).wp w fun a w' => l.Moved (l.addrs s).length Track Failed k a w' ∧
        (C → l.Progress budget s w a w'))
    (hTrack : Track 0 w) :
    (l.transfer.run call s₀).RunsIf C w (Ended (l.addrs s₀).length Track Failed) where
  post := by
    refine l.wlp hFits hReady (fun k s w hAt hne hT => ?_) hTrack
    exact ((hCall k s w hAt hne hT).mono fun _ _ h => h.1).wlp
  returns hC := by
    have hRun : (l.transfer.run call s₀).wp w (Ended (l.addrs s₀).length Track Failed) := by
      refine l.wp budget hFits hReady (fun k s w hAt hne hT => ?_) hTrack
      exact (hCall k s w hAt hne hT).mono fun _ _ h => ⟨h.1, h.2 hC⟩
    obtain ⟨r, w', hr, -⟩ := hRun
    exact ⟨r, w', hr⟩

/-- One call that makes progress, without an account of the bytes moved. -/
def Advances (l : BufferLoop S) (budget : σ → Nat) (J : σ → Prop) (s : S) (w : σ) :
    Result Nat → σ → Prop
  | .ok n, w' => budget w' ≤ budget w ∧ J w' ∧ n ≤ (l.addrs s).length ∧
      AdvanceFits (l.addrs s).length n ∧ (n = 0 → l.zero = none → l.MayZero s)
  | .error f, w' => l.transfer.retry f = true → J w' ∧ budget w' < budget w

/-- **A run whose calls make progress returns.** -/
theorem returns {call : S → Proc σ Fault Nat} {w : σ} (budget : σ → Nat) (J : σ → Prop)
    (hFits : l.OffsetFits s₀) (hReady : l.Ready s₀)
    (hCall : ∀ k s w, l.At s₀ k s → l.transfer.isEmpty s = false → J w →
      (call s).wp w (l.Advances budget J s w))
    (hJ : J w) : ∃ r w', (l.transfer.run call s₀).Returns w r w' := by
  have hwp : (l.transfer.run call s₀).wp w
      (Ended (l.addrs s₀).length (fun _ w => J w) fun _ _ _ => True) := by
    refine l.wp budget hFits hReady ?_ hJ
    intro k s w hAt hne hJ
    apply (hCall k s w hAt hne hJ).mono
    intro a w' hA
    cases a with
    | ok n =>
      obtain ⟨hBudget, hJ', hn, hAdvance, hZero⟩ := hA
      exact ⟨⟨hn, hAdvance, fun _ => hJ', fun _ _ _ => trivial⟩, hBudget, hZero⟩
    | error f =>
      refine ⟨?_, fun hr => (hA hr).2⟩
      rw [Moved]
      split
      · next hr => exact (hA hr).1
      · trivial
  obtain ⟨r, w', hr, -⟩ := hwp
  exact ⟨r, w', hr⟩

/-! ## A stuck operation -/

/-- **A loop that does not single out `Ok(0)` hangs.** Once it has bytes left
and the operation answers `Ok(0)` for good, the run never returns. -/
theorem stuck {call : S → Proc σ Fault Nat} {Stuck : σ → Prop} (hzero : l.zero = none)
    (hCall : ∀ s w, l.Ready s → Stuck w → ∃ w', (call s).Returns w (.ok 0) w' ∧ Stuck w')
    {c d : S × σ} (hReach : Proc.Reaches (l.transfer.turn call) c d) (hStuck : Stuck d.2)
    (hReady : l.Ready d.1) (hOff : ∀ o ∈ l.offset d.1, o < 2 ^ 64)
    (hLeft : l.addrs d.1 ≠ []) :
    (l.transfer.run call c.1).Diverges c.2 := by
  refine run_stuck (fun s w => Stuck w ∧ l.Ready s ∧ (∀ o ∈ l.offset s, o < 2 ^ 64) ∧
    l.addrs s ≠ []) ?_ hReach ⟨hStuck, hReady, hOff, hLeft⟩
  intro s w ⟨hS, hR, hO, hL⟩
  have hne : l.transfer.isEmpty s = false := by
    by_contra hE
    rw [Bool.not_eq_false] at hE
    exact hL (l.empty s hE)
  obtain ⟨w', hw', hS'⟩ := hCall s w hR hS
  -- `Ok(0)` leaves the same addresses and the same offset
  obtain ⟨s', hs', hR', hAddrs, hOffset, -⟩ :=
    l.onOk s 0 hne hR (fun h => absurd hzero h) (Nat.zero_le _) (Or.inl (Nat.zero_le _))
      (by simpa using hO)
  refine ⟨hne, .ok 0, w', _, hw', verdict_ok hs', hS', hR', ?_, ?_⟩
  · rw [hOffset]
    cases ho : l.offset s with
    | none => simp
    | some o => simpa using hO o ho
  · rw [hAddrs, List.drop_zero]
    exact hL

end BufferLoop

end SystemInterface
