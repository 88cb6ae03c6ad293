import SystemInterface.Lib.Proc

/-!
# Transfer loops

A transfer loop carries out a job piece by piece: while something is left it
calls an operation that answers how many items it moved, forgets those, and
tries again after a transient failure. `Transfer` holds the parts in which
such loops differ; `Transfer.run` is the loop around an arbitrary operation.

The pieces of a job may fall in any way, so the invariant of such a loop is
a statement about the number of items moved so far. `run_tracks` is the rule
for invariants of that shape.

Main results:

* `run_wlp`, `run_wp` — the invariant rules, with one premise per call;
* `run_tracks` — the loop moves a prefix of the job, all of it on success;
* `run_empty`, `run_again`, `run_stop` — a loop, one call at a time;
* `run_sim` — a simulation of the calls is a simulation of the loops;
* `run_stuck` — a loop whose operation moves nothing, with something left,
  runs for ever.
-/

namespace Effect

variable {σ ε S : Type}

/-- The parts of a transfer loop over loop states `S`. -/
structure Transfer (S ε : Type) where
  /-- Nothing is left to move. -/
  isEmpty : S → Bool
  /-- What is left once the operation has moved `n` items. -/
  onOk : S → Nat → Except ε S
  /-- The normalisation at the end of every turn. -/
  settle : S → S
  /-- The failures after which the operation is called again. -/
  retry : ε → Bool

namespace Transfer

open Proc

variable {t : Transfer S ε} {call : S → Proc σ ε Nat}

/-- What an answer of the operation makes of the turn. -/
def verdict (t : Transfer S ε) (s : S) : Except ε Nat → Except ε (Turn S Unit)
  | .ok n => (t.onOk s n).map fun s' => .again (t.settle s')
  | .error e => if t.retry e then .ok (.again (t.settle s)) else .error e

/-- One turn: leave when nothing is left, else call the operation. -/
def turn (t : Transfer S ε) (call : S → Proc σ ε Nat) (s : S) : Proc σ ε (Turn S Unit) :=
  if t.isEmpty s then pure (.done ())
  else do
    let a ← (call s).attempt
    ofExcept (t.verdict s a)

/-- The transfer loop. -/
def run (t : Transfer S ε) (call : S → Proc σ ε Nat) (s : S) : Proc σ ε Unit :=
  loop (t.turn call) s

theorem verdict_ok {s s' : S} {n : Nat} (h : t.onOk s n = .ok s') :
    t.verdict s (.ok n) = .ok (.again (t.settle s')) := by
  rw [verdict, h]
  rfl

theorem verdict_ok_error {s : S} {n : Nat} {e : ε} (h : t.onOk s n = .error e) :
    t.verdict s (.ok n) = .error e := by
  rw [verdict, h]
  rfl

theorem verdict_retry {s : S} {e : ε} (h : t.retry e = true) :
    t.verdict s (.error e) = .ok (.again (t.settle s)) := by
  rw [verdict, if_pos h]

theorem verdict_error {s : S} {e : ε} (h : t.retry e = false) :
    t.verdict s (.error e) = .error e := by
  rw [verdict, h]
  rfl

/-- A turn is never `done` after a call. -/
theorem verdict_ne_done {s : S} {a : Except ε Nat} {u : Unit} :
    t.verdict s a ≠ .ok (.done u) := by
  cases a with
  | ok n =>
    cases h : t.onOk s n with
    | ok s' => rw [verdict_ok h]; simp
    | error e => rw [verdict_ok_error h]; simp
  | error e =>
    cases h : t.retry e with
    | true => rw [verdict_retry h]; simp
    | false => rw [verdict_error h]; simp

/-! ## Turns -/

theorem turn_empty {s : S} (h : t.isEmpty s = true) : t.turn call s = pure (.done ()) := by
  rw [turn, if_pos h]

theorem turn_returns {s : S} (h : t.isEmpty s = false) {o : Except ε (Turn S Unit)}
    {w w' : σ} :
    (t.turn call s).Returns w o w' ↔ ∃ a, (call s).Returns w a w' ∧ o = t.verdict s a := by
  rw [turn, h, if_neg Bool.false_ne_true, returns_attempt_bind]
  constructor
  · rintro ⟨a, w₁, hc, hf⟩
    obtain ⟨hv, rfl⟩ := returns_ofExcept.mp hf
    exact ⟨a, hc, hv.symm⟩
  · rintro ⟨a, hc, rfl⟩
    exact ⟨a, w', hc, returns_ofExcept.mpr ⟨rfl, rfl⟩⟩

/-! ## One call at a time -/

theorem run_empty {s : S} (h : t.isEmpty s = true) (w : σ) :
    (t.run call s).Returns w (.ok ()) w := by
  refine loop_returns.mpr ⟨.ok (.done ()), w, ?_, rfl, rfl⟩
  rw [turn_empty h, returns_pure]
  exact ⟨rfl, rfl⟩

/-- After a call that lets the loop go on, the rest of the loop. -/
theorem run_again {s s' : S} {a : Except ε Nat} {w w₁ w' : σ} {r : Except ε Unit}
    (h : t.isEmpty s = false) (hCall : (call s).Returns w a w₁)
    (hVerdict : t.verdict s a = .ok (.again s')) (hRest : (t.run call s').Returns w₁ r w') :
    (t.run call s).Returns w r w' :=
  loop_returns.mpr
    ⟨.ok (.again s'), w₁, (turn_returns h).mpr ⟨a, hCall, hVerdict.symm⟩, hRest⟩

/-- A call that ends the loop. -/
theorem run_stop {s : S} {a : Except ε Nat} {w w₁ : σ} {e : ε} (h : t.isEmpty s = false)
    (hCall : (call s).Returns w a w₁) (hVerdict : t.verdict s a = .error e) :
    (t.run call s).Returns w (.error e) w₁ :=
  loop_returns.mpr ⟨.error e, w₁, (turn_returns h).mpr ⟨a, hCall, hVerdict.symm⟩, rfl, rfl⟩

/-! ## Invariant rules -/

/-- **Partial correctness of a transfer loop.** -/
theorem run_wlp (Inv : S → σ → Prop) {Post : Except ε Unit → σ → Prop}
    (hEmpty : ∀ s w, Inv s w → t.isEmpty s = true → Post (.ok ()) w)
    (hCall : ∀ s w, Inv s w → t.isEmpty s = false →
      (call s).wlp w fun a w' => AfterTurn Inv Post (t.verdict s a) w')
    {s : S} {w : σ} (hInv : Inv s w) : (t.run call s).wlp w Post := by
  refine loop_wlp Inv ?_ hInv
  intro s w hI o w' ho
  cases h : t.isEmpty s with
  | true =>
    rw [turn_empty h, returns_pure] at ho
    obtain ⟨rfl, rfl⟩ := ho
    exact hEmpty s w hI h
  | false =>
    obtain ⟨a, ha, rfl⟩ := (turn_returns h).mp ho
    exact hCall s w hI h a w' ha

/-- **Total correctness of a transfer loop.** -/
theorem run_wp (Inv : S → σ → Prop) {Post : Except ε Unit → σ → Prop} (μ : S → σ → Nat)
    (hEmpty : ∀ s w, Inv s w → t.isEmpty s = true → Post (.ok ()) w)
    (hCall : ∀ s w, Inv s w → t.isEmpty s = false →
      (call s).wp w fun a w' =>
        AfterTurn (fun s' w' => Inv s' w' ∧ μ s' w' < μ s w) Post (t.verdict s a) w')
    {s : S} {w : σ} (hInv : Inv s w) : (t.run call s).wp w Post := by
  refine loop_wp Inv μ ?_ hInv
  intro s w hI
  cases h : t.isEmpty s with
  | true =>
    rw [turn_empty h]
    exact wp_pure (hEmpty s w hI h)
  | false =>
    obtain ⟨a, w', ha, hAfter⟩ := hCall s w hI h
    exact ⟨_, w', (turn_returns h).mpr ⟨a, ha, rfl⟩, hAfter⟩

/-- **A stuck transfer loop.** If the loop reaches a state in which every
call, from there on, leaves a state of the same kind, it runs for ever. -/
theorem run_stuck (Inv : S → σ → Prop)
    (hCall : ∀ s w, Inv s w → t.isEmpty s = false ∧
      ∃ a w' s', (call s).Returns w a w' ∧ t.verdict s a = .ok (.again s') ∧ Inv s' w')
    {c d : S × σ} (h : Reaches (t.turn call) c d) (hInv : Inv d.1 d.2) :
    (t.run call c.1).Diverges c.2 := by
  refine loop_never Inv ?_ h hInv
  intro s w hI
  obtain ⟨hne, a, w', s', ha, hv, hI'⟩ := hCall s w hI
  exact ⟨s', w', (turn_returns hne).mpr ⟨a, ha, hv.symm⟩, hI'⟩

/-- **Simulation, call by call.** -/
theorem run_sim {τ : Type} {R : σ → τ → Prop} {call' : S → Proc τ ε Nat}
    (hCall : ∀ s, Sim R (call s) (call' s)) (s : S) : Sim R (t.run call s) (t.run call' s) := by
  refine loop_sim ?_ s
  intro s w v hR o w' ho
  cases h : t.isEmpty s with
  | true =>
    rw [turn_empty h, returns_pure] at ho
    obtain ⟨rfl, rfl⟩ := ho
    exact ⟨v, by rw [turn_empty h, returns_pure]; exact ⟨rfl, rfl⟩, hR⟩
  | false =>
    obtain ⟨a, ha, rfl⟩ := (turn_returns h).mp ho
    obtain ⟨v', hv', hR'⟩ := hCall s w v hR a w' ha
    exact ⟨v', (turn_returns h).mpr ⟨a, hv', rfl⟩, hR'⟩

/-! ## Progress by count -/

/-- One call of a loop that has moved `k` items: `At` ties the loop state and
`Track` the outer state to the number of items moved; a transient failure
moves none, and where the turn fails `Failed` holds. -/
def Moves (t : Transfer S ε) (At : Nat → S → Prop) (Track : Nat → σ → Prop)
    (Failed : Nat → ε → σ → Prop) (k : Nat) (s : S) : Except ε Nat → σ → Prop
  | .ok n, w' =>
    match t.onOk s n with
    | .ok s' => At (k + n) (t.settle s') ∧ Track (k + n) w'
    | .error e => Failed k e w'
  | .error e, w' =>
    if t.retry e then At k (t.settle s) ∧ Track k w' else Failed k e w'

/-- What the verdict on such a call leads to. -/
theorem Moves.afterTurn {At : Nat → S → Prop} {Track : Nat → σ → Prop}
    {Failed : Nat → ε → σ → Prop} {k : Nat} {s : S} {a : Except ε Nat} {w : σ} (hAt : At k s)
    (h : t.Moves At Track Failed k s a w) :
    match t.verdict s a with
    | .ok (.again s') => ∃ k', At k' s' ∧ Track k' w
    | .ok (.done _) => True
    | .error e => ∃ k' s', At k' s' ∧ Failed k' e w := by
  cases a with
  | ok n =>
    rw [Moves] at h
    cases hs : t.onOk s n with
    | ok s' =>
      rw [hs] at h
      rw [verdict_ok hs]
      exact ⟨k + n, h⟩
    | error e =>
      rw [hs] at h
      rw [verdict_ok_error hs]
      exact ⟨k, s, hAt, h⟩
  | error e =>
    rw [Moves] at h
    cases hr : t.retry e with
    | true =>
      rw [hr, if_pos rfl] at h
      rw [verdict_retry hr]
      exact ⟨k, h⟩
    | false =>
      rw [hr, if_neg Bool.false_ne_true] at h
      rw [verdict_error hr]
      exact ⟨k, s, hAt, h⟩

/-- **A transfer loop moves a prefix of its job.** If every call keeps the
count, then on success all `total` items were moved, and on a failure the
number moved before the failing call is the one `Failed` speaks of. -/
theorem run_tracks (total : Nat) (At : Nat → S → Prop) (Track : Nat → σ → Prop)
    (Failed : Nat → ε → σ → Prop)
    (hEmpty : ∀ k s, At k s → t.isEmpty s = true → k = total)
    (hCall : ∀ k s w, At k s → Track k w → t.isEmpty s = false →
      (call s).wlp w (t.Moves At Track Failed k s))
    {s : S} {w : σ} (hAt : At 0 s) (hTrack : Track 0 w) :
    (t.run call s).wlp w fun r w' =>
      match r with
      | .ok () => Track total w'
      | .error e => ∃ k s', At k s' ∧ Failed k e w' := by
  refine run_wlp (fun s w => ∃ k, At k s ∧ Track k w) ?_ ?_ ⟨0, hAt, hTrack⟩
  · intro s w ⟨k, hA, hT⟩ hE
    have hk : k = total := hEmpty k s hA hE
    exact hk ▸ hT
  · intro s w ⟨k, hA, hT⟩ hne a w' ha
    have hNext := Moves.afterTurn hA (hCall k s w hA hT hne a w' ha)
    match hv : t.verdict s a, hNext with
    | .ok (.again s'), hAgain => exact hAgain
    | .ok (.done u), _ => exact absurd hv verdict_ne_done
    | .error e, hFailed => exact hFailed

end Transfer

end Effect
