import SystemInterface.Lib.Prog
import SystemInterface.Lib.Transfer

/-!
# Transfer loops, one operation at a time

A client that runs a transfer loop whose operation is a program. Its state is
the loop state with what is left of the program of the current turn, so that
the operations of many clients can be interleaved.

Main result:

* `Run.inv_next` — the invariant of `Transfer.run_tracks`, kept by every single
  step of the client.
-/

namespace Effect

variable {Op : Type} {Rep : Op → Type} {ε σ S : Type}

/-- Where a client stands: in a turn, with the rest of its program, or at the
end of the loop. -/
inductive Run (Op : Type) (Rep : Op → Type) (S ε : Type) where
  | calling (s : S) (prog : Prog Op Rep ε Nat)
  | finished (r : Except ε Unit)

namespace Run

/-- Start a turn, or leave the loop when nothing is left. -/
def enter (t : Transfer S ε) (call : S → Prog Op Rep ε Nat) (s : S) : Run Op Rep S ε :=
  if t.isEmpty s then .finished (.ok ()) else .calling s (call s)

/-- Go on after a turn whose program ended with `a`. -/
def turn (t : Transfer S ε) (call : S → Prog Op Rep ε Nat) (s : S) (a : Except ε Nat) :
    Run Op Rep S ε :=
  match t.verdict s a with
  | .ok (.again s') => enter t call s'
  | .ok (.done u) => .finished (.ok u)
  | .error e => .finished (.error e)

/-- One step of a client: an operation, carried out by `handle`, or the end of
a turn. -/
def next {τ : Type} (t : Transfer S ε) (call : S → Prog Op Rep ε Nat)
    (handle : (op : Op) → Rep op × τ) : Run Op Rep S ε → Run Op Rep S ε × Option τ
  | .calling s (.call op rest) => (.calling s (rest (handle op).1), some (handle op).2)
  | .calling s (.done a) => (turn t call s a, none)
  | .finished r => (.finished r, none)

def result : Run Op Rep S ε → Option (Except ε Unit)
  | .calling _ _ => none
  | .finished r => some r

variable {t : Transfer S ε} {call : S → Prog Op Rep ε Nat} {P : Rules Op Rep σ}

/-- The client has moved `k` items before the current turn, and whatever the
answers of the turn will be, `Track` and `Failed` will speak the truth. -/
def Inv (t : Transfer S ε) (P : Rules Op Rep σ) (total : Nat) (At : Nat → S → Prop)
    (Track : Nat → σ → Prop) (Failed : Nat → ε → σ → Prop) : Run Op Rep S ε → σ → Prop
  | .calling s prog, w => ∃ k, At k s ∧ prog.Holds P (t.Moves At Track Failed k s) w
  | .finished (.ok ()), w => Track total w
  | .finished (.error e), w => ∃ k s, At k s ∧ Failed k e w

section

variable {total : Nat} {At : Nat → S → Prop} {Track : Nat → σ → Prop}
  {Failed : Nat → ε → σ → Prop}

theorem inv_enter (hEmpty : ∀ k s, At k s → t.isEmpty s = true → k = total)
    (hCall : ∀ k s w, At k s → t.isEmpty s = false → Track k w →
      (call s).Holds P (t.Moves At Track Failed k s) w)
    {k : Nat} {s : S} {w : σ} (hAt : At k s) (hTrack : Track k w) :
    Inv t P total At Track Failed (enter t call s) w := by
  unfold enter
  cases hE : t.isEmpty s with
  | true =>
    rw [if_pos rfl]
    have hk : k = total := hEmpty k s hAt hE
    exact hk ▸ hTrack
  | false =>
    rw [if_neg Bool.false_ne_true]
    exact ⟨k, hAt, hCall k s w hAt hE hTrack⟩

/-- The end of a turn keeps the invariant. -/
theorem inv_turn (hEmpty : ∀ k s, At k s → t.isEmpty s = true → k = total)
    (hCall : ∀ k s w, At k s → t.isEmpty s = false → Track k w →
      (call s).Holds P (t.Moves At Track Failed k s) w)
    {k : Nat} {s : S} {a : Except ε Nat} {w : σ} (hAt : At k s)
    (hMoves : t.Moves At Track Failed k s a w) :
    Inv t P total At Track Failed (turn t call s a) w := by
  unfold turn
  have hNext := Transfer.Moves.afterTurn hAt hMoves
  match hv : t.verdict s a, hNext with
  | .ok (.again s'), ⟨k', hAt', hTrack'⟩ => exact inv_enter hEmpty hCall hAt' hTrack'
  | .ok (.done u), _ => exact absurd hv Transfer.verdict_ne_done
  | .error e, hFailed => exact hFailed

/-- **Every step of a client keeps its invariant.** An operation it performs is
one the rules allow; where it performs none, its state is left alone. -/
theorem inv_next {τ : Type} {handle : (op : Op) → Rep op × τ} {after : τ → σ}
    (hEmpty : ∀ k s, At k s → t.isEmpty s = true → k = total)
    (hCall : ∀ k s w, At k s → t.isEmpty s = false → Track k w →
      (call s).Holds P (t.Moves At Track Failed k s) w)
    {c : Run Op Rep S ε} {w : σ}
    (hHandle : ∀ op, P.Pre op w → P.Step op w (handle op).1 (after (handle op).2))
    (hInv : Inv t P total At Track Failed c w) :
    (∀ v, (next t call handle c).2 = some v → (∃ op, P.Pre op w ∧ v = (handle op).2) ∧
      Inv t P total At Track Failed (next t call handle c).1 (after v)) ∧
    ((next t call handle c).2 = none →
      Inv t P total At Track Failed (next t call handle c).1 w) := by
  match c, hInv with
  | .calling s (.call op rest), ⟨k, hAt, hPre, hRest⟩ =>
    refine ⟨fun v hv => ?_, fun hv => absurd hv (by simp [next])⟩
    obtain rfl : (handle op).2 = v := Option.some.inj hv
    exact ⟨⟨op, hPre, rfl⟩, k, hAt, hRest _ _ (hHandle op hPre)⟩
  | .calling s (.done a), ⟨k, hAt, hMoves⟩ =>
    exact ⟨fun v hv => absurd hv (by simp [next]), fun _ => inv_turn hEmpty hCall hAt hMoves⟩
  | .finished r, hEnd => exact ⟨fun v hv => absurd hv (by simp [next]), fun _ => hEnd⟩

end

end Run

end Effect
