import Mathlib.Data.Nat.Basic
import Mathlib.Logic.Relation

/-!
# Stateful procedures that may not return

`Proc σ ε α` is a procedure over a state `σ` that returns an `α`, fails with
an `ε`, or runs for ever. It is given by its finite approximations: `run n`
is what can be observed when every loop may take `n` turns, `none` while the
procedure is still running. The monotonicity of the approximations is a field
of the structure, so every procedure built from the combinators below carries
it, and `Returns` (some approximation gives the result) is deterministic by
construction.

Main results:

* `returns_bind`, `returns_attempt`, `returns_ofStep` — what a composite
  procedure returns, in terms of what its parts return;
* `loop_returns` — one unrolling of a loop;
* `loop_wlp` / `loop_wp` — the invariant rule (partial correctness) and the
  invariant-and-measure rule (total correctness) of a loop, and `retry_wlp` /
  `retry_wp` of a procedure that is tried again;
* `Reaches.returns_iff` / `loop_never` — a loop returns exactly when it does
  from any configuration it reaches, and never does from a set of
  configurations it cannot leave;
* `loop_sim` — a simulation of the turns is a simulation of the loops.
-/

namespace Effect

variable {σ ε α β S R : Type}

/-- A procedure over the state `σ`, by its approximations. -/
structure Proc (σ ε α : Type) where
  /-- The outcome and the final state seen with `n` turns for every loop. -/
  run : Nat → σ → Option (Except ε α × σ)
  /-- More turns never change an outcome that was seen. -/
  run_mono : ∀ {m n : Nat} {w : σ} {o : Except ε α × σ},
    m ≤ n → run m w = some o → run n w = some o

/-- The verdict of one turn of a loop: go round again, or leave with a value. -/
inductive Turn (S R : Type) where
  | again (s : S)
  | done (r : R)
  deriving Repr, DecidableEq

namespace Proc

/-! ## Combinators -/

/-- A primitive step, which always returns. -/
def ofStep (f : σ → Except ε α × σ) : Proc σ ε α where
  run _ w := some (f w)
  run_mono _ h := h

/-- A computed result, with no effect on the state. -/
def ofExcept (r : Except ε α) : Proc σ ε α := ofStep fun w => (r, w)

protected def bind (x : Proc σ ε α) (f : α → Proc σ ε β) : Proc σ ε β where
  run n w :=
    match x.run n w with
    | none => none
    | some (.error e, w') => some (.error e, w')
    | some (.ok a, w') => (f a).run n w'
  run_mono {m n w o} hmn h := by
    split at h
    · exact absurd h (by simp)
    · next hx => rw [x.run_mono hmn hx]; exact h
    · next hx => rw [x.run_mono hmn hx]; exact (f _).run_mono hmn h

instance : Monad (Proc σ ε) where
  pure a := ofExcept (.ok a)
  bind := Proc.bind

theorem run_bind (x : Proc σ ε α) (f : α → Proc σ ε β) (n : Nat) (w : σ) :
    (x >>= f).run n w =
      match x.run n w with
      | none => none
      | some (.error e, w') => some (.error e, w')
      | some (.ok a, w') => (f a).run n w' := rfl

/-- Run `x` and hand its outcome over as a value, failure included. -/
def attempt (x : Proc σ ε α) : Proc σ ε (Except ε α) where
  run n w := (x.run n w).map fun o => (.ok o.1, o.2)
  run_mono {m n w o} hmn h := by
    rw [Option.map_eq_some_iff] at h ⊢
    obtain ⟨o', hx, rfl⟩ := h
    exact ⟨o', x.run_mono hmn hx, rfl⟩

theorem ext {x y : Proc σ ε α} (h : ∀ n w, x.run n w = y.run n w) : x = y := by
  obtain ⟨f, hf⟩ := x
  obtain ⟨g, hg⟩ := y
  obtain rfl : f = g := funext fun n => funext fun w => h n w
  rfl

theorem run_attempt (x : Proc σ ε α) (n : Nat) (w : σ) :
    x.attempt.run n w = (x.run n w).map fun o => (.ok o.1, o.2) := rfl

theorem run_attempt_bind (x : Proc σ ε α) (f : Except ε α → Proc σ ε β) (n : Nat) (w : σ) :
    (x.attempt >>= f).run n w =
      match x.run n w with
      | none => none
      | some (r, w') => (f r).run n w' := by
  rw [run_bind, run_attempt]
  cases x.run n w <;> rfl

theorem ofExcept_attempt_bind (r : Except ε α) (f : Except ε α → Proc σ ε β) :
    (ofExcept r).attempt >>= f = f r := rfl

theorem ofStep_ok_bind_attempt_bind {γ : Type} (g : σ → γ × σ) (f : γ → Proc σ ε α)
    (k : Except ε α → Proc σ ε β) :
    (ofStep (fun w => (.ok (g w).1, (g w).2)) >>= f).attempt >>= k =
      ofStep (fun w => (.ok (g w).1, (g w).2)) >>= fun c => (f c).attempt >>= k := rfl

theorem attempt_bind_attempt_bind {γ : Type} (x : Proc σ ε α) (f : Except ε α → Proc σ ε β)
    (g : Except ε β → Proc σ ε γ) :
    (x.attempt >>= f).attempt >>= g = x.attempt >>= fun o => (f o).attempt >>= g := by
  refine ext fun n w => ?_
  rw [run_attempt_bind, run_attempt_bind, run_attempt_bind]
  rcases x.run n w with _ | ⟨r, w'⟩
  · rfl
  · exact (run_attempt_bind (f r) g n w').symm

theorem attempt_bind_ofExcept (x : Proc σ ε α) : x.attempt >>= ofExcept = x := by
  refine ext fun n w => ?_
  rw [run_attempt_bind]
  rcases x.run n w with _ | ⟨r, w'⟩ <;> rfl

/-- At most `turns` turns of a loop, each run with `fuel`. -/
def turns (body : S → Proc σ ε (Turn S R)) (fuel : Nat) :
    Nat → S → σ → Option (Except ε R × σ)
  | 0, _, _ => none
  | k + 1, s, w =>
    match (body s).run fuel w with
    | none => none
    | some (.error e, w') => some (.error e, w')
    | some (.ok (.done r), w') => some (.ok r, w')
    | some (.ok (.again s'), w') => turns body fuel k s' w'

theorem turns_mono {body : S → Proc σ ε (Turn S R)} {f g : Nat} (hfg : f ≤ g) :
    ∀ {k l : Nat} {s : S} {w : σ} {o : Except ε R × σ}, k ≤ l →
      turns body f k s w = some o → turns body g l s w = some o := by
  intro k
  induction k with
  | zero =>
    intro l s w o _ h
    exact absurd h (by simp [turns])
  | succ k ih =>
    intro l s w o hkl h
    obtain ⟨l, rfl⟩ : ∃ l', l = l' + 1 := ⟨l - 1, by omega⟩
    rw [turns] at h ⊢
    split at h
    · exact absurd h (by simp)
    · next hb => rw [(body s).run_mono hfg hb]; exact h
    · next hb => rw [(body s).run_mono hfg hb]; exact h
    · next hb => rw [(body s).run_mono hfg hb]; exact ih (by omega) h

/-- Repeat `body` until a turn is `done` or fails. -/
def loop (body : S → Proc σ ε (Turn S R)) (s : S) : Proc σ ε R where
  run n w := turns body n n s w
  run_mono hmn h := turns_mono hmn hmn h

/-- Run `x` until it does not fail, or fails for good. -/
def retry (transient : ε → Bool) (x : Proc σ ε α) : Proc σ ε α :=
  loop (fun _ => do
    let o ← x.attempt
    ofExcept (match o with
      | .ok a => .ok (.done a)
      | .error e => if transient e then .ok (.again ()) else .error e)) ()

/-! ## Returning -/

/-- From state `w` the procedure returns with outcome `r` in state `w'`. -/
def Returns (x : Proc σ ε α) (w : σ) (r : Except ε α) (w' : σ) : Prop :=
  ∃ n, x.run n w = some (r, w')

/-- From state `w` the procedure runs for ever. -/
def Diverges (x : Proc σ ε α) (w : σ) : Prop := ∀ n, x.run n w = none

theorem Returns.det {x : Proc σ ε α} {w w₁ w₂ : σ} {r₁ r₂ : Except ε α}
    (h₁ : x.Returns w r₁ w₁) (h₂ : x.Returns w r₂ w₂) : r₁ = r₂ ∧ w₁ = w₂ := by
  obtain ⟨m, hm⟩ := h₁
  obtain ⟨n, hn⟩ := h₂
  have hm' := x.run_mono (Nat.le_max_left m n) hm
  have hn' := x.run_mono (Nat.le_max_right m n) hn
  rw [hm'] at hn'
  exact Prod.mk.inj (Option.some.inj hn')

theorem diverges_iff {x : Proc σ ε α} {w : σ} :
    x.Diverges w ↔ ∀ r w', ¬ x.Returns w r w' := by
  constructor
  · rintro h r w' ⟨n, hn⟩
    rw [h n] at hn
    exact absurd hn (by simp)
  · intro h n
    cases hn : x.run n w with
    | none => rfl
    | some o => exact absurd ⟨n, hn⟩ (h o.1 o.2)

@[simp] theorem returns_ofStep {f : σ → Except ε α × σ} {w w' : σ} {r : Except ε α} :
    (ofStep f).Returns w r w' ↔ f w = (r, w') := by
  simp [Returns, ofStep]

@[simp] theorem returns_ofExcept {r₀ r : Except ε α} {w w' : σ} :
    (ofExcept r₀ : Proc σ ε α).Returns w r w' ↔ r₀ = r ∧ w = w' := by
  simp [ofExcept]

@[simp] theorem returns_pure {a : α} {r : Except ε α} {w w' : σ} :
    (pure a : Proc σ ε α).Returns w r w' ↔ .ok a = r ∧ w = w' :=
  returns_ofExcept

/-- A sequence fails where its first part fails, or returns what its second
part returns. -/
theorem returns_bind {x : Proc σ ε α} {f : α → Proc σ ε β} {w w' : σ} {r : Except ε β} :
    (x >>= f).Returns w r w' ↔
      (∃ e, x.Returns w (.error e) w' ∧ r = .error e) ∨
      (∃ a w₁, x.Returns w (.ok a) w₁ ∧ (f a).Returns w₁ r w') := by
  constructor
  · rintro ⟨n, hn⟩
    rw [run_bind] at hn
    split at hn
    · exact absurd hn (by simp)
    · next e v hx =>
      obtain ⟨rfl, rfl⟩ := Prod.mk.inj (Option.some.inj hn)
      exact Or.inl ⟨e, ⟨n, hx⟩, rfl⟩
    · next a v hx => exact Or.inr ⟨a, v, ⟨n, hx⟩, ⟨n, hn⟩⟩
  · rintro (⟨e, ⟨n, hn⟩, rfl⟩ | ⟨a, w₁, ⟨m, hm⟩, ⟨n, hn⟩⟩)
    · exact ⟨n, by rw [run_bind, hn]⟩
    · refine ⟨max m n, ?_⟩
      rw [run_bind, x.run_mono (Nat.le_max_left m n) hm]
      exact (f a).run_mono (Nat.le_max_right m n) hn

@[simp] theorem returns_attempt {x : Proc σ ε α} {w w' : σ} {r : Except ε (Except ε α)} :
    x.attempt.Returns w r w' ↔ ∃ o, r = .ok o ∧ x.Returns w o w' := by
  constructor
  · rintro ⟨n, hn⟩
    obtain ⟨o, ho, heq⟩ := Option.map_eq_some_iff.mp hn
    obtain ⟨rfl, rfl⟩ := Prod.mk.inj heq
    exact ⟨o.1, rfl, ⟨n, ho⟩⟩
  · rintro ⟨o, rfl, n, hn⟩
    exact ⟨n, by simp [attempt, hn]⟩

/-- A sequence whose first part is known to succeed. -/
theorem returns_bind_of_ok {x : Proc σ ε α} {f : α → Proc σ ε β} {w w₁ w' : σ} {a : α}
    {r : Except ε β} (hx : x.Returns w (.ok a) w₁) :
    (x >>= f).Returns w r w' ↔ (f a).Returns w₁ r w' := by
  rw [returns_bind]
  constructor
  · rintro (⟨e, he, -⟩ | ⟨b, v, hb, hf⟩)
    · exact absurd (hx.det he).1 (by simp)
    · obtain ⟨hab, rfl⟩ := hx.det hb
      rwa [Except.ok.inj hab]
  · exact fun h => Or.inr ⟨a, w₁, hx, h⟩

/-- A sequence whose first part hands its outcome over goes on with it. -/
theorem returns_attempt_bind {x : Proc σ ε α} {f : Except ε α → Proc σ ε β} {w w' : σ}
    {r : Except ε β} :
    (x.attempt >>= f).Returns w r w' ↔ ∃ o w₁, x.Returns w o w₁ ∧ (f o).Returns w₁ r w' := by
  rw [returns_bind]
  constructor
  · rintro (⟨e, he, -⟩ | ⟨o, w₁, ho, hf⟩)
    · exact absurd (returns_attempt.mp he) (by simp)
    · obtain ⟨o', hEq, hx⟩ := returns_attempt.mp ho
      obtain rfl := Except.ok.inj hEq
      exact ⟨o, w₁, hx, hf⟩
  · rintro ⟨o, w₁, hx, hf⟩
    exact Or.inr ⟨o, w₁, returns_attempt.mpr ⟨o, rfl, hx⟩, hf⟩

/-! ## Pre- and postconditions -/

/-- Partial correctness: if `x` returns from `w`, then `Post` holds. -/
def wlp (x : Proc σ ε α) (w : σ) (Post : Except ε α → σ → Prop) : Prop :=
  ∀ r w', x.Returns w r w' → Post r w'

/-- Total correctness: `x` returns from `w`, and `Post` holds. -/
def wp (x : Proc σ ε α) (w : σ) (Post : Except ε α → σ → Prop) : Prop :=
  ∃ r w', x.Returns w r w' ∧ Post r w'

theorem wp.mono {x : Proc σ ε α} {w : σ} {P Q : Except ε α → σ → Prop}
    (h : x.wp w P) (hPQ : ∀ r w', P r w' → Q r w') : x.wp w Q := by
  obtain ⟨r, w', hr, hP⟩ := h
  exact ⟨r, w', hr, hPQ r w' hP⟩

/-- What holds of a run that returns holds of every run. -/
theorem wp.wlp {x : Proc σ ε α} {w : σ} {P : Except ε α → σ → Prop}
    (h : x.wp w P) : x.wlp w P := by
  obtain ⟨r, w', hr, hP⟩ := h
  intro r₂ w₂ hr₂
  obtain ⟨rfl, rfl⟩ := hr.det hr₂
  exact hP

theorem wp_ofStep {f : σ → Except ε α × σ} {w : σ} {Post : Except ε α → σ → Prop}
    (h : Post (f w).1 (f w).2) : (ofStep f).wp w Post :=
  ⟨_, _, returns_ofStep.mpr rfl, h⟩

theorem wp_ofExcept {r : Except ε α} {w : σ} {Post : Except ε α → σ → Prop}
    (h : Post r w) : (ofExcept r).wp w Post :=
  ⟨r, w, returns_ofExcept.mpr ⟨rfl, rfl⟩, h⟩

theorem wp_pure {a : α} {w : σ} {Post : Except ε α → σ → Prop}
    (h : Post (.ok a) w) : (pure a : Proc σ ε α).wp w Post :=
  wp_ofExcept h

theorem wp_attempt {x : Proc σ ε α} {w : σ} {Post : Except ε (Except ε α) → σ → Prop}
    (h : x.wp w fun r w' => Post (.ok r) w') : x.attempt.wp w Post := by
  obtain ⟨r, w', hr, hPost⟩ := h
  exact ⟨.ok r, w', returns_attempt.mpr ⟨r, rfl, hr⟩, hPost⟩

/-- A sequence whose first part is known to return. -/
theorem wp_bind {x : Proc σ ε α} {f : α → Proc σ ε β} {w : σ} {Post : Except ε β → σ → Prop}
    (h : x.wp w fun r w' => match r with
      | .ok a => (f a).wp w' Post
      | .error e => Post (.error e) w') : (x >>= f).wp w Post := by
  obtain ⟨r, w₁, hx, hPost⟩ := h
  cases r with
  | ok a =>
    obtain ⟨r', w', hf, hPost⟩ := hPost
    exact ⟨r', w', (returns_bind_of_ok hx).mpr hf, hPost⟩
  | error e => exact ⟨.error e, w₁, returns_bind.mpr (Or.inl ⟨e, hx, rfl⟩), hPost⟩

/-- What holds of every result of a sequence. -/
theorem wlp_bind {x : Proc σ ε α} {f : α → Proc σ ε β} {w : σ} {Post : Except ε β → σ → Prop}
    (h : x.wlp w fun r w' => match r with
      | .ok a => (f a).wlp w' Post
      | .error e => Post (.error e) w') : (x >>= f).wlp w Post := by
  intro r w' hr
  rcases returns_bind.mp hr with ⟨e, hx, rfl⟩ | ⟨a, w₁, hx, hf⟩
  · exact h _ _ hx
  · exact h _ _ hx r w' hf

theorem wlp.wp {x : Proc σ ε α} {w : σ} {P Q : Except ε α → σ → Prop}
    (hP : x.wlp w P) (hQ : x.wp w Q) : x.wp w fun r w' => P r w' ∧ Q r w' := by
  obtain ⟨r, w', hr, hq⟩ := hQ
  exact ⟨r, w', hr, hP r w' hr, hq⟩

/-! ## Loops -/

/-- What a turn of a loop that ended with `o` leads to: the next turn by
`Next`, or the end of the loop by `Post`. -/
def AfterTurn (Next : S → σ → Prop) (Post : Except ε R → σ → Prop) :
    Except ε (Turn S R) → σ → Prop
  | .error e, w => Post (.error e) w
  | .ok (.done r), w => Post (.ok r) w
  | .ok (.again s), w => Next s w

private theorem turns_returns {body : S → Proc σ ε (Turn S R)} {s : S} {w w' : σ}
    {r : Except ε R} (fuel k : Nat) (h : turns body fuel k s w = some (r, w')) :
    (loop body s).Returns w r w' :=
  ⟨max fuel k, turns_mono (Nat.le_max_left ..) (Nat.le_max_right ..) h⟩

/-- One unrolling of a loop. -/
theorem loop_returns {body : S → Proc σ ε (Turn S R)} {s : S} {w w' : σ}
    {r : Except ε R} :
    (loop body s).Returns w r w' ↔
      ∃ o w₁, (body s).Returns w o w₁ ∧
        AfterTurn (fun s' v => (loop body s').Returns v r w')
          (fun r' v => r' = r ∧ v = w') o w₁ := by
  constructor
  · rintro ⟨n, hn⟩
    change turns body n n s w = _ at hn
    cases n with
    | zero => exact absurd hn (by simp [turns])
    | succ n =>
      rw [turns] at hn
      split at hn
      · exact absurd hn (by simp)
      · next hb => exact ⟨_, _, ⟨_, hb⟩, Prod.mk.inj (Option.some.inj hn)⟩
      · next hb => exact ⟨_, _, ⟨_, hb⟩, Prod.mk.inj (Option.some.inj hn)⟩
      · next hb => exact ⟨_, _, ⟨_, hb⟩, turns_returns _ _ hn⟩
  · rintro ⟨o, w₁, ⟨m, hm⟩, hAfter⟩
    match o, hAfter with
    | .error e, ⟨h, h'⟩ =>
      subst h h'
      exact turns_returns m 1 (by simp only [turns, hm])
    | .ok (.done a), ⟨h, h'⟩ =>
      subst h h'
      exact turns_returns m 1 (by simp only [turns, hm])
    | .ok (.again s'), ⟨n, hn⟩ =>
      apply turns_returns (max m n) (n + 1)
      simp only [turns, (body s).run_mono (Nat.le_max_left m n) hm]
      exact turns_mono (Nat.le_max_right m n) le_rfl hn

/-- **Invariant rule, partial correctness.** If every turn from a state of
the invariant keeps it or establishes the postcondition, then so does every
returning run of the loop. -/
theorem loop_wlp {body : S → Proc σ ε (Turn S R)} (Inv : S → σ → Prop)
    {Post : Except ε R → σ → Prop}
    (hTurn : ∀ s w, Inv s w → (body s).wlp w (AfterTurn Inv Post))
    {s : S} {w : σ} (hInv : Inv s w) : (loop body s).wlp w Post := by
  rintro r w' ⟨n, hn⟩
  -- induction on the turns that were allowed, from an arbitrary turn on
  suffices key : ∀ k s w, Inv s w → turns body n k s w = some (r, w') → Post r w' from
    key n s w hInv hn
  intro k
  induction k with
  | zero => intro s w _ h; exact absurd h (by simp [turns])
  | succ k ih =>
    intro s w hInv h
    rw [turns] at h
    split at h
    · exact absurd h (by simp)
    · next hb =>
      obtain ⟨rfl, rfl⟩ := Prod.mk.inj (Option.some.inj h)
      exact hTurn s w hInv _ _ ⟨n, hb⟩
    · next hb =>
      obtain ⟨rfl, rfl⟩ := Prod.mk.inj (Option.some.inj h)
      exact hTurn s w hInv _ _ ⟨n, hb⟩
    · next hb => exact ih _ _ (hTurn s w hInv _ _ ⟨n, hb⟩) h

/-- **Invariant rule, total correctness.** If every turn from a state of the
invariant returns, and keeps the invariant with a smaller measure or
establishes the postcondition, then the loop returns with the postcondition. -/
theorem loop_wp {body : S → Proc σ ε (Turn S R)} (Inv : S → σ → Prop)
    {Post : Except ε R → σ → Prop} (μ : S → σ → Nat)
    (hTurn : ∀ s w, Inv s w →
      (body s).wp w (AfterTurn (fun s' w' => Inv s' w' ∧ μ s' w' < μ s w) Post))
    {s : S} {w : σ} (hInv : Inv s w) : (loop body s).wp w Post := by
  induction hm : μ s w using Nat.strong_induction_on generalizing s w with
  | _ m ih =>
    obtain ⟨o, w₁, hb, hAfter⟩ := hTurn s w hInv
    match o, hAfter with
    | .error e, hPost => exact ⟨_, _, loop_returns.mpr ⟨_, _, hb, rfl, rfl⟩, hPost⟩
    | .ok (.done a), hPost => exact ⟨_, _, loop_returns.mpr ⟨_, _, hb, rfl, rfl⟩, hPost⟩
    | .ok (.again s'), ⟨hInv', hlt⟩ =>
      obtain ⟨r, w', hr, hPost⟩ := ih _ (hm ▸ hlt) hInv' rfl
      exact ⟨r, w', loop_returns.mpr ⟨_, _, hb, hr⟩, hPost⟩

/-- What a turn of `retry` makes of an outcome. -/
theorem retry_verdict {transient : ε → Bool} {Next : σ → Prop} {Post : Except ε α → σ → Prop}
    {r : Except ε α} {w : σ} :
    (match r with
      | .ok a => Post (.ok a) w
      | .error e => if transient e then Next w else Post (.error e) w) →
    (ofExcept (match r with
      | .ok a => .ok (.done a)
      | .error e => if transient e then .ok (.again ()) else .error e) :
        Proc σ ε (Turn Unit α)).wp w (AfterTurn (fun _ => Next) Post) := by
  intro hPost
  apply wp_ofExcept
  cases r with
  | ok a => exact hPost
  | error e =>
    cases he : transient e with
    | true =>
      simp only [he, if_true] at hPost ⊢
      exact hPost
    | false =>
      simp only [he, Bool.false_eq_true, if_false] at hPost ⊢
      exact hPost

/-- A procedure that is tried again after a transient failure keeps what each such
failure keeps. -/
theorem retry_wlp {transient : ε → Bool} {x : Proc σ ε α} (Inv : σ → Prop)
    {Post : Except ε α → σ → Prop}
    (hTurn : ∀ w, Inv w → x.wlp w fun r w' => match r with
      | .ok a => Post (.ok a) w'
      | .error e => if transient e then Inv w' else Post (.error e) w')
    {w : σ} (hInv : Inv w) : (retry transient x).wlp w Post := by
  refine loop_wlp (fun _ => Inv) ?_ hInv
  intro _ w hI
  apply wlp_bind
  intro o w' ho
  obtain ⟨r, rfl, hx⟩ := returns_attempt.mp ho
  exact (retry_verdict (hTurn w hI r w' hx)).wlp

/-- A procedure that is tried again after a transient failure returns, if each
such failure keeps the invariant with a smaller measure. -/
theorem retry_wp {transient : ε → Bool} {x : Proc σ ε α} (Inv : σ → Prop)
    {Post : Except ε α → σ → Prop} (μ : σ → Nat)
    (hTurn : ∀ w, Inv w → x.wp w fun r w' => match r with
      | .ok a => Post (.ok a) w'
      | .error e => if transient e then Inv w' ∧ μ w' < μ w else Post (.error e) w')
    {w : σ} (hInv : Inv w) : (retry transient x).wp w Post := by
  refine loop_wp (fun _ => Inv) (fun _ => μ) ?_ hInv
  intro _ w hI
  refine wp_bind (wp_attempt ((hTurn w hI).mono ?_))
  exact fun r w' hPost => retry_verdict hPost

/-! ## Configurations a loop reaches -/

/-- One turn of the loop takes the first configuration to the second. -/
def OneTurn (body : S → Proc σ ε (Turn S R)) (c d : S × σ) : Prop :=
  (body c.1).Returns c.2 (.ok (.again d.1)) d.2

/-- Finitely many turns of the loop take the first configuration to the
second. -/
def Reaches (body : S → Proc σ ε (Turn S R)) : S × σ → S × σ → Prop :=
  Relation.ReflTransGen (OneTurn body)

theorem OneTurn.returns_iff {body : S → Proc σ ε (Turn S R)} {c d : S × σ}
    (h : OneTurn body c d) {r : Except ε R} {w' : σ} :
    (loop body c.1).Returns c.2 r w' ↔ (loop body d.1).Returns d.2 r w' := by
  constructor
  · intro hr
    obtain ⟨o, w₁, hb, hAfter⟩ := loop_returns.mp hr
    obtain ⟨rfl, rfl⟩ := Returns.det h hb
    exact hAfter
  · exact fun hr => loop_returns.mpr ⟨_, _, h, hr⟩

/-- A loop returns exactly what it returns from a configuration it reaches. -/
theorem Reaches.returns_iff {body : S → Proc σ ε (Turn S R)} {c d : S × σ}
    (h : Reaches body c d) {r : Except ε R} {w' : σ} :
    (loop body c.1).Returns c.2 r w' ↔ (loop body d.1).Returns d.2 r w' := by
  induction h with
  | refl => exact Iff.rfl
  | tail _ hStep ih => exact ih.trans hStep.returns_iff

/-- **Divergence rule.** A loop that has reached a set of configurations in
which every turn goes round again, and stays in the set, runs for ever. -/
theorem loop_never {body : S → Proc σ ε (Turn S R)} (Inv : S → σ → Prop)
    (hTurn : ∀ s w, Inv s w → ∃ s' w', OneTurn body (s, w) (s', w') ∧ Inv s' w')
    {c d : S × σ} (h : Reaches body c d) (hInv : Inv d.1 d.2) :
    (loop body c.1).Diverges c.2 := by
  rw [diverges_iff]
  intro r w' hr
  rw [h.returns_iff] at hr
  have hFalse : (loop body d.1).wlp d.2 fun _ _ => False := by
    refine loop_wlp Inv ?_ hInv
    intro s w hI o w₁ ho
    obtain ⟨s', w'', hOne, hI'⟩ := hTurn s w hI
    obtain ⟨rfl, rfl⟩ := Returns.det hOne ho
    exact hI'
  exact hFalse r w' hr

/-! ## Simulation -/

/-- From related states, `y` returns whatever `x` returns, in a related state. -/
def Sim {τ : Type} (R : σ → τ → Prop) (x : Proc σ ε α) (y : Proc τ ε α) : Prop :=
  ∀ w v, R w v → ∀ r w', x.Returns w r w' → ∃ v', y.Returns v r v' ∧ R w' v'

/-- A simulation of a procedure that always returns is one in both directions. -/
theorem Sim.flip {τ : Type} {R : σ → τ → Prop} {x : Proc σ ε α} {y : Proc τ ε α}
    (h : Sim R x y) (hTotal : ∀ w, ∃ r w', x.Returns w r w') :
    Sim (fun v w => R w v) y x := by
  intro v w hR r v' hy
  obtain ⟨r₂, w', hx⟩ := hTotal w
  obtain ⟨v₂, hy₂, hR'⟩ := h w v hR r₂ w' hx
  obtain ⟨rfl, rfl⟩ := hy.det hy₂
  exact ⟨w', hx, hR'⟩

/-- **Simulation, turn by turn.** -/
theorem loop_sim {τ : Type} {R : σ → τ → Prop} {body : S → Proc σ ε (Turn S α)}
    {body' : S → Proc τ ε (Turn S α)} (hTurn : ∀ s, Sim R (body s) (body' s)) (s : S) :
    Sim R (loop body s) (loop body' s) := by
  rintro w v hR r w' ⟨n, hn⟩
  suffices key : ∀ k s w v, R w v → turns body n k s w = some (r, w') →
      ∃ v', (loop body' s).Returns v r v' ∧ R w' v' from key n s w v hR hn
  intro k
  induction k with
  | zero => intro s w v _ h; exact absurd h (by simp [turns])
  | succ k ih =>
    intro s w v hR h
    rw [turns] at h
    split at h
    · exact absurd h (by simp)
    · next hb =>
      obtain ⟨rfl, rfl⟩ := Prod.mk.inj (Option.some.inj h)
      obtain ⟨v₁, hv₁, hR₁⟩ := hTurn s w v hR _ _ ⟨n, hb⟩
      exact ⟨v₁, loop_returns.mpr ⟨_, _, hv₁, rfl, rfl⟩, hR₁⟩
    · next hb =>
      obtain ⟨rfl, rfl⟩ := Prod.mk.inj (Option.some.inj h)
      obtain ⟨v₁, hv₁, hR₁⟩ := hTurn s w v hR _ _ ⟨n, hb⟩
      exact ⟨v₁, loop_returns.mpr ⟨_, _, hv₁, rfl, rfl⟩, hR₁⟩
    · next hb =>
      obtain ⟨v₁, hv₁, hR₁⟩ := hTurn s w v hR _ _ ⟨n, hb⟩
      obtain ⟨v', hv', hR'⟩ := ih _ _ _ hR₁ h
      exact ⟨v', loop_returns.mpr ⟨_, _, hv₁, hv'⟩, hR'⟩

end Proc

end Effect
