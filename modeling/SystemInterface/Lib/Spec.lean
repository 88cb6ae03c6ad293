import SystemInterface.Lib.Prog

/-!
# Calls and what they are for

A specification says of every call what it is to answer, and what is to become of the
state it stands for; it may leave calls open in states where they are not allowed, and as a
`Rules` it may leave a choice between answers. An implementation that serves the single
calls serves every program over them, also one that chooses its calls by the answers it has
had, and no program can tell two implementations of a specification with one answer apart.

Main results:

* `Rules.Serves.prog`, `Spec.Serves.prog` — serving the calls is serving the programs;
* `Spec.Serves.agree` — two implementations of one specification.
-/

namespace Effect

variable {σ τ ρ ε α A : Type} {B : A → Type}

/-- Run a program, every operation being carried out by a procedure. -/
def Prog.through (call : (a : A) → Proc σ ε (B a)) : Prog A B ε α → Proc σ ε α
  | .done r => Proc.ofExcept r
  | .call a next => do
    let b ← call a
    through call (next b)

-- ---------------------------------------------------------------------------
-- Any of several answers
-- ---------------------------------------------------------------------------

namespace Rules

variable {P : Rules A B τ} {call : (a : A) → Proc σ ε (B a)} {abs : σ → τ} {J : σ → Prop}

/-- The calls return, and stay within the rules; `abs` is the state that the concrete one
stands for, and `J` an invariant of the concrete one. -/
def Serves (P : Rules A B τ) (call : (a : A) → Proc σ ε (B a)) (abs : σ → τ) (J : σ → Prop) :
    Prop :=
  ∀ a w, P.Pre a (abs w) → J w →
    (call a).wp w fun r w' => ∃ b, r = .ok b ∧ P.Step a (abs w) b (abs w') ∧ J w'

/-- **What holds of a program by the rules** holds of it over an implementation. -/
theorem Serves.prog (h : P.Serves call abs J) {Post : Except ε α → τ → Prop}
    {x : Prog A B ε α} {w : σ} (hx : x.Holds P Post (abs w)) (hJ : J w) :
    (x.through call).wp w fun r w' => Post r (abs w') ∧ J w' := by
  induction x generalizing w with
  | done r => exact Proc.wp_ofStep ⟨hx, hJ⟩
  | call a next ih =>
    refine Proc.wp_bind ((h a w hx.1 hJ).mono ?_)
    rintro _ w₁ ⟨b, rfl, hStep, hJ₁⟩
    exact ih b (hx.2 b (abs w₁) hStep) hJ₁

end Rules

-- ---------------------------------------------------------------------------
-- One answer
-- ---------------------------------------------------------------------------

/-- The answer to a call, the state after it, and where it is allowed. -/
structure Spec (A : Type) (B : A → Type) (τ : Type) where
  apply : τ → (a : A) → B a × τ
  allowed : τ → A → Prop

namespace Spec

variable (S : Spec A B τ)

/-- What the program is to return, and the state it is to leave. -/
def run (x : Prog A B ε α) (t : τ) : Except ε α × τ := x.exec (fun a t => S.apply t a) t

/-- Every call of the program is allowed when it is made. -/
def Allows (t : τ) : Prog A B ε α → Prop
  | .done _ => True
  | .call a next => S.allowed t a ∧ Allows (S.apply t a).2 (next (S.apply t a).1)

instance decidableAllows [hAllowed : ∀ t a, Decidable (S.allowed t a)] :
    (x : Prog A B ε α) → (t : τ) → Decidable (S.Allows t x)
  | .done _, _ => isTrue trivial
  | .call a next, t =>
    have := decidableAllows (next (S.apply t a).1) (S.apply t a).2
    inferInstanceAs (Decidable (S.allowed t a ∧ S.Allows (S.apply t a).2 (next (S.apply t a).1)))

/-- The calls do what they are for; `abs` is the state that the concrete one stands for,
and `J` an invariant of the concrete one. -/
def Serves (call : (a : A) → Proc σ ε (B a)) (abs : σ → τ) (J : σ → Prop) : Prop :=
  ∀ a w, S.allowed (abs w) a → J w →
    (call a).wp w fun r w' =>
      r = .ok (S.apply (abs w) a).1 ∧ abs w' = (S.apply (abs w) a).2 ∧ J w'

variable {S} {call : (a : A) → Proc σ ε (B a)} {abs : σ → τ} {J : σ → Prop}

/-- The rules that leave one answer. -/
def rules (S : Spec A B τ) : Rules A B τ where
  Pre a t := S.allowed t a
  Step a t b t' := (b, t') = S.apply t a

theorem Allows.holds {x : Prog A B ε α} {t : τ} (h : S.Allows t x) :
    x.Holds S.rules (fun r t' => (r, t') = S.run x t) t := by
  induction x generalizing t with
  | done r => exact rfl
  | call a next ih =>
    refine ⟨h.1, fun b t' hStep => ?_⟩
    obtain ⟨rfl, rfl⟩ := Prod.mk.inj hStep
    exact ih _ h.2

theorem Serves.rules (h : S.Serves call abs J) : S.rules.Serves call abs J := by
  intro a w hAllowed hJ
  apply (h a w hAllowed hJ).mono
  rintro r w' ⟨rfl, hAbs, hJ'⟩
  exact ⟨_, rfl, Prod.ext rfl hAbs, hJ'⟩

/-- **Serving the calls is serving the programs.** -/
theorem Serves.prog (h : S.Serves call abs J) (x : Prog A B ε α) {w : σ}
    (hAllows : S.Allows (abs w) x) (hJ : J w) :
    (x.through call).wp w fun r w' => (r, abs w') = S.run x (abs w) ∧ J w' :=
  h.rules.prog hAllows.holds hJ

/-- **Two implementations of one specification** cannot be told apart. -/
theorem Serves.agree (h : S.Serves call abs J) {call' : (a : A) → Proc ρ ε (B a)}
    {abs' : ρ → τ} {J' : ρ → Prop} (h' : S.Serves call' abs' J') {x : Prog A B ε α} {w : σ}
    {v : ρ} (hSame : abs' v = abs w) (hAllows : S.Allows (abs w) x) (hJ : J w) (hJ' : J' v) :
    ∃ r w' v', (x.through call).Returns w r w' ∧ (x.through call').Returns v r v' ∧
      abs w' = abs' v' ∧ (r, abs w') = S.run x (abs w) := by
  obtain ⟨r, w', hRun, hEq, -⟩ := h.prog x hAllows hJ
  obtain ⟨r', v', hRun', hEq', -⟩ := h'.prog x (hSame ▸ hAllows) hJ'
  rw [hSame] at hEq'
  obtain ⟨rfl, hAbs⟩ := Prod.mk.inj (hEq.trans hEq'.symm)
  exact ⟨r, w', v', hRun, hRun', hAbs, hEq⟩

end Spec

end Effect
