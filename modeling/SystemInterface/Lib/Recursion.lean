import Mathlib.Order.Hom.Basic
import Mathlib.Order.Iterate
import SystemInterface.Lib.Proc

/-!
# Procedures that call themselves

Procedures are ordered by what they return: `x ≤ y` if `y` returns whatever `x`
does. The body of a recursive procedure is a monotone function of the procedure
that it calls; from the procedure that never returns it makes the one with `n`
nested calls.

Main results:

* `fix_returns_iff` — what is returned is returned after some number of nested
  calls;
* `fix_returns_of_base` — a call that does not call again;
* `fix_diverges` — a call that calls again from a state where it does.
-/

namespace Effect

namespace Proc

variable {σ ε α β : Type}

/-- `y` returns whatever `x` returns, with the same approximation. -/
instance : Preorder (Proc σ ε α) where
  le x y := ∀ n w o, x.run n w = some o → y.run n w = some o
  le_refl _ _ _ _ h := h
  le_trans _ _ _ hxy hyz n w o h := hyz n w o (hxy n w o h)

/-- The procedure that never returns. -/
def never : Proc σ ε α where
  run _ _ := none
  run_mono _ h := h

theorem never_le (x : Proc σ ε α) : never ≤ x := fun _ _ _ h => absurd h (by simp [never])

theorem never_diverges (w : σ) : (never : Proc σ ε α).Diverges w := fun _ => rfl

-- ---------------------------------------------------------------------------
-- Monotone bodies
-- ---------------------------------------------------------------------------

theorem attempt_mono {x y : Proc σ ε α} (hxy : x ≤ y) : x.attempt ≤ y.attempt := by
  intro n w o h
  obtain ⟨o', hx, rfl⟩ := Option.map_eq_some_iff.mp h
  exact Option.map_eq_some_iff.mpr ⟨o', hxy n w o' hx, rfl⟩

theorem bind_mono {x y : Proc σ ε α} {f g : α → Proc σ ε β} (hxy : x ≤ y)
    (hfg : ∀ a, f a ≤ g a) : x >>= f ≤ y >>= g := by
  intro n w o h
  rw [run_bind] at h ⊢
  split at h
  · exact absurd h (by simp)
  · next hx =>
    rw [hxy n w _ hx]
    exact h
  · next hx =>
    rw [hxy n w _ hx]
    exact hfg _ n _ o h

-- ---------------------------------------------------------------------------
-- Recursion
-- ---------------------------------------------------------------------------

/-- The body with `n` nested calls. -/
def nested (F : Proc σ ε α →o Proc σ ε α) (n : Nat) : Proc σ ε α := F^[n] never

theorem nested_mono (F : Proc σ ε α →o Proc σ ε α) : Monotone (nested F) :=
  F.monotone.monotone_iterate_of_le_map (never_le (F never))

theorem nested_succ (F : Proc σ ε α →o Proc σ ε α) (n : Nat) :
    nested F (n + 1) = F (nested F n) :=
  Function.iterate_succ_apply' F n never

/-- The procedure of which `F` is the body: with fuel `n`, calls are nested `n` deep. -/
def fix (F : Proc σ ε α →o Proc σ ε α) : Proc σ ε α where
  run n w := (nested F n).run n w
  run_mono {m n w o} hmn h := (nested F n).run_mono hmn (nested_mono F hmn m w o h)

variable {F : Proc σ ε α →o Proc σ ε α} {w w' : σ} {r : Except ε α}

/-- **A run that returns nests finitely many calls.** -/
theorem fix_returns_iff : (fix F).Returns w r w' ↔ ∃ n, (nested F n).Returns w r w' := by
  constructor
  · rintro ⟨n, hn⟩
    exact ⟨n, n, hn⟩
  · rintro ⟨n, m, hm⟩
    refine ⟨max m n, ?_⟩
    show (nested F (max m n)).run (max m n) w = some (r, w')
    exact (nested F (max m n)).run_mono (Nat.le_max_left m n)
      (nested_mono F (Nat.le_max_right m n) m w _ hm)

/-- A call returns what it does without calling again. -/
theorem fix_returns_of_base (h : (F never).Returns w r w') : (fix F).Returns w r w' :=
  fix_returns_iff.mpr ⟨1, h⟩

/-- **Divergence rule.** A body that does not return while the procedure it calls
does not is called for ever. -/
theorem fix_diverges (hStep : ∀ x, x.Diverges w → (F x).Diverges w) : (fix F).Diverges w := by
  have hNested : ∀ n, (nested F n).Diverges w := by
    intro n
    induction n with
    | zero => exact never_diverges w
    | succ n ih =>
      rw [nested_succ]
      exact hStep _ ih
  exact fun n => hNested n n

end Proc

end Effect
