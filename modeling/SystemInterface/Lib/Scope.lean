import SystemInterface.Lib.Proc

/-!
# Procedures on a part of a state

A procedure over one state acts on a larger one: on a component of a pair, on a
part that has to be put in place first, or beside a variable of its own. A variable
beside the state can also take down what the procedure does.

Main results:

* `focus_wp`, `onFst_wp`, `withLocal_wp` — the rules for preconditions;
* `focus_returns_iff`, `onFst_returns_iff`, `observe_returns` — what is returned.
-/

namespace Effect

namespace Proc

variable {σ τ ε α β : Type}

/-- Run `x` on the state that `enter` makes of this one, and let `leave` take
its final state back. -/
def focus (enter : τ → σ) (leave : τ → σ → τ) (x : τ → Proc σ ε α) : Proc τ ε α where
  run n t := ((x t).run n (enter t)).map fun o => (o.1, leave t o.2)
  run_mono {m n t o} hmn h := by
    rw [Option.map_eq_some_iff] at h ⊢
    obtain ⟨o', hx, rfl⟩ := h
    exact ⟨o', (x t).run_mono hmn hx, rfl⟩

theorem focus_returns {enter : τ → σ} {leave : τ → σ → τ} {x : τ → Proc σ ε α} {t : τ}
    {r : Except ε α} {w' : σ} (hx : (x t).Returns (enter t) r w') :
    (focus enter leave x).Returns t r (leave t w') := by
  obtain ⟨n, hn⟩ := hx
  exact ⟨n, Option.map_eq_some_iff.mpr ⟨(r, w'), hn, rfl⟩⟩

theorem focus_returns_iff {enter : τ → σ} {leave : τ → σ → τ} {x : τ → Proc σ ε α} {t t' : τ}
    {r : Except ε α} :
    (focus enter leave x).Returns t r t' ↔
      ∃ w', (x t).Returns (enter t) r w' ∧ leave t w' = t' := by
  constructor
  · rintro ⟨n, hn⟩
    obtain ⟨⟨r', w'⟩, hx, hEq⟩ := Option.map_eq_some_iff.mp hn
    obtain ⟨rfl, rfl⟩ := Prod.mk.inj hEq
    exact ⟨w', ⟨n, hx⟩, rfl⟩
  · rintro ⟨w', hx, rfl⟩
    exact focus_returns hx

theorem focus_wp {enter : τ → σ} {leave : τ → σ → τ} {x : τ → Proc σ ε α} {t : τ}
    {Post : Except ε α → τ → Prop} (h : (x t).wp (enter t) fun r w' => Post r (leave t w')) :
    (focus enter leave x).wp t Post := by
  obtain ⟨r, w', hx, hPost⟩ := h
  exact ⟨r, leave t w', focus_returns hx, hPost⟩

/-- Run `x` on the first component. -/
def onFst (x : Proc σ ε α) : Proc (σ × τ) ε α := focus Prod.fst (fun t w => (w, t.2)) fun _ => x

theorem onFst_returns {x : Proc σ ε α} {w w' : σ} {r : Except ε α} (hx : x.Returns w r w')
    (t : τ) : (onFst x).Returns (w, t) r (w', t) :=
  focus_returns (t := (w, t)) hx

theorem onFst_wp {x : Proc σ ε α} {w : σ} {t : τ} {Post : Except ε α → σ × τ → Prop}
    (h : x.wp w fun r w' => Post r (w', t)) : (onFst x).wp (w, t) Post :=
  focus_wp (t := (w, t)) h

theorem onFst_returns_iff {x : Proc σ ε α} {s s' : σ × τ} {r : Except ε α} :
    (onFst x).Returns s r s' ↔ x.Returns s.1 r s'.1 ∧ s'.2 = s.2 := by
  constructor
  · intro h
    obtain ⟨w', hx, rfl⟩ := focus_returns_iff.mp h
    exact ⟨hx, rfl⟩
  · rintro ⟨hx, hEq⟩
    exact focus_returns_iff.mpr ⟨s'.1, hx, Prod.ext rfl hEq.symm⟩

/-- Run `x` on the first component, and take its outcome down in the second one. -/
def observe (note : Except ε α → τ → τ) (x : Proc σ ε α) : Proc (σ × τ) ε α where
  run n s := (x.run n s.1).map fun o => (o.1, o.2, note o.1 s.2)
  run_mono {m n s o} hmn h := by
    rw [Option.map_eq_some_iff] at h ⊢
    obtain ⟨o', hx, rfl⟩ := h
    exact ⟨o', x.run_mono hmn hx, rfl⟩

theorem observe_returns {note : Except ε α → τ → τ} {x : Proc σ ε α} {s s' : σ × τ}
    {r : Except ε α} :
    (observe note x).Returns s r s' ↔ x.Returns s.1 r s'.1 ∧ s'.2 = note r s.2 := by
  constructor
  · rintro ⟨n, hn⟩
    obtain ⟨⟨r', w'⟩, hx, hEq⟩ := Option.map_eq_some_iff.mp hn
    obtain ⟨rfl, rfl⟩ := Prod.mk.inj hEq
    exact ⟨⟨n, hx⟩, rfl⟩
  · rintro ⟨⟨n, hn⟩, hEq⟩
    refine ⟨n, Option.map_eq_some_iff.mpr ⟨(r, s'.1), hn, ?_⟩⟩
    exact Prod.ext rfl (Prod.ext rfl hEq.symm)

/-- Run `x` beside a variable with the value `t`, and hand the variable's last
value over with the result. -/
def withLocal (t : τ) (x : Proc (σ × τ) ε α) : Proc σ ε (α × τ) where
  run n w := (x.run n (w, t)).map fun o => (o.1.map fun a => (a, o.2.2), o.2.1)
  run_mono {m n w o} hmn h := by
    rw [Option.map_eq_some_iff] at h ⊢
    obtain ⟨o', hx, rfl⟩ := h
    exact ⟨o', x.run_mono hmn hx, rfl⟩

theorem withLocal_wp {t : τ} {x : Proc (σ × τ) ε α} {w : σ}
    {Post : Except ε (α × τ) → σ → Prop}
    (h : x.wp (w, t) fun r s => Post (r.map fun a => (a, s.2)) s.1) :
    (withLocal t x).wp w Post := by
  obtain ⟨r, s, ⟨n, hn⟩, hPost⟩ := h
  exact ⟨r.map fun a => (a, s.2), s.1, ⟨n, Option.map_eq_some_iff.mpr ⟨(r, s), hn, rfl⟩⟩, hPost⟩

end Proc

end Effect
