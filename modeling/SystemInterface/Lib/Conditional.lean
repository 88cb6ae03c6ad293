import SystemInterface.Lib.Scope

/-!
# Procedures that return on a condition

`RunsIf` is partial correctness together with termination where a condition on the
environment holds, so that one argument gives both: what a run that returns has done
under any environment, and that it returns under a fair one.

Main results:

* `RunsIf.bind`, `RunsIf.focus`, `RunsIf.onFst`, `RunsIf.withLocal` — the rules for
  the combinators;
* `retry_runsIf` — a transient failure takes the run nearer to its end where the
  condition holds.
-/

namespace Effect

namespace Proc

variable {σ τ ε α β : Type} {x : Proc σ ε α} {C : Prop} {w : σ}

/-- If `x` returns from `w`, then `Post` holds; and it returns if `C` holds. -/
structure RunsIf (x : Proc σ ε α) (C : Prop) (w : σ) (Post : Except ε α → σ → Prop) : Prop where
  post : x.wlp w Post
  returns : C → ∃ r w', x.Returns w r w'

theorem wp.runsIf {Post : Except ε α → σ → Prop} (h : x.wp w Post) (C : Prop) :
    x.RunsIf C w Post := by
  refine ⟨h.wlp, fun _ => ?_⟩
  obtain ⟨r, w', hr, -⟩ := h
  exact ⟨r, w', hr⟩

namespace RunsIf

theorem wp {Post : Except ε α → σ → Prop} (h : x.RunsIf C w Post) (hC : C) : x.wp w Post := by
  obtain ⟨r, w', hr⟩ := h.returns hC
  exact ⟨r, w', hr, h.post r w' hr⟩

theorem mono {P Q : Except ε α → σ → Prop} (h : x.RunsIf C w P)
    (hPQ : ∀ r w', P r w' → Q r w') : x.RunsIf C w Q :=
  ⟨fun r w' hr => hPQ r w' (h.post r w' hr), h.returns⟩

/-- A bound of any size will do. -/
theorem exists_bound {C : Nat → Prop} {Post : Except ε α → σ → Prop}
    (h : ∀ N, x.RunsIf (C N) w Post) : x.RunsIf (∃ N, C N) w Post :=
  ⟨(h 0).post, fun ⟨N, hC⟩ => (h N).returns hC⟩

theorem bind {f : α → Proc σ ε β} {Post : Except ε β → σ → Prop}
    (h : x.RunsIf C w fun r w' => match r with
      | .ok a => (f a).RunsIf C w' Post
      | .error e => Post (.error e) w') : (x >>= f).RunsIf C w Post where
  post := by
    apply wlp_bind
    intro r w' hr
    have hNext := h.post r w' hr
    cases r with
    | ok a => exact hNext.post
    | error e => exact hNext
  returns hC := by
    obtain ⟨r, w', hr⟩ := h.returns hC
    have hNext := h.post r w' hr
    cases r with
    | ok a =>
      obtain ⟨r', w₂, hr'⟩ := hNext.returns hC
      exact ⟨r', w₂, (returns_bind_of_ok hr).mpr hr'⟩
    | error e => exact ⟨.error e, w', returns_bind.mpr (Or.inl ⟨e, hr, rfl⟩)⟩

theorem focus {enter : τ → σ} {leave : τ → σ → τ} {x : τ → Proc σ ε α} {t : τ}
    {Post : Except ε α → τ → Prop}
    (h : (x t).RunsIf C (enter t) fun r w' => Post r (leave t w')) :
    (Proc.focus enter leave x).RunsIf C t Post where
  post := by
    intro r t' hr
    obtain ⟨w', hx, rfl⟩ := focus_returns_iff.mp hr
    exact h.post r w' hx
  returns hC := by
    obtain ⟨r, w', hr⟩ := h.returns hC
    exact ⟨r, leave t w', focus_returns hr⟩

theorem onFst {t : τ} {Post : Except ε α → σ × τ → Prop}
    (h : x.RunsIf C w fun r w' => Post r (w', t)) : (Proc.onFst x).RunsIf C (w, t) Post :=
  focus (t := (w, t)) h

theorem withLocal {t : τ} {x : Proc (σ × τ) ε α} {Post : Except ε (α × τ) → σ → Prop}
    (h : x.RunsIf C (w, t) fun r s => Post (r.map fun a => (a, s.2)) s.1) :
    (Proc.withLocal t x).RunsIf C w Post where
  post := by
    rintro r w' ⟨n, hn⟩
    obtain ⟨⟨r', s⟩, hx, hEq⟩ := Option.map_eq_some_iff.mp hn
    obtain ⟨rfl, rfl⟩ := Prod.mk.inj hEq
    exact h.post r' s ⟨n, hx⟩
  returns hC := by
    obtain ⟨r, s, hr⟩ := h.returns hC
    have hRun : (Proc.withLocal t x).wp w fun _ _ => True := withLocal_wp ⟨r, s, hr, trivial⟩
    obtain ⟨r', w', hr', -⟩ := hRun
    exact ⟨r', w', hr'⟩

end RunsIf

/-- What is asked after a transient failure may be weakened. -/
theorem verdict_mono {transient : ε → Bool} (Post : Except ε α → Prop) {Next Next' : Prop}
    (hNext : Next → Next') {r : Except ε α} :
    (match r with
      | .ok a => Post (.ok a)
      | .error e => if transient e then Next else Post (.error e)) →
    match r with
      | .ok a => Post (.ok a)
      | .error e => if transient e then Next' else Post (.error e) := by
  intro h
  cases r with
  | ok a => exact h
  | error e =>
    cases he : transient e with
    | true =>
      simp only [he, if_true] at h ⊢
      exact hNext h
    | false =>
      simp only [he, Bool.false_eq_true, if_false] at h ⊢
      exact h

/-- **A procedure that is tried again** after a transient failure, if each such failure
keeps the invariant, with a smaller measure where the condition holds. -/
theorem retry_runsIf {transient : ε → Bool} (Inv : σ → Prop) {Post : Except ε α → σ → Prop}
    (μ : σ → Nat)
    (hTurn : ∀ w, Inv w → x.wp w fun r w' => match r with
      | .ok a => Post (.ok a) w'
      | .error e => if transient e then Inv w' ∧ (C → μ w' < μ w) else Post (.error e) w')
    (hInv : Inv w) : (retry transient x).RunsIf C w Post where
  post := by
    refine retry_wlp Inv (fun w hI => wp.wlp ((hTurn w hI).mono ?_)) hInv
    exact fun r w' => verdict_mono (fun r => Post r w') And.left
  returns hC := by
    have hRun : (retry transient x).wp w Post := by
      refine retry_wp Inv μ (fun w hI => (hTurn w hI).mono ?_) hInv
      exact fun r w' => verdict_mono (fun r => Post r w') fun hNext => ⟨hNext.1, hNext.2 hC⟩
    obtain ⟨r, w', hr, -⟩ := hRun
    exact ⟨r, w', hr⟩

end Proc

end Effect
