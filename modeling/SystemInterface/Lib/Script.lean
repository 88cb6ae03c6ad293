import SystemInterface.Lib.Prog
import SystemInterface.Lib.Transfer

/-!
# Programs with loops, one operation at a time

A `Script` is a program over operations, as `Prog` is, in which a part may be
repeated. It can be run whole, as a procedure of the state that the operations
act on (`toProc`), or step by step, with steps of others in between (`next`).

`Safe` is the weakest precondition over all answers that the rules for the
operations allow, of every finite stretch of a run: what it says holds at every
point of a run, whether or not the run ends.

Main results:

* `Safe.andThen`, `Safe.loop` — composing such facts; a loop has an invariant;
* `Steps.returns` — a run in single steps is a run of the procedure;
* `Transfer.script_toProc` — a transfer loop as a script.
-/

namespace Effect

variable {Op : Type} {Rep : Op → Type} {ε σ τ α β S R : Type}

/-- A program over the operations `Op` with loops. -/
inductive Script (Op : Type) (Rep : Op → Type) (ε : Type) : Type → Type 1 where
  | done {α : Type} (r : Except ε α) : Script Op Rep ε α
  | call {α : Type} (op : Op) (rest : Rep op → Script Op Rep ε α) : Script Op Rep ε α
  | loop {S R α : Type} (body : S → Script Op Rep ε (Turn S R)) (s : S)
      (rest : Except ε R → Script Op Rep ε α) : Script Op Rep ε α

namespace Script

-- ---------------------------------------------------------------------------
-- Composition
-- ---------------------------------------------------------------------------

/-- Go on with `k`, whatever the outcome. -/
def andThen : Script Op Rep ε α → (Except ε α → Script Op Rep ε β) → Script Op Rep ε β
  | .done r, k => k r
  | .call op rest, k => .call op fun a => (rest a).andThen k
  | .loop body s rest, k => .loop body s fun o => (rest o).andThen k

protected def bind (x : Script Op Rep ε α) (f : α → Script Op Rep ε β) : Script Op Rep ε β :=
  x.andThen fun
    | .ok a => f a
    | .error e => .done (.error e)

instance : Monad (Script Op Rep ε) where
  pure a := .done (.ok a)
  bind := Script.bind

/-- The script that performs none. -/
def ofExcept (r : Except ε α) : Script Op Rep ε α := .done r

/-- Run `x` until it does not fail, or fails for good. -/
def retry (transient : ε → Bool) (x : Script Op Rep ε α) : Script Op Rep ε α :=
  .loop (fun _ => x.andThen fun o => .done (match o with
    | .ok a => .ok (.done a)
    | .error e => if transient e then .ok (.again ()) else .error e)) () .done

/-- The scripts of a list of arguments, one after the other. -/
def each {A : Type} (f : A → Script Op Rep ε α) : List A → Script Op Rep ε (List α)
  | [] => .done (.ok [])
  | a :: as => (f a).bind fun r => (each f as).bind fun rs => .done (.ok (r :: rs))

/-- A program without loops. -/
def ofProg : Prog Op Rep ε α → Script Op Rep ε α
  | .done r => .done r
  | .call op rest => .call op fun a => ofProg (rest a)

theorem andThen_assoc {γ : Type} (x : Script Op Rep ε α) (f : Except ε α → Script Op Rep ε β)
    (g : Except ε β → Script Op Rep ε γ) :
    (x.andThen f).andThen g = x.andThen fun o => (f o).andThen g := by
  induction x with
  | done r => rfl
  | call op rest ih =>
    simp only [andThen, ih]
  | loop body s rest _ ih =>
    simp only [andThen, ih]

-- ---------------------------------------------------------------------------
-- Single steps
-- ---------------------------------------------------------------------------

/-- What follows a turn of the loop. -/
def afterTurn (body : S → Script Op Rep ε (Turn S R)) (rest : Except ε R → Script Op Rep ε α) :
    Except ε (Turn S R) → Script Op Rep ε α
  | .error e => rest (.error e)
  | .ok (.done r) => rest (.ok r)
  | .ok (.again s) => .loop body s rest

/-- One step: an operation, carried out by `handle`, or the start of a turn. -/
def next (handle : (op : Op) → Rep op × τ) :
    Script Op Rep ε α → Script Op Rep ε α × Option τ
  | .done r => (.done r, none)
  | .call op rest => (rest (handle op).1, some (handle op).2)
  | .loop body s rest => ((body s).andThen (afterTurn body rest), none)

def result : Script Op Rep ε α → Option (Except ε α)
  | .done r => some r
  | .call _ _ => none
  | .loop _ _ _ => none

theorem eq_done_of_result {x : Script Op Rep ε α} {r : Except ε α} (h : x.result = some r) :
    x = .done r := by
  cases x with
  | done r' =>
    obtain rfl : r' = r := Option.some.inj h
    rfl
  | call op rest => exact absurd h (by simp [result])
  | loop body s rest => exact absurd h (by simp [result])

theorem afterTurn_andThen (body : S → Script Op Rep ε (Turn S R))
    (rest : Except ε R → Script Op Rep ε α) (k : Except ε α → Script Op Rep ε β) :
    (fun o => (afterTurn body rest o).andThen k) =
      afterTurn body fun o => (rest o).andThen k := by
  funext o
  match o with
  | .error e => rfl
  | .ok (.done r) => rfl
  | .ok (.again s) => rfl

-- ---------------------------------------------------------------------------
-- All answers
-- ---------------------------------------------------------------------------

/-- For `n` steps, every operation is allowed, and where the script ends `Post`
holds. -/
def SafeFor (P : Rules Op Rep σ) (Post : Except ε α → σ → Prop) :
    Nat → Script Op Rep ε α → σ → Prop
  | 0, _, _ => True
  | _ + 1, .done r, w => Post r w
  | n + 1, .call op rest, w =>
    P.Pre op w ∧ ∀ a w', P.Step op w a w' → SafeFor P Post n (rest a) w'
  | n + 1, .loop body s rest, w => SafeFor P Post n ((body s).andThen (afterTurn body rest)) w

/-- At every point of every run every operation is allowed, and where a run ends
`Post` holds. -/
def Safe (P : Rules Op Rep σ) (Post : Except ε α → σ → Prop) (x : Script Op Rep ε α)
    (w : σ) : Prop := ∀ n, SafeFor P Post n x w

variable {P : Rules Op Rep σ} {Post Post' : Except ε α → σ → Prop}

theorem SafeFor.anti {m n : Nat} (hmn : m ≤ n) {x : Script Op Rep ε α} {w : σ}
    (h : SafeFor P Post n x w) : SafeFor P Post m x w := by
  induction m generalizing n x w with
  | zero => trivial
  | succ m ih =>
    obtain ⟨n, rfl⟩ : ∃ n', n = n' + 1 := ⟨n - 1, by omega⟩
    cases x with
    | done r => exact h
    | call op rest => exact ⟨h.1, fun a w' hStep => ih (by omega) (h.2 a w' hStep)⟩
    | loop body s rest => exact ih (by omega) (show SafeFor P Post n _ w from h)

/-- What follows need only be safe for as many steps as are left. -/
theorem SafeFor.andThen {Mid : Except ε α → σ → Prop} {Post : Except ε β → σ → Prop}
    {k : Except ε α → Script Op Rep ε β} {n : Nat}
    (hk : ∀ r w, Mid r w → SafeFor P Post n (k r) w) {m : Nat} (hmn : m ≤ n)
    {x : Script Op Rep ε α} {w : σ} (h : Safe P Mid x w) :
    SafeFor P Post m (x.andThen k) w := by
  induction m generalizing x w with
  | zero => trivial
  | succ m ih =>
    cases x with
    | done r => exact (hk r w (h 1)).anti hmn
    | call op rest =>
      refine ⟨(h 1).1, fun a w' hStep => ih (by omega) fun i => ?_⟩
      exact (h (i + 1)).2 a w' hStep
    | loop body s rest =>
      show SafeFor P Post m ((body s).andThen (afterTurn body fun o => (rest o).andThen k)) w
      rw [← afterTurn_andThen, ← andThen_assoc]
      exact ih (by omega) fun i => h (i + 1)

theorem Safe.andThen {Mid : Except ε α → σ → Prop} {Post : Except ε β → σ → Prop}
    {k : Except ε α → Script Op Rep ε β} {x : Script Op Rep ε α} {w : σ} (h : Safe P Mid x w)
    (hk : ∀ r w, Mid r w → Safe P Post (k r) w) : Safe P Post (x.andThen k) w :=
  fun n => SafeFor.andThen (fun r w hMid => hk r w hMid n) le_rfl h

theorem safe_done {r : Except ε α} {w : σ} (h : Post r w) : Safe P Post (.done r) w := by
  intro n
  cases n with
  | zero => trivial
  | succ n => exact h

theorem Safe.post {r : Except ε α} {w : σ} (h : Safe P Post (.done r) w) : Post r w := h 1

theorem safe_call {o : Op} {rest : Rep o → Script Op Rep ε α} {w : σ} (hPre : P.Pre o w)
    (h : ∀ a w', P.Step o w a w' → Safe P Post (rest a) w') : Safe P Post (.call o rest) w := by
  intro n
  cases n with
  | zero => trivial
  | succ n => exact ⟨hPre, fun a w' hStep => h a w' hStep n⟩

theorem Safe.mono (hPost : ∀ r w, Post r w → Post' r w) {x : Script Op Rep ε α} {w : σ}
    (h : Safe P Post x w) : Safe P Post' x w := by
  intro n
  induction n generalizing x w with
  | zero => trivial
  | succ n ih =>
    cases x with
    | done r => exact hPost r w (h 1)
    | call op rest =>
      exact ⟨(h 1).1, fun a w' hStep => ih fun i => (h (i + 1)).2 a w' hStep⟩
    | loop body s rest => exact ih fun i => h (i + 1)

/-- A sequence: what follows an outcome is safe after it. -/
theorem Safe.bind {Mid : Except ε α → σ → Prop} {Post : Except ε β → σ → Prop}
    {f : α → Script Op Rep ε β} {x : Script Op Rep ε α} {w : σ} (h : Safe P Mid x w)
    (hOk : ∀ a w, Mid (.ok a) w → Safe P Post (f a) w)
    (hError : ∀ e w, Mid (.error e) w → Post (.error e) w) : Safe P Post (x >>= f) w := by
  refine h.andThen fun r w hMid => ?_
  cases r with
  | ok a => exact hOk a w hMid
  | error e => exact safe_done (hError e w hMid)

/-- **Invariant rule.** Every turn from a state of the invariant keeps it, or leads
to what follows the loop. -/
theorem Safe.loop (Inv : S → σ → Prop) {body : S → Script Op Rep ε (Turn S R)}
    {rest : Except ε R → Script Op Rep ε α}
    (hTurn : ∀ s w, Inv s w →
      Safe P (Proc.AfterTurn Inv fun r w => Safe P Post (rest r) w) (body s) w)
    {s : S} {w : σ} (hInv : Inv s w) : Safe P Post (.loop body s rest) w := by
  intro n
  induction n generalizing s w with
  | zero => trivial
  | succ n ih =>
    refine SafeFor.andThen (n := n) ?_ le_rfl (hTurn s w hInv)
    intro o w' hAfter
    match o, hAfter with
    | .error e, hRest => exact hRest n
    | .ok (.done r), hRest => exact hRest n
    | .ok (.again s'), hInv' => exact ih hInv'

/-- A script that is tried again, with what every try keeps. -/
theorem Safe.retry (J : σ → Prop) {transient : ε → Bool} {x : Script Op Rep ε α}
    (hTry : ∀ w, J w → Safe P (fun r w' => (∃ e, r = .error e ∧ transient e = true ∧ J w') ∨
      (∀ e, r = .error e → transient e = false) ∧ Post r w') x w)
    {w : σ} (hJ : J w) : Safe P Post (x.retry transient) w := by
  refine Safe.loop (fun _ => J) (fun _ w hJ => ?_) hJ
  refine (hTry w hJ).andThen fun r w' hOutcome => safe_done ?_
  rcases hOutcome with ⟨e, rfl, hTransient, hJ'⟩ | ⟨hFinal, hPost⟩
  · simp only [hTransient, if_true]
    exact hJ'
  · cases r with
    | ok a => exact safe_done hPost
    | error e =>
      simp only [hFinal e rfl, Bool.false_eq_true, if_false]
      exact safe_done hPost

/-- Scripts one after the other, with an invariant: `Did` is what each of them does, and
`Run` what the list of them does. -/
theorem Safe.each {A : Type} {f : A → Script Op Rep ε α} {Did : A → σ → α → σ → Prop}
    {Run : List A → σ → List α → σ → Prop} (J : σ → Prop) {as : List A}
    (hNil : ∀ w, Run [] w [] w)
    (hCons : ∀ a as w r w₁ rs w₂, Did a w r w₁ → Run as w₁ rs w₂ → Run (a :: as) w (r :: rs) w₂)
    (hEach : ∀ a ∈ as, ∀ w, J w →
      Safe P (fun r w' => ∃ x, r = .ok x ∧ Did a w x w' ∧ J w') (f a) w)
    {w : σ} (hJ : J w) :
    Safe P (fun r w' => ∃ rs, r = .ok rs ∧ Run as w rs w' ∧ J w') (Script.each f as) w := by
  induction as generalizing w with
  | nil => exact safe_done ⟨[], rfl, hNil w, hJ⟩
  | cons a as ih =>
    refine (hEach a (by simp) w hJ).bind ?_ ?_
    · rintro r w₁ ⟨_, hr, hDid, hJ₁⟩
      obtain rfl := Except.ok.inj hr
      refine (ih (fun a ha => hEach a (by simp [ha])) hJ₁).bind ?_ ?_
      · rintro rs w₂ ⟨_, hrs, hRun, hJ₂⟩
        obtain rfl := Except.ok.inj hrs
        exact safe_done ⟨_, rfl, hCons a as w r w₁ rs w₂ hDid hRun, hJ₂⟩
      · rintro e w₂ ⟨_, hError, -⟩
        exact absurd hError (by simp)
    · rintro e w₁ ⟨_, hError, -⟩
      exact absurd hError (by simp)

/-- Scripts one after the other, each of which keeps the invariant. -/
theorem Safe.each_keeps {A : Type} {f : A → Script Op Rep ε α} (J : σ → Prop) {as : List A}
    (hEach : ∀ a ∈ as, ∀ w, J w → Safe P (fun _ w' => J w') (f a) w) {w : σ} (hJ : J w) :
    Safe P (fun _ w' => J w') (Script.each f as) w := by
  induction as generalizing w with
  | nil => exact safe_done hJ
  | cons a as ih =>
    refine (hEach a (by simp) w hJ).bind (fun r w₁ hJ₁ => ?_) fun _ _ hJ₁ => hJ₁
    refine (ih (fun a ha => hEach a (by simp [ha])) hJ₁).bind (fun rs w₂ hJ₂ => ?_)
      fun _ _ hJ₂ => hJ₂
    exact safe_done hJ₂

/-- What holds of all answers to a program holds of it as a script. -/
theorem safe_ofProg {x : Prog Op Rep ε α} {w : σ} (h : x.Holds P Post w) :
    Safe P Post (ofProg x) w := by
  induction x generalizing w with
  | done r => exact safe_done h
  | call op rest ih => exact safe_call h.1 fun a w' hStep => ih a (h.2 a w' hStep)

-- ---------------------------------------------------------------------------
-- Whole runs
-- ---------------------------------------------------------------------------

/-- A script as a procedure of the state that the operations act on. -/
def toProc (handle : (op : Op) → σ → Rep op × σ) :
    {α : Type} → Script Op Rep ε α → Proc σ ε α
  | _, .done r => Proc.ofExcept r
  | _, .call op rest =>
    Proc.ofStep (fun w => (.ok (handle op w).1, (handle op w).2)) >>= fun a =>
      (rest a).toProc handle
  | _, .loop body s rest =>
    (Proc.loop (fun s => (body s).toProc handle) s).attempt >>= fun o => (rest o).toProc handle

variable {handle : (op : Op) → σ → Rep op × σ}

theorem toProc_andThen (x : Script Op Rep ε α) (k : Except ε α → Script Op Rep ε β) :
    (x.andThen k).toProc handle =
      (x.toProc handle).attempt >>= fun o => (k o).toProc handle := by
  induction x with
  | done r => exact (Proc.ofExcept_attempt_bind r fun o => (k o).toProc handle).symm
  | call op rest ih =>
    simp only [andThen, toProc, ih]
    exact (Proc.ofStep_ok_bind_attempt_bind _ _ _).symm
  | loop body s rest _ ih =>
    simp only [andThen, toProc, ih]
    exact (Proc.attempt_bind_attempt_bind _ _ _).symm

theorem toProc_bind (x : Script Op Rep ε α) (f : α → Script Op Rep ε β) :
    (x >>= f).toProc handle = x.toProc handle >>= fun a => (f a).toProc handle := by
  refine (toProc_andThen x _).trans (Proc.ext fun n w => ?_)
  rw [Proc.run_attempt_bind, Proc.run_bind]
  rcases (x.toProc handle).run n w with _ | ⟨_ | a, w'⟩ <;> rfl

theorem toProc_each_cons {A : Type} (f : A → Script Op Rep ε α) (a : A) (as : List A) :
    (each f (a :: as)).toProc handle = (f a).toProc handle >>= fun r =>
      (each f as).toProc handle >>= fun rs => pure (r :: rs) := by
  refine (toProc_bind (f a) _).trans (congrArg _ (funext fun r => ?_))
  exact (toProc_bind (each f as) _).trans (congrArg _ (funext fun rs => rfl))

theorem toProc_loop (body : S → Script Op Rep ε (Turn S R)) (s : S) :
    (Script.loop body s .done).toProc handle = Proc.loop (fun s => (body s).toProc handle) s :=
  Proc.attempt_bind_ofExcept _

theorem toProc_retry (transient : ε → Bool) (x : Script Op Rep ε α) :
    (x.retry transient).toProc handle = (x.toProc handle).retry transient := by
  refine (toProc_loop _ ()).trans ?_
  congr 1
  funext _
  exact toProc_andThen x _

theorem toProc_ofProg (x : Prog Op Rep ε α) :
    (ofProg x).toProc handle = x.toProc handle := by
  induction x with
  | done r => rfl
  | call op rest ih =>
    simp only [ofProg, toProc, ih]
    rfl

/-! ## Runs in single steps -/

/-- One step, with the state that the operations act on. -/
def step (handle : (op : Op) → σ → Rep op × σ) (c : Script Op Rep ε α × σ) :
    Script Op Rep ε α × σ :=
  let o := c.1.next fun op => handle op c.2
  (o.1, o.2.getD c.2)

/-- Some number of steps. -/
def Steps (handle : (op : Op) → σ → Rep op × σ) :
    Script Op Rep ε α × σ → Script Op Rep ε α × σ → Prop :=
  Relation.ReflTransGen fun c d => d = step handle c

theorem step_returns {c : Script Op Rep ε α × σ} {r : Except ε α} {w' : σ}
    (h : ((step handle c).1.toProc handle).Returns (step handle c).2 r w') :
    (c.1.toProc handle).Returns c.2 r w' := by
  obtain ⟨x, w⟩ := c
  cases x with
  | done r' => exact h
  | call op rest =>
    exact Proc.returns_bind.mpr (.inr ⟨(handle op w).1, (handle op w).2,
      Proc.returns_ofStep.mpr rfl, h⟩)
  | loop body s rest =>
    have hTurn : (((body s).andThen (afterTurn body rest)).toProc handle).Returns w r w' := h
    rw [toProc_andThen, Proc.returns_attempt_bind] at hTurn
    obtain ⟨o, w₁, hBody, hAfter⟩ := hTurn
    -- the turn is the first of the loop, and what follows it the rest of the loop
    have hLoop : ∃ o' w₂, (Proc.loop (fun s => (body s).toProc handle) s).Returns w o' w₂ ∧
        ((rest o').toProc handle).Returns w₂ r w' := by
      match o, hAfter with
      | .error e, hRest => exact ⟨_, _, Proc.loop_returns.mpr ⟨_, _, hBody, rfl, rfl⟩, hRest⟩
      | .ok (.done a), hRest => exact ⟨_, _, Proc.loop_returns.mpr ⟨_, _, hBody, rfl, rfl⟩, hRest⟩
      | .ok (.again s'), hAgain =>
        obtain ⟨o', w₂, hMore, hRest⟩ := Proc.returns_attempt_bind.mp hAgain
        exact ⟨o', w₂, Proc.loop_returns.mpr ⟨_, _, hBody, hMore⟩, hRest⟩
    exact Proc.returns_attempt_bind.mpr hLoop

/-- **A run in single steps is a run of the procedure.** -/
theorem Steps.returns {c : Script Op Rep ε α × σ} {r : Except ε α} {w' : σ}
    (h : Steps handle c (.done r, w')) : (c.1.toProc handle).Returns c.2 r w' := by
  suffices key : ∀ d, Steps handle c d → ∀ r w', (d.1.toProc handle).Returns d.2 r w' →
      (c.1.toProc handle).Returns c.2 r w' from
    key _ h r w' (Proc.returns_ofExcept.mpr ⟨rfl, rfl⟩)
  intro d hSteps
  induction hSteps with
  | refl => exact fun r w' hr => hr
  | tail _ hStep ih =>
    subst hStep
    exact fun r w' hr => ih r w' (step_returns hr)

end Script

-- ---------------------------------------------------------------------------
-- Transfer loops
-- ---------------------------------------------------------------------------

namespace Transfer

open Script

/-- A turn of the transfer loop around a script. -/
def scriptTurn (t : Transfer S ε) (call : S → Script Op Rep ε Nat) (s : S) :
    Script Op Rep ε (Turn S Unit) :=
  if t.isEmpty s then .done (.ok (.done ()))
  else (call s).andThen fun a => .done (t.verdict s a)

/-- The transfer loop around a script. -/
def script (t : Transfer S ε) (call : S → Script Op Rep ε Nat) (s : S) :
    Script Op Rep ε Unit :=
  .loop (t.scriptTurn call) s .done

theorem script_toProc (t : Transfer S ε) (call : S → Script Op Rep ε Nat) (s : S)
    (handle : (op : Op) → σ → Rep op × σ) :
    (t.script call s).toProc handle = t.run (fun s => (call s).toProc handle) s := by
  refine (toProc_loop _ s).trans ?_
  rw [run]
  congr 1
  funext s
  rw [scriptTurn, turn]
  cases t.isEmpty s with
  | true => rfl
  | false => exact toProc_andThen (call s) _

/-- **A transfer loop moves a prefix of its job**, and is on the way at every point. -/
theorem script_safe {t : Transfer S ε} {call : S → Script Op Rep ε Nat} {P : Rules Op Rep σ}
    (At : Nat → S → Prop) (Track : Nat → σ → Prop) (Failed : Nat → ε → σ → Prop)
    {Post : Except ε Unit → σ → Prop}
    (hEmpty : ∀ k s w, At k s → t.isEmpty s = true → Track k w → Post (.ok ()) w)
    (hFailed : ∀ k s e w, At k s → Failed k e w → Post (.error e) w)
    (hCall : ∀ k s w, At k s → t.isEmpty s = false → Track k w →
      Safe P (t.Moves At Track Failed k s) (call s) w)
    {s : S} {w : σ} (hAt : At 0 s) (hTrack : Track 0 w) : Safe P Post (t.script call s) w := by
  refine Safe.loop (fun s w => ∃ k, At k s ∧ Track k w) ?_ ⟨0, hAt, hTrack⟩
  rintro s w ⟨k, hA, hT⟩
  rw [scriptTurn]
  cases hE : t.isEmpty s with
  | true =>
    rw [if_pos rfl]
    exact safe_done (safe_done (hEmpty k s w hA hE hT))
  | false =>
    rw [if_neg Bool.false_ne_true]
    refine (hCall k s w hA hE hT).andThen fun a w' hMoves => safe_done ?_
    have hNext := Moves.afterTurn hA hMoves
    match hv : t.verdict s a, hNext with
    | .ok (.again s'), hAgain => exact hAgain
    | .ok (.done u), _ => exact absurd hv verdict_ne_done
    | .error e, ⟨k', s', hA', hF⟩ => exact safe_done (hFailed k' s' e w' hA' hF)

end Transfer

end Effect
