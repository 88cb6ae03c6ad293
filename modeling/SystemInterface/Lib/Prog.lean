import SystemInterface.Lib.Proc

/-!
# Programs over a set of operations

`Prog Op Rep ε α` is a finite program that performs operations one at a time,
`op : Op` being answered by a value of `Rep op`, and returns an `α` or fails.
It can be run whole, by a handler for the operations (`exec`), or step by step,
with the steps of other programs in between.

A `Rules` says when an operation may be performed and what it may do to a
state. `Holds` is the weakest precondition over all the answers the rules
allow; it serves both ways of running a program.

Main results:

* `holds_op`, `Holds.mono` — composing such facts;
* `Holds.exec` — what holds of all answers holds of a run by a handler, seen
  through an abstraction of the handler's state.
-/

namespace Effect

variable {Op : Type} {Rep : Op → Type} {ε α β σ τ : Type}

/-- A program over the operations `Op`. -/
inductive Prog (Op : Type) (Rep : Op → Type) (ε α : Type) where
  | done (r : Except ε α)
  | call (op : Op) (next : Rep op → Prog Op Rep ε α)

/-- When the operations may be performed, and what they may do. -/
structure Rules (Op : Type) (Rep : Op → Type) (σ : Type) where
  Pre : Op → σ → Prop
  Step : (op : Op) → σ → Rep op → σ → Prop

namespace Prog

protected def bind : Prog Op Rep ε α → (α → Prog Op Rep ε β) → Prog Op Rep ε β
  | .done (.error e), _ => .done (.error e)
  | .done (.ok a), f => f a
  | .call op next, f => .call op fun r => (next r).bind f

instance : Monad (Prog Op Rep ε) where
  pure a := .done (.ok a)
  bind := Prog.bind

/-- The program that performs one operation. -/
def op (o : Op) : Prog Op Rep ε (Rep o) := .call o fun r => .done (.ok r)

/-- The program that performs none. -/
def ofExcept (r : Except ε α) : Prog Op Rep ε α := .done r

/-- Run a program, every operation being carried out by `handle`. -/
def exec (handle : (op : Op) → σ → Rep op × σ) : Prog Op Rep ε α → σ → Except ε α × σ
  | .done r, w => (r, w)
  | .call op next, w => exec handle (next (handle op w).1) (handle op w).2

/-- A program as a procedure of the handler's state. -/
def toProc (handle : (op : Op) → σ → Rep op × σ) (x : Prog Op Rep ε α) : Proc σ ε α :=
  .ofStep (exec handle x)

theorem exec_bind (handle : (op : Op) → σ → Rep op × σ) (x : Prog Op Rep ε α)
    (f : α → Prog Op Rep ε β) (w : σ) :
    exec handle (x >>= f) w =
      match exec handle x w with
      | (.error e, w') => (.error e, w')
      | (.ok a, w') => exec handle (f a) w' := by
  induction x generalizing w with
  | done r =>
    cases r with
    | error e => rfl
    | ok a => rfl
  | call op next ih => exact ih _ _

/-- A run that starts with an operation. -/
theorem exec_op_bind {handle : (op : Op) → σ → Rep op × σ} {o : Op} {rep : Rep o} {w w₁ : σ}
    (h : handle o w = (rep, w₁)) (f : Rep o → Prog Op Rep ε α) :
    exec handle (op o >>= f) w = exec handle (f rep) w₁ := by
  show exec handle (f (handle o w).1) (handle o w).2 = _
  rw [h]

/-! ## All answers -/

/-- Every operation the program performs from state `w` is allowed, and
wherever the program ends `Post` holds. -/
def Holds (P : Rules Op Rep σ) (Post : Except ε α → σ → Prop) : Prog Op Rep ε α → σ → Prop
  | .done r, w => Post r w
  | .call op next, w =>
    P.Pre op w ∧ ∀ rep w', P.Step op w rep w' → Holds P Post (next rep) w'

variable {P : Rules Op Rep σ}

theorem Holds.mono {Post Post' : Except ε α → σ → Prop} (hPost : ∀ r w, Post r w → Post' r w)
    {x : Prog Op Rep ε α} {w : σ} (h : Holds P Post x w) : Holds P Post' x w := by
  induction x generalizing w with
  | done r => exact hPost r w h
  | call op next ih => exact ⟨h.1, fun rep w' hStep => ih rep (h.2 rep w' hStep)⟩

/-- One operation, and the rest of the program after every answer. -/
theorem holds_op {Post : Except ε β → σ → Prop} {o : Op} {f : Rep o → Prog Op Rep ε β} {w : σ}
    (hPre : P.Pre o w) (h : ∀ rep w', P.Step o w rep w' → Holds P Post (f rep) w') :
    Holds P Post (op o >>= f) w := ⟨hPre, h⟩

/-- One program, and another one after it. -/
theorem Holds.bind {Post : Except ε β → σ → Prop} {x : Prog Op Rep ε α}
    {f : α → Prog Op Rep ε β} {w : σ} (h : Holds P (fun r w' => match r with
      | .ok a => Holds P Post (f a) w'
      | .error e => Post (.error e) w') x w) : Holds P Post (x >>= f) w := by
  induction x generalizing w with
  | done r =>
    cases r with
    | error e => exact h
    | ok a => exact h
  | call op next ih => exact ⟨h.1, fun rep w' hStep => ih rep (h.2 rep w' hStep)⟩

/-- What holds of a part of the state holds of the state, with a property that allowed
operations keep. -/
theorem Holds.along {Q : Rules Op Rep τ} (part : τ → σ) (J : τ → Prop)
    (hPre : ∀ op v, J v → P.Pre op (part v) → Q.Pre op v)
    (hStep : ∀ op v rep v', J v → P.Pre op (part v) → Q.Step op v rep v' →
      P.Step op (part v) rep (part v') ∧ J v')
    {Post : Except ε α → σ → Prop} {x : Prog Op Rep ε α} {v : τ} (h : Holds P Post x (part v))
    (hJ : J v) : Holds Q (fun r v' => Post r (part v') ∧ J v') x v := by
  induction x generalizing v with
  | done r => exact ⟨h, hJ⟩
  | call op next ih =>
    refine ⟨hPre op v hJ h.1, fun rep v' hNext => ?_⟩
    obtain ⟨hPart, hJ'⟩ := hStep op v rep v' hJ h.1 hNext
    exact ih rep (h.2 rep (part v') hPart) hJ'

/-- A run by a handler whose every step is one of the rules, seen through the
abstraction `abs`, ends in the postcondition; `J` is a property of the
handler's state that allowed operations keep. -/
theorem Holds.exec {handle : (op : Op) → τ → Rep op × τ} (abs : τ → σ) (J : τ → Prop)
    (hHandle : ∀ op v, J v → P.Pre op (abs v) →
      P.Step op (abs v) (handle op v).1 (abs (handle op v).2) ∧ J (handle op v).2)
    {Post : Except ε α → σ → Prop} {x : Prog Op Rep ε α} {v : τ}
    (h : Holds P Post x (abs v)) (hJ : J v) :
    Post (x.exec handle v).1 (abs (x.exec handle v).2) ∧ J (x.exec handle v).2 := by
  induction x generalizing v with
  | done r => exact ⟨h, hJ⟩
  | call op next ih =>
    obtain ⟨hStep, hJ'⟩ := hHandle op v hJ h.1
    exact ih _ (h.2 _ _ hStep) hJ'

end Prog

end Effect
