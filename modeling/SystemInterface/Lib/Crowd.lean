import Mathlib.Logic.Function.Basic
import SystemInterface.Lib.Script

/-!
# Many clients of one object

Any number of clients, each with a script of its own, perform operations on an
object that they share. They take turns, one operation at a time and in any order.
An operation acts on what the client has of its own and on what is shared.

What one client relies on is a statement about its own part, `Safe` by the rules
for its operations; what ties the parts together is an invariant of the whole. If,
moreover, what a client sees of the object is left alone by the operations of the
others, its run is one that it could have made alone.

Main results:

* `Guarded.reaches` — the invariants hold at every point of every schedule;
* `Isolated.returns` — a client that cannot see the others returns what it returns
  alone.
-/

namespace Effect

variable {I : Type} {Op : Type} {Rep : Op → Type} {ε L T σ α : Type}

-- ---------------------------------------------------------------------------
-- The system
-- ---------------------------------------------------------------------------

/-- What the operations of each client do to its own part and to the shared one. -/
abbrev Acts (I Op : Type) (Rep : Op → Type) (L T : Type) : Type :=
  I → (op : Op) → L × T → Rep op × (L × T)

/-- The clients, each with its own part and with what is left of its script, and the
object that they share. -/
structure Crowd (I Op : Type) (Rep : Op → Type) (ε L T α : Type) where
  shared : T
  own : I → L
  progress : I → Script Op Rep ε α

namespace Crowd

variable [DecidableEq I] (act : Acts I Op Rep L T)

/-- Client `i` takes a step. -/
def next (w : Crowd I Op Rep ε L T α) (i : I) : Crowd I Op Rep ε L T α :=
  let o := (w.progress i).next fun op => act i op (w.own i, w.shared)
  let parts := o.2.getD (w.own i, w.shared)
  ⟨parts.2, Function.update w.own i parts.1, Function.update w.progress i o.1⟩

variable {act}

theorem next_done {w : Crowd I Op Rep ε L T α} {i : I} {r : Except ε α}
    (h : w.progress i = .done r) : w.next act i = w := by
  have hProgress : Function.update w.progress i (.done r) = w.progress := by
    rw [← h, Function.update_eq_self]
  simp only [next, h, Script.next, Option.getD_none, Function.update_eq_self, hProgress]

theorem next_loop {w : Crowd I Op Rep ε L T α} {i : I} {S R : Type}
    {body : S → Script Op Rep ε (Turn S R)} {s : S} {rest : Except ε R → Script Op Rep ε α}
    (h : w.progress i = .loop body s rest) :
    w.next act i = ⟨w.shared, w.own, Function.update w.progress i
      ((body s).andThen (Script.afterTurn body rest))⟩ := by
  simp only [next, h, Script.next, Option.getD_none, Function.update_eq_self]

theorem next_call {w : Crowd I Op Rep ε L T α} {i : I} {op : Op}
    {rest : Rep op → Script Op Rep ε α} (h : w.progress i = .call op rest) :
    w.next act i =
      ⟨(act i op (w.own i, w.shared)).2.2,
        Function.update w.own i (act i op (w.own i, w.shared)).2.1,
        Function.update w.progress i (rest (act i op (w.own i, w.shared)).1)⟩ := by
  simp only [next, h, Script.next, Option.getD_some]

variable (act)

/-- Any schedule of steps leads from the first state to the second. -/
def Reaches : Crowd I Op Rep ε L T α → Crowd I Op Rep ε L T α → Prop :=
  Relation.ReflTransGen fun w w' => ∃ i, w' = w.next act i

/-- The state after a schedule of steps. -/
def run (w : Crowd I Op Rep ε L T α) (schedule : List I) : Crowd I Op Rep ε L T α :=
  schedule.foldl (fun w i => w.next act i) w

theorem reaches_run (schedule : List I) (w : Crowd I Op Rep ε L T α) :
    Reaches act w (w.run act schedule) := by
  induction schedule generalizing w with
  | nil => exact .refl
  | cons i schedule ih => exact .head ⟨i, rfl⟩ (ih _)

end Crowd

-- ---------------------------------------------------------------------------
-- Invariants
-- ---------------------------------------------------------------------------

/-- The operations do what the rules of each client say, and keep the invariant `G`
of the whole. -/
structure Guarded [DecidableEq I] (act : Acts I Op Rep L T) (P : I → Rules Op Rep L)
    (G : (I → L) → T → Prop) : Prop where
  step : ∀ i op own t, G own t → (P i).Pre op (own i) →
    (P i).Step op (own i) (act i op (own i, t)).1 (act i op (own i, t)).2.1
  keeps : ∀ i op own t, G own t → (P i).Pre op (own i) →
    G (Function.update own i (act i op (own i, t)).2.1) (act i op (own i, t)).2.2

/-- The whole is as `G` says, and the script of every client is safe. -/
structure Crowd.Inv (P : I → Rules Op Rep L) (G : (I → L) → T → Prop)
    (Post : I → Except ε α → L → Prop) (w : Crowd I Op Rep ε L T α) : Prop where
  whole : G w.own w.shared
  client : ∀ i, Script.Safe (P i) (Post i) (w.progress i) (w.own i)

namespace Guarded

variable [DecidableEq I] {act : Acts I Op Rep L T} {P : I → Rules Op Rep L}
  {G : (I → L) → T → Prop} {Post : I → Except ε α → L → Prop}
  {w₀ w : Crowd I Op Rep ε L T α}

/-- **Every step keeps the invariants.** -/
theorem next (h : Guarded act P G) (hInv : w.Inv P G Post) (i : I) :
    (w.next act i).Inv P G Post := by
  have hClient := hInv.client i
  cases hProgress : w.progress i with
  | done r =>
    rw [Crowd.next_done hProgress]
    exact hInv
  | loop body s rest =>
    rw [hProgress] at hClient
    rw [Crowd.next_loop hProgress]
    refine ⟨hInv.whole, fun j => ?_⟩
    by_cases hj : j = i
    · subst hj
      simp only [Function.update_self]
      exact fun n => hClient (n + 1)
    · simp only [Function.update_of_ne hj]
      exact hInv.client j
  | call op rest =>
    rw [hProgress] at hClient
    have hPre : (P i).Pre op (w.own i) := (hClient 1).1
    have hStep := h.step i op w.own w.shared hInv.whole hPre
    rw [Crowd.next_call hProgress]
    refine ⟨h.keeps i op w.own w.shared hInv.whole hPre, fun j => ?_⟩
    by_cases hj : j = i
    · subst hj
      simp only [Function.update_self]
      exact fun n => (hClient (n + 1)).2 _ _ hStep
    · simp only [Function.update_of_ne hj]
      exact hInv.client j

/-- **Every schedule keeps the invariants.** -/
theorem reaches (h : Guarded act P G) (hReaches : Crowd.Reaches act w₀ w)
    (hInv : w₀.Inv P G Post) : w.Inv P G Post := by
  induction hReaches with
  | refl => exact hInv
  | tail _ hStep ih =>
    obtain ⟨i, rfl⟩ := hStep
    exact h.next ih i

end Guarded

-- ---------------------------------------------------------------------------
-- Isolation
-- ---------------------------------------------------------------------------

/-- What a client sees of its own part and of the shared one, `view`, is a state on
which it could act alone: its own operations are those of `solo`, and those of the
others do not show. -/
structure Isolated [DecidableEq I] (act : Acts I Op Rep L T) (P : I → Rules Op Rep L)
    (G : (I → L) → T → Prop) (view : I → L → T → σ)
    (solo : I → (op : Op) → σ → Rep op × σ) : Prop extends Guarded act P G where
  own : ∀ i op own t, G own t → (P i).Pre op (own i) →
    solo i op (view i (own i) t) =
      ((act i op (own i, t)).1, view i (act i op (own i, t)).2.1 (act i op (own i, t)).2.2)
  other : ∀ i j op own t, j ≠ i → G own t → (P j).Pre op (own j) →
    view i (own i) (act j op (own j, t)).2.2 = view i (own i) t

namespace Isolated

variable [DecidableEq I] {act : Acts I Op Rep L T} {P : I → Rules Op Rep L}
  {G : (I → L) → T → Prop} {Post : I → Except ε α → L → Prop} {view : I → L → T → σ}
  {solo : I → (op : Op) → σ → Rep op × σ} {w₀ w : Crowd I Op Rep ε L T α}

/-- A client, with what it sees. -/
def seen (view : I → L → T → σ) (i : I) (w : Crowd I Op Rep ε L T α) :
    Script Op Rep ε α × σ :=
  (w.progress i, view i (w.own i) w.shared)

/-- A step of the client is its step alone. -/
theorem seen_self (h : Isolated act P G view solo) (hInv : w.Inv P G Post) (i : I) :
    seen view i (w.next act i) = Script.step (solo i) (seen view i w) := by
  have hClient := hInv.client i
  unfold seen Script.step
  cases hProgress : w.progress i with
  | done r =>
    rw [Crowd.next_done hProgress, hProgress]
    rfl
  | loop body s rest =>
    rw [Crowd.next_loop hProgress]
    simp only [Function.update_self]
    rfl
  | call op rest =>
    rw [hProgress] at hClient
    rw [Crowd.next_call hProgress]
    simp only [Function.update_self, Script.next, Option.getD_some,
      h.own i op w.own w.shared hInv.whole (hClient 1).1]

/-- A step of another client does not show. -/
theorem seen_other (h : Isolated act P G view solo) (hInv : w.Inv P G Post) {i j : I}
    (hj : j ≠ i) : seen view i (w.next act j) = seen view i w := by
  have hClient := hInv.client j
  unfold seen
  cases hProgress : w.progress j with
  | done r => rw [Crowd.next_done hProgress]
  | loop body s rest =>
    rw [Crowd.next_loop hProgress]
    simp only [Function.update_of_ne hj.symm]
  | call op rest =>
    rw [hProgress] at hClient
    rw [Crowd.next_call hProgress]
    simp only [Function.update_of_ne hj.symm,
      h.other i j op w.own w.shared hj hInv.whole (hClient 1).1]

/-- What a client does among others it does alone. -/
theorem steps (h : Isolated act P G view solo) (hReaches : Crowd.Reaches act w₀ w)
    (hInv : w₀.Inv P G Post) (i : I) :
    Script.Steps (solo i) (seen view i w₀) (seen view i w) := by
  induction hReaches with
  | refl => exact .refl
  | tail hBefore hStep ih =>
    obtain ⟨j, rfl⟩ := hStep
    have hMid := h.toGuarded.reaches hBefore hInv
    by_cases hj : j = i
    · subst hj
      exact ih.tail (h.seen_self hMid j)
    · rw [h.seen_other hMid hj]
      exact ih

/-- **A client that cannot see the others returns what it returns alone.** -/
theorem returns (h : Isolated act P G view solo) (hReaches : Crowd.Reaches act w₀ w)
    (hInv : w₀.Inv P G Post) {i : I} {r : Except ε α}
    (hResult : (w.progress i).result = some r) :
    ((w₀.progress i).toProc (solo i)).Returns (view i (w₀.own i) w₀.shared) r
      (view i (w.own i) w.shared) := by
  have hSteps := h.steps hReaches hInv i
  unfold seen at hSteps
  rw [Script.eq_done_of_result hResult] at hSteps
  exact hSteps.returns

end Isolated

-- ---------------------------------------------------------------------------
-- Histories
-- ---------------------------------------------------------------------------

/-- What client `i` has entered into a history. -/
def entries [DecidableEq I] {E : Type} (history : List (I × E)) (i : I) : List E :=
  (history.filter fun x => x.1 = i).map Prod.snd

theorem mem_of_entries [DecidableEq I] {E : Type} {history : List (I × E)} {i : I} {e : E}
    (h : e ∈ entries history i) : e ∈ history.map Prod.snd := by
  obtain ⟨x, hx, rfl⟩ := List.mem_map.mp h
  exact List.mem_map.mpr ⟨x, (List.mem_filter.mp hx).1, rfl⟩

theorem entries_concat [DecidableEq I] {E : Type} (history : List (I × E)) (i j : I) (e : E) :
    entries (history ++ [(i, e)]) j =
      if i = j then entries history j ++ [e] else entries history j := by
  unfold entries
  rw [List.filter_append, List.map_append]
  by_cases h : i = j
  · rw [if_pos h]
    simp [h]
  · rw [if_neg h]
    simp [h]

end Effect
