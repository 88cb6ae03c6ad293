import Mathlib.Data.List.Infix

/-!
# Streams that are read and peeked at

A `Tap` is a stream of items. A call asks for at most `n` of them: a read takes
the items that it delivers off the stream, a peek only shows them. `none` is a
call that blocks.

`Tracks` says what a tap holds, as a list: a read takes a prefix of the list
off, and a peek shows a prefix and leaves the list, whatever it does to the
state. What a call without room or at the end of the list delivers is nothing;
any other call delivers something.

Main results:

* `Tracks.run` — the reads of a run take a prefix off what the tap holds;
* `Tracks.runAmid` — the invariant stays when others change the state in between;
* `Tracks.readsToEnd_iff` — reading to the end gets there, and delivers exactly
  what the tap holds.
-/

namespace Effect

variable {α S : Type}

/-- A stream of items, by what its calls deliver and leave. -/
structure Tap (α S : Type) where
  read : S → Nat → Option (List α × S)
  peek : S → Nat → Option (List α × S)

namespace Tap

/-- A call with room for `n` items. -/
inductive Call where
  | read (n : Nat)
  | peek (n : Nat)
  deriving DecidableEq, Repr

def Call.isRead : Call → Bool
  | read _ => true
  | peek _ => false

/-- Make the calls one after the other; what the reads deliver is collected. -/
def run (t : Tap α S) : List Call → S → Option (List α × S)
  | [], s => some ([], s)
  | .read n :: calls, s =>
    match t.read s n with
    | none => none
    | some (items, s) => (run t calls s).map fun (rest, s) => (items ++ rest, s)
  | .peek n :: calls, s =>
    match t.peek s n with
    | none => none
    | some (_, s) => run t calls s

/-- A call, or a change that others make to what the tap runs from. -/
inductive Happening (E : Type) where
  | call (c : Call)
  | other (e : E)
  deriving DecidableEq, Repr

/-- Make the calls while others make their changes, in this order. -/
def runAmid {E : Type} (t : Tap α S) (act : E → S → S) :
    List (Happening E) → S → Option (List α × S)
  | [], s => some ([], s)
  | .other e :: events, s => runAmid t act events (act e s)
  | .call c :: events, s =>
    match t.run [c] s with
    | none => none
    | some (items, s) => (runAmid t act events s).map fun (rest, s) => (items ++ rest, s)

/-- Reads that have room deliver these items, and in the end none. -/
inductive ReadsToEnd (t : Tap α S) : S → List α → Prop
  | done {s s' : S} {n : Nat} (hn : 0 < n) (hRead : t.read s n = some ([], s')) :
    ReadsToEnd t s []
  | more {s s' : S} {n : Nat} {items rest : List α} (hn : 0 < n) (hne : items ≠ [])
    (hRead : t.read s n = some (items, s')) (hRest : ReadsToEnd t s' rest) :
    ReadsToEnd t s (items ++ rest)

/-- In the states of `Inv` the tap holds the items `held`. -/
structure Tracks (t : Tap α S) (Inv : S → Prop) (held : S → List α) : Prop where
  read : ∀ s n, Inv s → ∃ items s', t.read s n = some (items, s') ∧ Inv s' ∧
    held s = items ++ held s' ∧ items.length ≤ n ∧ (items = [] → n = 0 ∨ held s = [])
  peek : ∀ s n, Inv s → ∃ items s', t.peek s n = some (items, s') ∧ Inv s' ∧
    held s' = held s ∧ items <+: held s ∧ items.length ≤ n ∧ (items = [] → n = 0 ∨ held s = [])

namespace Tracks

variable {t : Tap α S} {Inv Inv' : S → Prop} {held : S → List α} {s : S}

/-- A stronger invariant, which the calls keep as well. -/
theorem restrict (h : t.Tracks Inv held) (hSub : ∀ s, Inv' s → Inv s)
    (hRead : ∀ s n items s', Inv' s → t.read s n = some (items, s') → Inv' s')
    (hPeek : ∀ s n items s', Inv' s → t.peek s n = some (items, s') → Inv' s') :
    t.Tracks Inv' held where
  read s n hInv := by
    obtain ⟨items, s', hEq, -, hHeld⟩ := h.read s n (hSub s hInv)
    exact ⟨items, s', hEq, hRead s n items s' hInv hEq, hHeld⟩
  peek s n hInv := by
    obtain ⟨items, s', hEq, -, hHeld⟩ := h.peek s n (hSub s hInv)
    exact ⟨items, s', hEq, hPeek s n items s' hInv hEq, hHeld⟩

/-- **A run takes off a prefix**, which its reads have delivered. -/
theorem run (h : t.Tracks Inv held) (calls : List Call) (hInv : Inv s) :
    ∃ items s', t.run calls s = some (items, s') ∧ Inv s' ∧ held s = items ++ held s' := by
  induction calls generalizing s with
  | nil => exact ⟨[], s, rfl, hInv, rfl⟩
  | cons call calls ih =>
    cases call with
    | read n =>
      obtain ⟨items, s₁, hRead, hInv₁, hHeld, -⟩ := h.read s n hInv
      obtain ⟨rest, s', hRun, hInv', hRest⟩ := ih hInv₁
      refine ⟨items ++ rest, s', ?_, hInv', ?_⟩
      · rw [Tap.run, hRead]
        simp only [hRun, Option.map_some]
      · rw [hHeld, hRest, List.append_assoc]
    | peek n =>
      obtain ⟨items, s₁, hPeek, hInv₁, hHeld, -⟩ := h.peek s n hInv
      obtain ⟨rest, s', hRun, hInv', hRest⟩ := ih hInv₁
      refine ⟨rest, s', ?_, hInv', ?_⟩
      · rw [Tap.run, hPeek]
        exact hRun
      · rw [← hHeld, hRest]

/-- What a run has delivered, with what the tap holds after it. -/
theorem held_eq (h : t.Tracks Inv held) {calls : List Call} {items : List α} {s' : S}
    (hInv : Inv s) (hRun : t.run calls s = some (items, s')) :
    Inv s' ∧ held s = items ++ held s' := by
  obtain ⟨items', s'', hRun', hInv', hHeld⟩ := h.run calls hInv
  obtain ⟨rfl, rfl⟩ := Prod.mk.inj (Option.some.inj (hRun.symm.trans hRun'))
  exact ⟨hInv', hHeld⟩

/-- **No call blocks** and the invariant stays, if the changes of others keep it. -/
theorem runAmid {E : Type} {act : E → S → S} (h : t.Tracks Inv held)
    (hAct : ∀ e s, Inv s → Inv (act e s)) (events : List (Happening E)) (hInv : Inv s) :
    ∃ items s', t.runAmid act events s = some (items, s') ∧ Inv s' := by
  induction events generalizing s with
  | nil => exact ⟨[], s, rfl, hInv⟩
  | cons event events ih =>
    cases event with
    | other e => exact ih (hAct e s hInv)
    | call c =>
      obtain ⟨items, s₁, hRun, hInv₁, -⟩ := h.run [c] hInv
      obtain ⟨rest, s', hRest, hInv'⟩ := ih hInv₁
      refine ⟨items ++ rest, s', ?_, hInv'⟩
      rw [Tap.runAmid, hRun]
      simp only [hRest, Option.map_some]

/-- A read that has room gets to the end, or leaves less. -/
theorem readsToEnd (h : t.Tracks Inv held) (hInv : Inv s) : t.ReadsToEnd s (held s) := by
  induction hLen : (held s).length using Nat.strong_induction_on generalizing s with
  | _ len ih =>
  obtain ⟨items, s', hRead, hInv', hHeld, -, hEnd⟩ := h.read s 1 hInv
  by_cases hne : items = []
  · subst hne
    rw [(hEnd rfl).resolve_left Nat.one_ne_zero]
    exact .done Nat.one_pos hRead
  · rw [hHeld]
    refine .more Nat.one_pos hne hRead (ih (held s').length ?_ hInv' rfl)
    have hPos := List.length_pos_iff.mpr hne
    rw [← hLen, hHeld, List.length_append]
    omega

/-- **Reading to the end delivers exactly what the tap holds.** -/
theorem readsToEnd_iff (h : t.Tracks Inv held) (hInv : Inv s) {items : List α} :
    t.ReadsToEnd s items ↔ items = held s := by
  constructor
  · intro hReads
    induction hReads with
    | @done s s' n hn hRead =>
      obtain ⟨items, s'', hRead', -, -, -, hEnd⟩ := h.read s n hInv
      obtain ⟨rfl, -⟩ := Prod.mk.inj (Option.some.inj (hRead.symm.trans hRead'))
      exact ((hEnd rfl).resolve_left (Nat.pos_iff_ne_zero.mp hn)).symm
    | @more s s' n items rest hn hne hRead _ ih =>
      obtain ⟨items', s'', hRead', hInv'', hHeld, -⟩ := h.read s n hInv
      obtain ⟨rfl, rfl⟩ := Prod.mk.inj (Option.some.inj (hRead.symm.trans hRead'))
      rw [hHeld, ih hInv'']
  · rintro rfl
    exact h.readsToEnd hInv

end Tracks

end Tap

end Effect
