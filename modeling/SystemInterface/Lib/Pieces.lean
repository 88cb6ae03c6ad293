import Mathlib.Data.List.Infix

/-!
# Lists put together from what changes meanwhile

A sequence of versions of a list, and a list that was read from it front to back, a
piece from each version.

Main results:

* `Pieced.nil`, `Pieced.wait`, `Pieced.later` — versions that nothing was read from;
* `Pieced.length_le` — a list that was read is not longer than what there was;
* `Pieced.isPrefix` — what is read from versions that agree is a prefix of what
  they hold.
-/

namespace Effect

variable {α : Type}

/-- The list was read from the first `n` versions, from the place `start` on: each
version adds a piece, which may be empty, from where the last one ended. -/
inductive Pieced (versions : Nat → List α) (start : Nat) : Nat → List α → Prop where
  | start : Pieced versions start 0 []
  | piece {n : Nat} {xs ys : List α} : Pieced versions start n xs →
      ys <+: (versions n).drop (start + xs.length) → Pieced versions start (n + 1) (xs ++ ys)

namespace Pieced

variable {versions : Nat → List α} {start n : Nat} {xs : List α}

/-- Nothing comes from the next version. -/
theorem wait (h : Pieced versions start n xs) : Pieced versions start (n + 1) xs := by
  have hNext := h.piece (List.nil_prefix (l := (versions n).drop (start + xs.length)))
  rwa [List.append_nil] at hNext

/-- Nothing was read yet. -/
theorem nil (n : Nat) : Pieced versions start n [] := by
  induction n with
  | zero => exact .start
  | succ n ih => exact ih.wait

/-- Nothing comes from the first `m` versions. -/
theorem later (m : Nat) (h : Pieced (fun j => versions (m + j)) start n xs) :
    Pieced versions start (m + n) xs := by
  induction h with
  | start => exact nil m
  | piece _ hPrefix ih => exact ih.piece hPrefix

/-- The list ends where the versions do. -/
theorem length_le {bound : Nat} (h : Pieced versions start n xs)
    (hBound : ∀ j, (versions j).length ≤ bound) : xs = [] ∨ start + xs.length ≤ bound := by
  induction h with
  | start => exact Or.inl rfl
  | @piece n xs ys h hPrefix ih =>
    have hPiece := hPrefix.length_le
    rw [List.length_drop] at hPiece
    have hVersion := hBound n
    by_cases hNil : ys = []
    · rw [hNil, List.append_nil]
      exact ih
    · have hPos : 0 < ys.length := List.length_pos_iff.mpr hNil
      rw [List.length_append]
      omega

/-- **Versions that agree** are read as if there were one. -/
theorem isPrefix {version : List α} (h : Pieced versions start n xs)
    (hSame : ∀ j, j < n → versions j = version) : xs <+: version.drop start := by
  induction h with
  | start => exact List.nil_prefix
  | @piece n xs ys h hPrefix ih =>
    obtain ⟨rest, hRest⟩ := ih fun j hj => hSame j (Nat.lt_succ_of_lt hj)
    rw [hSame n (Nat.lt_succ_self n), ← List.drop_drop, ← hRest,
      List.drop_left' rfl] at hPrefix
    rw [← hRest]
    exact (List.prefix_append_right_inj xs).mpr hPrefix

end Pieced

end Effect
