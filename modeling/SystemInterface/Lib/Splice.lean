import Mathlib.Data.List.Basic

/-!
# Overwriting a range of a list

`splice fill xs off d` is the list `xs` with `d` written over it from position
`off` on. A gap between the end of `xs` and `off` is filled with `fill`;
writing nothing changes nothing, wherever it is aimed. This is what a
positional write does to the content of a file.

Main results:

* `getElem?_splice` — the new content, position by position;
* `splice_append` — writing two pieces back to back is writing their
  concatenation;
* `splice_length_self` — writing at the end is appending.
-/

namespace Effect

variable {α : Type}

/-- Write `d` over `xs` from position `off` on. -/
def splice (fill : α) (xs : List α) (off : Nat) (d : List α) : List α :=
  if d.isEmpty then xs
  else xs.take off ++ List.replicate (off - xs.length) fill ++ d ++ xs.drop (off + d.length)

@[simp] theorem splice_nil (fill : α) (xs : List α) (off : Nat) :
    splice fill xs off [] = xs := rfl

theorem splice_of_ne_nil {fill : α} {xs d : List α} {off : Nat} (hd : d ≠ []) :
    splice fill xs off d =
      xs.take off ++ List.replicate (off - xs.length) fill ++ d ++ xs.drop (off + d.length) := by
  unfold splice
  rw [if_neg (by simpa using hd)]

theorem length_splice {fill : α} {xs d : List α} {off : Nat} (hd : d ≠ []) :
    (splice fill xs off d).length = max xs.length (off + d.length) := by
  rw [splice_of_ne_nil hd]
  simp only [List.length_append, List.length_take, List.length_replicate, List.length_drop]
  omega

/-- The content after a write, position by position: the gap, the bytes
written, and everything else as it was. -/
theorem getElem?_splice {fill : α} {xs d : List α} {off : Nat} (hd : d ≠ []) (i : Nat) :
    (splice fill xs off d)[i]? =
      if i < off then (if i < xs.length then xs[i]? else some fill)
      else if i < off + d.length then d[i - off]?
      else xs[i]? := by
  rw [splice_of_ne_nil hd]
  have hpre : (xs.take off ++ List.replicate (off - xs.length) fill).length = off := by
    simp only [List.length_append, List.length_take, List.length_replicate]
    omega
  by_cases hlt : i < off
  · rw [if_pos hlt, List.append_assoc, List.getElem?_append_left (by omega)]
    by_cases hc : i < xs.length
    · rw [if_pos hc, List.getElem?_append_left (by rw [List.length_take]; omega),
        List.getElem?_take_of_lt hlt]
    · rw [if_neg hc, List.getElem?_append_right (by rw [List.length_take]; omega),
        List.getElem?_replicate, if_pos (by rw [List.length_take]; omega)]
  · rw [if_neg hlt, List.append_assoc, List.getElem?_append_right (by omega), hpre]
    by_cases hd' : i < off + d.length
    · rw [if_pos hd', List.getElem?_append_left (by omega)]
    · rw [if_neg hd', List.getElem?_append_right (by omega), List.getElem?_drop]
      congr 1
      omega

/-- Bytes outside the written range and inside the old content are untouched. -/
theorem getElem?_splice_of_outside {fill : α} {xs d : List α} {off i : Nat}
    (hi : i < off ∨ off + d.length ≤ i) (hc : i < xs.length) :
    (splice fill xs off d)[i]? = xs[i]? := by
  by_cases hd : d = []
  · subst hd
    rfl
  rw [getElem?_splice hd]
  rcases hi with hlt | hge
  · rw [if_pos hlt, if_pos hc]
  · rw [if_neg (by omega), if_neg (by omega)]

/-- Writing `a` and then `b` right behind it is writing `a ++ b`. -/
theorem splice_append (fill : α) (xs : List α) (off : Nat) (a b : List α) :
    splice fill xs off (a ++ b) = splice fill (splice fill xs off a) (off + a.length) b := by
  by_cases ha : a = []
  · subst ha
    simp
  by_cases hb : b = []
  · subst hb
    simp
  apply List.ext_getElem?
  intro i
  have hab : a ++ b ≠ [] := by simp [ha]
  rw [getElem?_splice hab, getElem?_splice hb, getElem?_splice ha, length_splice ha,
    List.length_append]
  -- compare the two sides range by range: gap, `a`, `b`, behind
  by_cases h₁ : i < off
  · rw [if_pos h₁, if_pos (by omega : i < off + a.length),
      if_pos (by omega : i < max xs.length (off + a.length)), if_pos h₁]
  · by_cases h₂ : i < off + a.length
    · rw [if_neg h₁, if_pos (by omega), if_pos h₂, if_pos (by omega), if_neg h₁, if_pos h₂,
        List.getElem?_append_left (by omega)]
    · rw [if_neg h₁, if_neg h₂]
      by_cases h₃ : i < off + (a.length + b.length)
      · rw [if_pos h₃, if_pos (by omega), List.getElem?_append_right (by omega)]
        congr 1
        omega
      · rw [if_neg h₃, if_neg (by omega), if_neg h₁, if_neg h₂]

/-- Writing at the end is appending. -/
theorem splice_length_self (fill : α) (xs d : List α) :
    splice fill xs xs.length d = xs ++ d := by
  by_cases hd : d = []
  · subst hd
    simp
  rw [splice_of_ne_nil hd]
  simp

/-- What lies behind the range stays. -/
theorem drop_splice (fill : α) (xs : List α) (off : Nat) (d : List α) :
    (splice fill xs off d).drop (off + d.length) = xs.drop (off + d.length) := by
  by_cases hd : d = []
  · subst hd
    rfl
  apply List.ext_getElem?
  intro i
  rw [List.getElem?_drop, List.getElem?_drop, getElem?_splice hd, if_neg (by omega),
    if_neg (by omega)]

/-- Writing back what is there changes nothing. -/
theorem splice_take_drop (fill : α) (xs : List α) (off n : Nat) :
    splice fill xs off ((xs.drop off).take n) = xs := by
  by_cases hd : (xs.drop off).take n = []
  · rw [hd, splice_nil]
  apply List.ext_getElem?
  intro i
  have hOff : off < xs.length := by
    by_contra hge
    exact hd (by rw [List.drop_of_length_le (Nat.not_lt.mp hge), List.take_nil])
  rw [getElem?_splice hd, List.length_take, List.length_drop]
  split
  · rw [if_pos (by omega)]
  · split
    · rw [List.getElem?_take_of_lt (by omega), List.getElem?_drop]
      congr 1
      omega
    · rfl

/-- After the first `k` bytes of `d`, the next `n` of them. -/
theorem splice_take_add (fill : α) (xs : List α) (off : Nat) {d : List α} {k : Nat} (n : Nat)
    (hk : k ≤ d.length) :
    splice fill (splice fill xs off (d.take k)) (off + k) ((d.drop k).take n) =
      splice fill xs off (d.take (k + n)) := by
  have hLen : (d.take k).length = k := by
    rw [List.length_take]
    omega
  rw [List.take_add, splice_append, hLen]

end Effect
