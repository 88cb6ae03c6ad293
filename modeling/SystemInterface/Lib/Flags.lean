import Mathlib.Data.Bool.Basic

/-!
# Words of flags

A word of `w` bits as a set of flags, with the operations of `bitflags`. All that
is asked of a word is whether it contains a single flag; inserting and removing
are the set operations on these answers.
-/

namespace Effect

/-- A set of flags, each of them a bit. -/
abbrev Flags (w : Nat) := BitVec w

namespace Flags

variable {w : Nat}

/-- The set of one flag. -/
def single (i : Fin w) : Flags w := BitVec.twoPow w i

def contains (x y : Flags w) : Bool := x &&& y == y

def insert (x y : Flags w) : Flags w := x ||| y

def remove (x y : Flags w) : Flags w := x &&& ~~~y

def set (x y : Flags w) (value : Bool) : Flags w := if value then x.insert y else x.remove y

def intersects (x y : Flags w) : Bool := x &&& y != 0

theorem contains_single (x : Flags w) (i : Fin w) : x.contains (single i) = x.getLsbD i := by
  rw [Bool.eq_iff_iff, contains, beq_iff_eq]
  constructor
  · intro h
    have hBit := congrArg (fun y : BitVec w => y.getLsbD i) h
    simpa [single, BitVec.getLsbD_twoPow] using hBit
  · intro h
    apply BitVec.eq_of_getLsbD_eq
    intro j hj
    by_cases hij : (i : Nat) = j
    · simp [single, ← hij, h]
    · simp [single, BitVec.getLsbD_twoPow, hij]

theorem contains_single_single (i j : Fin w) : (single i).contains (single j) = decide (i = j) := by
  rw [contains_single, single, BitVec.getLsbD_twoPow]
  simp [Fin.ext_iff]

theorem insert_contains (x y : Flags w) (i : Fin w) :
    (x.insert y).contains (single i) = (x.contains (single i) || y.contains (single i)) := by
  simp only [contains_single, insert, BitVec.getLsbD_or]

theorem remove_contains (x y : Flags w) (i : Fin w) :
    (x.remove y).contains (single i) = (x.contains (single i) && !y.contains (single i)) := by
  simp only [contains_single, remove, BitVec.getLsbD_and, BitVec.getLsbD_not, i.isLt, decide_true,
    Bool.true_and]

theorem insert_if_contains (x y : Flags w) (b : Bool) (i : Fin w) :
    (if b then x.insert y else x).contains (single i) =
      (x.contains (single i) || (b && y.contains (single i))) := by
  cases b with
  | true => rw [if_pos rfl, insert_contains, Bool.true_and]
  | false => rw [if_neg (by decide), Bool.false_and, Bool.or_false]

/-- A set contains another one flag by flag. -/
theorem contains_iff (x y : Flags w) :
    x.contains y = true ↔ ∀ i, y.getLsbD i = true → x.getLsbD i = true := by
  rw [contains, beq_iff_eq]
  constructor
  · intro h i hi
    rw [← h, BitVec.getLsbD_and, Bool.and_eq_true] at hi
    exact hi.1
  · intro h
    apply BitVec.eq_of_getLsbD_eq
    intro i _
    rw [BitVec.getLsbD_and]
    cases hi : y.getLsbD i with
    | true => rw [h i hi]; rfl
    | false => exact Bool.and_false _

/-- The flags of a mask taken from one word, the others from another one. -/
theorem masked_contains (x y mask : Flags w) (i : Fin w) :
    ((x &&& ~~~mask) ||| (y &&& mask)).contains (single i) =
      if mask.contains (single i) then y.contains (single i) else x.contains (single i) := by
  simp only [contains_single, BitVec.getLsbD_or, BitVec.getLsbD_and, BitVec.getLsbD_not, i.isLt,
    decide_true, Bool.true_and]
  cases mask.getLsbD i <;> simp

/-- Flags outside of the mask are those of the first word. -/
theorem masked_contains_of_disjoint (x y : Flags w) {mask z : Flags w} (h : z &&& mask = 0) :
    Flags.contains ((x &&& ~~~mask) ||| (y &&& mask)) z = x.contains z := by
  have hBit : ∀ i : Nat, z.getLsbD i = true →
      ((x &&& ~~~mask) ||| (y &&& mask)).getLsbD i = x.getLsbD i := by
    intro i hi
    have hMask : mask.getLsbD i = false := by
      have hZero := congrArg (fun v : BitVec w => v.getLsbD i) h
      simpa [hi] using hZero
    have hWidth : i < w := BitVec.lt_of_getLsbD hi
    rw [BitVec.getLsbD_or, BitVec.getLsbD_and, BitVec.getLsbD_and, BitVec.getLsbD_not, hMask,
      decide_eq_true hWidth]
    simp
  rw [Bool.eq_iff_iff, contains_iff, contains_iff]
  constructor
  · exact fun hAll i hi => (hBit i hi).symm.trans (hAll i hi)
  · exact fun hAll i hi => (hBit i hi).trans (hAll i hi)

theorem and_single (x : Flags w) (i : Fin w) :
    x &&& single i = if x.contains (single i) then single i else 0 := by
  rw [contains_single]
  exact BitVec.and_twoPow ..

theorem single_ne_zero (i : Fin w) : single i ≠ 0 := by
  intro hZero
  have hBit := congrArg (fun y : BitVec w => y.getLsbD i) hZero
  simp [single] at hBit

theorem and_single_ne_zero (x : Flags w) (i : Fin w) :
    (x &&& single i != 0) = x.contains (single i) := by
  rw [and_single]
  cases x.contains (single i) with
  | true => exact bne_iff_ne.mpr (single_ne_zero i)
  | false => exact bne_self_eq_false _

end Flags

end Effect
