import Mathlib.Data.List.Nodup
import Mathlib.Logic.Function.Basic

/-!
# Storing a list at a list of addresses

A memory is a function from addresses to values. `store m as ds` writes the
values `ds` at the addresses `as`, in order, as far as both go; reading the
addresses back is `as.map m`. Scattering bytes over a list of buffers is a
store at the concatenation of their addresses.

Main results:

* `store_of_not_mem` — the frame: other addresses keep their value;
* `map_store` — at distinct addresses, what was stored is read back, followed
  by what was there;
* `store_append` — storing two pieces one after the other is storing their
  concatenation.
-/

namespace Effect

variable {A α : Type} [DecidableEq A]

/-- Write the values `ds` at the addresses `as`, as far as both go. -/
def store (m : A → α) : List A → List α → A → α
  | a :: as, d :: ds => store (Function.update m a d) as ds
  | _, _ => m

@[simp] theorem store_nil_left (m : A → α) (ds : List α) : store m [] ds = m := by
  cases ds <;> rfl

@[simp] theorem store_nil_right (m : A → α) (as : List A) : store m as [] = m := by
  cases as <;> rfl

@[simp] theorem store_cons (m : A → α) (a : A) (as : List A) (d : α) (ds : List α) :
    store m (a :: as) (d :: ds) = store (Function.update m a d) as ds := rfl

theorem store_of_not_mem {m : A → α} {as : List A} {ds : List α} {x : A} (hx : x ∉ as) :
    store m as ds x = m x := by
  induction as generalizing m ds with
  | nil => rw [store_nil_left]
  | cons a as ih =>
    rw [List.mem_cons, not_or] at hx
    cases ds with
    | nil => rw [store_nil_right]
    | cons d ds => rw [store_cons, ih hx.2, Function.update_of_ne hx.1]

/-- At distinct addresses the stored values are read back, in front of what
was there. -/
theorem map_store {m : A → α} {as : List A} {ds : List α} (hNodup : as.Nodup)
    (hLen : ds.length ≤ as.length) :
    as.map (store m as ds) = ds ++ (as.map m).drop ds.length := by
  induction as generalizing m ds with
  | nil =>
    have hds : ds = [] := List.eq_nil_of_length_eq_zero (by simpa using hLen)
    subst hds
    rfl
  | cons a as ih =>
    rw [List.nodup_cons] at hNodup
    cases ds with
    | nil => rfl
    | cons d ds =>
      have hLen' : ds.length ≤ as.length := by simpa using hLen
      have hHead : store (Function.update m a d) as ds a = d := by
        rw [store_of_not_mem hNodup.1, Function.update_self]
      have hRest : as.map (Function.update m a d) = as.map m := by
        apply List.map_congr_left
        intro b hb
        have hba : b ≠ a := fun h => hNodup.1 (h ▸ hb)
        exact Function.update_of_ne hba ..
      rw [store_cons, List.map_cons, hHead, ih hNodup.2 hLen', hRest]
      rfl

/-- As many values as addresses are read back. -/
theorem map_store_self {m : A → α} {as : List A} {ds : List α} (hNodup : as.Nodup)
    (hLen : ds.length = as.length) : as.map (store m as ds) = ds := by
  have hRest : (as.map m).drop ds.length = [] := by
    rw [hLen, ← List.length_map m, List.drop_length]
  rw [map_store hNodup (Nat.le_of_eq hLen), hRest, List.append_nil]

theorem store_append (m : A → α) (as : List A) (ds es : List α) :
    store m as (ds ++ es) = store (store m as ds) (as.drop ds.length) es := by
  induction ds generalizing m as with
  | nil => simp
  | cons d ds ih =>
    cases as with
    | nil => simp
    | cons a as =>
      rw [List.cons_append, store_cons, ih]
      rfl

/-- After the first `k` values of `ds`, the next `n` of them. -/
theorem store_take_add (m : A → α) (as : List A) {ds : List α} {k : Nat} (n : Nat)
    (hk : k ≤ ds.length) :
    store (store m as (ds.take k)) (as.drop k) ((ds.drop k).take n) =
      store m as (ds.take (k + n)) := by
  have hLen : (ds.take k).length = k := by
    rw [List.length_take]
    omega
  rw [List.take_add, store_append, hLen]

/-- Only as many addresses as there are values are written. -/
theorem store_take_addrs (m : A → α) (as : List A) {ds : List α} {k : Nat}
    (hk : ds.length ≤ k) : store m (as.take k) ds = store m as ds := by
  induction ds generalizing m as k with
  | nil => simp
  | cons d ds ih =>
    cases as with
    | nil => simp
    | cons a as =>
      obtain ⟨k, rfl⟩ : ∃ k', k = k' + 1 := ⟨k - 1, by simp at hk; omega⟩
      rw [List.take_succ_cons, store_cons, store_cons, ih _ _ (by simpa using hk)]

end Effect
