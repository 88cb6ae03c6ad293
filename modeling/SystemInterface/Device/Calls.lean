import SystemInterface.Device.Device

/-!
# SystemInterface — single calls on the device

What one call of a vectored method does to the device, for every way of
picking the buffers: it fails and changes nothing, or it moves a prefix of the
bytes the list covers, and none only if the first buffer is empty (or the
content is at its end).

* `Vectored.offered_spec` — the buffers looked at cover a leading range of the
  list;
* `Device.give_spec` / `Device.take_spec` — the effect of a transfer;
* `FinitelyInterrupted.budget` — the transient failures still to come.
-/

namespace SystemInterface

open Effect

-- ---------------------------------------------------------------------------
-- The buffers a call looks at
-- ---------------------------------------------------------------------------

/-- The buffers that the vectored method hands on. -/
def Vectored.offered : Vectored → List Slice → List Slice
  | window, bufs => bufs
  | firstNonEmpty, bufs => [SystemInterface.firstNonEmpty bufs]
  | iovMax, bufs => bufs.take SystemInterface.iovMax

theorem Vectored.writeVectoredAt_eq (kind : Vectored) (script : Nat → Answer)
    (bufs : List IoSlice) (offset : Nat) :
    kind.writeVectoredAt script bufs offset =
      Device.writeVectoredAt script (kind.offered bufs) offset := by
  cases kind <;> rfl

theorem Vectored.writeVectored_eq (kind : Vectored) (script : Nat → Answer)
    (bufs : List IoSlice) :
    kind.writeVectored script bufs = Device.writeVectored script (kind.offered bufs) := by
  cases kind <;> rfl

theorem Vectored.readVectoredAt_eq (kind : Vectored) (script : Nat → Answer)
    (bufs : List IoSliceMut) (offset : Nat) :
    kind.readVectoredAt script bufs offset =
      Device.readVectoredAt script (kind.offered bufs) offset := by
  cases kind <;> rfl

theorem Vectored.readVectored_eq (kind : Vectored) (script : Nat → Answer)
    (bufs : List IoSliceMut) :
    kind.readVectored script bufs = Device.readVectored script (kind.offered bufs) := by
  cases kind <;> rfl

/-- Whatever the vectored method hands on, a window of at least one of its
buffers is a leading window of the list. -/
theorem Vectored.offered_spec (kind : Vectored) {bufs : List Slice} {k : Nat} (hk : k ≠ 0) :
    LeadingWindow bufs ((kind.offered bufs).take k) := by
  obtain ⟨k, rfl⟩ : ∃ k', k = k' + 1 := ⟨k - 1, by omega⟩
  cases kind with
  | window => exact leadingWindow_take hk
  | firstNonEmpty =>
    rw [Vectored.offered, List.take_succ_cons, List.take_nil]
    exact leadingWindow_firstNonEmpty bufs
  | iovMax =>
    rw [Vectored.offered, List.take_take]
    exact leadingWindow_take (by unfold SystemInterface.iovMax; omega)

-- ---------------------------------------------------------------------------
-- One call
-- ---------------------------------------------------------------------------

namespace Device

@[simp] theorem accepted_append (as bs : List (Except IoError Nat)) :
    accepted (as ++ bs) = accepted as + accepted bs := by
  simp [accepted]

@[simp] theorem accepted_ok (n : Nat) : accepted [.ok n] = n := by simp [accepted]

@[simp] theorem accepted_error (e : IoError) : accepted [.error e] = 0 := by simp [accepted]

/-- A call fails as the script says, or moves what `move` moves. -/
theorem call_wp {script : Nat → Answer} {move : Nat → Nat → Device → Nat × Device}
    {d : Device} {Post : Result Nat → Device → Prop}
    (hFail : ∀ e, script d.log.length = .fail e →
      Post (.error (.err e)) (d.record (.error e)))
    (hMove : ∀ window count, script d.log.length = .moved window count →
      Post (.ok (move window count d).1)
        ((move window count d).2.record (.ok (move window count d).1))) :
    (call script move).wp d Post := by
  cases h : script d.log.length with
  | fail e =>
    exact ⟨.error (.err e), d.record (.error e), by simp [call, h], hFail e h⟩
  | moved window count =>
    exact ⟨_, _, by simp [call, h], hMove window count h⟩

/-- A write puts the first `n` bytes of the list where `place` puts them. -/
theorem give_spec (kind : Vectored) (place : List UInt8 → List UInt8 → List UInt8)
    (bufs : List IoSlice) (window count : Nat) (d : Device) :
    ∃ n, n ≤ totalLen bufs ∧ (n = 0 → HeadEmpty bufs) ∧
      give place (kind.offered bufs) window count d =
        (n, { d with content := place d.content ((d.mem.gather bufs).take n) }) := by
  have hWin : LeadingWindow bufs ((kind.offered bufs).take (max window 1)) :=
    kind.offered_spec (by omega)
  set win := (kind.offered bufs).take (max window 1) with hwin
  set n := shortCount count (d.mem.gather win).length with hn
  have hnLe : n ≤ totalLen win := by
    rw [← d.mem.length_gather win]
    exact shortCount_le ..
  refine ⟨n, Nat.le_trans hnLe hWin.le, fun h0 => ?_, ?_⟩
  · rw [hn, shortCount_eq_zero, Memory.length_gather] at h0
    exact hWin.headEmpty h0
  · have hData : (d.mem.gather win).take n = (d.mem.gather bufs).take n := by
      rw [hWin.gather, List.take_take, Nat.min_eq_left hnLe]
    simp only [give, ← hwin, ← hn, hData]

/-- A read stores the next `n` bytes of the content in the first bytes of the
list, none only if there are none or the first buffer is empty. -/
theorem take_spec (kind : Vectored) (offset : Nat) (bufs : List IoSliceMut)
    (window count : Nat) (d : Device) :
    ∃ n, n ≤ totalLen bufs ∧ n ≤ (d.content.drop offset).length ∧
      (n = 0 → HeadEmpty bufs ∨ d.content.drop offset = []) ∧
      take offset (kind.offered bufs) window count d =
        (n, { d with mem := d.mem.scatter bufs ((d.content.drop offset).take n) }) := by
  have hWin : LeadingWindow bufs ((kind.offered bufs).take (max window 1)) :=
    kind.offered_spec (by omega)
  set win := (kind.offered bufs).take (max window 1) with hwin
  set data := d.content.drop offset with hdata
  set n := shortCount count (min (totalLen win) data.length) with hn
  have hnLe : n ≤ min (totalLen win) data.length := shortCount_le ..
  have hnWin : n ≤ totalLen win := Nat.le_trans hnLe (Nat.min_le_left ..)
  refine ⟨n, Nat.le_trans hnWin hWin.le, Nat.le_trans hnLe (Nat.min_le_right ..), ?_, ?_⟩
  · intro h0
    rw [hn, shortCount_eq_zero] at h0
    by_cases hE : totalLen win = 0
    · exact Or.inl (hWin.headEmpty hE)
    · right
      apply List.eq_nil_of_length_eq_zero
      omega
  · have hStore : d.mem.scatter win (data.take n) = d.mem.scatter bufs (data.take n) := by
      unfold Memory.scatter
      rw [hWin.cells_eq]
      exact store_take_addrs _ _ (by rw [List.length_take]; omega)
    simp only [take, ← hwin, ← hdata, ← hn, hStore]

end Device

-- ---------------------------------------------------------------------------
-- Transient failures
-- ---------------------------------------------------------------------------

theorem Fault.isInterrupted_err {e : IoError} :
    (Fault.err e).isInterrupted = true ↔ e.kind = .interrupted := by
  simp [Fault.isInterrupted]

/-- A bound on the transient failures still to come, used up by each. -/
theorem FinitelyInterrupted.budget {script : Nat → Answer} (h : FinitelyInterrupted script) :
    ∃ N, ∀ i e, script i = .fail e → e.kind = .interrupted → i < N := by
  obtain ⟨N, hN⟩ := Set.Finite.bddAbove h
  exact ⟨N + 1, fun i e hi he => Nat.lt_succ_of_le (hN ⟨e, hi, he⟩)⟩

end SystemInterface
