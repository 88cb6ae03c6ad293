import SystemInterface.Readers.Peek

/-!
# SystemInterface — exact reports

Over byte slices, `BufReader`, `Take` and `Box` report what is left to read, to
the byte. Reads move bytes from the slice into the buffers and down the limits;
the reports add the buffers and cut at the limits in the same order.

The addition is over bytes that are stored, whether a limit hides them or not, so
that it fits in 64 bits as soon as all the stored bytes do.

Main results:

* `Reader.read_stored`, `Reader.fillBuf_stored` — no byte is made or lost;
* `num_ready_bytes_exact` — the report in every state that reads and peeks reach.
-/

namespace SystemInterface

open Effect

namespace Reader

variable {F : Type}

/-- The readers over byte slices. -/
def InMemory : Reader F → Prop
  | slice _ => True
  | box r => r.InMemory
  | bufReader inner _ capacity => inner.InMemory ∧ 0 < capacity
  | take inner _ => inner.InMemory
  | _ => False

/-- The number of bytes in the slice and in the buffers. -/
def stored : Reader F → Nat
  | slice bytes => bytes.length
  | box r => r.stored
  | bufReader inner buffer _ => buffer.length + inner.stored
  | take inner _ => inner.stored
  | _ => 0

theorem InMemory.ends {r : Reader F} (h : r.InMemory) : r.Ends := by
  induction r with
  | slice => trivial
  | box r ih => exact ih h
  | bufReader inner buffer capacity ih => exact ⟨ih h.1, h.2⟩
  | take inner limit ih => exact ih h
  | _ => exact h.elim

theorem InMemory.bufRead {r : Reader F} (h : r.InMemory) : r.BufRead := by
  induction r with
  | slice => trivial
  | box r ih => exact ih h
  | bufReader => trivial
  | take inner limit ih => exact ih h
  | _ => exact h.elim

-- ---------------------------------------------------------------------------
-- Stored bytes
-- ---------------------------------------------------------------------------

section

variable [Read F]

/-- What is taken from a list and what is left of it. -/
theorem length_take_add_drop {α : Type} (l : List α) (n : Nat) :
    l.length = (l.take n).length + (l.drop n).length := by
  rw [← List.length_append, List.take_append_drop]

/-- A read takes out of the store what it delivers. -/
theorem read_stored {r r' : Reader F} {n : Nat} {bytes : List UInt8} (h : r.InMemory)
    (hRead : r.read n = some (bytes, r')) :
    r'.InMemory ∧ r.stored = bytes.length + r'.stored := by
  induction r generalizing n bytes r' with
  | slice all =>
    obtain ⟨rfl, rfl⟩ := Prod.mk.inj (Option.some.inj hRead)
    exact ⟨trivial, length_take_add_drop all n⟩
  | box r ih =>
    rw [read] at hRead
    obtain ⟨⟨_, r₁⟩, hInner, hEq⟩ := Option.map_eq_some_iff.mp hRead
    obtain ⟨rfl, rfl⟩ := Prod.mk.inj hEq
    obtain ⟨hBuilt, hStored⟩ := ih h hInner
    exact ⟨hBuilt, hStored⟩
  | bufReader inner buffer capacity ih =>
    rw [read] at hRead
    split at hRead
    · next hNil =>
      obtain rfl := List.isEmpty_iff.mp hNil
      split at hRead
      · obtain ⟨⟨_, r₁⟩, hInner, hEq⟩ := Option.map_eq_some_iff.mp hRead
        obtain ⟨rfl, rfl⟩ := Prod.mk.inj hEq
        obtain ⟨hBuilt, hStored⟩ := ih h.1 hInner
        refine ⟨⟨hBuilt, h.2⟩, ?_⟩
        simp only [stored, List.length_nil]
        omega
      · obtain ⟨⟨filled, r₁⟩, hInner, hEq⟩ := Option.map_eq_some_iff.mp hRead
        obtain ⟨rfl, rfl⟩ := Prod.mk.inj hEq
        obtain ⟨hBuilt, hStored⟩ := ih h.1 hInner
        refine ⟨⟨hBuilt, h.2⟩, ?_⟩
        have hFilled := length_take_add_drop filled n
        simp only [stored, List.length_nil]
        omega
    · obtain ⟨rfl, rfl⟩ := Prod.mk.inj (Option.some.inj hRead)
      refine ⟨h, ?_⟩
      have hFilled := length_take_add_drop buffer n
      simp only [stored]
      omega
  | take inner limit ih =>
    rw [read] at hRead
    split at hRead
    · obtain ⟨rfl, rfl⟩ := Prod.mk.inj (Option.some.inj hRead)
      exact ⟨h, (Nat.zero_add _).symm⟩
    · obtain ⟨⟨_, r₁⟩, hInner, hEq⟩ := Option.map_eq_some_iff.mp hRead
      obtain ⟨rfl, rfl⟩ := Prod.mk.inj hEq
      obtain ⟨hBuilt, hStored⟩ := ih h hInner
      exact ⟨hBuilt, hStored⟩
  | _ => exact h.elim

/-- `fill_buf` moves bytes inside the store only. -/
theorem fillBuf_stored {r r' : Reader F} {buffer : List UInt8} (h : r.InMemory)
    (hFill : r.fillBuf = some (buffer, r')) : r'.InMemory ∧ r'.stored = r.stored := by
  induction r generalizing buffer r' with
  | slice all =>
    obtain ⟨-, rfl⟩ := Prod.mk.inj (Option.some.inj hFill)
    exact ⟨trivial, rfl⟩
  | box r ih =>
    rw [fillBuf] at hFill
    obtain ⟨⟨_, r₁⟩, hInner, hEq⟩ := Option.map_eq_some_iff.mp hFill
    obtain ⟨-, rfl⟩ := Prod.mk.inj hEq
    obtain ⟨hBuilt, hStored⟩ := ih h hInner
    exact ⟨hBuilt, hStored⟩
  | bufReader inner held capacity ih =>
    rw [fillBuf] at hFill
    split at hFill
    · next hNil =>
      obtain rfl := List.isEmpty_iff.mp hNil
      obtain ⟨⟨_, r₁⟩, hInner, hEq⟩ := Option.map_eq_some_iff.mp hFill
      obtain ⟨-, rfl⟩ := Prod.mk.inj hEq
      obtain ⟨hBuilt, hStored⟩ := read_stored h.1 hInner
      refine ⟨⟨hBuilt, h.2⟩, ?_⟩
      simp only [stored, List.length_nil]
      omega
    · obtain ⟨-, rfl⟩ := Prod.mk.inj (Option.some.inj hFill)
      exact ⟨h, rfl⟩
  | take inner limit ih =>
    rw [fillBuf] at hFill
    split at hFill
    · obtain ⟨-, rfl⟩ := Prod.mk.inj (Option.some.inj hFill)
      exact ⟨h, rfl⟩
    · obtain ⟨⟨_, r₁⟩, hInner, hEq⟩ := Option.map_eq_some_iff.mp hFill
      obtain ⟨-, rfl⟩ := Prod.mk.inj hEq
      obtain ⟨hBuilt, hStored⟩ := ih h hInner
      exact ⟨hBuilt, hStored⟩
  | _ => exact h.elim

theorem peek_stored {r r' : Reader F} {n : Nat} {bytes : List UInt8} (h : r.InMemory)
    (hPeek : r.peek n = some (bytes, r')) : r'.InMemory ∧ r'.stored = r.stored := by
  rw [peek_eq h.bufRead, peekFromBufread] at hPeek
  obtain ⟨⟨buffer, r₁⟩, hFill, hEq⟩ := Option.map_eq_some_iff.mp hPeek
  obtain ⟨-, rfl⟩ := Prod.mk.inj hEq
  exact fillBuf_stored h hFill

end

-- ---------------------------------------------------------------------------
-- Reports
-- ---------------------------------------------------------------------------

variable [ByteSource F]

theorem remaining_le_stored {r : Reader F} (h : r.InMemory) : r.remaining.length ≤ r.stored := by
  induction r with
  | slice bytes => exact Nat.le_refl bytes.length
  | box r ih => exact ih h
  | bufReader inner buffer capacity ih =>
    have hInner := ih h.1
    simp only [remaining, stored, List.length_append]
    omega
  | take inner limit ih =>
    have hInner := ih h
    simp only [remaining, stored, List.length_take]
    omega
  | _ => exact h.elim

/-- **The report counts the remaining bytes.** -/
theorem numReadyBytes_remaining [ReadReady F] (p : Profile) {r : Reader F} (h : r.InMemory)
    (hStored : r.stored < 2 ^ 64) : r.numReadyBytes p = .ok r.remaining.length := by
  induction r with
  | slice bytes => rfl
  | box r ih => exact ih h hStored
  | bufReader inner buffer capacity ih =>
    have hSum : buffer.length + inner.stored < 2 ^ 64 := hStored
    have hInner := remaining_le_stored h.1
    rw [numReadyBytes, ih h.1 (by omega)]
    show p.add buffer.length inner.remaining.length = _
    rw [Profile.add_of_lt p (by omega), remaining, List.length_append]
  | take inner limit ih =>
    rw [numReadyBytes, ih h hStored, remaining, List.length_take]
    rfl
  | _ => exact h.elim

/-- The readers over byte slices that hold less than 2^64 bytes. -/
def Bounded (r : Reader F) : Prop := r.InMemory ∧ r.stored < 2 ^ 64

theorem bounded_tracks : (tap (F := F)).Tracks Bounded remaining := by
  apply tracks.restrict
  · exact fun r h => ⟨h.1.ends, h.1.bufRead⟩
  · intro r n bytes r' h hRead
    obtain ⟨hBuilt, hStored⟩ := read_stored h.1 hRead
    have hLt := h.2
    exact ⟨hBuilt, by omega⟩
  · intro r n bytes r' h hPeek
    obtain ⟨hBuilt, hStored⟩ := peek_stored h.1 hPeek
    exact ⟨hBuilt, hStored ▸ h.2⟩

end Reader

open Reader Tap

/-- **Exact reports.** After any run of reads and peeks of a reader over a byte
slice, `num_ready_bytes` is the number of bytes that reading on to the end
delivers: a read lowers it by the bytes it delivers, a peek leaves it. -/
theorem num_ready_bytes_exact {F : Type} [ByteSource F] [ReadReady F] (p : Profile) {r : Reader F}
    (hBuilt : r.InMemory) (hStored : r.stored < 2 ^ 64) (calls : List Call) :
    ∃ bytes r', tap.run calls r = some (bytes, r') ∧
      (∃ rest, tap.ReadsToEnd r' rest) ∧
      (∀ rest, tap.ReadsToEnd r' rest → r'.numReadyBytes p = .ok rest.length) ∧
      (∀ n delivered r'', r'.read n = some (delivered, r'') →
        ∃ left, r'.numReadyBytes p = .ok (delivered.length + left) ∧
          r''.numReadyBytes p = .ok left) ∧
      (∀ n peeked r'', r'.peek n = some (peeked, r'') →
        r''.numReadyBytes p = r'.numReadyBytes p) := by
  obtain ⟨bytes, r', hRun, hInv, -⟩ := bounded_tracks.run calls ⟨hBuilt, hStored⟩
  have hReport := numReadyBytes_remaining p hInv.1 hInv.2
  refine ⟨bytes, r', hRun, ⟨r'.remaining, bounded_tracks.readsToEnd hInv⟩, ?_, ?_, ?_⟩
  · intro rest hRest
    rw [(bounded_tracks.readsToEnd_iff hInv).mp hRest]
    exact hReport
  · intro n delivered r'' hRead
    obtain ⟨delivered', r₁, hRead', hInv', hHeld, -⟩ := bounded_tracks.read r' n hInv
    obtain ⟨rfl, rfl⟩ := Prod.mk.inj (Option.some.inj (hRead.symm.trans hRead'))
    refine ⟨r''.remaining.length, ?_, numReadyBytes_remaining p hInv'.1 hInv'.2⟩
    rw [hReport, hHeld, List.length_append]
  · intro n peeked r'' hPeek
    obtain ⟨peeked', r₁, hPeek', hInv', hSame, -⟩ := bounded_tracks.peek r' n hInv
    obtain ⟨rfl, rfl⟩ := Prod.mk.inj (Option.some.inj (hPeek.symm.trans hPeek'))
    rw [hReport, numReadyBytes_remaining p hInv'.1 hInv'.2, hSame]

instance : ReadReady ClosedStream := ⟨fun p f => ReadReady.numReadyBytes p f.1⟩

/-- A limit inside a buffer, and a buffer inside the limit. -/
def bufferedLimit : Reader ClosedStream :=
  .bufReader (.take (.box (.bufReader (.slice [3, 4, 5, 6]) [2] 3)) 4) [1] 2

theorem num_ready_bytes_exact_nested :
    ∃ bytes r', tap.run [.read 2, .peek 5, .read 1] bufferedLimit = some (bytes, r') ∧
      ∃ rest, tap.ReadsToEnd r' rest := by
  obtain ⟨bytes, r', hRun, hEnd, -⟩ :=
    num_ready_bytes_exact .debug (r := bufferedLimit) ⟨⟨trivial, by decide⟩, by decide⟩
      (by decide) [.read 2, .peek 5, .read 1]
  exact ⟨bytes, r', hRun, hEnd⟩

end SystemInterface
