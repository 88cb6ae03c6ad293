import SystemInterface.Lib.Splice
import SystemInterface.Model.LoopInstances
import SystemInterface.Model.Trait

/-!
# SystemInterface — what a complete transfer does to a file

`FileState` is a file as its client sees it: the caller's memory, the content
and the current position. `write` and `readExact` say what a complete transfer
is to do to it, at an offset or, with `none`, at the place the stream is at.

A loop whose single calls move a part of the bytes each makes the whole
transfer, whatever lies behind the calls: `abs` is the client's view of the
state they work on, and `J` an invariant of that state.

Main results:

* `ReadLoop.wlp`, `ReadLoop.wp` — a read loop makes the abstract read;
* `writes_wp` — a write loop makes the abstract write.
-/

namespace SystemInterface

open Effect

variable {σ S : Type}

-- ---------------------------------------------------------------------------
-- Where the bytes go
-- ---------------------------------------------------------------------------

/-- Put `data` at an offset of the content, or at the end of a stream. -/
def place : Option Nat → List UInt8 → List UInt8 → List UInt8
  | some offset, content, data => splice 0 content offset data
  | none, content, data => content ++ data

@[simp] theorem place_nil (o : Option Nat) (content : List UInt8) :
    place o content [] = content := by
  cases o with
  | none => exact List.append_nil content
  | some offset => rfl

/-- After the first `k` bytes, the next `n` go `k` further. -/
theorem place_take_add (o : Option Nat) (content : List UInt8) {data : List UInt8} {k : Nat}
    (n : Nat) (hk : k ≤ data.length) :
    place (o.map (· + k)) (place o content (data.take k)) ((data.drop k).take n) =
      place o content (data.take (k + n)) := by
  cases o with
  | none =>
    show content ++ data.take k ++ (data.drop k).take n = content ++ data.take (k + n)
    rw [List.take_add, List.append_assoc]
  | some offset => exact splice_take_add 0 content offset n hk

-- ---------------------------------------------------------------------------
-- Where the bytes come from
-- ---------------------------------------------------------------------------

/-- The position of a stream after `n` bytes; a positional read leaves it. -/
def movePos : Option Nat → Nat → Nat → Nat
  | some _, pos, _ => pos
  | none, pos, n => pos + n

@[simp] theorem movePos_zero (o : Option Nat) (pos : Nat) : movePos o pos 0 = pos := by
  cases o <;> rfl

theorem movePos_add (o : Option Nat) (pos k n : Nat) :
    movePos (o.map (· + k)) (movePos o pos k) n = movePos o pos (k + n) := by
  cases o with
  | none => exact Nat.add_assoc pos k n
  | some offset => rfl

/-- After `k` bytes, the read goes on `k` bytes further. -/
theorem drop_movePos (content : List UInt8) (o : Option Nat) (pos k : Nat) :
    content.drop ((o.map (· + k)).getD (movePos o pos k)) =
      (content.drop (o.getD pos)).drop k := by
  rw [List.drop_drop]
  cases o <;> rfl

-- ---------------------------------------------------------------------------
-- The file
-- ---------------------------------------------------------------------------

/-- A file as its client sees it. -/
structure FileState where
  mem : Memory
  content : List UInt8
  pos : Nat

namespace FileState

variable (f : FileState) (o : Option Nat)

/-- The bytes a read at `o` gets to see: those from the offset on, or those
after the current position. -/
def ahead : List UInt8 := f.content.drop (o.getD f.pos)

/-- The position that a seek asks for. -/
def target : SeekFrom → Int
  | .start offset => offset
  | .fromEnd offset => f.content.length + offset
  | .current offset => f.pos + offset

/-- A seek to a position from the start. -/
theorem start_in_range {offset : Nat} :
    (0 ≤ f.target (.start offset) ∧ f.target (.start offset) ≤ i64Max) ↔ offset ≤ i64Max :=
  ⟨fun h => Int.ofNat_le.mp h.2, fun h => ⟨Int.natCast_nonneg offset, Int.ofNat_le.mpr h⟩⟩

/-- Write all of `data`. -/
def write (data : List UInt8) : FileState := { f with content := place o f.content data }

/-- Fill the first `n` of the addresses. -/
def fill (addrs : List Nat) (n : Nat) : FileState :=
  { f with
    mem := store f.mem addrs ((f.ahead o).take n)
    pos := movePos o f.pos n }

/-- Fill all of the addresses, or as many as there are bytes. -/
def readExact (addrs : List Nat) : Result Unit × FileState :=
  (if addrs.length ≤ (f.ahead o).length then .ok () else .error failedToFill,
    f.fill o addrs (min addrs.length (f.ahead o).length))

@[simp] theorem write_nil : f.write o [] = f := by
  rw [write, place_nil]

/-- After the first `k` bytes, the next `n` of them. -/
theorem write_write {data : List UInt8} {k : Nat} (n : Nat) (hk : k ≤ data.length) :
    (f.write o (data.take k)).write (o.map (· + k)) ((data.drop k).take n) =
      f.write o (data.take (k + n)) := by
  simp only [write, place_take_add o f.content n hk]

/-- Writing one piece behind the other is writing their concatenation. -/
theorem write_append (offset : Nat) (a b : List UInt8) :
    (f.write (some offset) a).write (some (offset + a.length)) b =
      f.write (some offset) (a ++ b) := by
  simp only [write, place, splice_append]

@[simp] theorem fill_zero (addrs : List Nat) : f.fill o addrs 0 = f := by
  rw [fill, List.take_zero, store_nil_right, movePos_zero]

/-- After `k` bytes, the read goes on `k` bytes further. -/
theorem ahead_fill (addrs : List Nat) (k : Nat) :
    (f.fill o addrs k).ahead (o.map (· + k)) = (f.ahead o).drop k :=
  drop_movePos f.content o f.pos k

theorem fill_fill (addrs : List Nat) {k : Nat} (n : Nat) (hk : k ≤ (f.ahead o).length) :
    (f.fill o addrs k).fill (o.map (· + k)) (addrs.drop k) n = f.fill o addrs (k + n) := by
  have hMem : store (f.fill o addrs k).mem (addrs.drop k)
      (((f.fill o addrs k).ahead (o.map (· + k))).take n) =
        store f.mem addrs ((f.ahead o).take (k + n)) := by
    rw [ahead_fill]
    exact store_take_add f.mem addrs n hk
  have hPos : movePos (o.map (· + k)) (f.fill o addrs k).pos n = movePos o f.pos (k + n) :=
    movePos_add o f.pos k n
  simp only [fill] at hMem hPos ⊢
  rw [hMem, hPos]

/-- A read at an offset is a read of a stream that stands there. -/
theorem readExact_some (offset : Nat) (addrs : List Nat) :
    f.readExact (some offset) addrs =
      (({ f with pos := offset } : FileState).readExact none addrs).map id
        fun f' => { f' with pos := f.pos } := rfl

-- ---------------------------------------------------------------------------
-- Loops that read
-- ---------------------------------------------------------------------------

/-- What one call of a read loop does: it fills some of the addresses, none
only at the end of the file, or fails and may be tried again. -/
def Fetched (l : BufferLoop S) (abs : σ → FileState) (J : σ → Prop) (s : S) (w : σ) :
    Result Nat → σ → Prop
  | .ok n, w' => n ≤ (l.addrs s).length ∧ AdvanceFits (l.addrs s).length n ∧
      n ≤ ((abs w).ahead (l.offset s)).length ∧ (n = 0 → (abs w).ahead (l.offset s) = []) ∧
      abs w' = (abs w).fill (l.offset s) (l.addrs s) n ∧ J w'
  | .error f, w' => l.transfer.retry f = true ∧ abs w' = abs w ∧ J w'

/-- A loop, started in `s₀`, whose calls read from the file and which takes
`Ok(0)` for its end. -/
structure ReadLoop (l : BufferLoop S) (s₀ : S) (abs : σ → FileState) (J : σ → Prop)
    (call : S → Proc σ Fault Nat) : Prop where
  zero : l.zero = some failedToFill
  left : ∀ s, l.Ready s → l.transfer.isEmpty s = false → l.addrs s ≠ []
  fetched : ∀ k s w, l.At s₀ k s → l.transfer.isEmpty s = false → J w →
    (call s).wp w (Fetched l abs J s w)

/-- A call leaves the budget of failures as it is, or uses up a part of it. -/
def Spends (budget : σ → Nat) (w : σ) : Result Nat → σ → Prop
  | .ok _, w' => budget w' ≤ budget w
  | .error _, w' => budget w' < budget w

/-- The file once `k` bytes of a read were filled in. -/
structure Filled (l : BufferLoop S) (s₀ : S) (abs : σ → FileState) (J : σ → Prop)
    (f : FileState) (k : Nat) (w : σ) : Prop where
  le : k ≤ (f.ahead (l.offset s₀)).length
  eq : abs w = f.fill (l.offset s₀) (l.addrs s₀) k
  inv : J w

/-- The end of the file, reached after `k` bytes with more to fill. -/
def AtEnd (l : BufferLoop S) (s₀ : S) (abs : σ → FileState) (J : σ → Prop) (f : FileState)
    (k : Nat) (fault : Fault) (w : σ) : Prop :=
  fault = failedToFill ∧ Filled l s₀ abs J f k w ∧ k = (f.ahead (l.offset s₀)).length ∧
    k < (l.addrs s₀).length

namespace ReadLoop

variable {f} {l : BufferLoop S} {s₀ : S} {abs : σ → FileState} {J : σ → Prop}
  {call : S → Proc σ Fault Nat} {w : σ}

/-- Every call keeps the account of the bytes filled in. -/
theorem moved (h : ReadLoop l s₀ abs J call) {k : Nat} {s : S} {w' : σ} {a : Result Nat}
    (hAt : l.At s₀ k s) (hne : l.transfer.isEmpty s = false) (hFilled : Filled l s₀ abs J f k w)
    (hA : Fetched l abs J s w a w') :
    l.Moved (l.addrs s).length (Filled l s₀ abs J f) (AtEnd l s₀ abs J f) k a w' := by
  have hAhead : (abs w).ahead (l.offset s) = (f.ahead (l.offset s₀)).drop k := by
    rw [hFilled.eq, hAt.offset_eq, ahead_fill]
  have hLe := hFilled.le
  cases a with
  | ok n =>
    obtain ⟨hn, hAdvance, hnAhead, hZero, hEq, hJ⟩ := hA
    have hNext : Filled l s₀ abs J f (k + n) w' := by
      refine ⟨?_, ?_, hJ⟩
      · rw [hAhead, List.length_drop] at hnAhead
        omega
      · rw [hEq, hFilled.eq, hAt.offset_eq, hAt.addrs_eq, fill_fill _ _ _ _ hLe]
    refine ⟨hn, hAdvance, fun _ => hNext, fun fault hn0 hf => ?_⟩
    -- `Ok(0)`: there is an address to fill, so the content has run out
    subst hn0
    have hEnd := hZero rfl
    rw [hAhead, List.drop_eq_nil_iff] at hEnd
    have hLeft : (l.addrs s).length ≠ 0 := fun h0 =>
      h.left s hAt.ready hne (List.eq_nil_of_length_eq_zero h0)
    have hLen := hAt.length
    rw [h.zero] at hf
    exact ⟨(Option.some.inj hf).symm, hNext, by omega, by omega⟩
  | error e =>
    obtain ⟨hRetry, hEq, hJ⟩ := hA
    rw [BufferLoop.Moved, if_pos hRetry]
    exact ⟨hLe, hEq.trans hFilled.eq, hJ⟩

/-- What the end of a run says about the file. -/
theorem ended {r : Result Unit} {w' : σ}
    (h : BufferLoop.Ended (l.addrs s₀).length (Filled l s₀ abs J f) (AtEnd l s₀ abs J f) r w') :
    (r, abs w') = f.readExact (l.offset s₀) (l.addrs s₀) ∧ J w' := by
  unfold readExact
  match r, h with
  | .ok (), hFilled =>
    have hLe := hFilled.le
    rw [if_pos hLe, Nat.min_eq_left hLe, hFilled.eq]
    exact ⟨rfl, hFilled.inv⟩
  | .error e, ⟨k, _, he, hFilled, hk, hlt⟩ =>
    rw [if_neg (by omega), Nat.min_eq_right (by omega), hFilled.eq, he, hk]
    exact ⟨rfl, hFilled.inv⟩

/-- **A read loop that returns has made the abstract read.** -/
theorem wlp (h : ReadLoop l s₀ abs J call) (hFits : l.OffsetFits s₀) (hReady : l.Ready s₀)
    (hJ : J w) :
    (l.transfer.run call s₀).wlp w fun r w' =>
      (r, abs w') = (abs w).readExact (l.offset s₀) (l.addrs s₀) ∧ J w' := by
  have hStart : Filled l s₀ abs J (abs w) 0 w := ⟨Nat.zero_le _, by rw [fill_zero], hJ⟩
  have hRun : (l.transfer.run call s₀).wlp w (BufferLoop.Ended (l.addrs s₀).length
      (Filled l s₀ abs J (abs w)) (AtEnd l s₀ abs J (abs w))) := by
    refine l.wlp hFits hReady ?_ hStart
    intro k s v hAt hne hFilled
    exact ((h.fetched k s v hAt hne hFilled.inv).mono fun a v' hA =>
      h.moved hAt hne hFilled hA).wlp
  exact fun r w' hr => ended (hRun r w' hr)

/-- **A read loop whose calls spend a budget of failures makes the abstract
read.** -/
theorem wp (hZero : l.zero = some failedToFill)
    (hLeft : ∀ s, l.Ready s → l.transfer.isEmpty s = false → l.addrs s ≠ [])
    (budget : σ → Nat)
    (hCall : ∀ k s w, l.At s₀ k s → l.transfer.isEmpty s = false → J w →
      (call s).wp w fun a w' => Fetched l abs J s w a w' ∧ Spends budget w a w')
    (hFits : l.OffsetFits s₀) (hReady : l.Ready s₀) (hJ : J w) :
    (l.transfer.run call s₀).wp w fun r w' =>
      (r, abs w') = (abs w).readExact (l.offset s₀) (l.addrs s₀) ∧ J w' := by
  have hLoop : ReadLoop l s₀ abs J call :=
    ⟨hZero, hLeft, fun k s w hAt hne hJ => (hCall k s w hAt hne hJ).mono fun _ _ hA => hA.1⟩
  have hStart : Filled l s₀ abs J (abs w) 0 w := ⟨Nat.zero_le _, by rw [fill_zero], hJ⟩
  have hRun : (l.transfer.run call s₀).wp w (BufferLoop.Ended (l.addrs s₀).length
      (Filled l s₀ abs J (abs w)) (AtEnd l s₀ abs J (abs w))) := by
    refine l.wp budget hFits hReady ?_ hStart
    intro k s v hAt hne hFilled
    apply (hCall k s v hAt hne hFilled.inv).mono
    intro a v' hA
    refine ⟨hLoop.moved hAt hne hFilled hA.1, ?_⟩
    cases a with
    | ok n =>
      refine ⟨hA.2, fun _ hz => ?_⟩
      rw [hZero] at hz
      exact absurd hz (by simp)
    | error e => exact fun _ => hA.2
  exact hRun.mono fun r w' hEnd => ended hEnd

end ReadLoop

-- ---------------------------------------------------------------------------
-- Loops that write
-- ---------------------------------------------------------------------------

/-- What one call of a write loop does: it puts some of the bytes in place, none
only where that is legitimate, or fails and may be tried again. -/
def Sent (l : BufferLoop S) (abs : σ → FileState) (J : σ → Prop) (s : S) (w : σ) :
    Result Nat → σ → Prop
  | .ok n, w' => n ≤ (l.addrs s).length ∧ AdvanceFits (l.addrs s).length n ∧
      (n = 0 → l.zero = none ∧ l.MayZero s) ∧
      abs w' = (abs w).write (l.offset s) (((l.addrs s).map (abs w).mem).take n) ∧ J w'
  | .error f, w' => l.transfer.retry f = true ∧ abs w' = abs w ∧ J w'

/-- **A write loop whose calls spend a budget of failures makes the abstract
write.** -/
theorem writes_wp {l : BufferLoop S} {s₀ : S} {abs : σ → FileState} {J : σ → Prop}
    {call : S → Proc σ Fault Nat} {w : σ} (budget : σ → Nat)
    (hCall : ∀ k s w, l.At s₀ k s → l.transfer.isEmpty s = false → J w →
      (call s).wp w fun a w' => Sent l abs J s w a w' ∧ Spends budget w a w')
    (hFits : l.OffsetFits s₀) (hReady : l.Ready s₀) (hJ : J w) :
    (l.transfer.run call s₀).wp w fun r w' =>
      r = .ok () ∧ abs w' = (abs w).write (l.offset s₀) ((l.addrs s₀).map (abs w).mem) ∧
        J w' := by
  set data := (l.addrs s₀).map (abs w).mem with hData
  have hRun : (l.transfer.run call s₀).wp w (BufferLoop.Ended (l.addrs s₀).length
      (fun k w' => abs w' = (abs w).write (l.offset s₀) (data.take k) ∧ J w')
      fun _ _ _ => False) := by
    refine l.wp budget hFits hReady ?_ ⟨by rw [List.take_zero, write_nil], hJ⟩
    rintro k s v hAt hne ⟨hEq, hJ'⟩
    apply (hCall k s v hAt hne hJ').mono
    rintro a v' ⟨hSent, hSpends⟩
    have hk : k ≤ data.length := by
      rw [hData, List.length_map]
      exact hAt.le
    cases a with
    | ok n =>
      obtain ⟨hn, hAdvance, hZero, hEq', hJ''⟩ := hSent
      refine ⟨⟨hn, hAdvance, fun _ => ⟨?_, hJ''⟩, fun f hn0 hf => ?_⟩, hSpends,
        fun hn0 _ => (hZero hn0).2⟩
      · have hMem : (abs v).mem = (abs w).mem := by rw [hEq]; rfl
        rw [hEq', hMem, hAt.addrs_eq, List.map_drop, ← hData, hEq, hAt.offset_eq,
          write_write _ _ _ hk]
      · rw [(hZero hn0).1] at hf
        exact absurd hf (by simp)
    | error e =>
      obtain ⟨hRetry, hEq', hJ''⟩ := hSent
      refine ⟨?_, fun _ => hSpends⟩
      rw [BufferLoop.Moved, if_pos hRetry]
      exact ⟨hEq'.trans hEq, hJ''⟩
  apply hRun.mono
  intro r w' hEnd
  cases r with
  | ok u =>
    obtain ⟨hEq, hJ'⟩ := hEnd
    have hAll : data.take (l.addrs s₀).length = data := by
      rw [hData, ← List.map_take, List.take_length]
    rw [hAll] at hEq
    exact ⟨rfl, hEq, hJ'⟩
  | error e =>
    obtain ⟨k, -, hFalse⟩ := hEnd
    exact hFalse.elim

end FileState

end SystemInterface
