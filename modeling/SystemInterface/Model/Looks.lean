import SystemInterface.Model.Singles

/-!
# SystemInterface — peeks and reads

A run of peeks and reads, each into a buffer of its own. By the rules of single transfers a
peek finds the bytes that the reads after it go on with, and only the reads move on.

Main result:

* `browse_holds` — every peek and every read delivers the bytes that follow those which the
  reads before it have taken.
-/

namespace SystemInterface

open Effect

-- ---------------------------------------------------------------------------
-- Runs
-- ---------------------------------------------------------------------------

/-- A peek or a read. -/
inductive Look where
  | peek (buf : Slice)
  | read (buf : Slice)

namespace Look

def buf : Look → Slice
  | peek buf => buf
  | read buf => buf

def op : Look → SingleOp
  | peek buf => .peek buf
  | read buf => .read buf

/-- The bytes that the call takes out of the stream. -/
def taken : Look → Result Nat → Nat
  | read _, .ok n => n
  | _, _ => 0

end Look

/-- Peeks and reads, one after the other. -/
def browse : List Look → Prog SingleOp (fun _ => Result Nat) Fault (List (Result Nat))
  | [] => pure []
  | look :: looks => do
    let r ← .op look.op
    let rs ← browse looks
    pure (r :: rs)

/-- The buffers do not share a byte. -/
def Separate (looks : List Look) : Prop :=
  looks.Pairwise fun a b => ∀ x ∈ a.buf.addrs, x ∉ b.buf.addrs

/-- Every call that returns has put the bytes from its position on into its buffer; the
position moves on by what the reads take. -/
def Delivered (content : List UInt8) (mem : Memory) : Nat → List Look → List (Result Nat) → Prop
  | _, [], rs => rs = []
  | _, _ :: _, [] => False
  | pos, look :: looks, r :: rs =>
    (∀ n, r = .ok n → n ≤ look.buf.len ∧
      (look.buf.addrs.map mem).take n = (content.drop pos).take n ∧
      (n = 0 → look.buf.len = 0 ∨ content.length ≤ pos)) ∧
    Delivered content mem (pos + look.taken r) looks rs

/-- The position after the calls. -/
def endPos (pos : Nat) : List Look → List (Result Nat) → Nat
  | look :: looks, r :: rs => endPos (pos + look.taken r) looks rs
  | _, _ => pos

-- ---------------------------------------------------------------------------
-- One call
-- ---------------------------------------------------------------------------

variable {f f' : FileState} {r : Result Nat} {look : Look}

/-- What one call has done. -/
structure Looked (look : Look) (f : FileState) (r : Result Nat) (f' : FileState) : Prop where
  content : f'.content = f.content
  pos : f'.pos = f.pos + look.taken r
  outside : ∀ x, x ∉ look.buf.addrs → f'.mem x = f.mem x
  filled : ∀ n, r = .ok n → n ≤ look.buf.len ∧
    (look.buf.addrs.map f'.mem).take n = (f.content.drop f.pos).take n ∧
    (n = 0 → look.buf.len = 0 ∨ f.content.length ≤ f.pos)

theorem looked_filled {buf : Slice} {n : Nat} {o : Option Nat} (hAhead : f.ahead o = f.ahead none)
    (hn : n ≤ totalLen [buf]) (hLen : n ≤ (f.ahead o).length)
    (hZero : n = 0 → HeadEmpty [buf] ∨ f.ahead o = []) :
    n ≤ buf.len ∧
      (buf.addrs.map (f.fill o (cells [buf]) n).mem).take n = (f.content.drop f.pos).take n ∧
      (n = 0 → buf.len = 0 ∨ f.content.length ≤ f.pos) := by
  rw [totalLen_cons, totalLen_nil, Nat.add_zero] at hn
  have hTake : ((f.ahead o).take n).length = n := List.length_take_of_le hLen
  refine ⟨hn, ?_, fun h0 => ?_⟩
  · show (buf.addrs.map (store f.mem (cells [buf]) ((f.ahead o).take n))).take n = _
    have hNodup : buf.addrs.Nodup := List.nodup_range'
    rw [cells_singleton, map_store hNodup (by rw [hTake, Slice.length_addrs]; exact hn),
      List.take_append_of_le_length (Nat.le_of_eq hTake.symm), List.take_take, Nat.min_self,
      hAhead]
    rfl
  · rcases hZero h0 with hEmpty | hEnd
    · exact .inl (hEmpty buf rfl)
    · rw [hAhead] at hEnd
      exact .inr (List.drop_eq_nil_iff.mp hEnd)

theorem looked (hStep : FileState.singles.Step look.op f r f') : Looked look f r f' := by
  cases r with
  | error e =>
    have hSame : f' = f := by
      cases look with
      | peek buf => exact hStep
      | read buf => exact hStep
    subst hSame
    refine ⟨rfl, ?_, fun _ _ => rfl, fun n hn => absurd hn (by simp)⟩
    cases look <;> rfl
  | ok n =>
    cases look with
    | peek buf =>
      obtain ⟨hn, hLen, hZero, rfl⟩ := hStep
      refine ⟨rfl, rfl, fun x hx => ?_, fun m hm => ?_⟩
      · exact store_of_not_mem (by rw [cells_singleton]; exact hx)
      · obtain rfl := Except.ok.inj hm
        exact looked_filled rfl hn hLen hZero
    | read buf =>
      obtain ⟨hn, hLen, hZero, rfl⟩ := hStep
      refine ⟨rfl, rfl, fun x hx => ?_, fun m hm => ?_⟩
      · exact store_of_not_mem (by rw [cells_singleton]; exact hx)
      · obtain rfl := Except.ok.inj hm
        exact looked_filled rfl hn hLen hZero

-- ---------------------------------------------------------------------------
-- All calls
-- ---------------------------------------------------------------------------

theorem Look.taken_le (look : Look) {r : Result Nat}
    (h : ∀ n, r = .ok n → n ≤ look.buf.len) : look.taken r ≤ look.buf.len := by
  cases look with
  | peek buf => exact Nat.zero_le _
  | read buf =>
    cases r with
    | ok n => exact h n rfl
    | error e => exact Nat.zero_le _

/-- What the calls have done. -/
structure Browsed (looks : List Look) (f : FileState) (rs : List (Result Nat)) (f' : FileState) :
    Prop where
  content : f'.content = f.content
  pos : f'.pos = endPos f.pos looks rs
  outside : ∀ x, (∀ look ∈ looks, x ∉ look.buf.addrs) → f'.mem x = f.mem x
  delivered : Delivered f.content f'.mem f.pos looks rs

/-- **Peeks take nothing out of the stream**, and find what the reads after them take. -/
theorem browse_holds (looks : List Look) (hSeparate : Separate looks) {f : FileState}
    (hFits : f.pos + (looks.map fun look => look.buf.len).sum ≤ i64Max) :
    (browse looks).Holds FileState.singles
      (fun r f' => ∃ rs, r = .ok rs ∧ Browsed looks f rs f') f := by
  induction looks generalizing f with
  | nil => exact ⟨[], rfl, rfl, rfl, fun _ _ => rfl, rfl⟩
  | cons look looks ih =>
    obtain ⟨hHead, hTail⟩ := List.pairwise_cons.mp hSeparate
    rw [List.map_cons, List.sum_cons] at hFits
    apply Prog.holds_op
    · cases look with
      | peek buf => exact trivial
      | read buf =>
        show f.pos + buf.len ≤ i64Max
        exact (Nat.add_le_add_left (Nat.le_add_right ..) f.pos).trans hFits
    · intro r f₁ hStep
      obtain ⟨hContent, hPos, hOutside, hFilled⟩ := looked hStep
      have hTaken := look.taken_le fun n hn => (hFilled n hn).1
      refine ((ih hTail (by rw [hPos]; omega)).mono ?_).bind
      rintro _ f' ⟨rs, rfl, hBrowsed⟩
      refine ⟨r :: rs, rfl, hBrowsed.content.trans hContent, ?_, fun x hx => ?_, ?_, ?_⟩
      · rw [hBrowsed.pos, hPos]
        rfl
      · rw [hBrowsed.outside x fun l hl => hx l (List.mem_cons_of_mem _ hl),
          hOutside x (hx look (List.mem_cons_self ..))]
      · -- what the first call has delivered stays, as the buffers are separate
        intro n hn
        have hKept : look.buf.addrs.map f'.mem = look.buf.addrs.map f₁.mem :=
          List.map_congr_left fun x hx => hBrowsed.outside x fun l hl => hHead l hl x hx
        rw [hKept]
        exact hFilled n hn
      · rw [← hPos, ← hContent]
        exact hBrowsed.delivered

end SystemInterface
