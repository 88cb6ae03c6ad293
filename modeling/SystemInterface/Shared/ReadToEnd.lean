import SystemInterface.Shared.Outcomes

/-!
# SystemInterface — what errors leave

An error of `read_to_end_at` leaves a vector in which the first bytes are those of
the file and the last ones are zeros: the read starts at the front of the vector,
and the vector stays enlarged. `read_to_string_at` reads into a vector of its own.

Main results:

* `lend_short` — a file that the others leave alone from some time on is read as it
  is then;
* `read_to_end_error_iff` — when a vector keeps what it holds through every error;
  a string always does.
-/

namespace SystemInterface.Shared

open Effect

variable {c : Content} {d : Device} {α : Type}

-- ---------------------------------------------------------------------------
-- Files that have settled
-- ---------------------------------------------------------------------------

/-- The others put `c` into the file, and leave it there; a read moves one byte. -/
def settled (c : Content) : Others := fun _ => ⟨.go 1, c⟩

/-- The file holds `c`, and did at every read. -/
structure Settled (c : Content) (d : Device) : Prop where
  content : d.content = c
  read : ∀ byte position, (byte, position) ∈ d.reads → c.bytes[position]? = some byte

theorem not_interrupted_settled (c : Content) : (settled c).InterruptedBefore 0 :=
  fun _ h => absurd h (by simp [settled])

namespace Settled

theorem contents (h : Settled c d) (i : Nat) : (settled c).contents d i = c := by
  cases i with
  | zero => exact h.content
  | succ i => rfl

theorem passed {n : Nat} {d' : Device} (h : Settled c d) (h' : (settled c).Passed d n d') :
    Settled c d' where
  content := h'.content.trans (h.contents n)
  read byte position hMem := by
    rcases h'.sound byte position hMem with hOld | ⟨i, -, hAt⟩
    · exact h.read byte position hOld
    · rwa [h.contents i] at hAt

end Settled

-- ---------------------------------------------------------------------------
-- Vectors
-- ---------------------------------------------------------------------------

section

variable {readExactAt : Slice → Nat → Proc Device Fault Unit} {mem : Memory} {found : Content}
  {pos offset : Nat} {v v₁ : Vec}

theorem wasRead_nil (d : Device) (offset : Nat) : d.WasRead offset [] := List.nil_subset _

/-- Vectors that are spared. -/
theorem keepsOnError {others : Others} (hReads : Reads others readExactAt) (ptr : Nat)
    (hSpared : Spared found offset v) :
    KeepsOnError (readToEndAt others.metadataLen (view.lend ptr readExactAt) offset)
      (Device.fresh mem found pos) v offset := by
  intro e t hRun
  obtain ⟨n, -, -, hOutcome⟩ := (readToEndAt_outcome hReads ptr offset _ v).post _ t hRun
  generalize hr : (Except.error (.err e) : Result Nat) = r at hOutcome
  cases hOutcome with
  | unknown _ => exact ⟨[], (List.append_nil _).symm, wasRead_nil ..⟩
  | before _ => exact absurd hr (by simp)
  | tooLong _ _ => exact absurd (Except.error.inj hr) (by simp [capacityOverflow])
  | filled _ _ _ => exact absurd hr (by simp)
  | @torn f bytes v' hLe hFailed hIn hBytes =>
    have hLe : offset ≤ found.bytes.length := hLe
    have hBytes : t.2.bytes = bytes ++
      (v.bytes ++ List.replicate (found.bytes.length - offset) 0).drop bytes.length := hBytes
    have hShort : bytes.length = 0 ∨ bytes.length < v.len + (found.bytes.length - offset) :=
      hFailed.short
    have hAlloc : v.len + (found.bytes.length - offset) ≤ isizeMax := by
      have hLen := congrArg List.length hBytes
      have hMax := t.2.len_le
      have hHeld : v.len = v.bytes.length := rfl
      rw [List.length_append, List.length_drop, List.length_append, List.length_replicate] at hLen
      omega
    -- the vector was not enlarged, and nothing was read into it
    obtain ⟨hAtEnd, hSmall⟩ : found.bytes.length = offset ∧ (v.len ≤ 1 ∨ offset = i64Max) := by
      rcases hSpared with hBefore | hPanic | hEnd
      · omega
      · omega
      · exact hEnd
    have hNil : bytes = [] := by
      by_contra hSome
      have hPos : 0 < bytes.length := List.length_pos_iff.mpr hSome
      have hIn := hIn.inFile.resolve_left hSome
      rcases hSmall with hOne | hMax
      · omega
      · omega
    refine ⟨[], ?_, wasRead_nil ..⟩
    rw [hBytes, hNil, hAtEnd, Nat.sub_self]
    rfl

/-- **A settled file is read as it is**, and ends inside the vector. -/
theorem lend_short (hReads : Reads (settled c) readExactAt) (ptr : Nat) (h : Settled c d)
    (hFits : offset + v.len < 2 ^ 64) (hOffset : offset ≤ i64Max)
    (hShort : (c.bytes.drop offset).length < v.len) :
    (view.lend ptr readExactAt offset).wp (d, v) fun r t =>
      r = .error failedToFill ∧ Settled c t.1 ∧ t.2 = v.fill (c.bytes.drop offset) := by
  refine ((lend_runsIf hReads ptr hFits 0 d).wp (not_interrupted_settled c)).mono ?_
  rintro r t ⟨n, bytes, hTorn, hClosed⟩
  have hPrefix : bytes <+: c.bytes.drop offset :=
    hTorn.readIn.pieces.isPrefix fun i _ => congrArg Content.bytes (h.contents i)
  have hLe := hPrefix.length_le
  cases r with
  | ok u =>
    have hFull : bytes.length = v.len := hClosed
    omega
  | error f =>
    cases Closed.failed hClosed hOffset with
    | call _ hOutcome => exact absurd hOutcome (by simp [settled])
    | @ended i _ hEnd _ =>
      rw [h.contents i] at hEnd
      have hAll : bytes = c.bytes.drop offset := by
        refine hPrefix.eq_of_length_le ?_
        rw [List.length_drop]
        omega
      exact ⟨rfl, h.passed hTorn.passed, hAll ▸ hTorn.vec⟩

/-- The file ends inside the enlarged vector. -/
theorem readToEndAt_short (hReads : Reads (settled c) readExactAt) (ptr : Nat)
    (hLe : offset ≤ found.bytes.length)
    (hResize : v.resize (v.len + (found.bytes.length - offset)) = .ok v₁)
    (hShort : (c.bytes.drop offset).length < v₁.len) :
    ∃ t, (readToEndAt (settled c).metadataLen (view.lend ptr readExactAt) offset).Returns
        (Device.fresh mem found pos, v) (.error failedToFill) t ∧
      Settled c t.1 ∧ t.2 = v₁.fill (c.bytes.drop offset) := by
  have hSize := found.len_le
  have hFits := found.add_len_lt v
  have hLen : v₁.len = v.len + (found.bytes.length - offset) := Vec.len_resize hResize
  set d₁ := (Device.fresh mem found pos).after ⟨.go 1, c⟩
  have hSettled : Settled c d₁ := ⟨rfl, fun _ _ h => absurd h List.not_mem_nil⟩
  have hSum : saturatingAdd v.len (found.bytes.length - offset) =
      v.len + (found.bytes.length - offset) := saturatingAdd_of_lt (by omega)
  obtain ⟨r, t, hRun, rfl, hEnd⟩ : (readToEndAt (settled c).metadataLen (view.lend ptr readExactAt)
      offset).wp (Device.fresh mem found pos, v) fun r t =>
        r = .error failedToFill ∧ Settled c t.1 ∧ t.2 = v₁.fill (c.bytes.drop offset) := by
    unfold readToEndAt
    refine Proc.wp_bind (Proc.onFst_wp (call_wp (fun e hOutcome => ?_) fun count => ?_))
    · exact absurd hOutcome (by simp [settled])
    have hSub : checkedSub (Device.fresh mem found pos).content.bytes.length offset =
        some (found.bytes.length - offset) := checkedSub_of_le hLe
    simp only [hSub]
    refine Proc.wp_bind (Proc.wp_ofStep ?_)
    rw [hSum, hResize]
    refine Proc.wp_bind ((lend_short hReads ptr hSettled (by omega) (by omega) hShort).mono ?_)
    rintro r t ⟨rfl, hSettled', hVec⟩
    exact ⟨rfl, hSettled', hVec⟩
  exact ⟨t, hRun, hEnd⟩

end

/-- The file after it was truncated. -/
def Content.truncated : Content := ⟨[], Nat.zero_le _⟩

/-- The file with one byte behind the offset. -/
def Content.grown (offset : Nat) (byte : UInt8) (h : offset < i64Max) : Content :=
  ⟨List.replicate offset 0 ++ [byte], by
    rw [List.length_append, List.length_replicate]
    exact h⟩

theorem Content.drop_grown (offset : Nat) (byte : UInt8) (h : offset < i64Max) :
    (grown offset byte h).bytes.drop offset = [byte] := by
  show (List.replicate offset 0 ++ [byte]).drop offset = [byte]
  exact List.drop_left' List.length_replicate

section

variable {readExactAt : Slice → Nat → Proc Device Fault Unit} {found : Content} {offset : Nat}
  {v : Vec}

/-- A byte that was not there when the metadata was read overwrites the first one of
the vector. -/
theorem not_keepsOnError_grown (hBefore : offset < i64Max) {first : UInt8} {rest : List UInt8}
    (hBytes : v.bytes = first :: rest)
    (hReads : Reads (settled (.grown offset (first + 1) hBefore)) readExactAt)
    (mem : Memory) (pos ptr : Nat) (hEnd : found.bytes.length = offset) (hTwo : 1 < v.len) :
    ¬ KeepsOnError
      (readToEndAt (settled (.grown offset (first + 1) hBefore)).metadataLen
        (view.lend ptr readExactAt) offset)
      (Device.fresh mem found pos) v offset := by
  have hSame : v.len + (found.bytes.length - offset) = v.len := by omega
  have hAlloc : v.len + (found.bytes.length - offset) ≤ isizeMax := by
    rw [hSame]
    exact v.len_le
  obtain ⟨v₁, hResize⟩ := v.resize_of_le hAlloc
  have hData : (Content.grown offset (first + 1) hBefore).bytes.drop offset = [first + 1] :=
    Content.drop_grown ..
  have hShort : [first + 1].length < v₁.len := by
    rw [Vec.len_resize hResize, hSame]
    exact hTwo
  obtain ⟨t, hRun, -, hVec⟩ :=
    readToEndAt_short hReads ptr (Nat.le_of_eq hEnd.symm) hResize (hData ▸ hShort)
  intro hKeeps
  obtain ⟨added, hAdded, -⟩ := hKeeps _ t hRun
  rw [hVec, hData, Vec.fill_of_ge (Nat.le_of_lt hShort), hBytes] at hAdded
  have hFirst : first + 1 = first := (List.cons.inj hAdded).1
  exact absurd hFirst (by simp)

/-- The file has nothing to give any more, and the zeros stay. -/
theorem not_keepsOnError_truncated (hReads : Reads (settled .truncated) readExactAt)
    (mem : Memory) (pos ptr : Nat) (hLess : offset < found.bytes.length)
    (hAlloc : v.len + (found.bytes.length - offset) ≤ isizeMax) :
    ¬ KeepsOnError
      (readToEndAt (settled .truncated).metadataLen (view.lend ptr readExactAt) offset)
      (Device.fresh mem found pos) v offset := by
  obtain ⟨v₁, hResize⟩ := v.resize_of_le hAlloc
  have hEmpty : Content.truncated.bytes.drop offset = [] := List.drop_nil
  have hShort : (Content.truncated.bytes.drop offset).length < v₁.len := by
    rw [hEmpty, Vec.len_resize hResize, List.length_nil]
    omega
  obtain ⟨t, hRun, hSettled, hVec⟩ :=
    readToEndAt_short hReads ptr (Nat.le_of_lt hLess) hResize hShort
  intro hKeeps
  obtain ⟨added, hAdded, hWasRead⟩ := hKeeps _ t hRun
  rw [hVec, hEmpty, Vec.fill_nil, Vec.resize_grown hResize] at hAdded
  obtain rfl := List.append_cancel_left hAdded
  -- the first zero was not read: there is no byte in the file
  have hZero : (0, offset) ∈ t.1.reads := by
    apply hWasRead
    rw [List.mk_mem_zipIdx_iff_le_and_getElem?_sub, Nat.sub_self, List.getElem?_replicate]
    exact ⟨le_rfl, if_pos (Nat.sub_pos_of_lt hLess)⟩
  have hAt := hSettled.read 0 offset hZero
  exact absurd hAt (by simp [Content.truncated])

end

/-- Vectors that are not: the zeros are left in them, or their first byte is
overwritten. -/
theorem not_keepsOnError {readExactAt : Others → Slice → Nat → Proc Device Fault Unit}
    (hReads : ∀ others, Reads others (readExactAt others)) (mem : Memory) (pos ptr : Nat)
    {found : Content} {offset : Nat} {v : Vec} (hNot : ¬ Spared found offset v) :
    ∃ others, ¬ KeepsOnError
      (readToEndAt others.metadataLen (view.lend ptr (readExactAt others)) offset)
      (Device.fresh mem found pos) v offset := by
  have hLe : offset ≤ found.bytes.length := Nat.not_lt.mp fun h => hNot (Or.inl h)
  have hAlloc : v.len + (found.bytes.length - offset) ≤ isizeMax :=
    Nat.not_lt.mp fun h => hNot (Or.inr (Or.inl h))
  by_cases hEnd : found.bytes.length = offset
  · have hTwo : 1 < v.len := Nat.not_le.mp fun h => hNot (Or.inr (Or.inr ⟨hEnd, Or.inl h⟩))
    have hBefore : offset < i64Max :=
      lt_of_le_of_ne (hEnd ▸ found.len_le) fun h => hNot (Or.inr (Or.inr ⟨hEnd, Or.inr h⟩))
    obtain ⟨first, rest, hBytes⟩ := List.exists_cons_of_length_pos
      (show 0 < v.bytes.length from Nat.lt_of_succ_lt hTwo)
    exact ⟨_, not_keepsOnError_grown hBefore hBytes (hReads _) mem pos ptr hEnd hTwo⟩
  · exact ⟨_, not_keepsOnError_truncated (hReads _) mem pos ptr
      (lt_of_le_of_ne hLe (Ne.symm hEnd)) hAlloc⟩

-- ---------------------------------------------------------------------------
-- Strings
-- ---------------------------------------------------------------------------

section

variable {σ β : Type} {s : String}

theorem onFst_keeps (x : Proc σ Fault α) (t : σ × String) (hs : t.2 = s) :
    (Proc.onFst x).wlp t fun _ t' => t'.2 = s :=
  fun _ _ hx => (Proc.onFst_returns_iff.mp hx).2.trans hs

theorem ofExcept_keeps (x : Result α) (t : σ × String) (hs : t.2 = s) :
    (Proc.ofExcept x).wlp t fun _ t' => t'.2 = s :=
  (Proc.wp_ofExcept hs).wlp

/-- An error of a sequence leaves a string alone, if its first part does and an error of
the second one does. -/
theorem bind_keeps {x : Proc (σ × String) Fault α} {f : α → Proc (σ × String) Fault β}
    (hx : ∀ t, t.2 = s → x.wlp t fun _ t' => t'.2 = s)
    (hf : ∀ a t, t.2 = s → (f a).wlp t fun r t' => ∀ e, r = .error e → t'.2 = s)
    (t : σ × String) (hs : t.2 = s) :
    (x >>= f).wlp t fun r t' => ∀ e, r = .error e → t'.2 = s := by
  apply Proc.wlp_bind
  intro r t' hReturns
  have hs' := hx t hs r t' hReturns
  cases r with
  | ok a => exact hf a t' hs'
  | error e => exact fun _ _ => hs'

/-- The string is touched last, by a step that does not fail. -/
theorem readToStringAt_keeps (metadataLen : Proc σ Fault Nat)
    (readExactAt : Nat → Proc (σ × Vec) Fault Unit) (offset : Nat) (w : σ) (s : String) :
    (readToStringAt metadataLen readExactAt offset).wlp (w, s) fun r t =>
      ∀ f, r = .error f → t.2 = s := by
  refine bind_keeps (onFst_keeps metadataLen) (fun size => ?_) (w, s) rfl
  cases checkedSub size offset with
  | none => exact fun t _ => (Proc.wp_pure fun f hf => absurd hf (by simp)).wlp
  | some len =>
    refine bind_keeps (ofExcept_keeps _) fun tmp => ?_
    refine bind_keeps (onFst_keeps _) fun filled => ?_
    refine bind_keeps (ofExcept_keeps _) fun added t _ => ?_
    apply Proc.wlp_bind
    apply Proc.wp.wlp
    apply Proc.wp_ofStep
    exact (Proc.wp_pure fun f hf => absurd hf (by simp)).wlp

end

-- ---------------------------------------------------------------------------
-- Errors
-- ---------------------------------------------------------------------------

theorem keepsOnError_iff {readExactAt : Others → Slice → Nat → Proc Device Fault Unit}
    (hReads : ∀ others, Reads others (readExactAt others)) (mem : Memory) (found : Content)
    (pos ptr offset : Nat) (v : Vec) :
    (∀ others : Others, KeepsOnError
      (readToEndAt others.metadataLen (view.lend ptr (readExactAt others)) offset)
      (Device.fresh mem found pos) v offset) ↔ Spared found offset v := by
  constructor
  · intro hAll
    by_contra hNot
    obtain ⟨others, hTorn⟩ := not_keepsOnError hReads mem pos ptr hNot
    exact hTorn (hAll others)
  · exact fun hSpared others => keepsOnError (hReads others) ptr hSpared

/-- **When an error leaves a vector alone.** Whatever the others do to the file, and
whichever calls fail: that every error leaves a vector with what it held, and behind
that nothing but bytes of the file, is so only where nothing is read into it. A
string is left alone by every error. -/
theorem read_to_end_error_iff (p : Profile) (mem : Memory) (found : Content)
    (pos ptr offset : Nat) (v : Vec) :
    ((∀ others : Others, KeepsOnError
        (readToEndAt others.metadataLen (view.lend ptr (RustStd.readExactAt p others.pread)) offset)
        (Device.fresh mem found pos) v offset) ↔ Spared found offset v) ∧
    (∀ (H : Type) (base : Windows.Os Device H) (file : H),
      (∀ others : Others, KeepsOnError
        (readToEndAt others.metadataLen
          (view.lend ptr (Windows.readExactAt (others.os base) file)) offset)
        (Device.fresh mem found pos) v offset) ↔ Spared found offset v) ∧
    ∀ (σ : Type) (metadataLen : Proc σ Fault Nat) (readExactAt : Nat → Proc (σ × Vec) Fault Unit)
      (w : σ) (s : String) (f : Fault) (t : σ × String),
      (readToStringAt metadataLen readExactAt offset).Returns (w, s) (.error f) t → t.2 = s := by
  refine ⟨?_, fun H base file => ?_, fun σ metadataLen readExactAt w s f t hRun => ?_⟩
  · exact keepsOnError_iff (reads p) mem found pos ptr offset v
  · exact keepsOnError_iff (Windows.reads base file) mem found pos ptr offset v
  · exact readToStringAt_keeps metadataLen readExactAt offset w s _ t hRun f rfl

/-- The file has two bytes when its metadata is read, and then one: it takes the place
of the byte in the vector, and two zeros are left behind it. -/
theorem read_to_end_error_leaves_zeros :
    ¬ ∀ (p : Profile) (mem : Memory) (found : Content) (pos ptr offset : Nat) (v : Vec)
      (others : Others), KeepsOnError
        (readToEndAt others.metadataLen (view.lend ptr (RustStd.readExactAt p others.pread)) offset)
        (Device.fresh mem found pos) v offset := by
  intro hAll
  have hRun : ∃ t, (readToEndAt (settled ⟨[5], by decide⟩).metadataLen
      (view.lend 0 (RustStd.readExactAt .debug (settled ⟨[5], by decide⟩).pread)) 0).Returns
        (Device.fresh (fun _ => 0) ⟨[7, 8], by decide⟩ 0, ⟨[9], by decide⟩) (.error failedToFill) t ∧
      t.2.bytes = [5, 0, 0] := ⟨_, ⟨3, rfl⟩, rfl⟩
  obtain ⟨t, hRun, hBytes⟩ := hRun
  obtain ⟨added, hAdded, -⟩ := hAll _ _ _ _ _ _ _ _ _ t hRun
  rw [hBytes] at hAdded
  exact absurd (List.cons.inj hAdded).1 (by decide)

end SystemInterface.Shared
