import SystemInterface.Shared.Delivered

/-!
# SystemInterface — how reading to the end ends

Every run of `read_to_end_at` and of `read_to_string_at` on a file that others
change, whichever calls fail. The size of the file is read once, and that call is not
made again if it is interrupted; the calls of `read_exact_at` are. What the file holds
later decides how many of the bytes there are: what is returned was read piece by
piece from what the file held at the calls, and a failure is one that a call gave.

Main results:

* `lend_runsIf` — what `read_exact_at` does to a vector;
* `readToEndAt_outcome`, `readToStringAt_outcome` — the functions;
* `read_to_end_outcomes` — both functions on both systems.
-/

namespace SystemInterface.Shared

open Effect

-- ---------------------------------------------------------------------------
-- Reading into a vector
-- ---------------------------------------------------------------------------

/-- A `read_exact_at` that delivers, and returns if finitely many calls are
interrupted. -/
def Reads (others : Others) (readExactAt : Slice → Nat → Proc Device Fault Unit) : Prop :=
  ∀ (buf : Slice) (offset : Nat), offset + buf.len < 2 ^ 64 → ∀ N d,
    (readExactAt buf offset).RunsIf (others.InterruptedBefore N) d (Delivers others d buf offset)

theorem reads (p : Profile) (others : Others) : Reads others (RustStd.readExactAt p others.pread) :=
  fun _ _ hFits => readExactAt_delivers p others hFits

theorem Windows.reads {H : Type} (base : Windows.Os Device H) (file : H) (others : Others) :
    Reads others (Windows.readExactAt (others.os base) file) :=
  fun buf offset _ => Windows.readExactAt_delivers base file others buf offset

/-- The first bytes of a vector were overwritten with bytes that were read from the
file, the first of them at `offset`. -/
structure Torn (others : Others) (d : Device) (offset : Nat) (v : Vec) (n : Nat)
    (bytes : List UInt8) (t : Device × Vec) : Prop where
  passed : others.Passed d n t.1
  mem : t.1.mem = d.mem
  readIn : ReadIn others d offset n bytes t.1
  vec : t.2 = v.fill bytes

variable {others : Others} {readExactAt : Slice → Nat → Proc Device Fault Unit}

/-- **A read into a vector**, whatever the others do. -/
theorem lend_runsIf (hReads : Reads others readExactAt) (ptr : Nat) {offset : Nat} {v : Vec}
    (hFits : offset + v.len < 2 ^ 64) (N : Nat) (d : Device) :
    (view.lend ptr readExactAt offset).RunsIf (others.InterruptedBefore N) (d, v) fun r t =>
      ∃ n bytes, Torn others d offset v n bytes t ∧
        Closed others d offset v.len n bytes.length r := by
  set addrs := (v.slice ptr).addrs with hAddrs
  have hNodup : addrs.Nodup := List.nodup_range'
  have hLen : addrs.length = v.bytes.length := Slice.length_addrs _
  refine Proc.RunsIf.focus ((hReads (v.slice ptr) offset hFits N _).mono ?_)
  rintro r d' ⟨n, bytes, hDelivered, hClosed⟩
  have hMem : d'.mem = store (store d.mem addrs v.bytes) addrs bytes := hDelivered.mem
  have hLent : others.Passed d 0 (view.setMem d (store d.mem addrs v.bytes)) :=
    ⟨rfl, rfl, rfl, fun _ _ => Or.inl⟩
  have hPassed := hLent.trans hDelivered.passed
  have hIn := hDelivered.readIn.later hLent
  have hClosed := Closed.later hLent hClosed
  rw [Nat.zero_add] at hPassed hIn hClosed
  refine ⟨n, bytes, ⟨?_, ?_, ⟨hIn.pieces, hIn.noted⟩, Vec.ext ?_⟩, hClosed⟩
  · exact ⟨hPassed.steps, hPassed.content, hPassed.pos, hPassed.sound⟩
  · -- the caller's memory is put back
    show store d'.mem addrs (addrs.map d.mem) = d.mem
    rw [hMem, store_restore hNodup]
  · have hLe : bytes.length ≤ addrs.length := hDelivered.le
    rw [Vec.fill_of_ge (Nat.le_trans hLe (Nat.le_of_eq hLen))]
    show addrs.map d'.mem = _
    rw [hMem, map_store hNodup hLe, map_store_self hNodup hLen.symm]

/-- A file and a vector, one behind the other, are in the range of `u64`. -/
theorem Content.add_len_lt (c : Content) (v : Vec) : c.bytes.length + v.len < 2 ^ 64 := by
  have hSize := c.len_le
  have hLen : v.len ≤ isizeMax := v.len_le
  unfold i64Max at hSize
  unfold isizeMax at hLen
  omega

-- ---------------------------------------------------------------------------
-- Outcomes
-- ---------------------------------------------------------------------------

/-- How `read_to_end_at` ends, `n` calls after `d` and on the device `d'`: it returns
the result and leaves the vector. -/
inductive VecOutcome (others : Others) (d : Device) (offset : Nat) (v : Vec) (n : Nat)
    (d' : Device) : Result Nat → Vec → Prop where
  /-- The metadata could not be read. -/
  | unknown {e : Errno} : (others d.steps).outcome = .fail e →
      VecOutcome others d offset v n d' (.error (.err (.os e))) v
  /-- The file ended before the offset. -/
  | before : d.content.bytes.length < offset → VecOutcome others d offset v n d' (.ok 0) v
  /-- No vector is as long. -/
  | tooLong : offset ≤ d.content.bytes.length →
      isizeMax < v.len + (d.content.bytes.length - offset) →
      VecOutcome others d offset v n d' (.error capacityOverflow) v
  /-- The whole vector was overwritten, what it held included. -/
  | filled {v' : Vec} : offset ≤ d.content.bytes.length →
      v'.len = v.len + (d.content.bytes.length - offset) →
      ReadIn others d offset n v'.bytes d' →
      VecOutcome others d offset v n d' (.ok (d.content.bytes.length - offset)) v'
  /-- The first bytes were overwritten, and zeros are left behind what it held. -/
  | torn {f : Fault} {bytes : List UInt8} {v' : Vec} : offset ≤ d.content.bytes.length →
      ReadFailed others d offset (v.len + (d.content.bytes.length - offset)) n bytes.length f →
      ReadIn others d offset n bytes d' →
      v'.bytes = bytes ++
        (v.bytes ++ List.replicate (d.content.bytes.length - offset) 0).drop bytes.length →
      VecOutcome others d offset v n d' (.error f) v'

/-- How `read_to_string_at` ends. -/
inductive StringOutcome (others : Others) (d : Device) (offset : Nat) (s : String) (n : Nat)
    (d' : Device) : Result Nat → String → Prop where
  /-- The metadata could not be read. -/
  | unknown {e : Errno} : (others d.steps).outcome = .fail e →
      StringOutcome others d offset s n d' (.error (.err (.os e))) s
  /-- The file ended before the offset. -/
  | before : d.content.bytes.length < offset → StringOutcome others d offset s n d' (.ok 0) s
  | added {added : String} : offset ≤ d.content.bytes.length →
      (asBytes added).length = d.content.bytes.length - offset →
      ReadIn others d offset n (asBytes added) d' →
      StringOutcome others d offset s n d' (.ok (d.content.bytes.length - offset)) (s ++ added)
  /-- As many bytes as the metadata promised were read, and are no string. -/
  | notUtf8 {bytes : List UInt8} : offset ≤ d.content.bytes.length →
      bytes.length = d.content.bytes.length - offset → ReadIn others d offset n bytes d' →
      ¬ ValidUtf8 bytes → StringOutcome others d offset s n d' (.error invalidUtf8) s
  | failed {f : Fault} {bytes : List UInt8} : offset ≤ d.content.bytes.length →
      ReadFailed others d offset (d.content.bytes.length - offset) n bytes.length f →
      ReadIn others d offset n bytes d' → StringOutcome others d offset s n d' (.error f) s

/-- Every run of a function ends in one of the outcomes, with the caller's memory and the
position of the file as they were; and it ends if finitely many calls are interrupted. -/
def Accounted {β : Type} (others : Others) (x : Proc (Device × β) Fault Nat) (d : Device) (b : β)
    (Outcome : Nat → Device → Result Nat → β → Prop) : Prop :=
  x.RunsIf others.FinitelyInterrupted (d, b) fun r t =>
    ∃ n, others.Passed d n t.1 ∧ t.1.mem = d.mem ∧ Outcome n t.1 r t.2

theorem passed_one (others : Others) (d : Device) : others.Passed d 1 (d.after (others d.steps)) :=
  (Others.Passed.start others d).after rfl rfl fun _ _ => Or.inl

/-- The metadata is read once. -/
theorem metadata_runsIf {β : Type} {f : Nat → Proc (Device × β) Fault Nat} {C : Prop} {d : Device}
    {b : β} {Post : Result Nat → Device × β → Prop}
    (hFail : ∀ e, (others d.steps).outcome = .fail e →
      Post (.error (.err (.os e))) (d.after (others d.steps), b))
    (hNext : (f d.content.bytes.length).RunsIf C (d.after (others d.steps), b) Post) :
    (Proc.onFst others.metadataLen >>= f).RunsIf C (d, b) Post := by
  apply Proc.RunsIf.bind
  apply Proc.RunsIf.onFst
  exact (call_wp hFail fun _ => hNext).runsIf C

/-- **`read_to_end_at`.** -/
theorem readToEndAt_outcome (hReads : Reads others readExactAt) (ptr offset : Nat) (d : Device)
    (v : Vec) :
    Accounted others (readToEndAt others.metadataLen (view.lend ptr readExactAt) offset) d v
      (VecOutcome others d offset v) := by
  refine Proc.RunsIf.exists_bound fun N => ?_
  have hSize := d.content.len_le
  have hFits := d.content.add_len_lt v
  have hPassed := passed_one others d
  refine metadata_runsIf (fun e hOutcome => ⟨1, hPassed, rfl, .unknown hOutcome⟩) ?_
  rcases Nat.lt_or_ge d.content.bytes.length offset with hBefore | hLe
  · simp only [checkedSub_of_lt hBefore]
    exact (Proc.wp_pure ⟨1, hPassed, rfl, .before hBefore⟩).runsIf _
  simp only [checkedSub_of_le hLe]
  have hSum : saturatingAdd v.len (d.content.bytes.length - offset) =
      v.len + (d.content.bytes.length - offset) := saturatingAdd_of_lt (by omega)
  apply Proc.RunsIf.bind
  refine Proc.wp.runsIf (Proc.wp_ofStep ?_) _
  rw [hSum]
  rcases hResize : v.resize (v.len + (d.content.bytes.length - offset)) with f | v₁
  · -- the vector cannot get as long
    obtain rfl := Vec.resize_error hResize
    refine ⟨1, hPassed, rfl, .tooLong hLe ?_⟩
    by_contra hShort
    obtain ⟨v', hOk⟩ := v.resize_of_le (Nat.not_lt.mp hShort)
    rw [hResize] at hOk
    exact absurd hOk (by simp)
  · have hLen : v₁.len = v.len + (d.content.bytes.length - offset) := Vec.len_resize hResize
    apply Proc.RunsIf.bind
    refine (lend_runsIf hReads ptr (show offset + v₁.len < 2 ^ 64 by omega) N _).mono ?_
    rintro r ⟨d', v'⟩ ⟨n, bytes, hTorn, hClosed⟩
    have hVec : v' = v₁.fill bytes := hTorn.vec
    have hIn := hTorn.readIn.later hPassed
    rw [hLen] at hClosed
    cases r with
    | ok u =>
      have hFull : bytes.length = v.len + (d.content.bytes.length - offset) := hClosed
      have hBytes : v'.bytes = bytes := by
        rw [hVec, Vec.fill_of_le (by omega), hLen, ← hFull, List.take_length]
      refine Proc.wp.runsIf (Proc.wp_pure ?_) _
      refine ⟨1 + n, hPassed.trans hTorn.passed, hTorn.mem, .filled hLe ?_ (hBytes ▸ hIn)⟩
      rw [← hFull, ← hBytes]
      rfl
    | error f =>
      have hFailed := (Closed.failed hClosed (Nat.le_trans hLe hSize)).later hPassed
      refine ⟨1 + n, hPassed.trans hTorn.passed, hTorn.mem, .torn hLe hFailed hIn ?_⟩
      show v'.bytes = _
      rw [hVec, Vec.fill_of_ge (by have := hFailed.short; omega), Vec.resize_grown hResize]

/-- **`read_to_string_at`.** -/
theorem readToStringAt_outcome (hReads : Reads others readExactAt) (ptr offset : Nat)
    (d : Device) (s : String) :
    Accounted others (readToStringAt others.metadataLen (view.lend ptr readExactAt) offset) d s
      (StringOutcome others d offset s) := by
  refine Proc.RunsIf.exists_bound fun N => ?_
  have hSize := d.content.len_le
  have hFits := d.content.add_len_lt Vec.new
  have hPassed := passed_one others d
  refine metadata_runsIf (fun e hOutcome => ⟨1, hPassed, rfl, .unknown hOutcome⟩) ?_
  rcases Nat.lt_or_ge d.content.bytes.length offset with hBefore | hLe
  · simp only [checkedSub_of_lt hBefore]
    exact (Proc.wp_pure ⟨1, hPassed, rfl, .before hBefore⟩).runsIf _
  simp only [checkedSub_of_le hLe]
  -- a file is not longer than a vector
  have hAlloc : d.content.bytes.length - offset ≤ isizeMax :=
    Nat.le_trans (Nat.sub_le ..) hSize
  obtain ⟨tmp, hZeroed⟩ : ∃ tmp, Vec.zeroed (d.content.bytes.length - offset) = .ok tmp :=
    Vec.new.resize_of_le hAlloc
  have hLen : tmp.len = d.content.bytes.length - offset := Vec.len_resize hZeroed
  apply Proc.RunsIf.bind
  refine Proc.wp.runsIf (Proc.wp_ofExcept ?_) _
  rw [hZeroed]
  apply Proc.RunsIf.bind
  refine Proc.RunsIf.onFst (Proc.RunsIf.withLocal
    ((lend_runsIf hReads ptr (show offset + tmp.len < 2 ^ 64 by omega) N _).mono ?_))
  rintro r ⟨d', v⟩ ⟨n, bytes, hTorn, hClosed⟩
  have hVec : v = tmp.fill bytes := hTorn.vec
  have hIn := hTorn.readIn.later hPassed
  have hAll := hPassed.trans hTorn.passed
  rw [hLen] at hClosed
  cases r with
  | error f =>
    have hFailed := (Closed.failed hClosed (Nat.le_trans hLe hSize)).later hPassed
    exact ⟨1 + n, hAll, hTorn.mem, .failed hLe hFailed hIn⟩
  | ok u =>
    have hFull : bytes.length = d.content.bytes.length - offset := hClosed
    have hBytes : v.bytes = bytes := by
      rw [hVec, Vec.fill_of_le (by omega), hLen, ← hFull, List.take_length]
    show Proc.RunsIf (Proc.ofExcept (fromUtf8 v) >>= _) _ (d', s) _
    apply Proc.RunsIf.bind
    refine Proc.wp.runsIf (Proc.wp_ofExcept ?_) _
    rcases hString : fromUtf8 v with f | added
    · have hNot : ¬ ValidUtf8 bytes := by
        intro hValid
        obtain ⟨added, hOk⟩ := fromUtf8_of_valid (v := v) (hBytes ▸ hValid)
        exact absurd (hString.symm.trans hOk) (by simp)
      obtain rfl : f = invalidUtf8 := fromUtf8_error hString
      exact ⟨1 + n, hAll, hTorn.mem, .notUtf8 hLe hFull hIn hNot⟩
    · have hAdded : asBytes added = bytes := (fromUtf8_ok hString).trans hBytes
      apply Proc.RunsIf.bind
      refine Proc.wp.runsIf (Proc.wp_ofStep ?_) _
      refine Proc.wp.runsIf (Proc.wp_pure ?_) _
      exact ⟨1 + n, hAll, hTorn.mem, .added hLe (hAdded ▸ hFull) (hAdded ▸ hIn)⟩

/-- **Reading to the end, whatever the others do.** Every run of the two functions, on both
systems, on a file that others truncate, extend and rewrite behind every call, with any
calls failing, is accounted for. -/
theorem read_to_end_outcomes (p : Profile) (others : Others) (d : Device) (ptr offset : Nat) :
    ((∀ v, Accounted others
        (readToEndAt others.metadataLen (view.lend ptr (RustStd.readExactAt p others.pread)) offset)
        d v (VecOutcome others d offset v)) ∧
      ∀ s, Accounted others
        (readToStringAt others.metadataLen (view.lend ptr (RustStd.readExactAt p others.pread))
          offset)
        d s (StringOutcome others d offset s)) ∧
    ∀ (H : Type) (base : Windows.Os Device H) (file : H),
      (∀ v, Accounted others
        (readToEndAt others.metadataLen
          (view.lend ptr (Windows.readExactAt (others.os base) file)) offset)
        d v (VecOutcome others d offset v)) ∧
      ∀ s, Accounted others
        (readToStringAt others.metadataLen
          (view.lend ptr (Windows.readExactAt (others.os base) file)) offset)
        d s (StringOutcome others d offset s) := by
  refine ⟨⟨readToEndAt_outcome (reads p others) ptr offset d,
    readToStringAt_outcome (reads p others) ptr offset d⟩, ?_⟩
  intro H base file
  exact ⟨readToEndAt_outcome (Windows.reads base file others) ptr offset d,
    readToStringAt_outcome (Windows.reads base file others) ptr offset d⟩

end SystemInterface.Shared
