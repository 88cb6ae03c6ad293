import SystemInterface.Device.Writes

/-!
# SystemInterface — writers that accept nothing

`std::io::Write::write_all` reports `WriteZero` when the writer answers `Ok(0)`.
The write-everything loops of this crate do not look at the count: once the
writer answers `Ok(0)` for good, with bytes left, they call it for ever.

A lawful `Ok(0)` is another matter: in front of empty buffers it is progress,
and the vectored loops end in `Ok`.

Main result:

* `write_all_hangs` — six loops on a stuck writer, and three on a lawful one.
-/

namespace SystemInterface

open Effect

variable {σ H S : Type}

/-- The loop, started in `s`, comes to a turn with something left from which
on the operation answers `Ok(0)` for good. -/
def GetsStuck (t : Transfer S Fault) (call : S → Proc σ Fault Nat) (Left : S → Prop)
    (s : S) (w : σ) : Prop :=
  ∃ (Stuck : σ → Prop) (d : S × σ),
    (∀ s v, Stuck v → ∃ v', (call s).Returns v (.ok 0) v' ∧ Stuck v') ∧
    Proc.Reaches (t.turn call) (s, w) d ∧ Stuck d.2 ∧ Left d.1

/-- A buffer with bytes left, at an offset of type `u64`. -/
def BytesLeftAt (s : Slice × Nat) : Prop := s.1.len ≠ 0 ∧ s.2 < 2 ^ 64

/-- Buffers with bytes left, at an offset of type `u64`. -/
def VecBytesLeftAt (s : List IoSlice × Nat) : Prop := totalLen s.1 ≠ 0 ∧ s.2 < 2 ^ 64

/-- A loop that does not single out `Ok(0)` does not return from a writer that
gets stuck. -/
theorem BufferLoop.hangs {l : BufferLoop S} {call : S → Proc σ Fault Nat} {Left : S → Prop}
    {s : S} {w : σ} (hZero : l.zero = none) (hReady : ∀ s, l.Ready s)
    (hLeft : ∀ s, Left s → l.addrs s ≠ [] ∧ ∀ o ∈ l.offset s, o < 2 ^ 64)
    (h : GetsStuck l.transfer call Left s w) : (l.transfer.run call s).Diverges w := by
  obtain ⟨Stuck, d, hCall, hReach, hStuck, hL⟩ := h
  have hBytes := hLeft d.1 hL
  exact l.stuck hZero (fun s v _ hv => hCall s v hv) hReach hStuck (hReady d.1) hBytes.2
    hBytes.1

theorem bytesLeftAt_spec (s : Slice × Nat) (h : BytesLeftAt s) :
    s.1.addrs ≠ [] ∧ ∀ o ∈ some s.2, o < 2 ^ 64 := by
  refine ⟨Slice.addrs_ne_nil h.1, fun o ho => ?_⟩
  rw [← Option.mem_some_iff.mp ho]
  exact h.2

theorem vecBytesLeftAt_spec (s : List IoSlice × Nat) (h : VecBytesLeftAt s) :
    cells s.1 ≠ [] ∧ ∀ o ∈ some s.2, o < 2 ^ 64 := by
  refine ⟨cells_ne_nil h.1, fun o ho => ?_⟩
  rw [← Option.mem_some_iff.mp ho]
  exact h.2

/-- A sequence whose first part succeeds runs for ever with its second part. -/
theorem diverges_bind_of_ok {α β : Type} {x : Proc σ Fault α} {f : α → Proc σ Fault β}
    {w w₁ : σ} {a : α} (hx : x.Returns w (.ok a) w₁) (hf : (f a).Diverges w₁) :
    (x >>= f).Diverges w := by
  rw [Proc.diverges_iff] at hf ⊢
  intro r w' hr
  exact hf r w' ((Proc.returns_bind_of_ok hx).mp hr)

/-- A write loop ends in `Ok` if the device never fails for good. -/
theorem WritesEverything.ok {write : Proc Device Fault Unit} {script : Nat → Answer}
    {o : Option Nat} {data : List UInt8} {d : Device}
    (h : WritesEverything write script o data d) (hTransient : OnlyTransient script)
    (hFinite : FinitelyInterrupted script) : ∃ d', write.Returns d (.ok ()) d' := by
  obtain ⟨r, d', hr⟩ := h.1 hFinite
  obtain ⟨answers, hReport⟩ := h.2 r d' hr
  have hOk : r = .ok () := hReport.ok_iff.mpr (hReport.follows.onlyInterrupted hTransient)
  exact ⟨d', hOk ▸ hr⟩

/-- **Writing to a stuck writer.** Each of the six loops that comes to a
writer answering `Ok(0)` for good, with bytes left, runs for ever. On a writer
that answers `Ok(0)` only to empty buffers, and fails only transiently and
finitely often, the vectored loops end in `Ok` for every list of buffers. -/
theorem write_all_hangs (p : Profile) :
    (∀ (writeAt : Slice → Nat → Proc σ Fault Nat) (buf : Slice) (offset : Nat) (w : σ),
      GetsStuck (FileIoExt.Default.writeAllAt.transfer p) (fun s => writeAt s.1 s.2) BytesLeftAt
        (buf, offset) w →
      (FileIoExt.Default.writeAllAt p writeAt buf offset).Diverges w) ∧
    (∀ (writeVectoredAt : List IoSlice → Nat → Proc σ Fault Nat) (bufs : List IoSlice)
        (offset : Nat) (w : σ),
      GetsStuck (FileIoExt.Default.writeAllVectoredAt.transfer p)
        (fun s => writeVectoredAt s.1 s.2) VecBytesLeftAt (bufs, offset) w →
      (FileIoExt.Default.writeAllVectoredAt p writeVectoredAt bufs offset).Diverges w) ∧
    (∀ (append : Slice → Proc σ Fault Nat) (buf : Slice) (w : σ),
      GetsStuck FileIoExt.Default.appendAll.transfer append (fun buf => buf.len ≠ 0) buf w →
      (FileIoExt.Default.appendAll append buf).Diverges w) ∧
    (∀ (appendVectored : List IoSlice → Proc σ Fault Nat) (bufs : List IoSlice) (w : σ),
      GetsStuck (FileIoExt.Default.appendAllVectored.transfer p) appendVectored
        (fun bufs => totalLen bufs ≠ 0) bufs w →
      (FileIoExt.Default.appendAllVectored p appendVectored bufs).Diverges w) ∧
    (∀ (writeVectored : List IoSlice → Proc σ Fault Nat) (bufs : List IoSlice) (w : σ),
      GetsStuck (IoExt.Default.writeAllVectored.transfer p) writeVectored
        (fun bufs => totalLen bufs ≠ 0) bufs w →
      (IoExt.Default.writeAllVectored p writeVectored bufs).Diverges w) ∧
    (∀ (os : Windows.Os σ H) (file reopened : H) (buf : Slice) (offset : Nat) (w w₁ : σ),
      (os.reopenWrite file).Returns w (.ok reopened) w₁ →
      GetsStuck (Windows.writeAllAt.transfer p) (fun s => os.seekWrite reopened s.1 s.2)
        BytesLeftAt (buf, offset) w₁ →
      (Windows.writeAllAt p os file buf offset).Diverges w) ∧
    (∀ (kind : Vectored) (script : Nat → Answer) (bufs : List IoSlice) (d : Device),
      OnlyTransient script → FinitelyInterrupted script →
      (∀ offset, offset + totalLen bufs < 2 ^ 64 →
        ∃ d', (FileIoExt.Default.writeAllVectoredAt p (kind.writeVectoredAt script) bufs
          offset).Returns d (.ok ()) d') ∧
      (totalLen bufs < 2 ^ 64 →
        (∃ d', (FileIoExt.Default.appendAllVectored p (kind.writeVectored script)
          bufs).Returns d (.ok ()) d') ∧
        (∃ d', (IoExt.Default.writeAllVectored p (kind.writeVectored script)
          bufs).Returns d (.ok ()) d'))) := by
  refine ⟨fun writeAt buf offset w h => ?_, fun writeVectoredAt bufs offset w h => ?_,
    fun append buf w h => ?_, fun appendVectored bufs w h => ?_, fun writeVectored bufs w h => ?_,
    fun os file reopened buf offset w w₁ hOpen h => ?_, fun kind script bufs d hT hF => ?_⟩
  · exact BufferLoop.hangs (l := FileIoExt.Default.writeAllAt.bufferLoop p) rfl
      (fun _ => trivial) bytesLeftAt_spec h
  · exact BufferLoop.hangs (l := FileIoExt.Default.writeAllVectoredAt.bufferLoop p) rfl
      (fun _ => trivial) vecBytesLeftAt_spec h
  · exact BufferLoop.hangs (l := FileIoExt.Default.appendAll.bufferLoop) rfl
      (fun _ => trivial)
      (fun _ hL => ⟨Slice.addrs_ne_nil hL, fun _ ho => absurd ho (Option.not_mem_none _)⟩) h
  · exact BufferLoop.hangs (l := FileIoExt.Default.appendAllVectored.bufferLoop p) rfl
      (fun _ => trivial)
      (fun _ hL => ⟨cells_ne_nil hL, fun _ ho => absurd ho (Option.not_mem_none _)⟩) h
  · exact BufferLoop.hangs (l := IoExt.Default.writeAllVectored.bufferLoop p) rfl
      (fun _ => trivial)
      (fun _ hL => ⟨cells_ne_nil hL, fun _ ho => absurd ho (Option.not_mem_none _)⟩) h
  · exact diverges_bind_of_ok hOpen (BufferLoop.hangs (l := Windows.writeAllAt.bufferLoop p) rfl
      (fun _ => trivial) bytesLeftAt_spec h)
  · refine ⟨fun offset hFits => ?_, fun hTotal => ?_⟩
    · exact (writeAllVectoredAt_writesEverything p kind script bufs hFits d).ok hT hF
    · have hWrites := writeAllVectored_writesEverything p kind script bufs hTotal d
      exact ⟨hWrites.ok hT hF, hWrites.ok hT hF⟩

/-- A writer that accepts nothing, on one byte behind an empty buffer; and one
that is interrupted once, on two empty buffers. -/
theorem write_all_hangs_zero_writer :
    (FileIoExt.Default.writeAllVectoredAt .debug (fun _ _ => (pure 0 : Proc Unit Fault Nat))
      [⟨0, 0, by decide⟩, ⟨16, 1, by decide⟩] 0).Diverges () ∧
    ∃ d', (IoExt.Default.writeAllVectored .debug
      (Vectored.window.writeVectored fun i => if i = 0 then .fail (.os .INTR) else .moved 1 1)
      [⟨0, 0, by decide⟩, ⟨0, 0, by decide⟩]).Returns ⟨fun _ => 0, [], 0, []⟩ (.ok ()) d' := by
  have hTransient : OnlyTransient fun i => if i = 0 then .fail (.os .INTR) else .moved 1 1 := by
    intro i e
    grind [IoError.kind, Errno.kind]
  have hFinite : FinitelyInterrupted
      fun i => if i = 0 then .fail (.os .INTR) else .moved 1 1 := by
    apply Set.Finite.subset (Set.finite_singleton 0)
    intro i hi
    grind
  refine ⟨?_, ?_⟩
  · exact (write_all_hangs (H := Unit) .debug).2.1 _ _ 0 ()
      ⟨fun _ => True, (([⟨0, 0, by decide⟩, ⟨16, 1, by decide⟩], 0), ()),
        fun _ _ _ => ⟨(), by simp, trivial⟩, .refl, trivial, by decide, by decide⟩
  · exact ((((write_all_hangs (σ := Unit) (H := Unit) .debug).2.2.2.2.2.2 .window _
      [⟨0, 0, by decide⟩, ⟨0, 0, by decide⟩] ⟨fun _ => 0, [], 0, []⟩ hTransient hFinite).2
      (by decide)).2)

/-- One byte, and a writer that accepts none. -/
theorem write_all_at_hangs_on_zero :
    ¬ ∃ r w, (FileIoExt.Default.writeAllAt .debug (fun _ _ => (pure 0 : Proc Unit Fault Nat))
      ⟨16, 1, by decide⟩ 0).Returns () r w := by
  rintro ⟨r, w, hr⟩
  have hNever : (FileIoExt.Default.writeAllAt .debug
      (fun _ _ => (pure 0 : Proc Unit Fault Nat)) ⟨16, 1, by decide⟩ 0).Diverges () :=
    BufferLoop.hangs (l := FileIoExt.Default.writeAllAt.bufferLoop .debug) rfl
      (fun _ => trivial) bytesLeftAt_spec
      ⟨fun _ => True, ((⟨16, 1, by decide⟩, 0), ()), fun _ _ _ => ⟨(), by simp, trivial⟩, .refl,
        trivial, by decide, by decide⟩
  exact Proc.diverges_iff.mp hNever r w hr

end SystemInterface
