import SystemInterface.Model.BufferLoop
import SystemInterface.Windows.Definitions

/-!
# SystemInterface — the loops as buffer loops

Each loop of `Model/Loops.lean`, and the one of `write_all_at` on Windows, with
the proof that it carries its buffers and its offset along as `BufferLoop`
asks. The vectored loops rest on `advance_eq`, the others on slicing the one
buffer; the loops that read single out `Ok(0)` as the end of the file, the
loops of `std` that write as `WriteZero`, and those of this crate that write
not at all.
-/

namespace SystemInterface

open Effect

-- ---------------------------------------------------------------------------
-- The steps of the loops
-- ---------------------------------------------------------------------------

theorem addOffset_of_lt {offset n : Nat} (h : offset + n < 2 ^ 64) :
    addOffset offset n = .ok (offset + n) := by
  unfold addOffset
  rw [checkedAdd_of_lt h]

theorem size_advanced_of_head {bufs : List Slice} {n : Nat} (hne : bufs.isEmpty = false)
    (h : n = 0 → HeadEmpty bufs) : size (advanced bufs n) < size bufs := by
  cases bufs with
  | nil => exact absurd hne (by simp)
  | cons buf bufs => exact size_advanced_lt fun hn => h hn buf rfl

/-- A list that starts with a non-empty buffer has nothing to skip. -/
theorem skipLeadingEmpties_of_headFull {bufs : List Slice} (h : HeadFull bufs) :
    skipLeadingEmpties bufs = bufs := by
  cases bufs with
  | nil => rfl
  | cons buf bufs =>
    have hbuf : 0 < buf.len := h buf rfl
    rw [skipLeadingEmpties, Slice.isEmpty_eq_false.mpr hbuf]
    rfl

theorem skipLeadingEmpties_advanced (bufs : List Slice) (n : Nat) :
    skipLeadingEmpties (advanced bufs n) = advanced bufs n :=
  skipLeadingEmpties_of_headFull (advanced_head bufs n)

theorem headFull_skipLeadingEmpties (bufs : List Slice) :
    HeadFull (skipLeadingEmpties bufs) := by
  rw [skipLeadingEmpties_eq]
  exact advanced_head bufs 0

theorem cells_skipLeadingEmpties (bufs : List Slice) :
    cells (skipLeadingEmpties bufs) = cells bufs := by
  rw [skipLeadingEmpties_eq, cells_advanced, List.drop_zero]

/-- With a non-empty buffer in front, a list that is not empty has bytes left. -/
theorem HeadFull.totalLen_pos {bufs : List Slice} (h : HeadFull bufs)
    (hne : bufs.isEmpty = false) : 0 < totalLen bufs := by
  cases bufs with
  | nil => exact absurd hne (by simp)
  | cons buf bufs =>
    have hbuf : 0 < buf.len := h buf rfl
    rw [totalLen_cons]
    omega

/-- A list that starts with a non-empty buffer and is not empty has a byte. -/
theorem HeadFull.cells_ne_nil {bufs : List Slice} (h : HeadFull bufs)
    (hne : bufs.isEmpty = false) : cells bufs ≠ [] := by
  intro hNil
  have hPos := h.totalLen_pos hne
  rw [← length_cells, hNil, List.length_nil] at hPos
  omega

theorem HeadFull.not_headEmpty {bufs : List Slice} (h : HeadFull bufs)
    (hne : bufs.isEmpty = false) : ¬ HeadEmpty bufs := by
  cases bufs with
  | nil => exact absurd hne (by simp)
  | cons buf bufs =>
    intro hEmpty
    have hFull : 0 < buf.len := h buf rfl
    have hZero : buf.len = 0 := hEmpty buf rfl
    omega

/-- Moving a byte leaves a shorter buffer. -/
theorem Slice.len_rest_lt {s : Slice} {n : Nat} (hne : s.isEmpty = false) (hn : n ≠ 0) :
    (s.rest n).len < s.len := by
  have := Slice.isEmpty_eq_false.mp hne
  show s.len - n < s.len
  omega

-- ---------------------------------------------------------------------------
-- Provided methods
-- ---------------------------------------------------------------------------

namespace FileIoExt.Default

def readExactVectoredAt.bufferLoop (p : Profile) : BufferLoop (List IoSliceMut × Nat) where
  transfer := readExactVectoredAt.transfer p
  addrs s := cells s.1
  offset s := some s.2
  zero := some failedToFill
  Ready s := HeadFull s.1
  MayZero _ := False
  size s := size s.1
  empty s h := by rw [List.isEmpty_iff.mp h, cells_nil]
  settle s h := by
    show (skipLeadingEmpties s.1, s.2) = s
    rw [skipLeadingEmpties_of_headFull h]
  onZero s f h := by
    obtain rfl := Option.some.inj h
    rfl
  onOk s n hne hReady hz hn hAdvance hOff := by
    have hn0 : n ≠ 0 := hz (by simp)
    rw [length_cells] at hAdvance
    refine ⟨(advanced s.1 n, s.2 + n), ?_, ?_⟩
    · simp only [readExactVectoredAt.transfer, if_neg hn0, addOffset_of_lt (hOff s.2 rfl),
        advanceMut, advance_eq p hAdvance, bind, Except.bind]
    · simp only [readExactVectoredAt.transfer, skipLeadingEmpties_advanced]
      exact ⟨advanced_head s.1 n, cells_advanced s.1 n, rfl,
        fun h => size_advanced_of_head hne fun h0 => (h h0).elim⟩

def writeAllAt.bufferLoop (p : Profile) : BufferLoop (Slice × Nat) where
  transfer := writeAllAt.transfer p
  addrs s := s.1.addrs
  offset s := some s.2
  zero := none
  Ready _ := True
  MayZero _ := False
  size s := s.1.len
  empty s h := Slice.addrs_of_isEmpty h
  settle _ _ := rfl
  onZero _ _ h := absurd h (by simp)
  onOk s n hne _ _ hn _ hOff := by
    rw [Slice.length_addrs] at hn
    refine ⟨(s.1.rest n, s.2 + n), ?_, trivial, Slice.addrs_rest, rfl, ?_⟩
    · simp only [writeAllAt.transfer, Slice.sliceFrom_of_le hn, p.add_of_lt (hOff s.2 rfl),
        bind, Except.bind]
    · exact fun h => Slice.len_rest_lt hne fun h0 => h h0

def writeAllVectoredAt.bufferLoop (p : Profile) : BufferLoop (List IoSlice × Nat) where
  transfer := writeAllVectoredAt.transfer p
  addrs s := cells s.1
  offset s := some s.2
  zero := none
  Ready _ := True
  MayZero s := HeadEmpty s.1
  size s := size s.1
  empty s h := by rw [List.isEmpty_iff.mp h, cells_nil]
  settle _ _ := rfl
  onZero _ _ h := absurd h (by simp)
  onOk s n hne _ _ hn hAdvance hOff := by
    rw [length_cells] at hAdvance
    refine ⟨(advanced s.1 n, s.2 + n), ?_, trivial, cells_advanced s.1 n, rfl, ?_⟩
    · simp only [writeAllVectoredAt.transfer, addOffset_of_lt (hOff s.2 rfl),
        advance_eq p hAdvance, bind, Except.bind]
    · exact fun h => size_advanced_of_head hne h

def appendAll.bufferLoop : BufferLoop Slice where
  transfer := appendAll.transfer
  addrs buf := buf.addrs
  offset _ := none
  zero := none
  Ready _ := True
  MayZero _ := False
  size buf := buf.len
  empty buf h := Slice.addrs_of_isEmpty h
  settle _ _ := rfl
  onZero _ _ h := absurd h (by simp)
  onOk buf n hne _ _ hn _ _ := by
    rw [Slice.length_addrs] at hn
    exact ⟨buf.rest n, Slice.sliceFrom_of_le hn, trivial, Slice.addrs_rest, rfl,
      fun h => Slice.len_rest_lt hne fun h0 => h h0⟩

def appendAllVectored.bufferLoop (p : Profile) : BufferLoop (List IoSlice) where
  transfer := appendAllVectored.transfer p
  addrs bufs := cells bufs
  offset _ := none
  zero := none
  Ready _ := True
  MayZero bufs := HeadEmpty bufs
  size bufs := size bufs
  empty bufs h := by rw [List.isEmpty_iff.mp h, cells_nil]
  settle _ _ := rfl
  onZero _ _ h := absurd h (by simp)
  onOk bufs n hne _ _ _ hAdvance _ := by
    rw [length_cells] at hAdvance
    exact ⟨advanced bufs n, advance_eq p hAdvance, trivial, cells_advanced bufs n, rfl,
      fun h => size_advanced_of_head hne h⟩

end FileIoExt.Default

namespace IoExt.Default

def readExactVectored.bufferLoop (p : Profile) : BufferLoop (List IoSliceMut) where
  transfer := readExactVectored.transfer p
  addrs bufs := cells bufs
  offset _ := none
  zero := some failedToFill
  Ready bufs := HeadFull bufs
  MayZero _ := False
  size bufs := size bufs
  empty bufs h := by rw [List.isEmpty_iff.mp h, cells_nil]
  settle bufs h := skipLeadingEmpties_of_headFull h
  onZero bufs f h := by
    obtain rfl := Option.some.inj h
    rfl
  onOk bufs n hne hReady hz hn hAdvance _ := by
    have hn0 : n ≠ 0 := hz (by simp)
    rw [length_cells] at hAdvance
    refine ⟨advanced bufs n, ?_, ?_⟩
    · simp only [readExactVectored.transfer, if_neg hn0, advanceMut, advance_eq p hAdvance]
    · simp only [readExactVectored.transfer, skipLeadingEmpties_advanced]
      exact ⟨advanced_head bufs n, cells_advanced bufs n, rfl,
        fun h => size_advanced_of_head hne fun h0 => (h h0).elim⟩

def writeAllVectored.bufferLoop (p : Profile) : BufferLoop (List IoSlice) :=
  FileIoExt.Default.appendAllVectored.bufferLoop p

end IoExt.Default

-- ---------------------------------------------------------------------------
-- Loops of `std`
-- ---------------------------------------------------------------------------

namespace RustStd

def readExact.bufferLoop : BufferLoop Slice where
  transfer := readExact.transfer
  addrs buf := buf.addrs
  offset _ := none
  zero := some failedToFill
  Ready _ := True
  MayZero _ := False
  size buf := buf.len
  empty buf h := Slice.addrs_of_isEmpty h
  settle _ _ := rfl
  onZero buf f h := by
    obtain rfl := Option.some.inj h
    rfl
  onOk buf n hne _ hz hn _ _ := by
    have hn0 : n ≠ 0 := hz (by simp)
    rw [Slice.length_addrs] at hn
    refine ⟨buf.rest n, ?_, trivial, Slice.addrs_rest, rfl, fun _ => Slice.len_rest_lt hne hn0⟩
    simp only [readExact.transfer, if_neg hn0, Slice.sliceFrom_of_le hn]

/-- The positional loops of `std` differ only in what they make of `Ok(0)`. -/
private theorem onOk_positional (p : Profile) {f : Fault} {s : Slice × Nat} {n : Nat}
    (hn0 : n ≠ 0) (hn : n ≤ s.1.len) (hOff : s.2 + n < 2 ^ 64) :
    (if n = 0 then Except.error f
      else do
        let buf ← s.1.sliceFrom n
        let offset ← p.add s.2 n
        Except.ok (buf, offset)) = (.ok (s.1.rest n, s.2 + n) : Result (Slice × Nat)) := by
  simp only [if_neg hn0, Slice.sliceFrom_of_le hn, p.add_of_lt hOff, bind, Except.bind]

def readExactAt.bufferLoop (p : Profile) : BufferLoop (Slice × Nat) where
  transfer := readExactAt.transfer p
  addrs s := s.1.addrs
  offset s := some s.2
  zero := some failedToFill
  Ready _ := True
  MayZero _ := False
  size s := s.1.len
  empty s h := Slice.addrs_of_isEmpty h
  settle _ _ := rfl
  onZero s f h := by
    obtain rfl := Option.some.inj h
    rfl
  onOk s n hne _ hz hn _ hOff := by
    have hn0 : n ≠ 0 := hz (by simp)
    rw [Slice.length_addrs] at hn
    exact ⟨(s.1.rest n, s.2 + n), onOk_positional p hn0 hn (hOff s.2 rfl), trivial,
      Slice.addrs_rest, rfl, fun _ => Slice.len_rest_lt hne hn0⟩

def writeAllAt.bufferLoop (p : Profile) : BufferLoop (Slice × Nat) where
  transfer := writeAllAt.transfer p
  addrs s := s.1.addrs
  offset s := some s.2
  zero := some failedToWrite
  Ready _ := True
  MayZero _ := False
  size s := s.1.len
  empty s h := Slice.addrs_of_isEmpty h
  settle _ _ := rfl
  onZero s f h := by
    obtain rfl := Option.some.inj h
    rfl
  onOk s n hne _ hz hn _ hOff := by
    have hn0 : n ≠ 0 := hz (by simp)
    rw [Slice.length_addrs] at hn
    exact ⟨(s.1.rest n, s.2 + n), onOk_positional p hn0 hn (hOff s.2 rfl), trivial,
      Slice.addrs_rest, rfl, fun _ => Slice.len_rest_lt hne hn0⟩

end RustStd

-- ---------------------------------------------------------------------------
-- Windows
-- ---------------------------------------------------------------------------

namespace Windows

def writeAllAt.bufferLoop (p : Profile) : BufferLoop (Slice × Nat) where
  transfer := writeAllAt.transfer p
  addrs s := s.1.addrs
  offset s := some s.2
  zero := none
  Ready _ := True
  MayZero _ := False
  size s := s.1.len
  empty s h := Slice.addrs_of_isEmpty h
  settle _ _ := rfl
  onZero _ _ h := absurd h (by simp)
  onOk s n hne _ _ hn _ hOff := by
    rw [Slice.length_addrs] at hn
    refine ⟨(s.1.rest n, s.2 + n), ?_, trivial, Slice.addrs_rest, rfl, ?_⟩
    · simp only [writeAllAt.transfer, Slice.sliceFrom_of_le hn, p.add_of_lt (hOff s.2 rfl),
        bind, Except.bind]
    · exact fun h => Slice.len_rest_lt hne fun h0 => h h0

end Windows

end SystemInterface
