import SystemInterface.Model.ToEnd
import SystemInterface.Unix.Files
import SystemInterface.Windows.Files

/-!
# SystemInterface — reading to the end, on both systems

Both implementations take the number of bytes to read from the metadata, once.
If that falls short of the end that the file has when it is read (a file that
has grown meanwhile, or one whose metadata does not tell its length), the rest
is left out and the result is `Ok` all the same.

Main results:

* `Unix.fillsExactly`, `Windows.fillsExactly` — the reads that the functions are
  built on;
* `read_to_end_complete_iff` — when the results are complete, exactly;
* `read_to_end_appends_iff` — when a vector keeps what it holds.
-/

namespace SystemInterface

open Effect

namespace Unix

/-- The file, as the owner of the description sees it. -/
def view : View Kernel where
  file k := k.machine.file
  setMem k m := { k with machine := { k.machine with mem := m } }
  file_setMem _ _ := rfl

theorem fillsExactly (p : Profile) {env : Env} (hCalm : env.Calm) (d : Desc) :
    FillsExactly view (Kept d) (file p env).readExactAt where
  setMem _ _ hKept := hKept
  read buf _ _ hKept hFits :=
    (readExactAt_wp p hCalm hKept buf hFits).mono fun _ _ hPost => ⟨hPost.2, Or.inl hPost.1⟩

end Unix

namespace Windows

/-- The file, as the owner of the handle sees it. -/
def view (h : Nat) : View World where
  file w := w.file h
  setMem w m := { w with mem := m }
  file_setMem _ _ := rfl

theorem fillsExactly (p : Profile) {env : Env} {N : Nat} (hN : env.InterruptedBefore N) (h : Nat)
    (hd : Handle) : FillsExactly (view h) (Own h hd) (file p env h).readExactAt where
  setMem _ _ hOwn := ⟨hOwn.opened, hOwn.handle⟩
  read buf offset w hOwn _ := by
    apply (readExactAt_wp p hN hOwn buf offset).mono
    rintro r w' ⟨hEq, hOwn'⟩
    refine ⟨hOwn', ?_⟩
    unfold readExactOr at hEq
    by_cases hMax : offset ≤ i64Max
    · rw [if_pos hMax] at hEq
      exact Or.inl hEq
    · rw [if_neg hMax] at hEq
      obtain ⟨rfl, hFile⟩ := Prod.mk.inj hEq
      exact Or.inr ⟨Nat.not_le.mp hMax, hFile, negativeSeek, rfl⟩

end Windows

-- ---------------------------------------------------------------------------
-- Complete results
-- ---------------------------------------------------------------------------

/-- **When reading to the end reads to the end.** Let the metadata say `size`,
and let the file have any content by the time it is read. Into an empty vector,
the results are complete unless the metadata falls short of an end past the
offset; onto a string, unless in addition the bytes that it promises are valid
UTF-8. -/
theorem read_to_end_complete_iff (p : Profile) {size : Nat} (hSize : size < 2 ^ 64)
    (ptr offset : Nat) :
    (∀ (env : Unix.Env) (k k₁ : Unix.Kernel) (metadataLen : Proc Unix.Kernel Fault Nat),
      env.Calm → metadataLen.Returns k (.ok size) k₁ → k₁.machine.content.length ≤ i64Max →
      (VecComplete
          (readToEndAt metadataLen (Unix.view.lend ptr (Unix.file p env).readExactAt) offset)
          k k₁.machine.content offset ↔ ¬ FallsShort k₁.machine.content size offset) ∧
      (StringComplete
          (readToStringAt metadataLen (Unix.view.lend ptr (Unix.file p env).readExactAt) offset)
          k k₁.machine.content offset ↔
        ¬ (FallsShort k₁.machine.content size offset ∧ (size < offset ∨
          ValidUtf8 ((k₁.machine.content.drop offset).take (size - offset)))))) ∧
    (∀ (env : Windows.Env) (h : Nat) (w w₁ : Windows.World)
        (metadataLen : Proc Windows.World Fault Nat),
      env.FinitelyInterrupted → h < w₁.opened → metadataLen.Returns w (.ok size) w₁ →
      w₁.content.length ≤ i64Max →
      (VecComplete
          (readToEndAt metadataLen ((Windows.view h).lend ptr (Windows.file p env h).readExactAt)
            offset)
          w w₁.content offset ↔ ¬ FallsShort w₁.content size offset) ∧
      (StringComplete
          (readToStringAt metadataLen
            ((Windows.view h).lend ptr (Windows.file p env h).readExactAt) offset)
          w w₁.content offset ↔
        ¬ (FallsShort w₁.content size offset ∧ (size < offset ∨
          ValidUtf8 ((w₁.content.drop offset).take (size - offset)))))) := by
  refine ⟨fun env k k₁ metadataLen hCalm hMetadata hContent => ?_,
    fun env h w w₁ metadataLen hFinite hOpened hMetadata hContent => ?_⟩
  · have hRead := Unix.fillsExactly p hCalm k₁.machine.desc
    exact ⟨hRead.vec_complete_iff hMetadata rfl hSize hContent ptr offset,
      hRead.string_complete_iff hMetadata rfl hSize hContent ptr offset⟩
  · obtain ⟨N, hN⟩ := hFinite
    have hRead := Windows.fillsExactly p hN h (w₁.handles h)
    have hOwn : Windows.Own h (w₁.handles h) w₁ := ⟨hOpened, rfl⟩
    exact ⟨hRead.vec_complete_iff hMetadata hOwn hSize hContent ptr offset,
      hRead.string_complete_iff hMetadata hOwn hSize hContent ptr offset⟩

/-- A file of one byte, of which the metadata says that it is empty. -/
def pseudoFile : Unix.Kernel := ⟨⟨fun _ => 0, [7], ⟨0, 0⟩⟩, []⟩

theorem calm_one : Unix.Env.Calm fun _ _ => .go 1 := fun _ _ => Or.inl ⟨1, rfl⟩

theorem read_to_end_complete_iff_pseudo_file :
    ¬ VecComplete
      (readToEndAt (pure 0) (Unix.view.lend 0 (Unix.file .debug fun _ _ => .go 1).readExactAt) 0)
      pseudoFile [7] 0 := by
  have hIff := ((read_to_end_complete_iff .debug (show 0 < 2 ^ 64 by decide) 0 0).1
    (fun _ _ => .go 1) pseudoFile pseudoFile (pure 0) calm_one
    (Proc.returns_pure.mpr ⟨rfl, rfl⟩) (by decide)).1
  exact fun hAll => hIff.mp hAll ⟨by decide, by decide⟩

/-- The vector stays empty, with a byte left in the file. -/
theorem read_to_end_leaves_a_byte :
    ¬ ∀ (p : Profile) (env : Unix.Env) (k k₁ : Unix.Kernel)
      (metadataLen : Proc Unix.Kernel Fault Nat) (size ptr offset : Nat), size < 2 ^ 64 →
      env.Calm → metadataLen.Returns k (.ok size) k₁ → k₁.machine.content.length ≤ i64Max →
      VecComplete
        (readToEndAt metadataLen (Unix.view.lend ptr (Unix.file p env).readExactAt) offset)
        k k₁.machine.content offset := by
  intro h
  have hComplete := h .debug (fun _ _ => .go 1) pseudoFile pseudoFile (pure 0) 0 0 0 (by decide)
    calm_one (Proc.returns_pure.mpr ⟨rfl, rfl⟩) (by decide)
  have hRun : ∃ t, (readToEndAt (pure 0)
      (Unix.view.lend 0 (Unix.file .debug fun _ _ => .go 1).readExactAt) 0).Returns
        (pseudoFile, Vec.new) (.ok 0) t := ⟨_, 1, rfl⟩
  obtain ⟨t, hRun⟩ := hRun
  exact absurd (hComplete 0 t hRun).1 (by decide)

-- ---------------------------------------------------------------------------
-- Vectors that hold bytes already
-- ---------------------------------------------------------------------------

/-- **When reading to the end appends.** Let the metadata say what the file holds,
and let the enlarged vector be allocated. What there is from the offset on is
appended to a vector if it is empty, and to any other one only from an offset
past the end. -/
theorem read_to_end_appends_iff (p : Profile) (ptr offset : Nat) (v : Vec) :
    (∀ (env : Unix.Env) (k k₁ : Unix.Kernel) (metadataLen : Proc Unix.Kernel Fault Nat),
      env.Calm → metadataLen.Returns k (.ok k₁.machine.content.length) k₁ →
      k₁.machine.content.length ≤ i64Max →
      v.len + (k₁.machine.content.length - offset) ≤ isizeMax →
      (Appends
          (readToEndAt metadataLen (Unix.view.lend ptr (Unix.file p env).readExactAt) offset)
          k v k₁.machine.content offset ↔
        (v.bytes = [] ∨ k₁.machine.content.length < offset))) ∧
    (∀ (env : Windows.Env) (h : Nat) (w w₁ : Windows.World)
        (metadataLen : Proc Windows.World Fault Nat),
      env.FinitelyInterrupted → h < w₁.opened →
      metadataLen.Returns w (.ok w₁.content.length) w₁ → w₁.content.length ≤ i64Max →
      v.len + (w₁.content.length - offset) ≤ isizeMax →
      (Appends
          (readToEndAt metadataLen ((Windows.view h).lend ptr (Windows.file p env h).readExactAt)
            offset)
          w v w₁.content offset ↔
        (v.bytes = [] ∨ w₁.content.length < offset))) := by
  constructor
  · intro env k k₁ metadataLen hCalm hMetadata hContent hAlloc
    have hRead := Unix.fillsExactly p hCalm k₁.machine.desc
    exact hRead.appends_iff hMetadata rfl hContent ptr offset v hAlloc
  · intro env h w w₁ metadataLen hFinite hOpened hMetadata hContent hAlloc
    obtain ⟨N, hN⟩ := hFinite
    have hRead := Windows.fillsExactly p hN h (w₁.handles h)
    have hOwn : Windows.Own h (w₁.handles h) w₁ := ⟨hOpened, rfl⟩
    exact hRead.appends_iff hMetadata hOwn hContent ptr offset v hAlloc

/-- A vector of one byte. -/
def oneByte : Vec := ⟨[9], by decide⟩

theorem read_to_end_appends_iff_one_byte :
    ¬ Appends
      (readToEndAt (pure 1) (Unix.view.lend 0 (Unix.file .debug fun _ _ => .go 1).readExactAt) 0)
      pseudoFile oneByte [7] 0 := by
  have hIff := (read_to_end_appends_iff .debug 0 0 oneByte).1
    (fun _ _ => .go 1) pseudoFile pseudoFile (pure 1) calm_one
    (Proc.returns_pure.mpr ⟨rfl, rfl⟩) (by decide) (by decide)
  exact fun hAppends => absurd (hIff.mp hAppends) (by decide)

/-- The byte of the file takes the place of the one in the vector, and the call
fails. -/
theorem read_to_end_overwrites :
    ¬ ∀ (p : Profile) (env : Unix.Env) (k k₁ : Unix.Kernel)
      (metadataLen : Proc Unix.Kernel Fault Nat) (ptr offset : Nat) (v : Vec), env.Calm →
      metadataLen.Returns k (.ok k₁.machine.content.length) k₁ →
      k₁.machine.content.length ≤ i64Max →
      v.len + (k₁.machine.content.length - offset) ≤ isizeMax →
      Appends
        (readToEndAt metadataLen (Unix.view.lend ptr (Unix.file p env).readExactAt) offset)
        k v k₁.machine.content offset := by
  intro hAll
  have hAppends := hAll .debug (fun _ _ => .go 1) pseudoFile pseudoFile (pure 1) 0 0 oneByte
    calm_one (Proc.returns_pure.mpr ⟨rfl, rfl⟩) (by decide) (by decide)
  obtain ⟨t, hRun, -⟩ := hAppends
  have hFails : ∃ t, (readToEndAt (pure 1)
      (Unix.view.lend 0 (Unix.file .debug fun _ _ => .go 1).readExactAt) 0).Returns
        (pseudoFile, oneByte) (.error failedToFill) t ∧ t.2.bytes = [7, 0] := ⟨_, ⟨3, rfl⟩, rfl⟩
  obtain ⟨t', hRun', -⟩ := hFails
  exact absurd (hRun.det hRun').1 (by simp)

end SystemInterface
