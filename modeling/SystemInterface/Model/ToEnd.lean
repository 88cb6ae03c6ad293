import SystemInterface.Lib.Scope
import SystemInterface.Model.FileState

/-!
# SystemInterface — reading to the end

The functions `read_to_end_at` and `read_to_string_at`. Both take the number of
bytes to read from the file's metadata and read exactly as many; a vector is
part of the state, and is lent to `read_exact_at` as a buffer in memory.

Main results:

* `FillsExactly.lend` — what `read_exact_at` does to the vector;
* `readToEndAt_wp`, `readToStringAt_wp` — what the functions do;
* `FillsExactly.vec_complete_iff`, `FillsExactly.string_complete_iff` — when every
  result `Ok(n)` stands for all of the file's bytes from the offset on;
* `FillsExactly.appends_iff` — when these bytes are put behind those of the vector.
-/

namespace SystemInterface

open Effect

variable {σ : Type}

-- ---------------------------------------------------------------------------
-- Vectors
-- ---------------------------------------------------------------------------

/-- `Vec<u8>`: it never holds more than `isize::MAX` bytes. -/
structure Vec where
  bytes : List UInt8
  len_le : bytes.length ≤ isizeMax

def capacityOverflow : Fault := .panic "capacity overflow"

namespace Vec

def len (v : Vec) : Nat := v.bytes.length

/-- `Vec::new()`. -/
def new : Vec := ⟨[], Nat.zero_le _⟩

/-- `buf.resize(n, 0_u8)`; the allocation itself succeeds. -/
def resize (v : Vec) (n : Nat) : Result Vec :=
  if h : n ≤ isizeMax then
    .ok ⟨v.bytes.take n ++ List.replicate (n - v.bytes.length) 0, by
      rw [List.length_append, List.length_take, List.length_replicate]
      omega⟩
  else .error capacityOverflow

/-- `vec![0_u8; n]`. -/
def zeroed (n : Nat) : Result Vec := new.resize n

/-- The vector with its first bytes overwritten, as far as both go. -/
def fill (v : Vec) (data : List UInt8) : Vec :=
  ⟨data.take v.bytes.length ++ v.bytes.drop data.length, by
    have hLe := v.len_le
    rw [List.length_append, List.length_take, List.length_drop]
    omega⟩

/-- The vector as a buffer at the address `ptr`. -/
def slice (v : Vec) (ptr : Nat) : Slice := ⟨ptr, v.bytes.length, v.len_le⟩

theorem ext {v v' : Vec} (h : v.bytes = v'.bytes) : v = v' := by
  cases v
  cases v'
  congr

theorem resize_ok {v v' : Vec} {n : Nat} (h : v.resize n = .ok v') :
    v'.bytes = v.bytes.take n ++ List.replicate (n - v.len) 0 := by
  unfold resize at h
  split at h
  · rw [← Except.ok.inj h]
    rfl
  · exact absurd h (by simp)

theorem resize_error {v : Vec} {n : Nat} {f : Fault} (h : v.resize n = .error f) :
    f = capacityOverflow := by
  unfold resize at h
  split at h
  · exact absurd h (by simp)
  · exact (Except.error.inj h).symm

theorem resize_of_le (v : Vec) {n : Nat} (h : n ≤ isizeMax) : ∃ v', v.resize n = .ok v' :=
  ⟨_, dif_pos h⟩

/-- A vector that gets longer gets zeros. -/
theorem resize_grown {v v' : Vec} {k : Nat} (h : v.resize (v.len + k) = .ok v') :
    v'.bytes = v.bytes ++ List.replicate k 0 := by
  rw [resize_ok h, Nat.add_sub_cancel_left, List.take_of_length_le]
  exact Nat.le_add_right v.len k

/-- Fewer bytes overwrite the first ones. -/
theorem fill_of_ge {v : Vec} {data : List UInt8} (h : data.length ≤ v.len) :
    (v.fill data).bytes = data ++ v.bytes.drop data.length := by
  show data.take v.len ++ v.bytes.drop data.length = _
  rw [List.take_of_length_le h]

theorem fill_nil (v : Vec) : v.fill [] = v := ext (fill_of_ge (Nat.zero_le _))

/-- Whatever was in the vector, enough bytes fill it. -/
theorem fill_of_le {v : Vec} {data : List UInt8} (h : v.len ≤ data.length) :
    (v.fill data).bytes = data.take v.len := by
  show data.take v.bytes.length ++ v.bytes.drop data.length = _
  rw [List.drop_eq_nil_of_le h, List.append_nil]
  rfl

end Vec

-- ---------------------------------------------------------------------------
-- Lending a vector
-- ---------------------------------------------------------------------------

/-- A state in which there is a file as its client sees it. -/
structure View (σ : Type) where
  file : σ → FileState
  setMem : σ → Memory → σ
  file_setMem : ∀ w m, file (setMem w m) = { file w with mem := m }

/-- `FileIoExt::read_exact_at(file, buf, offset)` on a vector: its bytes lie at
the address `ptr` meanwhile. -/
def View.lend (V : View σ) (ptr : Nat) (readExactAt : Slice → Nat → Proc σ Fault Unit)
    (offset : Nat) : Proc (σ × Vec) Fault Unit :=
  Proc.focus
    (fun t => V.setMem t.1 (store (V.file t.1).mem (t.2.slice ptr).addrs t.2.bytes))
    (fun t w =>
      (V.setMem w (store (V.file w).mem (t.2.slice ptr).addrs
          ((t.2.slice ptr).addrs.map (V.file t.1).mem)),
        ⟨(t.2.slice ptr).addrs.map (V.file w).mem, by
          rw [List.length_map, Slice.length_addrs]
          exact t.2.len_le⟩))
    fun t => readExactAt (t.2.slice ptr) offset

-- ---------------------------------------------------------------------------
-- The functions
-- ---------------------------------------------------------------------------

/-- `a.checked_sub(b)` on `u64`. -/
def checkedSub (a b : Nat) : Option Nat := if b ≤ a then some (a - b) else none

/-- `a.saturating_add(b)` on `u64`. -/
def saturatingAdd (a b : Nat) : Nat := min (a + b) (2 ^ 64 - 1)

theorem saturatingAdd_of_lt {a b : Nat} (h : a + b < 2 ^ 64) : saturatingAdd a b = a + b :=
  Nat.min_eq_left (Nat.le_sub_one_of_lt h)

def invalidUtf8 : Fault := .err (.new .invalidData "stream did not contain valid UTF-8")

/-- `String::from_utf8`, with the error that the function makes of a failure. -/
def fromUtf8 (v : Vec) : Result String :=
  match String.fromUTF8? v.bytes.toByteArray with
  | some s => .ok s
  | none => .error invalidUtf8

section

variable (metadataLen : Proc σ Fault Nat) (readExactAt : Nat → Proc (σ × Vec) Fault Unit)

/-- `read_to_end_at`: `metadataLen` is `file.metadata()?.len()`, and `readExactAt`
reads into the whole vector. -/
def readToEndAt (offset : Nat) : Proc (σ × Vec) Fault Nat := do
  let size ← Proc.onFst metadataLen
  match checkedSub size offset with
  | none => pure 0
  | some len =>
    Proc.ofStep fun t => match t.2.resize (saturatingAdd t.2.len len) with
      | .ok buf => (.ok (), (t.1, buf))
      | .error f => (.error f, t)
    readExactAt offset
    pure len

/-- `read_to_string_at`. -/
def readToStringAt (offset : Nat) : Proc (σ × String) Fault Nat := do
  let size ← Proc.onFst metadataLen
  match checkedSub size offset with
  | none => pure 0
  | some len =>
    let tmp ← Proc.ofExcept (Vec.zeroed len)
    let (_, tmp) ← Proc.onFst (Proc.withLocal tmp (readExactAt offset))
    let s ← Proc.ofExcept (fromUtf8 tmp)
    Proc.ofStep fun t => (.ok (), (t.1, t.2 ++ s))
    pure len

end

-- ---------------------------------------------------------------------------
-- What the read does to the vector
-- ---------------------------------------------------------------------------

/-- `read_exact_at` of an implementation makes the abstract read, or refuses an
offset past `i64::MAX`. -/
structure FillsExactly (V : View σ) (J : σ → Prop)
    (readExactAt : Slice → Nat → Proc σ Fault Unit) : Prop where
  setMem : ∀ w m, J w → J (V.setMem w m)
  read : ∀ buf offset w, J w → offset + buf.len < 2 ^ 64 →
    (readExactAt buf offset).wp w fun r w' => J w' ∧
      ((r, V.file w') = (V.file w).readExact (some offset) buf.addrs ∨
        i64Max < offset ∧ V.file w' = V.file w ∧ ∃ f, r = .error f)

/-- What is put back in place of the bytes that a list of addresses was lent
for. -/
theorem store_restore {m : Memory} {addrs : List Nat} (hNodup : addrs.Nodup)
    (bytes data : List UInt8) :
    store (store (store m addrs bytes) addrs data) addrs (addrs.map m) = m := by
  funext x
  by_cases hx : x ∈ addrs
  · have hMap : addrs.map (store (store (store m addrs bytes) addrs data) addrs (addrs.map m)) =
        addrs.map m :=
      map_store_self hNodup (List.length_map m)
    exact List.map_eq_map_iff.mp hMap x hx
  · rw [store_of_not_mem hx, store_of_not_mem hx, store_of_not_mem hx]

namespace FillsExactly

variable {V : View σ} {J : σ → Prop} {readExactAt : Slice → Nat → Proc σ Fault Unit}

/-- **The vector is filled from the file**; the file and the client's memory
stay. -/
theorem lend (hRead : FillsExactly V J readExactAt) (ptr offset : Nat) {w : σ} {v : Vec}
    (hJ : J w) (hFits : offset + v.len < 2 ^ 64) :
    (V.lend ptr readExactAt offset).wp (w, v) fun r t => J t.1 ∧ V.file t.1 = V.file w ∧
      (r = (if v.len ≤ ((V.file w).content.drop offset).length then .ok ()
          else .error failedToFill) ∧ t.2 = v.fill ((V.file w).content.drop offset) ∨
        i64Max < offset ∧ t.2 = v ∧ ∃ f, r = .error f) := by
  set addrs := (v.slice ptr).addrs with hAddrs
  have hNodup : addrs.Nodup := List.nodup_range'
  have hLen : addrs.length = v.bytes.length := Slice.length_addrs _
  set lent := store (V.file w).mem addrs v.bytes with hLent
  have hHeld : addrs.map lent = v.bytes := map_store_self hNodup hLen.symm
  refine Proc.focus_wp ((hRead.read (v.slice ptr) offset _ (hRead.setMem w lent hJ) hFits).mono ?_)
  rintro r w' ⟨hJ', hEnd⟩
  rw [V.file_setMem] at hEnd
  refine ⟨hRead.setMem _ _ hJ', ?_, ?_⟩
  · -- the client's memory is put back
    rw [V.file_setMem]
    rcases hEnd with hEq | ⟨-, hFile, -⟩
    · obtain ⟨-, hFile⟩ := Prod.mk.inj hEq
      rw [hFile]
      show ({ mem := store (store lent addrs _) addrs (addrs.map (V.file w).mem),
              content := (V.file w).content, pos := (V.file w).pos } : FileState) = V.file w
      rw [store_restore hNodup]
    · rw [hFile]
      show ({ mem := store lent addrs (addrs.map (V.file w).mem),
              content := (V.file w).content, pos := (V.file w).pos } : FileState) = V.file w
      have hBack := store_restore (m := (V.file w).mem) hNodup v.bytes []
      rw [store_nil_right] at hBack
      rw [hBack]
  · rcases hEnd with hEq | ⟨hMax, hFile, hError⟩
    · obtain ⟨hr, hFile⟩ := Prod.mk.inj hEq
      refine Or.inl ⟨?_, Vec.ext ?_⟩
      · rw [hr, ← hAddrs, hLen]
        rfl
      · show addrs.map (V.file w').mem = _
        rw [hFile]
        show addrs.map (store lent addrs (((V.file w).content.drop offset).take
          (min addrs.length ((V.file w).content.drop offset).length))) = _
        set data := (V.file w).content.drop offset with hData
        rw [map_store hNodup (by rw [List.length_take]; omega), hHeld, List.length_take, hLen]
        show _ = data.take v.bytes.length ++ v.bytes.drop data.length
        rcases Nat.le_total v.bytes.length data.length with hLe | hLe
        · rw [Nat.min_eq_left hLe, Nat.min_eq_left hLe, List.drop_eq_nil_of_le le_rfl,
            List.drop_eq_nil_of_le hLe]
        · rw [Nat.min_eq_right hLe, Nat.min_self, List.take_length, List.take_of_length_le hLe]
    · refine Or.inr ⟨hMax, Vec.ext ?_, hError⟩
      show addrs.map (V.file w').mem = v.bytes
      rw [hFile]
      exact hHeld

end FillsExactly

-- ---------------------------------------------------------------------------
-- What the functions do
-- ---------------------------------------------------------------------------

/-- What reading to the end makes of a vector, where the file's metadata says
`size` and its content is `content`. -/
structure ToEnd (content : List UInt8) (size offset : Nat) (v : Vec) (r : Result Nat) (v' : Vec) :
    Prop where
  before : size < offset → r = .ok 0 ∧ v' = v
  delivered : offset ≤ size → ∀ n, r = .ok n → n = size - offset ∧
    v.len + n ≤ (content.drop offset).length ∧ v'.bytes = (content.drop offset).take (v.len + n)
  enough : offset ≤ size → v.len + (size - offset) ≤ (content.drop offset).length →
    v.len + (size - offset) ≤ isizeMax → offset ≤ i64Max → ∃ n, r = .ok n

/-- `std::str::from_utf8` accepts the bytes. -/
def ValidUtf8 (bytes : List UInt8) : Prop := bytes.toByteArray.IsValidUTF8

instance (bytes : List UInt8) : Decidable (ValidUtf8 bytes) :=
  inferInstanceAs (Decidable bytes.toByteArray.IsValidUTF8)

/-- `s.as_bytes()`. -/
def asBytes (s : String) : List UInt8 := s.toByteArray.data.toList

theorem asBytes_valid (s : String) : ValidUtf8 (asBytes s) := by
  have hEq : (asBytes s).toByteArray = s.toByteArray := by
    apply ByteArray.ext
    rw [List.data_toByteArray]
    exact Array.toArray_toList
  unfold ValidUtf8
  rw [hEq]
  exact s.isValidUTF8

/-- The same for a string, of which the bytes are added at the end. -/
structure ToEndString (content : List UInt8) (size offset : Nat) (s : String) (r : Result Nat)
    (s' : String) : Prop where
  before : size < offset → r = .ok 0 ∧ s' = s
  delivered : offset ≤ size → ∀ n, r = .ok n → n = size - offset ∧
    n ≤ (content.drop offset).length ∧
    ∃ added, s' = s ++ added ∧ asBytes added = (content.drop offset).take n
  enough : offset ≤ size → size - offset ≤ (content.drop offset).length →
    size - offset ≤ isizeMax → offset ≤ i64Max →
    ValidUtf8 ((content.drop offset).take (size - offset)) → ∃ n, r = .ok n

theorem fromUtf8_ok {v : Vec} {s : String} (h : fromUtf8 v = .ok s) :
    asBytes s = v.bytes := by
  unfold fromUtf8 String.fromUTF8? at h
  by_cases hValid : v.bytes.toByteArray.IsValidUTF8
  · rw [dif_pos hValid] at h
    rw [← Except.ok.inj h]
    exact List.toList_data_toByteArray
  · rw [dif_neg hValid] at h
    exact absurd h (by simp)

theorem fromUtf8_error {v : Vec} {f : Fault} (h : fromUtf8 v = .error f) : f = invalidUtf8 := by
  unfold fromUtf8 at h
  split at h
  · exact absurd h (by simp)
  · exact (Except.error.inj h).symm

theorem fromUtf8_of_valid {v : Vec} (h : ValidUtf8 v.bytes) : ∃ s, fromUtf8 v = .ok s := by
  have hValid : v.bytes.toByteArray.IsValidUTF8 := h
  unfold fromUtf8 String.fromUTF8?
  rw [dif_pos hValid]
  exact ⟨_, rfl⟩

section

variable {V : View σ} {J : σ → Prop} {readExactAt : Slice → Nat → Proc σ Fault Unit}
  {metadataLen : Proc σ Fault Nat} {w w₁ : σ} {size offset : Nat}

theorem checkedSub_of_le (h : offset ≤ size) : checkedSub size offset = some (size - offset) :=
  if_pos h

theorem checkedSub_of_lt (h : size < offset) : checkedSub size offset = none :=
  if_neg (Nat.not_le.mpr h)

theorem Vec.len_resize {v v' : Vec} {n : Nat} (h : v.resize n = .ok v') : v'.len = n := by
  show v'.bytes.length = n
  rw [Vec.resize_ok h, List.length_append, List.length_take, List.length_replicate]
  show min n v.bytes.length + (n - v.bytes.length) = n
  omega

/-- **`read_to_end_at`.** -/
theorem readToEndAt_wp (hRead : FillsExactly V J readExactAt)
    (hMetadata : metadataLen.Returns w (.ok size) w₁) (hJ : J w₁) (ptr offset : Nat)
    (v : Vec) (hFits : size + v.len < 2 ^ 64) :
    (readToEndAt metadataLen (V.lend ptr readExactAt) offset).wp (w, v) fun r t =>
      J t.1 ∧ V.file t.1 = V.file w₁ ∧ ToEnd (V.file w₁).content size offset v r t.2 := by
  unfold readToEndAt
  refine Proc.wp_bind ⟨_, _, Proc.onFst_returns hMetadata v, ?_⟩
  rcases Nat.lt_or_ge size offset with hBefore | hLe
  · -- the metadata puts the end before the offset
    simp only [checkedSub_of_lt hBefore]
    exact Proc.wp_pure ⟨hJ, rfl, fun _ => ⟨rfl, rfl⟩,
      fun hLe => absurd hBefore (Nat.not_lt.mpr hLe),
      fun hLe => absurd hBefore (Nat.not_lt.mpr hLe)⟩
  have hNotBefore : ¬ size < offset := Nat.not_lt.mpr hLe
  simp only [checkedSub_of_le hLe]
  have hSum : saturatingAdd v.len (size - offset) = v.len + (size - offset) :=
    saturatingAdd_of_lt (by omega)
  refine Proc.wp_bind (Proc.wp_ofStep ?_)
  rw [hSum]
  rcases hResize : v.resize (v.len + (size - offset)) with f | v₁
  · -- the vector cannot get as long
    refine ⟨hJ, rfl, fun h => absurd h hNotBefore, fun _ n hn => absurd hn (by simp),
      fun _ _ hMax => ?_⟩
    obtain ⟨v', hOk⟩ := v.resize_of_le hMax
    rw [hResize] at hOk
    exact absurd hOk (by simp)
  · have hLen : v₁.len = v.len + (size - offset) := Vec.len_resize hResize
    refine Proc.wp_bind ((hRead.lend ptr offset hJ (by omega)).mono ?_)
    rintro r t ⟨hJ', hFile, hEnd⟩
    rw [hLen] at hEnd
    rcases hEnd with ⟨hr, hVec⟩ | ⟨hMax, -, f, rfl⟩
    · by_cases hEnough : v.len + (size - offset) ≤ ((V.file w₁).content.drop offset).length
      · -- the whole vector is filled
        rw [hr, if_pos hEnough]
        refine Proc.wp_pure ⟨hJ', hFile,
          fun h => absurd h hNotBefore, fun _ n hn => ?_, fun _ _ _ _ => ⟨_, rfl⟩⟩
        obtain rfl := Except.ok.inj hn
        refine ⟨rfl, hEnough, ?_⟩
        rw [hVec, Vec.fill_of_le (hLen ▸ hEnough), hLen]
      · rw [hr, if_neg hEnough]
        exact ⟨hJ', hFile, fun h => absurd h hNotBefore, fun _ n hn => absurd hn (by simp),
          fun _ h => absurd h hEnough⟩
    · exact ⟨hJ', hFile, fun h => absurd h hNotBefore, fun _ n hn => absurd hn (by simp),
        fun _ _ _ hOffset => absurd hMax (Nat.not_lt.mpr hOffset)⟩

/-- **`read_to_string_at`.** -/
theorem readToStringAt_wp (hRead : FillsExactly V J readExactAt)
    (hMetadata : metadataLen.Returns w (.ok size) w₁) (hJ : J w₁) (ptr offset : Nat)
    (s : String) (hFits : size < 2 ^ 64) :
    (readToStringAt metadataLen (V.lend ptr readExactAt) offset).wp (w, s) fun r t =>
      J t.1 ∧ V.file t.1 = V.file w₁ ∧ ToEndString (V.file w₁).content size offset s r t.2 := by
  unfold readToStringAt
  refine Proc.wp_bind ⟨_, _, Proc.onFst_returns hMetadata s, ?_⟩
  rcases Nat.lt_or_ge size offset with hBefore | hLe
  · simp only [checkedSub_of_lt hBefore]
    exact Proc.wp_pure ⟨hJ, rfl, fun _ => ⟨rfl, rfl⟩,
      fun hLe => absurd hBefore (Nat.not_lt.mpr hLe),
      fun hLe => absurd hBefore (Nat.not_lt.mpr hLe)⟩
  have hNotBefore : ¬ size < offset := Nat.not_lt.mpr hLe
  simp only [checkedSub_of_le hLe]
  rcases hZeroed : Vec.zeroed (size - offset) with f | tmp
  · -- no vector is as long
    refine Proc.wp_bind (Proc.wp_ofExcept ⟨hJ, rfl,
      fun h => absurd h hNotBefore, fun _ n hn => absurd hn (by simp), fun _ _ hMax => ?_⟩)
    obtain ⟨v', hOk⟩ := Vec.new.resize_of_le hMax
    exact absurd (hZeroed.symm.trans hOk) (by simp)
  have hLen : tmp.len = size - offset := Vec.len_resize hZeroed
  refine Proc.wp_bind (Proc.wp_ofExcept ?_)
  refine Proc.wp_bind (Proc.onFst_wp (Proc.withLocal_wp
    ((hRead.lend ptr offset hJ (by omega)).mono ?_)))
  rintro r ⟨w₂, v⟩ ⟨hJ', hFile, hEnd⟩
  rw [hLen] at hEnd
  rcases hEnd with ⟨hr, hVec⟩ | ⟨hMax, -, f, rfl⟩
  · by_cases hEnough : size - offset ≤ ((V.file w₁).content.drop offset).length
    · rw [if_pos hEnough] at hr
      subst hr
      have hBytes : v.bytes = ((V.file w₁).content.drop offset).take (size - offset) := by
        have hFilled := Vec.fill_of_le (v := tmp) (hLen ▸ hEnough)
        rw [← hVec, hLen] at hFilled
        exact hFilled
      show Proc.wp (Proc.ofExcept (fromUtf8 v) >>= _) (w₂, s) _
      rcases hString : fromUtf8 v with f | added
      · -- the bytes are not a string
        refine Proc.wp_bind (Proc.wp_ofExcept ⟨hJ', hFile,
          fun h => absurd h hNotBefore, fun _ n hn => absurd hn (by simp),
          fun _ _ _ _ hValid => ?_⟩)
        obtain ⟨added, hOk⟩ := fromUtf8_of_valid (v := v) (by rwa [hBytes])
        exact absurd (hString.symm.trans hOk) (by simp)
      · refine Proc.wp_bind (Proc.wp_ofExcept ?_)
        refine Proc.wp_bind (Proc.wp_ofStep ?_)
        refine Proc.wp_pure ⟨hJ', hFile,
          fun h => absurd h hNotBefore, fun _ n hn => ?_, fun _ _ _ _ _ => ⟨_, rfl⟩⟩
        obtain rfl := Except.ok.inj hn
        exact ⟨rfl, hEnough, added, rfl, (fromUtf8_ok hString).trans hBytes⟩
    · rw [if_neg hEnough] at hr
      subst hr
      exact ⟨hJ', hFile, fun h => absurd h hNotBefore, fun _ n hn => absurd hn (by simp),
        fun _ h => absurd h hEnough⟩
  · exact ⟨hJ', hFile, fun h => absurd h hNotBefore, fun _ n hn => absurd hn (by simp),
      fun _ _ _ hOffset => absurd hMax (Nat.not_lt.mpr hOffset)⟩

end

-- ---------------------------------------------------------------------------
-- Complete results
-- ---------------------------------------------------------------------------

/-- `Ok(n)` with these bytes stands for all that there is from the offset on. -/
def DeliversRest (content : List UInt8) (offset n : Nat) (bytes : List UInt8) : Prop :=
  n = content.length - offset ∧ bytes = content.drop offset

theorem delivers_rest_nil {content : List UInt8} {offset : Nat} (h : content.length ≤ offset) :
    DeliversRest content offset 0 [] :=
  ⟨(Nat.sub_eq_zero_of_le h).symm, (List.drop_eq_nil_of_le h).symm⟩

/-- As many bytes as the metadata promises are all of them, if that is not less
than there are. -/
theorem delivers_rest_take {content : List UInt8} {size offset : Nat}
    (hLe : size - offset ≤ (content.drop offset).length)
    (hSize : content.length ≤ size ∨ content.length ≤ offset) :
    DeliversRest content offset (size - offset) ((content.drop offset).take (size - offset)) := by
  rw [List.length_drop] at hLe
  have hEq : size - offset = content.length - offset := by omega
  refine ⟨hEq, List.take_of_length_le ?_⟩
  rw [List.length_drop, hEq]

section

variable {content : List UInt8} {size offset : Nat} {r : Result Nat}

/-- **Into an empty vector**: a result is complete unless the metadata falls
short of an end that lies past the offset. -/
theorem ToEnd.complete_iff {v : Vec} (h : ToEnd content size offset Vec.new r v)
    (hContent : content.length ≤ i64Max) :
    (∀ n, r = .ok n → DeliversRest content offset n v.bytes) ↔
      ¬ (size < content.length ∧ offset < content.length) := by
  constructor
  · rintro hAll ⟨hSize, hOffset⟩
    rcases Nat.lt_or_ge size offset with hBefore | hLe
    · obtain ⟨hr, -⟩ := h.before hBefore
      have hn := (hAll 0 hr).1
      omega
    · have hLen : (content.drop offset).length = content.length - offset := List.length_drop
      have hMax : i64Max = isizeMax := rfl
      have hNew : Vec.new.len = 0 := rfl
      obtain ⟨n, hr⟩ := h.enough hLe (by omega) (by omega) (by omega)
      have hn := (hAll n hr).1
      have hn' := (h.delivered hLe n hr).1
      omega
  · intro hNot n hr
    rcases Nat.lt_or_ge size offset with hBefore | hLe
    · obtain ⟨hr', rfl⟩ := h.before hBefore
      obtain rfl := Except.ok.inj (hr.symm.trans hr')
      exact delivers_rest_nil (by omega)
    · obtain ⟨rfl, hEnough, hBytes⟩ := h.delivered hLe n hr
      rw [hBytes, show Vec.new.len = 0 from rfl, Nat.zero_add]
      rw [show Vec.new.len = 0 from rfl, Nat.zero_add] at hEnough
      exact delivers_rest_take hEnough (by omega)

/-- **Onto a string**: the same, where the bytes that the metadata promises are
valid UTF-8. -/
theorem ToEndString.complete_iff {s s' : String} (h : ToEndString content size offset s r s')
    (hContent : content.length ≤ i64Max) :
    (∀ n, r = .ok n → ∃ added, s' = s ++ added ∧
        DeliversRest content offset n (asBytes added)) ↔
      ¬ (size < content.length ∧ offset < content.length ∧
        (size < offset ∨ ValidUtf8 ((content.drop offset).take (size - offset)))) := by
  constructor
  · rintro hAll ⟨hSize, hOffset, hValid⟩
    rcases Nat.lt_or_ge size offset with hBefore | hLe
    · obtain ⟨hr, -⟩ := h.before hBefore
      obtain ⟨added, -, hn, -⟩ := hAll 0 hr
      omega
    · have hLen : (content.drop offset).length = content.length - offset := List.length_drop
      have hMax : i64Max = isizeMax := rfl
      obtain ⟨n, hr⟩ := h.enough hLe (by omega) (by omega) (by omega)
        (hValid.resolve_left (Nat.not_lt.mpr hLe))
      obtain ⟨added, -, hn, -⟩ := hAll n hr
      have hn' := (h.delivered hLe n hr).1
      omega
  · intro hNot n hr
    rcases Nat.lt_or_ge size offset with hBefore | hLe
    · obtain ⟨hr', rfl⟩ := h.before hBefore
      obtain rfl := Except.ok.inj (hr.symm.trans hr')
      refine ⟨"", (String.append_empty).symm, delivers_rest_nil ?_⟩
      by_contra hOffset
      exact hNot ⟨by omega, by omega, Or.inl hBefore⟩
    · obtain ⟨rfl, hEnough, added, hAdded, hBytes⟩ := h.delivered hLe n hr
      refine ⟨added, hAdded, ?_⟩
      rw [hBytes]
      apply delivers_rest_take hEnough
      by_contra hShort
      refine hNot ⟨by omega, by omega, Or.inr ?_⟩
      -- the bytes delivered are those of a string
      rw [← hBytes]
      exact asBytes_valid added

end

/-- The metadata falls short of an end that lies past the offset. -/
def FallsShort (content : List UInt8) (size offset : Nat) : Prop :=
  size < content.length ∧ offset < content.length

/-- Every result of reading to the end, into an empty vector, is complete. -/
def VecComplete (x : Proc (σ × Vec) Fault Nat) (w : σ) (content : List UInt8) (offset : Nat) :
    Prop :=
  ∀ n t, x.Returns (w, Vec.new) (.ok n) t → DeliversRest content offset n t.2.bytes

/-- Every result of reading to the end, onto any string, is complete. -/
def StringComplete (x : Proc (σ × String) Fault Nat) (w : σ) (content : List UInt8)
    (offset : Nat) : Prop :=
  ∀ s n t, x.Returns (w, s) (.ok n) t →
    ∃ added, t.2 = s ++ added ∧ DeliversRest content offset n (asBytes added)

/-- Reading to the end appends all of the rest to the vector. -/
def Appends (x : Proc (σ × Vec) Fault Nat) (w : σ) (v : Vec) (content : List UInt8)
    (offset : Nat) : Prop :=
  ∃ t, x.Returns (w, v) (.ok (content.length - offset)) t ∧
    t.2.bytes = v.bytes ++ content.drop offset

/-- **Behind what a vector holds**: the read starts at the front of the vector, so
that nothing may be there, unless there is nothing to read. -/
theorem ToEnd.appends_iff {content : List UInt8} {offset : Nat} {v v' : Vec} {r : Result Nat}
    (h : ToEnd content content.length offset v r v') (hContent : content.length ≤ i64Max)
    (hAlloc : v.len + (content.length - offset) ≤ isizeMax) :
    (r = .ok (content.length - offset) ∧ v'.bytes = v.bytes ++ content.drop offset) ↔
      (v.bytes = [] ∨ content.length < offset) := by
  have hLen : (content.drop offset).length = content.length - offset := List.length_drop
  constructor
  · rintro ⟨hr, -⟩
    rcases Nat.lt_or_ge content.length offset with hBefore | hLe
    · exact Or.inr hBefore
    · obtain ⟨-, hEnough, -⟩ := h.delivered hLe _ hr
      have hZero : v.bytes.length = 0 := by
        show v.len = 0
        omega
      exact Or.inl (List.length_eq_zero_iff.mp hZero)
  · intro hWhen
    rcases Nat.lt_or_ge content.length offset with hBefore | hLe
    · obtain ⟨hr, rfl⟩ := h.before hBefore
      rw [hr, Nat.sub_eq_zero_of_le (Nat.le_of_lt hBefore),
        List.drop_eq_nil_of_le (Nat.le_of_lt hBefore), List.append_nil]
      exact ⟨rfl, rfl⟩
    · have hNil : v.bytes = [] := hWhen.resolve_right (Nat.not_lt.mpr hLe)
      have hZero : v.len = 0 := congrArg List.length hNil
      obtain ⟨n, hr⟩ := h.enough hLe (by omega) hAlloc (by omega)
      obtain ⟨rfl, -, hBytes⟩ := h.delivered hLe n hr
      refine ⟨hr, ?_⟩
      rw [hBytes, hZero, Nat.zero_add, hNil, List.nil_append, List.take_of_length_le]
      exact Nat.le_of_eq hLen

namespace FillsExactly

variable {V : View σ} {J : σ → Prop} {readExactAt : Slice → Nat → Proc σ Fault Unit}
  {metadataLen : Proc σ Fault Nat} {w w₁ : σ} {size : Nat}

theorem appends_iff (hRead : FillsExactly V J readExactAt)
    (hMetadata : metadataLen.Returns w (.ok (V.file w₁).content.length) w₁) (hJ : J w₁)
    (hContent : (V.file w₁).content.length ≤ i64Max) (ptr offset : Nat) (v : Vec)
    (hAlloc : v.len + ((V.file w₁).content.length - offset) ≤ isizeMax) :
    Appends (readToEndAt metadataLen (V.lend ptr readExactAt) offset) w v (V.file w₁).content
      offset ↔ v.bytes = [] ∨ (V.file w₁).content.length < offset := by
  have hFits : (V.file w₁).content.length + v.len < 2 ^ 64 := by
    have hLe : v.len ≤ isizeMax := v.len_le
    unfold i64Max at hContent
    unfold isizeMax at hLe
    omega
  obtain ⟨r, t, hRun, -, -, hEnd⟩ := readToEndAt_wp hRead hMetadata hJ ptr offset v hFits
  rw [← hEnd.appends_iff hContent hAlloc]
  constructor
  · rintro ⟨t', hRun', hBytes⟩
    obtain ⟨rfl, rfl⟩ := hRun.det hRun'
    exact ⟨rfl, hBytes⟩
  · rintro ⟨rfl, hBytes⟩
    exact ⟨t, hRun, hBytes⟩

theorem vec_complete_iff (hRead : FillsExactly V J readExactAt)
    (hMetadata : metadataLen.Returns w (.ok size) w₁) (hJ : J w₁) (hSize : size < 2 ^ 64)
    (hContent : (V.file w₁).content.length ≤ i64Max) (ptr offset : Nat) :
    VecComplete (readToEndAt metadataLen (V.lend ptr readExactAt) offset) w (V.file w₁).content
      offset ↔ ¬ FallsShort (V.file w₁).content size offset := by
  obtain ⟨r, t, hRun, -, -, hEnd⟩ :=
    readToEndAt_wp hRead hMetadata hJ ptr offset Vec.new hSize
  rw [FallsShort, ← hEnd.complete_iff hContent]
  constructor
  · intro hAll n hr
    subst hr
    exact hAll n t hRun
  · intro hAll n t' hRun'
    obtain ⟨hr, rfl⟩ := hRun.det hRun'
    exact hAll n hr

theorem string_complete_iff (hRead : FillsExactly V J readExactAt)
    (hMetadata : metadataLen.Returns w (.ok size) w₁) (hJ : J w₁) (hSize : size < 2 ^ 64)
    (hContent : (V.file w₁).content.length ≤ i64Max) (ptr offset : Nat) :
    StringComplete (readToStringAt metadataLen (V.lend ptr readExactAt) offset) w
      (V.file w₁).content offset ↔
        ¬ (FallsShort (V.file w₁).content size offset ∧
          (size < offset ∨
            ValidUtf8 (((V.file w₁).content.drop offset).take (size - offset)))) := by
  rw [FallsShort, and_assoc]
  constructor
  · intro hAll
    obtain ⟨r, t, hRun, -, -, hEnd⟩ :=
      readToStringAt_wp hRead hMetadata hJ ptr offset "" hSize
    apply (hEnd.complete_iff hContent).mp
    intro n hr
    subst hr
    exact hAll "" n t hRun
  · intro hNot s n t' hRun'
    obtain ⟨r, t, hRun, -, -, hEnd⟩ :=
      readToStringAt_wp hRead hMetadata hJ ptr offset s hSize
    obtain ⟨hr, rfl⟩ := hRun.det hRun'
    exact (hEnd.complete_iff hContent).mpr hNot n hr

end FillsExactly

end SystemInterface
