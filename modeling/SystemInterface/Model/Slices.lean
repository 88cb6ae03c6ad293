import SystemInterface.Model.Definitions

/-!
# SystemInterface — advancing a list of buffers

What the helpers of the vectored loops do to a list of buffers. `advance` is
compared with `advanced`, which drops `n` bytes by recursion on the list; all
other facts are about `advanced`.

Main results:

* `advance_eq` — `advance` neither overflows nor leaves a buffer, and returns
  `advanced`, when `n` or the total length is small enough;
* `cells_advanced` — the bytes left are the old ones with `n` dropped;
* `advanced_head` — what is left is empty or starts with a non-empty buffer;
* `advance_drops` — the bytes left, the buffers left and the next step of `advance`,
  for lists of any total length;
* `size_advanced_lt` — a loop that advances makes progress;
* `leadingWindow_take`, `leadingWindow_firstNonEmpty` — the buffers a call picks
  cover a leading range of the list.
-/

namespace SystemInterface

/-! ## Bytes of a list of buffers -/

@[simp] theorem cells_nil : cells [] = [] := rfl

@[simp] theorem cells_cons (buf : Slice) (bufs : List Slice) :
    cells (buf :: bufs) = buf.addrs ++ cells bufs := by
  simp [cells]

@[simp] theorem totalLen_nil : totalLen [] = 0 := rfl

@[simp] theorem totalLen_cons (buf : Slice) (bufs : List Slice) :
    totalLen (buf :: bufs) = buf.len + totalLen bufs := by
  simp [totalLen]

@[simp] theorem Slice.length_addrs (s : Slice) : s.addrs.length = s.len := by
  simp [Slice.addrs]

@[simp] theorem length_cells (bufs : List Slice) : (cells bufs).length = totalLen bufs := by
  induction bufs with
  | nil => rfl
  | cons buf bufs ih => simp [ih]

@[simp] theorem Memory.length_gather (m : Memory) (bufs : List Slice) :
    (m.gather bufs).length = totalLen bufs := by
  simp [Memory.gather]

theorem Slice.addrs_rest {s : Slice} {k : Nat} : (s.rest k).addrs = s.addrs.drop k := by
  simp [Slice.rest, Slice.addrs, List.drop_range']

theorem Slice.isEmpty_iff {s : Slice} : s.isEmpty = true ↔ s.len = 0 := by
  simp [Slice.isEmpty]

theorem Slice.isEmpty_eq_false {s : Slice} : s.isEmpty = false ↔ 0 < s.len := by
  simp [Slice.isEmpty, Nat.pos_iff_ne_zero]

theorem Slice.len_ne_zero {s : Slice} (h : s.isEmpty = false) : s.len ≠ 0 :=
  Nat.pos_iff_ne_zero.mp (Slice.isEmpty_eq_false.mp h)

theorem Slice.sliceFrom_of_le {s : Slice} {k : Nat} (h : k ≤ s.len) :
    s.sliceFrom k = .ok (s.rest k) := if_pos h

/-- A leading window of a list covers a prefix of its bytes. -/
theorem cells_take (bufs : List Slice) (k : Nat) :
    cells (bufs.take k) = (cells bufs).take (totalLen (bufs.take k)) := by
  induction bufs generalizing k with
  | nil => simp
  | cons buf bufs ih =>
    cases k with
    | zero => simp
    | succ k =>
      simp only [List.take_succ_cons, cells_cons, totalLen_cons]
      have hLen : buf.len + totalLen (bufs.take k) =
          buf.addrs.length + totalLen (bufs.take k) := by simp
      rw [hLen, List.take_length_add_append, ← ih]

theorem totalLen_take_le (bufs : List Slice) (k : Nat) :
    totalLen (bufs.take k) ≤ totalLen bufs := by
  rw [← length_cells, ← length_cells, cells_take]
  exact List.length_take_le' ..

/-! ## Advancing -/

/-- The buffers left after the first `n` bytes, by recursion on the list. -/
def advanced : List Slice → Nat → List Slice
  | [], _ => []
  | buf :: bufs, n => if n < buf.len then buf.rest n :: bufs else advanced bufs (n - buf.len)

@[simp] theorem advanced_nil (n : Nat) : advanced [] n = [] := rfl

theorem advanced_of_lt {buf : Slice} {bufs : List Slice} {n : Nat} (h : n < buf.len) :
    advanced (buf :: bufs) n = buf.rest n :: bufs := if_pos h

theorem advanced_of_le {buf : Slice} {bufs : List Slice} {n : Nat} (h : buf.len ≤ n) :
    advanced (buf :: bufs) n = advanced bufs (n - buf.len) := if_neg (by omega)

/-- The bytes left are the old ones with the first `n` dropped. -/
theorem cells_advanced (bufs : List Slice) (n : Nat) :
    cells (advanced bufs n) = (cells bufs).drop n := by
  induction bufs generalizing n with
  | nil => simp
  | cons buf bufs ih =>
    by_cases h : n < buf.len
    · rw [advanced_of_lt h, cells_cons, cells_cons, Slice.addrs_rest,
        List.drop_append_of_le_length (by rw [Slice.length_addrs]; omega)]
    · have hle : buf.len ≤ n := by omega
      have hNil : buf.addrs.drop n = [] :=
        List.drop_of_length_le (by rw [Slice.length_addrs]; exact hle)
      rw [advanced_of_le hle, ih, cells_cons, List.drop_append, hNil, Slice.length_addrs,
        List.nil_append]

theorem totalLen_advanced (bufs : List Slice) (n : Nat) :
    totalLen (advanced bufs n) = totalLen bufs - n := by
  rw [← length_cells, cells_advanced, List.length_drop, length_cells]

theorem Memory.gather_advanced (m : Memory) (bufs : List Slice) (n : Nat) :
    m.gather (advanced bufs n) = (m.gather bufs).drop n := by
  rw [Memory.gather, cells_advanced, List.map_drop, Memory.gather]

/-- What is left is empty or starts with a non-empty buffer. -/
theorem advanced_head (bufs : List Slice) (n : Nat) :
    ∀ buf ∈ (advanced bufs n).head?, 0 < buf.len := by
  induction bufs generalizing n with
  | nil => simp
  | cons b bufs ih =>
    by_cases h : n < b.len
    · rw [advanced_of_lt h]
      intro buf hbuf
      simp only [List.head?_cons, Option.mem_def, Option.some.injEq] at hbuf
      subst hbuf
      change 0 < b.len - n
      omega
    · rw [advanced_of_le (by omega)]
      exact ih _

/-- Advancing is an action of the numbers on the lists. -/
theorem advanced_advanced (bufs : List Slice) (m n : Nat) :
    advanced (advanced bufs m) n = advanced bufs (m + n) := by
  induction bufs generalizing m with
  | nil => rfl
  | cons buf bufs ih =>
    by_cases hm : m < buf.len
    · rw [advanced_of_lt hm]
      by_cases hn : m + n < buf.len
      · have hn' : n < (buf.rest m).len := by change n < buf.len - m; omega
        rw [advanced_of_lt hn, advanced_of_lt hn']
        simp [Slice.rest, Nat.add_assoc, Nat.sub_sub]
      · have hn' : (buf.rest m).len ≤ n := by change buf.len - m ≤ n; omega
        rw [advanced_of_le hn', advanced_of_le (by omega)]
        congr 1
        change n - (buf.len - m) = _
        omega
    · rw [advanced_of_le (by omega), advanced_of_le (by omega), ih]
      congr 1
      omega

/-- Skipping the leading empty buffers is advancing by nothing. -/
theorem skipLeadingEmpties_eq (bufs : List Slice) :
    skipLeadingEmpties bufs = advanced bufs 0 := by
  induction bufs with
  | nil => rfl
  | cons buf bufs ih =>
    rw [skipLeadingEmpties]
    by_cases h : buf.len = 0
    · rw [if_pos (Slice.isEmpty_iff.mpr h), ih, advanced_of_le (by omega), Nat.zero_sub]
    · rw [if_neg (by rw [Slice.isEmpty_iff]; exact h), advanced_of_lt (by omega)]
      simp [Slice.rest]

/-! ## The loop of `advance` -/

/-- Advancing `total` bytes by `n` keeps the sums of `advance` below `2 ^ 64`. -/
def AdvanceFits (total n : Nat) : Prop := n ≤ isizeMax ∨ total < 2 ^ 64

theorem advance.scan_spec (p : Profile) {n : Nat} (bufs : List Slice) :
    ∀ (remove acc : Nat), acc ≤ n → (n ≤ isizeMax ∨ acc + totalLen bufs < 2 ^ 64) →
      ∃ k acc', advance.scan p n bufs remove acc = .ok (remove + k, acc') ∧ acc' ≤ n ∧
        (∀ first rest, bufs.drop k = first :: rest → n - acc' < first.len) ∧
        advanced bufs (n - acc) =
          (match bufs.drop k with
            | [] => []
            | first :: rest => first.rest (n - acc') :: rest) := by
  induction bufs with
  | nil =>
    intro remove acc hacc _
    exact ⟨0, acc, rfl, hacc, by simp, rfl⟩
  | cons buf bufs ih =>
    intro remove acc hacc hFits
    have hbuf := buf.len_le
    have hSum : acc + buf.len < 2 ^ 64 := by
      rw [totalLen_cons] at hFits
      unfold isizeMax at hFits hbuf
      omega
    have hAdd : p.add acc buf.len = .ok (acc + buf.len) := p.add_of_lt hSum
    by_cases h : acc + buf.len > n
    · -- the loop breaks: `buf` is the new head
      refine ⟨0, acc, ?_, hacc, ?_, ?_⟩
      · simp only [advance.scan, hAdd, bind, Except.bind]
        rw [if_pos h]
        rfl
      · intro first rest hd
        rw [List.drop_zero, List.cons.injEq] at hd
        rw [← hd.1]
        omega
      · exact advanced_of_lt (by omega)
    · -- `buf` is removed and the loop goes on behind it
      obtain ⟨k, acc', hScan, hacc', hHead, hEq⟩ :=
        ih (remove + 1) (acc + buf.len) (by omega) (by rw [totalLen_cons] at hFits; omega)
      refine ⟨k + 1, acc', ?_, hacc', by simpa using hHead, ?_⟩
      · simp only [advance.scan, hAdd, bind, Except.bind]
        rw [if_neg h, hScan]
        congr 2
        omega
      · rw [advanced_of_le (by omega), Nat.sub_sub, hEq]
        rfl

/-- **`advance` drops the first `n` bytes.** Its sums and differences stay in
range and the new head lies inside the old one. -/
theorem advance_eq (p : Profile) {bufs : List Slice} {n : Nat}
    (h : AdvanceFits (totalLen bufs) n) :
    advance p bufs n = .ok (advanced bufs n) := by
  obtain ⟨k, acc, hScan, hacc, hHead, hEq⟩ :=
    advance.scan_spec p bufs 0 0 (Nat.zero_le n) (by rwa [Nat.zero_add])
  rw [Nat.sub_zero] at hEq
  rw [Nat.zero_add] at hScan
  simp only [advance, hScan, bind, Except.bind, hEq]
  cases hd : bufs.drop k with
  | nil => rfl
  | cons first rest =>
    have hlt := hHead first rest hd
    simp only [p.sub_of_le hacc, Slice.advancePtr]
    rw [if_pos (by omega)]

/-- What is left is a suffix of the list of which the head may be cut, strictly
inside. -/
theorem advanced_suffix (bufs : List Slice) (n : Nat) :
    advanced bufs n = [] ∨ ∃ remove first rest k, bufs.drop remove = first :: rest ∧
      k < first.len ∧ totalLen (bufs.take remove) + k = n ∧
        advanced bufs n = first.rest k :: rest := by
  induction bufs generalizing n with
  | nil => exact Or.inl rfl
  | cons buf bufs ih =>
    by_cases h : n < buf.len
    · exact Or.inr ⟨0, buf, bufs, n, rfl, h, Nat.zero_add n, advanced_of_lt h⟩
    · rw [advanced_of_le (by omega)]
      rcases ih (n - buf.len) with hNil | ⟨remove, first, rest, k, hDrop, hk, hLen, hEq⟩
      · exact Or.inl hNil
      · refine Or.inr ⟨remove + 1, first, rest, k, hDrop, hk, ?_, hEq⟩
        rw [List.take_succ_cons, totalLen_cons]
        omega

theorem advanced_of_total_le {bufs : List Slice} {n : Nat} (h : totalLen bufs ≤ n) :
    advanced bufs n = [] := by
  rcases advanced_suffix bufs n with hNil | ⟨remove, first, rest, k, -, hk, -, hEq⟩
  · exact hNil
  · -- a head that is left still holds a byte
    have hLeft := totalLen_advanced bufs n
    have hHead : (first.rest k).len = first.len - k := rfl
    rw [hEq, totalLen_cons] at hLeft
    omega

/-- **`advance` and `advance_mut` neither overflow nor leave a buffer**, for buffers
of any total length: what they return holds the bytes from `n` on, is a suffix of
the list but for a head that is cut strictly inside, and can be advanced further.
An overflow would panic in the `debug` profile. -/
theorem advance_drops (p : Profile) (bufs : List Slice) {n : Nat} (hn : n ≤ isizeMax) :
    ∃ bufs', advance p bufs n = .ok bufs' ∧ advanceMut p bufs n = .ok bufs' ∧
      (∀ m : Memory, m.gather bufs' = (m.gather bufs).drop n) ∧
      (totalLen bufs ≤ n → bufs' = []) ∧
      (bufs' = [] ∨ ∃ remove first rest k, bufs.drop remove = first :: rest ∧ k < first.len ∧
        totalLen (bufs.take remove) + k = n ∧ bufs' = first.rest k :: rest ∧
          (first.rest k).isEmpty = false) ∧
      ∀ m, n + m ≤ isizeMax → advance p bufs' m = advance p bufs (n + m) ∧
        advanceMut p bufs' m = advanceMut p bufs (n + m) := by
  have hAdvance : ∀ {bufs : List Slice} {n : Nat}, n ≤ isizeMax →
      advance p bufs n = .ok (advanced bufs n) := fun hn => advance_eq p (Or.inl hn)
  refine ⟨advanced bufs n, hAdvance hn, hAdvance hn, fun m => m.gather_advanced bufs n,
    advanced_of_total_le, ?_, ?_⟩
  · rcases advanced_suffix bufs n with hNil | ⟨remove, first, rest, k, hDrop, hk, hLen, hEq⟩
    · exact Or.inl hNil
    · refine Or.inr ⟨remove, first, rest, k, hDrop, hk, hLen, hEq, ?_⟩
      rw [Slice.isEmpty_eq_false]
      exact Nat.sub_pos_of_lt hk
  · intro m hm
    have hSame : advance p (advanced bufs n) m = advance p bufs (n + m) := by
      rw [hAdvance (by omega), hAdvance hm, advanced_advanced]
    exact ⟨hSame, hSame⟩

/-- Two buffers over the same eight bytes, and an empty one between them. -/
theorem advance_drops_aliased :
    ∃ bufs', advance .debug [⟨16, 8, by decide⟩, ⟨0, 0, by decide⟩, ⟨16, 8, by decide⟩] 8 =
      .ok bufs' ∧ (totalLen [⟨16, 8, by decide⟩, ⟨0, 0, by decide⟩, ⟨16, 8, by decide⟩] ≤ 8 →
        bufs' = []) := by
  obtain ⟨bufs', hAdvance, -, -, hAll, -⟩ :=
    advance_drops .debug [⟨16, 8, by decide⟩, ⟨0, 0, by decide⟩, ⟨16, 8, by decide⟩]
      (n := 8) (by decide)
  exact ⟨bufs', hAdvance, hAll⟩

/-! ## Progress -/

/-- The measure of the vectored loops: bytes left plus buffers left. -/
def size (bufs : List Slice) : Nat := totalLen bufs + bufs.length

theorem length_advanced_le (bufs : List Slice) (n : Nat) :
    (advanced bufs n).length ≤ bufs.length := by
  induction bufs generalizing n with
  | nil => simp
  | cons buf bufs ih =>
    by_cases h : n < buf.len
    · simp [advanced_of_lt h]
    · rw [advanced_of_le (by omega), List.length_cons]
      have := ih (n - buf.len)
      omega

/-- Moving a byte, or nothing in front of an empty buffer, leaves less. -/
theorem size_advanced_lt {buf : Slice} {bufs : List Slice} {n : Nat}
    (h : n = 0 → buf.len = 0) : size (advanced (buf :: bufs) n) < size (buf :: bufs) := by
  have hTotal := totalLen_advanced (buf :: bufs) n
  have hLength := length_advanced_le (buf :: bufs) n
  unfold size
  by_cases hn : n < buf.len
  · rw [totalLen_cons] at hTotal ⊢
    omega
  · -- at least the head is removed
    have hRest := length_advanced_le bufs (n - buf.len)
    rw [advanced_of_le (by omega)] at hTotal ⊢
    rw [List.length_cons]
    omega

/-! ## Short transfers -/

/-- A legitimate transfer of at most `total` bytes: none only if there is
none to move. -/
def shortCount (count total : Nat) : Nat := min (max count 1) total

theorem shortCount_le (count total : Nat) : shortCount count total ≤ total :=
  Nat.min_le_right ..

theorem shortCount_eq_zero {count total : Nat} : shortCount count total = 0 ↔ total = 0 := by
  unfold shortCount
  omega

/-- Every legitimate transfer is the transfer of some answer. -/
theorem exists_shortCount {n total : Nat} (hn : n ≤ total) (h0 : n = 0 → total = 0) :
    ∃ count, shortCount count total = n := by
  refine ⟨n, ?_⟩
  unfold shortCount
  omega

/-! ## The buffers a call looks at -/

/-- The first buffer is empty. -/
def HeadEmpty (bufs : List Slice) : Prop := ∀ buf ∈ bufs.head?, buf.len = 0

/-- The first buffer is not empty, or there is none. -/
def HeadFull (bufs : List Slice) : Prop := ∀ buf ∈ bufs.head?, 0 < buf.len

theorem Slice.addrs_of_isEmpty {s : Slice} (h : s.isEmpty = true) : s.addrs = [] := by
  have hLen := Slice.isEmpty_iff.mp h
  simp [Slice.addrs, hLen]

/-- `win` covers a leading range of the bytes of `bufs`, and is empty only if
the first buffer is. -/
structure LeadingWindow (bufs win : List Slice) : Prop where
  cells_eq : cells win = (cells bufs).take (totalLen win)
  le : totalLen win ≤ totalLen bufs
  headEmpty : totalLen win = 0 → HeadEmpty bufs

theorem LeadingWindow.gather (m : Memory) {bufs win : List Slice}
    (h : LeadingWindow bufs win) :
    m.gather win = (m.gather bufs).take (totalLen win) := by
  unfold Memory.gather
  rw [h.cells_eq, List.map_take]

theorem leadingWindow_take {bufs : List Slice} {k : Nat} (hk : k ≠ 0) :
    LeadingWindow bufs (bufs.take k) where
  cells_eq := cells_take bufs k
  le := totalLen_take_le bufs k
  headEmpty h := by
    cases bufs with
    | nil => simp [HeadEmpty]
    | cons buf bufs =>
      obtain ⟨k, rfl⟩ : ∃ k', k = k' + 1 := ⟨k - 1, by omega⟩
      rw [List.take_succ_cons, totalLen_cons] at h
      intro b hb
      rw [List.head?_cons, Option.mem_some_iff] at hb
      subst hb
      omega

/-- The first non-empty buffer covers the first bytes there are. -/
theorem leadingWindow_firstNonEmpty (bufs : List Slice) :
    LeadingWindow bufs [firstNonEmpty bufs] := by
  induction bufs with
  | nil => exact ⟨rfl, Nat.le_refl _, fun _ => by simp [HeadEmpty]⟩
  | cons buf bufs ih =>
    cases hE : buf.isEmpty with
    | false =>
      have hFirst : firstNonEmpty (buf :: bufs) = buf := by simp [firstNonEmpty, hE]
      have hTake : LeadingWindow (buf :: bufs) ((buf :: bufs).take 1) :=
        leadingWindow_take (by omega)
      rwa [hFirst]
    | true =>
      -- an empty head neither holds a byte nor is found
      have hFirst : firstNonEmpty (buf :: bufs) = firstNonEmpty bufs := by
        simp [firstNonEmpty, hE]
      have hCells : cells (buf :: bufs) = cells bufs := by
        rw [cells_cons, Slice.addrs_of_isEmpty hE, List.nil_append]
      have hLen : totalLen (buf :: bufs) = totalLen bufs := by
        rw [totalLen_cons, Slice.isEmpty_iff.mp hE, Nat.zero_add]
      rw [hFirst]
      refine ⟨by rw [hCells]; exact ih.cells_eq, by rw [hLen]; exact ih.le, fun _ => ?_⟩
      intro b hb
      rw [List.head?_cons, Option.mem_some_iff] at hb
      exact hb ▸ Slice.isEmpty_iff.mp hE

theorem leadingWindow_self (buf : Slice) : LeadingWindow [buf] [buf] :=
  leadingWindow_take (k := 1) (by decide)

theorem not_headEmpty_singleton {buf : Slice} (hne : buf.isEmpty = false) :
    ¬ HeadEmpty [buf] := fun hEmpty => by
  have hPos := Slice.isEmpty_eq_false.mp hne
  have hZero : buf.len = 0 := hEmpty buf rfl
  omega

theorem cells_singleton (buf : Slice) : cells [buf] = buf.addrs := by
  rw [cells_cons, cells_nil, List.append_nil]

theorem Slice.addrs_ne_nil {s : Slice} (h : s.len ≠ 0) : s.addrs ≠ [] := by
  intro hNil
  rw [← Slice.length_addrs, hNil] at h
  exact h rfl

theorem cells_ne_nil {bufs : List Slice} (h : totalLen bufs ≠ 0) : cells bufs ≠ [] := by
  intro hNil
  rw [← length_cells, hNil] at h
  exact h rfl

end SystemInterface
