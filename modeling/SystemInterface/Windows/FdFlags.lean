import Mathlib.Data.List.Nodup
import SystemInterface.Model.Definitions
import SystemInterface.Model.FdFlags

/-!
# SystemInterface — file descriptor flags on Windows

`GetSetFdFlags` on Windows has no flags to set: it opens the file again, with the
access rights that stand for the flags, and the handle takes the place of the old
one. What the new handle may do follows from what the old one may and from the
flags, so that a run of changes carries the rights from handle to handle.

The rights of `winx` and the calls on handles are parameters; that a handle has
the rights it was opened with is `ReopenGrants`.

Main results:

* `Winx.change_access` — the rights after one change;
* `Winx.changeAll_canRead`, `Winx.changeAll_canWrite` — after a run of changes;
* `set_fd_flags_rights_iff` — the runs that keep the rights of the first handle.
-/

namespace SystemInterface.Windows

open Effect

-- ---------------------------------------------------------------------------
-- Rights
-- ---------------------------------------------------------------------------

/-- `winx::file::AccessMode`: the rights that are single bits, by their number, and
the two generic ones. -/
structure AccessMode where
  fileReadData : Fin 32
  fileWriteData : Fin 32
  fileAppendData : Fin 32
  fileWriteAttributes : Fin 32
  readControl : Fin 32
  fileGenericRead : Flags 32
  fileGenericWrite : Flags 32
  nodup : [fileReadData, fileWriteData, fileAppendData, fileWriteAttributes, readControl].Nodup
  genericRead_readData : fileGenericRead.contains (.single fileReadData) = true
  genericRead_writeData : fileGenericRead.contains (.single fileWriteData) = false
  genericRead_appendData : fileGenericRead.contains (.single fileAppendData) = false
  genericWrite_readData : fileGenericWrite.contains (.single fileReadData) = false
  genericWrite_writeData : fileGenericWrite.contains (.single fileWriteData) = true
  genericWrite_appendData : fileGenericWrite.contains (.single fileAppendData) = true

/-- What `fd_flags.rs` uses of `winx`, `windows_sys` and `cap_fs_ext` on handles of
type `H`. -/
structure Winx (H : Type) where
  accessMode : AccessMode
  fileFlagWriteThrough : Flags 32
  fileWriteThrough : Flags 32
  queryAccessInformation : H → Except IoError (Flags 32)
  queryModeInformation : H → Except IoError (Flags 32)
  reopen : H → (access custom : Flags 32) → Except IoError H

/-- `SetFdFlags<T>`. -/
structure SetFdFlags (H : Type) where
  reopened : H

-- ---------------------------------------------------------------------------
-- The source
-- ---------------------------------------------------------------------------

def fileAccessModeFromFdFlags (m : AccessMode) (fdFlags : FdFlags) (read write : Bool) :
    Flags 32 :=
  let accessMode := Flags.single m.readControl
  let accessMode := accessMode.insert (.single m.fileWriteAttributes)
  let accessMode := if read then accessMode.insert m.fileGenericRead else accessMode
  let accessMode := if write then accessMode.insert m.fileGenericWrite else accessMode
  if fdFlags.contains FdFlags.APPEND then
    (accessMode.insert (.single m.fileAppendData)).remove (.single m.fileWriteData)
  else accessMode

namespace Winx

variable {H : Type} (os : Winx H)

def getFdFlags (self : H) : Except IoError FdFlags := do
  let accessMode ← os.queryAccessInformation self
  let mode ← os.queryModeInformation self
  let fdFlags := FdFlags.empty
  let fdFlags :=
    if accessMode.contains (.single os.accessMode.fileAppendData) &&
        !accessMode.contains (.single os.accessMode.fileWriteData) then
      fdFlags.insert FdFlags.APPEND
    else fdFlags
  let fdFlags :=
    if mode.contains os.fileWriteThrough then fdFlags.insert FdFlags.DSYNC else fdFlags
  return fdFlags

def newSetFdFlags (self : H) (fdFlags : FdFlags) : Except IoError (SetFdFlags H) := do
  let flags : Flags 32 :=
    if fdFlags.contains FdFlags.SYNC || fdFlags.contains FdFlags.DSYNC then
      Flags.insert 0 os.fileFlagWriteThrough
    else 0
  let accessMode ← os.queryAccessInformation self
  let newAccessMode := fileAccessModeFromFdFlags os.accessMode fdFlags
    (accessMode.contains (.single os.accessMode.fileReadData))
    (accessMode.contains (.single os.accessMode.fileWriteData) ||
      accessMode.contains (.single os.accessMode.fileAppendData))
  let reopened ← os.reopen self newAccessMode flags
  return ⟨reopened⟩

/-- The handle that takes the place of `self`. -/
def setFdFlags (_self : H) (setFdFlags : SetFdFlags H) : Except IoError H :=
  .ok setFdFlags.reopened

/-- `new_set_fd_flags`, then `set_fd_flags`. -/
def change (self : H) (fdFlags : FdFlags) : Except IoError H := do
  let set ← os.newSetFdFlags self fdFlags
  setFdFlags self set

/-- A run of changes; the last handle of it. -/
def changeAll (self : H) (changes : List FdFlags) : Except IoError H :=
  changes.foldlM os.change self

-- ---------------------------------------------------------------------------
-- Rights along a run
-- ---------------------------------------------------------------------------

/-- A reopened handle has exactly the rights that it was opened with. -/
def ReopenGrants : Prop :=
  ∀ h access custom h', os.reopen h access custom = .ok h' →
    os.queryAccessInformation h' = .ok access

/-- The handle has the right. -/
def has (h : H) (right : Fin 32) : Bool :=
  match os.queryAccessInformation h with
  | .ok access => access.contains (.single right)
  | .error _ => false

def canRead (h : H) : Bool := os.has h os.accessMode.fileReadData

def canWrite (h : H) : Bool :=
  os.has h os.accessMode.fileWriteData || os.has h os.accessMode.fileAppendData

end Winx

section

variable (m : AccessMode) (fdFlags : FdFlags) (read write : Bool)

/-- The right, of the ones that every handle gets and of the generic ones. -/
def AccessMode.base (right : Fin 32) : Bool :=
  decide (m.readControl = right) || decide (m.fileWriteAttributes = right) ||
    (read && m.fileGenericRead.contains (.single right)) ||
    (write && m.fileGenericWrite.contains (.single right))

theorem fileAccessMode_contains (right : Fin 32) :
    (fileAccessModeFromFdFlags m fdFlags read write).contains (.single right) =
      if fdFlags.contains FdFlags.APPEND then
        (m.base read write right || decide (m.fileAppendData = right)) &&
          !decide (m.fileWriteData = right)
      else m.base read write right := by
  rw [fileAccessModeFromFdFlags]
  split
  all_goals simp only [Flags.remove_contains, Flags.insert_contains, Flags.insert_if_contains,
    Flags.contains_single_single, AccessMode.base]

/-- The two rights that every handle gets are not about the data. -/
theorem AccessMode.base_data {right : Fin 32} (hControl : m.readControl ≠ right)
    (hAttributes : m.fileWriteAttributes ≠ right) :
    m.base read write right = ((read && m.fileGenericRead.contains (.single right)) ||
      (write && m.fileGenericWrite.contains (.single right))) := by
  rw [AccessMode.base, decide_eq_false hControl, decide_eq_false hAttributes, Bool.false_or,
    Bool.false_or]

/-- The data rights and the two others are five rights. -/
theorem AccessMode.distinct :
    (m.fileWriteData ≠ m.fileReadData ∧ m.fileAppendData ≠ m.fileReadData ∧
      m.fileAppendData ≠ m.fileWriteData) ∧
    (∀ right ∈ [m.fileReadData, m.fileWriteData, m.fileAppendData],
      m.readControl ≠ right ∧ m.fileWriteAttributes ≠ right) := by
  have h := m.nodup
  simp only [List.nodup_cons, List.mem_cons, List.not_mem_nil, not_or] at h
  grind

/-- The read right is granted as it is asked for. -/
theorem fileAccessMode_readData :
    (fileAccessModeFromFdFlags m fdFlags read write).contains (.single m.fileReadData) = read := by
  obtain ⟨⟨hWrite, hAppend, -⟩, hData⟩ := m.distinct
  obtain ⟨hControl, hAttributes⟩ := hData m.fileReadData (by simp)
  rw [fileAccessMode_contains, m.base_data read write hControl hAttributes,
    m.genericRead_readData, m.genericWrite_readData, decide_eq_false hWrite,
    decide_eq_false hAppend]
  simp

/-- With `APPEND` the handle loses the right to write other than at the end. -/
theorem fileAccessMode_writeData :
    (fileAccessModeFromFdFlags m fdFlags read write).contains (.single m.fileWriteData) =
      (write && !fdFlags.contains FdFlags.APPEND) := by
  obtain ⟨-, hData⟩ := m.distinct
  obtain ⟨hControl, hAttributes⟩ := hData m.fileWriteData (by simp)
  rw [fileAccessMode_contains, m.base_data read write hControl hAttributes,
    m.genericRead_writeData, m.genericWrite_writeData]
  cases fdFlags.contains FdFlags.APPEND <;> simp

/-- With `APPEND` the handle gets the right to append, with or without `write`. -/
theorem fileAccessMode_appendData :
    (fileAccessModeFromFdFlags m fdFlags read write).contains (.single m.fileAppendData) =
      (write || fdFlags.contains FdFlags.APPEND) := by
  obtain ⟨⟨-, -, hWrite⟩, hData⟩ := m.distinct
  obtain ⟨hControl, hAttributes⟩ := hData m.fileAppendData (by simp)
  rw [fileAccessMode_contains, m.base_data read write hControl hAttributes,
    m.genericRead_appendData, m.genericWrite_appendData, decide_eq_false (Ne.symm hWrite)]
  cases fdFlags.contains FdFlags.APPEND <;> simp

end

-- ---------------------------------------------------------------------------
-- Changes
-- ---------------------------------------------------------------------------

namespace Winx

variable {H : Type} {os : Winx H} {h h' : H} {fdFlags : FdFlags} {changes : List FdFlags}

theorem has_of_access {access : Flags 32} (hQuery : os.queryAccessInformation h = .ok access)
    (right : Fin 32) : os.has h right = access.contains (.single right) := by
  rw [has, hQuery]

/-- **One change.** The new handle has the rights that stand for the flags and for
what the old one can do. -/
theorem change_access (hGrants : os.ReopenGrants) (hChange : os.change h fdFlags = .ok h') :
    os.queryAccessInformation h' =
      .ok (fileAccessModeFromFdFlags os.accessMode fdFlags (os.canRead h) (os.canWrite h)) := by
  obtain ⟨set, hNew, hSet⟩ := bind_eq_ok.mp hChange
  obtain ⟨access, hQuery, hNew⟩ := bind_eq_ok.mp hNew
  obtain ⟨reopened, hReopen, hReturn⟩ := bind_eq_ok.mp hNew
  cases hReturn
  cases hSet
  rw [canRead, canWrite, has_of_access hQuery, has_of_access hQuery, has_of_access hQuery]
  exact hGrants h _ _ reopened hReopen

/-- A change keeps what can be read. -/
theorem change_canRead (hGrants : os.ReopenGrants) (hChange : os.change h fdFlags = .ok h') :
    os.canRead h' = os.canRead h := by
  rw [canRead, has_of_access (change_access hGrants hChange), fileAccessMode_readData]

/-- After a change to `APPEND` the handle can write, whatever it could before. -/
theorem change_canWrite (hGrants : os.ReopenGrants) (hChange : os.change h fdFlags = .ok h') :
    os.canWrite h' = (os.canWrite h || fdFlags.contains FdFlags.APPEND) := by
  have hAccess := change_access hGrants hChange
  conv_lhs => rw [canWrite]
  rw [has_of_access hAccess, has_of_access hAccess, fileAccessMode_writeData,
    fileAccessMode_appendData]
  cases os.canWrite h <;> simp

/-- `get_fd_flags` reports what the last change asked for. -/
theorem change_append (hGrants : os.ReopenGrants) (hChange : os.change h fdFlags = .ok h')
    {reported : FdFlags} (hReport : os.getFdFlags h' = .ok reported) :
    reported.contains FdFlags.APPEND = fdFlags.contains FdFlags.APPEND := by
  obtain ⟨access, hQuery, hReport⟩ := bind_eq_ok.mp hReport
  obtain ⟨mode, -, hReturn⟩ := bind_eq_ok.mp hReport
  cases hReturn
  cases (change_access hGrants hChange).symm.trans hQuery
  -- neither `empty` nor `DSYNC` holds the bit of `APPEND`
  have hBit : FdFlags.APPEND = .single 0 := by decide
  have hDsync : FdFlags.DSYNC.contains (.single 0) = false := by decide
  have hEmpty : FdFlags.empty.contains (.single 0) = false := by decide
  have hSame : (Flags.single (w := 32) 0).contains (.single 0) = true := by decide
  rw [hBit, Flags.insert_if_contains, Flags.insert_if_contains, hDsync, hEmpty, hSame,
    fileAccessMode_writeData, fileAccessMode_appendData, ← hBit]
  cases os.canWrite h <;> cases fdFlags.contains FdFlags.APPEND <;> simp

-- ---------------------------------------------------------------------------
-- Runs
-- ---------------------------------------------------------------------------

theorem changeAll_cons (hRun : os.changeAll h (fdFlags :: changes) = .ok h') :
    ∃ h₁, os.change h fdFlags = .ok h₁ ∧ os.changeAll h₁ changes = .ok h' := by
  rw [changeAll, List.foldlM_cons] at hRun
  exact bind_eq_ok.mp hRun

/-- **A run keeps what can be read.** -/
theorem changeAll_canRead (hGrants : os.ReopenGrants) (hRun : os.changeAll h changes = .ok h') :
    os.canRead h' = os.canRead h := by
  induction changes generalizing h with
  | nil =>
    cases hRun
    rfl
  | cons fdFlags changes ih =>
    obtain ⟨h₁, hChange, hRest⟩ := changeAll_cons hRun
    rw [ih hRest, change_canRead hGrants hChange]

/-- **One `APPEND` in a run is enough to write from there on.** -/
theorem changeAll_canWrite (hGrants : os.ReopenGrants) (hRun : os.changeAll h changes = .ok h') :
    os.canWrite h' = (os.canWrite h || changes.any fun fdFlags =>
      fdFlags.contains FdFlags.APPEND) := by
  induction changes generalizing h with
  | nil =>
    cases hRun
    rw [List.any_nil, Bool.or_false]
  | cons fdFlags changes ih =>
    obtain ⟨h₁, hChange, hRest⟩ := changeAll_cons hRun
    rw [ih hRest, change_canWrite hGrants hChange, List.any_cons, Bool.or_assoc]

/-- A run keeps what can be written, if there was nothing to gain or nothing is gained. -/
theorem changeAll_canWrite_eq_iff (hGrants : os.ReopenGrants)
    (hRun : os.changeAll h changes = .ok h') :
    os.canWrite h' = os.canWrite h ↔ (os.canWrite h = true ∨
      ∀ fdFlags ∈ changes, fdFlags.contains FdFlags.APPEND = false) := by
  rw [changeAll_canWrite hGrants hRun]
  cases os.canWrite h with
  | true => simp
  | false => simp [List.any_eq_false]

/-- Every handle of the run reads if and only if the first one does, and writes if
and only if the first one does. -/
def KeepsRights (os : Winx H) (h : H) (changes : List FdFlags) : Prop :=
  ∀ before after h', changes = before ++ after → os.changeAll h before = .ok h' →
    os.canRead h' = os.canRead h ∧ os.canWrite h' = os.canWrite h

/-- After each change of a handle that can write, `get_fd_flags` reports `APPEND` if
and only if the change asked for it. -/
def ReportsAppend (os : Winx H) (h : H) (changes : List FdFlags) : Prop :=
  ∀ before fdFlags after h₁ h₂ reported, changes = before ++ fdFlags :: after →
    os.changeAll h before = .ok h₁ → os.change h₁ fdFlags = .ok h₂ → os.canWrite h₁ = true →
      os.getFdFlags h₂ = .ok reported →
        reported.contains FdFlags.APPEND = fdFlags.contains FdFlags.APPEND

end Winx

/-- **The runs that keep the rights of the first handle.** They are those from a
handle that can write, and those that never ask for `APPEND`: this flag is granted
as the right to append, to a handle that can only read as well. -/
theorem set_fd_flags_rights_iff {H : Type} {os : Winx H} (hGrants : os.ReopenGrants) {h h' : H}
    {changes : List FdFlags} (hRun : os.changeAll h changes = .ok h') :
    (os.KeepsRights h changes ∧ os.ReportsAppend h changes) ↔
      (os.canWrite h = true ∨
        ∀ fdFlags ∈ changes, fdFlags.contains FdFlags.APPEND = false) := by
  constructor
  · rintro ⟨hKeeps, -⟩
    obtain ⟨-, hWrite⟩ := hKeeps changes [] h' (List.append_nil changes).symm hRun
    exact (Winx.changeAll_canWrite_eq_iff hGrants hRun).mp hWrite
  · intro hWhen
    constructor
    · intro before after h₁ hSplit hBefore
      refine ⟨Winx.changeAll_canRead hGrants hBefore, ?_⟩
      rw [Winx.changeAll_canWrite_eq_iff hGrants hBefore]
      refine hWhen.imp_right fun hNever fdFlags hMem => hNever fdFlags ?_
      rw [hSplit]
      exact List.mem_append_left after hMem
    · intro before fdFlags after h₁ h₂ reported _ _ hChange _ hReport
      exact Winx.change_append hGrants hChange hReport

/-- The numbers of the rights on Windows. -/
def windowsRights : AccessMode where
  fileReadData := 0
  fileWriteData := 1
  fileAppendData := 2
  fileWriteAttributes := 8
  readControl := 17
  fileGenericRead := 0x120089
  fileGenericWrite := 0x120116
  nodup := by decide
  genericRead_readData := by decide
  genericRead_writeData := by decide
  genericRead_appendData := by decide
  genericWrite_readData := by decide
  genericWrite_writeData := by decide
  genericWrite_appendData := by decide

/-- Handles that are their rights and their mode. -/
def windowsFiles : Winx (Flags 32 × Flags 32) where
  accessMode := windowsRights
  fileFlagWriteThrough := 0x80000000
  fileWriteThrough := 0x2
  queryAccessInformation h := .ok h.1
  queryModeInformation h := .ok h.2
  reopen _ access custom :=
    .ok (access, if custom.contains 0x80000000 then 0x2 else 0)

theorem windowsFiles_grants : windowsFiles.ReopenGrants := by
  intro h access custom h' hReopen
  cases hReopen
  rfl

/-- A file that is written, set to append and back. -/
theorem set_fd_flags_rights_iff_written :
    (windowsFiles.KeepsRights (0x12019F, 0) [FdFlags.APPEND, FdFlags.NONBLOCK] ∧
      windowsFiles.ReportsAppend (0x12019F, 0) [FdFlags.APPEND, FdFlags.NONBLOCK]) ↔
    (windowsFiles.canWrite (0x12019F, 0) = true ∨
      ∀ fdFlags ∈ [FdFlags.APPEND, FdFlags.NONBLOCK],
        fdFlags.contains FdFlags.APPEND = false) := by
  have hRun : windowsFiles.changeAll (0x12019F, 0) [FdFlags.APPEND, FdFlags.NONBLOCK] =
      .ok (0x12019F, 0) := by decide
  exact set_fd_flags_rights_iff windowsFiles_grants hRun

/-- A file opened for reading can be written after its flags are set to append and
back. -/
theorem read_only_file_escalates :
    ¬ ∀ (os : Winx (Flags 32 × Flags 32)), os.ReopenGrants →
      ∀ h changes h', os.changeAll h changes = .ok h' →
        os.KeepsRights h changes ∧ os.ReportsAppend h changes := by
  intro hAll
  have hRun : windowsFiles.changeAll (windowsRights.fileGenericRead, 0)
      [FdFlags.APPEND, FdFlags.empty] = .ok (0x12019F, 0) := by decide
  obtain ⟨hKeeps, -⟩ := hAll windowsFiles windowsFiles_grants _ _ _ hRun
  obtain ⟨-, hWrite⟩ := hKeeps _ [] _ (List.append_nil _).symm hRun
  exact absurd hWrite (by decide)

end SystemInterface.Windows
