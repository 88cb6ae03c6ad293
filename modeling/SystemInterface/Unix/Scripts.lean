import SystemInterface.Lib.Script
import SystemInterface.Model.Session
import SystemInterface.Unix.Kernel

/-!
# SystemInterface — the Unix implementation, call by call

The methods of the Unix implementation as scripts over system calls, so that the
calls of several clients can be interleaved. A script run whole is the method.

Main result:

* `sessionScript_toProc` — a session, one system call at a time.
-/

namespace SystemInterface.Unix

open Effect

/-- What the clients of one description share: the file and the description. -/
structure OpenFile where
  content : List UInt8
  desc : Desc

/-- A method of the implementation, with its loops. -/
abbrev Script (α : Type) := Effect.Script SysCall SysCall.Reply Fault α

/-- Hand the outcome of a call over as a reply. -/
def replied {α : Type} (x : Script α) (of : Result α → Reply) : Script Reply :=
  x.andThen fun r => .done (.ok (of r))

section

variable (p : Profile)

def readExactAtScript (buf : Slice) (offset : Nat) : Script Unit :=
  (RustStd.readExactAt.transfer p).script (fun s => .ofProg (readAt s.1 s.2)) (buf, offset)

def readExactVectoredAtScript (bufs : List IoSliceMut) (offset : Nat) : Script Unit :=
  (FileIoExt.Default.readExactVectoredAt.transfer p).script
    (fun s => .ofProg (readVectoredAt s.1 s.2)) (skipLeadingEmpties bufs, offset)

def writeAllAtScript (buf : Slice) (offset : Nat) : Script Unit :=
  (RustStd.writeAllAt.transfer p).script (fun s => .ofProg (writeAt s.1 s.2)) (buf, offset)

def writeAllVectoredAtScript (bufs : List IoSlice) (offset : Nat) : Script Unit :=
  (FileIoExt.Default.writeAllVectoredAt.transfer p).script
    (fun s => .ofProg (writeVectoredAt s.1 s.2)) (bufs, offset)

def appendAllScript (buf : Slice) : Script Unit :=
  FileIoExt.Default.appendAll.transfer.script (fun s => .ofProg (append s)) buf

def appendAllVectoredScript (bufs : List IoSlice) : Script Unit :=
  (FileIoExt.Default.appendAllVectored.transfer p).script (fun s => .ofProg (appendVectored s)) bufs

/-- A call on a file. -/
def script : Op → Script Reply
  | .writeAllAt buf offset => replied (writeAllAtScript p buf offset) .unit
  | .writeAllVectoredAt bufs offset => replied (writeAllVectoredAtScript p bufs offset) .unit
  | .readExactAt buf offset => replied (readExactAtScript p buf offset) .unit
  | .readExactVectoredAt bufs offset => replied (readExactVectoredAtScript p bufs offset) .unit
  | .appendAll buf => replied (appendAllScript buf) .unit
  | .appendAllVectored bufs => replied (appendAllVectoredScript p bufs) .unit
  | .seek pos => replied (.ofProg (seek pos)) .position
  | .streamPosition => replied (.ofProg streamPosition) .position

def sessionScript (ops : List Op) : Script (List Reply) := Effect.Script.each (script p) ops

end

variable (p : Profile) (env : Env)

theorem replied_toProc {α : Type} (x : Script α) (of : Result α → Reply) :
    (replied x of).toProc (Kernel.handle env) = reply (x.toProc (Kernel.handle env)) of :=
  Script.toProc_andThen x _

theorem transfer_toProc {S : Type} (t : Transfer S Fault) (call : S → Method Nat) (s : S) :
    (t.script (fun s => .ofProg (call s)) s).toProc (Kernel.handle env) =
      t.run (fun s => Kernel.run env (call s)) s := by
  rw [Transfer.script_toProc]
  simp only [Script.toProc_ofProg, Kernel.run]

/-- A call run whole is the method. -/
theorem script_toProc (op : Op) :
    (script p op).toProc (Kernel.handle env) = op.perform (file p env) := by
  cases op with
  | writeAllAt buf offset =>
    exact (replied_toProc env _ _).trans (congrArg (reply · _) (transfer_toProc env _ _ _))
  | writeAllVectoredAt bufs offset =>
    exact (replied_toProc env _ _).trans (congrArg (reply · _) (transfer_toProc env _ _ _))
  | readExactAt buf offset =>
    exact (replied_toProc env _ _).trans (congrArg (reply · _) (transfer_toProc env _ _ _))
  | readExactVectoredAt bufs offset =>
    exact (replied_toProc env _ _).trans (congrArg (reply · _) (transfer_toProc env _ _ _))
  | appendAll buf =>
    exact (replied_toProc env _ _).trans (congrArg (reply · _) (transfer_toProc env _ _ _))
  | appendAllVectored bufs =>
    exact (replied_toProc env _ _).trans (congrArg (reply · _) (transfer_toProc env _ _ _))
  | seek pos =>
    exact (replied_toProc env _ _).trans (congrArg (reply · _) (Script.toProc_ofProg _))
  | streamPosition =>
    exact (replied_toProc env _ _).trans (congrArg (reply · _) (Script.toProc_ofProg _))

/-- **A session, one system call at a time.** -/
theorem sessionScript_toProc (ops : List Op) :
    (sessionScript p ops).toProc (Kernel.handle env) = session (file p env) ops := by
  induction ops with
  | nil => rfl
  | cons op ops ih =>
    rw [sessionScript, Script.toProc_each_cons, script_toProc, session]
    exact congrArg _ (funext fun r => congrArg (· >>= _) ih)

end SystemInterface.Unix
