import SystemInterface.Lib.Recursion
import SystemInterface.Model.ToEnd

/-!
# SystemInterface — `IoExt::peek`

`IoExt::peek` asks the handle as a socket first. If it is none, the handle is to
be peeked at as a file: `.peek(buf)` on the view as a `File`. A `File` has no such
method of its own, and of the two traits that give it one, only `IoExt` is in scope
there; `Peek` of `peek.rs` is not. So the method called is `IoExt::peek` itself, on
the same descriptor.

Main results:

* `Handle.ioExtPeek_socket` — a socket answers for itself;
* `Handle.ioExtPeek_diverges` — the call on any other handle does not return;
* `io_ext_peek_iff` — the handles that are peeked at as the trait says.
-/

namespace SystemInterface

open Effect

/-- `err.raw_os_error()`. -/
def Fault.rawOsError : Fault → Option Errno
  | .err (.os e) => some e
  | _ => none

namespace Unix

variable {σ : Type}

/-- What a descriptor stands for; `unseekable` is neither a socket nor seekable. -/
inductive HandleKind where
  | socket
  | regular
  | unseekable
  | other
  deriving DecidableEq, Repr

def notSocket : Fault := .err (.os .NOTSOCK)

/-- A handle, by the `peek` of its view as a `TcpStream`. -/
structure Handle (σ : Type) where
  kind : HandleKind
  tcpPeek : Slice → Proc σ Fault Nat
  socket_peek : kind = .socket → ∀ buf w w', ¬ (tcpPeek buf).Returns w (.error notSocket) w'
  not_socket_peek : kind ≠ .socket → ∀ buf w, (tcpPeek buf).Returns w (.error notSocket) w

-- ---------------------------------------------------------------------------
-- The source
-- ---------------------------------------------------------------------------

/-- The inner `match` of `peek`, on what the call on the view as a `File` gives. -/
def peekedAsFile : Except Fault Nat → Proc σ Fault Nat
  | .ok n => Proc.ofExcept (.ok n)
  | .error err =>
    if err.rawOsError = some .SPIPE then pure 0 else Proc.ofExcept (.error err)

/-- The outer `match`, on what the call on the view as a `TcpStream` gives. -/
def peekedAsSocket (filePeek : Proc σ Fault Nat) : Except Fault Nat → Proc σ Fault Nat
  | .ok n => Proc.ofExcept (.ok n)
  | .error err =>
    if err.rawOsError = some .NOTSOCK then filePeek.attempt >>= peekedAsFile
    else Proc.ofExcept (.error err)

theorem peekedAsSocket_mono {x y : Proc σ Fault Nat} (hxy : x ≤ y) (o : Except Fault Nat) :
    peekedAsSocket x o ≤ peekedAsSocket y o := by
  cases o with
  | ok n => exact le_rfl
  | error err =>
    simp only [peekedAsSocket]
    split
    · exact Proc.bind_mono (Proc.attempt_mono hxy) fun _ => le_rfl
    · exact le_rfl

namespace Handle

variable (h : Handle σ) (buf : Slice)

/-- The body of `IoExt::peek`, with the procedure that `.peek(buf)` on the view as a
`File` calls. -/
def peekBody : Proc σ Fault Nat →o Proc σ Fault Nat where
  toFun filePeek := (h.tcpPeek buf).attempt >>= peekedAsSocket filePeek
  monotone' _ _ hxy := Proc.bind_mono le_rfl fun o => peekedAsSocket_mono hxy o

/-- `IoExt::peek`: the call on the view as a `File` is one of itself. -/
def ioExtPeek : Proc σ Fault Nat := Proc.fix (h.peekBody buf)

-- ---------------------------------------------------------------------------
-- Sockets
-- ---------------------------------------------------------------------------

variable {h buf} {w w' : σ} {r : Except Fault Nat}

theorem rawOsError_notSocket {err : Fault} (hErr : err.rawOsError = some .NOTSOCK) :
    err = notSocket := by
  unfold Fault.rawOsError at hErr
  split at hErr
  · rw [Option.some.inj hErr]
    rfl
  · exact absurd hErr (by simp)

/-- An outcome of a socket is passed on as it is. -/
theorem peekedAsSocket_returns (filePeek : Proc σ Fault Nat)
    (hr : r ≠ .error notSocket) : (peekedAsSocket filePeek r).Returns w r w := by
  cases r with
  | ok n => exact Proc.returns_ofExcept.mpr ⟨rfl, rfl⟩
  | error err =>
    have hErr : err.rawOsError ≠ some .NOTSOCK :=
      fun hErr => hr (congrArg Except.error (rawOsError_notSocket hErr))
    rw [peekedAsSocket, if_neg hErr]
    exact Proc.returns_ofExcept.mpr ⟨rfl, rfl⟩

theorem peekBody_returns (hKind : h.kind = .socket) (filePeek : Proc σ Fault Nat)
    (hPeek : (h.tcpPeek buf).Returns w r w') : (h.peekBody buf filePeek).Returns w r w' := by
  have hr : r ≠ .error notSocket := by
    rintro rfl
    exact h.socket_peek hKind buf w w' hPeek
  exact Proc.returns_attempt_bind.mpr ⟨r, w', hPeek, peekedAsSocket_returns filePeek hr⟩

/-- **A socket answers for itself**: what the peek of the socket returns is returned,
and nothing else. -/
theorem ioExtPeek_socket (hKind : h.kind = .socket) :
    (h.ioExtPeek buf).Returns w r w' ↔ (h.tcpPeek buf).Returns w r w' := by
  constructor
  · intro hReturns
    obtain ⟨n, hNested⟩ := Proc.fix_returns_iff.mp hReturns
    cases n with
    | zero => exact absurd hNested (Proc.diverges_iff.mp (Proc.never_diverges w) r w')
    | succ n =>
      rw [Proc.nested_succ] at hNested
      -- the body returns no more than the peek of the socket does
      obtain ⟨o, w₁, hPeek, -⟩ := Proc.returns_attempt_bind.mp hNested
      obtain ⟨rfl, rfl⟩ := hNested.det (peekBody_returns hKind _ hPeek)
      exact hPeek
  · exact fun hPeek => Proc.fix_returns_of_base (peekBody_returns hKind _ hPeek)

-- ---------------------------------------------------------------------------
-- Other handles
-- ---------------------------------------------------------------------------

/-- **No other handle gets an answer**: each call comes to the call on the file. -/
theorem ioExtPeek_diverges (hKind : h.kind ≠ .socket) (buf : Slice) (w : σ) :
    (h.ioExtPeek buf).Diverges w := by
  apply Proc.fix_diverges
  intro filePeek hFile
  rw [Proc.diverges_iff]
  intro r w' hReturns
  obtain ⟨o, w₁, hTcp, hRest⟩ := Proc.returns_attempt_bind.mp hReturns
  obtain ⟨rfl, rfl⟩ := hTcp.det (h.not_socket_peek hKind buf w)
  -- the answer of the view as a socket sends the call on to the file
  have hErr : notSocket.rawOsError = some .NOTSOCK := rfl
  rw [peekedAsSocket, if_pos hErr] at hRest
  obtain ⟨o, w₁, hPeek, -⟩ := Proc.returns_attempt_bind.mp hRest
  exact Proc.diverges_iff.mp hFile _ _ hPeek

/-- What a peek is to do: to answer what the socket does; to show the bytes of a
regular file at its position, some of them if there are any; to answer zero where
neither can be done; and to return in any case. -/
def Peeks (V : View σ) (h : Handle σ) (peek : Slice → Proc σ Fault Nat) (buf : Slice) (w : σ) :
    Prop :=
  match h.kind with
  | .socket => ∀ r w', (peek buf).Returns w r w' ↔ (h.tcpPeek buf).Returns w r w'
  | .regular => ∃ n w', (peek buf).Returns w (.ok n) w' ∧ n ≤ buf.len ∧
      (buf.addrs.take n).map (V.file w').mem =
        ((V.file w).content.drop (V.file w).pos).take n ∧
      (0 < buf.len → (V.file w).pos < (V.file w).content.length → 0 < n) ∧
      (V.file w').pos = (V.file w).pos
  | .unseekable => ∃ w', (peek buf).Returns w (.ok 0) w'
  | .other => ∃ r w', (peek buf).Returns w r w'

theorem Peeks.returns {V : View σ} {peek : Slice → Proc σ Fault Nat} (hKind : h.kind ≠ .socket)
    (hPeeks : h.Peeks V peek buf w) : ∃ r w', (peek buf).Returns w r w' := by
  unfold Peeks at hPeeks
  split at hPeeks
  · next hSocket => exact absurd hSocket hKind
  · obtain ⟨n, w', hReturns, -⟩ := hPeeks
    exact ⟨_, w', hReturns⟩
  · obtain ⟨w', hReturns⟩ := hPeeks
    exact ⟨_, w', hReturns⟩
  · exact hPeeks

end Handle

/-- **`IoExt::peek` peeks at sockets only.** -/
theorem io_ext_peek_iff (V : View σ) (h : Handle σ) (buf : Slice) (w : σ) :
    h.Peeks V h.ioExtPeek buf w ↔ h.kind = .socket := by
  constructor
  · intro hPeeks
    by_contra hKind
    obtain ⟨r, w', hReturns⟩ := hPeeks.returns hKind
    exact Proc.diverges_iff.mp (Handle.ioExtPeek_diverges hKind buf w) r w' hReturns
  · intro hKind
    unfold Handle.Peeks
    rw [hKind]
    intro r w'
    exact Handle.ioExtPeek_socket hKind

/-- A regular file. -/
def regularHandle : Handle FileState where
  kind := .regular
  tcpPeek _ := Proc.ofExcept (.error notSocket)
  socket_peek hKind := absurd hKind (by simp)
  not_socket_peek _ _ _ := Proc.returns_ofExcept.mpr ⟨rfl, rfl⟩

/-- The peek at a file of one byte does not return. -/
theorem io_ext_peek_hangs_on_file :
    ¬ ∀ (V : View FileState) (h : Handle FileState) (buf : Slice) (w : FileState),
      h.Peeks V h.ioExtPeek buf w := by
  intro hAll
  obtain ⟨r, w', hReturns⟩ := Handle.Peeks.returns (by decide)
    (hAll ⟨id, fun w m => { w with mem := m }, fun _ _ => rfl⟩ regularHandle ⟨0, 1, by decide⟩
      ⟨fun _ => 0, [7], 0⟩)
  exact Proc.diverges_iff.mp (Handle.ioExtPeek_diverges (by decide) _ _) r w' hReturns

end Unix

end SystemInterface
