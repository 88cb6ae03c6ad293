import SystemInterface.Lib.Client
import SystemInterface.Unix.AppendAll

/-!
# SystemInterface — many clients appending to one file

Any number of clients run `append_all` or `append_all_vectored`, each on an
open file description of its own, all of one file. They take turns system call
by system call, in any order, and the kernel answers each call as it likes,
short of refusing to put a description back.

The invariant ties the state of a client to its description and to the calls
it has made itself, which no other client touches; the content of the file is
tied to the history of all calls.

Main result:

* `clients_interleave` — the file is its initial content followed by the
  chunks of the clients, in the order of their writes.
-/

namespace SystemInterface.Unix

open Effect

-- ---------------------------------------------------------------------------
-- The system
-- ---------------------------------------------------------------------------

/-- What a client has been asked to do. -/
inductive Job where
  | appendAll (buf : Slice)
  | appendAllVectored (bufs : List IoSlice)

def Job.data (mem : Memory) : Job → List UInt8
  | appendAll buf => mem.gather [buf]
  | appendAllVectored bufs => mem.gather bufs

/-- How far a client has come. -/
inductive Progress where
  | appendAll (run : Run SysCall SysCall.Reply Slice Fault)
  | appendAllVectored (run : Run SysCall SysCall.Reply (List IoSlice) Fault)

namespace Progress

def start (p : Profile) : Job → Progress
  | .appendAll buf => .appendAll (.enter FileIoExt.Default.appendAll.transfer append buf)
  | .appendAllVectored bufs => .appendAllVectored
      (.enter (FileIoExt.Default.appendAllVectored.transfer p) appendVectored bufs)

/-- One step of the client, a system call being carried out by `handle`. -/
def next {τ : Type} (p : Profile) (handle : (c : SysCall) → c.Reply × τ) :
    Progress → Progress × Option τ
  | .appendAll run =>
    (run.next FileIoExt.Default.appendAll.transfer append handle).map .appendAll id
  | .appendAllVectored run =>
    (run.next (FileIoExt.Default.appendAllVectored.transfer p) appendVectored handle).map
      .appendAllVectored id

def result : Progress → Option (Result Unit)
  | .appendAll run => run.result
  | .appendAllVectored run => run.result

end Progress

/-- The clients with their descriptions, the file they share, and the history
of all system calls. -/
structure World (I : Type) where
  content : List UInt8
  desc : I → Desc
  progress : I → Progress
  history : List (I × Event)

namespace World

variable {I : Type} [DecidableEq I]

def start (p : Profile) (jobs : I → Job) (content : List UInt8) (desc : I → Desc) : World I :=
  ⟨content, desc, fun i => .start p (jobs i), []⟩

/-- The calls client `i` has made. -/
def log (w : World I) (i : I) : List Event :=
  (w.history.filter fun x => x.1 = i).map Prod.snd

/-- What client `i` sees of its own. -/
def view (w : World I) (i : I) : Local := ⟨w.desc i, w.log i⟩

/-- A system call on the description of client `i`. -/
def handle (mem : Memory) (w : World I) (i : I) (decide : SysCall → Decision) (c : SysCall) :
    c.Reply × (Machine × Event) :=
  let (r, m) := Machine.step ⟨mem, w.content, w.desc i⟩ c (decide c)
  (r, (m, ⟨c, r.map c.moved⟩))

/-- Client `i` takes a step; if it makes a system call, `decide` says how the
kernel answers it. -/
def next (p : Profile) (mem : Memory) (w : World I) (i : I) (decide : SysCall → Decision) :
    World I :=
  let step := (w.progress i).next p (w.handle mem i decide)
  match step.2 with
  | some (m, ev) =>
    { content := m.content
      desc := Function.update w.desc i m.desc
      progress := Function.update w.progress i step.1
      history := w.history ++ [(i, ev)] }
  | none => { w with progress := Function.update w.progress i step.1 }

/-- Some client takes a step; putting a description back succeeds. -/
def Step (p : Profile) (mem : Memory) (w w' : World I) : Prop :=
  ∃ i decide, (∀ c, Restores (w.log i) c → ∃ count, decide c = .go count) ∧
    w' = w.next p mem i decide

/-- Any schedule of steps leads from the first world to the second. -/
def Reaches (p : Profile) (mem : Memory) : World I → World I → Prop :=
  Relation.ReflTransGen (Step p mem)

/-- The world after a schedule of steps. -/
def run (p : Profile) (mem : Memory) (w : World I)
    (schedule : List (I × (SysCall → Decision))) : World I :=
  schedule.foldl (fun w step => w.next p mem step.1 step.2) w

theorem reaches_run {p : Profile} {mem : Memory} (schedule : List (I × (SysCall → Decision)))
    (hRestore : ∀ step ∈ schedule, ∀ log c, Restores log c → ∃ count, step.2 c = .go count)
    (w : World I) : Reaches p mem w (w.run p mem schedule) := by
  induction schedule generalizing w with
  | nil => exact .refl
  | cons step schedule ih =>
    have hStep : Step p mem w (w.next p mem step.1 step.2) :=
      ⟨step.1, step.2, hRestore step (by simp) (w.log step.1), rfl⟩
    exact .head hStep (ih (fun s hs => hRestore s (by simp [hs])) _)

end World

-- ---------------------------------------------------------------------------
-- The invariant of a client
-- ---------------------------------------------------------------------------

/-- What `Run.Inv` says of a client in an append loop. -/
def ClientInv {S : Type} (mem : Memory) (l : BufferLoop S) (s₀ : S) (d₀ : Desc) :
    Run SysCall SysCall.Reply S Fault → Local → Prop :=
  Run.Inv l.transfer (appendRules mem) (l.addrs s₀).length (l.At s₀)
    (AppendLoop.Tracks mem l s₀ ⟨d₀, []⟩) (AppendLoop.Failed mem l s₀ ⟨d₀, []⟩)

def Progress.Inv (p : Profile) (mem : Memory) (d₀ : Desc) : Job → Progress → Local → Prop
  | .appendAll buf, .appendAll run =>
    ClientInv mem FileIoExt.Default.appendAll.bufferLoop buf d₀ run
  | .appendAllVectored bufs, .appendAllVectored run =>
    ClientInv mem (FileIoExt.Default.appendAllVectored.bufferLoop p) bufs d₀ run
  | _, _ => fun _ => False

section

variable {S : Type} {l : BufferLoop S} {call : S → Method Nat} {mem : Memory} {s₀ : S}
  {d₀ : Desc}

theorem AppendLoop.client_call (h : AppendLoop l call) (loc₀ : Local) (k : Nat) (s : S)
    (loc : Local) (hAt : l.At s₀ k s) (hne : l.transfer.isEmpty s = false)
    (hTracks : AppendLoop.Tracks mem l s₀ loc₀ k loc) :
    (call s).Holds (appendRules mem) (l.transfer.Moves (l.At s₀)
      (AppendLoop.Tracks mem l s₀ loc₀) (AppendLoop.Failed mem l s₀ loc₀) k s) loc :=
  (h.moved hAt hne hTracks).mono fun _ _ hMoved =>
    hAt.moves (BufferLoop.offsetFits_none (h.offset s₀)) hne hMoved

theorem AppendLoop.client_start (h : AppendLoop l call) (hReady : l.Ready s₀) :
    ClientInv mem l s₀ d₀ (Run.enter l.transfer call s₀) ⟨d₀, []⟩ :=
  Run.inv_enter (fun _ _ hAt hE => hAt.eq_total hE) (h.client_call _) (BufferLoop.At.start hReady)
    AppendLoop.Tracks.start

/-- A client that is through has its description back; it has written a prefix
of its data, and all of it if it reports `Ok`. -/
theorem ClientInv.result {run : Run SysCall SysCall.Reply S Fault} {loc : Local} {r : Result Unit}
    (h : ClientInv mem l s₀ d₀ run loc) (hr : run.result = some r) :
    loc.desc = d₀ ∧ ∃ n, written mem loc.log = ((l.addrs s₀).map mem).take n ∧
      (r = .ok () → n = (l.addrs s₀).length) := by
  match run, hr, h with
  | .finished (.ok ()), hr, ⟨hDesc, evs, hLog, hWritten⟩ =>
    obtain rfl := Option.some.inj hr
    exact ⟨hDesc, _, by rw [hLog]; exact hWritten, fun _ => rfl⟩
  | .finished (.error f), hr, ⟨k, s, _, hDesc, evs, hLog, hWritten, _⟩ =>
    obtain rfl := Option.some.inj hr
    exact ⟨hDesc, k, by rw [hLog]; exact hWritten, fun hOk => absurd hOk (by simp)⟩

end

theorem Progress.inv_start (p : Profile) (mem : Memory) (job : Job) (d₀ : Desc) :
    Progress.Inv p mem d₀ job (.start p job) ⟨d₀, []⟩ := by
  cases job with
  | appendAll buf => exact appendAll_loop.client_start trivial
  | appendAllVectored bufs => exact (appendAllVectored_loop p).client_start trivial

/-- **One step of a client**: a system call the rules allow, or none. -/
theorem Progress.inv_next {τ : Type} {p : Profile} {mem : Memory} {d₀ : Desc} {job : Job}
    (handle : (c : SysCall) → c.Reply × τ) (after : τ → Local) {c : Progress} {loc : Local}
    (hHandle : ∀ sc, sc.Appends loc.desc →
      Local.Step mem sc loc (handle sc).1 (after (handle sc).2))
    (hInv : Progress.Inv p mem d₀ job c loc) :
    (∀ v, (c.next p handle).2 = some v → (∃ sc, sc.Appends loc.desc ∧ v = (handle sc).2) ∧
      Progress.Inv p mem d₀ job (c.next p handle).1 (after v)) ∧
    ((c.next p handle).2 = none → Progress.Inv p mem d₀ job (c.next p handle).1 loc) := by
  match job, c, hInv with
  | .appendAll buf, .appendAll run, h =>
    exact Run.inv_next (fun _ _ hAt hE => hAt.eq_total hE) (appendAll_loop.client_call _) hHandle h
  | .appendAllVectored bufs, .appendAllVectored run, h =>
    exact Run.inv_next (fun _ _ hAt hE => hAt.eq_total hE)
      ((appendAllVectored_loop p).client_call _) hHandle h

theorem Progress.Inv.result {p : Profile} {mem : Memory} {d₀ : Desc} {job : Job} {c : Progress}
    {loc : Local} {r : Result Unit} (h : Progress.Inv p mem d₀ job c loc)
    (hr : c.result = some r) :
    loc.desc = d₀ ∧ ∃ n, written mem loc.log = (job.data mem).take n ∧
      (r = .ok () → n = (job.data mem).length) := by
  match job, c, h with
  | .appendAll buf, .appendAll run, h =>
    have hData : Job.data mem (.appendAll buf) = buf.addrs.map mem := by
      simp [Job.data, Memory.gather]
    rw [hData, List.length_map]
    exact ClientInv.result h hr
  | .appendAllVectored bufs, .appendAllVectored run, h =>
    have hLen : (Job.data mem (.appendAllVectored bufs)).length = (cells bufs).length := by
      rw [Job.data, Memory.length_gather, length_cells]
    rw [hLen]
    exact ClientInv.result h hr

-- ---------------------------------------------------------------------------
-- The invariant of the system
-- ---------------------------------------------------------------------------

namespace World

variable {I : Type} [DecidableEq I]

/-- The chunks of the history, with the clients that wrote them. -/
def chunks (mem : Memory) (w : World I) : List (I × List UInt8) :=
  w.history.map fun x => (x.1, x.2.bytes mem)

/-- Every client keeps its own invariant, and the file is the initial content
followed by the chunks. -/
structure Inv (p : Profile) (mem : Memory) (jobs : I → Job) (content : List UInt8)
    (desc : I → Desc) (w : World I) : Prop where
  content_eq : w.content = content ++ (w.chunks mem).flatMap Prod.snd
  client : ∀ i, Progress.Inv p mem (desc i) (jobs i) (w.progress i) (w.view i)

variable {p : Profile} {mem : Memory} {jobs : I → Job} {content : List UInt8} {desc : I → Desc}

theorem inv_start : Inv p mem jobs content desc (start p jobs content desc) :=
  ⟨by simp [start, chunks], fun i => Progress.inv_start p mem (jobs i) (desc i)⟩

/-- The log of a client grows by its own calls only. -/
theorem log_concat (w : World I) (i j : I) (ev : Event) (content : List UInt8) (desc : I → Desc)
    (progress : I → Progress) :
    (World.mk content desc progress (w.history ++ [(i, ev)])).log j =
      if i = j then w.log j ++ [ev] else w.log j := by
  unfold log
  rw [List.filter_append, List.map_append]
  by_cases h : i = j
  · rw [if_pos h]
    simp [h]
  · rw [if_neg h]
    simp [h]

/-- The chunks of one client are what it has written. -/
theorem chunks_of (mem : Memory) (w : World I) (i : I) :
    ((w.chunks mem).filter fun x => x.1 = i).flatMap Prod.snd = written mem (w.log i) := by
  unfold chunks log written
  induction w.history with
  | nil => rfl
  | cons x xs ih =>
    by_cases h : x.1 = i
    · simp [h, ih]
    · simp [h, ih]

/-- **Every step of the system keeps the invariant.** -/
theorem inv_step {w w' : World I} (hStep : Step p mem w w')
    (hInv : Inv p mem jobs content desc w) : Inv p mem jobs content desc w' := by
  obtain ⟨i, decide, hRestore, rfl⟩ := hStep
  -- the step of client `i`, as a step of its own view
  obtain ⟨hCall, hSilent⟩ := Progress.inv_next (w.handle mem i decide)
    (fun v => ⟨v.1.desc, w.log i ++ [v.2]⟩)
    (fun c _ => ⟨w.content, decide c, hRestore c, rfl, rfl⟩) (hInv.client i)
  cases hCalled : ((w.progress i).next p (w.handle mem i decide)).2 with
  | none =>
    have hNext : w.next p mem i decide = { w with
        progress := Function.update w.progress i
          ((w.progress i).next p (w.handle mem i decide)).1 } := by
      simp only [next, hCalled]
    rw [hNext]
    refine ⟨hInv.content_eq, fun j => ?_⟩
    show Progress.Inv p mem (desc j) (jobs j) (Function.update w.progress i _ j) (w.view j)
    by_cases hj : j = i
    · subst hj
      rw [Function.update_self]
      exact hSilent hCalled
    · rw [Function.update_of_ne hj]
      exact hInv.client j
  | some v =>
    obtain ⟨m, ev⟩ := v
    obtain ⟨⟨c, hAppends, hEvent⟩, hClient⟩ := hCall _ hCalled
    have hNext : w.next p mem i decide = ⟨m.content, Function.update w.desc i m.desc,
        Function.update w.progress i ((w.progress i).next p (w.handle mem i decide)).1,
        w.history ++ [(i, ev)]⟩ := by
      simp only [next, hCalled]
    have hContent : m.content = w.content ++ ev.bytes mem := by
      obtain ⟨hm, hev⟩ := Prod.mk.inj hEvent
      rw [hm, hev]
      exact (step_appends (m := ⟨mem, w.content, w.desc i⟩) hAppends (decide c)).1
    rw [hNext]
    refine ⟨?_, fun j => ?_⟩
    · simp only [chunks, List.map_append, List.flatMap_append, List.map_cons, List.map_nil,
        List.flatMap_cons, List.flatMap_nil, List.append_nil]
      rw [hContent, hInv.content_eq, chunks, List.append_assoc]
    · unfold view
      rw [log_concat]
      show Progress.Inv p mem (desc j) (jobs j) (Function.update w.progress i _ j)
        ⟨Function.update w.desc i m.desc j, _⟩
      by_cases hj : j = i
      · subst hj
        rw [Function.update_self, Function.update_self, if_pos rfl]
        exact hClient
      · rw [Function.update_of_ne hj, Function.update_of_ne hj, if_neg (Ne.symm hj)]
        exact hInv.client j

/-- Every schedule keeps the invariant. -/
theorem inv_reaches {w : World I} (h : Reaches p mem (start p jobs content desc) w) :
    Inv p mem jobs content desc w := by
  induction h with
  | refl => exact inv_start
  | tail _ hStep ih => exact inv_step hStep ih

end World

/-- **Many clients appending to one file.** At every point of every schedule
the file is its initial content followed by the chunks written, one behind the
other. The chunks of a client that is through are, in order, a prefix of its
data, and all of it if its call has returned `Ok`; its description is what it
was. -/
theorem clients_interleave {I : Type} [DecidableEq I] (p : Profile) (mem : Memory)
    (jobs : I → Job) (content : List UInt8) (desc : I → Desc) (w : World I)
    (hReaches : World.Reaches p mem (World.start p jobs content desc) w) :
    ∃ chunks : List (I × List UInt8), w.content = content ++ chunks.flatMap Prod.snd ∧
      ∀ i r, (w.progress i).result = some r → w.desc i = desc i ∧
        ∃ n, (chunks.filter fun x => x.1 = i).flatMap Prod.snd = ((jobs i).data mem).take n ∧
          (r = .ok () → n = ((jobs i).data mem).length) := by
  have hInv := World.inv_reaches hReaches
  refine ⟨w.chunks mem, hInv.content_eq, fun i r hr => ?_⟩
  rw [World.chunks_of]
  exact (hInv.client i).result hr

/-- A kernel that moves one byte at a time and refuses `pwritev2`, or not. -/
def byByte (refuse : Bool) : SysCall → Decision
  | .pwritev2 _ _ _ => if refuse then .fail .NOSYS else .go 1
  | _ => .go 1

/-- Client 0 appends two bytes in two calls, and client 1 a byte through the
fallback, written in between. -/
theorem clients_interleave_two :
    ∃ (jobs : Fin 2 → Job) (w : World (Fin 2)),
      (∀ i, (w.progress i).result = some (.ok ())) ∧ w.content = [9, 10, 20, 11] ∧
      ∃ chunks : List (Fin 2 × List UInt8), w.content = [9] ++ chunks.flatMap Prod.snd ∧
        ∀ i r, (w.progress i).result = some r → w.desc i = ⟨0, 2⟩ ∧
          ∃ n, (chunks.filter fun x => x.1 = i).flatMap Prod.snd =
            ((jobs i).data UInt8.ofNat).take n ∧
            (r = .ok () → n = ((jobs i).data UInt8.ofNat).length) := by
  have hRestore : ∀ refuse log c, Restores log c → ∃ count, byByte refuse c = .go count := by
    intro refuse log c h
    cases c with
    | fcntlSetfl flags => exact ⟨1, rfl⟩
    | seek pos => exact ⟨1, rfl⟩
    | _ => exact h.elim
  refine ⟨fun i => if i = 0 then .appendAll ⟨10, 2, by decide⟩
    else .appendAllVectored [⟨20, 1, by decide⟩], _, ?_, ?_,
    clients_interleave .debug UInt8.ofNat _ [9] (fun _ => ⟨0, 2⟩) _
      (World.reaches_run [(0, byByte false), (1, byByte true), (1, byByte true),
        (1, byByte true), (1, byByte true), (1, byByte true), (0, byByte false),
        (0, byByte false), (1, byByte true), (1, byByte true), (0, byByte false),
        (1, byByte true)] ?_ _)⟩
  · decide
  · decide
  · intro step hStep
    have hByByte : ∃ refuse, step.2 = byByte refuse := by
      simp only [List.mem_cons, List.not_mem_nil, or_false] at hStep
      rcases hStep with rfl | rfl | rfl | rfl | rfl | rfl | rfl | rfl | rfl | rfl | rfl | rfl <;>
        exact ⟨_, rfl⟩
    obtain ⟨refuse, hr⟩ := hByByte
    rw [hr]
    exact hRestore refuse

end SystemInterface.Unix
