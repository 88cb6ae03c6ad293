import Mathlib.Data.List.Infix
import SystemInterface.Lib.Crowd

/-!
# A list that is only appended to

The clients of a crowd share a list. Every operation enters into the ledger of its
client what it has added to the end of the list, or what it has seen of it at some
offset. Since the list only grows, what was seen once is there ever after.

Main results:

* `Logs.guarded` — the list is the initial one with the additions of all clients, in
  the order of their operations, and agrees with whatever anyone has seen;
* `Logs.grows` — from one point of a run to a later one the list only grows.
-/

namespace Effect

variable {α : Type} {base content more d d' : List α} {off : Nat}

-- ---------------------------------------------------------------------------
-- Entries
-- ---------------------------------------------------------------------------

/-- What an operation has added to the list, or seen of it. -/
inductive Entry (α : Type) where
  | wrote (d : List α)
  | saw (off : Nat) (d : List α)

def Entry.added : Entry α → List α
  | wrote d => d
  | saw _ _ => []

/-- What was seen is there. -/
def Entry.Agrees (content : List α) : Entry α → Prop
  | wrote _ => True
  | saw off d => d <+: content.drop off

/-- What the entries have added, in order. -/
def added (es : List (Entry α)) : List α := es.flatMap Entry.added

/-- Wherever the entries agree with the list, `d` is there at the offset. -/
def Shows (es : List (Entry α)) (off : Nat) (d : List α) : Prop :=
  ∀ content, (∀ e ∈ es, e.Agrees content) → d <+: content.drop off

@[simp] theorem added_nil : added ([] : List (Entry α)) = [] := rfl

@[simp] theorem added_append (es es' : List (Entry α)) :
    added (es ++ es') = added es ++ added es' :=
  List.flatMap_append

@[simp] theorem added_singleton (e : Entry α) : added [e] = e.added :=
  List.append_nil e.added

theorem Entry.Agrees.append {e : Entry α} (h : e.Agrees content) : e.Agrees (content ++ more) := by
  cases e with
  | wrote d => trivial
  | saw off d =>
    have hDrop : content.drop off <+: (content ++ more).drop off := by
      rw [List.drop_append]
      exact List.prefix_append _ _
    exact List.IsPrefix.trans h hDrop

variable {es es' : List (Entry α)}

theorem shows_nil : Shows es off [] := fun _ _ => List.nil_prefix

theorem Shows.mono (h : Shows es off d) (hMem : ∀ e ∈ es, e ∈ es') : Shows es' off d :=
  fun content hAgree => h content fun e he => hAgree e (hMem e he)

/-- One more piece, seen right behind the others. -/
theorem Shows.concat (h : Shows es off d) :
    Shows (es ++ [.saw (off + d.length) d']) off (d ++ d') := by
  intro content hAgree
  obtain ⟨rest, hRest⟩ := h content fun e he => hAgree e (List.mem_append_left _ he)
  have hNext : d' <+: content.drop (off + d.length) :=
    hAgree (.saw (off + d.length) d') (List.mem_append_right _ (List.mem_singleton.mpr rfl))
  have hDrop : content.drop (off + d.length) = rest := by
    rw [← List.drop_drop, ← hRest, List.drop_left]
  rw [hDrop] at hNext
  rw [← hRest]
  exact (List.prefix_append_right_inj d).mpr hNext

-- ---------------------------------------------------------------------------
-- Ledgers of a crowd
-- ---------------------------------------------------------------------------

variable {I : Type} [DecidableEq I] {Op : Type} {Rep : Op → Type} {ε L T β : Type}

/-- The list is `base` with the additions of all clients in the order of one history,
of which the ledger of each client is its part, and agrees with all of it. -/
def Ledger (base : List α) (ledger : L → List (Entry α)) (list : T → List α) (own : I → L)
    (t : T) : Prop :=
  ∃ history : List (I × Entry α), (∀ i, entries history i = ledger (own i)) ∧
    list t = base ++ added (history.map Prod.snd) ∧
    ∀ e ∈ history.map Prod.snd, e.Agrees (list t)

/-- Operations that follow the rules of their client, keep the invariant `Q` of what is
shared, and enter what they do into the ledger of the client. -/
structure Logs (act : Acts I Op Rep L T) (P : I → Rules Op Rep L) (Q : T → Prop)
    (ledger : L → List (Entry α)) (list : T → List α) : Prop where
  step : ∀ i op (own : I → L) t, Q t → (P i).Pre op (own i) →
    (P i).Step op (own i) (act i op (own i, t)).1 (act i op (own i, t)).2.1
  keeps : ∀ i op (own : I → L) t, Q t → (P i).Pre op (own i) → Q (act i op (own i, t)).2.2
  enters : ∀ i op (own : I → L) t, Q t → (P i).Pre op (own i) → ∃ e,
    ledger (act i op (own i, t)).2.1 = ledger (own i) ++ [e] ∧
      list (act i op (own i, t)).2.2 = list t ++ e.added ∧
      e.Agrees (list (act i op (own i, t)).2.2)

namespace Logs

variable {act : Acts I Op Rep L T} {P : I → Rules Op Rep L} {Q : T → Prop}
  {ledger : L → List (Entry α)} {list : T → List α} {Post : I → Except ε β → L → Prop}
  {w w' : Crowd I Op Rep ε L T β}

/-- **The ledger holds throughout.** -/
theorem guarded (h : Logs act P Q ledger list) (base : List α) :
    Guarded act P fun own t => Q t ∧ Ledger base ledger list own t where
  step i op own t hG hPre := h.step i op own t hG.1 hPre
  keeps i op own t hG hPre := by
    obtain ⟨hQ, history, hLedgers, hList, hAgree⟩ := hG
    obtain ⟨e, hEntered, hAdded, hAgrees⟩ := h.enters i op own t hQ hPre
    refine ⟨h.keeps i op own t hQ hPre, history ++ [(i, e)], fun j => ?_, ?_, fun e' he' => ?_⟩
    · rw [entries_concat]
      by_cases hj : i = j
      · subst hj
        rw [if_pos rfl, Function.update_self, hEntered, hLedgers]
      · rw [if_neg hj, Function.update_of_ne (Ne.symm hj), hLedgers]
    · rw [hAdded, hList, List.map_append, added_append, List.append_assoc]
      exact congrArg _ (congrArg _ (added_singleton e).symm)
    · rw [List.map_append] at he'
      rcases List.mem_append.mp he' with he' | he'
      · rw [hAdded]
        exact (hAgree e' he').append
      · obtain rfl := List.mem_singleton.mp he'
        exact hAgrees

/-- **The list only grows.** -/
theorem grows (h : Logs act P Q ledger list) {base : List α}
    (hInv : w.Inv P (fun own t => Q t ∧ Ledger base ledger list own t) Post)
    (hReaches : Crowd.Reaches act w w') : list w.shared <+: list w'.shared := by
  induction hReaches with
  | refl => exact List.prefix_rfl
  | @tail v _ hBefore hStep ih =>
    obtain ⟨i, rfl⟩ := hStep
    have hMid := (h.guarded base).reaches hBefore hInv
    refine ih.trans ?_
    have hClient := hMid.client i
    cases hProgress : v.progress i with
    | done r => rw [Crowd.next_done hProgress]
    | loop body s rest => rw [Crowd.next_loop hProgress]
    | call op rest =>
      rw [hProgress] at hClient
      obtain ⟨e, -, hAdded, -⟩ := h.enters i op v.own v.shared hMid.whole.1 (hClient 1).1
      rw [Crowd.next_call hProgress, hAdded]
      exact List.prefix_append _ _

end Logs

namespace Ledger

variable {ledger : L → List (Entry α)} {list : T → List α} {own : I → L} {t : T}

/-- The additions of one client are those of its ledger. -/
theorem chunks (h : Ledger base ledger list own t) :
    ∃ chunks : List (I × List α), list t = base ++ chunks.flatMap Prod.snd ∧
      ∀ i, (chunks.filter fun x => x.1 = i).flatMap Prod.snd = added (ledger (own i)) := by
  obtain ⟨history, hLedgers, hList, -⟩ := h
  refine ⟨history.map fun x => (x.1, x.2.added), ?_, fun i => ?_⟩
  · rw [hList, added, List.flatMap_map, List.flatMap_map]
  · rw [← hLedgers i, added, entries, List.flatMap_map, List.filter_map, List.flatMap_map]
    rfl

/-- What a client has entered shows the list as it is. -/
theorem shows (h : Ledger base ledger list own t) {i : I} (hShows : Shows (ledger (own i)) off d) :
    d <+: (list t).drop off := by
  obtain ⟨history, hLedgers, -, hAgree⟩ := h
  refine hShows (list t) fun e he => hAgree e ?_
  rw [← hLedgers i] at he
  exact mem_of_entries he

end Ledger

end Effect
