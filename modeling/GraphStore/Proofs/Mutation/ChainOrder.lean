import GraphStore.Mutation.ChainQueue
import Mathlib.Data.List.Perm.Basic

/-!
# Chains are written once each

However writes complete, the chains of a request are handed to the writer one after another, each of
them once: the outcome is that of writing them in some order, without a queue.
-/

namespace GraphStore

/-- Writes chains in order, with the code of each. -/
def writeInOrder {σ : Type} (write : σ → ChainBatch → σ × ErrorCode) :
    σ → List ChainBatch → σ × List (ChainId × ErrorCode)
  | state, [] => (state, [])
  | state, chain :: rest =>
    let (state, code) := write state chain
    let (state, codes) := writeInOrder write state rest
    (state, (chain.chain, code) :: codes)

namespace ChainQueue

variable {σ : Type} {limit : Nat} {q : ChainQueue}

/-- The chains of a queue that have not completed. -/
def unfinished (q : ChainQueue) : List ChainBatch := q.inflight ++ q.waiting

/-- Whether no chain waits while none is under way. -/
def Busy (q : ChainQueue) : Prop := q.inflight = [] → q.waiting = []

/-- Chains that take free places stay in their order. -/
theorem unfinished_refill (limit : Nat) (q : ChainQueue) :
    (q.refill limit).unfinished = q.unfinished := by
  simp [unfinished, refill]

/-- Refilling leaves the completed chains as they are. -/
theorem results_refill (limit : Nat) (q : ChainQueue) : (q.refill limit).results = q.results := rfl

/-- With a place for at least one chain, a refilled queue is busy. -/
theorem busy_refill (hlimit : 0 < limit) (q : ChainQueue) : (q.refill limit).Busy := by
  intro hinflight
  obtain ⟨hnil, htake⟩ := List.append_eq_nil_iff.1 hinflight
  rw [hnil, List.length_nil, Nat.sub_zero] at htake
  rcases List.take_eq_nil_iff.1 htake with hzero | hwaiting
  · omega
  · simp [refill, hwaiting]

/-- A busy queue of which no chain can complete is done. -/
theorem unfinished_of_none (hbusy : q.Busy) {choice : Nat}
    (hnext : q.inflight[position choice q.inflight.length]? = none) : q.unfinished = [] := by
  have hinflight : q.inflight = [] := by
    by_contra hne
    have hlt := Nat.mod_lt choice (List.length_pos_iff.2 hne)
    rw [position, List.getElem?_eq_getElem hlt] at hnext
    cases hnext
  rw [unfinished, hinflight, hbusy hinflight, List.append_nil]

/-- A chain that completes is one of those under way. -/
theorem perm_eraseIdx {i : Nat} {chain : ChainBatch} (hnext : q.inflight[i]? = some chain) :
    (chain :: q.inflight.eraseIdx i).Perm q.inflight := by
  obtain ⟨hlt, hget⟩ := List.getElem?_eq_some_iff.1 hnext
  rw [← hget]
  exact List.getElem_cons_eraseIdx_perm hlt

/-- A chain that completes leaves all others unfinished. -/
theorem perm_unfinished_complete {i : Nat} {chain : ChainBatch}
    (hnext : q.inflight[i]? = some chain) (limit : Nat) (code : ErrorCode) :
    (chain :: (q.complete limit i chain.chain code).unfinished).Perm q.unfinished := by
  rw [complete, unfinished_refill]
  exact (perm_eraseIdx hnext).append_right q.waiting

/-- A busy queue with fuel for its chains writes them in some order. -/
theorem run_eq_writeInOrder (hlimit : 0 < limit) (write : σ → ChainBatch → σ × ErrorCode)
    (fuel : Nat) (schedule : List Nat) (state : σ) (hbusy : q.Busy)
    (hfuel : q.unfinished.length ≤ fuel) :
    ∃ order, order.Perm q.unfinished ∧
      (run limit write fuel schedule state q).1 = (writeInOrder write state order).1 ∧
      (run limit write fuel schedule state q).2.results.reverse =
        q.results.reverse ++ (writeInOrder write state order).2 := by
  induction fuel generalizing q schedule state with
  | zero =>
    have hnil : q.unfinished = [] := List.length_eq_zero_iff.1 (Nat.le_zero.1 hfuel)
    exact ⟨[], by rw [hnil], rfl, by simp [run, writeInOrder]⟩
  | succ fuel ih =>
    rw [run]
    dsimp only
    cases hnext : q.inflight[position (schedule.headD 0) q.inflight.length]? with
    | none => exact ⟨[], by rw [unfinished_of_none hbusy hnext], rfl, by simp [writeInOrder]⟩
    | some next =>
      generalize position (schedule.headD 0) q.inflight.length = i at hnext
      rcases hwrite : write state next with ⟨after, code⟩
      dsimp only
      have hperm := perm_unfinished_complete hnext limit code
      have hlength : (q.complete limit i next.chain code).unfinished.length ≤ fuel := by
        have hcount := hperm.length_eq
        rw [List.length_cons] at hcount
        omega
      obtain ⟨order, horder, hstate, hresults⟩ :=
        ih schedule.tail after (busy_refill hlimit _) hlength
      refine ⟨next :: order, (horder.cons next).trans hperm, ?_, ?_⟩
      · rw [writeInOrder, hwrite]
        exact hstate
      · rw [writeInOrder, hwrite]
        refine hresults.trans ?_
        simp [results_refill]

/-- A busy queue that is run completes a chain with each unit of fuel, while there are any. -/
theorem length_unfinished_run (hlimit : q.unfinished ≠ [] → 0 < limit)
    (write : σ → ChainBatch → σ × ErrorCode) (fuel : Nat) (schedule : List Nat) (state : σ)
    (hbusy : q.Busy) :
    (run limit write fuel schedule state q).2.unfinished.length = q.unfinished.length - fuel := by
  induction fuel generalizing q schedule state with
  | zero => rfl
  | succ fuel ih =>
    rw [run]
    dsimp only
    cases hnext : q.inflight[position (schedule.headD 0) q.inflight.length]? with
    | none => rw [unfinished_of_none hbusy hnext, List.length_nil, Nat.zero_sub]
    | some next =>
      generalize position (schedule.headD 0) q.inflight.length = i at hnext
      have hcount := (perm_unfinished_complete hnext limit (write state next).2).length_eq
      rw [List.length_cons] at hcount
      have hpos := hlimit (List.length_pos_iff.1 (by omega))
      have hbusy' : (q.complete limit i next.chain (write state next).2).Busy :=
        busy_refill hpos _
      refine (ih (fun _ => hpos) schedule.tail (write state next).1 hbusy').trans ?_
      omega

end ChainQueue

/-- There is a place for a chain. -/
theorem limit_pos (bound : Nat) {chains : List ChainBatch} (h : chains ≠ []) :
    0 < min (max 1 bound) chains.length := by
  have hlength := List.length_pos_iff.2 h
  omega

/-- A queue is busy from the start. -/
theorem ChainQueue.busy_start (bound : Nat) (chains : List ChainBatch) :
    (start (min (max 1 bound) chains.length) chains).Busy := by
  cases chains with
  | nil => exact fun _ => List.drop_nil
  | cons chain chains => exact busy_refill (limit_pos bound (List.cons_ne_nil chain chains)) _

/-- The chains of a request are written in some order, each of them once. -/
theorem writeChains_eq_writeInOrder {σ : Type} (bound : Nat) (schedule : List Nat)
    (write : σ → ChainBatch → σ × ErrorCode) (state : σ) (chains : List ChainBatch) :
    ∃ order, order.Perm chains ∧
      writeChains bound schedule write state chains = writeInOrder write state order := by
  cases chains with
  | nil => exact ⟨[], .refl [], rfl⟩
  | cons chain chains =>
    have hlimit := limit_pos bound (List.cons_ne_nil chain chains)
    obtain ⟨order, horder, hstate, hresults⟩ := ChainQueue.run_eq_writeInOrder hlimit write
      (chain :: chains).length schedule state
      (ChainQueue.busy_refill hlimit { waiting := chain :: chains })
      (by rw [ChainQueue.unfinished_refill]; exact Nat.le_refl _)
    rw [ChainQueue.unfinished_refill] at horder
    refine ⟨order, horder, Prod.ext hstate ?_⟩
    exact hresults

end GraphStore
