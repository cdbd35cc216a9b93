import GraphStore.Proofs.Mutation.ChainOrder
import Mathlib.Data.Multiset.AddSub
import Mathlib.Logic.Relation

/-!
# Chain writes side by side

A chain that has been handed over is first written and then reported, and between the two others may
be written or reported. Whatever the order, the chains are written one after another, each of them
once, and each is reported with the answer to its write.
-/

namespace GraphStore

open Relation (ReflTransGen)

variable {σ : Type}

/-- Chain writes of one request, each with a time at which it is written and a later one at which it
is reported. -/
structure ChainFlight (σ : Type) where
  state : σ
  /-- Chains not yet handed over. -/
  waiting : List ChainBatch
  /-- Chains that have been handed over and not written. -/
  started : Multiset ChainBatch := 0
  /-- Chains that have been written, in order. -/
  order : List ChainBatch := []
  /-- Answers that have not been reported. -/
  answers : Multiset (ChainId × ErrorCode) := 0
  /-- Answers that have been reported, in order. -/
  results : List (ChainId × ErrorCode) := []

namespace ChainFlight

/-- Hands waiting chains over while places are free. A place is free again when its chain is
reported. -/
def refill (limit : Nat) (s : ChainFlight σ) : ChainFlight σ :=
  let free := limit - (s.started.card + s.answers.card)
  { s with
    waiting := s.waiting.drop free
    started := s.started + s.waiting.take free }

/-- A step: a chain that has been handed over is written, or an answer is reported. -/
inductive Step (limit : Nat) (write : σ → ChainBatch → σ × ErrorCode) :
    ChainFlight σ → ChainFlight σ → Prop where
  | write (state : σ) (waiting : List ChainBatch) (chain : ChainBatch)
      (started : Multiset ChainBatch) (order : List ChainBatch)
      (answers : Multiset (ChainId × ErrorCode)) (results : List (ChainId × ErrorCode)) :
      Step limit write ⟨state, waiting, chain ::ₘ started, order, answers, results⟩
        ⟨(write state chain).1, waiting, started, order ++ [chain],
          (chain.chain, (write state chain).2) ::ₘ answers, results⟩
  | report (state : σ) (waiting : List ChainBatch) (started : Multiset ChainBatch)
      (order : List ChainBatch) (answer : ChainId × ErrorCode)
      (answers : Multiset (ChainId × ErrorCode)) (results : List (ChainId × ErrorCode)) :
      Step limit write ⟨state, waiting, started, order, answer ::ₘ answers, results⟩
        (refill limit ⟨state, waiting, started, order, answers, results ++ [answer]⟩)

/-- The first chains have been handed over. -/
def start (limit : Nat) (state : σ) (chains : List ChainBatch) : ChainFlight σ :=
  refill limit { state, waiting := chains }

/-- Whether no chain is under way. -/
def Over (s : ChainFlight σ) : Prop := s.started = 0 ∧ s.answers = 0

/-- What holds however chains are written and reported: none is lost, those that have been written
left behind what they do one after another, each has its answer, and chains wait only while others
are under way. -/
structure Follows (write : σ → ChainBatch → σ × ErrorCode) (state : σ) (chains : List ChainBatch)
    (s : ChainFlight σ) : Prop where
  all : (s.order : Multiset ChainBatch) + s.started + s.waiting = chains
  written : s.state = (writeInOrder write state s.order).1
  answered : (s.results : Multiset (ChainId × ErrorCode)) + s.answers =
    (writeInOrder write state s.order).2
  busy : s.Over → s.waiting = []

variable {limit : Nat} {write : σ → ChainBatch → σ × ErrorCode} {state : σ}
  {chains : List ChainBatch} {s next : ChainFlight σ}

/-- Refilling keeps what holds, and leaves no chain waiting beside a free place. -/
theorem Follows.refill (hlimit : chains ≠ [] → 0 < limit)
    (hall : (s.order : Multiset ChainBatch) + s.started + s.waiting = chains)
    (hwritten : s.state = (writeInOrder write state s.order).1)
    (hanswered : (s.results : Multiset (ChainId × ErrorCode)) + s.answers =
      (writeInOrder write state s.order).2) :
    (s.refill limit).Follows write state chains where
  all := by
    rw [← hall, ChainFlight.refill]
    dsimp only
    rw [← Multiset.add_assoc, Multiset.add_assoc _ (s.waiting.take _ : Multiset ChainBatch),
      Multiset.coe_add, List.take_append_drop]
  written := hwritten
  answered := hanswered
  busy := by
    rintro ⟨hstarted, hanswers⟩
    have hanswers : s.answers = 0 := hanswers
    have hcard := congrArg Multiset.card hstarted
    rw [ChainFlight.refill, Multiset.card_add, Multiset.card_zero, Nat.add_eq_zero_iff,
      Multiset.card_eq_zero, hanswers, Multiset.card_zero, Nat.add_zero] at hcard
    obtain ⟨hnone, htake⟩ := hcard
    rw [hnone, Multiset.card_zero, Nat.sub_zero, Multiset.coe_card, List.length_eq_zero_iff,
      List.take_eq_nil_iff] at htake
    have hnil : s.waiting = [] := by
      rcases htake with hzero | hnil
      · by_contra hwaiting
        have hchains : chains ≠ [] := by
          rintro rfl
          have hcount := congrArg Multiset.card hall
          rw [Multiset.card_add, Multiset.coe_card s.waiting, Multiset.coe_nil,
            Multiset.card_zero] at hcount
          exact hwaiting (List.length_eq_zero_iff.1 (by omega))
        have hpos := hlimit hchains
        omega
      · exact hnil
    rw [ChainFlight.refill]
    dsimp only
    rw [hnil, List.drop_nil]

/-- At first no chain has been written. -/
theorem follows_start (hlimit : chains ≠ [] → 0 < limit) (write : σ → ChainBatch → σ × ErrorCode)
    (state : σ) : (start limit state chains).Follows write state chains :=
  Follows.refill hlimit (by simp) rfl rfl

/-- One more chain is written last. -/
theorem writeInOrder_concat (write : σ → ChainBatch → σ × ErrorCode) (state : σ)
    (order : List ChainBatch) (chain : ChainBatch) :
    writeInOrder write state (order ++ [chain]) =
      ((write (writeInOrder write state order).1 chain).1, (writeInOrder write state order).2 ++
        [(chain.chain, (write (writeInOrder write state order).1 chain).2)]) := by
  induction order generalizing state with
  | nil => rfl
  | cons first order ih =>
    simp only [List.cons_append, writeInOrder, ih]

/-- A step keeps what holds. -/
theorem Follows.step (hlimit : chains ≠ [] → 0 < limit) (h : s.Follows write state chains)
    (hstep : s.Step limit write next) : next.Follows write state chains := by
  cases hstep with
  | write before waiting chain started order answers results =>
    obtain ⟨hall, hwritten, hanswered, -⟩ := h
    dsimp only at hall hwritten hanswered
    refine ⟨?_, ?_, ?_, ?_⟩
    · rw [← hall, ← Multiset.coe_add, Multiset.coe_singleton, Multiset.add_assoc _ {chain},
        Multiset.singleton_add]
    · rw [writeInOrder_concat, hwritten]
    · rw [writeInOrder_concat, ← Multiset.coe_add, ← hanswered, hwritten, Multiset.coe_singleton,
        Multiset.add_assoc, Multiset.add_comm answers, Multiset.singleton_add]
    · rintro ⟨-, hanswers⟩
      cases Multiset.cons_ne_zero hanswers
  | report before waiting started order answer answers results =>
    refine .refill hlimit h.all h.written (h.answered ▸ ?_)
    rw [← Multiset.coe_add, Multiset.coe_singleton, Multiset.add_assoc, Multiset.singleton_add]

/-- What holds at first holds after every run. -/
theorem Follows.run (hlimit : chains ≠ [] → 0 < limit) (h : s.Follows write state chains)
    (hrun : ReflTransGen (Step limit write) s next) : next.Follows write state chains := by
  induction hrun with
  | refl => exact h
  | tail _ hstep ih => exact ih.step hlimit hstep

/-- When no chain is under way, all of them have been written in some order and reported with their
answers. -/
theorem Follows.over (h : s.Follows write state chains) (hover : s.Over) :
    s.order.Perm chains ∧ s.state = (writeInOrder write state s.order).1 ∧
      s.results.Perm (writeInOrder write state s.order).2 := by
  have hall := h.all
  have hanswered := h.answered
  rw [h.busy hover, hover.1, Multiset.coe_nil, Multiset.add_zero, Multiset.add_zero] at hall
  rw [hover.2, Multiset.add_zero] at hanswered
  exact ⟨Multiset.coe_eq_coe.1 hall, h.written, Multiset.coe_eq_coe.1 hanswered⟩

/-- A queue in which each chain is reported as soon as it is written. -/
def ofQueue (state : σ) (order : List ChainBatch) (q : ChainQueue) : ChainFlight σ where
  state
  waiting := q.waiting
  started := q.inflight
  order
  results := q.results.reverse

/-- A queue is refilled in the same way. -/
theorem refill_ofQueue (limit : Nat) (state : σ) (order : List ChainBatch) (q : ChainQueue) :
    (ofQueue state order q).refill limit = ofQueue state order (q.refill limit) := by
  rw [refill, ofQueue, ofQueue, ChainQueue.refill]
  dsimp only
  rw [Multiset.card_zero, Nat.add_zero, Multiset.coe_card, Multiset.coe_add]

/-- A queue that completes a chain has it written and then reported. -/
theorem steps_of_complete {q : ChainQueue} {i : Nat} {chain : ChainBatch}
    (hnext : q.inflight[i]? = some chain) (limit : Nat) (write : σ → ChainBatch → σ × ErrorCode)
    (state : σ) (order : List ChainBatch) :
    ReflTransGen (Step limit write) (ofQueue state order q)
      (ofQueue (write state chain).1 (order ++ [chain])
        (q.complete limit i chain.chain (write state chain).2)) := by
  have hfirst : (q.inflight : Multiset ChainBatch) = chain ::ₘ q.inflight.eraseIdx i :=
    (Multiset.coe_eq_coe.2 (ChainQueue.perm_eraseIdx hnext)).symm
  have hwritten := @Step.write σ limit write state q.waiting chain (q.inflight.eraseIdx i) order 0
    q.results.reverse
  have hreported := @Step.report σ limit write (write state chain).1 q.waiting
    (q.inflight.eraseIdx i) (order ++ [chain]) (chain.chain, (write state chain).2) 0
    q.results.reverse
  have hafter : refill limit ⟨(write state chain).1, q.waiting, q.inflight.eraseIdx i,
      order ++ [chain], 0, q.results.reverse ++ [(chain.chain, (write state chain).2)]⟩ =
        ofQueue (write state chain).1 (order ++ [chain])
          (q.complete limit i chain.chain (write state chain).2) := by
    rw [ChainQueue.complete, ← refill_ofQueue, ofQueue, List.reverse_cons]
  rw [← hfirst] at hwritten
  rw [hafter] at hreported
  exact .head hwritten (.single hreported)

/-- A queue that is run, if not to its end, writes and reports its chains in one of the ways. -/
theorem exists_run_of_queue (limit : Nat) (write : σ → ChainBatch → σ × ErrorCode) (fuel : Nat)
    (schedule : List Nat) (state : σ) (order : List ChainBatch) (q : ChainQueue) :
    ∃ after, ReflTransGen (Step limit write) (ofQueue state order q)
      (ofQueue (ChainQueue.run limit write fuel schedule state q).1 after
        (ChainQueue.run limit write fuel schedule state q).2) := by
  induction fuel generalizing q schedule state order with
  | zero => exact ⟨order, .refl⟩
  | succ fuel ih =>
    rw [ChainQueue.run]
    dsimp only
    cases hnext : q.inflight[ChainQueue.position (schedule.headD 0) q.inflight.length]? with
    | none => exact ⟨order, .refl⟩
    | some chain =>
      obtain ⟨after, hrun⟩ := ih schedule.tail (write state chain).1 (order ++ [chain])
        (q.complete limit _ chain.chain (write state chain).2)
      exact ⟨after, (steps_of_complete hnext limit write state order).trans hrun⟩

end ChainFlight

section WriteChains

variable (bound : Nat) (write : σ → ChainBatch → σ × ErrorCode) (state : σ)
  (chains : List ChainBatch)

/-- What writing chains, at most `bound` of them at a time, can come to: the state behind it, and the
answers in the order in which they are reported. -/
def WritesTo (result : σ × List (ChainId × ErrorCode)) : Prop :=
  ∃ s, ReflTransGen (ChainFlight.Step (min (max 1 bound) chains.length) write)
      (.start (min (max 1 bound) chains.length) state chains) s ∧
    s.Over ∧ result = (s.state, s.results)

/-- A schedule leads along one of the ways, as far as it is followed. -/
theorem exists_run_of_schedule (fuel : Nat) (schedule : List Nat) :
    ∃ order, ReflTransGen (ChainFlight.Step (min (max 1 bound) chains.length) write)
      (.start (min (max 1 bound) chains.length) state chains)
      (.ofQueue (ChainQueue.run (min (max 1 bound) chains.length) write fuel schedule state
          (.start (min (max 1 bound) chains.length) chains)).1 order
        (ChainQueue.run (min (max 1 bound) chains.length) write fuel schedule state
          (.start (min (max 1 bound) chains.length) chains)).2) := by
  have hstart := ChainFlight.refill_ofQueue (min (max 1 bound) chains.length) state []
    { waiting := chains }
  obtain ⟨order, hrun⟩ := ChainFlight.exists_run_of_queue (min (max 1 bound) chains.length) write
    fuel schedule state [] (.start (min (max 1 bound) chains.length) chains)
  rw [ChainQueue.start, ← hstart] at hrun
  exact ⟨order, hrun⟩

/-- As many chains are left as have not been completed. -/
theorem length_unfinished_of_schedule (fuel : Nat) (schedule : List Nat) :
    (ChainQueue.run (min (max 1 bound) chains.length) write fuel schedule state
      (.start (min (max 1 bound) chains.length) chains)).2.unfinished.length =
        chains.length - fuel := by
  have hunfinished : (ChainQueue.start (min (max 1 bound) chains.length) chains).unfinished =
      chains := ChainQueue.unfinished_refill _ { waiting := chains }
  rw [ChainQueue.length_unfinished_run (fun h => limit_pos bound (hunfinished ▸ h)) write fuel
    schedule state (ChainQueue.busy_start bound chains), hunfinished]

/-- To follow a schedule is one of the ways to write chains. -/
theorem writesTo_writeChains (schedule : List Nat) :
    WritesTo bound write state chains (writeChains bound schedule write state chains) := by
  obtain ⟨order, hrun⟩ := exists_run_of_schedule bound write state chains chains.length schedule
  have hleft := length_unfinished_of_schedule bound write state chains chains.length schedule
  rw [Nat.sub_self] at hleft
  obtain ⟨hinflight, -⟩ := List.append_eq_nil_iff.1 (List.length_eq_zero_iff.1 hleft)
  refine ⟨_, hrun, ⟨?_, rfl⟩, rfl⟩
  rw [ChainFlight.ofQueue, hinflight, Multiset.coe_nil]

variable {bound write state chains}

/-- Whichever way chains are written, they are written one after another in some order, and their
answers are those to these writes. -/
theorem WritesTo.exists_order {result : σ × List (ChainId × ErrorCode)}
    (h : WritesTo bound write state chains result) :
    ∃ order, order.Perm chains ∧ result.1 = (writeInOrder write state order).1 ∧
      result.2.Perm (writeInOrder write state order).2 := by
  obtain ⟨s, hrun, hover, rfl⟩ := h
  exact ⟨s.order, ((ChainFlight.follows_start (limit_pos bound) write state).run (limit_pos bound)
    hrun).over hover⟩

end WriteChains

end GraphStore
