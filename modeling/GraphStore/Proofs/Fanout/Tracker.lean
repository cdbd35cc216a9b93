import GraphStore.Fanout.Tracker
import Mathlib.Data.List.Nodup

/-!
# Which partitions a request lists

The completion that finishes a request is the last of those expected, so the response has what all
completions recorded: each partition that failed in one of them, and each only once.
-/

namespace GraphStore.Tracker

variable {leader : PartId → Except EngineCode Host} {part : PartId} {code : ErrorCode}

/-- Only a success leaves no entry. -/
theorem result?_eq_none : result? leader part code = none ↔ code = .succeeded := by
  cases code with
  | succeeded => simp [result?]
  | leaderChanged =>
    unfold result?
    cases leader part <;> simp
  | _ => simp [result?]

/-- An entry names the partition of its completion. -/
theorem part_of_result {entry : PartResult} (h : result? leader part code = some entry) :
    entry.part = part := by
  unfold result? at h
  split at h
  · cases h
  · split at h
    · cases h
      rfl
    · cases h
      rfl
  · cases h
    rfl

/-- The failures recorded after one more completion. -/
def addFailure (leader : PartId → Except EngineCode Host) (results : List PartResult)
    (completion : PartId × ErrorCode) : List PartResult :=
  match result? leader completion.1 completion.2 with
  | none => results
  | some entry => if results.any (·.part = completion.1) then results else results ++ [entry]

/-- Recording adds to the failures and changes nothing else. -/
theorem record_eq (t : Tracker) :
    t.record leader part code = { t with results := addFailure leader t.results (part, code) } := by
  unfold record addFailure
  dsimp only
  cases result? leader part code with
  | none => rfl
  | some entry =>
    dsimp only
    split <;> rfl

/-- When all expected completions have come, the request is finished with all they recorded. -/
theorem outcome_completeAll (t : Tracker) (harmed : t.armed = true) (hfinished : t.finished = [])
    {completions : List (PartId × ErrorCode)} (hne : completions ≠ [])
    (hpending : t.pending = completions.length) :
    (t.completeAll leader completions).outcome =
      completions.foldl (addFailure leader) t.results := by
  induction completions generalizing t with
  | nil => exact absurd rfl hne
  | cons completion completions ih =>
    obtain ⟨part, code⟩ := completion
    have hstep : t.completeAll leader ((part, code) :: completions) =
        (t.complete leader part code).completeAll leader completions := rfl
    rw [hstep, complete, record_eq, countDown, hpending, List.length_cons]
    cases completions with
    | nil => simp [completeAll, finish, outcome, harmed, hfinished]
    | cons next completions =>
      let rest : Tracker := {
        t with
        pending := completions.length + 1
        results := addFailure leader t.results (part, code) }
      exact ih rest harmed hfinished (by simp) rfl

/-- The failures of a request are those that its completions record. -/
theorem collectFailures_eq (completions : List (PartId × ErrorCode)) :
    collectFailures leader completions = completions.foldl (addFailure leader) [] := by
  cases completions with
  | nil => rfl
  | cons completion completions =>
    exact outcome_completeAll (.start (completions.length + 1)) rfl rfl (by simp) rfl

/-- The partitions that are recorded are those recorded before and the failing one. -/
theorem mem_addFailure {results : List PartResult} {completion : PartId × ErrorCode} :
    part ∈ (addFailure leader results completion).map (·.part) ↔
      part ∈ results.map (·.part) ∨ completion.1 = part ∧ completion.2 ≠ .succeeded := by
  unfold addFailure
  cases hentry : result? leader completion.1 completion.2 with
  | none => simp [result?_eq_none.1 hentry]
  | some entry =>
    have hfailed : completion.2 ≠ .succeeded := fun h => by
      rw [result?_eq_none.2 h] at hentry
      cases hentry
    have hpart := part_of_result hentry
    dsimp only
    split
    · next hany =>
      obtain ⟨result, hmem, heq⟩ := List.any_eq_true.1 hany
      constructor
      · exact .inl
      · rintro (h | ⟨rfl, -⟩)
        · exact h
        · exact List.mem_map.2 ⟨result, hmem, of_decide_eq_true heq⟩
    · rw [List.map_append, List.mem_append, List.map_singleton, List.mem_singleton, hpart]
      constructor
      · rintro (h | rfl)
        · exact .inl h
        · exact .inr ⟨rfl, hfailed⟩
      · rintro (h | ⟨rfl, -⟩)
        · exact .inl h
        · exact .inr rfl

/-- No partition is recorded twice. -/
theorem nodup_addFailure {results : List PartResult} (h : (results.map (·.part)).Nodup)
    (completion : PartId × ErrorCode) :
    ((addFailure leader results completion).map (·.part)).Nodup := by
  unfold addFailure
  cases hentry : result? leader completion.1 completion.2 with
  | none => exact h
  | some entry =>
    dsimp only
    split
    · exact h
    · next hany =>
      rw [List.map_append, List.map_singleton, part_of_result hentry]
      apply h.append (List.nodup_singleton _)
      rw [List.disjoint_singleton]
      intro hmem
      obtain ⟨result, hresult, heq⟩ := List.mem_map.1 hmem
      exact hany (List.any_eq_true.2 ⟨result, hresult, decide_eq_true heq⟩)

/-- The partitions listed are those with a completion that failed. -/
theorem mem_collectFailures {completions : List (PartId × ErrorCode)} :
    part ∈ (collectFailures leader completions).map (·.part) ↔
      ∃ code, (part, code) ∈ completions ∧ code ≠ .succeeded := by
  have hfold (results : List PartResult) :
      part ∈ (completions.foldl (addFailure leader) results).map (·.part) ↔
        part ∈ results.map (·.part) ∨ ∃ code, (part, code) ∈ completions ∧ code ≠ .succeeded := by
    induction completions generalizing results with
    | nil => simp
    | cons completion completions ih =>
      rw [List.foldl_cons, ih, mem_addFailure, or_assoc]
      apply or_congr_right
      constructor
      · rintro (⟨rfl, hcode⟩ | ⟨code, hmem, hcode⟩)
        · exact ⟨_, List.mem_cons_self, hcode⟩
        · exact ⟨code, List.mem_cons_of_mem _ hmem, hcode⟩
      · rintro ⟨code, hmem, hcode⟩
        rcases List.mem_cons.1 hmem with rfl | hmem
        · exact .inl ⟨rfl, hcode⟩
        · exact .inr ⟨code, hmem, hcode⟩
  rw [collectFailures_eq, hfold]
  simp

/-- Completions of a partition that are all the same come to the entry for one of them. -/
theorem collectFailures_of_forall_eq {completions : List (PartId × ErrorCode)}
    (hne : completions ≠ []) (h : ∀ completion ∈ completions, completion = (part, code)) :
    collectFailures leader completions = (result? leader part code).toList := by
  have hfirst : addFailure leader [] (part, code) = (result? leader part code).toList := by
    unfold addFailure
    cases result? leader part code <;> rfl
  have hagain : addFailure leader (result? leader part code).toList (part, code) =
      (result? leader part code).toList := by
    unfold addFailure
    cases hentry : result? leader part code with
    | none => rfl
    | some entry => simp [part_of_result hentry]
  have hfold (rest : List (PartId × ErrorCode)) (hrest : ∀ completion ∈ rest, completion = (part, code)) :
      rest.foldl (addFailure leader) (result? leader part code).toList =
        (result? leader part code).toList := by
    induction rest with
    | nil => rfl
    | cons completion rest ih =>
      obtain ⟨rfl, hothers⟩ := List.forall_mem_cons.1 hrest
      rw [List.foldl_cons, hagain, ih hothers]
  cases completions with
  | nil => exact absurd rfl hne
  | cons completion rest =>
    obtain ⟨rfl, hrest⟩ := List.forall_mem_cons.1 h
    rw [collectFailures_eq, List.foldl_cons, hfirst, hfold rest hrest]

/-- Each partition is listed at most once. -/
theorem nodup_collectFailures (completions : List (PartId × ErrorCode)) :
    ((collectFailures leader completions).map (·.part)).Nodup := by
  rw [collectFailures_eq]
  have hfold (results : List PartResult) (h : (results.map (·.part)).Nodup) :
      ((completions.foldl (addFailure leader) results).map (·.part)).Nodup := by
    induction completions generalizing results with
    | nil => exact h
    | cons completion completions ih => exact ih _ (nodup_addFailure h completion)
  exact hfold [] List.nodup_nil

/-- What is listed of some partitions are the failures among their completions. -/
theorem filter_collectFailures (keep : PartId → Bool) (completions : List (PartId × ErrorCode)) :
    (collectFailures leader completions).filter (keep ·.part) =
      collectFailures leader (completions.filter (keep ·.1)) := by
  have hadd (results : List PartResult) (completion : PartId × ErrorCode) :
      (addFailure leader results completion).filter (keep ·.part) =
        if keep completion.1 then addFailure leader (results.filter (keep ·.part)) completion
        else results.filter (keep ·.part) := by
    unfold addFailure
    cases hentry : result? leader completion.1 completion.2 with
    | none => exact (ite_self _).symm
    | some entry =>
      have hpart := part_of_result hentry
      by_cases hkeep : keep completion.1 = true
      · have hany : (results.filter (keep ·.part)).any (·.part = completion.1) =
            results.any (·.part = completion.1) := by
          rw [List.any_filter]
          congr 1
          funext result
          by_cases heq : result.part = completion.1
          · simp [heq, hkeep]
          · simp [heq]
        dsimp only
        rw [hany, if_pos hkeep]
        split
        · rfl
        · rw [List.filter_append, List.filter_singleton, hpart, hkeep]
          rfl
      · dsimp only
        rw [if_neg hkeep]
        split
        · rfl
        · rw [List.filter_append, List.filter_singleton, hpart, Bool.eq_false_iff.2 hkeep]
          exact List.append_nil _
  have hfold (results : List PartResult) :
      (completions.foldl (addFailure leader) results).filter (keep ·.part) =
        (completions.filter (keep ·.1)).foldl (addFailure leader)
          (results.filter (keep ·.part)) := by
    induction completions generalizing results with
    | nil => rfl
    | cons completion completions ih =>
      rw [List.foldl_cons, ih, hadd, List.filter_cons]
      split <;> rfl
  rw [collectFailures_eq, collectFailures_eq, hfold]
  rfl

/-- When the completions of each partition are alike, their order only changes that of the
entries. -/
theorem collectFailures_perm {completions order : List (PartId × ErrorCode)}
    (horder : order.Perm completions)
    (halike : ∀ a ∈ completions, ∀ b ∈ completions, a.1 = b.1 → a.2 = b.2) :
    (collectFailures leader order).Perm (collectFailures leader completions) := by
  have hpart (part : PartId) : (collectFailures leader order).filter (·.part = part) =
      (collectFailures leader completions).filter (·.part = part) := by
    have hfilter := horder.filter (·.1 = part)
    rw [filter_collectFailures (decide <| · = part), filter_collectFailures (decide <| · = part)]
    cases hfirst : completions.filter (·.1 = part) with
    | nil =>
      rw [hfirst] at hfilter
      rw [List.perm_nil.1 hfilter]
    | cons first rest =>
      obtain ⟨hmem, hpart⟩ := List.mem_filter.1 (hfirst ▸ List.mem_cons_self)
      have hall : ∀ completion ∈ completions.filter (·.1 = part), completion = (first.1, first.2) := by
        intro completion hcompletion
        obtain ⟨hmem', hpart'⟩ := List.mem_filter.1 hcompletion
        have heq := (of_decide_eq_true hpart').trans (of_decide_eq_true hpart).symm
        exact Prod.ext heq (halike _ hmem' _ hmem heq)
      have hne : order.filter (·.1 = part) ≠ [] := fun hnil => by
        rw [hnil, hfirst] at hfilter
        cases List.nil_perm.1 hfilter
      rw [← hfirst, collectFailures_of_forall_eq (hfirst ▸ List.cons_ne_nil _ _) hall,
        collectFailures_of_forall_eq hne fun completion hcompletion =>
          hall completion (hfilter.mem_iff.1 hcompletion)]
  have hnodup (log : List (PartId × ErrorCode)) : (collectFailures leader log).Nodup :=
    (nodup_collectFailures log).of_map
  refine (List.perm_ext_iff_of_nodup (hnodup _) (hnodup _)).2 fun entry => ?_
  have hmem (entries : List PartResult) :
      entry ∈ entries ↔ entry ∈ entries.filter (·.part = entry.part) := by
    rw [List.mem_filter, decide_eq_true_iff, and_iff_left rfl]
  rw [hmem, hpart, ← hmem]

end GraphStore.Tracker
