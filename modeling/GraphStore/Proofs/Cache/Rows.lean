import GraphStore.Storage.VertexCache

/-!
# What a cache remembers

A cache answers for a key with the row that was last put for it, or with nothing. Evictions and the
bound on its size only ever take rows away, and reading a row changes none.
-/

namespace GraphStore.VertexCache

variable {cache : VertexCache} {key other : CacheKey} {row found : Bytes}

/-- Rows are looked up from the front. -/
theorem lookup_cons (rows : List (CacheKey × Bytes)) :
    ((key, row) :: rows).lookup other = if other = key then some row else rows.lookup other := by
  rw [List.lookup_cons]
  by_cases h : other = key
  · rw [h, BEq.rfl, if_pos rfl]
  · rw [beq_false_of_ne h, if_neg h]

/-- After an eviction the rows of other keys are left. -/
theorem row?_evict (cache : VertexCache) (key other : CacheKey) :
    (cache.evict key).row? other = if other = key then none else cache.row? other := by
  split
  · next heq => rw [heq, row?_evict_self]
  · next hne =>
    unfold row? evict
    dsimp only
    induction cache.rows with
    | nil => rfl
    | cons entry rows ih =>
      obtain ⟨first, row⟩ := entry
      by_cases hfirst : first = key
      · subst hfirst
        rw [List.filter_cons_of_neg (by simp), lookup_cons, if_neg hne, ih]
      · rw [List.filter_cons_of_pos (by simp [hfirst]), lookup_cons, lookup_cons, ih]

/-- What is left after evictions is none of what was evicted. -/
theorem row?_foldl_evict (cache : VertexCache) (keys : List CacheKey)
    (h : (keys.foldl evict cache).row? key = some row) :
    key ∉ keys ∧ cache.row? key = some row := by
  induction keys generalizing cache with
  | nil => exact ⟨List.not_mem_nil, h⟩
  | cons first keys ih =>
    obtain ⟨hkeys, hrow⟩ := ih _ h
    rw [row?_evict] at hrow
    split at hrow
    · cases hrow
    · next hne => exact ⟨List.not_mem_cons_of_ne_of_not_mem hne hkeys, hrow⟩

/-- After a row is cached, what is found was cached before or is that row. -/
theorem row?_insert (h : (cache.insert key row).row? other = some found) :
    other = key ∧ found = row ∨ cache.row? other = some found := by
  have hall : ((key, row) :: (cache.evict key).rows).lookup other = some found :=
    (List.take_prefix _ _).lookup_eq_some h
  rw [lookup_cons] at hall
  split at hall
  · next heq => exact .inl ⟨heq, (Option.some.inj hall).symm⟩
  · have hrest : (cache.evict key).row? other = some found := hall
    rw [row?_evict] at hrest
    split at hrest
    · cases hrest
    · exact .inr hrest

/-- A read answers with the cached row. -/
theorem get_snd (cache : VertexCache) (key : CacheKey) : (cache.get key).2 = cache.row? key := by
  unfold get
  cases cache.row? key <;> rfl

/-- A read changes no cached row. -/
theorem row?_get (cache : VertexCache) (key other : CacheKey) :
    (cache.get key).1.row? other = cache.row? other := by
  unfold get
  cases hrow : cache.row? key with
  | none => rfl
  | some row =>
    refine (lookup_cons (cache.evict key).rows).trans ?_
    have hrest := row?_evict cache key other
    split
    · next heq => rw [heq, hrow]
    · next hne => exact hrest.trans (if_neg hne)

end GraphStore.VertexCache
