import Mathlib.Data.List.Forall2

/-!
# Steps that can fail

Steps one after another succeed when each of them does, and a list of steps gives one result for
each item or the failure of the first that fails.
-/

namespace GraphStore

variable {ε α β : Type}

/-- Two steps succeed together. -/
theorem bind_eq_ok {x : Except ε α} {f : α → Except ε β} {b : β} :
    x >>= f = .ok b ↔ ∃ a, x = .ok a ∧ f a = .ok b := by
  cases x with
  | error e => exact ⟨nofun, nofun⟩
  | ok a =>
    constructor
    · exact fun h => ⟨a, rfl, h⟩
    · rintro ⟨a, h, hf⟩
      cases h
      exact hf

/-- Two steps fail with the first failure. -/
theorem bind_eq_error {x : Except ε α} {f : α → Except ε β} {e : ε} :
    x >>= f = .error e ↔ x = .error e ∨ ∃ a, x = .ok a ∧ f a = .error e := by
  cases x with
  | error e' =>
    constructor
    · intro h
      cases h
      exact .inl rfl
    · rintro (h | ⟨a, h, -⟩)
      · cases h
        rfl
      · cases h
  | ok a =>
    constructor
    · exact fun h => .inr ⟨a, rfl, h⟩
    · rintro (h | ⟨a, h, hf⟩)
      · cases h
      · cases h
        exact hf

/-- A mapped result succeeds with the result it maps. -/
theorem map_eq_ok {x : Except ε α} {f : α → β} {b : β} :
    x.map f = .ok b ↔ ∃ a, x = .ok a ∧ f a = b := by
  cases x with
  | error e => exact ⟨nofun, nofun⟩
  | ok a =>
    constructor
    · intro h
      cases h
      exact ⟨a, rfl, rfl⟩
    · rintro ⟨a, h, rfl⟩
      cases h
      rfl

/-- A failure told in other words is no success. -/
theorem mapError_eq_ok {ε ε' α : Type} {x : Except ε α} {f : ε → ε'} {a : α} :
    x.mapError f = .ok a ↔ x = .ok a := by
  cases x with
  | error e => exact ⟨nofun, nofun⟩
  | ok found => exact ⟨fun h => congrArg Except.ok (Except.ok.inj h), fun h => h ▸ rfl⟩

/-- A failure told in other words is still a failure. -/
theorem mapError_eq_error {ε ε' α : Type} {x : Except ε α} {f : ε → ε'} {e' : ε'} :
    x.mapError f = .error e' ↔ ∃ e, x = .error e ∧ f e = e' := by
  cases x with
  | ok a => exact ⟨nofun, nofun⟩
  | error e =>
    constructor
    · intro h
      cases h
      exact ⟨e, rfl, rfl⟩
    · rintro ⟨_, h, rfl⟩
      cases h
      rfl

/-- A list of steps succeeds when each of them does, with their results in order. -/
theorem mapM_eq_ok {f : α → Except ε β} {items : List α} {results : List β} :
    items.mapM f = .ok results ↔ List.Forall₂ (fun a b => f a = .ok b) items results := by
  induction items generalizing results with
  | nil =>
    rw [List.mapM_nil, List.forall₂_nil_left_iff]
    constructor
    · intro h
      cases h
      rfl
    · intro h
      rw [h]
      rfl
  | cons item items ih =>
    rw [List.mapM_cons, List.forall₂_cons_left_iff, bind_eq_ok]
    constructor
    · rintro ⟨b, hb, h⟩
      obtain ⟨bs, hbs, h⟩ := bind_eq_ok.1 h
      cases h
      exact ⟨b, bs, hb, ih.1 hbs, rfl⟩
    · rintro ⟨b, bs, hb, hbs, rfl⟩
      exact ⟨b, hb, bind_eq_ok.2 ⟨bs, ih.2 hbs, rfl⟩⟩

/-- What is made of the results of a list of steps is there when each of them succeeds. -/
theorem mapM_pure_eq_ok {γ : Type} {f : α → Except ε β} {items : List α} {make : List β → γ}
    {c : γ} : (items.mapM f >>= fun results => pure (make results)) = .ok c ↔
      ∃ results, List.Forall₂ (fun a b => f a = .ok b) items results ∧ c = make results := by
  rw [bind_eq_ok]
  constructor
  · rintro ⟨results, hresults, h⟩
    cases h
    exact ⟨results, mapM_eq_ok.1 hresults, rfl⟩
  · rintro ⟨results, hresults, rfl⟩
    exact ⟨results, mapM_eq_ok.2 hresults, rfl⟩

/-- Items of lists that are related in order are related to an item of the other list. -/
theorem exists_of_forall₂_left {R : α → β → Prop} {items : List α} {results : List β}
    (h : List.Forall₂ R items results) {item : α} (hmem : item ∈ items) :
    ∃ result ∈ results, R item result := by
  induction h with
  | nil => cases hmem
  | cons hfirst _ ih =>
    rcases List.mem_cons.1 hmem with rfl | hmem
    · exact ⟨_, List.mem_cons_self, hfirst⟩
    · obtain ⟨result, hresult, hrel⟩ := ih hmem
      exact ⟨result, List.mem_cons_of_mem _ hresult, hrel⟩

/-- Results of lists that are related in order belong to an item. -/
theorem exists_of_forall₂_right {R : α → β → Prop} {items : List α} {results : List β}
    (h : List.Forall₂ R items results) {result : β} (hmem : result ∈ results) :
    ∃ item ∈ items, R item result :=
  exists_of_forall₂_left (List.Forall₂.flip h) hmem

/-- What is there for the items of two lists pair by pair makes a list that is related to both. -/
theorem exists_forall₂_of_forall₂ {γ : Type} {P : α → γ → Prop} {Q : β → γ → Prop}
    {items : List α} {results : List β}
    (h : List.Forall₂ (fun a b => ∃ c, P a c ∧ Q b c) items results) :
    ∃ middle, List.Forall₂ P items middle ∧ List.Forall₂ Q results middle := by
  induction h with
  | nil => exact ⟨[], .nil, .nil⟩
  | cons hfirst _ ih =>
    obtain ⟨c, hp, hq⟩ := hfirst
    obtain ⟨middle, hps, hqs⟩ := ih
    exact ⟨c :: middle, .cons hp hps, .cons hq hqs⟩

/-- A list of steps that fails has a step with that failure. -/
theorem exists_of_mapM_eq_error {f : α → Except ε β} {items : List α} {e : ε}
    (h : items.mapM f = .error e) : ∃ item ∈ items, f item = .error e := by
  induction items with
  | nil => cases h
  | cons item items ih =>
    rw [List.mapM_cons] at h
    rcases bind_eq_error.1 h with hfirst | ⟨b, -, h⟩
    · exact ⟨item, List.mem_cons_self, hfirst⟩
    · rcases bind_eq_error.1 h with hrest | ⟨bs, -, h⟩
      · obtain ⟨other, hmem, hother⟩ := ih hrest
        exact ⟨other, List.mem_cons_of_mem _ hmem, hother⟩
      · cases h

/-- A list of steps succeeds when each of them does. -/
theorem exists_mapM_eq_ok {f : α → Except ε β} {items : List α} :
    (∃ results, items.mapM f = .ok results) ↔ ∀ item ∈ items, ∃ b, f item = .ok b := by
  constructor
  · rintro ⟨results, h⟩ item hitem
    obtain ⟨b, -, hb⟩ := exists_of_forall₂_left (mapM_eq_ok.1 h) hitem
    exact ⟨b, hb⟩
  · intro h
    cases hresults : items.mapM f with
    | ok results => exact ⟨results, rfl⟩
    | error e =>
      obtain ⟨item, hitem, herror⟩ := exists_of_mapM_eq_error hresults
      obtain ⟨b, hb⟩ := h item hitem
      rw [herror] at hb
      cases hb

/-- What is made of the results of a list of steps can be made when each of them succeeds. -/
theorem exists_make_iff {γ : Type} {f : α → Except ε β} {items : List α} {make : List β → γ}
    {x : Except ε γ} (h : ∀ c, x = .ok c ↔ ∃ results,
      List.Forall₂ (fun a b => f a = .ok b) items results ∧ c = make results) :
    (∃ c, x = .ok c) ↔ ∀ item ∈ items, ∃ b, f item = .ok b := by
  rw [← exists_mapM_eq_ok]
  constructor
  · rintro ⟨c, hc⟩
    obtain ⟨results, hresults, -⟩ := (h c).1 hc
    exact ⟨results, mapM_eq_ok.2 hresults⟩
  · rintro ⟨results, hresults⟩
    exact ⟨make results, (h _).2 ⟨results, mapM_eq_ok.1 hresults, rfl⟩⟩

/-- A list of steps fails with the failure of the first that fails. -/
theorem mapM_eq_error {f : α → Except ε β} {items : List α} {e : ε} :
    items.mapM f = .error e ↔ ∃ before item after, items = before ++ item :: after ∧
      (∀ other ∈ before, ∃ b, f other = .ok b) ∧ f item = .error e := by
  induction items with
  | nil =>
    constructor
    · nofun
    · rintro ⟨before, item, after, h, -⟩
      cases before <;> cases h
  | cons item items ih =>
    rw [List.mapM_cons]
    constructor
    · intro h
      rcases bind_eq_error.1 h with hfirst | ⟨b, hb, h⟩
      · exact ⟨[], item, items, rfl, nofun, hfirst⟩
      · rcases bind_eq_error.1 h with hrest | ⟨bs, -, h⟩
        · obtain ⟨before, other, after, rfl, hbefore, hother⟩ := ih.1 hrest
          exact ⟨item :: before, other, after, rfl, List.forall_mem_cons.2 ⟨⟨b, hb⟩, hbefore⟩,
            hother⟩
        · cases h
    · rintro ⟨before, other, after, h, hbefore, hother⟩
      cases before with
      | nil =>
        cases h
        exact bind_eq_error.2 (.inl hother)
      | cons first before =>
        cases h
        obtain ⟨⟨b, hb⟩, hbefore⟩ := List.forall_mem_cons.1 hbefore
        have hrest := ih.2 ⟨before, other, after, rfl, hbefore, hother⟩
        exact bind_eq_error.2 (.inr ⟨b, hb, bind_eq_error.2 (.inl hrest)⟩)

/-- Items with equal results in each step have equal results together. -/
theorem mapM_congr {f g : α → Except ε β} {items : List α} (h : ∀ item ∈ items, f item = g item) :
    items.mapM f = items.mapM g := by
  induction items with
  | nil => rfl
  | cons item items ih =>
    rw [List.mapM_cons, List.mapM_cons, h item List.mem_cons_self,
      ih fun other hother => h other (List.mem_cons_of_mem _ hother)]

/-- The steps of the items kept succeed with the results kept. -/
theorem mapM_filter {f : α → Except ε β} {items : List α} {results : List β}
    (h : items.mapM f = .ok results) {keep : α → Bool} {keepResult : β → Bool}
    (hkeep : ∀ item result, f item = .ok result → keepResult result = keep item) :
    (items.filter keep).mapM f = .ok (results.filter keepResult) := by
  rw [mapM_eq_ok] at h ⊢
  induction h with
  | nil => exact .nil
  | @cons item result _ _ hfirst _ ih =>
    rw [List.filter_cons, List.filter_cons, hkeep item result hfirst]
    split
    · exact .cons hfirst ih
    · exact ih

end GraphStore
