import GraphStore.Query.Order
import Mathlib.Data.List.GetD
import Mathlib.Data.List.Count

/-!
# Nodes that only depend on earlier ones

When every dependency has a lower number than the node that names it, nodes come in the order of
their numbers. Before node `k` comes, a node has as many dependencies left as it names nodes from
`k` on, and the ready nodes are those from `k` on that name none.
-/

namespace GraphStore.Order

variable {deps : List (List Nat)}

/-- The nodes that a node depends on. -/
def depsOf (deps : List (List Nat)) (id : Nat) : List Nat := deps.getD id []

/-- Every node depends on earlier ones only. -/
def Forward (deps : List (List Nat)) : Prop := ∀ id, ∀ dep ∈ depsOf deps id, dep < id

/-- Only nodes that are there depend on others. -/
theorem lt_length_of_mem {id dep : Nat} (h : dep ∈ depsOf deps id) : id < deps.length := by
  by_contra hlt
  rw [depsOf, List.getD_eq_default _ _ (Nat.not_lt.1 hlt)] at h
  cases h

/-- A node is a dependent as often as it names the dependency. -/
theorem count_dependents (deps : List (List Nat)) (id node : Nat) :
    (dependents deps id).count node = (depsOf deps node).count id := by
  have hgo (deps : List (List Nat)) (start : Nat) :
      ((deps.zipIdx start).flatMap fun entry =>
          (entry.1.filter (· = id)).map fun _ => entry.2).count node =
        if start ≤ node then (deps.getD (node - start) []).count id else 0 := by
    induction deps generalizing start with
    | nil => simp
    | cons ds deps ih =>
      have hfirst : ((ds.filter (· = id)).map fun _ => start).count node =
          if start = node then ds.count id else 0 := by
        rw [List.map_const', List.count_replicate, ← List.countP_eq_length_filter]
        simp only [List.count_eq_countP, beq_eq_decide, decide_eq_true_eq]
      rw [List.zipIdx_cons, List.flatMap_cons, List.count_append, ih, hfirst]
      rcases Nat.lt_trichotomy start node with hlt | rfl | hgt
      · obtain ⟨k, rfl⟩ : ∃ k, node = start + 1 + k := ⟨node - start - 1, by omega⟩
        have hfrom : start + 1 + k - start = k + 1 := by omega
        have hrest : start + 1 + k - (start + 1) = k := by omega
        rw [if_neg (by omega), if_pos (by omega), if_pos (by omega), hfrom, hrest,
          List.getD_cons_succ, Nat.zero_add]
      · rw [if_pos rfl, if_neg (by omega), if_pos (by omega), Nat.sub_self, List.getD_cons_zero,
          Nat.add_zero]
      · rw [if_neg (by omega), if_neg (by omega), if_neg (by omega)]
  have hall := hgo deps 0
  rw [if_pos (Nat.zero_le _), Nat.sub_zero] at hall
  exact hall

/-- Inserting adds a number. -/
theorem mem_insert {id other : Nat} {ready : List Nat} :
    other ∈ insert id ready ↔ other = id ∨ other ∈ ready := by
  induction ready with
  | nil => simp [insert]
  | cons first rest ih =>
    rw [insert]
    split
    · simp
    · split
      · next heq => simp [heq]
      · simp only [List.mem_cons, ih]
        exact or_left_comm

/-- Inserting keeps a list ascending. -/
theorem sorted_insert {id : Nat} {ready : List Nat} (h : ready.Pairwise (· < ·)) :
    (insert id ready).Pairwise (· < ·) := by
  induction ready with
  | nil => simp [insert]
  | cons first rest ih =>
    obtain ⟨hfirst, hrest⟩ := List.pairwise_cons.1 h
    rw [insert]
    split
    · next hlt =>
      refine List.pairwise_cons.2 ⟨fun other hother => ?_, h⟩
      rcases List.mem_cons.1 hother with rfl | hother
      · exact hlt
      · exact Nat.lt_trans hlt (hfirst other hother)
    · split
      · exact h
      · refine List.pairwise_cons.2 ⟨fun other hother => ?_, ih hrest⟩
        rcases mem_insert.1 hother with rfl | hother
        · omega
        · exact hfirst other hother

namespace Progress

/-- Dependencies left of a node. -/
def left (p : Progress) (id : Nat) : Nat := p.remaining.getD id 0

/-- Settling takes one dependency from the node. -/
theorem left_settle (p : Progress) (id other : Nat) :
    (p.settle id).left other = if other = id then p.left other - 1 else p.left other := by
  simp only [left, settle, List.getD_eq_getElem?_getD, List.getElem?_set]
  split
  · next heq =>
    subst heq
    rw [if_pos rfl]
    split
    · rfl
    · next hlt => rw [List.getElem?_eq_none (Nat.not_lt.1 hlt)]; rfl
  · next hne => rw [if_neg (Ne.symm hne)]

/-- Settling makes the node ready with its last dependency. -/
theorem mem_ready_settle {p : Progress} {id other : Nat} :
    other ∈ (p.settle id).ready ↔ other ∈ p.ready ∨ other = id ∧ p.left other ≤ 1 := by
  have hleft : p.remaining.getD id 0 - 1 = 0 ↔ p.left id ≤ 1 := by
    rw [left]
    omega
  simp only [settle, hleft]
  split
  · next hlast =>
    rw [mem_insert]
    constructor
    · rintro (rfl | hready)
      · exact .inr ⟨rfl, hlast⟩
      · exact .inl hready
    · rintro (hready | ⟨rfl, -⟩)
      · exact .inr hready
      · exact .inl rfl
  · next hmore =>
    constructor
    · exact .inl
    · rintro (hready | ⟨rfl, hlast⟩)
      · exact hready
      · exact absurd hlast hmore

/-- Settling a list takes a dependency for each time that a node is in it. -/
theorem left_settles (p : Progress) (ids : List Nat) (other : Nat) :
    (ids.foldl settle p).left other = p.left other - ids.count other := by
  induction ids generalizing p with
  | nil => rfl
  | cons id ids ih =>
    rw [List.foldl_cons, ih, left_settle, List.count_cons]
    by_cases h : other = id
    · rw [if_pos h, if_pos (beq_iff_eq.2 h.symm)]
      omega
    · rw [if_neg h, if_neg (fun heq => h (beq_iff_eq.1 heq).symm)]
      omega

/-- Settling a list makes a node ready when it takes the last of its dependencies. -/
theorem mem_ready_settles {p : Progress} {ids : List Nat} {other : Nat} :
    other ∈ (ids.foldl settle p).ready ↔
      other ∈ p.ready ∨ other ∈ ids ∧ p.left other ≤ ids.count other := by
  induction ids generalizing p with
  | nil => simp
  | cons id ids ih =>
    rw [List.foldl_cons, ih, mem_ready_settle, left_settle, List.count_cons, List.mem_cons]
    have hcount : other ∈ ids ↔ 0 < ids.count other := List.count_pos_iff.symm
    by_cases h : other = id
    · subst h
      rw [if_pos rfl, if_pos (beq_iff_eq.2 rfl), hcount]
      simp only [true_and, true_or]
      constructor
      · rintro ((hready | hlast) | ⟨-, hleft⟩)
        · exact .inl hready
        · exact .inr (by omega)
        · exact .inr (by omega)
      · rintro (hready | hleft)
        · exact .inl (.inl hready)
        · by_cases hlast : p.left other ≤ 1
          · exact .inl (.inr hlast)
          · exact .inr ⟨by omega, by omega⟩
    · rw [if_neg h, if_neg (fun heq => h (beq_iff_eq.1 heq).symm)]
      simp only [h, false_and, or_false, false_or, Nat.add_zero]

/-- Settling keeps the ready nodes ascending. -/
theorem sorted_settles {p : Progress} (ids : List Nat) (h : p.ready.Pairwise (· < ·)) :
    (ids.foldl settle p).ready.Pairwise (· < ·) := by
  induction ids generalizing p with
  | nil => exact h
  | cons id ids ih =>
    rw [List.foldl_cons]
    apply ih
    rw [settle]
    dsimp only
    split
    · exact sorted_insert h
    · exact h

/-- The progress before node `k` comes. -/
structure Before (deps : List (List Nat)) (k : Nat) (p : Progress) : Prop where
  counts : ∀ id, p.left id = (depsOf deps id).countP (k ≤ ·)
  sorted : p.ready.Pairwise (· < ·)
  mem_ready : ∀ id, id ∈ p.ready ↔ k ≤ id ∧ id < deps.length ∧ ∀ dep ∈ depsOf deps id, dep < k

/-- A node without dependencies from `k` on names earlier nodes only. -/
theorem countP_eq_zero {k : Nat} {ds : List Nat} :
    ds.countP (k ≤ ·) = 0 ↔ ∀ dep ∈ ds, dep < k := by
  simp [List.countP_eq_zero]

/-- The dependencies from `k` on are `k`, as often as it is named, and those after it. -/
theorem countP_eq_add (k : Nat) (ds : List Nat) :
    ds.countP (k ≤ ·) = ds.count k + ds.countP (k + 1 ≤ ·) := by
  induction ds with
  | nil => rfl
  | cons d ds ih =>
    simp only [List.countP_cons, List.count_cons, ih, decide_eq_true_eq, beq_iff_eq]
    rcases Nat.lt_trichotomy k d with hlt | rfl | hgt
    · rw [if_pos (by omega), if_neg (by omega), if_pos (by omega)]
      omega
    · rw [if_pos (by omega), if_pos rfl, if_neg (by omega)]
      omega
    · rw [if_neg (by omega), if_neg (by omega), if_neg (by omega), Nat.add_zero]
      rfl

/-- At first all dependencies are left. -/
theorem before_start (deps : List (List Nat)) : Before deps 0 (start deps) := by
  have hzip (id : Nat) : id ∈ (start deps).ready ↔ (deps.map List.length)[id]? = some 0 := by
    simp only [start, List.mem_map, List.mem_filter, decide_eq_true_eq, Prod.exists,
      List.mem_zipIdx_iff_getElem?]
    constructor
    · rintro ⟨count, node, ⟨hnode, rfl⟩, rfl⟩
      exact hnode
    · exact fun hid => ⟨0, id, ⟨hid, rfl⟩, rfl⟩
  constructor
  case counts =>
    intro id
    simp only [left, start, depsOf, List.getD_eq_getElem?_getD, List.getElem?_map]
    cases deps[id]? <;> simp
  case sorted =>
    have hall := List.pairwise_lt_range' (s := 0) (n := (deps.map List.length).length)
    rw [← List.zipIdx_map_snd] at hall
    exact hall.sublist (List.filter_sublist.map _)
  case mem_ready =>
    intro id
    rw [hzip, List.getElem?_map, depsOf, List.getD_eq_getElem?_getD]
    by_cases hid : id < deps.length
    · rw [List.getElem?_eq_getElem hid, Option.map_some, Option.some_inj, Option.getD_some]
      simp only [Nat.zero_le, hid, true_and, Nat.not_lt_zero, imp_false, List.length_eq_zero_iff]
      exact List.eq_nil_iff_forall_not_mem
    · rw [List.getElem?_eq_none (Nat.not_lt.1 hid)]
      simp [hid]

/-- Taking the lowest ready node, and settling those that depend on it. -/
theorem Before.next {k : Nat} {p : Progress} (h : Before deps k p) (hforward : Forward deps)
    (hk : k < deps.length) :
    ∃ ready, p.ready = k :: ready ∧
      Before deps (k + 1) ((dependents deps k).foldl settle { p with ready }) := by
  have hmem : k ∈ p.ready := (h.mem_ready k).2 ⟨Nat.le_refl k, hk, hforward k⟩
  obtain ⟨first, ready, hready⟩ := List.exists_cons_of_ne_nil (List.ne_nil_of_mem hmem)
  have hsorted := h.sorted
  rw [hready] at hmem hsorted
  obtain ⟨hfirst, hrest⟩ := List.pairwise_cons.1 hsorted
  -- The ready nodes are ascending and none is below `k`, so it is `k` that comes first.
  have hlow : k ≤ first := ((h.mem_ready first).1 (hready ▸ List.mem_cons_self)).1
  have heq : first = k := by
    rcases List.mem_cons.1 hmem with heq | hmem
    · exact heq.symm
    · have := hfirst k hmem
      omega
  subst heq
  refine ⟨ready, hready, ?_, sorted_settles _ hrest, fun id => ?_⟩
  · intro id
    rw [left_settles, count_dependents]
    have hbefore := h.counts id
    rw [countP_eq_add] at hbefore
    rw [left] at hbefore ⊢
    rw [hbefore, Nat.add_sub_cancel_left]
  · have hothers : id ∈ ready ↔
        first + 1 ≤ id ∧ id < deps.length ∧ ∀ dep ∈ depsOf deps id, dep < first := by
      have hid := h.mem_ready id
      rw [hready, List.mem_cons] at hid
      constructor
      · intro hin
        have := hfirst id hin
        exact ⟨this, (hid.1 (.inr hin)).2⟩
      · rintro ⟨hlt, hrest⟩
        rcases hid.2 ⟨by omega, hrest⟩ with rfl | hin
        · omega
        · exact hin
    have hlast : left { p with ready } id ≤ (dependents deps first).count id ↔
        ∀ dep ∈ depsOf deps id, dep < first + 1 := by
      have hbefore : left { p with ready } id = _ := h.counts id
      rw [← countP_eq_zero, hbefore, countP_eq_add, ← count_dependents]
      omega
    have hnames : id ∈ dependents deps first ↔ first ∈ depsOf deps id := by
      rw [← List.count_pos_iff, count_dependents, List.count_pos_iff]
    rw [mem_ready_settles, hothers, hlast, hnames]
    constructor
    · rintro (⟨hlt, hlength, hdeps⟩ | ⟨hdep, hdeps⟩)
      · exact ⟨hlt, hlength, fun dep hdep => Nat.lt_succ_of_lt (hdeps dep hdep)⟩
      · exact ⟨hforward id first hdep, lt_length_of_mem hdep, hdeps⟩
    · rintro ⟨hlt, hlength, hdeps⟩
      by_cases hdep : first ∈ depsOf deps id
      · exact .inr ⟨hdep, hdeps⟩
      · refine .inl ⟨hlt, hlength, fun dep hin => ?_⟩
        exact Nat.lt_of_le_of_ne (Nat.lt_succ_iff.1 (hdeps dep hin)) fun heq => hdep (heq ▸ hin)

end Progress

/-- From node `k` on, nodes come in the order of their numbers. -/
theorem run_eq_range' {k : Nat} {p : Progress} (hforward : Forward deps)
    (h : Progress.Before deps k p) {fuel : Nat} (hfuel : k + fuel = deps.length) :
    run deps fuel p = List.range' k fuel := by
  induction fuel generalizing k p with
  | zero => rfl
  | succ fuel ih =>
    obtain ⟨ready, hready, hnext⟩ := h.next hforward (by omega)
    rw [run, hready, List.range'_succ]
    exact congrArg (k :: ·) (ih hnext (by omega))

/-- Nodes that only depend on earlier ones come in the order of their numbers. -/
theorem ofDependencies_eq_range (h : Forward deps) :
    ofDependencies deps = List.range deps.length := by
  rw [ofDependencies, run_eq_range' h (Progress.before_start deps) (Nat.zero_add _),
    List.range_eq_range']

end GraphStore.Order
