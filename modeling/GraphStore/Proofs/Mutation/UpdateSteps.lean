import GraphStore.Mutation.Update
import GraphStore.Proofs.Mutation.Prepared
import GraphStore.Proofs.Row.Given

/-!
# The steps of preparing an update

An update passes its checks, reads the row that it is for and changes that row, unless its condition
is not true of it. Each step is stated once as what it comes to when it does not fail: `prepare_eq_ok`
for the whole, `settle_eq_ok` for the condition and `changedRow_eq_ok` for the changed row.
-/

namespace GraphStore.UpdateVertex

/-- What a request comes to when it passes every check that comes before its row is read. -/
structure Accepted (req : UpdateVertex) (node : Node) (layout : SpaceLayout) (schema : Schema)
    (condition : Option Expr) (key : Bytes) : Prop where
  layout_eq : node.layout req.space false = .ok layout
  schema_eq : node.catalog.schema? req.space (.tag req.tag) = some schema
  known : ∀ name ∈ req.updates.map (·.name) ++ req.returnProps,
    name = vidProperty ∨ name ∈ schema.names
  condition_eq : req.decodedCondition = .ok condition
  key_eq : Key.vertex layout.vidLen req.part req.vertex req.tag = .ok key

variable {req : UpdateVertex} {node : Node} {layout : SpaceLayout} {schema : Schema}
  {condition : Option Expr} {key : Bytes}

/-- What becomes of a request that has passed its checks, with the properties that it found. -/
def settle (req : UpdateVertex) (layout : SpaceLayout) (schema : Schema) (condition : Option Expr)
    (key : Bytes) (old : Option Props) : Except ErrorCode Prepared :=
  match old, condition with
  | some props, some condition =>
    if condition.holds (req.lookup props) then
      req.changedRow layout schema key old (req.applyUpdates props)
    else .ok (.filtered props)
  | _, _ => req.changedRow layout schema key old (req.applyUpdates (old.getD (defaults schema)))

/-- The names of a request are known when each is that of a column or of the vertex id. -/
theorem namesKnown_iff : req.namesKnown schema = true ↔
    ∀ name ∈ req.updates.map (·.name) ++ req.returnProps,
      name = vidProperty ∨ name ∈ schema.names := by
  simp only [namesKnown, List.all_eq_true, Bool.or_eq_true, decide_eq_true_iff,
    Schema.isSome_field?]

/-- A request is prepared when it passes its checks, finds its row and settles it. -/
theorem prepare_eq_ok {prepared : Prepared} : req.prepare node = .ok prepared ↔
    ∃ layout schema condition key old, req.Accepted node layout schema condition key ∧
      req.storedProps node schema key = .ok old ∧
      req.settle layout schema condition key old = .ok prepared := by
  constructor
  · intro h
    unfold prepare at h
    cases hvidLen : node.catalog.vidLen req.space with
    | error code =>
      rw [hvidLen] at h
      cases h
    | ok vidLen =>
      rw [hvidLen] at h
      obtain ⟨width, hwidth, h⟩ := bind_eq_ok.1 h
      cases hwidth
      obtain ⟨schema, hschema, h⟩ := bind_eq_ok.1 h
      dsimp only at h
      split at h
      · cases h
      next hnames =>
      obtain ⟨condition, hcondition, h⟩ := bind_eq_ok.1 h
      cases hindexes : node.catalog.indexes req.space false with
      | error code =>
        rw [hindexes] at h
        cases h
      | ok indexes =>
        rw [hindexes] at h
        obtain ⟨layout, hlayout, h⟩ := bind_eq_ok.1 h
        cases hlayout
        obtain ⟨key, hkey, h⟩ := bind_eq_ok.1 h
        obtain ⟨old, hold, h⟩ := bind_eq_ok.1 h
        exact ⟨⟨vidLen, indexes⟩, schema, condition, key, old,
          ⟨Node.layout_eq_ok.2 ⟨hvidLen, hindexes⟩, Node.schemaOr_eq_ok.1 hschema,
            namesKnown_iff.1 (by simpa using hnames), hcondition, hkey⟩, hold, h⟩
  · rintro ⟨layout, schema, condition, key, old, haccepted, hold, hsettle⟩
    obtain ⟨hvidLen, hindexes⟩ := Node.layout_eq_ok.1 haccepted.layout_eq
    have hnames : (!req.namesKnown schema) = false := by
      simpa using namesKnown_iff.2 haccepted.known
    unfold prepare
    rw [hvidLen, hindexes]
    refine bind_eq_ok.2 ⟨layout.vidLen, rfl, bind_eq_ok.2
      ⟨schema, Node.schemaOr_eq_ok.2 haccepted.schema_eq, ?_⟩⟩
    dsimp only
    rw [hnames]
    exact bind_eq_ok.2 ⟨condition, haccepted.condition_eq, bind_eq_ok.2 ⟨layout, rfl, bind_eq_ok.2
      ⟨key, haccepted.key_eq, bind_eq_ok.2 ⟨old, hold, hsettle⟩⟩⟩⟩

/-- A changed row is written with its keys, in place of those of the old row. -/
theorem changedRow_eq_ok {old : Option Props} {given : Props} {prepared : Prepared} :
    req.changedRow layout schema key old given = .ok prepared ↔
      ∃ raw props keys oldKeys, encodeProps schema given = .ok raw ∧
        readProps schema raw = .ok props ∧
        Index.entryKeys layout.vidLen req.part (.tag req.tag) (.vertex req.vertex) props
          layout.indexes = .ok keys ∧
        (match old with
          | none => oldKeys = []
          | some old => Index.entryKeys layout.vidLen req.part (.tag req.tag) (.vertex req.vertex)
              old layout.indexes = .ok oldKeys) ∧
        prepared = .write (oldKeys.filter fun entry => !keys.contains entry)
          ((key, raw) :: indexEntries keys) props old.isNone := by
  constructor
  · intro h
    obtain ⟨raw, hraw, h⟩ := bind_eq_ok.1 h
    obtain ⟨props, hprops, h⟩ := bind_eq_ok.1 h
    obtain ⟨keys, hkeys, h⟩ := bind_eq_ok.1 h
    cases old with
    | none =>
      cases h
      exact ⟨raw, props, keys, [], hraw, hprops, hkeys, rfl, rfl⟩
    | some old =>
      obtain ⟨oldKeys, holdKeys, h⟩ := bind_eq_ok.1 h
      cases h
      exact ⟨raw, props, keys, oldKeys, hraw, hprops, hkeys, holdKeys, rfl⟩
  · rintro ⟨raw, props, keys, oldKeys, hraw, hprops, hkeys, hold, rfl⟩
    refine bind_eq_ok.2 ⟨raw, hraw, bind_eq_ok.2 ⟨props, hprops, bind_eq_ok.2 ⟨keys, hkeys, ?_⟩⟩⟩
    cases old with
    | none =>
      obtain rfl : oldKeys = [] := hold
      rfl
    | some old => exact bind_eq_ok.2 ⟨oldKeys, hold, rfl⟩

/-- A request that is settled is filtered by its condition, or changes its row. -/
theorem settle_eq_ok {old : Option Props} {prepared : Prepared}
    (h : req.settle layout schema condition key old = .ok prepared) :
    (∃ props filter, old = some props ∧ condition = some filter ∧
        ¬ filter.holds (req.lookup props) = true ∧ prepared = .filtered props) ∨
      req.changedRow layout schema key old (req.applyUpdates (old.getD (defaults schema))) =
        .ok prepared := by
  unfold settle at h
  split at h
  · next props filter =>
    split at h
    · exact .inr h
    · next hfalse =>
      cases h
      exact .inl ⟨props, filter, rfl, rfl, hfalse, rfl⟩
  · exact .inr h

end GraphStore.UpdateVertex
