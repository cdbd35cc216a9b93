import GraphStore.Proofs.Key.IndexEntries
import GraphStore.Proofs.Mutation.UpdateVertex
import GraphStore.Proofs.Row.Conformity

/-!
# Updates that insert

An update that may insert the row it does not find, and that sets properties to constants, makes of
the defaults the row that inserting the same properties makes of what is given. Either way the row
is put with its index entries in one write, so what differs is only what an update is asked beside:
its condition and its returned properties have to be understood, and the partition is read first.
-/

namespace GraphStore

/-- A column that keeps its default stores it as if it were given. -/
theorem Row.stores_or_default {column : Column} (hkeeps : column.KeepsDefault)
    {given : Option Value} {value : Value} :
    Stores column (given.or column.default) value ↔ Stores column given value := by
  cases given with
  | some given => exact Iff.rfl
  | none =>
    cases hdefault : column.default with
    | none => exact Iff.rfl
    | some default =>
      change check column default = .ok value ↔ complete column none = .ok value
      rw [hkeeps default hdefault, complete_none_eq_ok, hdefault]
      simp

namespace Node

variable {node : Node} {space : SpaceId} {part : PartId}

/-- What is read under a key of a partition that can be read is what is there. -/
theorem get_eq_ok {key : Bytes} {found : Option Bytes} : node.get space part key = .ok found ↔
    part ∉ node.down ∧ ∃ p, node.store.parts[(⟨space, part⟩ : Address)]? = some p ∧
      p[key]? = found := by
  unfold get reading Store.get Store.read
  by_cases hdown : part ∈ node.down
  · simp [hdown]
  · cases node.store.parts[(⟨space, part⟩ : Address)]? <;> simp [hdown]

/-- Replacing nothing is putting. -/
theorem perform_replace_nil (batch : List Entry) :
    node.perform space part (.replace [] batch) = node.perform space part (.put batch) := rfl

/-- A write does not depend on what has been forgotten. -/
theorem perform_evict (keys : List CacheKey) (w : Write) :
    (node.evict keys).perform space part w =
      ((node.perform space part w).1.evict keys, (node.perform space part w).2) := by
  have hdown : (node.evict keys).down = node.down := rfl
  unfold perform
  rw [hdown]
  split <;> rfl

end Node

namespace UpdateVertex

/-- The insertion of a row with these properties in place of an update that sets them. -/
def insertion (req : UpdateVertex) (given : List (String × Value)) : AddVertices where
  space := req.space
  parts := .insert ∅ req.part
    [{ id := req.vertex, tags := [{ tag := req.tag, props := given.map (·.2) }] }]
  propNames := .insert ∅ req.tag (given.map (·.1))

/-- What that insertion prepares for its partition. -/
def insertionPlan (req : UpdateVertex) (node : Node) (given : List (String × Value)) :
    Except ErrorCode (List WorkUnit) :=
  (node.layout req.space false).bind fun layout => (req.insertion given).prepare node layout
    req.part [{ id := req.vertex, tags := [{ tag := req.tag, props := given.map (·.2) }] }]

/-- A request that sets properties of distinct names to finite constants, and may do so of a row
that is not there: as its key holds nothing, it is for an insertion to make the row. The columns of
the tag have distinct names and store their own defaults, and the indexes over it have columns of
their types. -/
structure Inserts (req : UpdateVertex) (node : Node) (given : List (String × Value)) : Prop where
  insertable : req.insertable = true
  updates_eq : req.updates = given.map fun (name, value) => { name, value := .constant value }
  distinct : (given.map (·.1)).Nodup
  notVid : vidProperty ∉ given.map (·.1)
  finite : Row.Finite (given.map (·.2))
  names : ∀ schema, node.catalog.schema? req.space (.tag req.tag) = some schema →
    schema.names.Nodup
  keeps : ∀ schema, node.catalog.schema? req.space (.tag req.tag) = some schema →
    ∀ column ∈ schema.columns, column.KeepsDefault
  types : ∀ layout schema, node.layout req.space false = .ok layout →
    node.catalog.schema? req.space (.tag req.tag) = some schema →
      ∀ index ∈ layout.indexes, index.owner = .tag req.tag → ∀ indexColumn ∈ index.columns,
        ∀ column ∈ schema.columns, column.name = indexColumn.name → column.ty = indexColumn.ty
  vacant : ∀ layout key p, node.layout req.space false = .ok layout →
    Key.vertex layout.vidLen req.part req.vertex req.tag = .ok key →
      node.store.parts[(⟨req.space, req.part⟩ : Address)]? = some p → p[key]? = none

/-- Whether the defaults of the tag of a request are finite. -/
def FiniteDefaults (req : UpdateVertex) (node : Node) : Prop :=
  ∀ schema, node.catalog.schema? req.space (.tag req.tag) = some schema →
    ∀ column ∈ schema.columns, ∀ value, column.default = some value → value.isFinite = true

/-- Whether what a request asks beside its updates is understood: its condition can be read, and
its returned properties are the id of the vertex or columns of the tag. -/
structure Understood (req : UpdateVertex) (node : Node) : Prop where
  condition : ∃ condition, req.decodedCondition = .ok condition
  returns : ∀ schema, node.catalog.schema? req.space (.tag req.tag) = some schema →
    ∀ name ∈ req.returnProps, name = vidProperty ∨ name ∈ schema.names

/-- The row that properties make under the key of a request, with the keys of its index entries. -/
structure Makes (req : UpdateVertex) (node : Node) (given : List (String × Value))
    (layout : SpaceLayout) (schema : Schema) (key : Bytes) (row : Row) (keys : List Bytes) :
    Prop where
  layout_eq : node.layout req.space false = .ok layout
  schema_eq : node.catalog.schema? req.space (.tag req.tag) = some schema
  key_eq : Key.vertex layout.vidLen req.part req.vertex req.tag = .ok key
  made : Row.MadeFrom schema (Props.ofPairs given) row
  keys_eq : Index.entryKeys layout.vidLen req.part (.tag req.tag) (.vertex req.vertex)
    (Props.ofRow schema row) layout.indexes = .ok keys

/-- The entries that are put for a row made of these properties. -/
def Puts (req : UpdateVertex) (node : Node) (given : List (String × Value)) (batch : List Entry)
    (props : Props) : Prop :=
  ∃ layout schema key row keys, req.Makes node given layout schema key row keys ∧
    batch = (key, Row.toBytes row) :: indexEntries keys ∧ props = Props.ofRow schema row

/-- What a store is where the properties of a request make a row: what the put of the row leaves, and
the store as it was where they make none. -/
structure Leaves (req : UpdateVertex) (node : Node) (given : List (String × Value))
    (after : Store) : Prop where
  put : ∀ batch props, req.Puts node given batch props →
    after = (node.perform req.space req.part (.put batch)).1.store
  idle : (¬ ∃ batch props, req.Puts node given batch props) → after = node.store

variable {req : UpdateVertex} {node : Node} {given : List (String × Value)}

/-- A request leaves one store. -/
theorem Leaves.unique {after other : Store} (h : req.Leaves node given after)
    (h' : req.Leaves node given other) : after = other := by
  by_cases hputs : ∃ batch props, req.Puts node given batch props
  · obtain ⟨batch, props, hputs⟩ := hputs
    exact (h.put batch props hputs).trans (h'.put batch props hputs).symm
  · exact (h.idle hputs).trans (h'.idle hputs).symm

/-- An insertion puts the row that its properties make. -/
theorem insertionPlan_eq_ok (h : req.Inserts node given) {units : List WorkUnit} :
    req.insertionPlan node given = .ok units ↔
      ∃ batch props, req.Puts node given batch props ∧ units = [.write req.part (.put batch)] := by
  have hnames : (req.insertion given).namesOf req.tag = given.map (·.1) := by
    simp [AddVertices.namesOf, insertion]
  have hentries {layout : SpaceLayout} (hlayout : node.layout req.space false = .ok layout)
      {batch : List Entry} :
      (req.insertion given).entries node layout req.part
          { vid := req.vertex, tag := req.tag, props := given.map (·.2) } = .ok batch ↔
        ∃ props, req.Puts node given batch props := by
    rw [AddVertices.entries_eq_ok, hnames]
    constructor
    · rintro ⟨schema, raw, key, keys, hschema, hraw, hkey, hkeys, rfl⟩
      obtain ⟨row, hrow, hraw⟩ := bind_eq_ok.1 hraw
      cases hraw
      rw [Index.entryKeys_ofGiven (h.names schema hschema) hrow
        (h.types layout schema hlayout hschema)] at hkeys
      exact ⟨_, layout, schema, key, row, keys, ⟨hlayout, hschema, hkey,
        (Row.ofGiven_pairs_iff (h.names schema hschema) h.distinct).1 hrow, hkeys⟩, rfl, rfl⟩
    · rintro ⟨props, layout', schema, key, row, keys, hmakes, rfl, -⟩
      obtain rfl := Except.ok.inj (hlayout.symm.trans hmakes.layout_eq)
      have hnodup := h.names schema hmakes.schema_eq
      have hrow := (Row.ofGiven_pairs_iff hnodup h.distinct).2 hmakes.made
      refine ⟨schema, _, key, keys, hmakes.schema_eq, bind_eq_ok.2 ⟨row, hrow, rfl⟩, hmakes.key_eq,
        ?_, rfl⟩
      rw [Index.entryKeys_ofGiven hnodup hrow (h.types layout schema hlayout hmakes.schema_eq)]
      exact hmakes.keys_eq
  constructor
  · intro hplan
    obtain ⟨layout, hlayout, hplan⟩ := bind_eq_ok.1 hplan
    obtain ⟨batches, hbatches, rfl⟩ := AddVertices.prepare_eq_ok.1 hplan
    obtain ⟨batch, rest, hbatch, hrest, rfl⟩ := List.forall₂_cons_left_iff.1 hbatches
    obtain rfl := List.forall₂_nil_left_iff.1 hrest
    obtain ⟨props, hputs⟩ := (hentries hlayout).1 hbatch
    exact ⟨batch, props, hputs, by simp⟩
  · rintro ⟨batch, props, hputs, rfl⟩
    obtain ⟨layout, _, _, _, _, hmakes, -, -⟩ := id hputs
    exact bind_eq_ok.2 ⟨layout, hmakes.layout_eq, AddVertices.prepare_eq_ok.2 ⟨[batch],
      .cons ((hentries hmakes.layout_eq).2 ⟨props, hputs⟩) .nil, by simp⟩⟩

/-- The updates of a request give the row its properties, where it had the defaults. -/
theorem get?_applyUpdates_defaults (h : req.Inserts node given) {schema : Schema}
    (hnodup : schema.names.Nodup) (name : String) :
    (req.applyUpdates (defaults schema)).get? name =
      ((Props.ofPairs given).get? name).or (schema.default? name) := by
  rw [applyUpdates, h.updates_eq, List.foldl_map, ← get?_defaults hnodup,
    Props.get?_ofPairs h.distinct]
  exact Props.get?_foldl_set_of_nodup h.distinct _ name

/-- The row that a request encodes is made of the properties that it sets, when these are known. -/
theorem encodeProps_defaults_eq_ok (h : req.Inserts node given) {schema : Schema}
    (hschema : node.catalog.schema? req.space (.tag req.tag) = some schema)
    (hknown : ∀ name ∈ given.map (·.1), name ∈ schema.names) {raw : Bytes} :
    encodeProps schema (req.applyUpdates (defaults schema)) = .ok raw ↔
      ∃ row, raw = Row.toBytes row ∧ Row.MadeFrom schema (Props.ofPairs given) row := by
  have hnodup := h.names schema hschema
  -- Defaults are encoded as if they were given, so it matters that columns keep their own.
  have hstores {i : Nat} {column : Column} (hcolumn : schema.columns[i]? = some column)
      (value : Value) :
      Row.Stores column ((req.applyUpdates (defaults schema)).get? column.name) value ↔
        Row.Stores column ((Props.ofPairs given).get? column.name) value := by
    rw [get?_applyUpdates_defaults h hnodup, Schema.default?, Schema.find?_name hnodup hcolumn]
    exact Row.stores_or_default (h.keeps schema hschema column (List.mem_of_getElem? hcolumn))
  rw [encodeProps_eq_ok hnodup]
  constructor
  · rintro ⟨row, rfl, hlength, hrow⟩
    refine ⟨row, rfl, hlength, fun i column hcolumn => ?_, fun name hgiven => ?_⟩
    · obtain ⟨value, hvalue, hstored⟩ := hrow i column hcolumn
      exact ⟨value, hvalue, (hstores hcolumn value).1 hstored⟩
    · obtain ⟨value, hvalue⟩ := Option.isSome_iff_exists.1 hgiven
      exact hknown name (List.mem_map_of_mem ((Props.get?_ofPairs_eq_some h.distinct).1 hvalue))
  · rintro ⟨row, rfl, hmade⟩
    refine ⟨row, rfl, hmade.length_eq, fun i column hcolumn => ?_⟩
    obtain ⟨value, hvalue, hstored⟩ := hmade.stores i column hcolumn
    exact ⟨value, hvalue, (hstores hcolumn value).2 hstored⟩

/-- A request finds that its row is not there, when the partition can be read. -/
theorem finds_iff (h : req.Inserts node given) {layout : SpaceLayout} {schema : Schema}
    {condition : Option Expr} {key : Bytes}
    (haccepted : req.Accepted node layout schema condition key) {old : Option Row} :
    req.Finds node schema key old ↔ old = none ∧ req.part ∉ node.down ∧
      (node.store.parts[(⟨req.space, req.part⟩ : Address)]?).isSome = true := by
  cases old with
  | none =>
    simp only [Finds, h.insertable, and_true, true_and, Node.get_eq_ok, Option.isSome_iff_exists]
    constructor
    · rintro ⟨hup, p, hp, -⟩
      exact ⟨hup, p, hp⟩
    · rintro ⟨hup, p, hp⟩
      exact ⟨hup, p, hp, h.vacant layout key p haccepted.layout_eq haccepted.key_eq hp⟩
  | some row =>
    refine iff_of_false ?_ (fun hnone => nomatch hnone.1)
    rintro ⟨raw, hget, -⟩
    obtain ⟨-, p, hp, hraw⟩ := Node.get_eq_ok.1 hget
    cases hraw.symm.trans (h.vacant layout key p haccepted.layout_eq haccepted.key_eq hp)

/-- A row that is changed from the defaults is put as the properties make it. -/
theorem changedRow_defaults_eq_ok (h : req.Inserts node given) {layout : SpaceLayout}
    {schema : Schema} {condition : Option Expr} {key : Bytes}
    (haccepted : req.Accepted node layout schema condition key)
    (hdefaults : ∀ column ∈ schema.columns, ∀ value, column.default = some value →
      value.isFinite = true) {prepared : Prepared} :
    req.changedRow layout schema key none (req.applyUpdates (defaults schema)) = .ok prepared ↔
      ∃ batch props, req.Puts node given batch props ∧ prepared = .write [] batch props true := by
  have hschema := haccepted.schema_eq
  have hknown (name : String) (hname : name ∈ given.map (·.1)) : name ∈ schema.names := by
    have hupdated : name ∈ req.updates.map (·.name) := by
      rw [h.updates_eq, List.map_map]
      exact hname
    refine (haccepted.known name (List.mem_append_left _ hupdated)).resolve_left ?_
    rintro rfl
    exact h.notVid hname
  -- The index keys are made of the row that is read back, so it is here that defaults have to be
  -- finite: the row of an insertion is never read.
  have hread {row : Row} (hmade : Row.MadeFrom schema (Props.ofPairs given) row) :
      readProps schema (Row.toBytes row) = .ok (Props.ofRow schema row) := by
    have hfinite : Row.Finite row := by
      refine hmade.finite (fun name value hvalue => ?_) hdefaults
      exact h.finite value
        (List.mem_map_of_mem (f := (·.2)) ((Props.get?_ofPairs_eq_some h.distinct).1 hvalue))
    unfold readProps
    rw [Row.decode_toBytes schema hfinite hmade.length_eq]
  rw [changedRow_eq_ok]
  constructor
  · rintro ⟨raw, props, keys, oldKeys, hraw, hprops, hkeys, rfl, rfl⟩
    obtain ⟨row, rfl, hmade⟩ := (encodeProps_defaults_eq_ok h hschema hknown).1 hraw
    obtain rfl := Except.ok.inj ((hread hmade).symm.trans hprops)
    exact ⟨_, _, ⟨layout, schema, key, row, keys, ⟨haccepted.layout_eq, hschema, haccepted.key_eq,
      hmade, hkeys⟩, rfl, rfl⟩, rfl⟩
  · rintro ⟨_, _, ⟨layout', schema', key', row, keys, hmakes, rfl, rfl⟩, rfl⟩
    obtain rfl := Except.ok.inj (haccepted.layout_eq.symm.trans hmakes.layout_eq)
    obtain rfl := Option.some.inj (hschema.symm.trans hmakes.schema_eq)
    obtain rfl := Except.ok.inj (haccepted.key_eq.symm.trans hmakes.key_eq)
    exact ⟨_, _, keys, [], (encodeProps_defaults_eq_ok h hschema hknown).2 ⟨row, rfl, hmakes.made⟩,
      hread hmakes.made, hmakes.keys_eq, rfl, rfl⟩

/-- A request that is understood comes to the one put of the row that its properties make, when the
partition can be read. -/
theorem prepare_eq_ok_of_inserts (h : req.Inserts node given)
    (hdefaults : req.FiniteDefaults node)
    (prepared : Prepared) :
    req.prepare node = .ok prepared ↔
      req.Understood node ∧ req.part ∉ node.down ∧
        (node.store.parts[(⟨req.space, req.part⟩ : Address)]?).isSome = true ∧
        ∃ batch props, req.Puts node given batch props ∧ prepared = .write [] batch props true := by
  have hupdated : req.updates.map (·.name) = given.map (·.1) := by
    rw [h.updates_eq, List.map_map]
    rfl
  rw [prepare_eq_ok]
  constructor
  · rintro ⟨layout, schema, condition, key, old, haccepted, hold, hsettle⟩
    obtain ⟨row, hfinds, rfl⟩ := storedProps_eq_ok.1 hold
    obtain ⟨rfl, hup, hheld⟩ := (finds_iff h haccepted).1 hfinds
    refine ⟨⟨⟨condition, haccepted.condition_eq⟩, fun schema' hschema name hname => ?_⟩, hup, hheld,
      (changedRow_defaults_eq_ok h haccepted (hdefaults schema haccepted.schema_eq)).1 hsettle⟩
    obtain rfl := Option.some.inj (haccepted.schema_eq.symm.trans hschema)
    exact haccepted.known name (List.mem_append_right _ hname)
  · rintro ⟨⟨⟨condition, hcondition⟩, hreturns⟩, hup, hheld, hputs⟩
    obtain ⟨_, _, ⟨layout, schema, key, row, keys, hmakes, -, -⟩, -⟩ := id hputs
    have haccepted : req.Accepted node layout schema condition key := by
      refine ⟨hmakes.layout_eq, hmakes.schema_eq, ?_, hcondition, hmakes.key_eq⟩
      rw [hupdated, List.forall_mem_append]
      refine ⟨fun name hname => .inr (hmakes.made.known name ?_), hreturns schema hmakes.schema_eq⟩
      obtain ⟨pair, hpair, rfl⟩ := List.mem_map.1 hname
      rw [(Props.get?_ofPairs_eq_some h.distinct).2 hpair]
      rfl
    exact ⟨layout, schema, condition, key, none, haccepted,
      storedProps_eq_ok.2 ⟨none, (finds_iff h haccepted).2 ⟨rfl, hup, hheld⟩, rfl⟩,
      (changedRow_defaults_eq_ok h haccepted (hdefaults schema hmakes.schema_eq)).2 hputs⟩

end UpdateVertex

/-- A response that is not refused succeeds when it lists no failure. -/
theorem Response.succeeded_iff {r : Response} (h : r.requestCode = none) :
    r.succeeded = true ↔ r.failed = [] := by
  simp [succeeded, h]

namespace Node

variable {node : Node} {req : UpdateVertex} {given : List (String × Value)}

/-- No update is refused as a request. -/
theorem updateVertex_requestCode (node : Node) (req : UpdateVertex) :
    (node.updateVertex req).2.result.requestCode = none := by
  unfold updateVertex
  split <;> rfl

/-- An insertion in place of an update carries out what it prepares, with some rows forgotten. -/
theorem addVertices_insertion (node : Node) (req : UpdateVertex) (given : List (String × Value)) :
    ∃ keys, node.addVertices (req.insertion given) = (node.evict keys).runUnits req.space
      (unitsOr req.part (req.insertionPlan node given)) := by
  have hunits := unitsOf_insert_empty (node.layout req.space false) req.part
    [{ id := req.vertex, tags := [{ tag := req.tag, props := given.map (·.2) }] }]
    ((req.insertion given).prepare node)
  rw [UpdateVertex.insertionPlan, ← hunits, addVertices]
  split
  · exact ⟨_, rfl⟩
  · refine ⟨[], ?_⟩
    have hnothing : node.evict [] = node := by simp [evict]
    rw [hnothing]
    rfl

/-- An insertion in place of an update succeeds when its row can be made and its partition answers
the write with success. -/
theorem addVertices_insertion_succeeded (h : req.Inserts node given) :
    (node.addVertices (req.insertion given)).2.succeeded = true ↔
      (∃ batch props, req.Puts node given batch props) ∧
        node.writeCode req.space req.part = .succeeded := by
  obtain ⟨keys, hadd⟩ := node.addVertices_insertion req given
  rw [hadd]
  cases hplan : req.insertionPlan node given with
  | error code =>
    have hcode : code ≠ .succeeded := by
      have htruthful : Truthful (req.insertionPlan node given) :=
        (layout_truthful node req.space false).bind fun layout => AddVertices.prepare_truthful ..
      rintro rfl
      exact htruthful.ne_succeeded hplan
    rw [unitsOr, runUnits_report, Response.succeeded_iff rfl, Option.toList_eq_nil_iff,
      Tracker.result?_eq_none]
    refine iff_of_false hcode ?_
    rintro ⟨⟨batch, props, hputs⟩, -⟩
    cases hplan.symm.trans ((UpdateVertex.insertionPlan_eq_ok h).2 ⟨batch, props, hputs, rfl⟩)
  | ok units =>
    obtain ⟨batch, props, hputs, rfl⟩ := (UpdateVertex.insertionPlan_eq_ok h).1 hplan
    rw [unitsOr, runUnits_write, Response.succeeded_iff rfl, Option.toList_eq_nil_iff,
      Tracker.result?_eq_none, EngineCode.toErrorCode_eq_succeeded]
    exact ⟨fun hcode => ⟨⟨batch, props, hputs⟩, hcode⟩, fun hdone => hdone.2⟩

/-- An insertion in place of an update leaves the store as the put of its row does, or as it was. -/
theorem leaves_addVertices_insertion (h : req.Inserts node given) :
    req.Leaves node given (node.addVertices (req.insertion given)).1.store := by
  obtain ⟨keys, hadd⟩ := node.addVertices_insertion req given
  rw [hadd]
  constructor
  · intro batch props hputs
    rw [(UpdateVertex.insertionPlan_eq_ok h).2 ⟨batch, props, hputs, rfl⟩, unitsOr, runUnits_write,
      perform_evict]
    rfl
  · intro hnone
    cases hplan : req.insertionPlan node given with
    | error code =>
      rw [unitsOr, runUnits_report]
      rfl
    | ok units =>
      obtain ⟨batch, props, hputs, -⟩ := (UpdateVertex.insertionPlan_eq_ok h).1 hplan
      exact absurd ⟨batch, props, hputs⟩ hnone

/-- An update that inserts succeeds when it is understood, its row can be made, and its partition is
there and answers the write with success. -/
theorem updateVertex_succeeded_of_inserts (h : req.Inserts node given)
    (hdefaults : req.FiniteDefaults node) :
    (node.updateVertex req).2.result.succeeded = true ↔
      (∃ batch props, req.Puts node given batch props) ∧
        node.writeCode req.space req.part = .succeeded ∧
        (node.store.parts[(⟨req.space, req.part⟩ : Address)]?).isSome = true ∧
        req.Understood node := by
  have hprepared := UpdateVertex.prepare_eq_ok_of_inserts h hdefaults
  rw [Response.succeeded_iff (node.updateVertex_requestCode req)]
  cases hprepare : req.prepare node with
  | error code =>
    have hcode : code ≠ .succeeded := by
      rintro rfl
      exact (req.prepare_truthful node).ne_succeeded hprepare
    rw [updateVertex_of_error hprepare, Option.toList_eq_nil_iff, Tracker.result?_eq_none]
    refine iff_of_false hcode ?_
    rintro ⟨⟨batch, props, hputs⟩, hdone, hheld, hunderstood⟩
    have hup : req.part ∉ node.down := by
      intro hdown
      rw [writeCode, if_pos hdown] at hdone
      cases hdone
    cases hprepare.symm.trans ((hprepared _).2 ⟨hunderstood, hup, hheld, batch, props, hputs, rfl⟩)
  | ok prepared =>
    obtain ⟨hunderstood, -, hheld, batch, props, hputs, rfl⟩ := (hprepared _).1 hprepare
    obtain ⟨⟨leader, hfailed⟩, -⟩ := updateVertex_response hprepare
    rw [hfailed, Option.toList_eq_nil_iff, Tracker.result?_eq_none,
      EngineCode.toErrorCode_eq_succeeded]
    exact ⟨fun hcode => ⟨⟨batch, props, hputs⟩, hcode, hheld, hunderstood⟩, fun hdone => hdone.2.1⟩

/-- An update that is understood and finds its partition leaves the store as the put of its row
does, or as it was. -/
theorem leaves_updateVertex (h : req.Inserts node given) (hdefaults : req.FiniteDefaults node)
    (hheld : (node.store.parts[(⟨req.space, req.part⟩ : Address)]?).isSome = true)
    (hunderstood : req.Understood node) :
    req.Leaves node given (node.updateVertex req).1.store := by
  have hprepared := UpdateVertex.prepare_eq_ok_of_inserts h hdefaults
  constructor
  · intro batch props hputs
    by_cases hdown : req.part ∈ node.down
    · have hnot (removes : List Bytes) (puts : List Entry) (props : Props) (inserted : Bool) :
          req.prepare node ≠ .ok (.write removes puts props inserted) :=
        fun hprepare => ((hprepared _).1 hprepare).2.1 hdown
      rw [updateVertex_of_not_write hnot, perform, if_pos hdown]
    · rw [updateVertex_of_write
        ((hprepared _).2 ⟨hunderstood, hdown, hheld, batch, props, hputs, rfl⟩), perform_evict,
        perform_replace_nil]
      rfl
  · intro hnone
    have hnot (removes : List Bytes) (puts : List Entry) (props : Props) (inserted : Bool) :
        req.prepare node ≠ .ok (.write removes puts props inserted) := by
      intro hprepare
      obtain ⟨-, -, -, batch, props, hputs, -⟩ := (hprepared _).1 hprepare
      exact hnone ⟨batch, props, hputs⟩
    rw [updateVertex_of_not_write hnot]

end Node

namespace UpdateVertex

/-- Sets the age of a person who need not be there. -/
def setAge (returnProps : List String) (condition : Bytes) : UpdateVertex where
  space := 1
  part := 1
  vertex := "a"
  tag := 3
  updates := [⟨"age", .constant (.int 7)⟩]
  insertable := true
  returnProps
  condition

/-- The age of a person is inserted where nothing is stored, whatever else is known of people. -/
theorem inserts_setAge (schema : Schema) {node : Node}
    (hschema : node.catalog.schema? 1 (.tag 3) = some schema) (hnames : schema.names.Nodup)
    (hkeeps : ∀ column ∈ schema.columns, column.KeepsDefault)
    (hage : ∀ column ∈ schema.columns, column.name = "age" → column.ty = .int64)
    (hlayout : node.layout 1 false = .ok { vidLen := 4, indexes := [{
      id := 5, name := "by_age", owner := .tag 3, columns := [{ name := "age", ty := .int64 }] }] })
    (hempty : node.store.partSize ⟨1, 1⟩ = 0) (returnProps : List String) (condition : Bytes) :
    (setAge returnProps condition).Inserts node [("age", .int 7)] where
  insertable := rfl
  updates_eq := rfl
  distinct := by decide
  notVid := by decide
  finite := by
    unfold Row.Finite
    decide
  names found hfound := Option.some.inj (hschema.symm.trans hfound) ▸ hnames
  keeps found hfound := Option.some.inj (hschema.symm.trans hfound) ▸ hkeeps
  types layout found hother hfound index hindex _ indexColumn hindexColumn := by
    obtain rfl := Except.ok.inj (hlayout.symm.trans hother)
    obtain rfl := Option.some.inj (hschema.symm.trans hfound)
    obtain rfl := List.mem_singleton.1 hindex
    obtain rfl := List.mem_singleton.1 hindexColumn
    exact hage
  vacant _ key p _ _ hp := by
    have hp : node.store.parts[(⟨1, 1⟩ : Address)]? = some p := hp
    rw [Store.partSize, hp] at hempty
    rw [Std.ExtTreeMap.eq_empty_iff_size_eq_zero.2 hempty]
    exact Std.ExtTreeMap.getElem?_empty

/-- In the catalog of people an age is all there is to insert. -/
theorem inserts_setAge_people {node : Node} (hcatalog : node.catalog = .people)
    (hempty : node.store.partSize ⟨1, 1⟩ = 0) (returnProps : List String) (condition : Bytes) :
    (setAge returnProps condition).Inserts node [("age", .int 7)] := by
  refine inserts_setAge { columns := [{ name := "age", ty := .int64 }] } ?_ (by decide) (by decide)
    (by decide) ?_ hempty returnProps condition
  · rw [hcatalog]
    decide +kernel
  · rw [Node.layout, hcatalog]
    decide +kernel

end UpdateVertex

/-- An update that inserts a row succeeds exactly when inserting the same properties does, the
partition is there to be read, and the condition and the returned properties are understood. Given
these two, both leave the same store, whether they succeed or fail. -/
theorem Node.updateVertex_inserts {node : Node} {req : UpdateVertex}
    {given : List (String × Value)} (h : req.Inserts node given)
    (hdefaults : req.FiniteDefaults node) :
    ((node.updateVertex req).2.result.succeeded = true ↔
      (node.addVertices (req.insertion given)).2.succeeded = true ∧
        (node.store.parts[(⟨req.space, req.part⟩ : Address)]?).isSome = true ∧
        req.Understood node) ∧
    ((node.store.parts[(⟨req.space, req.part⟩ : Address)]?).isSome = true → req.Understood node →
      (node.updateVertex req).1.store = (node.addVertices (req.insertion given)).1.store) := by
  constructor
  · rw [updateVertex_succeeded_of_inserts h hdefaults, addVertices_insertion_succeeded h, and_assoc]
  · intro hheld hunderstood
    exact (leaves_updateVertex h hdefaults hheld hunderstood).unique (leaves_addVertices_insertion h)

/-- A person who is not there is inserted by an update, with a condition that is not asked and with
returned properties, as an insertion does it. -/
theorem Node.updateVertex_inserts_person :
    let node : Node := {
      store := ({} : Store).addPart ⟨1, 1⟩ default, catalog := .people, placement := .table [] }
    let req := UpdateVertex.setAge ["age", vidProperty]
      (Expr.relational .gt (.property "age") (.constant (.int 9))).encode
    req.Inserts node [("age", .int 7)] ∧ req.FiniteDefaults node ∧
      (node.updateVertex req).2.result.succeeded = true ∧
      (node.addVertices (req.insertion [("age", .int 7)])).2.succeeded = true ∧
      (node.updateVertex req).1.store =
        (node.addVertices (req.insertion [("age", .int 7)])).1.store := by
  intro node req
  have hinserts : req.Inserts node [("age", .int 7)] :=
    UpdateVertex.inserts_setAge_people rfl (by decide +kernel) _ _
  have hdefaults : req.FiniteDefaults node := Catalog.people_sound.defaults 1 (.tag 3)
  obtain ⟨hiff, hstore⟩ := updateVertex_inserts hinserts hdefaults
  have hupdated : (node.updateVertex req).2.result.succeeded = true := by decide +kernel
  obtain ⟨hadded, hheld, hunderstood⟩ := hiff.1 hupdated
  exact ⟨hinserts, hdefaults, hupdated, hadded, hstore hheld hunderstood⟩

/-- Not every update that would insert a row does so when an insertion does: it also reads its
partition, which may be missing where writes are answered with success; it has to know the
properties that it returns and to understand its condition; and it reads back the row that it makes,
which a default without a literal prevents. -/
theorem Node.updateVertex_stricter :
    let given : List (String × Value) := [("age", .int 7)]
    let lost : Node := {
      store := ({} : Store).failPart ⟨1, 1⟩ .succeeded, catalog := .people, placement := .table [] }
    let there : Node := {
      store := ({} : Store).addPart ⟨1, 1⟩ default, catalog := .people, placement := .table [] }
    let scored : Schema := { columns := [
      { name := "age", ty := .int64 },
      { name := "score", ty := .double,
        default := some (.float (.ofMagnitude false Double.infinityBits)) }] }
    let scoring : Node := { there with catalog := Catalog.people.addTag 1 3 "person" scored }
    ∀ case ∈ [(lost, UpdateVertex.setAge [] []), (there, .setAge ["nick"] []),
        (there, .setAge [] [0]), (scoring, .setAge [] [])],
      case.2.Inserts case.1 given ∧
        (case.1.addVertices (case.2.insertion given)).2.succeeded = true ∧
        (case.1.updateVertex case.2).2.result.succeeded = false := by
  intro given lost there scored scoring
  simp only [List.forall_mem_cons]
  refine ⟨⟨UpdateVertex.inserts_setAge_people rfl (by decide +kernel) _ _, ?_⟩,
    ⟨UpdateVertex.inserts_setAge_people rfl (by decide +kernel) _ _, ?_⟩,
    ⟨UpdateVertex.inserts_setAge_people rfl (by decide +kernel) _ _, ?_⟩,
    ⟨UpdateVertex.inserts_setAge scored (by decide +kernel) (by decide) (by decide) (by decide)
      (by decide +kernel) (by decide +kernel) _ _, ?_⟩, nofun⟩
  all_goals decide +kernel

end GraphStore
