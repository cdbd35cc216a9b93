/-!
# Result codes

A response names one `ErrorCode` per failed partition. The key-value engine answers an
`EngineCode` and the row writer a `RowFault`; both become error codes where a
request meets them.
-/

namespace GraphStore

/-- Outcome of one partition, as reported to the client. -/
inductive ErrorCode where
  | succeeded | partNotFound | spaceNotFound | leaderChanged | consensusError
  | checkpointBlocked | failedToCheckpoint | partialResult | tagPropNotFound | edgePropNotFound
  | dataTypeMismatch | fieldUnset | outOfRange | notNullable | invalidFieldValue
  | indexNotFound | tagNotFound | edgeNotFound | vertexNotFound | filterOut | invalidVid
  | invalidSpaceVidLen | invalidFilter | invalidOperation | unknown
  deriving DecidableEq, Repr, Inhabited

namespace ErrorCode

/-- Every code, in declared order. -/
def all : List ErrorCode :=
  [succeeded, partNotFound, spaceNotFound, leaderChanged, consensusError, checkpointBlocked,
    failedToCheckpoint, partialResult, tagPropNotFound, edgePropNotFound, dataTypeMismatch,
    fieldUnset, outOfRange, notNullable, invalidFieldValue, indexNotFound, tagNotFound,
    edgeNotFound, vertexNotFound, filterOut, invalidVid, invalidSpaceVidLen, invalidFilter,
    invalidOperation, unknown]

/-- The name of a code in requests and responses. -/
def name : ErrorCode → String
  | succeeded => "succeeded"
  | partNotFound => "part_not_found"
  | spaceNotFound => "space_not_found"
  | leaderChanged => "leader_changed"
  | consensusError => "consensus_error"
  | checkpointBlocked => "checkpoint_blocked"
  | failedToCheckpoint => "failed_to_checkpoint"
  | partialResult => "partial_result"
  | tagPropNotFound => "tag_prop_not_found"
  | edgePropNotFound => "edge_prop_not_found"
  | dataTypeMismatch => "data_type_mismatch"
  | fieldUnset => "field_unset"
  | outOfRange => "out_of_range"
  | notNullable => "not_nullable"
  | invalidFieldValue => "invalid_field_value"
  | indexNotFound => "index_not_found"
  | tagNotFound => "tag_not_found"
  | edgeNotFound => "edge_not_found"
  | vertexNotFound => "vertex_not_found"
  | filterOut => "filter_out"
  | invalidVid => "invalid_vid"
  | invalidSpaceVidLen => "invalid_space_vid_len"
  | invalidFilter => "invalid_filter"
  | invalidOperation => "invalid_operation"
  | unknown => "unknown"

/-- The code of this name. -/
def ofName? (name : String) : Option ErrorCode := all.find? (·.name == name)

/-- The sentence that explains a code to a reader. -/
def message : ErrorCode → String
  | succeeded => "succeeded"
  | partNotFound => "partition not found"
  | spaceNotFound => "space not found"
  | leaderChanged => "partition leader changed"
  | consensusError => "consensus error"
  | checkpointBlocked => "write blocked by checkpoint"
  | failedToCheckpoint => "checkpoint failed"
  | partialResult => "partial result"
  | tagPropNotFound => "tag property not found"
  | edgePropNotFound => "edge property not found"
  | dataTypeMismatch => "data type mismatch"
  | fieldUnset => "field unset"
  | outOfRange => "value out of range"
  | notNullable => "not nullable"
  | invalidFieldValue => "invalid field value"
  | indexNotFound => "index not found"
  | tagNotFound => "tag not found"
  | edgeNotFound => "edge not found"
  | vertexNotFound => "vertex not found"
  | filterOut => "filtered out by condition"
  | invalidVid => "invalid vertex id"
  | invalidSpaceVidLen => "invalid space vid length"
  | invalidFilter => "invalid filter"
  | invalidOperation => "invalid operation"
  | unknown => "unknown error"

/-- Only `succeeded` is a success. -/
def isOk (code : ErrorCode) : Bool := code = succeeded

end ErrorCode

/-- Outcome of an operation of the key-value engine. -/
inductive EngineCode where
  | succeeded | leaderChanged | spaceNotFound | partNotFound | keyNotFound | consensusError
  | checkpointError | writeBlocked | partialResult | unknown
  deriving DecidableEq, Repr, Inhabited

namespace EngineCode

/-- Every code, in declared order. -/
def all : List EngineCode :=
  [succeeded, leaderChanged, spaceNotFound, partNotFound, keyNotFound, consensusError,
    checkpointError, writeBlocked, partialResult, unknown]

/-- The name of a code. -/
def name : EngineCode → String
  | succeeded => "Succeeded"
  | leaderChanged => "LeaderChanged"
  | spaceNotFound => "SpaceNotFound"
  | partNotFound => "PartNotFound"
  | keyNotFound => "KeyNotFound"
  | consensusError => "ConsensusError"
  | checkpointError => "CheckpointError"
  | writeBlocked => "WriteBlocked"
  | partialResult => "PartialResult"
  | unknown => "Unknown"

/-- The code of this name. -/
def ofName? (name : String) : Option EngineCode := all.find? (·.name == name)

/-- Only `succeeded` is a success. -/
def isOk (code : EngineCode) : Bool := code = succeeded

/-- What the client is told about an engine outcome. -/
def toErrorCode : EngineCode → ErrorCode
  | succeeded => .succeeded
  | leaderChanged => .leaderChanged
  | spaceNotFound => .spaceNotFound
  | partNotFound => .partNotFound
  | consensusError => .consensusError
  | checkpointError => .failedToCheckpoint
  | writeBlocked => .checkpointBlocked
  | partialResult => .partialResult
  | keyNotFound => .unknown
  | unknown => .unknown

/-- Success and failure stay apart. -/
@[simp] theorem toErrorCode_eq_succeeded (code : EngineCode) :
    code.toErrorCode = .succeeded ↔ code = succeeded := by
  cases code <;> decide

end EngineCode

/-- Why a row does not fit its schema. -/
inductive RowFault where
  | unknownField | notNullable | typeMismatch | fieldUnset | outOfRange | incorrectValue
  deriving DecidableEq, Repr, Inhabited

namespace RowFault

/-- Every fault, in declared order. -/
def all : List RowFault :=
  [unknownField, notNullable, typeMismatch, fieldUnset, outOfRange, incorrectValue]

/-- The name of a fault. -/
def name : RowFault → String
  | unknownField => "UnknownField"
  | notNullable => "NotNullable"
  | typeMismatch => "TypeMismatch"
  | fieldUnset => "FieldUnset"
  | outOfRange => "OutOfRange"
  | incorrectValue => "IncorrectValue"

/-- The fault of this name. -/
def ofName? (name : String) : Option RowFault := all.find? (·.name == name)

/-- What the client is told about a fault. Only an unknown field is reported by what was being
written: an edge or the tag of a vertex. -/
def toErrorCode (onEdge : Bool) : RowFault → ErrorCode
  | unknownField => if onEdge then .edgePropNotFound else .tagPropNotFound
  | notNullable => .notNullable
  | typeMismatch => .dataTypeMismatch
  | fieldUnset => .fieldUnset
  | outOfRange => .outOfRange
  | incorrectValue => .invalidFieldValue

end RowFault

/-- What the client is told about writing a row, with or without a fault. -/
def ErrorCode.ofRow (onEdge : Bool) : Option RowFault → ErrorCode
  | none => .succeeded
  | some fault => fault.toErrorCode onEdge

end GraphStore
