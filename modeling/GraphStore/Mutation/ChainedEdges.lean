import GraphStore.Mutation.ChainQueue

/-!
# Inserting edges through chains

The request is split into chains, every chain is written, and only then is each partition
reported: with the failure met while splitting, else with the first failure among its chains. In
a space with edge indexes a chain goes through the chain writer; without them there is nothing to
keep consistent across partitions, and it is a plain put into its source.
-/

namespace GraphStore

namespace Node

/-- Writes one chain, through the chain writer if `atomic`. -/
def writeBatch (space : SpaceId) (vidLen : Nat) (atomic : Bool) (node : Node)
    (chain : ChainBatch) : Node × ErrorCode :=
  if atomic then
    let (node, outcome) := node.writeChain { space, vidLen, chain := chain.chain, batch := chain.batch }
    (node, outcome.code)
  else
    let (node, code) := node.perform space chain.chain.source (.put chain.batch)
    (node, code.toErrorCode)

end Node

/-- The code of a partition: its failure while splitting, else the first failure of one of its
chains, else success. -/
def partCode (failed : List (PartId × ErrorCode)) (results : List (ChainId × ErrorCode))
    (part : PartId) : ErrorCode :=
  match failed.lookup part with
  | some code => code
  | none =>
    match results.find? fun (chain, code) => chain.source = part && !code.isOk with
    | some (_, code) => code
    | none => .succeeded

/-- Inserts edges through chains. The schedule says in which order chain writes complete. -/
def Node.addEdgesChained (node : Node) (req : AddEdges) (schedule : List Nat := []) :
    Node × Response :=
  match node.layout req.space true with
  | .error code => node.reportParts req.space (req.parts.keys.map fun part => (part, code))
  | .ok layout =>
    let split := req.split node layout
    let atomic := !layout.indexes.isEmpty
    let (node, results) := writeChains node.config.maxChainInflight schedule
      (Node.writeBatch req.space layout.vidLen atomic) node split.chains
    node.reportParts req.space
      (req.parts.keys.map fun part => (part, partCode split.failed results part))

end GraphStore
