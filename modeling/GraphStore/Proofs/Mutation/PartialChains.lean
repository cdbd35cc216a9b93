import GraphStore.Proofs.Mutation.Schedules

/-!
# What a failed partition keeps of its chains

Each chain is a unit of its own. When one is refused, the other chains of its partition are written
all the same, and nothing takes back those that succeeded: the partition is listed, and it has the
whole batches of exactly the chains that were answered with success. It is as it was before when its
edges could not be split into chains, and in a space without edge indexes, where its chains are
answered alike.
-/

namespace GraphStore

namespace Store

variable {s : Store} {addr : Address} {change : Partition → Partition}

/-- A write that succeeds meets no failure, if none is called a success. -/
theorem failure_of_write_succeeded (hhonest : s.HonestFailures)
    (hcode : (s.write addr change).2 = .succeeded) : s.failures[addr]? = none := by
  rw [code_write] at hcode
  cases hfailure : s.failures[addr]? with
  | none => rfl
  | some code =>
    rw [hfailure] at hcode
    exact absurd (hfailure.trans (congrArg some hcode)) (hhonest addr)

/-- A write that is refused leaves the store as it is. -/
theorem write_of_refused (hcode : (s.write addr change).2 ≠ .succeeded) :
    (s.write addr change).1 = s := by
  unfold write at hcode ⊢
  cases hfailure : s.failures[addr]? with
  | some code => rfl
  | none =>
    cases hpart : s.parts[addr]? with
    | none => rfl
    | some p =>
      rw [hfailure, hpart] at hcode
      exact absurd rfl hcode

end Store

namespace ChainWriter

/-- A writer that puts the whole batch into the source and answers with success, or writes nothing
and answers with a failure, whenever it starts from a fit store; it leaves a fit one. -/
structure WholeOrNothing (writer : ChainWriter) (Fit : Store → Prop) : Prop where
  stays : ∀ (call : ChainCall) (store : Store), Fit store → Fit (writer.write call store).1
  whole : ∀ (call : ChainCall) (store : Store), Fit store →
    (writer.write call store).2.code = .succeeded →
      ∀ addr : Address, (writer.write call store).1.parts[addr]? =
        if addr = ⟨call.space, call.chain.source⟩ then store.parts[addr]?.map (·.put call.batch)
        else store.parts[addr]?
  nothing : ∀ (call : ChainCall) (store : Store), Fit store →
    (writer.write call store).2.code ≠ .succeeded →
      (writer.write call store).1.parts = store.parts

/-- Puts into the source are whole or nothing, as long as no failure is called a success. -/
theorem toSource_wholeOrNothing : toSource.WholeOrNothing Store.HonestFailures where
  stays call store hhonest addr := by
    obtain ⟨-, hfailures⟩ := Store.frame_write { store with putCalls := store.putCalls + 1 }
      ⟨call.space, call.chain.source⟩ (·.put call.batch)
    exact fun hfailure => hhonest addr ((congrArg (·[addr]?) hfailures).symm.trans hfailure)
  whole call store hhonest hcode addr := by
    have hfailure := Store.failure_of_write_succeeded
      (s := { store with putCalls := store.putCalls + 1 }) hhonest
      ((EngineCode.toErrorCode_eq_succeeded _).1 hcode)
    refine (Store.getElem?_write _ _ addr _).trans ?_
    rw [hfailure]
    exact if_congr (and_iff_left rfl) rfl rfl
  nothing call store _ hcode := by
    have hsame := Store.write_of_refused (s := { store with putCalls := store.putCalls + 1 })
      fun h => hcode ((EngineCode.toErrorCode_eq_succeeded _).2 h)
    have hparts := congrArg Store.parts hsame
    exact hparts

/-- Answers some chains with a code and writes nothing of them; the others it puts into the
source. -/
def refusing (refused : List ChainId) (code : ErrorCode) : ChainWriter where
  write call store :=
    if call.chain ∈ refused then (store, .answered code)
    else
      ({ store with
          parts := store.parts.modify ⟨call.space, call.chain.source⟩ (·.put call.batch) },
        .answered .succeeded)

/-- A writer that refuses some chains with a failure is whole or nothing. -/
theorem refusing_wholeOrNothing (refused : List ChainId) {code : ErrorCode}
    (hcode : code ≠ .succeeded) : (refusing refused code).WholeOrNothing fun _ => True where
  stays _ _ _ := trivial
  whole call store _ hanswer addr := by
    simp only [refusing] at hanswer ⊢
    split at hanswer
    · exact absurd hanswer hcode
    · next hmem =>
      rw [if_neg hmem]
      by_cases haddr : addr = ⟨call.space, call.chain.source⟩
      · rw [if_pos haddr, haddr]
        exact Std.ExtTreeMap.getElem?_modify_self
      · rw [if_neg haddr]
        exact Std.ExtTreeMap.getElem?_modify.trans
          (if_neg fun h => haddr (Std.LawfulEqCmp.eq_of_compare h).symm)
  nothing call store _ hanswer := by
    simp only [refusing] at hanswer ⊢
    split at hanswer
    · next hmem => rw [if_pos hmem]
    · exact absurd rfl hanswer

end ChainWriter

/-- What chains put into a partition: the batches of those that were answered with success. -/
def applied (part : PartId) (answers : List (ChainBatch × ErrorCode)) : List Entry :=
  (answers.filter fun (chain, code) => chain.chain.source = part ∧ code = .succeeded).flatMap
    (·.1.batch)

/-- The first chain adds its batch if it is one of the partition's and succeeded. -/
theorem applied_cons (part : PartId) (chain : ChainBatch) (code : ErrorCode)
    (answers : List (ChainBatch × ErrorCode)) : applied part ((chain, code) :: answers) =
      if chain.chain.source = part ∧ code = .succeeded then chain.batch ++ applied part answers
      else applied part answers := by
  rw [applied, List.filter_cons]
  simp only [decide_eq_true_eq]
  split <;> rfl

/-- Whether no chain of a partition succeeded. -/
def AllRefused (part : PartId) (answers : List (ChainBatch × ErrorCode)) : Prop :=
  ∀ chain code, (chain, code) ∈ answers → chain.chain.source = part → code ≠ .succeeded

/-- Chains that are refused put nothing. -/
theorem AllRefused.applied_eq_nil {part : PartId} {answers : List (ChainBatch × ErrorCode)}
    (h : AllRefused part answers) : applied part answers = [] := by
  rw [applied, List.filter_eq_nil_iff.2]
  · rfl
  · intro (chain, code) hmem htaken
    obtain ⟨hsource, hcode⟩ := of_decide_eq_true htaken
    exact h chain code hmem hsource hcode

namespace Node

section Written

variable {node : Node} (space : SpaceId) (vidLen : Nat)

/-- A chain that succeeds is put into its source, and any other changes nothing. -/
theorem writeBatch_wholeOrNothing {Fit : Store → Prop}
    (hwriter : node.chainWriter.WholeOrNothing Fit) (hfit : Fit node.store) (chain : ChainBatch)
    (addr : Address) : (writeBatch space vidLen true node chain).1.store.parts[addr]? =
      if addr = ⟨space, chain.chain.source⟩ ∧
          (writeBatch space vidLen true node chain).2 = .succeeded then
        node.store.parts[addr]?.map (·.put chain.batch)
      else node.store.parts[addr]? := by
  let call : ChainCall := { space, vidLen, chain := chain.chain, batch := chain.batch }
  by_cases hcode : (node.chainWriter.write call node.store).2.code = .succeeded
  · refine (hwriter.whole call node.store hfit hcode addr).trans ?_
    exact if_congr (and_iff_left hcode).symm rfl rfl
  · rw [if_neg fun h => hcode h.2]
    exact congrArg (·[addr]?) (hwriter.nothing call node.store hfit hcode)

/-- Each partition has the batches of its chains that succeeded, in the order in which they were
written. -/
theorem writeInOrder_wholeOrNothing {Fit : Store → Prop}
    (hwriter : node.chainWriter.WholeOrNothing Fit) (hfit : Fit node.store)
    (order : List ChainBatch) : ∃ answers : List (ChainBatch × ErrorCode),
      answers.map (·.1) = order ∧
      answers.map (fun (chain, code) => (chain.chain, code)) =
        (writeInOrder (writeBatch space vidLen true) node order).2 ∧
      ∀ part, (writeInOrder (writeBatch space vidLen true) node order).1.store.parts[
          (⟨space, part⟩ : Address)]? =
        node.store.parts[(⟨space, part⟩ : Address)]?.map (·.put (applied part answers)) := by
  induction order generalizing node with
  | nil =>
    refine ⟨[], rfl, rfl, fun part => ?_⟩
    exact Option.map_id'.symm
  | cons chain order ih =>
    have hstep := writeBatch_wholeOrNothing space vidLen hwriter hfit chain
    have hstays : Fit (writeBatch space vidLen true node chain).1.store :=
      hwriter.stays _ node.store hfit
    rcases hwrite : writeBatch space vidLen true node chain with ⟨after, code⟩
    have hkeeps : after.chainWriter = node.chainWriter := (congrArg (·.1.chainWriter) hwrite).symm
    rw [hwrite] at hstep hstays
    obtain ⟨answers, horder, hcodes, hcontent⟩ := ih (hkeeps ▸ hwriter) hstays
    rw [writeInOrder, hwrite]
    refine ⟨(chain, code) :: answers, ?_, ?_, fun part => (hcontent part).trans ?_⟩
    · rw [List.map_cons, horder]
    · rw [List.map_cons, hcodes]
    · rw [hstep]
      by_cases htaken : chain.chain.source = part ∧ code = .succeeded
      · obtain ⟨rfl, rfl⟩ := htaken
        rw [if_pos ⟨rfl, rfl⟩, Option.map_map, applied_cons, if_pos ⟨rfl, rfl⟩]
        exact congrArg (Option.map · _) (funext fun p => (Partition.put_append ..).symm)
      · rw [if_neg fun h => htaken ⟨(congrArg Address.part h.1).symm, h.2⟩, applied_cons,
          if_neg htaken]

/-- Chains written without the chain writer are puts into their sources. -/
theorem writeInOrder_plain (node : Node) (order : List ChainBatch) :
    writeInOrder (writeBatch space vidLen false) node order =
      (node.performAll space (chainWrites order), order.map fun chain =>
        (chain.chain, (node.writeCode space chain.chain.source).toErrorCode)) := by
  induction order generalizing node with
  | nil => rfl
  | cons chain order ih =>
    have hwrite : writeBatch space vidLen false node chain =
        ((node.perform space chain.chain.source (.put chain.batch)).1,
          (node.writeCode space chain.chain.source).toErrorCode) := by
      rw [← perform_code node space chain.chain.source (.put chain.batch)]
      rfl
    rw [writeInOrder, hwrite]
    dsimp only
    rw [ih]
    simp only [(perform_sameSetting ..).writeCode]
    rfl

/-- A partition that refuses every write to it stays as it is. -/
theorem performAll_parts_of_refused {part : PartId} {writes : List (PartId × Write)}
    (hrefused : ∀ write, (part, write) ∈ writes → node.writeCode space part ≠ .succeeded) :
    (node.performAll space writes).store.parts[(⟨space, part⟩ : Address)]? =
      node.store.parts[(⟨space, part⟩ : Address)]? := by
  rw [performAll_parts]
  simp only [true_and]
  by_cases hcode : node.writeCode space part = .succeeded
  · have hnil : writesTo part writes = [] := by
      refine List.filterMap_eq_nil_iff.2 fun (target, write) hwrite => if_neg ?_
      rintro rfl
      exact hrefused write hwrite hcode
    have hid : Write.applyAll [] = id := rfl
    rw [hnil, hid, Option.map_id]
    exact ite_self _
  · exact content_of_refused hcode _

/-- Chains are answered one after another, and a partition has the batches of those that succeeded.
Without the chain writer a partition answers all of its chains alike. -/
theorem exists_answers {Fit : Store → Prop} (hwriter : node.chainWriter.WholeOrNothing Fit)
    (hfit : Fit node.store) (atomic : Bool) (order : List ChainBatch) :
    ∃ answers : List (ChainBatch × ErrorCode), answers.map (·.1) = order ∧
      answers.map (fun (chain, code) => (chain.chain, code)) =
        (writeInOrder (writeBatch space vidLen atomic) node order).2 ∧
      (atomic = false → ∀ a ∈ answers, ∀ b ∈ answers,
        a.1.chain.source = b.1.chain.source → a.2 = b.2) ∧
      ∀ part, (atomic = false → AllRefused part answers) →
        (writeInOrder (writeBatch space vidLen atomic) node order).1.store.parts[
            (⟨space, part⟩ : Address)]? =
          node.store.parts[(⟨space, part⟩ : Address)]?.map (·.put (applied part answers)) := by
  cases atomic with
  | false =>
    rw [writeInOrder_plain]
    refine ⟨order.map fun chain => (chain, (node.writeCode space chain.chain.source).toErrorCode),
      ?_, ?_, fun _ => ?_, fun part hrefused => ?_⟩
    · rw [List.map_map]
      exact List.map_id _
    · rw [List.map_map]
      rfl
    · intro a ha b hb hsource
      obtain ⟨chain, -, rfl⟩ := List.mem_map.1 ha
      obtain ⟨chain', -, rfl⟩ := List.mem_map.1 hb
      exact congrArg (fun part => (node.writeCode space part).toErrorCode) hsource
    · rw [(hrefused rfl).applied_eq_nil]
      refine (performAll_parts_of_refused space fun write hwrite => ?_).trans Option.map_id'.symm
      obtain ⟨chain, hchain, heq⟩ := List.mem_map.1 hwrite
      cases heq
      have hcode := hrefused rfl chain _ (List.mem_map.2 ⟨chain, hchain, rfl⟩) rfl
      exact fun h => hcode ((EngineCode.toErrorCode_eq_succeeded _).2 h)
  | true =>
    obtain ⟨answers, horder, hcodes, hcontent⟩ :=
      writeInOrder_wholeOrNothing space vidLen hwriter hfit order
    exact ⟨answers, horder, hcodes, nofun, fun part _ => hcontent part⟩

end Written

end Node

/-- Why a chained insert lists a partition, and what the partition holds afterwards. -/
inductive AddEdges.FailedPart (req : AddEdges) (node : Node) (part : PartId)
    (content : Option Partition) : Prop where
  /-- Its space has no layout. -/
  | unplanned {code : ErrorCode} (hlayout : node.layout req.space true = .error code)
      (hcontent : content = node.store.parts[(⟨req.space, part⟩ : Address)]?)
  /-- Its edges cannot be split into chains. -/
  | unsplit {layout : SpaceLayout} {edges : List NewEdge} {code : ErrorCode}
      (hlayout : node.layout req.space true = .ok layout)
      (hedges : req.parts[part]? = some edges)
      (hstage : req.stage node layout part edges = .error code)
      (hcontent : content = node.store.parts[(⟨req.space, part⟩ : Address)]?)
  /-- The chains of the request are written in some order, and one of the partition's is refused. -/
  | refused {layout : SpaceLayout} {answers : List (ChainBatch × ErrorCode)}
      (hlayout : node.layout req.space true = .ok layout)
      (hchains : (answers.map (·.1)).Perm (req.split node layout).chains)
      (hcodes : answers.map (fun (chain, code) => (chain.chain, code)) =
        (writeInOrder (Node.writeBatch req.space layout.vidLen !layout.indexes.isEmpty) node
          (answers.map (·.1))).2)
      (hrefused : ∃ chain code, (chain, code) ∈ answers ∧ chain.chain.source = part ∧
        code ≠ .succeeded)
      (hcontent : content = node.store.parts[(⟨req.space, part⟩ : Address)]?.map
        (·.put (applied part answers)))
      (hplain : layout.indexes = [] →
        content = node.store.parts[(⟨req.space, part⟩ : Address)]?)

namespace BatchMutation

variable {node : Node} {req : AddEdges} {part : PartId} {result : Node × Response}

/-- Codes that are reported for partitions list those whose code is a failure, and change nothing. -/
theorem eq_of_dispatches_reports {space : SpaceId} {α : Type} {parts : PartMap α}
    {codeOf : PartId → ErrorCode}
    (h : node.Dispatches space (parts.keys.map fun part => .report part (codeOf part)) result) :
    result.1 = node ∧ ∀ part, part ∈ result.2.failed.map (·.part) ↔
      part ∈ parts ∧ codeOf part ≠ .succeeded := by
  obtain ⟨hnode, hfailed⟩ := h.eq_runUnits (independent_reports parts codeOf)
  rw [← reportParts_keys, Node.reportParts_eq] at hnode hfailed
  exact ⟨hnode, fun part => (hfailed.map _).mem_iff.trans (Node.mem_collectFailures_keys ..)⟩

/-- Whatever the order in which its chains are written and reported, a partition that a chained
insert lists has the batches of exactly those of its chains that were answered with success. It is
as it was without a layout, when its edges could not be split, and in a space without edge
indexes. -/
theorem failedPart_of_listed {Fit : Store → Prop} (hwriter : node.chainWriter.WholeOrNothing Fit)
    (hfit : Fit node.store) {schedule : List Nat}
    (h : (addEdgesChained req schedule).ComesTo node result)
    (hlisted : part ∈ result.2.failed.map (·.part)) :
    req.FailedPart node part result.1.store.parts[(⟨req.space, part⟩ : Address)]? := by
  cases h with
  | unplanned hlayout h =>
    obtain ⟨hnode, -⟩ := eq_of_dispatches_reports h
    exact .unplanned hlayout (by rw [hnode])
  | @addEdgesChained _ _ layout after results _ hlayout hwritten h =>
    obtain ⟨hafter, hfailed⟩ := eq_of_dispatches_reports h
    obtain ⟨hmem, hcode⟩ := (hfailed part).1 hlisted
    obtain ⟨edges, hedges⟩ := PartMap.mem_iff_getElem?.1 hmem
    obtain ⟨order, horder, hstate, hresults⟩ := hwritten.exists_order
    dsimp only at hstate hresults
    obtain ⟨answers, rfl, hcodes, halike, hcontent⟩ := Node.exists_answers req.space layout.vidLen
      hwriter hfit (!layout.indexes.isEmpty) order
    rw [hafter, hstate]
    cases hstage : req.stage node layout part edges with
    | error code =>
      have hnone : AllRefused part answers := by
        intro chain code hanswer hsource
        have hchain : chain ∈ (req.split node layout).chains :=
          horder.mem_iff.1 (List.mem_map_of_mem hanswer)
        obtain ⟨edges', staged, hedges', hstaged, -⟩ := AddEdges.exists_of_mem_split_chains hchain
        rw [hsource, hedges] at hedges'
        cases hedges'
        rw [hsource, hstage] at hstaged
        cases hstaged
      refine .unsplit hlayout hedges hstage ((hcontent part fun _ => hnone).trans ?_)
      rw [hnone.applied_eq_nil]
      exact Option.map_id'
    | ok staged =>
      have hlookup := AddEdges.lookup_split_failed node layout hedges
      rw [hstage] at hlookup
      obtain ⟨id, code, hresult, hsource, hrefused, -⟩ :=
        (AddEdges.partCode_cases hlookup results).resolve_right fun h => hcode h.2
      rw [hresults.mem_iff, ← hcodes] at hresult
      obtain ⟨⟨chain, code'⟩, hanswer, heq⟩ := List.mem_map.1 hresult
      cases heq
      have hall (hplain : (!layout.indexes.isEmpty) = false) : AllRefused part answers := by
        intro other code' hother hsource'
        have hsame := halike hplain _ hother _ hanswer (hsource'.trans hsource.symm)
        exact fun h => hrefused (hsame.symm.trans h)
      refine .refused hlayout horder hcodes ⟨chain, code, hanswer, hsource, hrefused⟩
        (hcontent part hall) fun hplain => (hcontent part hall).trans ?_
      rw [(hall (by rw [hplain]; rfl)).applied_eq_nil]
      exact Option.map_id'

end BatchMutation

/-- A node with two partitions and an index over one edge type, on which the chain from partition 1
into itself is refused. -/
def Node.ofRefusedChain : Node where
  store := (({} : Store).addPart ⟨1, 1⟩ default).addPart ⟨1, 2⟩ default
  catalog := ((Catalog.addSpace {} 1 8).addEdge 1 7 "follows" { columns := [] }).addIndex 1
    { id := 5, name := "follows_index", owner := .edge 7, columns := [] }
  placement := .table [("a", 1), ("b", 1), ("c", 2)]
  chainWriter := .refusing [⟨1, 1⟩] .consensusError

/-- Two edges of one vertex that fall into two chains. -/
def AddEdges.intoTwoChains : AddEdges where
  space := 1
  parts := .insert ∅ 1 [⟨⟨"a", 7, 0, "b"⟩, []⟩, ⟨⟨"a", 7, 0, "c"⟩, []⟩]

namespace BatchMutation

/-- A partition is listed because one of its two chains is refused. -/
theorem failedPart_of_one_chain_refused :
    let node := Node.ofRefusedChain
    let m := addEdgesChained .intoTwoChains []
    (node.chainWriter.WholeOrNothing (fun _ => True) ∧ m.ComesTo node (m.run node) ∧
        1 ∈ (m.run node).2.failed.map (·.part)) ∧
      AddEdges.intoTwoChains.FailedPart node 1 (m.run node).1.store.parts[(⟨1, 1⟩ : Address)]? := by
  intro node m
  have hwriter : node.chainWriter.WholeOrNothing fun _ => True :=
    ChainWriter.refusing_wholeOrNothing [⟨1, 1⟩] (by decide)
  have hlisted : 1 ∈ (m.run node).2.failed.map (·.part) := by decide +kernel
  have hrun := m.comesTo_run node
  exact ⟨⟨hwriter, hrun, hlisted⟩, failedPart_of_listed hwriter trivial hrun hlisted⟩

/-- A listed partition is not always as it was: of its two chains the second one stays written
although the first one was refused. -/
theorem changed_of_one_chain_refused :
    let node := Node.ofRefusedChain
    let m := addEdgesChained .intoTwoChains []
    node.chainWriter.WholeOrNothing (fun _ => True) ∧ m.ComesTo node (m.run node) ∧
      1 ∈ (m.run node).2.failed.map (·.part) ∧
      (m.run node).1.store.parts[(⟨1, 1⟩ : Address)]? ≠
        node.store.parts[(⟨1, 1⟩ : Address)]? := by
  intro node m
  refine ⟨ChainWriter.refusing_wholeOrNothing [⟨1, 1⟩] (by decide), m.comesTo_run node,
    by decide +kernel, fun hsame => ?_⟩
  have hsizes : ((m.run node).1.store.parts[(⟨1, 1⟩ : Address)]?).map (·.size) =
      (node.store.parts[(⟨1, 1⟩ : Address)]?).map (·.size) := congrArg _ hsame
  revert hsizes
  decide +kernel

end BatchMutation

end GraphStore
