import LightRAG.Knowledge.Rebuild

/-!
# Purging a document's knowledge

`_purge_kg_contributions` resolves the candidates of a document, deletes what loses its last
chunk, rebuilds what keeps some, and only then deletes the chunks and the recovery anchors.
-/

namespace LightRAG.Knowledge

/-- The arguments of `_purge_kg_contributions`. -/
structure PurgeCall where
  docId : DocId
  chunkIds : List ChunkId
  candidateEntities : Option (List Name)
  candidateRelations : Option (List Pair)
  patchOnly : Bool
  rebuildPolicy : RebuildPolicy

inductive PurgeError
  | operationConflict
  | recoveryAnchorMissing
  | chunklessContributions
  | statusRowMissing
  | rebuildFailed
deriving DecidableEq

inductive ProofKind
  | anchors
  | preGraph
  | journal
  | emptyScope
deriving DecidableEq

/-- `_PurgeRecoveryProof` with a proof kind. -/
structure RecoveryProof where
  proofKind : ProofKind
  operationId : OperationId
  journalPhase : Option PurgePhase
  patchCandidateEntities : List Name
  patchCandidateRelations : List Pair

def RecoveryProof.phaseAtLeast (proof : RecoveryProof) (phase : PurgePhase) : Bool :=
  match proof.journalPhase with
  | none => false
  | some recorded => phase.index ≤ recorded.index

def patchJournalCandidates (row : Option StatusRow) : List Name × List Pair :=
  match row.bind StatusRow.customChunkPatch with
  | none => ([], [])
  | some journal => (journal.entityNames, journal.relationPairs)

def journalPhase (row : Option StatusRow) (operationId : OperationId) :
    Except PurgeError (Option PurgePhase) :=
  match row.bind StatusRow.kgPurge with
  | none => .ok none
  | some journal =>
    if journal.operationId = operationId then .ok (some journal.phase)
    -- a finished purge of other chunks is of no account
    else if journal.phase = .completed then .ok none
    else .error .operationConflict

def resolvePurgeRecoveryProof (s : Store) (docId : DocId) (chunkIds : List ChunkId) :
    Except PurgeError RecoveryProof := do
  let statusDoc := s.docStatus.get docId
  let operationId := makeKgPurgeOperationId docId chunkIds
  let patch := patchJournalCandidates statusDoc
  let phase ← journalPhase statusDoc operationId
  let proof (kind : ProofKind) : RecoveryProof := ⟨kind, operationId, phase, patch.1, patch.2⟩
  if phase ≠ none ∧ phase ≠ some .prepared then
    return proof .journal
  match s.fullEntities.get docId, s.fullRelations.get docId with
  | some names, some pairs =>
    if chunkIds = [] ∧ ¬ (names = [] ∧ pairs = []) then throw .chunklessContributions
    else return proof .anchors
  | entitiesRow, relationsRow =>
    if statusDoc.bind StatusRow.kgWriteState = some .preGraph then
      return proof .preGraph
    else if chunkIds = [] ∧ entitiesRow.getD [] = [] ∧ relationsRow.getD [] = [] then
      return proof .emptyScope
    else throw .recoveryAnchorMissing

def writeKgPurgePhase (s : Store) (docId : DocId) (operationId : OperationId)
    (phase : PurgePhase) : Except PurgeError Store :=
  match s.docStatus.get docId with
  | none => .error .statusRowMissing
  | some row =>
    let row := { row with kgPurge := some ⟨operationId, phase⟩ }
    .ok { s with docStatus := s.docStatus.set docId row }

/-- What becomes of an object whose chunks are purged. -/
inductive Verdict
  | delete
  | rebuild (remaining : List ChunkId)
  | keep
deriving DecidableEq

def existingSources (tracked : Option (List ChunkId)) (graphSources : List ChunkId) :
    List ChunkId :=
  let stored := truthy (tracked.getD [])
  if stored = [] then graphSources else stored

def classify (chunkIds : List ChunkId) (policy : RebuildPolicy) (tracked : Option (List ChunkId))
    (graphSources : List ChunkId) : Verdict :=
  let existing := existingSources tracked graphSources
  let remaining := subtractSourceIds existing chunkIds
  if existing = [] then .delete
  else if remaining = [] then .delete
  else if remaining ≠ existing ∨ (∃ c ∈ graphSources, c ∈ chunkIds) ∨ policy = .rollback then
    .rebuild remaining
  else .keep

def Verdict.remaining : Verdict → Option (List ChunkId)
  | .rebuild remaining => some remaining
  | _ => none

section

variable (chunkIds : List ChunkId) (policy : RebuildPolicy) (s : Store)

/-- A node without `entity_id` is passed over. -/
def entityVerdict (e : Name) : Verdict :=
  match s.getNode e with
  | none => .keep
  | some node =>
    if node.hasEntityId then
      classify chunkIds policy (s.entityRow e) (truthy node.sourceId)
    else .keep

/-- An edge without `source_id` is passed over. -/
def relationVerdict (p : Pair) : Verdict :=
  match (s.getEdge p).bind Edge.sourceId with
  | none => .keep
  | some sourceId => classify chunkIds policy (s.relationRow p) (truthy sourceId)

end

/-- What `_purge_derived_kg_contributions` sets out to do. -/
structure PurgePlan where
  entitiesToDelete : List Name
  entitiesToRebuild : Dict Name (List ChunkId)
  relationshipsToDelete : List Pair
  relationshipsToRebuild : Dict Pair (List ChunkId)

def PurgePlan.tasks (plan : PurgePlan) : List Task :=
  plan.entitiesToRebuild.entries.map (fun e => Task.entity e.1 e.2) ++
    plan.relationshipsToRebuild.entries.map (fun e => Task.relation e.1 e.2)

def toRebuild {α : Type} [DecidableEq α] (verdict : α → Verdict) (candidates : List α) :
    Dict α (List ChunkId) :=
  Dict.empty.update (candidates.filterMap fun o => (verdict o).remaining.map fun ids => (o, ids))

def purgePlan (chunkIds : List ChunkId) (policy : RebuildPolicy) (entities : List Name)
    (relations : List Pair) (s : Store) : PurgePlan where
  entitiesToDelete := entities.filter fun e => entityVerdict chunkIds policy s e = .delete
  entitiesToRebuild := toRebuild (entityVerdict chunkIds policy s) entities
  relationshipsToDelete := relations.filter fun p => relationVerdict chunkIds policy s p = .delete
  relationshipsToRebuild := toRebuild (relationVerdict chunkIds policy s) relations

def updateTracking (plan : PurgePlan) (s : Store) : Store :=
  { s with
    entityChunks := s.entityChunks.update plan.entitiesToRebuild.entries
    relationChunks := s.relationChunks.update
      (plan.relationshipsToRebuild.entries.map fun e =>
        (e.1, e.2.filter fun c => c ∉ relationNoEvidenceSourceIds)) }

def deleteRelationships (ps : List Pair) (s : Store) : Store :=
  { s with
    graph := s.graph.removeEdges ps
    relationChunks := s.relationChunks.drop fun p => p ∈ ps }

def deleteEntities (es : List Name) (s : Store) : Store :=
  let residual := es.flatMap s.graph.nodeEdges
  { s with
    graph := s.graph.removeNodes es
    entityChunks := s.entityChunks.drop fun e => e ∈ es
    relationChunks := s.relationChunks.drop fun p => p ∈ residual }

/-- Steps 2 to 4. -/
def applyPlan (plan : PurgePlan) (s : Store) : Store :=
  deleteEntities plan.entitiesToDelete
    (deleteRelationships plan.relationshipsToDelete (updateTracking plan s))

def candidateEntities (call : PurgeCall) (extra : List Name) (s : Store) : List Name :=
  let candidates := call.candidateEntities.getD ((s.fullEntities.get call.docId).getD [])
  candidates ++ extra.filter fun e => e ∉ candidates

def candidateRelations (call : PurgeCall) (extra : List Pair) (s : Store) : List Pair :=
  let candidates := call.candidateRelations.getD ((s.fullRelations.get call.docId).getD [])
  candidates ++ extra.filter fun p => p ∉ candidates

def purgeDerivedKgContributions (cfg : KgConfig) (env : RebuildEnv) (call : PurgeCall)
    (extraEntities : List Name) (extraRelations : List Pair) (s : Store) :
    Except PurgeError Store :=
  let plan := purgePlan call.chunkIds call.rebuildPolicy (candidateEntities call extraEntities s)
    (candidateRelations call extraRelations s) s
  match rebuildKnowledgeFromChunks cfg env call.rebuildPolicy plan.tasks (applyPlan plan s) with
  | none => .error .rebuildFailed
  | some s => .ok s

def deleteChunks (chunkIds : List ChunkId) (s : Store) : Store :=
  { s with
    chunksVdb := s.chunksVdb.filter fun c => c ∉ chunkIds
    textChunks := s.textChunks.filter fun c => c ∉ chunkIds }

def deleteAnchors (docId : DocId) (s : Store) : Store :=
  { s with
    fullEntities := s.fullEntities.drop fun d => d = docId
    fullRelations := s.fullRelations.drop fun d => d = docId }

def PurgeCall.journaled (call : PurgeCall) : Bool :=
  call.candidateEntities.isNone && call.candidateRelations.isNone && !call.patchOnly

/-- Without a look at the graph, only the patch journal names candidates. -/
def PurgeCall.under (call : PurgeCall) (kind : ProofKind) : PurgeCall :=
  if kind = .preGraph ∨ kind = .emptyScope then
    { call with candidateEntities := some [], candidateRelations := some [] }
  else call

def unlessPersisted (persisted : Bool) (step : Store → Except PurgeError Store) (s : Store) :
    Except PurgeError Store :=
  if persisted then .ok s else step s

def purgeUnderProof (cfg : KgConfig) (env : RebuildEnv) (call : PurgeCall)
    (proof : RecoveryProof) (s : Store) : Except PurgeError Store := do
  let write (phase : PurgePhase) (s : Store) :=
    writeKgPurgePhase s call.docId proof.operationId phase
  let s ← unlessPersisted proof.journalPhase.isSome (write .prepared) s
  let s ← unlessPersisted (proof.phaseAtLeast .derivedCommitted)
    (fun s => purgeDerivedKgContributions cfg env (call.under proof.proofKind)
      proof.patchCandidateEntities proof.patchCandidateRelations s >>= write .derivedCommitted) s
  let s ← unlessPersisted (proof.phaseAtLeast .anchorsPending)
    (fun s => write .anchorsPending (deleteChunks call.chunkIds s)) s
  write .completed (deleteAnchors call.docId s)

def purgeKgContributions (cfg : KgConfig) (env : RebuildEnv) (call : PurgeCall) (s : Store) :
    Except PurgeError Store :=
  if call.journaled then do
    let proof ← resolvePurgeRecoveryProof s call.docId call.chunkIds
    if proof.phaseAtLeast .completed then return s
    else purgeUnderProof cfg env call proof s
  else if call.chunkIds = [] then .ok s
  else do
    let s ← purgeDerivedKgContributions cfg env call [] [] s
    let s := deleteChunks call.chunkIds s
    if call.patchOnly then return s
    else return deleteAnchors call.docId s

end LightRAG.Knowledge

/-!
## What a purge leaves

An object whose evidence is purged entirely is gone, with its tracking row.
-/

namespace LightRAG.Knowledge
open List

def namesPurged (ids chunkIds : List ChunkId) : Prop := ∃ c ∈ truthy ids, c ∈ chunkIds

def evidencePurged (chunkIds : List ChunkId) (tracked : Option (List ChunkId))
    (sourceId : List ChunkId) : Prop :=
  ∀ c ∈ existingSources tracked (truthy sourceId), c ∈ chunkIds

def survivors (chunkIds : List ChunkId) (tracked : Option (List ChunkId))
    (sourceId : List ChunkId) : List ChunkId :=
  subtractSourceIds (existingSources tracked (truthy sourceId)) chunkIds

section

variable {α : Type} [DecidableEq α] {verdict : α → Verdict} {candidates : List α} {o : α}
  {chunkIds ids sourceId remaining : List ChunkId} {policy : RebuildPolicy}
  {tracked : Option (List ChunkId)} {c : ChunkId}

theorem get_toRebuild :
    (toRebuild verdict candidates).get o =
      if o ∈ candidates then (verdict o).remaining else none := by
  have hkeys : o ∈ (candidates.filterMap fun o => (verdict o).remaining.map fun ids =>
      (o, ids)).map Prod.fst ↔ o ∈ candidates ∧ (verdict o).remaining ≠ none := by
    simp only [mem_map,mem_filterMap,Option.map_eq_some_iff,Prod.exists,Prod.mk.injEq]
    constructor
    · rintro ⟨o',ids,⟨o'',hin,ids',hids,rfl,rfl⟩,rfl⟩
      exact ⟨hin,fun h => Option.some_ne_none ids' (hids.symm.trans h)⟩
    · rintro ⟨hin,hne⟩
      obtain ⟨ids,hids⟩ := Option.ne_none_iff_exists'.mp hne
      exact ⟨o,ids,⟨o,hin,ids,hids,rfl,rfl⟩,rfl⟩
  unfold toRebuild
  by_cases hmem : o ∈ candidates ∧ (verdict o).remaining ≠ none
  · obtain ⟨ids,hids,hget⟩ := Dict.get_update_mem (d := Dict.empty) (hkeys.mpr hmem)
    rw [hget,if_pos hmem.1]
    simp only [mem_filterMap,Option.map_eq_some_iff] at hids
    obtain ⟨o',-,ids',hids',rfl,rfl⟩ := hids
    exact hids'.symm
  · rw [Dict.get_update_of_not_mem (fun h => hmem (hkeys.mp h))]
    split
    · rename_i hin
      have hnone : (verdict o).remaining = none := by
        by_contra h
        exact hmem ⟨hin,h⟩
      rw [hnone]
      rfl
    · rfl

theorem remaining_eq_some {v : Verdict} : v.remaining = some ids ↔ v = .rebuild ids := by
  cases v <;> simp [Verdict.remaining]

theorem mem_entries_toRebuild :
    (o, ids) ∈ (toRebuild verdict candidates).entries ↔
      o ∈ candidates ∧ verdict o = .rebuild ids := by
  rw [← Dict.get_eq_some,get_toRebuild,← remaining_eq_some]
  split
  · rename_i h
    simp [h]
  · rename_i h
    simp [h]

theorem ne_empty_of_mem_existing (h : c ∈ existingSources tracked (truthy sourceId)) : c ≠ "" := by
  unfold existingSources at h
  dsimp only at h
  split at h
  · exact (mem_truthy.mp h).2
  · exact (mem_truthy.mp h).2

theorem mem_survivors :
    c ∈ survivors chunkIds tracked sourceId ↔
      c ∈ existingSources tracked (truthy sourceId) ∧ c ∉ chunkIds := by
  rw [survivors,mem_subtractSourceIds]
  constructor
  · exact fun h => ⟨h.1,h.2.2⟩
  · exact fun h => ⟨h.1,ne_empty_of_mem_existing h.1,h.2⟩

theorem survivors_eq_nil :
    survivors chunkIds tracked sourceId = [] ↔ evidencePurged chunkIds tracked sourceId := by
  rw [eq_nil_iff_forall_not_mem,evidencePurged]
  simp only [mem_survivors,not_and,not_not]

theorem survivors_eq_existing :
    survivors chunkIds tracked sourceId = existingSources tracked (truthy sourceId) ↔
      ∀ c ∈ existingSources tracked (truthy sourceId), c ∉ chunkIds := by
  rw [survivors,subtractSourceIds,filter_eq_self]
  constructor
  · exact fun h c hc => (of_decide_eq_true (h c hc)).2
  · exact fun h c hc => decide_eq_true ⟨ne_empty_of_mem_existing hc,h c hc⟩

theorem classify_delete :
    classify chunkIds policy tracked (truthy sourceId) = .delete ↔
      evidencePurged chunkIds tracked sourceId := by
  rw [← survivors_eq_nil]
  unfold classify
  by_cases hexisting : existingSources tracked (truthy sourceId) = []
  · simp [hexisting,survivors,subtractSourceIds]
  · simp only [hexisting,if_false]
    by_cases hremaining :
        subtractSourceIds (existingSources tracked (truthy sourceId)) chunkIds = []
    · simp [hremaining,survivors]
    · rw [if_neg hremaining]
      constructor
      · intro h
        split at h <;> cases h
      · exact fun h => absurd h hremaining

theorem classify_rebuild
    (h : classify chunkIds policy tracked (truthy sourceId) = .rebuild remaining) :
    remaining = survivors chunkIds tracked sourceId ∧
      ¬ evidencePurged chunkIds tracked sourceId := by
  constructor
  · unfold classify at h
    dsimp only at h
    split at h
    · cases h
    · split at h
      · cases h
      · split at h
        · exact (Verdict.rebuild.inj h).symm
        · cases h
  · intro hpurged
    rw [classify_delete.mpr hpurged] at h
    cases h

theorem classify_keep (h : classify chunkIds policy tracked (truthy sourceId) = .keep) :
    ¬ namesPurged sourceId chunkIds ∧ ¬ namesPurged (tracked.getD []) chunkIds ∧
      policy ≠ .rollback := by
  unfold classify at h
  dsimp only at h
  split at h
  · cases h
  · split at h
    · cases h
    · split at h
      · cases h
      · rename_i hsame
        rw [not_or,not_or,not_not] at hsame
        obtain ⟨heq,hgraph,hpolicy⟩ := hsame
        refine ⟨hgraph,?_,hpolicy⟩
        rintro ⟨c,hc,hin⟩
        have hclean := survivors_eq_existing.mp heq
        refine hclean c ?_ hin
        unfold existingSources
        rw [if_neg (ne_nil_of_mem hc)]
        exact hc

theorem not_namesPurged_survivors :
    ¬ namesPurged (survivors chunkIds tracked sourceId) chunkIds := by
  rintro ⟨c,hc,hin⟩
  exact (mem_survivors.mp (mem_truthy.mp hc).1).2 hin

theorem not_namesPurged_of_subset {ids' : List ChunkId} (h : ¬ namesPurged ids chunkIds)
    (hsub : ids' ⊆ ids) : ¬ namesPurged ids' chunkIds := by
  rintro ⟨c,hc,hin⟩
  have hc' := mem_truthy.mp hc
  exact h ⟨c,mem_truthy.mpr ⟨hsub hc'.1,hc'.2⟩,hin⟩

end

section

variable {chunkIds ids : List ChunkId} {policy : RebuildPolicy} {entities : List Name}
  {relations : List Pair} {s : Store} {e : Name} {p : Pair}

def entityDeleted (chunkIds : List ChunkId) (policy : RebuildPolicy) (entities : List Name)
    (s : Store) (e : Name) : Prop :=
  e ∈ entities ∧ entityVerdict chunkIds policy s e = .delete

/-- A relation goes, for itself or with one of its ends. -/
def relationDeleted (chunkIds : List ChunkId) (policy : RebuildPolicy) (entities : List Name)
    (relations : List Pair) (s : Store) (p : Pair) : Prop :=
  (p ∈ relations ∧ relationVerdict chunkIds policy s p = .delete) ∨
    ∃ e ∈ p, entityDeleted chunkIds policy entities s e

theorem mem_entitiesToDelete (relations : List Pair) :
    e ∈ (purgePlan chunkIds policy entities relations s).entitiesToDelete ↔
      entityDeleted chunkIds policy entities s e := by
  simp [purgePlan,entityDeleted]

theorem getNode_applyPlan_of_deleted (h : entityDeleted chunkIds policy entities s e) :
    (applyPlan (purgePlan chunkIds policy entities relations s) s).getNode e = none := by
  have hmem := (mem_entitiesToDelete relations).mpr h
  unfold applyPlan deleteEntities Store.getNode
  rw [Graph.getNode_removeNodes,if_pos hmem]

theorem getNode_applyPlan (h : ¬ entityDeleted chunkIds policy entities s e) :
    (applyPlan (purgePlan chunkIds policy entities relations s) s).getNode e = s.getNode e := by
  have hmem := (not_congr (mem_entitiesToDelete relations)).mpr h
  unfold applyPlan deleteEntities Store.getNode
  rw [Graph.getNode_removeNodes,if_neg hmem]
  rfl

theorem entityRow_applyPlan_of_deleted (h : entityDeleted chunkIds policy entities s e) :
    (applyPlan (purgePlan chunkIds policy entities relations s) s).entityRow e = none := by
  have hmem := (mem_entitiesToDelete relations).mpr h
  unfold applyPlan deleteEntities Store.entityRow
  rw [Dict.get_drop,if_pos hmem]

theorem entityRow_applyPlan (h : ¬ entityDeleted chunkIds policy entities s e) :
    (applyPlan (purgePlan chunkIds policy entities relations s) s).entityRow e =
      (if e ∈ entities then (entityVerdict chunkIds policy s e).remaining else none).or
        (s.entityRow e) := by
  have hmem := (not_congr (mem_entitiesToDelete relations)).mpr h
  unfold applyPlan deleteEntities Store.entityRow
  rw [Dict.get_drop,if_neg hmem]
  unfold deleteRelationships updateTracking
  have hupdate := Dict.get_update_entries (d := s.entityChunks) (k := e)
    (purgePlan chunkIds policy entities relations s).entitiesToRebuild id
  simp only [id_eq,map_id_fun',Option.map_id_fun] at hupdate
  rw [hupdate]
  unfold purgePlan
  rw [get_toRebuild]

theorem getEdge_applyPlan_of_deleted (h : relationDeleted chunkIds policy entities relations s p) :
    (applyPlan (purgePlan chunkIds policy entities relations s) s).getEdge p = none := by
  unfold applyPlan deleteEntities Store.getEdge
  rw [Graph.getEdge_removeNodes]
  split
  · rfl
  · rename_i hends
    unfold deleteRelationships
    rw [Graph.getEdge_removeEdges]
    obtain ⟨hin,hverdict⟩ | ⟨e,he,hgone⟩ := h
    · simp [purgePlan,hin,hverdict]
    · exact absurd (Graph.mem_ends.mpr ⟨e,he,(mem_entitiesToDelete relations).mpr hgone⟩) hends

theorem getEdge_applyPlan (h : ¬ relationDeleted chunkIds policy entities relations s p) :
    (applyPlan (purgePlan chunkIds policy entities relations s) s).getEdge p = s.getEdge p := by
  rw [relationDeleted,not_or,not_exists] at h
  unfold applyPlan deleteEntities Store.getEdge
  rw [Graph.getEdge_removeNodes,if_neg]
  · unfold deleteRelationships
    rw [Graph.getEdge_removeEdges,if_neg]
    · rfl
    · intro hin
      apply h.1
      simpa [purgePlan] using hin
  · intro hends
    obtain ⟨e,he,hgone⟩ := Graph.mem_ends.mp hends
    exact h.2 e ⟨he,(mem_entitiesToDelete relations).mp hgone⟩

theorem relationRow_applyPlan_of_deleted (hedge : s.getEdge p ≠ none)
    (h : relationDeleted chunkIds policy entities relations s p) :
    (applyPlan (purgePlan chunkIds policy entities relations s) s).relationRow p = none := by
  unfold applyPlan deleteEntities Store.relationRow
  rw [Dict.get_drop]
  split
  · rfl
  · rename_i hresidual
    unfold deleteRelationships
    rw [Dict.get_drop,if_pos]
    by_contra hkept
    apply hresidual
    obtain ⟨hin,hverdict⟩ | ⟨e,he,hgone⟩ := h
    · exact absurd (by simp [purgePlan,hin,hverdict]) hkept
    · rw [mem_flatMap]
      refine ⟨e,(mem_entitiesToDelete relations).mpr hgone,Graph.mem_nodeEdges.mpr ⟨?_,he⟩⟩
      unfold deleteRelationships
      rw [Graph.getEdge_removeEdges,if_neg hkept]
      exact hedge

theorem relationRow_applyPlan (h : s.getEdge p = none ∨
      ¬ relationDeleted chunkIds policy entities relations s p) :
    (applyPlan (purgePlan chunkIds policy entities relations s) s).relationRow p =
      ((if p ∈ relations then (relationVerdict chunkIds policy s p).remaining else none).map
        (List.filter fun c => c ∉ relationNoEvidenceSourceIds)).or (s.relationRow p) := by
  have hkept : p ∉ (purgePlan chunkIds policy entities relations s).relationshipsToDelete := by
    intro hin
    have hdelete : p ∈ relations ∧ relationVerdict chunkIds policy s p = .delete := by
      simpa [purgePlan] using hin
    obtain hnone | hnot := h
    · unfold relationVerdict at hdelete
      rw [hnone] at hdelete
      exact Verdict.noConfusion hdelete.2
    · exact hnot (.inl hdelete)
  have hresidual : p ∉ (purgePlan chunkIds policy entities relations s).entitiesToDelete.flatMap
      (deleteRelationships (purgePlan chunkIds policy entities relations s).relationshipsToDelete
        (updateTracking (purgePlan chunkIds policy entities relations s) s)).graph.nodeEdges := by
    rw [mem_flatMap]
    rintro ⟨e,he,hedges⟩
    obtain ⟨hedge,hend⟩ := Graph.mem_nodeEdges.mp hedges
    unfold deleteRelationships at hedge
    rw [Graph.getEdge_removeEdges,if_neg hkept] at hedge
    obtain hnone | hnot := h
    · exact hedge hnone
    · exact hnot (.inr ⟨e,hend,(mem_entitiesToDelete relations).mp he⟩)
  unfold applyPlan deleteEntities Store.relationRow
  rw [Dict.get_drop,if_neg hresidual]
  unfold deleteRelationships
  rw [Dict.get_drop,if_neg hkept]
  unfold updateTracking
  rw [Dict.get_update_entries]
  unfold purgePlan
  rw [get_toRebuild]

theorem sameDocuments_applyPlan {plan : PurgePlan} : s.SameDocuments (applyPlan plan s) :=
  ⟨rfl,rfl,rfl,rfl,rfl⟩

theorem mem_tasks_entity :
    .entity e ids ∈ (purgePlan chunkIds policy entities relations s).tasks ↔
      e ∈ entities ∧ entityVerdict chunkIds policy s e = .rebuild ids := by
  rw [← mem_entries_toRebuild]
  simp [PurgePlan.tasks,purgePlan]

theorem mem_tasks_relation :
    .relation p ids ∈ (purgePlan chunkIds policy entities relations s).tasks ↔
      p ∈ relations ∧ relationVerdict chunkIds policy s p = .rebuild ids := by
  rw [← mem_entries_toRebuild]
  simp [PurgePlan.tasks,purgePlan]

theorem nodup_tasks (plan : PurgePlan) : (plan.tasks.map Task.object).Nodup := by
  unfold PurgePlan.tasks
  rw [map_append,map_map,map_map,nodup_append]
  have hentities : (plan.entitiesToRebuild.entries.map
      (Task.object ∘ fun e => Task.entity e.1 e.2)) =
      plan.entitiesToRebuild.keys.map Object.entity := by
    rw [Dict.keys,map_map]
    rfl
  have hrelations : (plan.relationshipsToRebuild.entries.map
      (Task.object ∘ fun e => Task.relation e.1 e.2)) =
      plan.relationshipsToRebuild.keys.map Object.relation := by
    rw [Dict.keys,map_map]
    rfl
  rw [hentities,hrelations]
  refine ⟨?_,?_,?_⟩
  · exact plan.entitiesToRebuild.nodup.map fun _ _ => Object.entity.inj
  · exact plan.relationshipsToRebuild.nodup.map fun _ _ => Object.relation.inj
  · intro a ha b hb
    obtain ⟨e,-,rfl⟩ := mem_map.mp ha
    obtain ⟨p,-,rfl⟩ := mem_map.mp hb
    exact Object.noConfusion

def nothingCached (env : RebuildEnv) (policy : RebuildPolicy) (tasks : List Task) : Prop :=
  policy = .bestEffort ∧ ∀ c ∈ tasks.flatMap Task.chunkIds, env.cachedResults c = []

theorem rebuildKnowledgeFromChunks_cases {cfg : KgConfig} {env : RebuildEnv} {tasks : List Task}
    {s' : Store} (hnodup : (tasks.map Task.object).Nodup)
    (h : rebuildKnowledgeFromChunks cfg env policy tasks s = some s') :
    (nothingCached env policy tasks ∨ tasks = []) ∧ s' = s ∨
      ¬ nothingCached env policy tasks ∧
        Rebuilt cfg env (decide (policy = .rollback)) s tasks s' := by
  unfold rebuildKnowledgeFromChunks at h
  split at h
  · rename_i hnil
    exact .inl ⟨.inr hnil,(Option.some.inj h).symm⟩
  · dsimp only at h
    split at h
    · rename_i hcached
      exact .inl ⟨.inl hcached,(Option.some.inj h).symm⟩
    · rename_i hcached
      refine .inr ⟨hcached,?_⟩
      have hperm := env.schedule_perm tasks
      have hnodup' : ((env.schedule tasks).map Task.object).Nodup :=
        (hperm.map Task.object).nodup_iff.mpr hnodup
      exact (runTasks_rebuilt hnodup' h).perm hperm

end

end LightRAG.Knowledge
