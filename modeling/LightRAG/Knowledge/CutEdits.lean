import LightRAG.Knowledge.AttributionRuns
import LightRAG.Knowledge.GraphEdits

/-!
# Administrative edits that are cut

The row of an object covers both of its states before the graph is written, and loses ids only
afterwards. A process that ends anywhere in an edit leaves no object that cites a chunk its row
misses.
-/

namespace LightRAG.Knowledge
open List

/-- The chunks an object cites. -/
def Graph.evidence (g : Graph) : Object → List ChunkId
  | .entity e => evidenceOnly (((g.getNode e).map Node.sourceId).getD [])
  | .relation p => evidenceOnly (((g.getEdge p).bind Edge.sourceId).getD [])

def Store.row (s : Store) : Object → Option (List ChunkId)
  | .entity e => s.entityRow e
  | .relation p => s.relationRow p

namespace Stores

/-- A row of the object, in memory or on disk. -/
def Tracks (s : Stores) (o : Object) (row : List ChunkId) : Prop :=
  s.mem.row o = some row ∨ s.disk.row o = some row

/-- What the object cites, in memory or on disk. -/
def Cites (s : Stores) (o : Object) (c : ChunkId) : Prop :=
  c ∈ s.mem.graph.evidence o ∨ c ∈ s.disk.graph.evidence o

/-- No row of an object misses what the object cites; one without a row answers for itself. -/
def Backed (s : Stores) : Prop := ∀ o row, s.Tracks o row → ∀ c, s.Cites o c → c ∈ row

end Stores

/-- The write that makes an object cite ids. -/
def citing (ids : List ChunkId) : Object → KgWrite
  | .entity e => .upsertNode e ids
  | .relation p => .upsertEdge p (some ids)

/-- A new row names what the object cites, and what an object is to cite is in its rows. -/
def KgWrite.Allowed (s : Stores) : KgWrite → Prop
  | .upsertRow o ids => ∀ c, s.Cites o c → c ∈ ids
  | .upsertNode e ids => ∀ row, s.Tracks (.entity e) row → evidenceOnly ids ⊆ row
  | .upsertEdge p ids => ∀ row, s.Tracks (.relation p) row → evidenceOnly (ids.getD []) ⊆ row
  | _ => True

section

variable {r : Store} {g : Graph} {o o' : Object} {ids row : List ChunkId} {e : Name} {p : Pair}
  {b : Backend} {s t : Stores} {w : KgWrite} {ws vs : List KgWrite} {c : ChunkId}

theorem row_upsertRow : (r.upsertRow o ids).row o' = if o' = o then some ids else r.row o' := by
  cases o <;> cases o' <;> simp [Store.upsertRow,Store.row,Store.entityRow,Store.relationRow,
    Store.upsertEntityRow,Store.upsertRelationRow,Dict.get_set]

theorem row_deleteRow : (r.deleteRow o).row o' = if o' = o then none else r.row o' := by
  cases o <;> cases o' <;>
    simp [Store.deleteRow,Store.row,Store.entityRow,Store.relationRow,Dict.get_drop]

theorem evidence_upsertNode {node : Node} : (g.upsertNode e node).evidence o =
    if o = .entity e then evidenceOnly node.sourceId else g.evidence o := by
  cases o with
  | entity e' => by_cases he : e' = e <;> simp [Graph.evidence,he]
  | relation p => simp [Graph.evidence]

theorem evidence_ensureNode : (g.ensureNode e).evidence o = g.evidence o := by
  unfold Graph.ensureNode
  split
  · rfl
  · rename_i hnone
    rw [evidence_upsertNode]
    split
    · rename_i ho
      simp_all [Graph.hasNode,Graph.evidence]
    · rfl

theorem evidence_upsertEdge {edge : Edge} : (g.upsertEdge p edge).evidence o =
    if o = .relation p then evidenceOnly (edge.sourceId.getD []) else g.evidence o := by
  cases o with
  | entity e =>
    rw [if_neg (by simp)]
    calc (g.upsertEdge p edge).evidence (.entity e)
        = ((g.ensureNode p.inf).ensureNode p.sup).evidence (.entity e) := rfl
      _ = g.evidence (.entity e) := by rw [evidence_ensureNode,evidence_ensureNode]
  | relation q => by_cases hq : q = p <;> simp [Graph.evidence,Graph.getEdge_upsertEdge,hq]

theorem evidence_removeNodes {es : List Name} : (g.removeNodes es).evidence o ⊆ g.evidence o := by
  cases o <;> simp only [Graph.evidence,Graph.getNode_removeNodes,Graph.getEdge_removeNodes] <;>
    split <;> simp [evidenceOnly]

theorem evidence_removeEdges {ps : List Pair} : (g.removeEdges ps).evidence o ⊆ g.evidence o := by
  cases o with
  | entity e => exact Subset.refl _
  | relation p =>
    simp only [Graph.evidence,Graph.getEdge_removeEdges]
    split <;> simp [evidenceOnly]

theorem tracks_persistTracking {entities relations : Bool}
    (h : (s.persistTracking entities relations).Tracks o row) : s.Tracks o row := by
  cases h with
  | inl hmem => exact .inl hmem
  | inr hdisk =>
    cases o with
    | entity e => cases entities <;> [exact .inr hdisk; exact .inl hdisk]
    | relation p => cases relations <;> [exact .inr hdisk; exact .inl hdisk]

theorem tracks_write (h : (w.write b s).Tracks o row) : s.Tracks o row ∨ w = .upsertRow o row := by
  cases w with
  | upsertRow o' ids =>
    simp only [KgWrite.write,Stores.writeRow,Stores.Tracks] at h
    split at h <;> simp only [row_upsertRow] at h <;> split at h <;> simp_all [Stores.Tracks]
    exact h.symm.imp_left .inr
  | deleteRow o' =>
    simp only [KgWrite.write,Stores.writeRow,Stores.Tracks] at h
    split at h <;> simp only [row_deleteRow] at h <;> split at h <;> simp_all [Stores.Tracks]
  | persistTracking entities relations => exact .inl (tracks_persistTracking h)
  | _ => exact .inl h

theorem cites_write (h : (w.write b s).Cites o c) :
    s.Cites o c ∨ ∃ ids, w = citing ids o ∧ c ∈ evidenceOnly ids := by
  cases w with
  | upsertRow o' ids =>
    simp only [KgWrite.write,Stores.writeRow,Stores.Cites,graph_upsertRow] at h
    split at h <;> simp_all [Stores.Cites]
  | deleteRow o' =>
    simp only [KgWrite.write,Stores.writeRow,Stores.Cites,graph_deleteRow] at h
    split at h <;> simp_all [Stores.Cites]
  | upsertNode e ids =>
    cases h with
    | inl hmem =>
      rw [KgWrite.write,Stores.writeGraph,Store.withGraph,evidence_upsertNode] at hmem
      split at hmem <;> simp_all [Stores.Cites,citing]
    | inr hdisk => exact .inl (.inr hdisk)
  | upsertEdge p ids =>
    cases h with
    | inl hmem =>
      rw [KgWrite.write,Stores.writeGraph,Store.withGraph,evidence_upsertEdge] at hmem
      split at hmem <;> cases ids <;> simp_all [Stores.Cites,citing,evidenceOnly]
    | inr hdisk => exact .inl (.inr hdisk)
  | deleteNode e => exact .inl (h.imp_left fun hmem => evidence_removeNodes hmem)
  | removeEdge p => exact .inl (h.imp_left fun hmem => evidence_removeEdges hmem)
  | persistTracking entities relations => exact .inl h
  | commitGraph => exact .inl (.inl (or_self_iff.mp h))

namespace Stores.Backed

theorem write (h : s.Backed) (hw : w.Allowed s) : (w.write b s).Backed := by
  intro o row hrow c hc
  cases tracks_write hrow with
  | inl hold =>
    cases cites_write hc with
    | inl hcited => exact h o row hold c hcited
    | inr hnew =>
      obtain ⟨ids,rfl,hin⟩ := hnew
      cases o <;> exact hw row hold hin
  | inr hstored =>
    subst hstored
    cases cites_write hc with
    | inl hcited => exact hw c hcited
    | inr hnew =>
      obtain ⟨ids,hwrite,-⟩ := hnew
      cases o <;> cases hwrite

theorem partly (h : s.Backed) (hw : KgWrite.Partly w s t) : t.Backed := by
  cases hw with
  | persist _ _ => exact fun o row hrow => h o row (tracks_persistTracking hrow)
  | declined => exact fun o row hrow c hc => h o row hrow c (.inr (or_self_iff.mp hc))

end Stores.Backed

/-- Each of the writes is allowed when its turn comes. -/
def Permitted (b : Backend) : List KgWrite → Stores → Prop
  | [], _ => True
  | w :: ws, s => w.Allowed s ∧ Permitted b ws (w.write b s)

theorem permitted_append :
    Permitted b (ws ++ vs) s ↔ Permitted b ws s ∧ Permitted b vs ((kgWriter b).run ws s) := by
  induction ws generalizing s with
  | nil => simp [Permitted]
  | cons w ws ih => simp [Permitted,ih,and_assoc,kgWriter]

theorem Stores.Backed.cut (h : s.Backed) (hws : Permitted b ws s) (hcut : (kgWriter b).Cut s ws t) :
    t.Backed := by
  induction hcut with
  | before s ws => exact h
  | within hpartly => exact h.partly hpartly
  | after _ ih => exact ih (h.write hws.1) hws.2

/-- The rows of an edit that makes an object cite ids: the first covers both states of the object,
and both cover the new one. -/
def Staged (r : Store) (o : Object) (ids : List ChunkId) :
    Option (List ChunkId × List ChunkId) → Prop
  | none => ∀ row, r.row o = some row → evidenceOnly ids ⊆ row
  | some (final, superset) =>
    r.graph.evidence o ⊆ superset ∧ evidenceOnly ids ⊆ superset ∧ evidenceOnly ids ⊆ final

theorem permitted_stagedEdit {rows : Option (List ChunkId × List ChunkId)}
    (h : Staged r o ids rows) : Permitted b (stagedEdit o rows (citing ids o)) ⟨r, r⟩ := by
  have hciting (s : Stores) (hids : ∀ row, s.Tracks o row → evidenceOnly ids ⊆ row) :
      (citing ids o).Allowed s ∧
        ((citing ids o).write b s).mem.graph.evidence o = evidenceOnly ids := by
    cases o with
    | entity e => exact ⟨hids,evidence_upsertNode.trans (if_pos rfl)⟩
    | relation p => exact ⟨hids,evidence_upsertEdge.trans (if_pos rfl)⟩
  match rows, h with
  | none, h => exact ⟨(hciting ⟨r,r⟩ fun row hrow => h row (or_self_iff.mp hrow)).1,trivial,trivial⟩
  | some (final, superset), ⟨hold,hnew,hfinal⟩ =>
    -- once it is flushed, the first row is the only one there is of the object
    have hrow : (r.upsertRow o superset).row o = some superset := row_upsertRow.trans (if_pos rfl)
    obtain ⟨hallowed,hcites⟩ := hciting (((KgWrite.upsertRow o superset).write b
        ⟨r, r⟩).persistTracking (o.among true false) (o.among false true)) (by
      intro row hstored
      cases o <;> cases (or_self_iff.mp hstored).symm.trans hrow <;> exact hnew)
    unfold stagedEdit
    refine permitted_append.mpr
      ⟨⟨fun c hc => hold (or_self_iff.mp hc),trivial,hallowed,trivial,trivial⟩,?_⟩
    split
    · trivial
    · exact ⟨fun c hc => hfinal (hcites ▸ or_self_iff.mp hc),trivial,trivial⟩

theorem mem_distinctEvidence {c : ChunkId} : c ∈ distinctEvidence ids ↔ c ∈ evidenceOnly ids := by
  simp only [distinctEvidence,mem_mergeSourceIds,mem_evidenceOnly,not_mem_nil,false_or]
  tauto

/-- An edit compares what it keeps of the old and of the new ids, all of their evidence at least. -/
theorem staged_stagedRows {r : Store} {full old new oldIds : List ChunkId}
    (hcites : r.graph.evidence o = evidenceOnly oldIds) (hfull : evidenceOnly oldIds ⊆ full)
    (hold : old ⊆ oldIds) (hnew : evidenceOnly ids ⊆ new) :
    Staged r o ids (some (stagedRows full old new)) := by
  have hfinal : evidenceOnly ids ⊆ (stagedRows full old new).1 := by
    intro c hc
    have hcited := mem_evidenceOnly.mp hc
    simp only [stagedRows,computeIncrementalChunkIds,mem_foldl_appendNew,mem_filter]
    by_cases hin : c ∈ old
    · refine .inl ⟨hfull (mem_evidenceOnly.mpr ⟨hold hin,hcited.2⟩),?_⟩
      simp [hcited.2.1,hnew hc]
    · exact .inr ⟨⟨hnew hc,by simp [hin]⟩,hcited.2.1⟩
  refine ⟨fun c hc => mem_append_left _ (hfull (hcites ▸ hc)),?_,hfinal⟩
  intro c hc
  by_cases hin : c ∈ full
  · exact mem_append_left _ hin
  · exact mem_append_right _ (mem_filter.mpr ⟨hfinal hc,by simp [hin]⟩)

theorem staged_same {old new oldIds : List ChunkId} (h : Stores.Backed ⟨r, r⟩)
    (hcites : r.graph.evidence o = evidenceOnly oldIds) (hsame : sameIds new old = true)
    (hold : old ⊆ oldIds) (hnew : evidenceOnly ids ⊆ new) : Staged r o ids none := by
  intro row hrow c hc
  have hin := hold ((of_decide_eq_true hsame).1 (hnew hc))
  apply h o row (.inl hrow) c (.inl _)
  rw [hcites]
  exact mem_evidenceOnly.mpr ⟨hin,(mem_evidenceOnly.mp hc).2⟩

theorem permitted_editEntity (h : Stores.Backed ⟨r, r⟩) (sourceId : Option (List ChunkId)) :
    Permitted b (editEntity e sourceId r) ⟨r, r⟩ := by
  unfold editEntity
  split
  · trivial
  rename_i node hnode
  have hcites : r.graph.evidence (.entity e) = evidenceOnly node.sourceId := by
    simp [Graph.evidence,show r.graph.getNode e = some node from hnode]
  have htruthy {ids : List ChunkId} : evidenceOnly ids ⊆ truthy ids := by
    intro c hc
    have hcited := mem_evidenceOnly.mp hc
    exact mem_truthy.mpr ⟨hcited.1,hcited.2.1⟩
  have hold {ids : List ChunkId} : truthy ids ⊆ ids := fun c hc => (mem_truthy.mp hc).1
  apply permitted_stagedEdit (o := .entity e)
  unfold entityChunkTrackingUpdate
  split
  · exact staged_stagedRows hcites htruthy hold htruthy
  rename_i row hrow
  dsimp only
  split
  · rename_i hsame
    exact staged_same h hcites hsame hold htruthy
  · apply staged_stagedRows hcites _ hold htruthy
    intro c hc
    exact mem_truthy.mpr
      ⟨h (.entity e) row (.inl hrow) c (.inl (hcites ▸ hc)),(mem_evidenceOnly.mp hc).2.1⟩

theorem permitted_aeditRelation (h : Stores.Backed ⟨r, r⟩) (sourceId : Option (List ChunkId)) :
    Permitted b (aeditRelation p sourceId r) ⟨r, r⟩ := by
  unfold aeditRelation
  split
  · trivial
  rename_i edge hedge
  have hcites : r.graph.evidence (.relation p) = evidenceOnly (edge.sourceId.getD []) := by
    simp [Graph.evidence,show r.graph.getEdge p = some edge from hedge]
  have hold {ids : List ChunkId} : distinctEvidence ids ⊆ ids := fun c hc =>
    (mem_evidenceOnly.mp (mem_distinctEvidence.mp hc)).1
  have hnew {ids : List ChunkId} : evidenceOnly ids ⊆ distinctEvidence ids := fun c hc =>
    mem_distinctEvidence.mpr hc
  apply permitted_stagedEdit (o := .relation p)
  unfold relationRows
  split
  · exact staged_stagedRows hcites hnew hold hnew
  rename_i row hrow
  dsimp only
  split
  · apply staged_stagedRows hcites _ hold hnew
    intro c hc
    exact mem_evidenceOnly.mpr
      ⟨h (.relation p) row (.inl hrow) c (.inl (hcites ▸ hc)),(mem_evidenceOnly.mp hc).2⟩
  · rename_i hsame
    rw [not_or,not_not] at hsame
    exact staged_same h hcites hsame.1 hold hnew

theorem sameIds_self : sameIds ids ids = true := by simp [sameIds]

theorem permitted_creation {r : Store} (hnone : r.graph.evidence o = []) :
    Permitted b [.upsertRow o (distinctEvidence ids),
      .persistTracking (o.among true false) (o.among false true), citing ids o, .commitGraph]
      ⟨r, r⟩ := by
  have hstaged : Staged r o ids (some (distinctEvidence ids, distinctEvidence ids)) := by
    refine ⟨?_,fun c => mem_distinctEvidence.mpr,fun c => mem_distinctEvidence.mpr⟩
    rw [hnone]
    exact nil_subset _
  simpa [stagedEdit,sameIds_self] using permitted_stagedEdit (b := b) hstaged

/-- What takes away from the graph, takes away rows or makes durable. -/
def KgWrite.adds : KgWrite → Bool
  | .upsertRow _ _ | .upsertNode _ _ | .upsertEdge _ _ => true
  | _ => false

theorem permitted_of_not_adds (h : ws.all fun w => !w.adds) : Permitted b ws s := by
  induction ws generalizing s with
  | nil => trivial
  | cons w ws ih =>
    rw [all_cons,Bool.and_eq_true] at h
    refine ⟨?_,ih h.2⟩
    cases w <;> first | trivial | cases h.1

end

/-- The edits that name no new object for an old one. -/
inductive Edit
  | createEntity (name : Name) (sourceId : List ChunkId)
  | createRelation (p : Pair) (sourceId : List ChunkId)
  | editEntity (name : Name) (sourceId : Option (List ChunkId))
  | editRelation (p : Pair) (sourceId : Option (List ChunkId))
  | deleteEntity (e : Name)
  | deleteRelation (p : Pair)

def Edit.writes : Edit → Store → List KgWrite
  | .createEntity name sourceId => acreateEntity name sourceId
  | .createRelation p sourceId => acreateRelation p sourceId
  | .editEntity name sourceId => Knowledge.editEntity name sourceId
  | .editRelation p sourceId => aeditRelation p sourceId
  | .deleteEntity e => adeleteByEntity e
  | .deleteRelation p => adeleteByRelation p

/-- An edit comes to its end, or the process ends in it and starts again from the disk. -/
inductive Edit.Step (b : Backend) : Stores → Edit → Stores → Prop
  | done (s : Stores) (e : Edit) : Step b s e ((kgWriter b).run (e.writes s.mem) s)
  | cut {s t : Stores} {e : Edit} :
    (kgWriter b).Cut s (e.writes s.mem) t → Step b s e ⟨t.disk, t.disk⟩

/-- Between two edits everything is on disk. -/
def Stores.Settled (s : Stores) : Prop := s.mem = s.disk ∧ s.Backed

section

variable {b : Backend} {s s₀ t : Stores} {r : Store} {o : Object}

theorem Edit.permitted (e : Edit) (h : Stores.Backed ⟨r, r⟩) : Permitted b (e.writes r) ⟨r, r⟩ := by
  cases e with
  | createEntity name sourceId =>
    simp only [writes,acreateEntity]
    split
    · trivial
    · rename_i hnone
      apply permitted_creation (o := .entity name)
      simp_all [Graph.hasNode,Graph.evidence,evidenceOnly]
  | createRelation p sourceId =>
    simp only [writes,acreateRelation]
    split
    · trivial
    · rename_i hnone
      apply permitted_creation (o := .relation p)
      simp_all [Store.getEdge,Graph.evidence,evidenceOnly]
  | editEntity name sourceId => exact permitted_editEntity h sourceId
  | editRelation p sourceId => exact permitted_aeditRelation h sourceId
  | deleteEntity e =>
    apply permitted_of_not_adds
    simp only [writes,adeleteByEntity]
    split <;> (try split) <;> simp [KgWrite.adds]
  | deleteRelation p =>
    apply permitted_of_not_adds
    simp only [writes,adeleteByRelation]
    split <;> (try split) <;> simp [KgWrite.adds]

/-- What is written without a callback, and the graph, are on disk. -/
def Stores.Flushed (s : Stores) : Prop := ∃ entities relations,
  s.disk = { s.mem with entityChunks := entities, relationChunks := relations }

theorem flushed_deleteRow (h : s.Flushed) : ((KgWrite.deleteRow o).write b s).Flushed := by
  obtain ⟨entities,relations,h⟩ := h
  simp only [KgWrite.write,Stores.writeRow]
  split <;> cases o <;> rw [Stores.Flushed,h] <;> exact ⟨_,_,rfl⟩

theorem settles_deleteRows {objects : List Object} (h : s.Flushed) :
    ((kgWriter b).run (objects.map .deleteRow ++ [.persistTracking true true]) s).mem =
      ((kgWriter b).run (objects.map .deleteRow ++ [.persistTracking true true]) s).disk := by
  induction objects generalizing s with
  | nil =>
    obtain ⟨entities,relations,h⟩ := h
    change s.mem = { s.disk with
      entityChunks := s.mem.entityChunks, relationChunks := s.mem.relationChunks }
    rw [h]
  | cons o objects ih => exact ih (flushed_deleteRow h)

theorem settles_stagedEdit {ids : List ChunkId} (rows : Option (List ChunkId × List ChunkId)) :
    ((kgWriter b).run (stagedEdit o rows (citing ids o)) ⟨r, r⟩).mem =
      ((kgWriter b).run (stagedEdit o rows (citing ids o)) ⟨r, r⟩).disk := by
  cases b with | mk entitiesDeferred relationsDeferred =>
  unfold stagedEdit
  cases rows with
  | none => cases o <;> rfl
  | some rows =>
    by_cases hsame : sameIds rows.2 rows.1 <;> simp only [hsame,if_true] <;>
      cases o <;> cases entitiesDeferred <;> cases relationsDeferred <;> rfl

theorem Edit.settles (e : Edit) :
    ((kgWriter b).run (e.writes r) ⟨r, r⟩).mem = ((kgWriter b).run (e.writes r) ⟨r, r⟩).disk := by
  cases b with | mk entitiesDeferred relationsDeferred =>
  cases e with
  | createEntity name sourceId =>
    simp only [writes,acreateEntity]
    split <;> cases entitiesDeferred <;> rfl
  | createRelation p sourceId =>
    simp only [writes,acreateRelation]
    split <;> cases relationsDeferred <;> rfl
  | editEntity name sourceId =>
    simp only [writes,Knowledge.editEntity]
    split
    · rfl
    · exact settles_stagedEdit (o := .entity name) _
  | editRelation p sourceId =>
    simp only [writes,aeditRelation]
    split
    · rfl
    · exact settles_stagedEdit (o := .relation p) _
  | deleteEntity e =>
    simp only [writes,adeleteByEntity]
    split
    · have hrows : (r.graph.nodeEdges e).map (fun p => KgWrite.deleteRow (.relation p)) ++
          [.deleteRow (.entity e), .persistTracking true true] =
          ((r.graph.nodeEdges e).map Object.relation ++ [Object.entity e]).map .deleteRow ++
            [.persistTracking true true] := by simp
      rw [append_assoc,hrows]
      exact settles_deleteRows ⟨_,_,rfl⟩
    · split <;> cases entitiesDeferred <;> rfl
  | deleteRelation p =>
    simp only [writes,adeleteByRelation]
    split
    · cases relationsDeferred <;> rfl
    · split <;> cases relationsDeferred <;> rfl

theorem Stores.Backed.run {ws : List KgWrite} (h : s.Backed) (hws : Permitted b ws s) :
    ((kgWriter b).run ws s).Backed := by
  induction ws generalizing s with
  | nil => exact h
  | cons w ws ih => exact ih (h.write hws.1) hws.2

theorem Stores.Settled.permitted (h : s.Settled) (e : Edit) : Permitted b (e.writes s.mem) s := by
  cases s
  cases h.1
  exact e.permitted h.2

theorem Stores.Backed.restart (h : s.Backed) : Stores.Backed ⟨s.disk, s.disk⟩ :=
  fun o row hrow c hc => h o row (.inr (or_self_iff.mp hrow)) c (.inr (or_self_iff.mp hc))

theorem Edit.Step.settled {e : Edit} (h : Edit.Step b s e t) (hs : s.Settled) : t.Settled := by
  cases h with
  | done =>
    refine ⟨?_,hs.2.run (hs.permitted e)⟩
    cases s
    cases hs.1
    exact e.settles
  | cut hcut => exact ⟨rfl,(hs.2.cut (hs.permitted e) hcut).restart⟩

/-- Whatever edits are made and wherever the process ends in them, and wherever it ends in the next
one, no row misses a chunk that its object cites. -/
theorem edits_keep_backed {es : List Edit} (h₀ : s₀.Settled) (hrun : Run (Edit.Step b) s₀ es s) :
    s.Settled ∧ ∀ (e : Edit) (t : Stores), (kgWriter b).Cut s (e.writes s.mem) t → t.Backed := by
  have hsettled := hrun.preserves (fun _ _ _ hstep => hstep.settled) h₀
  exact ⟨hsettled,fun e t hcut => hsettled.2.cut (hsettled.permitted e) hcut⟩

theorem edits_keep_backed_first :
    let s := (kgWriter ⟨true, false⟩).run (acreateEntity "a" ["c1"] Store.empty)
      ⟨Store.empty, Store.empty⟩
    s.Settled ∧ ∀ (e : Edit) (t : Stores), (kgWriter ⟨true, false⟩).Cut s (e.writes s.mem) t →
      t.Backed :=
  have hrun := Run.cons (.done ⟨Store.empty, Store.empty⟩ (.createEntity "a" ["c1"])) (.nil _)
  edits_keep_backed ⟨rfl,by
    intro o row hrow
    cases o <;> cases or_self_iff.mp hrow⟩ hrun

end
end LightRAG.Knowledge
