import LightRAG.Framework.Separated
import LightRAG.Knowledge.GraphEdits
import LightRAG.Knowledge.Merge
import Mathlib.Data.Rat.Defs

/-!
# The keys of a relation in the other stores

The vector record and the tracking row of a relation are stored under texts made of its two names.
-/

namespace LightRAG.Knowledge.RelationKeys

def graphFieldSep : String := "<SEP>"

/-- `sorted((src, tgt))` -/
def sortedEnds (src tgt : Name) : Name × Name := if tgt < src then (tgt, src) else (src, tgt)

def makeRelationChunkKey (src tgt : Name) : String :=
  (sortedEnds src tgt).1 ++ graphFieldSep ++ (sortedEnds src tgt).2

section

variable (hash : String → String)

/-- `compute_mdhash_id(content, prefix="rel-")`, over `compute_args_hash`. -/
def relationId (content : String) : String := "rel-" ++ hash content

def makeRelationVdbIds (src tgt : Name) : List String :=
  let ends := sortedEnds src tgt
  let normalized := relationId hash (ends.1 ++ ends.2)
  let reverse := relationId hash (ends.2 ++ ends.1)
  if reverse = normalized then [normalized] else [normalized, reverse]

end

/-- What an operation makes of the texts and weights of a relation. -/
structure RelationData where
  content : String
  keywords : String
  description : String
  weight : ℚ
  filePath : Option String
deriving DecidableEq

/-- A record of `relationships_vdb`. -/
structure VectorRecord extends RelationData where
  srcId : Name
  tgtId : Name
  sourceId : List ChunkId
deriving DecidableEq

structure RelationStores where
  graph : Graph
  relationshipsVdb : Dict String VectorRecord
  relationChunks : Dict String (List ChunkId)

inductive Call
  | upsertVector (id : String) (record : VectorRecord)
  | deleteVectors (ids : List String)
  | upsertRow (key : String) (chunkIds : List ChunkId)
  | deleteRows (keys : List String)
  | upsertEdge (p : Pair) (edge : Edge)
  | removeEdges (ps : List Pair)

def Call.apply : Call → RelationStores → RelationStores
  | .upsertVector id record, s => { s with relationshipsVdb := s.relationshipsVdb.set id record }
  | .deleteVectors ids, s => { s with relationshipsVdb := s.relationshipsVdb.drop (· ∈ ids) }
  | .upsertRow key ids, s => { s with relationChunks := s.relationChunks.set key ids }
  | .deleteRows keys, s => { s with relationChunks := s.relationChunks.drop (· ∈ keys) }
  | .upsertEdge p edge, s => { s with graph := s.graph.upsertEdge p edge }
  | .removeEdges ps, s => { s with graph := s.graph.removeEdges ps }

def runCalls (calls : List Call) (s : RelationStores) : RelationStores :=
  calls.foldl (fun s call => call.apply s) s

inductive Operation
  /-- `_merge_edges_then_upsert` -/
  | merge (edgesData : List ChunkId) (data : RelationData)
  /-- `_rebuild_single_relationship`; `found` says whether it has something to rebuild from. -/
  | rebuild (chunkIds : List ChunkId) (found : Bool) (data : RelationData)
  /-- `aedit_relation` -/
  | edit (sourceId : Option (List ChunkId)) (data : RelationData)
  /-- `_purge_kg_contributions` on the row of a relation that stays. -/
  | purgeRow (remaining : List ChunkId)
  /-- `_purge_kg_contributions` on a relation that goes. -/
  | purge
  /-- `adelete_by_relation` -/
  | delete

section

variable (cfg : KgConfig) (hash : String → String) (src tgt : Name) (s : RelationStores)

def limitIds (ids : List ChunkId) : List ChunkId :=
  applySourceIdsLimit ids cfg.maxSourceIdsPerRelation cfg.sourceIdsLimitMethod

/-- `[rel_vdb_id, rel_vdb_id_reverse]` of two names in the order given. -/
def bothIds (src tgt : Name) : List String :=
  [relationId hash (src ++ tgt), relationId hash (tgt ++ src)]

def replaceVector (sourceId : List ChunkId) (data : RelationData) : List Call :=
  let ends := sortedEnds src tgt
  [.deleteVectors (bothIds hash ends.1 ends.2),
    .upsertVector (relationId hash (ends.1 ++ ends.2))
      { data with srcId := ends.1, tgtId := ends.2, sourceId := sourceId }]

def edgeSourceId : List ChunkId := ((s.graph.getEdge s(src, tgt)).bind Edge.sourceId).getD []

def existingFullSourceIds : List ChunkId :=
  match s.relationChunks.get (makeRelationChunkKey src tgt) with
  | some row => evidenceOnly row
  | none => evidenceOnly (edgeSourceId src tgt s)

def mergeCalls (edgesData : List ChunkId) (data : RelationData) : List Call :=
  if src = tgt then []
  else
    let existingFull := existingFullSourceIds src tgt s
    let full := mergeSourceIds existingFull (truthy edgesData)
    let sourceIds := limitIds cfg full
    (if full = [] then [] else [.upsertRow (makeRelationChunkKey src tgt) full]) ++
      if skipsMerge cfg cfg.maxSourceIdsPerRelation existingFull sourceIds edgesData then []
      else .upsertEdge s(src, tgt) ⟨some sourceIds⟩ :: replaceVector hash src tgt sourceIds data

def rebuildCalls (chunkIds : List ChunkId) (found : Bool) (data : RelationData) : List Call :=
  if (s.graph.getEdge s(src, tgt)).isNone then []
  else
    let normalized := evidenceOnly chunkIds
    let limited := limitIds cfg normalized
    (if chunkIds = [] then [] else [.upsertRow (makeRelationChunkKey src tgt) normalized]) ++
      if found then
        .upsertEdge s(src, tgt) ⟨some limited⟩ :: replaceVector hash src tgt limited data
      else []

def editCalls (sourceId : Option (List ChunkId)) (data : RelationData) : List Call :=
  if (s.graph.getEdge s(src, tgt)).isNone then []
  else
    let key := makeRelationChunkKey src tgt
    let oldSourceId := edgeSourceId src tgt s
    let newSourceId := sourceId.getD oldSourceId
    let write := Call.upsertEdge s(src, tgt) ⟨some newSourceId⟩
    (match relationRows (s.relationChunks.get key) oldSourceId newSourceId with
      | none => [write]
      | some (final, superset) =>
        [.upsertRow key superset, write] ++
          if sameIds superset final then [] else [.upsertRow key final]) ++
      replaceVector hash src tgt newSourceId data

def purgeRowCalls (remaining : List ChunkId) : List Call :=
  if remaining = [] then []
  else
    let tracked := remaining.filter fun c => c ∉ relationNoEvidenceSourceIds
    [.upsertRow (makeRelationChunkKey src tgt) tracked]

/-- The pair stands sorted in `relationships_to_delete`. -/
def purgeCalls : List Call :=
  let ends := sortedEnds src tgt
  [.deleteVectors (bothIds hash ends.1 ends.2), .removeEdges [s(src, tgt)],
    .deleteRows [makeRelationChunkKey ends.1 ends.2]]

def deleteCalls : List Call :=
  let ends := sortedEnds src tgt
  let key := makeRelationChunkKey ends.1 ends.2
  if (s.graph.getEdge s(src, tgt)).isNone then
    if (s.relationChunks.get key).isNone then [] else [.deleteRows [key]]
  else
    [.deleteVectors (bothIds hash ends.1 ends.2), .removeEdges [s(src, tgt)], .deleteRows [key]]

/-- The calls that an operation makes, in their order, if none fails. -/
def Operation.calls : Operation → List Call
  | .merge edgesData data => mergeCalls cfg hash src tgt s edgesData data
  | .rebuild chunkIds found data => rebuildCalls cfg hash src tgt s chunkIds found data
  | .edit sourceId data => editCalls hash src tgt s sourceId data
  | .purgeRow remaining => purgeRowCalls src tgt remaining
  | .purge => purgeCalls hash src tgt
  | .delete => deleteCalls hash src tgt s

end

end LightRAG.Knowledge.RelationKeys

/-!
## Which relations share a key

Two relations have a vector id in common when the names of one arise from those of the other by
moving text over the boundary between them, and they have a tracking row in common when such a
text stands beside a separator.
-/

namespace LightRAG.Knowledge.RelationKeys
open List

variable {cfg : KgConfig} {hash : String → String} {src tgt x y u v : Name} {p q : Pair}
  {s : RelationStores} {id key : String} {call : Call} {calls : List Call} {g : Graph}

/-- The names `x`, `y` and `u`, `v` differ by a text moved over the boundary. -/
def Regrouped (sep : String) (x y u v : Name) : Prop :=
  Separated.Regrouped sep.toList x.toList y.toList u.toList v.toList

theorem joined_eq_iff {sep : String} (hborder : Separated.Borderless sep.toList) :
    x ++ sep ++ y = u ++ sep ++ v ↔ (x = u ∧ y = v) ∨ Regrouped sep x y u v := by
  rw [← String.toList_inj,← String.toList_inj,← String.toList_inj]
  simp only [String.toList_append,append_assoc]
  exact Separated.append_append_eq_iff hborder

theorem concat_eq_iff : x ++ y = u ++ v ↔ (x = u ∧ y = v) ∨ Regrouped "" x y u v := by
  have hempty : Separated.Borderless "".toList := fun k hk => absurd hk (Nat.not_lt_zero k)
  have h := joined_eq_iff (x := x) (y := y) (u := u) (v := v) hempty
  rwa [String.append_empty,String.append_empty] at h

theorem sortedEnds_eq : sortedEnds src tgt = (s(src, tgt).inf, s(src, tgt).sup) := by
  rw [sortedEnds,Sym2.inf_mk,Sym2.sup_mk]
  split
  · rename_i h
    rw [inf_eq_right.mpr h.le,sup_eq_left.mpr h.le]
  · rename_i h
    rw [inf_eq_left.mpr (le_of_not_gt h),sup_eq_right.mpr (le_of_not_gt h)]

/-- `make_relation_chunk_key` on the ends of a relation. -/
def chunkKey (p : Pair) : String := p.inf ++ graphFieldSep ++ p.sup

theorem makeRelationChunkKey_eq : makeRelationChunkKey src tgt = chunkKey s(src, tgt) := by
  rw [makeRelationChunkKey,sortedEnds_eq,chunkKey]

def VectorIdOf (hash : String → String) (p : Pair) (id : String) : Prop :=
  ∃ x y, s(x, y) = p ∧ id = relationId hash (x ++ y)

theorem mem_bothIds : id ∈ bothIds hash src tgt ↔ VectorIdOf hash s(src, tgt) id := by
  rw [bothIds,mem_cons,mem_singleton]
  constructor
  · rintro (rfl | rfl)
    · exact ⟨src,tgt,rfl,rfl⟩
    · exact ⟨tgt,src,Sym2.eq_swap,rfl⟩
  · rintro ⟨x,y,hpair,rfl⟩
    rcases Sym2.eq_iff.mp hpair with ⟨rfl,rfl⟩ | ⟨rfl,rfl⟩
    · exact .inl rfl
    · exact .inr rfl

theorem pair_sortedEnds : s((sortedEnds src tgt).1, (sortedEnds src tgt).2) = s(src, tgt) := by
  rw [sortedEnds]
  split
  · exact Sym2.eq_swap
  · rfl

theorem mem_makeRelationVdbIds :
    id ∈ makeRelationVdbIds hash src tgt ↔ VectorIdOf hash s(src, tgt) id := by
  rw [← pair_sortedEnds,← mem_bothIds,bothIds,makeRelationVdbIds]
  split
  · rename_i hsame
    rw [hsame]
    simp
  · rfl

/-- No text over the boundary of the names of one relation gives those of another. -/
structure Distinct (p q : Pair) : Prop where
  concat : ∀ x y u v, s(x, y) = p → s(u, v) = q → ¬ Regrouped "" x y u v
  join : ¬ Regrouped graphFieldSep p.inf p.sup q.inf q.sup

theorem not_vectorIdOf (hinj : Function.Injective hash) (hne : q ≠ p) (hdistinct : Distinct p q)
    (hid : VectorIdOf hash q id) : ¬ VectorIdOf hash p id := by
  rintro ⟨x,y,hp,rfl⟩
  obtain ⟨u,v,hq,heq⟩ := hid
  have hconcat : x ++ y = u ++ v := by
    apply hinj
    rw [relationId,relationId,← String.toList_inj,String.toList_append,String.toList_append] at heq
    exact String.toList_inj.mp (append_cancel_left heq)
  rcases concat_eq_iff.mp hconcat with ⟨rfl,rfl⟩ | hregrouped
  · exact hne (hq.symm.trans hp)
  · exact hdistinct.concat x y u v hp hq hregrouped

theorem borderless_graphFieldSep : Separated.Borderless graphFieldSep.toList := by decide

theorem pair_ends (p : Pair) : s(p.inf, p.sup) = p := by
  induction p using Sym2.ind with
  | _ a b =>
    have hends : s((sortedEnds a b).1, (sortedEnds a b).2) = s(a, b) := pair_sortedEnds
    rwa [sortedEnds_eq] at hends

theorem chunkKey_eq_iff :
    chunkKey p = chunkKey q ↔ p = q ∨ Regrouped graphFieldSep p.inf p.sup q.inf q.sup := by
  rw [chunkKey,chunkKey,joined_eq_iff borderless_graphFieldSep]
  constructor
  · rintro (⟨hinf,hsup⟩ | h)
    · exact .inl (by rw [← pair_ends p,← pair_ends q,hinf,hsup])
    · exact .inr h
  · rintro (rfl | h)
    · exact .inl ⟨rfl,rfl⟩
    · exact .inr h

/-- A call that writes nothing but the records and the row of one relation. -/
def Call.Within (hash : String → String) (p : Pair) : Call → Prop
  | .upsertVector id _ => VectorIdOf hash p id
  | .deleteVectors ids => ∀ id ∈ ids, VectorIdOf hash p id
  | .upsertRow key _ => key = chunkKey p
  | .deleteRows keys => ∀ key ∈ keys, key = chunkKey p
  | .upsertEdge _ _ => True
  | .removeEdges _ => True

def Unchanged (hash : String → String) (q : Pair) (s s' : RelationStores) : Prop :=
  (∀ id, VectorIdOf hash q id → s'.relationshipsVdb.get id = s.relationshipsVdb.get id) ∧
    s'.relationChunks.get (chunkKey q) = s.relationChunks.get (chunkKey q)

theorem Call.Within.unchanged (hwithin : call.Within hash p)
    (hids : ∀ id, VectorIdOf hash q id → ¬ VectorIdOf hash p id) (hkey : chunkKey q ≠ chunkKey p)
    (s : RelationStores) : Unchanged hash q s (call.apply s) := by
  cases call with
  | upsertVector id' record =>
    refine ⟨fun id hid => ?_,rfl⟩
    apply Dict.get_set.trans
    rw [if_neg]
    rintro rfl
    exact hids id hid hwithin
  | deleteVectors ids =>
    refine ⟨fun id hid => ?_,rfl⟩
    apply Dict.get_drop.trans
    rw [if_neg]
    exact fun hmem => hids id hid (hwithin id hmem)
  | upsertRow key ids =>
    refine ⟨fun _ _ => rfl,?_⟩
    apply Dict.get_set.trans
    rw [if_neg]
    exact fun heq => hkey (heq.trans hwithin)
  | deleteRows keys =>
    refine ⟨fun _ _ => rfl,?_⟩
    apply Dict.get_drop.trans
    rw [if_neg]
    exact fun hmem => hkey (hwithin _ hmem)
  | upsertEdge p' edge => exact ⟨fun _ _ => rfl,rfl⟩
  | removeEdges ps => exact ⟨fun _ _ => rfl,rfl⟩

theorem runCalls_unchanged (hwithin : ∀ call ∈ calls, call.Within hash p)
    (hids : ∀ id, VectorIdOf hash q id → ¬ VectorIdOf hash p id) (hkey : chunkKey q ≠ chunkKey p)
    (s : RelationStores) : Unchanged hash q s (runCalls calls s) := by
  induction calls generalizing s with
  | nil => exact ⟨fun _ _ => rfl,rfl⟩
  | cons call calls ih =>
    have hhead := (hwithin call mem_cons_self).unchanged hids hkey s
    have htail := ih (fun c hc => hwithin c (mem_cons_of_mem call hc)) (call.apply s)
    exact ⟨fun id hid => (htail.1 id hid).trans (hhead.1 id hid),htail.2.trans hhead.2⟩

theorem within_replaceVector (sourceId : List ChunkId) (data : RelationData) :
    ∀ call ∈ replaceVector hash src tgt sourceId data, call.Within hash s(src, tgt) := by
  intro call hcall
  rw [replaceVector,mem_cons,mem_singleton] at hcall
  rw [← pair_sortedEnds]
  rcases hcall with rfl | rfl
  · intro id hid
    exact mem_bothIds.mp hid
  · exact ⟨_,_,rfl,rfl⟩

theorem within_upsertRow (ids : List ChunkId) :
    (Call.upsertRow (makeRelationChunkKey src tgt) ids).Within hash s(src, tgt) :=
  makeRelationChunkKey_eq

theorem within_deleteRows : (Call.deleteRows [makeRelationChunkKey (sortedEnds src tgt).1
    (sortedEnds src tgt).2]).Within hash s(src, tgt) := by
  intro key hkey
  rw [mem_singleton.mp hkey,makeRelationChunkKey_eq,pair_sortedEnds]

theorem within_deleteVectors : (Call.deleteVectors (bothIds hash (sortedEnds src tgt).1
    (sortedEnds src tgt).2)).Within hash s(src, tgt) := by
  intro id hid
  rw [← pair_sortedEnds]
  exact mem_bothIds.mp hid

theorem within_upsertEdge (edge : Edge) : (Call.upsertEdge s(src, tgt) edge).Within hash p :=
  trivial

theorem within_rowUnless (c : Prop) [Decidable c] (ids : List ChunkId) :
    ∀ call ∈ (if c then [] else [Call.upsertRow (makeRelationChunkKey src tgt) ids]),
      call.Within hash s(src, tgt) := by
  split
  · exact forall_mem_nil _
  · exact forall_mem_singleton.mpr (within_upsertRow ids)

theorem within_mergeCalls (edgesData : List ChunkId) (data : RelationData) :
    ∀ call ∈ mergeCalls cfg hash src tgt s edgesData data, call.Within hash s(src, tgt) := by
  rw [mergeCalls]
  split
  · exact forall_mem_nil _
  · rw [forall_mem_append]
    refine ⟨within_rowUnless _ _,?_⟩
    split
    · exact forall_mem_nil _
    · exact forall_mem_cons.mpr ⟨within_upsertEdge _,within_replaceVector _ data⟩

theorem within_rebuildCalls (chunkIds : List ChunkId) (found : Bool) (data : RelationData) :
    ∀ call ∈ rebuildCalls cfg hash src tgt s chunkIds found data,
      call.Within hash s(src, tgt) := by
  rw [rebuildCalls]
  split
  · exact forall_mem_nil _
  · rw [forall_mem_append]
    refine ⟨within_rowUnless _ _,?_⟩
    split
    · exact forall_mem_cons.mpr ⟨within_upsertEdge _,within_replaceVector _ data⟩
    · exact forall_mem_nil _

theorem within_editCalls (sourceId : Option (List ChunkId)) (data : RelationData) :
    ∀ call ∈ editCalls hash src tgt s sourceId data, call.Within hash s(src, tgt) := by
  rw [editCalls]
  split
  · exact forall_mem_nil _
  · rw [forall_mem_append]
    refine ⟨?_,within_replaceVector _ data⟩
    split
    · exact forall_mem_singleton.mpr (within_upsertEdge _)
    · rw [forall_mem_append]
      refine ⟨?_,within_rowUnless _ _⟩
      rw [forall_mem_cons]
      exact ⟨within_upsertRow _,forall_mem_singleton.mpr (within_upsertEdge _)⟩

theorem within_removal (ps : List Pair) :
    ∀ call ∈ [Call.deleteVectors (bothIds hash (sortedEnds src tgt).1 (sortedEnds src tgt).2),
      .removeEdges ps, .deleteRows [makeRelationChunkKey (sortedEnds src tgt).1
        (sortedEnds src tgt).2]], call.Within hash s(src, tgt) := by
  rw [forall_mem_cons,forall_mem_cons]
  exact ⟨within_deleteVectors,trivial,forall_mem_singleton.mpr within_deleteRows⟩

theorem within_deleteCalls :
    ∀ call ∈ deleteCalls hash src tgt s, call.Within hash s(src, tgt) := by
  rw [deleteCalls]
  split
  · split
    · exact forall_mem_nil _
    · exact forall_mem_singleton.mpr within_deleteRows
  · exact within_removal _

theorem within_calls (op : Operation) :
    ∀ call ∈ op.calls cfg hash src tgt s, call.Within hash s(src, tgt) := by
  cases op with
  | merge edgesData data => exact within_mergeCalls edgesData data
  | rebuild chunkIds found data => exact within_rebuildCalls chunkIds found data
  | edit sourceId data => exact within_editCalls sourceId data
  | purgeRow remaining =>
    exact within_rowUnless _ _
  | purge => exact within_removal _
  | delete => exact within_deleteCalls

/-- Whatever calls of whatever operation on one relation of the graph get through, the records and
the rows of the others stay. -/
def Isolated (hash : String → String) (g : Graph) : Prop :=
  ∀ cfg s, s.graph = g → ∀ src tgt q, g.getEdge s(src, tgt) ≠ none → g.getEdge q ≠ none →
    q ≠ s(src, tgt) → ∀ op : Operation, ∀ calls, calls.Sublist (op.calls cfg hash src tgt s) →
      Unchanged hash q s (runCalls calls s)

theorem isolated_of_distinct (hinj : Function.Injective hash)
    (hdistinct : ∀ p q, g.getEdge p ≠ none → g.getEdge q ≠ none → p ≠ q → Distinct p q) :
    Isolated hash g := by
  intro cfg s _ src tgt q hp hq hne op calls hcalls
  have hseparate := hdistinct s(src, tgt) q hp hq (Ne.symm hne)
  apply runCalls_unchanged (fun call hcall => within_calls op call (hcalls.subset hcall))
  · exact fun id => not_vectorIdOf hinj hne hseparate
  · intro heq
    rcases chunkKey_eq_iff.mp heq.symm with hsame | hregrouped
    · exact hne hsame.symm
    · exact hseparate.join hregrouped

def storedRecord (q : Pair) : VectorRecord := ⟨⟨"", "", "", 1, none⟩, q.inf, q.sup, []⟩

/-- The stores in which the relation `q` has a record under `id`, and a row. -/
def storesWith (g : Graph) (id : String) (q : Pair) : RelationStores where
  graph := g
  relationshipsVdb := Dict.empty.set id (storedRecord q)
  relationChunks := Dict.empty.set (chunkKey q) []

theorem distinct_of_isolated (hisolated : Isolated hash g) (hp : g.getEdge p ≠ none)
    (hq : g.getEdge q ≠ none) (hne : p ≠ q) : Distinct p q := by
  have hedge : g.getEdge s(p.inf, p.sup) ≠ none := by rwa [pair_ends]
  have hother : q ≠ s(p.inf, p.sup) := by
    rw [pair_ends]
    exact hne.symm
  have hpurged : ∀ id, Unchanged hash q (storesWith g id q)
      (runCalls (purgeCalls hash p.inf p.sup) (storesWith g id q)) :=
    fun id => hisolated ⟨0,0,.keep⟩ (storesWith g id q) rfl p.inf p.sup q hedge hq hother .purge _
      (List.Sublist.refl _)
  have hends : sortedEnds p.inf p.sup = (p.inf, p.sup) := by
    rw [sortedEnds_eq,pair_ends]
  rw [purgeCalls,hends,makeRelationChunkKey_eq,pair_ends] at hpurged
  constructor
  case concat =>
    intro x y u v hxy huv hregrouped
    have hsame : x ++ y = u ++ v := concat_eq_iff.mpr (.inr hregrouped)
    have hid : VectorIdOf hash q (relationId hash (x ++ y)) := ⟨u,v,huv,by rw [hsame]⟩
    have hdeleted : relationId hash (x ++ y) ∈ bothIds hash p.inf p.sup := by
      rw [mem_bothIds,pair_ends]
      exact ⟨x,y,hxy,rfl⟩
    have hkept := (hpurged (relationId hash (x ++ y))).1 _ hid
    change Dict.get (Dict.drop _ _) _ = Dict.get (Dict.set _ _ _) _ at hkept
    rw [Dict.get_drop,if_pos hdeleted,Dict.get_set,if_pos rfl] at hkept
    cases hkept
  case join =>
    intro hregrouped
    have hsame : chunkKey p = chunkKey q := chunkKey_eq_iff.mpr (.inr hregrouped)
    have hkept := (hpurged "").2
    change Dict.get (Dict.drop _ _) _ = Dict.get (Dict.set _ _ _) _ at hkept
    rw [Dict.get_drop,if_pos (mem_singleton.mpr hsame.symm),Dict.get_set,if_pos rfl] at hkept
    cases hkept

def KeysApart (hash : String → String) (g : Graph) : Prop :=
  ∀ src tgt src' tgt', g.getEdge s(src, tgt) ≠ none → g.getEdge s(src', tgt') ≠ none →
    s(src, tgt) ≠ s(src', tgt') →
      (makeRelationVdbIds hash src tgt).Disjoint (makeRelationVdbIds hash src' tgt') ∧
        makeRelationChunkKey src tgt ≠ makeRelationChunkKey src' tgt'

theorem keysApart_of_distinct (hinj : Function.Injective hash)
    (hdistinct : ∀ p q, g.getEdge p ≠ none → g.getEdge q ≠ none → p ≠ q → Distinct p q) :
    KeysApart hash g := by
  intro src tgt src' tgt' hp hq hne
  have hseparate := hdistinct _ _ hp hq hne
  constructor
  · intro id hid hid'
    rw [mem_makeRelationVdbIds] at hid hid'
    exact not_vectorIdOf hinj hne.symm hseparate hid' hid
  · rw [makeRelationChunkKey_eq,makeRelationChunkKey_eq]
    intro heq
    exact (chunkKey_eq_iff.mp heq).elim hne hseparate.join

/-- The relations of a graph are kept apart in the other stores exactly when no two of them have
names that a text moved over the boundary turns into each other. -/
theorem isolated_and_keysApart_iff (hinj : Function.Injective hash) (g : Graph) :
    Isolated hash g ∧ KeysApart hash g ↔
      ∀ p q, g.getEdge p ≠ none → g.getEdge q ≠ none → p ≠ q → Distinct p q := by
  constructor
  · intro h p q hp hq hne
    exact distinct_of_isolated h.1 hp hq hne
  · intro hdistinct
    exact ⟨isolated_of_distinct hinj hdistinct,keysApart_of_distinct hinj hdistinct⟩

def twoRelations (p q : Pair) : Graph :=
  (Graph.empty.upsertEdge p ⟨none⟩).upsertEdge q ⟨none⟩

theorem getEdge_twoRelations {r : Pair} : (twoRelations p q).getEdge r ≠ none ↔ r = p ∨ r = q := by
  rw [twoRelations,Graph.getEdge_upsertEdge,Graph.getEdge_upsertEdge]
  split
  · simp_all
  · split
    · simp_all
    · simp_all [Graph.getEdge,Graph.empty,Dict.get_eq_none,Dict.keys,Dict.empty]

theorem prefix_of_regrouped {sep : String} (h : Regrouped sep x y u v) :
    x.toList <+: u.toList ∨ u.toList <+: x.toList := by
  rcases h with ⟨t,hu,-⟩ | ⟨t,hx,-⟩
  · exact .inl (hu ▸ prefix_append x.toList _)
  · exact .inr (hx ▸ prefix_append u.toList _)

theorem distinct_of_not_prefix (h : ∀ x ∈ p, ∀ u ∈ q, ¬ x.toList <+: u.toList)
    (h' : ∀ x ∈ p, ∀ u ∈ q, ¬ u.toList <+: x.toList) : Distinct p q := by
  have hapart : ∀ sep x y u v, x ∈ p → u ∈ q → ¬ Regrouped sep x y u v :=
    fun sep x y u v hx hu hregrouped =>
      (prefix_of_regrouped hregrouped).elim (h x hx u hu) (h' x hx u hu)
  constructor
  case concat =>
    rintro x y u v rfl rfl
    exact hapart "" x y u v (Sym2.mem_mk_left x y) (Sym2.mem_mk_left u v)
  case join => exact hapart _ _ _ _ _ (mem_pair.mpr (.inl rfl)) (mem_pair.mpr (.inl rfl))

theorem isolated_ab_cd :
    Isolated (fun content => content) (twoRelations s("a", "b") s("c", "d")) ∧
      KeysApart (fun content => content) (twoRelations s("a", "b") s("c", "d")) := by
  apply (isolated_and_keysApart_iff Function.injective_id _).mpr
  intro p q hp hq hne
  apply distinct_of_not_prefix
  all_goals
    rcases getEdge_twoRelations.mp hp with rfl | rfl
    all_goals
      rcases getEdge_twoRelations.mp hq with rfl | rfl
      all_goals first | exact absurd rfl hne | simp [Sym2.mem_iff]

/-- `ab`, `c` and `a`, `bc` share their vector ids, so that neither is safe from the other. -/
theorem not_isolated_ab_c :
    (∀ p, (twoRelations s("ab", "c") s("a", "bc")).getEdge p ≠ none → ∀ e ∈ p, e ≠ "") ∧
      (∀ hash, ¬ Isolated hash (twoRelations s("ab", "c") s("a", "bc"))) ∧
      makeRelationChunkKey "a<SEP>b" "c" = makeRelationChunkKey "a" "b<SEP>c" := by
  refine ⟨?_,?_,by decide⟩
  · intro p hp e he
    rcases getEdge_twoRelations.mp hp with rfl | rfl
    · rcases Sym2.mem_iff.mp he with rfl | rfl
      · decide
      · decide
    · rcases Sym2.mem_iff.mp he with rfl | rfl
      · decide
      · decide
  · intro hash hisolated
    have hdistinct := distinct_of_isolated hisolated (getEdge_twoRelations.mpr (.inl rfl))
      (getEdge_twoRelations.mpr (.inr rfl)) (by decide)
    exact hdistinct.concat "ab" "c" "a" "bc" rfl rfl (.inr ⟨['b'],rfl,rfl⟩)

end LightRAG.Knowledge.RelationKeys
