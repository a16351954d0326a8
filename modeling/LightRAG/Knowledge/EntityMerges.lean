import LightRAG.Knowledge.AttributionRuns
import LightRAG.Knowledge.RelationKeys
import LightRAG.Knowledge.WeightedMerge

/-!
# Merging entities

`_merge_entities_impl` on the graph with the weights of its relations and on the tracking rows of
relations under the keys of their storage.
-/

namespace LightRAG.Knowledge
open List

open RelationKeys (chunkKey)

/-- The attributes of a relation; `none` where it has no such attribute. -/
structure EdgeData where
  sourceId : Option (List ChunkId)
  weight : Option ℚ
deriving DecidableEq

namespace EdgeData

def ids (d : EdgeData) : List ChunkId := truthy (d.sourceId.getD [])

/-- `apply_relation_weight_floor` on the attributes. -/
def floored (d : EdgeData) : EdgeData :=
  { d with weight := some (max (d.weight.getD 1) (evidenceCount (d.sourceId.getD []))) }

/-- The strategy `max` of the weights that are there. -/
def maxWeight (existing new : Option ℚ) : Option ℚ :=
  match existing, new with
  | some a, some b => some (max a b)
  | some a, none => some a
  | none, b => b

/-- `_merge_attributes` with the strategies of relations. -/
def merge (existing new : EdgeData) : EdgeData where
  sourceId := EntityMerge.joinSourceIds existing.sourceId new.sourceId
  weight := maxWeight existing.weight new.weight

end EdgeData

structure WeightedStores where
  graph : Graph
  weight : Pair → Option ℚ
  relationChunks : Dict String (List ChunkId)

def onGraph (g : Graph) : Store := { Store.empty with graph := g }

namespace WeightedStores

variable (s : WeightedStores)

def getEdge (p : Pair) : Option EdgeData :=
  (s.graph.getEdge p).map fun edge => ⟨edge.sourceId, s.weight p⟩

def edgeData (p : Pair) : EdgeData := (s.getEdge p).getD ⟨none, none⟩

/-- `upsert_edge`: attributes that are not given stay. -/
def upsertEdge (p : Pair) (d : EdgeData) : WeightedStores where
  graph := s.graph.upsertEdge p ⟨d.sourceId.or (s.edgeData p).sourceId⟩
  weight := Function.update s.weight p (d.weight.or (s.edgeData p).weight)
  relationChunks := s.relationChunks

def upsertEdges (edges : List (Pair × EdgeData)) : WeightedStores :=
  edges.foldl (fun s e => s.upsertEdge e.1 e.2) s

def upsertNode (e : Name) (node : Node) : WeightedStores :=
  { s with graph := s.graph.upsertNode e node }

def carriedIds (p : Pair) : List ChunkId :=
  match s.relationChunks.get (chunkKey p) with
  | some row => evidenceOnly row
  | none => distinctEvidence ((s.edgeData p).sourceId.getD [])

end WeightedStores

namespace EntityMerge

variable (m : EntityMerge) (s : WeightedStores)

def visited : List Pair := m.keptRelations (onGraph s.graph)

def keyOf (p : Pair) : String := relationKey (m.redirected p)

def startUpdate (p : Pair) : Pair × EdgeData := (m.redirected p, (s.edgeData p).floored)

def mergeUpdate (u : Pair × EdgeData) (p : Pair) : Pair × EdgeData :=
  (u.1, (u.2.merge (s.edgeData p)).floored)

/-- `relation_updates`. -/
def weightedUpdates : Dict String (Pair × EdgeData) :=
  groupBy m.keyOf (m.startUpdate s) (mergeUpdate s) (m.visited s)

def trackUpdate (ids : List ChunkId) (p : Pair) : List ChunkId :=
  mergeSourceIds ids (s.carriedIds p)

/-- `relation_chunk_tracking` under the keys of the storage. -/
def trackingUpdates : Dict String (List ChunkId) :=
  groupBy (fun p => chunkKey (m.redirected p)) (trackUpdate s []) (trackUpdate s) (m.visited s)

def staleRelationKeys : List String :=
  ((m.allRelations (onGraph s.graph)).map chunkKey).dedup.filter
    fun key => key ∉ (m.trackingUpdates s).keys

def entitiesToRemove : List Name := m.sources.filter fun e => e ≠ m.target

def redirectedStores : WeightedStores :=
  (s.upsertNode m.target ⟨true, m.mergedSourceId (onGraph s.graph)⟩).upsertEdges
    ((m.weightedUpdates s).entries.map Prod.snd)

/-- `_merge_entities_impl` on these stores; `none` where a source is missing. -/
def mergeEntitiesImpl : Option WeightedStores :=
  if m.sources.all s.graph.hasNode then
    some {
      graph := (m.redirectedStores s).graph.removeNodes m.entitiesToRemove
      weight := (m.redirectedStores s).weight
      relationChunks := (s.relationChunks.update (m.trackingUpdates s).entries).drop
        fun key => key ∈ m.staleRelationKeys s }
  else none

end EntityMerge

namespace WeightedStores

variable {s : WeightedStores} {p q : Pair} {d : EdgeData} {e : Name} {node : Node}
  {edges : List (Pair × EdgeData)}

def onTop (d : EdgeData) (old : EdgeData) : EdgeData :=
  ⟨d.sourceId.or old.sourceId, d.weight.or old.weight⟩

theorem getEdge_upsertEdge : (s.upsertEdge p d).getEdge q =
    if q = p then some (onTop d (s.edgeData p)) else s.getEdge q := by
  unfold getEdge upsertEdge
  by_cases hq : q = p
  · simp [Graph.getEdge_upsertEdge,hq,onTop]
  · simp [Graph.getEdge_upsertEdge,hq]

theorem getEdge_upsertEdges_of_not_mem (h : p ∉ edges.map Prod.fst) :
    (s.upsertEdges edges).getEdge p = s.getEdge p := by
  induction edges generalizing s with
  | nil => rfl
  | cons x edges ih =>
    rw [map_cons,mem_cons,not_or] at h
    have hrest := ih (s := s.upsertEdge x.1 x.2) h.2
    rw [getEdge_upsertEdge,if_neg h.1] at hrest
    exact hrest

theorem getEdge_upsertEdges_of_mem (hnodup : (edges.map Prod.fst).Nodup) (h : (p, d) ∈ edges) :
    (s.upsertEdges edges).getEdge p = some (onTop d (s.edgeData p)) := by
  induction edges generalizing s with
  | nil => cases h
  | cons x edges ih =>
    rw [map_cons,nodup_cons] at hnodup
    rcases mem_cons.mp h with rfl | hrest
    · have hkept := getEdge_upsertEdges_of_not_mem (s := s.upsertEdge p d) hnodup.1
      rw [getEdge_upsertEdge,if_pos rfl] at hkept
      exact hkept
    · have hne : p ≠ x.1 := by
        rintro rfl
        exact hnodup.1 (mem_map.mpr ⟨_,hrest,rfl⟩)
      have hstep := ih (s := s.upsertEdge x.1 x.2) hnodup.2 hrest
      have hsame : (s.upsertEdge x.1 x.2).edgeData p = s.edgeData p := by
        rw [edgeData,getEdge_upsertEdge,if_neg hne,edgeData]
      rw [hsame] at hstep
      exact hstep

theorem getNode_upsertEdges (h : ∀ x ∈ edges, ∀ e ∈ x.1, s.graph.hasNode e = true) :
    (s.upsertEdges edges).graph.getNode e = s.graph.getNode e := by
  induction edges generalizing s with
  | nil => rfl
  | cons x edges ih =>
    rw [forall_mem_cons] at h
    have hnode : ∀ e, (s.upsertEdge x.1 x.2).graph.getNode e = s.graph.getNode e :=
      fun e => Graph.getNode_upsertEdge h.1
    apply Eq.trans _ (hnode e)
    apply ih
    intro y hy e he
    rw [Graph.hasNode,hnode e]
    exact h.2 y hy e he

end WeightedStores

end LightRAG.Knowledge

/-!
## What a merge of entities does to relations

Two neighbours of the target whose names give one `relation_key` are written as one relation.
-/

namespace LightRAG.Knowledge.EntityMerge
open List

open RelationKeys (chunkKey)

def Other (m : EntityMerge) (x : Name) : Prop := x ≠ m.target ∧ x ∉ m.sources

/-- A relation of the target or of a source with `x`. -/
def Merged (m : EntityMerge) (s : WeightedStores) (x : Name) (p : Pair) : Prop :=
  s.getEdge p ≠ none ∧ ∃ e, (e = m.target ∨ e ∈ m.sources) ∧ p = s(e, x)

/-- Every relation of a source goes to the target, once, and nothing else changes. -/
structure Redirected (m : EntityMerge) (s s' : WeightedStores) : Prop where
  edge : ∀ x, m.Other x → (s'.getEdge s(m.target, x) ≠ none ↔ ∃ p, m.Merged s x p)
  sourceIds : ∀ x d, m.Other x → s'.getEdge s(m.target, x) = some d →
    ∀ c, c ∈ d.ids ↔ ∃ p, m.Merged s x p ∧ c ∈ (s.edgeData p).ids
  weight : ∀ x d, m.Other x → s'.getEdge s(m.target, x) = some d → ∀ p w, m.Merged s x p →
    (s.edgeData p).weight = some w → ∃ w', d.weight = some w' ∧ w ≤ w'
  row : ∀ x p, m.Other x → m.Merged s x p → ∃ row,
    s'.relationChunks.get (chunkKey s(m.target, x)) = some row ∧
      ∀ c, c ∈ row ↔ ∃ p, m.Merged s x p ∧ c ∈ s.carriedIds p
  target : s'.graph.hasNode m.target = true
  removed : ∀ e ∈ m.sources, e ≠ m.target → s'.graph.hasNode e = false
  noLoop : s'.getEdge s(m.target, m.target) = none
  nodes : ∀ x, m.Other x → s'.graph.getNode x = s.graph.getNode x
  edges : ∀ p, (∀ e ∈ p, m.Other e) → s'.getEdge p = s.getEdge p

def writtenAs (m : EntityMerge) (s : WeightedStores) (key : String) : Option Pair :=
  ((m.visited s).find? fun p => m.keyOf p = key).map m.redirected

/-- The target had a relation with `x` to which the merge adds nothing, and nothing of it is new to
the relation with `y`. -/
structure Covered (m : EntityMerge) (s : WeightedStores) (x y : Name) : Prop where
  known : s.getEdge s(m.target, x) ≠ none
  sourceIds : ∀ p, m.Merged s x p → ∀ c ∈ (s.edgeData p).ids, c ∈ (s.edgeData s(m.target, x)).ids
  weight : ∀ p w, m.Merged s x p → (s.edgeData p).weight = some w →
    ∃ w', (s.edgeData s(m.target, x)).weight = some w' ∧ w ≤ w'
  shared : ∀ p, m.Merged s x p → ∀ c ∈ (s.edgeData p).ids,
    ∃ q, m.Merged s y q ∧ c ∈ (s.edgeData q).ids

/-- Where two neighbours share a key, nothing depends on which of them is meant. -/
structure Unconfused (m : EntityMerge) (s : WeightedStores) : Prop where
  noLoop : s.getEdge s(m.target, m.target) = none
  relations : ∀ x y p, m.Other x → m.Other y → x ≠ y → m.Merged s x p →
    m.writtenAs s (relationKey s(m.target, x)) = some s(m.target, y) → m.Covered s x y
  rows : ∀ x y p q, m.Other x → m.Other y → m.Merged s x p → m.Merged s y q →
    chunkKey s(m.target, x) = chunkKey s(m.target, y) → ∀ c,
      (∃ p, m.Merged s x p ∧ c ∈ s.carriedIds p) ↔ ∃ q, m.Merged s y q ∧ c ∈ s.carriedIds q

section

variable {m : EntityMerge} {s s' : WeightedStores} {x y e : Name} {p q : Pair} {c : ChunkId}
  {key : String} {d : EdgeData}

theorem ends_ne (x : Name) : s(m.target, x).inf ≠ s(m.target, x).sup ↔ x ≠ m.target := by
  rw [Sym2.inf_mk,Sym2.sup_mk,ne_eq,inf_eq_sup]
  exact ne_comm

theorem Other.redirect (h : m.Other x) : redirect m.sources m.target x = x := if_neg h.2

theorem redirect_joined (h : e = m.target ∨ e ∈ m.sources) :
    redirect m.sources m.target e = m.target := by
  unfold Knowledge.redirect
  split
  · rfl
  · rename_i hnot
    exact h.resolve_right hnot

theorem Merged.redirected (hx : m.Other x) (h : m.Merged s x p) :
    m.redirected p = s(m.target, x) := by
  obtain ⟨-,e,he,rfl⟩ := h
  rw [EntityMerge.redirected,Sym2.map_mk,redirect_joined he,hx.redirect]

theorem mem_allRelations : p ∈ m.allRelations (onGraph s.graph) ↔
    s.getEdge p ≠ none ∧ ∃ e, (e = m.target ∨ e ∈ m.sources) ∧ e ∈ p := by
  have hedge : (onGraph s.graph).graph.getEdge p ≠ none ↔ s.getEdge p ≠ none := by
    simp [WeightedStores.getEdge,onGraph]
  simp only [allRelations,mem_flatMap,mem_append,Graph.mem_nodeEdges,hedge]
  constructor
  · rintro ⟨e,he | he,hp,hmem⟩
    · exact ⟨hp,e,.inr he,hmem⟩
    · split at he
      · exact ⟨hp,e,.inl (mem_singleton.mp he),hmem⟩
      · cases he
  · rintro ⟨hp,e,he,hmem⟩
    by_cases hsource : e ∈ m.sources
    · exact ⟨e,.inl hsource,hp,hmem⟩
    · obtain rfl := he.resolve_right hsource
      have hnode := Graph.hasNode_of_edge (hedge.mpr hp) hmem
      exact ⟨m.target,.inr (by rw [if_pos ⟨hnode,hsource⟩]; simp),hp,hmem⟩

theorem mem_visited : p ∈ m.visited s ↔ ∃ x, m.Other x ∧ m.Merged s x p := by
  rw [visited,keptRelations,mem_filter,mem_allRelations]
  simp only [decide_eq_true_eq]
  constructor
  · rintro ⟨⟨hp,e,he,hmem⟩,hends⟩
    obtain ⟨x,rfl⟩ := hmem
    rw [EntityMerge.redirected,Sym2.map_mk,redirect_joined he,ends_ne] at hends
    have hx : x ∉ m.sources := fun hx => hends (redirect_joined (.inr hx))
    rw [Knowledge.redirect,if_neg hx] at hends
    exact ⟨x,⟨hends,hx⟩,hp,e,he,rfl⟩
  · rintro ⟨x,hx,hmerged⟩
    obtain ⟨hp,e,he,rfl⟩ := hmerged
    refine ⟨⟨hp,e,he,Sym2.mem_mk_left e x⟩,?_⟩
    rw [Merged.redirected hx ⟨hp,e,he,rfl⟩,ends_ne]
    exact hx.1

theorem mem_staleRelationKeys (h : key ∈ (m.trackingUpdates s).keys) :
    key ∉ m.staleRelationKeys s := by
  simp [staleRelationKeys,h]

theorem mem_joinSourceIds {a b : Option (List ChunkId)} :
    c ∈ truthy ((joinSourceIds a b).getD []) ↔ c ∈ truthy (a.getD []) ∨ c ∈ truthy (b.getD []) := by
  cases a with
  | none => simp [joinSourceIds,truthy]
  | some a =>
    cases b with
    | none => simp [joinSourceIds,truthy]
    | some b =>
      simp only [joinSourceIds,joinUnique,Option.getD_some,mem_truthy,mem_mergeSourceIds]
      simp
      tauto

theorem mem_ids_merge {a b : EdgeData} :
    c ∈ (a.merge b).floored.ids ↔ c ∈ a.ids ∨ c ∈ b.ids := mem_joinSourceIds

/-- The weight is there and at least `w`. -/
def Weighs (d : EdgeData) (w : ℚ) : Prop := ∃ w', d.weight = some w' ∧ w ≤ w'

theorem weighs_floored {w : ℚ} (h : Weighs d w) : Weighs d.floored w := by
  obtain ⟨w',hw',hle⟩ := h
  refine ⟨_,rfl,le_trans hle ?_⟩
  rw [hw']
  exact le_max_left _ _

theorem weighs_merge {a b : EdgeData} {w : ℚ} (h : Weighs a w ∨ Weighs b w) :
    Weighs (a.merge b).floored w := by
  apply weighs_floored
  obtain ⟨w',hw',hle⟩ | ⟨w',hw',hle⟩ := h
  · cases hb : b.weight with
    | none => exact ⟨w',by simp [EdgeData.merge,EdgeData.maxWeight,hw',hb],hle⟩
    | some v =>
      refine ⟨max w' v,?_,le_trans hle (le_max_left _ _)⟩
      simp [EdgeData.merge,EdgeData.maxWeight,hw',hb]
  · cases ha : a.weight with
    | none => exact ⟨w',by simp [EdgeData.merge,EdgeData.maxWeight,hw',ha],hle⟩
    | some v =>
      refine ⟨max v w',?_,le_trans hle (le_max_right _ _)⟩
      simp [EdgeData.merge,EdgeData.maxWeight,hw',ha]

theorem mem_ids_mergeUpdates {u : Pair × EdgeData} {ps : List Pair} :
    c ∈ (ps.foldl (mergeUpdate s) u).2.ids ↔ c ∈ u.2.ids ∨ ∃ p ∈ ps, c ∈ (s.edgeData p).ids :=
  foldl_accumulates (fun (u : Pair × EdgeData) c => c ∈ u.2.ids)
    (fun p c => c ∈ (s.edgeData p).ids) fun _ _ _ => mem_ids_merge

theorem weightedUpdates_spec {u : Pair × EdgeData} (h : (m.weightedUpdates s).get key = some u) :
    m.writtenAs s key = some u.1 ∧
      (∀ c, c ∈ u.2.ids ↔ ∃ p ∈ m.visited s, m.keyOf p = key ∧ c ∈ (s.edgeData p).ids) ∧
      (∃ w, u.2.weight = some w) ∧
      ∀ p w, p ∈ m.visited s → m.keyOf p = key → (s.edgeData p).weight = some w →
        Weighs u.2 w := by
  obtain ⟨first,rest,hgroup,rfl⟩ := get_groupBy_eq_some h
  have hmem : ∀ p, p ∈ m.visited s ∧ m.keyOf p = key ↔ p = first ∨ p ∈ rest := by
    intro p
    rw [← mem_cons,← hgroup,mem_filter,decide_eq_true_eq]
  refine ⟨?_,fun c => ?_,?_,fun p w hp hkey hw => ?_⟩
  · rw [writtenAs,← List.head?_filter,hgroup]
    apply congrArg some
    symm
    exact foldl_keeps (fun u : Pair × EdgeData => u.1 = m.redirected first) (fun _ _ hu => hu) rfl
  · rw [mem_ids_mergeUpdates]
    simp only [← and_assoc,hmem,or_and_right,exists_or,exists_eq_left]
    exact Iff.rfl
  · exact foldl_keeps (fun u : Pair × EdgeData => ∃ w, u.2.weight = some w) (fun _ _ _ => ⟨_,rfl⟩)
      ⟨_,rfl⟩
  · have hkeep : ∀ (u : Pair × EdgeData) (q : Pair), Weighs u.2 w → Weighs (mergeUpdate s u q).2 w :=
      fun _ _ hu => weighs_merge (.inl hu)
    have hp' : Weighs (s.edgeData p) w := ⟨w,hw,le_refl w⟩
    rcases (hmem p).mp ⟨hp,hkey⟩ with rfl | hrest
    · exact foldl_keeps (fun u : Pair × EdgeData => Weighs u.2 w) hkeep (weighs_floored hp')
    · exact foldl_gains (fun u : Pair × EdgeData => Weighs u.2 w) hkeep hrest fun _ => weighs_merge (.inr hp')

theorem carriedIds_ne (h : c ∈ s.carriedIds p) : c ≠ "" := by
  unfold WeightedStores.carriedIds at h
  split at h
  · exact (mem_evidenceOnly.mp h).2.1
  · exact (mem_mergeSourceIds.mp h).2

theorem mem_trackUpdates {ids : List ChunkId} {ps : List Pair} (hids : ∀ c ∈ ids, c ≠ "") :
    c ∈ ps.foldl (trackUpdate s) ids ↔ c ∈ ids ∨ ∃ p ∈ ps, c ∈ s.carriedIds p := by
  induction ps generalizing ids with
  | nil => simp
  | cons p ps ih =>
    have hstep : ∀ c ∈ trackUpdate s ids p, c ≠ "" := fun c hc => (mem_mergeSourceIds.mp hc).2
    rw [foldl_cons,ih hstep,trackUpdate,mem_mergeSourceIds]
    have hne : c ∈ ids ∨ c ∈ s.carriedIds p → c ≠ "" := Or.rec (hids c) carriedIds_ne
    simp only [mem_cons,exists_eq_or_imp]
    tauto

theorem trackingUpdates_spec {row : List ChunkId} (h : (m.trackingUpdates s).get key = some row) :
    c ∈ row ↔ ∃ p ∈ m.visited s, chunkKey (m.redirected p) = key ∧ c ∈ s.carriedIds p := by
  obtain ⟨first,rest,hgroup,rfl⟩ := get_groupBy_eq_some h
  have hmem : ∀ p, p ∈ m.visited s ∧ chunkKey (m.redirected p) = key ↔ p = first ∨ p ∈ rest := by
    intro p
    rw [← mem_cons,← hgroup,mem_filter,decide_eq_true_eq]
  have hfirst : ∀ c, c ∈ trackUpdate s [] first ↔ c ∈ s.carriedIds first := by
    intro c
    rw [trackUpdate,mem_mergeSourceIds]
    have hne : c ∈ s.carriedIds first → c ≠ "" := carriedIds_ne
    tauto
  rw [mem_trackUpdates fun c hc => carriedIds_ne ((hfirst c).mp hc),hfirst]
  simp only [← and_assoc,hmem,or_and_right,exists_or,exists_eq_left]

theorem keyOf_merged (hx : m.Other x) (h : m.Merged s x p) :
    m.keyOf p = relationKey s(m.target, x) := by
  rw [keyOf,h.redirected hx]

theorem relationKey_of_writtenAs (h : m.writtenAs s key = some q) : relationKey q = key := by
  obtain ⟨p,hp,rfl⟩ := Option.map_eq_some_iff.mp h
  have hkey := List.find?_some hp
  rw [decide_eq_true_eq] at hkey
  exact hkey

theorem writtenAs_merged (h : m.writtenAs s key = some q) :
    ∃ y p, m.Other y ∧ m.Merged s y p ∧ q = s(m.target, y) := by
  obtain ⟨p,hp,rfl⟩ := Option.map_eq_some_iff.mp h
  obtain ⟨y,hy,hmerged⟩ := mem_visited.mp (mem_of_find?_eq_some hp)
  exact ⟨y,p,hy,hmerged,hmerged.redirected hy⟩

theorem nodup_updates : (((m.weightedUpdates s).entries.map Prod.snd).map Prod.fst).Nodup := by
  apply List.Nodup.of_map relationKey
  have hkeys : (((m.weightedUpdates s).entries.map Prod.snd).map Prod.fst).map relationKey =
      (m.weightedUpdates s).keys := by
    rw [map_map,map_map]
    apply map_congr_left
    intro u hu
    exact relationKey_of_writtenAs (weightedUpdates_spec (Dict.get_eq_some.mpr hu)).1
  rw [hkeys]
  exact (m.weightedUpdates s).nodup

theorem get_updates_merged (hx : m.Other x) (h : m.Merged s x p) :
    ∃ u, (m.weightedUpdates s).get (relationKey s(m.target, x)) = some u := by
  have hkey : relationKey s(m.target, x) ∈ (m.weightedUpdates s).keys :=
    mem_keys_groupBy.mpr ⟨p,mem_visited.mpr ⟨x,hx,h⟩,keyOf_merged hx h⟩
  exact Option.ne_none_iff_exists'.mp (Dict.mem_keys.mp hkey)

theorem getEdge_redirected_of_ne (h : m.writtenAs s (relationKey p) ≠ some p) :
    (m.redirectedStores s).getEdge p = s.getEdge p := by
  apply WeightedStores.getEdge_upsertEdges_of_not_mem
  rw [map_map,mem_map]
  rintro ⟨u,hu,rfl⟩
  have hwritten := (weightedUpdates_spec (Dict.get_eq_some.mpr hu)).1
  apply h
  rw [Function.comp_apply,relationKey_of_writtenAs hwritten,hwritten]

theorem getEdge_of_mem_ids (h : c ∈ (s.edgeData p).ids) : s.getEdge p ≠ none := by
  intro hnone
  rw [WeightedStores.edgeData,hnone] at h
  cases h

theorem mem_ids_onTop {d old : EdgeData} (h : c ∈ old.ids → c ∈ d.ids) :
    c ∈ (WeightedStores.onTop d old).ids ↔ c ∈ d.ids := by
  cases hd : d.sourceId with
  | none =>
    have hnil : d.ids = [] := by simp [EdgeData.ids,hd,truthy]
    rw [hnil] at h ⊢
    simpa [WeightedStores.onTop,hd,EdgeData.ids] using h
  | some ids => simp [WeightedStores.onTop,hd,EdgeData.ids]

theorem getEdge_redirected (h : m.writtenAs s (relationKey p) = some p) :
    ∃ d, (m.redirectedStores s).getEdge p = some d ∧
      (∀ c, c ∈ d.ids ↔
        ∃ q ∈ m.visited s, m.keyOf q = relationKey p ∧ c ∈ (s.edgeData q).ids) ∧
      ∀ q w, q ∈ m.visited s → m.keyOf q = relationKey p → (s.edgeData q).weight = some w →
        Weighs d w := by
  obtain ⟨x,q,hx,hmerged,rfl⟩ := writtenAs_merged h
  obtain ⟨u,hu⟩ := get_updates_merged hx hmerged
  obtain ⟨hwritten,hids,⟨w,hw⟩,hweight⟩ := weightedUpdates_spec hu
  have hpair : u.1 = s(m.target, x) := Option.some.inj (hwritten.symm.trans h)
  have hentry : (s(m.target, x), u.2) ∈ (m.weightedUpdates s).entries.map Prod.snd := by
    rw [← hpair]
    exact mem_map.mpr ⟨_,Dict.get_eq_some.mp hu,rfl⟩
  refine ⟨_,WeightedStores.getEdge_upsertEdges_of_mem nodup_updates hentry,fun c => ?_,?_⟩
  · rw [← hids c]
    apply mem_ids_onTop
    intro hc
    have hown : m.Merged s x s(m.target, x) :=
      ⟨getEdge_of_mem_ids hc,m.target,.inl rfl,rfl⟩
    exact (hids c).mpr ⟨_,mem_visited.mpr ⟨x,hx,hown⟩,keyOf_merged hx hown,hc⟩
  · intro q w hq hkey hqw
    obtain ⟨v,hv,hle⟩ := hweight q w hq hkey hqw
    exact ⟨v,by simp [WeightedStores.onTop,hv],hle⟩

theorem getEdge_impl (h : m.mergeEntitiesImpl s = some s') :
    s'.getEdge p = if p.inf ∈ m.entitiesToRemove ∨ p.sup ∈ m.entitiesToRemove then none
      else (m.redirectedStores s).getEdge p := by
  unfold mergeEntitiesImpl at h
  split at h
  · obtain rfl := Option.some.inj h
    rw [WeightedStores.getEdge,Graph.getEdge_removeNodes]
    split
    · rfl
    · rfl
  · cases h

theorem getEdge_impl_of_other (h : m.mergeEntitiesImpl s = some s')
    (hp : ∀ e ∈ p, e = m.target ∨ m.Other e) :
    s'.getEdge p = (m.redirectedStores s).getEdge p := by
  rw [getEdge_impl h,if_neg]
  rw [Graph.mem_ends]
  rintro ⟨e,he,hremoved⟩
  have hsource := mem_filter.mp hremoved
  rcases hp e he with rfl | hother
  · simp at hsource
  · exact hother.2 hsource.1

theorem row_impl (h : m.mergeEntitiesImpl s = some s') (hx : m.Other x) (hp : m.Merged s x p) :
    ∃ row, s'.relationChunks.get (chunkKey s(m.target, x)) = some row ∧ ∀ c, c ∈ row ↔
      ∃ q ∈ m.visited s, chunkKey (m.redirected q) = chunkKey s(m.target, x) ∧
        c ∈ s.carriedIds q := by
  have hkey : chunkKey s(m.target, x) ∈ (m.trackingUpdates s).keys :=
    mem_keys_groupBy.mpr ⟨p,mem_visited.mpr ⟨x,hx,hp⟩,by rw [hp.redirected hx]⟩
  obtain ⟨row,hrow⟩ := Option.ne_none_iff_exists'.mp (Dict.mem_keys.mp hkey)
  refine ⟨row,?_,fun c => trackingUpdates_spec hrow⟩
  unfold mergeEntitiesImpl at h
  split at h
  · obtain rfl := Option.some.inj h
    apply Dict.get_drop.trans
    rw [if_neg (mem_staleRelationKeys hkey)]
    exact Dict.get_update_of_mem (m.trackingUpdates s).nodup (Dict.get_eq_some.mp hrow)
  · cases h

theorem hasNode_of_update {u : Pair × EdgeData} {node : Node}
    (hu : u ∈ (m.weightedUpdates s).entries.map Prod.snd) (he : e ∈ u.1) :
    (s.upsertNode m.target node).graph.hasNode e = true := by
  obtain ⟨entry,hentry,rfl⟩ := mem_map.mp hu
  obtain ⟨x,p,hx,hmerged,hpair⟩ :=
    writtenAs_merged (weightedUpdates_spec (Dict.get_eq_some.mpr hentry)).1
  rw [WeightedStores.upsertNode,Graph.hasNode,Graph.getNode_upsertNode]
  split
  · rfl
  · rename_i hne
    rw [hpair,Sym2.mem_iff] at he
    obtain rfl := he.resolve_left hne
    obtain ⟨hedge,y,hy,rfl⟩ := hmerged
    rw [WeightedStores.getEdge,ne_eq,Option.map_eq_none_iff] at hedge
    exact Graph.hasNode_of_edge hedge (Sym2.mem_mk_right y e)

theorem getNode_impl (h : m.mergeEntitiesImpl s = some s') :
    s'.graph.getNode e = if e ∈ m.entitiesToRemove then none
      else if e = m.target then some ⟨true, m.mergedSourceId (onGraph s.graph)⟩
      else s.graph.getNode e := by
  unfold mergeEntitiesImpl at h
  split at h
  · obtain rfl := Option.some.inj h
    rw [Graph.getNode_removeNodes,redirectedStores,WeightedStores.getNode_upsertEdges,
      WeightedStores.upsertNode,Graph.getNode_upsertNode]
    exact fun u hu e he => hasNode_of_update hu he
  · cases h

theorem Other.ends (hx : m.Other x) : ∀ e ∈ s(m.target, x), e = m.target ∨ m.Other e := by
  intro e he
  rcases Sym2.mem_iff.mp he with rfl | rfl
  · exact .inl rfl
  · exact .inr hx

theorem target_injective (h : s(m.target, x) = s(m.target, y)) : x = y := Sym2.congr_right.mp h

theorem mem_key {P : Pair → Prop} : (∃ q ∈ m.visited s, m.keyOf q = key ∧ P q) ↔
    ∃ y q, m.Other y ∧ m.Merged s y q ∧ relationKey s(m.target, y) = key ∧ P q := by
  constructor
  · rintro ⟨q,hq,hkey,hP⟩
    obtain ⟨y,hy,hmerged⟩ := mem_visited.mp hq
    exact ⟨y,q,hy,hmerged,by rw [← hkey,keyOf_merged hy hmerged],hP⟩
  · rintro ⟨y,q,hy,hmerged,hkey,hP⟩
    exact ⟨q,mem_visited.mpr ⟨y,hy,hmerged⟩,by rw [keyOf_merged hy hmerged,hkey],hP⟩

theorem mem_trackingKey {P : Pair → Prop} :
    (∃ q ∈ m.visited s, chunkKey (m.redirected q) = key ∧ P q) ↔
      ∃ y q, m.Other y ∧ m.Merged s y q ∧ chunkKey s(m.target, y) = key ∧ P q := by
  constructor
  · rintro ⟨q,hq,hkey,hP⟩
    obtain ⟨y,hy,hmerged⟩ := mem_visited.mp hq
    exact ⟨y,q,hy,hmerged,by rw [← hkey,hmerged.redirected hy],hP⟩
  · rintro ⟨y,q,hy,hmerged,hkey,hP⟩
    exact ⟨q,mem_visited.mpr ⟨y,hy,hmerged⟩,by rw [hmerged.redirected hy,hkey],hP⟩

theorem writtenAs_cases (hx : m.Other x) (h : m.Merged s x p) :
    ∃ y q, m.Other y ∧ m.Merged s y q ∧
      m.writtenAs s (relationKey s(m.target, x)) = some s(m.target, y) := by
  obtain ⟨u,hu⟩ := get_updates_merged hx h
  have hwritten := (weightedUpdates_spec hu).1
  obtain ⟨y,q,hy,hq,hpair⟩ := writtenAs_merged hwritten
  exact ⟨y,q,hy,hq,by rw [hwritten,hpair]⟩

variable (h : m.mergeEntitiesImpl s = some s')
include h

theorem Redirected.unconfused (hr : m.Redirected s s') : m.Unconfused s := by
  have hkept : ∀ {q}, (∀ e ∈ q, e = m.target ∨ m.Other e) → m.writtenAs s (relationKey q) ≠ some q →
      s'.getEdge q = s.getEdge q := by
    intro q hq hne
    rw [getEdge_impl_of_other h hq,getEdge_redirected_of_ne hne]
  refine ⟨?_,fun x y p hx hy hne hp hwritten => ?_,fun x y p q hx hy hp hq hkey c => ?_⟩
  · rw [← hr.noLoop]
    symm
    apply hkept
    · intro e he
      rw [Sym2.mem_iff,or_self] at he
      exact .inl he
    · intro hwritten
      obtain ⟨y,-,hy,-,hpair⟩ := writtenAs_merged hwritten
      exact hy.1 (target_injective hpair).symm
  · have hsame : s'.getEdge s(m.target, x) = s.getEdge s(m.target, x) := by
      apply hkept hx.ends
      rw [hwritten]
      intro heq
      exact hne (target_injective (Option.some.inj heq)).symm
    have hknown := (hr.edge x hx).mpr ⟨p,hp⟩
    obtain ⟨d,hd⟩ := Option.ne_none_iff_exists'.mp hknown
    have hdata : s.edgeData s(m.target, x) = d := by
      rw [WeightedStores.edgeData,← hsame,hd,Option.getD_some]
    have hkey : relationKey s(m.target, y) = relationKey s(m.target, x) :=
      relationKey_of_writtenAs hwritten
    obtain ⟨d',hd',hids,-⟩ := getEdge_redirected (p := s(m.target, y)) (by rw [hkey,hwritten])
    rw [← getEdge_impl_of_other h hy.ends] at hd'
    refine ⟨by rwa [← hsame],fun q hq c hc => ?_,fun q w hq hw => ?_,fun q hq c hc => ?_⟩
    · rw [hdata]
      exact (hr.sourceIds x d hx hd c).mpr ⟨q,hq,hc⟩
    · rw [hdata]
      exact hr.weight x d hx hd q w hq hw
    · rw [← hr.sourceIds y d' hy hd',hids,mem_key]
      exact ⟨x,q,hx,hq,hkey.symm,hc⟩
  · obtain ⟨row,hrow,hmem⟩ := hr.row x p hx hp
    obtain ⟨row',hrow',hmem'⟩ := hr.row y q hy hq
    rw [hkey,hrow'] at hrow
    obtain rfl := Option.some.inj hrow
    exact (hmem c).symm.trans (hmem' c)

theorem Unconfused.written (hu : m.Unconfused s) (hx : m.Other x)
    (hwritten : m.writtenAs s (relationKey s(m.target, x)) = some s(m.target, x)) :
    ∃ d, s'.getEdge s(m.target, x) = some d ∧
      (∀ c, c ∈ d.ids ↔ ∃ p, m.Merged s x p ∧ c ∈ (s.edgeData p).ids) ∧
      ∀ p w, m.Merged s x p → (s.edgeData p).weight = some w → Weighs d w := by
  obtain ⟨d,hd,hids,hweight⟩ := getEdge_redirected hwritten
  refine ⟨d,by rwa [getEdge_impl_of_other h hx.ends],fun c => ?_,fun p w hp hw => ?_⟩
  · rw [hids,mem_key]
    constructor
    · rintro ⟨y,q,hy,hq,hkey,hc⟩
      by_cases hne : y = x
      · subst hne
        exact ⟨q,hq,hc⟩
      · exact (hu.relations y x q hy hx hne hq (by rw [hkey,hwritten])).shared q hq c hc
    · rintro ⟨p,hp,hc⟩
      exact ⟨x,p,hx,hp,rfl,hc⟩
  · exact hweight p w (mem_visited.mpr ⟨x,hx,hp⟩) (keyOf_merged hx hp) hw

theorem Unconfused.neighbour (hu : m.Unconfused s) (hx : m.Other x) (hp : m.Merged s x p) :
    ∃ d, s'.getEdge s(m.target, x) = some d ∧
      (∀ c, c ∈ d.ids ↔ ∃ p, m.Merged s x p ∧ c ∈ (s.edgeData p).ids) ∧
      ∀ p w, m.Merged s x p → (s.edgeData p).weight = some w → Weighs d w := by
  obtain ⟨y,q,hy,hq,hwritten⟩ := writtenAs_cases hx hp
  by_cases hne : x = y
  · subst hne
    exact hu.written h hx hwritten
  · have hcovered := hu.relations x y p hx hy hne hp hwritten
    have hsame : s'.getEdge s(m.target, x) = s.getEdge s(m.target, x) := by
      rw [getEdge_impl_of_other h hx.ends,getEdge_redirected_of_ne]
      rw [hwritten]
      intro heq
      exact hne (target_injective (Option.some.inj heq)).symm
    obtain ⟨d,hd⟩ := Option.ne_none_iff_exists'.mp hcovered.known
    have hdata : s.edgeData s(m.target, x) = d := by
      rw [WeightedStores.edgeData,hd,Option.getD_some]
    have hown : m.Merged s x s(m.target, x) := ⟨hcovered.known,m.target,.inl rfl,rfl⟩
    refine ⟨d,by rw [hsame,hd],fun c => ⟨fun hc => ⟨_,hown,by rwa [hdata]⟩,?_⟩,?_⟩
    · rintro ⟨p',hp',hc⟩
      rw [← hdata]
      exact hcovered.sourceIds p' hp' c hc
    · intro p' w hp' hw
      rw [← hdata]
      exact hcovered.weight p' w hp' hw

theorem merged_of_getEdge (hx : m.Other x) (hedge : s'.getEdge s(m.target, x) ≠ none) :
    ∃ p, m.Merged s x p := by
  by_cases hwritten : m.writtenAs s (relationKey s(m.target, x)) = some s(m.target, x)
  · obtain ⟨y,q,-,hq,hpair⟩ := writtenAs_merged hwritten
    obtain rfl := target_injective hpair
    exact ⟨q,hq⟩
  · rw [getEdge_impl_of_other h hx.ends,getEdge_redirected_of_ne hwritten] at hedge
    exact ⟨_,hedge,m.target,.inl rfl,rfl⟩

theorem Unconfused.redirected (hu : m.Unconfused s) : m.Redirected s s' where
  edge x hx := by
    constructor
    · exact merged_of_getEdge h hx
    · rintro ⟨p,hp⟩
      obtain ⟨d,hd,-⟩ := hu.neighbour h hx hp
      rw [hd]
      exact Option.some_ne_none d
  sourceIds x d hx hd := by
    have hedge : s'.getEdge s(m.target, x) ≠ none := by
      rw [hd]
      exact Option.some_ne_none d
    obtain ⟨p,hp⟩ := merged_of_getEdge h hx hedge
    obtain ⟨d',hd',hids,-⟩ := hu.neighbour h hx hp
    obtain rfl := Option.some.inj (hd.symm.trans hd')
    exact hids
  weight x d hx hd p w hp hw := by
    obtain ⟨d',hd',-,hweight⟩ := hu.neighbour h hx hp
    obtain rfl := Option.some.inj (hd.symm.trans hd')
    exact hweight p w hp hw
  row x p hx hp := by
    obtain ⟨row,hrow,hmem⟩ := row_impl h hx hp
    refine ⟨row,hrow,fun c => ?_⟩
    rw [hmem,mem_trackingKey]
    constructor
    · rintro ⟨y,q,hy,hq,hkey,hc⟩
      exact (hu.rows y x q p hy hx hq hp hkey c).mp ⟨q,hq,hc⟩
    · rintro ⟨q,hq,hc⟩
      exact ⟨x,q,hx,hq,rfl,hc⟩
  target := by
    rw [Graph.hasNode,getNode_impl h,if_neg,if_pos rfl]
    · rfl
    · simp [entitiesToRemove]
  removed e he hne := by
    rw [Graph.hasNode,getNode_impl h,if_pos]
    · rfl
    · simp [entitiesToRemove,he,hne]
  noLoop := by
    rw [getEdge_impl_of_other h,getEdge_redirected_of_ne,hu.noLoop]
    · intro hwritten
      obtain ⟨y,-,hy,-,hpair⟩ := writtenAs_merged hwritten
      exact hy.1 (target_injective hpair).symm
    · intro e he
      rw [Sym2.mem_iff,or_self] at he
      exact .inl he
  nodes x hx := by
    rw [getNode_impl h,if_neg,if_neg hx.1]
    simp [entitiesToRemove,hx.2]
  edges p hp := by
    rw [getEdge_impl_of_other h fun e he => .inr (hp e he),getEdge_redirected_of_ne]
    intro hwritten
    obtain ⟨y,-,-,-,hpair⟩ := writtenAs_merged hwritten
    rw [hpair] at hp
    exact (hp m.target (Sym2.mem_mk_left _ _)).1 rfl

omit h

theorem impl_isSome (hsources : ∀ e ∈ m.sources, s.graph.hasNode e = true) :
    ∃ s', m.mergeEntitiesImpl s = some s' := by
  rw [mergeEntitiesImpl,if_pos (all_eq_true.mpr hsources)]
  exact ⟨_,rfl⟩

theorem unconfused_of_distinct (hloop : s.getEdge s(m.target, m.target) = none)
    (hkeys : ∀ x y p q, m.Other x → m.Other y → m.Merged s x p → m.Merged s y q → x ≠ y →
      relationKey s(m.target, x) ≠ relationKey s(m.target, y) ∧
        chunkKey s(m.target, x) ≠ chunkKey s(m.target, y)) : m.Unconfused s := by
  refine ⟨hloop,fun x y p hx hy hne hp hwritten => ?_,fun x y p q hx hy hp hq hkey c => ?_⟩
  · obtain ⟨z,q,hz,hq,hpair⟩ := writtenAs_merged hwritten
    obtain rfl := target_injective hpair
    exact absurd (relationKey_of_writtenAs hwritten).symm (hkeys x y p q hx hy hp hq hne).1
  · by_cases hne : x = y
    · rw [hne]
    · exact absurd hkey (hkeys x y p q hx hy hp hq hne).2

end

/-- Two relations of the entity `s`. -/
def twoNeighbours (x y : Name) : WeightedStores where
  graph := ((Graph.empty.upsertNode "s" ⟨true, ["c1"]⟩).upsertEdge s("s", x) ⟨some ["c1"]⟩).upsertEdge
    s("s", y) ⟨some ["c2"]⟩
  weight _ := some 1
  relationChunks := Dict.empty

/-- The entity `s` goes to `target`. -/
def mergeInto (target : Name) : EntityMerge := ⟨["s"], target, joinUnique, none⟩

end LightRAG.Knowledge.EntityMerge
