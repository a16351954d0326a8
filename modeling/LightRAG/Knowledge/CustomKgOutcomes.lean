import LightRAG.Knowledge.CustomKg

/-!
# Refused and accepted payloads

What a custom knowledge graph leaves in the storages, whether it is refused before the first write,
between two writes or not at all.
-/

namespace LightRAG.Knowledge.CustomKg
open List Except

open RelationKeys (sortedEnds)

structure Same (a b : Contents) : Prop where
  textChunks : ∀ k, a.textChunks.get k = b.textChunks.get k
  chunksVdb : ∀ k, a.chunksVdb.get k = b.chunksVdb.get k
  entitiesVdb : ∀ k, a.entitiesVdb.get k = b.entitiesVdb.get k
  relationshipsVdb : ∀ k, a.relationshipsVdb.get k = b.relationshipsVdb.get k
  nodes : ∀ k, a.nodes.get k = b.nodes.get k
  edges : ∀ k, a.edges.get k = b.edges.get k

/-- A refused payload leaves nothing behind; an accepted one leaves relations between entities that
are there, none of an entity with itself, each with a weight for its evidence. -/
structure Honest (env : Env) (kg : Payload) (s : Storages) : Prop where
  clean : ∀ e, (ainsertCustomKg env kg s).1 = .error e →
    Same (ainsertCustomKg env kg s).2.buffered s.buffered ∧
      Same (ainsertCustomKg env kg s).2.durable s.durable
  ends : (ainsertCustomKg env kg s).1 = .ok () → ∀ data ∈ kg.relationships,
    ∀ key ∈ ["src_id", "tgt_id"], ∃ text, get data key = some (.string text) ∧
      (ainsertCustomKg env kg s).2.buffered.nodes.get (env.normalizeEntityName text) ≠ none
  noLoop : (ainsertCustomKg env kg s).1 = .ok () → ∀ e,
    (ainsertCustomKg env kg s).2.buffered.edges.get s(e, e) = s.buffered.edges.get s(e, e)
  weight : (ainsertCustomKg env kg s).1 = .ok () → ∀ p row,
    (ainsertCustomKg env kg s).2.buffered.edges.get p = some row →
      s.buffered.edges.get p = some row ∨ relationEvidenceCount row.sourceId ≤ row.weight

/-- An entity that is found to be wrong after the chunks are written. -/
def EntityDefect (env : Env) (e : EntityData) : Prop :=
  hashKey (getOr e.data "source_id" "UNKNOWN") = none ∨
    ∀ text, getOr e.data "description" "No description provided" = .string text →
      env.truncateVdbContent (e.name ++ "\n" ++ text) = none

/-- A relationship that is found to be wrong after chunks and entities are written. -/
def RelationshipDefect (env : Env) (r : RelationshipData) : Prop :=
  ∀ description keywords, get r.data "description" = some description →
    get r.data "keywords" = some keywords →
      env.truncateVdbContent (env.str keywords ++ "\t" ++ (sortedEnds r.srcId r.tgtId).1 ++ "\n" ++
        (sortedEnds r.srcId r.tgtId).2 ++ "\n" ++ env.str description) = none

section

variable (env : Env) (plan : Plan) (s : Storages)

def ChunksStored : Prop :=
  ∀ id entry, plan.chunks.allChunksData.get id = some entry →
    s.buffered.textChunks.get id = some entry ∧ s.buffered.chunksVdb.get id = some entry

def NodesStored : Prop :=
  ∀ e ∈ plan.declared, ∀ node, buildNode env plan e = .ok node →
    s.buffered.nodes.get node.1 = some node.2

/-- Something is to be flushed when the first wrong entity is found. -/
def Flushes : Prop :=
  plan.chunks.allChunksData.entries ≠ [] ∨
    ∃ e ∈ plan.declared.head?, hashKey (getOr e.data "source_id" "UNKNOWN") ≠ none

/-- Where a defect is found late, nothing that is written before it is new. -/
structure Harmless : Prop where
  entities : (∃ e ∈ plan.declared, EntityDefect env e) →
    ChunksStored plan s ∧ (Flushes plan → Same s.buffered s.durable)
  relationships : (∀ e ∈ plan.declared, ¬ EntityDefect env e) →
    (∃ r ∈ plan.related, RelationshipDefect env r) →
      ChunksStored plan s ∧ NodesStored env plan s ∧ Same s.buffered s.durable

end

section

variable {env : Env} {plan : Plan} {s : Storages} {kg : Payload} {a b c : Contents}
  {e : EntityData} {r : RelationshipData} {update : Bool}

theorem Same.refl (a : Contents) : Same a a := by constructor <;> exact fun _ => rfl

theorem Same.symm (h : Same a b) : Same b a where
  textChunks k := (h.textChunks k).symm
  chunksVdb k := (h.chunksVdb k).symm
  entitiesVdb k := (h.entitiesVdb k).symm
  relationshipsVdb k := (h.relationshipsVdb k).symm
  nodes k := (h.nodes k).symm
  edges k := (h.edges k).symm

theorem Same.trans (h : Same a b) (h' : Same b c) : Same a c where
  textChunks k := (h.textChunks k).trans (h'.textChunks k)
  chunksVdb k := (h.chunksVdb k).trans (h'.chunksVdb k)
  entitiesVdb k := (h.entitiesVdb k).trans (h'.entitiesVdb k)
  relationshipsVdb k := (h.relationshipsVdb k).trans (h'.relationshipsVdb k)
  nodes k := (h.nodes k).trans (h'.nodes k)
  edges k := (h.edges k).trans (h'.edges k)

theorem conclude_same (written : Contents) :
    (Same (conclude s written update).buffered s.buffered ∧
      Same (conclude s written update).durable s.durable) ↔
    Same written s.buffered ∧ (update = true → Same s.buffered s.durable) := by
  cases update with
  | false =>
    simp only [Bool.false_eq_true,false_imp_iff,and_true]
    exact ⟨And.left,fun h => ⟨h,.refl _⟩⟩
  | true =>
    simp only [true_imp_iff]
    constructor
    · rintro ⟨hwritten,hflushed⟩
      exact ⟨hwritten,hwritten.symm.trans hflushed⟩
    · rintro ⟨hwritten,hsame⟩
      exact ⟨hwritten,hwritten.trans hsame⟩

theorem upsertChunks_same :
    Same (s.buffered.upsertChunks plan.chunks.allChunksData) s.buffered ↔ ChunksStored plan s := by
  have hnodup := plan.chunks.allChunksData.nodup
  have hentries : ∀ d : Dict String ChunkEntry,
      (∀ e ∈ plan.chunks.allChunksData.entries, d.get e.1 = some e.2) ↔
        ∀ id entry, plan.chunks.allChunksData.get id = some entry → d.get id = some entry := by
    intro d
    constructor
    · exact fun h id entry hget => h (id, entry) (Dict.get_eq_some.mp hget)
    · exact fun h e he => h e.1 e.2 (Dict.get_eq_some.mpr he)
  constructor
  · intro h
    have htext := (hentries _).mp ((Dict.update_same_iff hnodup).mp h.textChunks)
    have hvector := (hentries _).mp ((Dict.update_same_iff hnodup).mp h.chunksVdb)
    exact fun id entry hget => ⟨htext id entry hget,hvector id entry hget⟩
  · intro h
    refine ⟨?_,?_,fun _ => rfl,fun _ => rfl,fun _ => rfl,fun _ => rfl⟩
    · exact (Dict.update_same_iff hnodup).mpr
        ((hentries _).mpr fun id entry hget => (h id entry hget).1)
    · exact (Dict.update_same_iff hnodup).mpr
        ((hentries _).mpr fun id entry hget => (h id entry hget).2)

theorem upsertNodes_same {nodes : List (Name × NodeData)} (hnodup : (nodes.map Prod.fst).Nodup) :
    Same ((s.buffered.upsertChunks plan.chunks.allChunksData).upsertNodes nodes) s.buffered ↔
      ChunksStored plan s ∧ ∀ node ∈ nodes, s.buffered.nodes.get node.1 = some node.2 := by
  rw [← upsertChunks_same,← Dict.update_same_iff hnodup]
  constructor
  · intro h
    exact ⟨⟨h.textChunks,h.chunksVdb,h.entitiesVdb,h.relationshipsVdb,fun _ => rfl,h.edges⟩,h.nodes⟩
  · rintro ⟨h,hnodes⟩
    exact ⟨h.textChunks,h.chunksVdb,h.entitiesVdb,h.relationshipsVdb,hnodes,h.edges⟩

section

variable {κ α : Type} [DecidableEq κ] {key : α → κ} {xs : List α} {k : κ} {x : α}

theorem get_lastOf (h : (lastOf key xs).get k = some x) : key x = k ∧ x ∈ xs := by
  induction xs using List.reverseRecOn with
  | nil => cases h
  | append_singleton xs y ih =>
    rw [lastOf,foldl_append,foldl_cons,foldl_nil,Dict.get_set] at h
    split at h
    · rename_i hk
      obtain rfl := Option.some.inj h
      exact ⟨hk.symm,by simp⟩
    · rw [Dict.get_drop] at h
      split at h
      · cases h
      · obtain ⟨hkey,hmem⟩ := ih h
        exact ⟨hkey,mem_append_left _ hmem⟩

theorem lastOf_isSome (key : α → κ) {xs : List α} {x : α} (h : x ∈ xs) :
    ∃ y, (lastOf key xs).get (key x) = some y := by
  induction xs using List.reverseRecOn with
  | nil => cases h
  | append_singleton xs y ih =>
    rw [lastOf,foldl_append,foldl_cons,foldl_nil,Dict.get_set]
    split
    · exact ⟨y,rfl⟩
    · rename_i hne
      rw [Dict.get_drop,if_neg hne]
      rcases mem_append.mp h with hold | hnew
      · exact ih hold
      · rw [mem_singleton] at hnew
        exact absurd (congrArg key hnew) hne

end

/-- A relationship as it is written: between two entities, with a weight for its evidence. -/
structure RelationshipData.Valid (r : RelationshipData) : Prop where
  ends : r.srcId ≠ r.tgtId
  weight : relationEvidenceCount r.sourceId ≤ r.weight

theorem validateRelationWeight_ok {context : String} {weight : Option ℚ} {sourceId : String} {q : ℚ}
    (h : validateRelationWeight context weight sourceId = .ok q) :
    relationEvidenceCount sourceId ≤ q := by
  unfold validateRelationWeight at h
  split at h
  · cases h
  · split at h
    · cases h
    · rename_i hle
      obtain rfl := ok.inj h
      exact not_lt.mp hle

theorem normalizeName_ok {field : String} {value : Option Json} {name : Name}
    (h : normalizeName env field value = .ok name) :
    ∃ text, value = some (.string text) ∧ env.normalizeEntityName text = name := by
  unfold normalizeName at h
  split at h
  · cases h
  · rename_i text
    split at h
    · cases h
    · exact ⟨text,rfl,ok.inj h⟩
  · cases h

theorem normalizeRelationship_ok {entry : Fields × ℕ}
    (h : normalizeRelationship env entry = .ok r) :
    r.srcId ≠ r.tgtId ∧
      (∃ text, get entry.1 "src_id" = some (.string text) ∧
        env.normalizeEntityName text = r.srcId) ∧
      ∃ text, get entry.1 "tgt_id" = some (.string text) ∧
        env.normalizeEntityName text = r.tgtId := by
  obtain ⟨srcId,hsrc,h⟩ := Results.bind_ok h
  obtain ⟨tgtId,htgt,h⟩ := Results.bind_ok h
  split at h
  · cases h
  · rename_i hends
    split at h
    · obtain ⟨weight,-,h⟩ := Results.bind_ok h
      obtain rfl := ok.inj h
      exact ⟨hends,normalizeName_ok hsrc,normalizeName_ok htgt⟩
    · cases h

theorem mem_zipIdx {α : Type} {xs : List α} {x : α} (h : x ∈ xs) : ∃ i, (x, i) ∈ xs.zipIdx := by
  rw [← zipIdx_map_fst 0 xs,mem_map] at h
  obtain ⟨⟨y,i⟩,hmem,rfl⟩ := h
  exact ⟨i,hmem⟩

theorem zipIdx_mapM_mem {α β : Type} {f : α × ℕ → Except PayloadError β} {xs : List α} {ys : List β}
    {x : α} (h : xs.zipIdx.mapM f = .ok ys) (hx : x ∈ xs) : ∃ i, ∃ y ∈ ys, f (x, i) = .ok y := by
  obtain ⟨i,hi⟩ := mem_zipIdx hx
  obtain ⟨y,hy⟩ := Results.exists_of_mem (Results.mapM_ok h) hi
  exact ⟨i,y,(Results.mapM_mem h).mpr ⟨_,hi,hy⟩,hy⟩

theorem resolveRelationship_ok {chunks : Chunks} {entry : RelationshipData × ℕ}
    (h : resolveRelationship chunks entry = .ok r) :
    r.srcId = entry.1.srcId ∧ r.tgtId = entry.1.tgtId ∧
      relationEvidenceCount r.sourceId ≤ r.weight := by
  obtain ⟨weight,hweight,h⟩ := Results.bind_ok h
  obtain rfl := ok.inj h
  exact ⟨rfl,rfl,validateRelationWeight_ok hweight⟩

theorem validate_relationships (h : validate env kg = .ok plan) :
    (∀ r ∈ plan.related, r.Valid) ∧
      ∀ data ∈ kg.relationships, ∀ key ∈ ["src_id", "tgt_id"], ∃ text,
        get data key = some (.string text) ∧ ∃ r ∈ plan.related,
          env.normalizeEntityName text = r.srcId ∨ env.normalizeEntityName text = r.tgtId := by
  obtain ⟨entities,-,h⟩ := Results.bind_ok h
  obtain ⟨relationships,hnormalized,h⟩ := Results.bind_ok h
  obtain ⟨chunks,-,h⟩ := Results.bind_ok h
  obtain ⟨resolved,hresolved,h⟩ := Results.bind_ok h
  obtain rfl := ok.inj h
  constructor
  · intro r hr
    obtain ⟨⟨k,r'⟩,hentry,rfl⟩ := mem_map.mp hr
    obtain ⟨entry,hentry,hok⟩ :=
      (Results.mapM_mem hresolved).mp (get_lastOf (Dict.get_eq_some.mpr hentry)).2
    obtain ⟨hsrc,htgt,hweight⟩ := resolveRelationship_ok hok
    obtain ⟨data,-,hnorm⟩ := (Results.mapM_mem hnormalized).mp (fst_mem_of_mem_zipIdx hentry)
    refine ⟨?_,hweight⟩
    rw [hsrc,htgt]
    exact (normalizeRelationship_ok hnorm).1
  · intro data hdata key hkey
    obtain ⟨i,r,hr,hnorm⟩ := zipIdx_mapM_mem hnormalized hdata
    obtain ⟨j,r',hr',hresolve⟩ := zipIdx_mapM_mem hresolved hr
    obtain ⟨y,hy⟩ := lastOf_isSome (fun r => sortedEnds r.srcId r.tgtId) hr'
    have hends : sortedEnds y.srcId y.tgtId = sortedEnds r'.srcId r'.tgtId := (get_lastOf hy).1
    have hpair : s(y.srcId, y.tgtId) = s(r.srcId, r.tgtId) := by
      obtain ⟨hsrc,htgt,-⟩ := resolveRelationship_ok hresolve
      rw [← RelationKeys.pair_sortedEnds,hends,RelationKeys.pair_sortedEnds,hsrc,htgt]
    have hmem : y ∈ (lastOf (fun r => sortedEnds r.srcId r.tgtId) resolved).entries.map Prod.snd :=
      mem_map.mpr ⟨_,Dict.get_eq_some.mp hy,rfl⟩
    obtain ⟨-,⟨src,hsrc,hsrcId⟩,tgt,htgt,htgtId⟩ := normalizeRelationship_ok hnorm
    have hname : ∀ name, name ∈ s(r.srcId, r.tgtId) → name = y.srcId ∨ name = y.tgtId := by
      intro name hname
      rwa [← hpair,Sym2.mem_iff] at hname
    rcases mem_cons.mp hkey with rfl | hkey
    · exact ⟨src,hsrc,y,hmem,hsrcId ▸ hname _ (Sym2.mem_mk_left _ _)⟩
    · rw [mem_singleton] at hkey
      subst hkey
      exact ⟨tgt,htgt,y,hmem,htgtId ▸ hname _ (Sym2.mem_mk_right _ _)⟩

theorem validate_names (h : validate env kg = .ok plan) :
    (plan.declared.map EntityData.name).Nodup := by
  obtain ⟨entities,-,h⟩ := Results.bind_ok h
  obtain ⟨relationships,-,h⟩ := Results.bind_ok h
  obtain ⟨chunks,-,h⟩ := Results.bind_ok h
  obtain ⟨resolved,-,h⟩ := Results.bind_ok h
  obtain rfl := ok.inj h
  have hkeys : (Plan.declared ⟨lastOf EntityData.name entities,
      lastOf (fun r => sortedEnds r.srcId r.tgtId) resolved,chunks⟩).map EntityData.name =
        (lastOf EntityData.name entities).keys := by
    rw [Plan.declared,map_map]
    apply map_congr_left
    intro entry hentry
    exact (get_lastOf (Dict.get_eq_some.mpr hentry)).1
  rw [hkeys]
  exact (lastOf EntityData.name entities).nodup

theorem buildNode_fails : (∃ err, buildNode env plan e = .error err) ↔
    hashKey (getOr e.data "source_id" "UNKNOWN") = none := by
  unfold buildNode
  cases hashKey (getOr e.data "source_id" "UNKNOWN") with
  | none => simp
  | some key => simp

theorem hashKey_of_built {node : Name × NodeData} (h : buildNode env plan e = .ok node) :
    hashKey (getOr e.data "source_id" "UNKNOWN") ≠ none := by
  intro hnone
  have hfails : ∃ err, buildNode env plan e = .error err := buildNode_fails.mpr hnone
  obtain ⟨err,herr⟩ := hfails
  rw [h] at herr
  cases herr

theorem buildNode_ok {node : Name × NodeData} (h : buildNode env plan e = .ok node) :
    node.1 = e.name ∧ node.2.description = getOr e.data "description" "No description provided" := by
  unfold buildNode at h
  split at h
  · cases h
  · obtain rfl := ok.inj h
    exact ⟨rfl,rfl⟩

theorem fst_buildNodes {es : List EntityData} :
    (buildNodes env plan es update).1 = es.mapM (buildNode env plan) := by
  induction es generalizing update with
  | nil => rfl
  | cons e es ih =>
    rw [buildNodes,mapM_cons]
    cases buildNode env plan e with
    | error err => rfl
    | ok node =>
      dsimp only
      rw [ih]
      cases es.mapM (buildNode env plan) with
      | error err => rfl
      | ok nodes => rfl

theorem snd_buildNodes_true {es : List EntityData} :
    (buildNodes env plan es true).2 = true := by
  induction es with
  | nil => rfl
  | cons e es ih =>
    rw [buildNodes]
    split
    · rfl
    · exact ih

theorem snd_buildNodes {es : List EntityData} : (buildNodes env plan es update).2 = true ↔
    update = true ∨ ∃ e ∈ es.head?, hashKey (getOr e.data "source_id" "UNKNOWN") ≠ none := by
  cases es with
  | nil => simp [buildNodes]
  | cons e es =>
    rw [buildNodes]
    cases hnode : buildNode env plan e with
    | error err =>
      have hnone := buildNode_fails.mp ⟨err,hnode⟩
      simp [hnone]
    | ok node =>
      simp [snd_buildNodes_true,hashKey_of_built hnode]

theorem entityRecord_fails {node : Name × NodeData} (hnode : buildNode env plan e = .ok node) :
    (∃ err, entityRecord env node = .error err) ↔ EntityDefect env e := by
  obtain ⟨hname,hdescription⟩ := buildNode_ok hnode
  rw [EntityDefect,or_iff_right (hashKey_of_built hnode),← hname,← hdescription]
  unfold entityRecord
  cases hvalue : node.2.description with
  | string text =>
    dsimp only
    cases htext : env.truncateVdbContent (node.1 ++ "\n" ++ text) with
    | none => simpa using htext
    | some content => simp [htext]
  | null => simp
  | bool _ => simp
  | number _ => simp
  | array _ => simp
  | object _ => simp

theorem write_entityDefect (h : ∃ e ∈ plan.declared, EntityDefect env e) :
    ∃ err update, write env plan s = (.error err,
      conclude s (s.buffered.upsertChunks plan.chunks.allChunksData) update) ∧
        (update = true ↔ Flushes plan) := by
  have hflushes : (buildNodes env plan plan.declared
      (! plan.chunks.allChunksData.entries.isEmpty)).2 = true ↔ Flushes plan := by
    rw [snd_buildNodes,Flushes]
    simp
  cases hnodes : plan.declared.mapM (buildNode env plan) with
  | error err =>
    simp only [write,fst_buildNodes,hnodes]
    exact ⟨err,_,rfl,hflushes⟩
  | ok nodes =>
    obtain ⟨e,he,hdefect⟩ := h
    obtain ⟨node,hnode⟩ := Results.exists_of_mem (Results.mapM_ok hnodes) he
    obtain ⟨err,herr⟩ := Results.mapM_fails.mpr
      ⟨node,(Results.mapM_mem hnodes).mpr ⟨e,he,hnode⟩,(entityRecord_fails hnode).mpr hdefect⟩
    simp only [write,fst_buildNodes,hnodes,herr]
    refine ⟨err,_,rfl,?_⟩
    have hhead : (buildNodes env plan plan.declared
        (! plan.chunks.allChunksData.entries.isEmpty)).2 = true := by
      rw [snd_buildNodes]
      obtain ⟨first,rest,hfirst⟩ := exists_cons_of_ne_nil (ne_nil_of_mem he)
      have hmem : first ∈ plan.declared := by
        rw [hfirst]
        exact mem_cons_self
      obtain ⟨built,hbuilt⟩ := Results.exists_of_mem (Results.mapM_ok hnodes) hmem
      exact .inr ⟨first,by rw [hfirst]; rfl,hashKey_of_built hbuilt⟩
    rw [hhead]
    exact iff_of_true rfl (hflushes.mp hhead)

theorem entities_ok (h : ∀ e ∈ plan.declared, ¬ EntityDefect env e) :
    ∃ nodes entities, plan.declared.mapM (buildNode env plan) = .ok nodes ∧
      nodes.mapM (entityRecord env) = .ok entities := by
  cases hnodes : plan.declared.mapM (buildNode env plan) with
  | error err =>
    obtain ⟨e,he,hfails⟩ := Results.mapM_fails.mp ⟨err,hnodes⟩
    exact absurd (.inl (buildNode_fails.mp hfails)) (h e he)
  | ok nodes =>
    cases hentities : nodes.mapM (entityRecord env) with
    | error err =>
      obtain ⟨node,hnode,hfails⟩ := Results.mapM_fails.mp ⟨err,hentities⟩
      obtain ⟨e,he,hbuilt⟩ := (Results.mapM_mem hnodes).mp hnode
      exact absurd ((entityRecord_fails hbuilt).mp hfails) (h e he)
    | ok entities => exact ⟨nodes,entities,rfl,hentities⟩

theorem related_ok {row : RelationshipData × EdgeRow} (h : related env r = .ok row) :
    row.1 = r ∧ row.2.weight = r.weight ∧ row.2.sourceId = r.sourceId ∧
      get r.data "description" = some row.2.description ∧
        get r.data "keywords" = some row.2.keywords := by
  obtain ⟨edge,hedge,rfl⟩ := Results.map_ok h
  unfold edgeRow at hedge
  split at hedge
  · cases hedge
  · cases hedge
  · rename_i description keywords hdescription hkeywords
    obtain rfl := ok.inj hedge
    exact ⟨rfl,rfl,rfl,hdescription,hkeywords⟩

theorem related_fails {err : PayloadError} (h : related env r = .error err) :
    RelationshipDefect env r := by
  have hedge := Results.map_error h
  intro description keywords hdescription hkeywords
  rw [edgeRow,hdescription,hkeywords] at hedge
  cases hedge

theorem relationRecord_fails {row : RelationshipData × EdgeRow} (h : related env r = .ok row) :
    (∃ err, relationRecord env row = .error err) ↔ RelationshipDefect env r := by
  obtain ⟨hr,-,-,hdescription,hkeywords⟩ := related_ok h
  have htext : RelationshipDefect env r ↔
      env.truncateVdbContent (env.str row.2.keywords ++ "\t" ++ (sortedEnds r.srcId r.tgtId).1 ++
        "\n" ++ (sortedEnds r.srcId r.tgtId).2 ++ "\n" ++ env.str row.2.description) = none := by
    rw [RelationshipDefect,hdescription,hkeywords]
    simp
  rw [htext,← hr]
  unfold relationRecord
  dsimp only
  split
  · rename_i hnone
    simpa using hnone
  · rename_i content hcontent
    simp [hcontent]

theorem write_relationshipDefect (hentities : ∀ e ∈ plan.declared, ¬ EntityDefect env e)
    (h : ∃ r ∈ plan.related, RelationshipDefect env r) :
    ∃ err nodes, plan.declared.mapM (buildNode env plan) = .ok nodes ∧
      write env plan s = (.error err, conclude s
        ((s.buffered.upsertChunks plan.chunks.allChunksData).upsertNodes nodes) true) := by
  obtain ⟨nodes,entities,hnodes,hrecords⟩ := entities_ok hentities
  obtain ⟨r,hr,hdefect⟩ := h
  have hsome : plan.related.isEmpty = false := by
    rw [isEmpty_eq_false_iff_exists_mem]
    exact ⟨r,hr⟩
  simp only [write,fst_buildNodes,hnodes,hrecords,hsome,Bool.not_false,Bool.or_true]
  cases hrows : plan.related.mapM (related env) with
  | error err => exact ⟨err,nodes,rfl,rfl⟩
  | ok rows =>
    obtain ⟨row,hrow⟩ := Results.exists_of_mem (Results.mapM_ok hrows) hr
    obtain ⟨err,herr⟩ := Results.mapM_fails.mpr
      ⟨row,(Results.mapM_mem hrows).mpr ⟨r,hr,hrow⟩,(relationRecord_fails hrow).mpr hdefect⟩
    dsimp only
    rw [herr]
    exact ⟨err,nodes,rfl,rfl⟩

theorem write_ok (hentities : ∀ e ∈ plan.declared, ¬ EntityDefect env e)
    (h : ∀ r ∈ plan.related, ¬ RelationshipDefect env r) :
    ∃ contents rows entities relations update, plan.related.mapM (related env) = .ok rows ∧
      contents.edges = s.buffered.edges ∧
      write env plan s = (.ok (), conclude s
        (Contents.upsertRelationships env contents rows entities relations) update) := by
  obtain ⟨nodes,entities,hnodes,hrecords⟩ := entities_ok hentities
  simp only [write,fst_buildNodes,hnodes,hrecords]
  cases hrows : plan.related.mapM (related env) with
  | error err =>
    obtain ⟨r,hr,err,hfails⟩ := Results.mapM_fails.mp ⟨err,hrows⟩
    exact absurd (related_fails hfails) (h r hr)
  | ok rows =>
    cases hrelations : rows.mapM (relationRecord env) with
    | error err =>
      obtain ⟨row,hrow,hfails⟩ := Results.mapM_fails.mp ⟨err,hrelations⟩
      obtain ⟨r,hr,hbuilt⟩ := (Results.mapM_mem hrows).mp hrow
      exact absurd ((relationRecord_fails hbuilt).mp hfails) (h r hr)
    | ok relations =>
      refine ⟨(s.buffered.upsertChunks plan.chunks.allChunksData).upsertNodes nodes,rows,entities,
        relations,(buildNodes env plan plan.declared
          (! plan.chunks.allChunksData.entries.isEmpty)).2 || ! nodes.isEmpty ||
            ! plan.related.isEmpty,rfl,rfl,?_⟩
      simp only [hrelations]

theorem missingNodes_complete {nodes : Dict Name NodeData}
    {rows : List (RelationshipData × EdgeRow)} {row : RelationshipData × EdgeRow} (h : row ∈ rows)
    {name : Name} (hname : name = row.1.srcId ∨ name = row.1.tgtId) :
    nodes.get name ≠ none ∨ (missingNodes env nodes rows).get name ≠ none := by
  -- what one row adds stays, and its own ends are known behind it
  have hone : ∀ (d : Dict Name NodeData) (edge : EdgeRow) (x y : Name),
      d.get y ≠ none → ((if (nodes.get x).isSome ∨ (d.get x).isSome then d
        else d.set x (missingNode env edge)).get y) ≠ none := by
    intro d edge x y hy
    split
    · exact hy
    · rw [Dict.get_set]
      split
      · exact Option.some_ne_none _
      · exact hy
  have hown : ∀ (d : Dict Name NodeData) (edge : EdgeRow) (x : Name), nodes.get x ≠ none ∨
      ((if (nodes.get x).isSome ∨ (d.get x).isSome then d
        else d.set x (missingNode env edge)).get x) ≠ none := by
    intro d edge x
    split
    · rename_i hknown
      exact hknown.imp Option.isSome_iff_ne_none.mp Option.isSome_iff_ne_none.mp
    · rw [Dict.get_set,if_pos rfl]
      exact .inr (Option.some_ne_none _)
  rcases hname with rfl | rfl
  · by_cases hnode : nodes.get row.1.srcId = none
    · refine .inr (foldl_gains (fun d : Dict Name NodeData => d.get row.1.srcId ≠ none) ?_ h ?_)
      · exact fun d row' hd => hone _ _ _ _ (hone _ _ _ _ hd)
      · exact fun d => hone _ _ _ _ ((hown d row.2 row.1.srcId).resolve_left (not_not.mpr hnode))
    · exact .inl hnode
  · by_cases hnode : nodes.get row.1.tgtId = none
    · refine .inr (foldl_gains (fun d : Dict Name NodeData => d.get row.1.tgtId ≠ none) ?_ h ?_)
      · exact fun d row' hd => hone _ _ _ _ (hone _ _ _ _ hd)
      · exact fun d => (hown _ row.2 row.1.tgtId).resolve_left (not_not.mpr hnode)
    · exact .inl hnode

theorem edges_cases (env : Env) (contents : Contents) (rows : List (RelationshipData × EdgeRow))
    (entities : List (String × EntityRecord)) (relations : List (String × RelationRecord))
    (p : Pair) :
    (Contents.upsertRelationships env contents rows entities relations).edges.get p =
        contents.edges.get p ∨
      ∃ row ∈ rows, p = s(row.1.srcId, row.1.tgtId) ∧
        (Contents.upsertRelationships env contents rows entities relations).edges.get p =
          some row.2 := by
  by_cases hp : p ∈ (rows.map fun row => (s(row.1.srcId, row.1.tgtId), row.2)).map Prod.fst
  · obtain ⟨edge,hedge,hget⟩ := Dict.get_update_mem (d := contents.edges) hp
    obtain ⟨row,hrow,heq⟩ := mem_map.mp hedge
    obtain ⟨rfl,rfl⟩ := Prod.mk.inj heq
    exact .inr ⟨row,hrow,rfl,hget⟩
  · exact .inl (Dict.get_update_of_not_mem hp)

theorem accepted (hplan : validate env kg = .ok plan)
    (hentities : ∀ e ∈ plan.declared, ¬ EntityDefect env e)
    (hrelationships : ∀ r ∈ plan.related, ¬ RelationshipDefect env r) : Honest env kg s := by
  obtain ⟨contents,rows,entities,relations,update,hrows,hedges,hwrite⟩ :=
    write_ok (s := s) hentities hrelationships
  have hresult : ainsertCustomKg env kg s = (.ok (), conclude s
      (Contents.upsertRelationships env contents rows entities relations) update) := by
    rw [ainsertCustomKg,hplan,← hwrite]
  obtain ⟨hvalid,hnames⟩ := validate_relationships hplan
  have hrow : ∀ row ∈ rows, ∃ r ∈ plan.related, related env r = .ok row :=
    fun row hrow => (Results.mapM_mem hrows).mp hrow
  refine ⟨fun e h => ?_,fun _ data hdata key hkey => ?_,fun _ e => ?_,fun _ p edge hget => ?_⟩
  · rw [hresult] at h
    cases h
  · obtain ⟨text,htext,r,hr,hname⟩ := hnames data hdata key hkey
    obtain ⟨row,hbuilt⟩ := Results.exists_of_mem (Results.mapM_ok hrows) hr
    rw [← (related_ok hbuilt).1] at hname
    refine ⟨text,htext,?_⟩
    rw [hresult]
    change ((contents.nodes.overwrite (missingNodes env contents.nodes rows)).get
      (env.normalizeEntityName text)) ≠ none
    have hmem := (Results.mapM_mem hrows).mpr ⟨r,hr,hbuilt⟩
    rw [Dict.get_overwrite]
    cases hmissing : (missingNodes env contents.nodes rows).get (env.normalizeEntityName text) with
    | some node => exact Option.some_ne_none node
    | none =>
      exact (missingNodes_complete hmem hname).resolve_right (not_not.mpr hmissing)
  · rw [hresult]
    rcases edges_cases env contents rows entities relations s(e, e) with hsame | ⟨row,hmem,hpair,-⟩
    · exact hsame.trans (by rw [hedges])
    · obtain ⟨r,hr,hbuilt⟩ := hrow row hmem
      have hloop : r.srcId = r.tgtId := by
        rw [← (related_ok hbuilt).1]
        rcases Sym2.eq_iff.mp hpair with ⟨hsrc,htgt⟩ | ⟨htgt,hsrc⟩
        · exact hsrc.symm.trans htgt
        · exact hsrc.symm.trans htgt
      exact absurd hloop (hvalid r hr).ends
  · rw [hresult] at hget
    rcases edges_cases env contents rows entities relations p with hsame | ⟨row,hmem,-,hnew⟩
    · refine .inl ?_
      rw [← hedges,← hsame]
      exact hget
    · refine .inr ?_
      obtain rfl := Option.some.inj (hnew.symm.trans hget)
      obtain ⟨r,hr,hbuilt⟩ := hrow row hmem
      obtain ⟨-,hweight,hsource,-⟩ := related_ok hbuilt
      rw [hweight,hsource]
      exact (hvalid r hr).weight

theorem honest_of_refused {err : PayloadError} {after : Storages}
    (h : ainsertCustomKg env kg s = (.error err, after)) : Honest env kg s ↔
      Same after.buffered s.buffered ∧ Same after.durable s.durable := by
  constructor
  · intro hh
    have hclean := hh.clean err (by rw [h])
    rw [h] at hclean
    exact hclean
  · intro hclean
    refine ⟨fun _ _ => by rw [h]; exact hclean,fun hok => ?_,fun hok => ?_,fun hok => ?_⟩
    all_goals
      rw [h] at hok
      cases hok

theorem nodes_nodup {nodes : List (Name × NodeData)} (hplan : validate env kg = .ok plan)
    (hnodes : plan.declared.mapM (buildNode env plan) = .ok nodes) :
    (nodes.map Prod.fst).Nodup := by
  have hnames : ∀ (es : List EntityData) (nodes : List (Name × NodeData)),
      List.Forall₂ (fun e node => buildNode env plan e = .ok node) es nodes →
        nodes.map Prod.fst = es.map EntityData.name := by
    intro es nodes h
    induction h with
    | nil => rfl
    | cons hnode _ ih => rw [map_cons,map_cons,ih,(buildNode_ok hnode).1]
  rw [hnames _ _ (Results.mapM_ok hnodes)]
  exact validate_names hplan

/-- A custom knowledge graph is refused without a trace or accepted soundly if and only if what is
written before a late defect is nothing new. -/
theorem customKg_honest_iff (env : Env) (kg : Payload) (s : Storages) :
    Honest env kg s ↔ ∀ plan, validate env kg = .ok plan → Harmless env plan s := by
  cases hplan : validate env kg with
  | error err =>
    refine iff_of_true ?_ fun plan h => nomatch h
    have hresult : ainsertCustomKg env kg s = (.error err, s) := by rw [ainsertCustomKg,hplan]
    exact (honest_of_refused hresult).mpr ⟨.refl _,.refl _⟩
  | ok plan =>
    have hwritten : ainsertCustomKg env kg s = write env plan s := by rw [ainsertCustomKg,hplan]
    simp only [ok.injEq,forall_eq']
    by_cases hentities : ∃ e ∈ plan.declared, EntityDefect env e
    · obtain ⟨err,update,hwrite,hupdate⟩ := write_entityDefect (s := s) hentities
      rw [honest_of_refused (hwritten.trans hwrite),conclude_same,upsertChunks_same,hupdate]
      constructor
      · intro h
        refine ⟨fun _ => h,fun hnone => ?_⟩
        obtain ⟨e,he,hdefect⟩ := hentities
        exact absurd hdefect (hnone e he)
      · exact fun h => h.entities hentities
    · have hnone : ∀ e ∈ plan.declared, ¬ EntityDefect env e := by simpa using hentities
      by_cases hrelationships : ∃ r ∈ plan.related, RelationshipDefect env r
      · obtain ⟨err,nodes,hnodes,hwrite⟩ :=
          write_relationshipDefect (s := s) hnone hrelationships
        have hstored : (∀ node ∈ nodes, s.buffered.nodes.get node.1 = some node.2) ↔
            NodesStored env plan s := by
          constructor
          · exact fun h e he node hnode =>
              h node ((Results.mapM_mem hnodes).mpr ⟨e,he,hnode⟩)
          · intro h node hnode
            obtain ⟨e,he,hbuilt⟩ := (Results.mapM_mem hnodes).mp hnode
            exact h e he node hbuilt
        rw [honest_of_refused (hwritten.trans hwrite),conclude_same,
          upsertNodes_same (nodes_nodup hplan hnodes),hstored]
        constructor
        · rintro ⟨⟨hchunks,hnodes⟩,hflushed⟩
          exact ⟨fun h => absurd h hentities,fun _ _ => ⟨hchunks,hnodes,hflushed rfl⟩⟩
        · intro h
          obtain ⟨hchunks,hnodes,hflushed⟩ := h.relationships hnone hrelationships
          exact ⟨⟨hchunks,hnodes⟩,fun _ => hflushed⟩
      · refine iff_of_true ?_ ⟨fun h => absurd h hentities,fun _ h => absurd h hrelationships⟩
        exact accepted hplan hnone (by simpa using hrelationships)

end

/-- Texts are taken as they are, and everything fits. -/
def plainEnv : Env where
  normalizeEntityName := id
  sanitizeTextForEncoding := id
  tokens := String.length
  hash := id
  normalizeDocumentFilePath _ := "custom_kg"
  storable _ := true
  parseNumber _ := none
  truncateVdbContent := some
  str _ := ""
  now := 0
  fullDocId := none

def noContents : Contents :=
  ⟨Dict.empty, Dict.empty, Dict.empty, Dict.empty, Dict.empty, Dict.empty⟩

def undescribed : Payload where
  chunks := [[("content", .string "text"), ("source_id", .string "doc")]]
  entities := [[("entity_name", .string "A")]]
  relationships := [[("src_id", .string "A"), ("tgt_id", .string "B"), ("keywords", .string "k")]]

/-- The payload is refused, its chunk and its entity stay. -/
theorem refused_with_traces :
    (ainsertCustomKg plainEnv undescribed ⟨noContents, noContents⟩).1 =
        .error (.missingKey "description") ∧
      ¬ Honest plainEnv undescribed ⟨noContents, noContents⟩ := by
  have hrefused : (ainsertCustomKg plainEnv undescribed ⟨noContents,noContents⟩).1 =
      .error (.missingKey "description") := by decide +kernel
  refine ⟨hrefused,fun h => ?_⟩
  have hchunk := (h.clean _ hrefused).2.textChunks "chunk-text"
  have hwritten : ((ainsertCustomKg plainEnv undescribed
      ⟨noContents,noContents⟩).2.durable.textChunks.get "chunk-text").isSome = true := by
    decide +kernel
  rw [hchunk] at hwritten
  cases hwritten

end LightRAG.Knowledge.CustomKg
