import LightRAG.Knowledge.GraphSearch
import Mathlib.Data.Sym.Sym2.Order

/-!
# When the extracted graph is exact

The edges of a subgraph come once each, and those with an id of their own are kept.
-/

namespace LightRAG.GraphQuery
open List

variable {δ ε : Type} {g : Graph δ ε} {start : Label} {maxDepth n : ℕ}

def Between (g : Graph δ ε) (chosen : List Label) (p : Sym2 Label) : Prop :=
  ∃ u ∈ chosen, ∃ v ∈ chosen, v ∈ g.neighbors u ∧ p = s(u, v)

def ends (edge : Label × Label) : Sym2 Label := s(edge.1, edge.2)

def pairId (p : Sym2 Label) : String := p.inf ++ ("-" ++ p.sup)

theorem orient_eq (edge : Label × Label) : orient edge = ((ends edge).inf, (ends edge).sup) := by
  unfold orient ends
  rw [Sym2.inf_mk,Sym2.sup_mk]
  split
  · rename_i h
    rw [inf_eq_right.mpr h.le,sup_eq_left.mpr h.le]
  · rename_i h
    rw [inf_eq_left.mpr (not_lt.mp h),sup_eq_right.mpr (not_lt.mp h)]

theorem edgeId_eq (edge : Label × Label) : edgeId edge = pairId (ends edge) := by
  rw [edgeId,orient_eq,pairId]

theorem mk_orient (edge : Label × Label) : s((orient edge).1, (orient edge).2) = ends edge := by
  unfold orient ends
  split
  · exact Sym2.eq_swap
  · rfl

variable {chosen us seen : List Label} {edge : Label × Label}

theorem of_mem_subgraphEdges (h : edge ∈ subgraphEdges g chosen seen us) :
    edge.1 ∈ us ∧ edge.2 ∈ chosen ∧ edge.2 ∉ seen ∧ edge.2 ∈ g.neighbors edge.1 := by
  induction us generalizing seen with
  | nil => cases h
  | cons u us ih =>
    cases mem_append.mp h with
    | inl hfirst =>
      obtain ⟨v,hv,rfl⟩ := mem_map.mp hfirst
      obtain ⟨hadj,hchosen⟩ := mem_filter.mp hv
      rw [decide_eq_true_eq] at hchosen
      exact ⟨mem_cons_self,hchosen.1,hchosen.2,hadj⟩
    | inr hrest =>
      obtain ⟨hu,hchosen,hnew,hadj⟩ := ih hrest
      exact ⟨mem_cons_of_mem _ hu,hchosen,fun hseen => hnew (mem_cons_of_mem _ hseen),hadj⟩

theorem mem_subgraphEdges (hchosen : ∀ x ∈ us, x ∈ chosen) (hnew : ∀ x ∈ us, x ∉ seen)
    (hnd : us.Nodup) {u v : Label} (hu : u ∈ us) (hv : v ∈ us) (hadj : v ∈ g.neighbors u) :
    s(u, v) ∈ (subgraphEdges g chosen seen us).map ends := by
  induction us generalizing seen with
  | nil => cases hu
  | cons w ws ih =>
    obtain ⟨hw,hws⟩ := nodup_cons.mp hnd
    rw [subgraphEdges,map_append,mem_append]
    have hdraw : ∀ {a}, a ∈ w :: ws → a ∈ g.neighbors w →
        s(w, a) ∈ (((g.neighbors w).filter fun v => v ∈ chosen ∧ v ∉ seen).map
          fun v => (w, v)).map ends := by
      intro a ha hwa
      refine mem_map.mpr ⟨(w, a),mem_map.mpr ⟨a,mem_filter.mpr ⟨hwa,?_⟩,rfl⟩,rfl⟩
      rw [decide_eq_true_eq]
      exact ⟨hchosen a ha,hnew a ha⟩
    by_cases huw : u = w
    · rw [huw] at hadj ⊢
      exact .inl (hdraw hv hadj)
    · by_cases hvw : v = w
      · rw [hvw] at hadj ⊢
        rw [Sym2.eq_swap]
        exact .inl (hdraw hu (g.symm hadj))
      · right
        apply ih (fun x hx => hchosen x (mem_cons_of_mem _ hx)) _ hws
          ((mem_cons.mp hu).resolve_left huw) ((mem_cons.mp hv).resolve_left hvw)
        intro x hx hseen
        cases hseen with
        | head => exact hw hx
        | tail _ hold => exact hnew x (mem_cons_of_mem _ hx) hold

theorem nodup_subgraphEdges (hnd : us.Nodup) :
    ((subgraphEdges g chosen seen us).map ends).Nodup := by
  induction us generalizing seen with
  | nil => exact nodup_nil
  | cons u us ih =>
    obtain ⟨hu,hus⟩ := nodup_cons.mp hnd
    rw [subgraphEdges,map_append]
    refine nodup_append.mpr ⟨?_,ih hus,?_⟩
    · rw [map_map]
      apply ((g.nodup u).filter _).map
      intro a b hab
      exact Sym2.congr_right.mp hab
    · intro p hp q hq hpq
      obtain ⟨e,he,rfl⟩ := mem_map.mp hp
      obtain ⟨v,-,rfl⟩ := mem_map.mp he
      obtain ⟨e',he',rfl⟩ := mem_map.mp hq
      obtain ⟨hin,-,hnew,-⟩ := of_mem_subgraphEdges he'
      have hends : s(u, v) = s(e'.1, e'.2) := hpq
      have hmem : u ∈ s(e'.1, e'.2) := by
        rw [← hends]
        exact Sym2.mem_mk_left u v
      cases Sym2.mem_iff.mp hmem with
      | inl hfirst => exact hu (hfirst ▸ hin)
      | inr hsecond => exact hnew (hsecond ▸ mem_cons_self)

theorem mem_ends_subgraphEdges (hnd : chosen.Nodup) {p : Sym2 Label} :
    p ∈ (subgraphEdges g chosen [] chosen).map ends ↔ Between g chosen p := by
  constructor
  · intro h
    obtain ⟨e,he,rfl⟩ := mem_map.mp h
    obtain ⟨hu,hv,-,hadj⟩ := of_mem_subgraphEdges he
    exact ⟨e.1,hu,e.2,hv,hadj,rfl⟩
  · rintro ⟨u,hu,v,hv,hadj,rfl⟩
    exact mem_subgraphEdges (fun _ hx => hx) (fun _ _ => not_mem_nil) hnd hu hv hadj

def KnowledgeGraphEdge.ends (e : KnowledgeGraphEdge ε) : Sym2 Label := s(e.source, e.target)

variable {seenEdges : List String} {edges : List (Label × Label)}

theorem addEdges_sublist :
    ((addEdges g seenEdges edges).map KnowledgeGraphEdge.ends).Sublist (edges.map ends) := by
  induction edges generalizing seenEdges with
  | nil => exact List.Sublist.refl []
  | cons e es ih =>
    rw [addEdges]
    split
    · exact ih.cons _
    · rw [map_cons,KnowledgeGraphEdge.ends,mk_orient]
      exact ih.cons_cons _

theorem of_mem_addEdges {e : KnowledgeGraphEdge ε} (h : e ∈ addEdges g seenEdges edges) :
    e.id = pairId e.ends ∧ e.id ∉ seenEdges ∧ e.properties = g.edgeData e.ends := by
  induction edges generalizing seenEdges with
  | nil => cases h
  | cons e' es ih =>
    rw [addEdges] at h
    split at h
    · exact ih h
    · rename_i hnew
      cases h with
      | head =>
        refine ⟨?_,hnew,?_⟩
        · rw [KnowledgeGraphEdge.ends,mk_orient]
          exact edgeId_eq e'
        · rw [KnowledgeGraphEdge.ends,mk_orient]
          rfl
      | tail _ hrest =>
        obtain ⟨hid,hseen,hdata⟩ := ih hrest
        exact ⟨hid,fun hold => hseen (mem_cons_of_mem _ hold),hdata⟩

theorem nodup_addEdges : ((addEdges g seenEdges edges).map KnowledgeGraphEdge.id).Nodup := by
  induction edges generalizing seenEdges with
  | nil => exact nodup_nil
  | cons e es ih =>
    rw [addEdges]
    split
    · exact ih
    · refine nodup_cons.mpr ⟨?_,ih⟩
      intro hin
      obtain ⟨e',he',hid⟩ := mem_map.mp hin
      apply (of_mem_addEdges he').2.1
      rw [hid]
      exact mem_cons_self

theorem addEdges_ends (hids : ((edges.map ends).map pairId).Nodup)
    (hnew : ∀ e ∈ edges, edgeId e ∉ seenEdges) :
    (addEdges g seenEdges edges).map KnowledgeGraphEdge.ends = edges.map ends := by
  induction edges generalizing seenEdges with
  | nil => rfl
  | cons e es ih =>
    rw [map_cons,map_cons,nodup_cons] at hids
    rw [addEdges,if_neg (hnew e mem_cons_self),map_cons,map_cons,
      KnowledgeGraphEdge.ends,mk_orient,ih hids.2]
    intro e' he' hseen
    cases mem_cons.mp hseen with
    | inl heq =>
      apply hids.1
      rw [← edgeId_eq,← heq,edgeId_eq]
      exact mem_map_of_mem (mem_map_of_mem he')
    | inr hold => exact hnew e' (mem_cons_of_mem _ he') hold

def DistinctIds (g : Graph δ ε) (chosen : List Label) : Prop :=
  ∀ p q, Between g chosen p → Between g chosen q → pairId p = pairId q → p = q

theorem Between.of_perm {others : List Label} (hperm : chosen.Perm others) {p : Sym2 Label}
    (h : Between g chosen p) : Between g others p := by
  obtain ⟨u,hu,v,hv,hadj,hp⟩ := h
  exact ⟨u,hperm.mem_iff.mp hu,v,hperm.mem_iff.mp hv,hadj,hp⟩

theorem between_perm {others : List Label} (hperm : chosen.Perm others) {p : Sym2 Label} :
    Between g chosen p ↔ Between g others p :=
  ⟨Between.of_perm hperm,Between.of_perm hperm.symm⟩

theorem addEdges_all_iff (hnd : chosen.Nodup) :
    (∀ p, p ∈ (addEdges g [] (subgraphEdges g chosen [] chosen)).map KnowledgeGraphEdge.ends ↔
      Between g chosen p) ↔ DistinctIds g chosen := by
  constructor
  · intro hall p q hp hq hid
    obtain ⟨e,he,rfl⟩ := mem_map.mp ((hall p).mpr hp)
    obtain ⟨e',he',rfl⟩ := mem_map.mp ((hall q).mpr hq)
    have heq : e.id = e'.id := by
      rw [(of_mem_addEdges he).1,(of_mem_addEdges he').1,hid]
    rw [inj_on_of_nodup_map nodup_addEdges he he' heq]
  · intro hids p
    have hedges : (((subgraphEdges g chosen [] chosen).map ends).map pairId).Nodup := by
      apply List.Nodup.map_on _ (nodup_subgraphEdges hnd)
      intro a ha b hb hab
      exact hids a b ((mem_ends_subgraphEdges hnd).mp ha) ((mem_ends_subgraphEdges hnd).mp hb) hab
    rw [addEdges_ends hedges fun _ _ => not_mem_nil]
    exact mem_ends_subgraphEdges hnd

/-- The first nodes within the depth, the edges between them once each, and whether nodes within the
depth were left out. -/
structure Exact (g : Graph δ ε) (start : Label) (maxDepth n : ℕ) (r : KnowledgeGraph δ ε) :
    Prop where
  nodes : (r.nodes.map KnowledgeGraphNode.id).Perm ((g.ranked start maxDepth).take n)
  properties : ∀ u ∈ r.nodes, u.properties = g.nodes.get u.id
  once : (r.edges.map KnowledgeGraphEdge.ends).Nodup
  edges : ∀ p, p ∈ r.edges.map KnowledgeGraphEdge.ends ↔
    Between g ((g.ranked start maxDepth).take n) p
  edgeData : ∀ e ∈ r.edges, e.properties = g.edgeData e.ends
  truncated : r.isTruncated = true ↔ n < (g.ball start maxDepth).length

theorem ids_addSubgraph (g : Graph δ ε) (us : List Label) (b : Bool) :
    (addSubgraph g us b).nodes.map KnowledgeGraphNode.id = us := by
  simp [addSubgraph,Function.comp_def]

theorem addSubgraph_exact_iff {listed : List Label} (hperm : listed.Perm chosen)
    (hnd : chosen.Nodup) (b : Bool) :
    Exact g start maxDepth n (addSubgraph g listed b) ↔
      chosen.Perm ((g.ranked start maxDepth).take n) ∧
        DistinctIds g ((g.ranked start maxDepth).take n) ∧
        (b = true ↔ n < (g.ball start maxDepth).length) := by
  have hlisted : listed.Nodup := hperm.nodup_iff.mpr hnd
  constructor
  · intro h
    have hnodes := h.nodes
    rw [ids_addSubgraph] at hnodes
    refine ⟨hperm.symm.trans hnodes,?_,h.truncated⟩
    intro p q hp hq
    have hids : DistinctIds g listed :=
      (addEdges_all_iff hlisted).mp fun p => (h.edges p).trans (between_perm hnodes.symm)
    exact hids p q (hp.of_perm hnodes.symm) (hq.of_perm hnodes.symm)
  · intro ⟨hnodes,hids,hflag⟩
    have hall : listed.Perm ((g.ranked start maxDepth).take n) := hperm.trans hnodes
    have hdistinct : DistinctIds g listed :=
      fun p q hp hq => hids p q (hp.of_perm hall) (hq.of_perm hall)
    constructor
    case nodes => rwa [ids_addSubgraph]
    case properties =>
      intro u hu
      obtain ⟨x,-,rfl⟩ := mem_map.mp hu
      rfl
    case once => exact addEdges_sublist.nodup (nodup_subgraphEdges hlisted)
    case edges =>
      exact fun p => ((addEdges_all_iff hlisted).mpr hdistinct p).trans (between_perm hall)
    case edgeData => exact fun e he => (of_mem_addEdges he).2.2
    case truncated => exact hflag

theorem Graph.ball_eq_nil (hstart : start ∉ g.nodes.keys) : g.ball start maxDepth = [] := by
  apply filter_eq_nil_iff.mpr
  intro x hx hwithin
  apply hstart
  obtain ⟨d,-,hat⟩ := exists_at hwithin
  clear hwithin
  induction d generalizing x with
  | zero =>
    have hxs : x = start := by simpa [Graph.within] using hat.1
    rwa [← hxs]
  | succ d ih =>
    obtain ⟨y,hy,hadj⟩ := hat.exists_neighbor
    exact ih y (g.inside (g.symm hadj)) hy

theorem Graph.length_ranked : (g.ranked start maxDepth).length = (g.ball start maxDepth).length :=
  (Smallest.perm_sorted _ _).length_eq

theorem Graph.nodup_ranked : (g.ranked start maxDepth).Nodup :=
  (Smallest.perm_sorted _ _).nodup_iff.mpr (g.nodes.nodup.filter _)

theorem nodup_popularNodes (g : Graph δ ε) : (popularNodes g).Nodup :=
  (Smallest.perm_sorted _ _).nodup_iff.mpr g.nodes.nodup

/-- Around a start node, the flag is right unless the limit is met exactly by nodes of which one at
the greatest depth has an outer neighbour; the label that asks for all nodes gives those of the
greatest degrees. -/
def MeetsLimit (g : Graph δ ε) (start : Label) (maxDepth n : ℕ) : Prop :=
  if start = allNodes then
    ((popularNodes g).take n).Perm ((g.ranked start maxDepth).take n) ∧
      (n < (popularNodes g).length ↔ n < (g.ball start maxDepth).length)
  else ¬ ((g.ball start maxDepth).length = n ∧ HasOuterNeighbor g start maxDepth)

/-- When the extraction is exact. -/
theorem getKnowledgeGraph_exact_iff (g : Graph δ ε) {listing : List Label → List Label}
    (hlisting : ∀ xs, (listing xs).Perm xs) (maxGraphNodes : ℕ) (start : Label) (maxDepth : ℕ)
    (maxNodes : Option ℕ) (hpos : 0 < effectiveMaxNodes maxGraphNodes maxNodes) :
    Exact g start maxDepth (effectiveMaxNodes maxGraphNodes maxNodes)
        (getKnowledgeGraph g listing maxGraphNodes start maxDepth maxNodes) ↔
      MeetsLimit g start maxDepth (effectiveMaxNodes maxGraphNodes maxNodes) ∧
        DistinctIds g
          ((g.ranked start maxDepth).take (effectiveMaxNodes maxGraphNodes maxNodes)) := by
  unfold getKnowledgeGraph MeetsLimit
  generalize effectiveMaxNodes maxGraphNodes maxNodes = n at hpos ⊢
  by_cases hall : start = allNodes
  · rw [if_pos hall,if_pos hall,
      addSubgraph_exact_iff (hlisting _) ((nodup_popularNodes g).sublist (take_sublist _ _)),
      decide_eq_true_eq]
    tauto
  rw [if_neg hall,if_neg hall]
  by_cases hstart : start ∈ g.nodes.keys
  · have hfound : Found g start maxDepth n (Search.result g maxDepth n start) :=
      found_result hstart hpos
    rw [if_pos hstart,addSubgraph_exact_iff (hlisting _)
      (by rw [hfound.bfsNodes]; exact Graph.nodup_ranked.sublist (take_sublist _ _)),
      hfound.truncated,hfound.bfsNodes,Graph.length_ranked]
    constructor
    · intro ⟨_,hids,hflag⟩
      refine ⟨?_,hids⟩
      intro houter
      have hless := hflag.mp (.inr houter)
      omega
    · intro ⟨houter,hids⟩
      refine ⟨List.Perm.refl _,hids,?_⟩
      constructor
      · rintro (hless | hexact)
        · exact hless
        · exact absurd hexact houter
      · exact fun hless => .inl hless
  · have hball : g.ball start maxDepth = [] := Graph.ball_eq_nil hstart
    have hranked : g.ranked start maxDepth = [] :=
      eq_nil_of_length_eq_zero (by rw [Graph.length_ranked,hball,length_nil])
    have hnone : ∀ p, ¬ Between g [] p := by
      rintro p ⟨u,hu,-⟩
      cases hu
    rw [if_neg hstart,hball,hranked,take_nil]
    constructor
    · intro _
      refine ⟨?_,fun p _ hp => absurd hp (hnone p)⟩
      intro ⟨hlength,_⟩
      rw [length_nil] at hlength
      omega
    · intro _
      constructor
      case nodes => simp [hranked]
      case properties => exact fun _ hu => absurd hu not_mem_nil
      case once => exact nodup_nil
      case edges =>
        rw [hranked,take_nil]
        exact fun p => ⟨fun hp => absurd hp not_mem_nil,fun hp => absurd hp (hnone p)⟩
      case edgeData => exact fun _ he => absurd he not_mem_nil
      case truncated => simp [hball]

/-- `A - B - C`. -/
def path : Graph Unit Unit where
  nodes := ⟨[("A", ()), ("B", ()), ("C", ())], by decide⟩
  neighbors u := if u = "A" then ["B"] else if u = "B" then ["A", "C"] else
    if u = "C" then ["B"] else []
  nodup u := by
    split_ifs <;> decide
  symm := by
    intro u v h
    split_ifs at h with ha hb hc <;> simp_all
    cases h <;> simp_all
  inside := by
    intro u v h
    split_ifs at h with ha hb hc <;> simp_all [Dict.keys]
    cases h <;> simp_all
  edgeData _ := ()

theorem path_distinctIds : DistinctIds path ["A", "B", "C"] := by
  have hall : ∀ u ∈ ["A", "B", "C"], ∀ v ∈ ["A", "B", "C"], v ∈ path.neighbors u →
      ∀ u' ∈ ["A", "B", "C"], ∀ v' ∈ ["A", "B", "C"], v' ∈ path.neighbors u' →
        pairId s(u, v) = pairId s(u', v') → s(u, v) = s(u', v') := by decide +kernel
  rintro p q ⟨u,hu,v,hv,hadj,rfl⟩ ⟨u',hu',v',hv',hadj',rfl⟩
  exact hall u hu v hv hadj u' hu' v' hv' hadj'

/-- With room for more, the path is extracted. -/
theorem path_exact : Exact path "A" 2 5 (getKnowledgeGraph path id 1000 "A" 2 (some 5)) := by
  apply (getKnowledgeGraph_exact_iff path (fun xs => List.Perm.refl xs) 1000 "A" 2
    (some 5) (by decide)).mpr
  constructor
  · exact fun h => absurd h.1 (by decide)
  · have htake : (path.ranked "A" 2).take (effectiveMaxNodes 1000 (some 5)) = ["A", "B", "C"] := by
      decide +kernel
    exact path_distinctIds

/-- One step from the end of the path there are two nodes; both are returned, as truncated. -/
theorem path_not_exact :
    ¬ Exact path "A" 1 2 (getKnowledgeGraph path id 1000 "A" 1 (some 2)) := by
  intro h
  have hflag : (2 : ℕ) < (path.ball "A" 1).length := h.truncated.mp (by decide)
  exact absurd hflag (by decide)

end LightRAG.GraphQuery
