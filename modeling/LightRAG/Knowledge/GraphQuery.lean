import LightRAG.Framework.Dict
import LightRAG.Framework.Smallest
import Mathlib.Combinatorics.SimpleGraph.Metric
import Mathlib.Data.Prod.Lex
import Mathlib.Data.String.Basic

/-!
# The knowledge graph around a node

`NetworkXStorage.get_knowledge_graph`: a breadth-first search that takes the nodes of a level by
their degrees, up to a depth and a number of nodes, and the edges between the nodes it took.
-/

namespace LightRAG.GraphQuery

open Smallest (sorted)

abbrev Label := String

/-- A `networkx.Graph` with its nodes and the neighbours of each in order. -/
structure Graph (δ ε : Type) where
  nodes : Dict Label δ
  neighbors : Label → List Label
  nodup : ∀ u, (neighbors u).Nodup
  symm : ∀ {u v}, v ∈ neighbors u → u ∈ neighbors v
  inside : ∀ {u v}, v ∈ neighbors u → v ∈ nodes.keys
  edgeData : Sym2 Label → ε

variable {δ ε : Type}

def Graph.degree (g : Graph δ ε) (u : Label) : ℕ :=
  (g.neighbors u).length + if u ∈ g.neighbors u then 1 else 0

structure KnowledgeGraphNode (δ : Type) where
  id : Label
  labels : List Label
  properties : Option δ

structure KnowledgeGraphEdge (ε : Type) where
  id : String
  type : String
  source : Label
  target : Label
  properties : ε

structure KnowledgeGraph (δ ε : Type) where
  nodes : List (KnowledgeGraphNode δ)
  edges : List (KnowledgeGraphEdge ε)
  isTruncated : Bool

structure Entry where
  node : Label
  depth : ℕ
  degree : ℕ
deriving DecidableEq

def Entry.priority (e : Entry) : ℕᵒᵈ ×ₗ Label := toLex (OrderDual.toDual e.degree, e.node)

/-- The variables of the search; `visited` holds the nodes of `bfs_nodes`. -/
structure Search where
  bfsNodes : List Label
  queue : List Entry
  hasUnexploredNeighbors : Bool
  hasUnprocessedLevelNodes : Bool

namespace Search

variable (g : Graph δ ε) (maxDepth maxNodes : ℕ)

def visit (e : Entry) (s : Search) : Search :=
  let visited := s.bfsNodes ++ [e.node]
  let unvisited := (g.neighbors e.node).filter fun n => n ∉ visited
  if e.depth < maxDepth then
    { s with
      bfsNodes := visited
      queue := s.queue ++ unvisited.map fun n => ⟨n, e.depth + 1, g.degree n⟩ }
  else
    { s with
      bfsNodes := visited
      hasUnexploredNeighbors := s.hasUnexploredNeighbors || ! unvisited.isEmpty }

def visitNew (e : Entry) (s : Search) : Search :=
  if e.node ∈ s.bfsNodes then s else s.visit g maxDepth e

/-- The nodes of one level in order, until there are enough of them. -/
def processLevel : List Entry → Search → Search
  | [], s => s
  | e :: rest, s =>
    let s := s.visitNew g maxDepth e
    if maxNodes ≤ s.bfsNodes.length then
      { s with hasUnprocessedLevelNodes :=
          s.hasUnprocessedLevelNodes || rest.any fun e => e.node ∉ s.bfsNodes }
    else processLevel rest s

/-- One turn of the outer loop: the entries at the depth of the first one. -/
def turn (s : Search) : Search :=
  match s.queue with
  | [] => s
  | first :: _ =>
    let level := s.queue.takeWhile fun e => e.depth = first.depth
    processLevel g maxDepth maxNodes (sorted Entry.priority level)
      { s with queue := s.queue.dropWhile fun e => e.depth = first.depth }

def goesOn (s : Search) : Bool := ! s.queue.isEmpty && decide (s.bfsNodes.length < maxNodes)

def loop : ℕ → Search → Search
  | 0, s => s
  | n + 1, s => if s.goesOn maxNodes then loop n (s.turn g maxDepth maxNodes) else s

def begin (start : Label) : Search := ⟨[], [⟨start, 0, g.degree start⟩], false, false⟩

def result (start : Label) : Search := loop g maxDepth maxNodes (maxDepth + 1) (begin g start)

/-- `has_max_nodes_truncation`. -/
def isTruncated (s : Search) : Bool :=
  decide (maxNodes ≤ s.bfsNodes.length) &&
    ((s.queue.any fun e => e.node ∉ s.bfsNodes) || s.hasUnprocessedLevelNodes ||
      s.hasUnexploredNeighbors)

end Search

/-- `subgraph.edges()`: from each node in turn to the neighbours that did not have their turn. -/
def subgraphEdges (g : Graph δ ε) (chosen : List Label) : List Label → List Label →
    List (Label × Label)
  | _, [] => []
  | seen, u :: us =>
    (((g.neighbors u).filter fun v => v ∈ chosen ∧ v ∉ seen).map fun v => (u, v)) ++
      subgraphEdges g chosen (u :: seen) us

def orient (edge : Label × Label) : Label × Label :=
  if edge.2 < edge.1 then (edge.2, edge.1) else edge

def edgeId (edge : Label × Label) : String :=
  (orient edge).1 ++ ("-" ++ (orient edge).2)

def addEdges (g : Graph δ ε) : List String → List (Label × Label) → List (KnowledgeGraphEdge ε)
  | _, [] => []
  | seenEdges, edge :: edges =>
    if edgeId edge ∈ seenEdges then addEdges g seenEdges edges
    else
      ⟨edgeId edge, "DIRECTED", (orient edge).1, (orient edge).2, g.edgeData s(edge.1, edge.2)⟩ ::
        addEdges g (edgeId edge :: seenEdges) edges

/-- The nodes of a subgraph view come in the order of the graph or of a set. -/
def addSubgraph (g : Graph δ ε) (listing : List Label) (isTruncated : Bool) :
    KnowledgeGraph δ ε where
  nodes := listing.map fun u => ⟨u, [u], g.nodes.get u⟩
  edges := addEdges g [] (subgraphEdges g listing [] listing)
  isTruncated := isTruncated

def allNodes : Label := "*"

def popularNodes (g : Graph δ ε) : List Label :=
  sorted (fun u => toLex (OrderDual.toDual (g.degree u), u)) g.nodes.keys

def effectiveMaxNodes (maxGraphNodes : ℕ) (maxNodes : Option ℕ) : ℕ :=
  match maxNodes with
  | none => maxGraphNodes
  | some n => min n maxGraphNodes

/-- `listing` is the order in which a subgraph view gives some nodes. -/
def getKnowledgeGraph (g : Graph δ ε) (listing : List Label → List Label) (maxGraphNodes : ℕ)
    (nodeLabel : Label) (maxDepth : ℕ) (maxNodes : Option ℕ) : KnowledgeGraph δ ε :=
  let maxNodes := effectiveMaxNodes maxGraphNodes maxNodes
  if nodeLabel = allNodes then
    addSubgraph g (listing ((popularNodes g).take maxNodes))
      (decide (maxNodes < (popularNodes g).length))
  else if nodeLabel ∈ g.nodes.keys then
    let found := Search.result g maxDepth maxNodes nodeLabel
    addSubgraph g (listing found.bfsNodes) (found.isTruncated maxNodes)
  else ⟨[], [], false⟩

end LightRAG.GraphQuery

/-!
## The nodes around a node, by distance

Which nodes are within a distance, in the order of distance, degree and label, and the distances
as those of the simple graph.
-/

namespace LightRAG.GraphQuery

open Smallest (sorted)

namespace Graph

variable {δ ε : Type} (g : Graph δ ε) (start : Label)

def within : ℕ → Label → Bool
  | 0, x => x = start
  | d + 1, x => within d x || (g.neighbors x).any (within d)

def distance (maxDepth : ℕ) (x : Label) : ℕ :=
  (List.range maxDepth).countP fun d => ! g.within start d x

/-- The nodes at distance at most `maxDepth`. -/
def ball (maxDepth : ℕ) : List Label := g.nodes.keys.filter (g.within start maxDepth)

def rank (maxDepth : ℕ) (x : Label) : ℕ ×ₗ (ℕᵒᵈ ×ₗ Label) :=
  toLex (g.distance start maxDepth x, toLex (OrderDual.toDual (g.degree x), x))

def ranked (maxDepth : ℕ) : List Label := sorted (g.rank start maxDepth) (g.ball start maxDepth)

def At (d : ℕ) (x : Label) : Prop := g.within start d x = true ∧ ∀ e < d, g.within start e x = false

variable {g start} {d e maxDepth : ℕ} {x y : Label}

theorem within_succ : g.within start (d + 1) x = true ↔
    g.within start d x = true ∨ ∃ y ∈ g.neighbors x, g.within start d y = true := by
  simp [within]

theorem within_mono (hle : d ≤ e) (h : g.within start d x = true) : g.within start e x = true := by
  induction hle with
  | refl => exact h
  | step _ ih => exact within_succ.mpr (.inl ih)

theorem within_neighbor (h : g.within start d y = true) (hadj : x ∈ g.neighbors y) :
    g.within start (d + 1) x = true := within_succ.mpr (.inr ⟨y,g.symm hadj,h⟩)

theorem mem_keys_of_within (hstart : start ∈ g.nodes.keys) (h : g.within start d x = true) :
    x ∈ g.nodes.keys := by
  induction d with
  | zero =>
    have hx : x = start := by simpa [within] using h
    rwa [hx]
  | succ d ih =>
    cases within_succ.mp h with
    | inl hd => exact ih hd
    | inr hy =>
      obtain ⟨y,hadj,-⟩ := hy
      exact g.inside (g.symm hadj)

theorem exists_at (h : g.within start d x = true) : ∃ e ≤ d, g.At start e x := by
  induction d with
  | zero => exact ⟨0,Nat.le_refl 0,h,fun e he => absurd he (Nat.not_lt_zero e)⟩
  | succ d ih =>
    cases hd : g.within start d x with
    | true =>
      obtain ⟨e,he,hat⟩ := ih hd
      exact ⟨e,by omega,hat⟩
    | false =>
      refine ⟨d + 1,Nat.le_refl _,h,fun e he => ?_⟩
      cases hwithin : g.within start e x with
      | false => rfl
      | true =>
        have hmono := within_mono (Nat.le_of_lt_succ he) hwithin
        rw [hd] at hmono
        cases hmono

theorem At.within_iff (h : g.At start d x) : g.within start e x = true ↔ d ≤ e := by
  constructor
  · intro hwithin
    by_contra hlt
    rw [h.2 e (by omega)] at hwithin
    cases hwithin
  · exact fun hle => within_mono hle h.1

theorem At.unique (h : g.At start d x) (h' : g.At start e x) : d = e :=
  Nat.le_antisymm (h.within_iff.mp h'.1) (h'.within_iff.mp h.1)

theorem At.distance_eq (h : g.At start d x) (hle : d ≤ maxDepth) :
    g.distance start maxDepth x = d := by
  have hcount : ∀ n, (List.range n).countP (fun e => ! g.within start e x) = min n d := by
    intro n
    induction n with
    | zero => simp
    | succ n ih =>
      rw [List.range_succ,List.countP_append,List.countP_singleton]
      by_cases hn : d ≤ n
      · have hwithin : g.within start n x = true := h.within_iff.mpr hn
        simp only [hwithin,Bool.not_true,Bool.false_eq_true,if_false]
        omega
      · have hwithin : g.within start n x = false := h.2 n (by omega)
        simp only [hwithin,Bool.not_false,if_true]
        omega
  rw [distance,hcount]
  omega

theorem At.exists_neighbor (h : g.At start (d + 1) x) : ∃ y, g.At start d y ∧ x ∈ g.neighbors y := by
  cases within_succ.mp h.1 with
  | inl hd =>
    rw [h.2 d (by omega)] at hd
    cases hd
  | inr hy =>
    obtain ⟨y,hadj,hwithin⟩ := hy
    obtain ⟨e,he,hat⟩ := exists_at hwithin
    have hx : g.within start (e + 1) x = true := within_neighbor hat.1 (g.symm hadj)
    have hle : d + 1 ≤ e + 1 := h.within_iff.mp hx
    have hd : e = d := by omega
    rw [hd] at hat
    exact ⟨y,hat,g.symm hadj⟩

variable (g) in
/-- The graph without its self loops. -/
def simple : SimpleGraph Label where
  Adj u v := u ≠ v ∧ v ∈ g.neighbors u
  symm := ⟨fun _ _ h => ⟨h.1.symm, g.symm h.2⟩⟩
  loopless := ⟨fun _ h => h.1 rfl⟩

theorem within_of_walk (w : g.simple.Walk x start) : g.within start w.length x = true := by
  induction w with
  | nil => simp [within]
  | cons hadj rest ih =>
    exact within_succ.mpr (.inr ⟨_,hadj.2,ih⟩)

theorem exists_walk (h : g.within start d x = true) :
    ∃ w : g.simple.Walk x start, w.length ≤ d := by
  induction d generalizing x with
  | zero =>
    have hx : x = start := by simpa [within] using h
    subst hx
    exact ⟨.nil,Nat.le_refl 0⟩
  | succ d ih =>
    cases within_succ.mp h with
    | inl hd =>
      obtain ⟨w,hw⟩ := ih hd
      exact ⟨w,by omega⟩
    | inr hy =>
      obtain ⟨y,hadj,hwithin⟩ := hy
      obtain ⟨w,hw⟩ := ih hwithin
      by_cases hxy : x = y
      · subst hxy
        exact ⟨w,by omega⟩
      · have hstep : g.simple.Adj x y := ⟨hxy,hadj⟩
        exact ⟨.cons hstep w,by rw [SimpleGraph.Walk.length_cons]; omega⟩

theorem within_iff_edist : g.within start d x = true ↔ g.simple.edist x start ≤ d := by
  constructor
  · intro h
    obtain ⟨w,hw⟩ := exists_walk h
    exact (SimpleGraph.edist_le w).trans (by exact_mod_cast hw)
  · intro h
    have hne : g.simple.edist x start ≠ ⊤ := by
      intro htop
      rw [htop] at h
      exact absurd h (by simp)
    obtain ⟨w,hw⟩ := SimpleGraph.exists_walk_of_edist_ne_top hne
    rw [← hw] at h
    exact within_mono (by exact_mod_cast h) (within_of_walk w)

end Graph
end LightRAG.GraphQuery
