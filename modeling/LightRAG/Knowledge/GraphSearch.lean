import LightRAG.Knowledge.GraphQuery
import Mathlib.Data.List.TakeWhile

/-!
# The search takes the nodes in their order

Each turn of the search takes the nodes of one distance, by degree and label, until there are
enough; what the flags of the search say about the nodes that were left out.
-/

namespace LightRAG.GraphQuery
open List

open Smallest (sorted Ascending)

variable {δ ε : Type} {g : Graph δ ε} {start : Label} {d maxDepth maxNodes : ℕ} {x y : Label}

namespace Graph

instance (g : Graph δ ε) (start : Label) (d : ℕ) (x : Label) : Decidable (g.At start d x) :=
  inferInstanceAs (Decidable (_ ∧ _))

variable (g start) in
def priority (x : Label) : ℕᵒᵈ ×ₗ Label := toLex (OrderDual.toDual (g.degree x), x)

variable (g start) in
def levelNodes (d : ℕ) : List Label :=
  sorted g.priority (g.nodes.keys.filter fun x => decide (g.At start d x))

variable (g start) in
def upTo (d : ℕ) : List Label := (List.range d).flatMap (g.levelNodes start)

theorem priority_injective : Function.Injective g.priority := by
  intro x y h
  exact (Prod.mk.inj (toLex_inj.mp h)).2

theorem nodup_map_priority {xs : List Label} (h : xs.Nodup) : (xs.map g.priority).Nodup :=
  h.map priority_injective

theorem ascending_levelNodes : Ascending g.priority (g.levelNodes start d) :=
  Smallest.ascending_sorted (nodup_map_priority (g.nodes.nodup.filter _))

theorem mem_levelNodes (hstart : start ∈ g.nodes.keys) :
    x ∈ g.levelNodes start d ↔ g.At start d x := by
  unfold levelNodes
  rw [Smallest.mem_sorted,mem_filter,decide_eq_true_eq]
  exact ⟨fun h => h.2,fun h => ⟨mem_keys_of_within hstart h.1,h⟩⟩

theorem mem_upTo (hstart : start ∈ g.nodes.keys) :
    x ∈ g.upTo start d ↔ ∃ e < d, g.At start e x := by
  unfold upTo
  simp only [mem_flatMap,mem_range,mem_levelNodes hstart]

theorem upTo_succ : g.upTo start (d + 1) = g.upTo start d ++ g.levelNodes start d := by
  unfold upTo
  rw [range_succ,flatMap_append,flatMap_singleton]

theorem upTo_prefix {e : ℕ} (hle : d ≤ e) : g.upTo start d <+: g.upTo start e := by
  induction hle with
  | refl => exact prefix_rfl
  | step _ ih =>
    rw [upTo_succ]
    exact ih.trans (prefix_append _ _)

theorem exists_at_of_le {e : ℕ} (hle : d ≤ e) (h : g.At start e x) : ∃ y, g.At start d y := by
  induction hle generalizing x with
  | refl => exact ⟨x,h⟩
  | step _ ih =>
    obtain ⟨y,hy,-⟩ := h.exists_neighbor
    exact ih hy

theorem upTo_eq_of_none (hstart : start ∈ g.nodes.keys) (hnone : ∀ x, ¬ g.At start d x) {n : ℕ}
    (hn : d ≤ n) : g.upTo start n = g.upTo start d := by
  induction hn with
  | refl => rfl
  | step hle ih =>
    rw [upTo_succ,ih]
    apply append_right_eq_self.mpr
    apply eq_nil_iff_forall_not_mem.mpr
    intro x hx
    obtain ⟨y,hy⟩ := exists_at_of_le hle ((mem_levelNodes hstart).mp hx)
    exact hnone y hy

theorem ranked_eq (hstart : start ∈ g.nodes.keys) :
    g.ranked start maxDepth = g.upTo start (maxDepth + 1) := by
  have hinj : Function.Injective (g.rank start maxDepth) := by
    intro x y h
    exact (Prod.mk.inj (toLex_inj.mp (Prod.mk.inj (toLex_inj.mp h)).2)).2
  have hasc : Ascending (g.rank start maxDepth) (g.upTo start (maxDepth + 1)) := by
    have hlevels : ∀ n ≤ maxDepth + 1, Ascending (g.rank start maxDepth) (g.upTo start n) := by
      intro n hn
      induction n with
      | zero => exact List.Pairwise.nil
      | succ n ih =>
        rw [upTo_succ]
        refine pairwise_append.mpr ⟨ih (by omega),?_,?_⟩
        · apply ascending_levelNodes.imp_of_mem
          intro a b ha hb hlt
          have hda : g.distance start maxDepth a = n :=
            ((mem_levelNodes hstart).mp ha).distance_eq (by omega)
          have hdb : g.distance start maxDepth b = n :=
            ((mem_levelNodes hstart).mp hb).distance_eq (by omega)
          exact Prod.Lex.toLex_lt_toLex.mpr (.inr ⟨hda.trans hdb.symm,hlt⟩)
        · intro a ha b hb
          obtain ⟨e,he,hat⟩ := (mem_upTo hstart).mp ha
          have hda : g.distance start maxDepth a = e := hat.distance_eq (by omega)
          have hdb : g.distance start maxDepth b = n :=
            ((mem_levelNodes hstart).mp hb).distance_eq (by omega)
          refine Prod.Lex.toLex_lt_toLex.mpr (.inl ?_)
          rw [hda,hdb]
          exact he
    exact hlevels _ (Nat.le_refl _)
  apply (Smallest.ascending_sorted ((g.nodes.nodup.filter _).map hinj)).ext hasc
  intro x
  rw [Smallest.mem_sorted,mem_upTo hstart,mem_filter]
  constructor
  · intro ⟨_,hwithin⟩
    obtain ⟨e,he,hat⟩ := exists_at hwithin
    exact ⟨e,by omega,hat⟩
  · intro ⟨e,he,hat⟩
    exact ⟨mem_keys_of_within hstart hat.1,hat.within_iff.mpr (by omega)⟩

end Graph

def fresh : List Label → List Entry → List Label
  | _, [] => []
  | visited, e :: es =>
    if e.node ∈ visited then fresh visited es else e.node :: fresh (visited ++ [e.node]) es

theorem mem_fresh {visited : List Label} {es : List Entry} :
    x ∈ fresh visited es ↔ x ∉ visited ∧ ∃ e ∈ es, e.node = x := by
  induction es generalizing visited with
  | nil => simp [fresh]
  | cons e es ih =>
    rw [fresh]
    by_cases hold : e.node ∈ visited
    · rw [if_pos hold,ih]
      constructor
      · rintro ⟨hx,e',he',rfl⟩
        exact ⟨hx,e',mem_cons_of_mem _ he',rfl⟩
      · rintro ⟨hx,e',he',rfl⟩
        cases he' with
        | head => exact absurd hold hx
        | tail _ htail => exact ⟨hx,e',htail,rfl⟩
    · rw [if_neg hold,mem_cons,ih]
      constructor
      · rintro (rfl | ⟨hx,e',he',rfl⟩)
        · exact ⟨hold,e,mem_cons_self,rfl⟩
        · exact ⟨fun h => hx (mem_append_left _ h),e',mem_cons_of_mem _ he',rfl⟩
      · rintro ⟨hx,e',he',rfl⟩
        by_cases heq : e'.node = e.node
        · exact .inl heq
        · refine .inr ⟨?_,e',?_,rfl⟩
          · rw [mem_append,mem_singleton,not_or]
            exact ⟨hx,heq⟩
          · cases he' with
            | head => exact absurd rfl heq
            | tail _ htail => exact htail

theorem ascending_fresh {visited : List Label} {es : List Entry}
    (hsorted : es.Pairwise fun a b => a.priority ≤ b.priority)
    (hdegree : ∀ e ∈ es, e.degree = g.degree e.node) :
    Ascending g.priority (fresh visited es) := by
  induction es generalizing visited with
  | nil => exact List.Pairwise.nil
  | cons e es ih =>
    obtain ⟨hfirst,hrest⟩ := pairwise_cons.mp hsorted
    have hes : ∀ e ∈ es, e.degree = g.degree e.node :=
      fun e' he' => hdegree e' (mem_cons_of_mem _ he')
    have hkey : ∀ e' ∈ e :: es, e'.priority = g.priority e'.node := by
      intro e' he'
      rw [Entry.priority,hdegree e' he',Graph.priority]
    rw [fresh]
    split
    · exact ih hrest hes
    · refine pairwise_cons.mpr ⟨?_,ih hrest hes⟩
      intro x hx
      obtain ⟨hnew,e',he',rfl⟩ := mem_fresh.mp hx
      have hle := hfirst e' he'
      rw [hkey e mem_cons_self,hkey e' (mem_cons_of_mem _ he')] at hle
      apply lt_of_le_of_ne hle
      intro heq
      rw [Graph.priority_injective heq] at hnew
      exact hnew (mem_append_right _ mem_cons_self)

structure Visits (g : Graph δ ε) (maxDepth d : ℕ) (new : List Label) (s s' : Search) : Prop where
  bfsNodes : s'.bfsNodes = s.bfsNodes ++ new
  unvisited : ∀ u ∈ new, u ∉ s.bfsNodes
  queueOld : ∀ e ∈ s.queue, e ∈ s'.queue
  queueNew : ∀ e ∈ s'.queue, e ∈ s.queue ∨
    (d < maxDepth ∧ e.depth = d + 1 ∧ e.degree = g.degree e.node ∧
      ∃ u ∈ new, e.node ∈ g.neighbors u)
  queued : d < maxDepth → ∀ u ∈ new, ∀ n ∈ g.neighbors u,
    n ∈ s'.bfsNodes ∨ ∃ e ∈ s'.queue, e.node = n
  flagOld : s.hasUnexploredNeighbors = true → s'.hasUnexploredNeighbors = true
  flagNew : s'.hasUnexploredNeighbors = true → s.hasUnexploredNeighbors = true ∨
    (¬ d < maxDepth ∧ ∃ u ∈ new, ∃ n ∈ g.neighbors u, n ≠ u ∧ n ∉ s.bfsNodes)
  flagged : ¬ d < maxDepth → ∀ u ∈ new, ∀ n ∈ g.neighbors u, n ∉ s'.bfsNodes →
    s'.hasUnexploredNeighbors = true
  flaggedPair : ¬ d < maxDepth →
    new.Pairwise fun u n => n ∈ g.neighbors u → s'.hasUnexploredNeighbors = true

namespace Visits

variable {new new' : List Label} {s s' s'' : Search}

theorem refl (g : Graph δ ε) (maxDepth d : ℕ) (s : Search) : Visits g maxDepth d [] s s where
  bfsNodes := (append_nil _).symm
  unvisited _ hu := absurd hu not_mem_nil
  queueOld _ he := he
  queueNew _ he := .inl he
  queued _ _ hu := absurd hu not_mem_nil
  flagOld h := h
  flagNew h := .inl h
  flagged _ _ hu := absurd hu not_mem_nil
  flaggedPair _ := List.Pairwise.nil

theorem trans (h : Visits g maxDepth d new s s') (h' : Visits g maxDepth d new' s' s'') :
    Visits g maxDepth d (new ++ new') s s'' := by
  have hbfs : ∀ u ∈ s.bfsNodes, u ∈ s'.bfsNodes := by
    intro u hu
    rw [h.bfsNodes]
    exact mem_append_left _ hu
  have hbfs' : ∀ u ∈ s'.bfsNodes, u ∈ s''.bfsNodes := by
    intro u hu
    rw [h'.bfsNodes]
    exact mem_append_left _ hu
  constructor
  case bfsNodes => rw [h'.bfsNodes,h.bfsNodes,append_assoc]
  case unvisited =>
    intro u hu
    cases mem_append.mp hu with
    | inl hin => exact h.unvisited u hin
    | inr hin => exact fun hold => h'.unvisited u hin (hbfs u hold)
  case queueOld => exact fun e he => h'.queueOld e (h.queueOld e he)
  case queueNew =>
    intro e he
    cases h'.queueNew e he with
    | inl hold =>
      apply (h.queueNew e hold).imp id
      intro ⟨hd,hdepth,hdegree,u,hu,hadj⟩
      exact ⟨hd,hdepth,hdegree,u,mem_append_left _ hu,hadj⟩
    | inr hnew =>
      obtain ⟨hd,hdepth,hdegree,u,hu,hadj⟩ := hnew
      exact .inr ⟨hd,hdepth,hdegree,u,mem_append_right _ hu,hadj⟩
  case queued =>
    intro hd u hu n hn
    cases mem_append.mp hu with
    | inl hin =>
      cases h.queued hd u hin n hn with
      | inl hvisited => exact .inl (hbfs' n hvisited)
      | inr hqueue =>
        obtain ⟨e,he,hnode⟩ := hqueue
        exact .inr ⟨e,h'.queueOld e he,hnode⟩
    | inr hin => exact h'.queued hd u hin n hn
  case flagOld => exact fun hflag => h'.flagOld (h.flagOld hflag)
  case flagNew =>
    intro hflag
    cases h'.flagNew hflag with
    | inl hold =>
      apply (h.flagNew hold).imp id
      intro ⟨hd,u,hu,n,hn,hne,hnew⟩
      exact ⟨hd,u,mem_append_left _ hu,n,hn,hne,hnew⟩
    | inr hnew =>
      obtain ⟨hd,u,hu,n,hn,hne,hnot⟩ := hnew
      exact .inr ⟨hd,u,mem_append_right _ hu,n,hn,hne,fun hold => hnot (hbfs n hold)⟩
  case flagged =>
    intro hd u hu n hn hnot
    cases mem_append.mp hu with
    | inl hin => exact h'.flagOld (h.flagged hd u hin n hn fun hold => hnot (hbfs' n hold))
    | inr hin => exact h'.flagged hd u hin n hn hnot
  case flaggedPair =>
    intro hd
    refine pairwise_append.mpr ⟨?_,h'.flaggedPair hd,?_⟩
    · apply (h.flaggedPair hd).imp
      exact fun hpair hadj => h'.flagOld (hpair hadj)
    · intro u hu n hn hadj
      exact h'.flagOld (h.flagged hd u hu n hadj (h'.unvisited n hn))

theorem flag (h : Visits g maxDepth d new s s') (b : Bool) :
    Visits g maxDepth d new s { s' with hasUnprocessedLevelNodes := b } :=
  ⟨h.bfsNodes,h.unvisited,h.queueOld,h.queueNew,h.queued,h.flagOld,h.flagNew,h.flagged,
    h.flaggedPair⟩

end Visits

theorem visits_visit {s : Search} {e : Entry} (hnew : e.node ∉ s.bfsNodes) :
    Visits g maxDepth e.depth [e.node] s (s.visit g maxDepth e) := by
  have hsingle : ∀ u ∈ [e.node], u = e.node := fun u hu => mem_singleton.mp hu
  unfold Search.visit
  by_cases hdepth : e.depth < maxDepth
  · rw [if_pos hdepth]
    constructor
    case bfsNodes => rfl
    case unvisited =>
      intro u hu
      rwa [hsingle u hu]
    case queueOld => exact fun e' he' => mem_append_left _ he'
    case queueNew =>
      intro e' he'
      cases mem_append.mp he' with
      | inl hold => exact .inl hold
      | inr hadded =>
        obtain ⟨n,hn,rfl⟩ := mem_map.mp hadded
        exact .inr ⟨hdepth,rfl,rfl,e.node,mem_singleton_self _,(mem_filter.mp hn).1⟩
    case queued =>
      intro _ u hu n hn
      rw [hsingle u hu] at hn
      by_cases hvisited : n ∈ s.bfsNodes ++ [e.node]
      · exact .inl hvisited
      · refine .inr ⟨⟨n,e.depth + 1,g.degree n⟩,?_,rfl⟩
        apply mem_append_right
        exact mem_map.mpr ⟨n,mem_filter.mpr ⟨hn,by simpa using hvisited⟩,rfl⟩
    case flagOld => exact fun h => h
    case flagNew => exact fun h => .inl h
    case flagged => exact fun hd => absurd hdepth hd
    case flaggedPair => exact fun _ => pairwise_singleton _ _
  · rw [if_neg hdepth]
    constructor
    case bfsNodes => rfl
    case unvisited =>
      intro u hu
      rwa [hsingle u hu]
    case queueOld => exact fun e' he' => he'
    case queueNew => exact fun e' he' => .inl he'
    case queued => exact fun hd => absurd hd hdepth
    case flagOld =>
      intro h
      simp only [h,Bool.true_or]
    case flagNew =>
      intro h
      rw [Bool.or_eq_true] at h
      apply h.imp id
      intro hne
      have hex : ∃ n ∈ g.neighbors e.node, n ∉ s.bfsNodes ∧ ¬n = e.node := by
        simpa using hne
      obtain ⟨n,hadj,hnot,hne⟩ := hex
      exact ⟨hdepth,e.node,mem_singleton_self _,n,hadj,hne,hnot⟩
    case flagged =>
      intro _ u hu n hn hnot
      rw [hsingle u hu] at hn
      have hmem : n ∈ (g.neighbors e.node).filter fun n => n ∉ s.bfsNodes ++ [e.node] :=
        mem_filter.mpr ⟨hn,by simpa using hnot⟩
      rw [Bool.or_eq_true]
      right
      rw [Bool.not_eq_true',isEmpty_eq_false_iff]
      exact ne_nil_of_mem hmem
    case flaggedPair => exact fun _ => pairwise_singleton _ _

/-- The nodes of one level that were not visited are visited in order, up to the limit; whether some
of them are left is what the second flag says. -/
theorem processLevel_spec {es : List Entry} {s : Search} (hdepth : ∀ e ∈ es, e.depth = d)
    (hroom : s.bfsNodes.length < maxNodes) :
    Visits g maxDepth d ((fresh s.bfsNodes es).take (maxNodes - s.bfsNodes.length)) s
        (s.processLevel g maxDepth maxNodes es) ∧
      (s.processLevel g maxDepth maxNodes es).hasUnprocessedLevelNodes =
        (s.hasUnprocessedLevelNodes ||
          decide (maxNodes - s.bfsNodes.length < (fresh s.bfsNodes es).length)) := by
  induction es generalizing s with
  | nil =>
    simp only [fresh,take_nil,length_nil,Nat.not_lt_zero,decide_false,Bool.or_false]
    exact ⟨Visits.refl g maxDepth d s,rfl⟩
  | cons e es ih =>
    have hes : ∀ e ∈ es, e.depth = d := fun e' he' => hdepth e' (mem_cons_of_mem _ he')
    rw [Search.processLevel,fresh]
    by_cases hold : e.node ∈ s.bfsNodes
    · have hvisit : s.visitNew g maxDepth e = s := if_pos hold
      rw [hvisit,if_pos hold,if_neg (not_le.mpr hroom)]
      exact ih hes hroom
    · have hvisit : s.visitNew g maxDepth e = s.visit g maxDepth e := if_neg hold
      have hvisits : Visits g maxDepth e.depth [e.node] s (s.visit g maxDepth e) :=
        visits_visit hold
      rw [hdepth e mem_cons_self] at hvisits
      have hbfs := hvisits.bfsNodes
      have hlength : (s.visit g maxDepth e).bfsNodes.length = s.bfsNodes.length + 1 := by
        rw [hbfs,length_append,length_singleton]
      have hunprocessed : (s.visit g maxDepth e).hasUnprocessedLevelNodes =
          s.hasUnprocessedLevelNodes := by
        unfold Search.visit
        split <;> rfl
      rw [hvisit,if_neg hold]
      by_cases hreached : maxNodes ≤ (s.visit g maxDepth e).bfsNodes.length
      · rw [if_pos hreached]
        have hone : maxNodes - s.bfsNodes.length = 1 := by omega
        rw [hone]
        refine ⟨hvisits.flag _,?_⟩
        dsimp only
        rw [hbfs]
        congr 1
        rw [Bool.eq_iff_iff,any_eq_true,decide_eq_true_eq,length_cons]
        constructor
        · intro ⟨e',he',hnew⟩
          have hmem : e'.node ∈ fresh (s.bfsNodes ++ [e.node]) es :=
            mem_fresh.mpr ⟨by simpa using hnew,e',he',rfl⟩
          have := length_pos_of_mem hmem
          omega
        · intro hlt
          have hpos : 0 < (fresh (s.bfsNodes ++ [e.node]) es).length := by omega
          obtain ⟨x,hx⟩ := exists_mem_of_length_pos hpos
          obtain ⟨hnew,e',he',rfl⟩ := mem_fresh.mp hx
          exact ⟨e',he',by simpa using hnew⟩
      · rw [if_neg hreached]
        obtain ⟨hrest,hflag⟩ := ih hes (s := s.visit g maxDepth e) (by omega)
        have hk : maxNodes - s.bfsNodes.length =
            (maxNodes - (s.visit g maxDepth e).bfsNodes.length) + 1 := by omega
        rw [hbfs] at hrest hflag
        rw [hk,hbfs]
        refine ⟨hvisits.trans hrest,?_⟩
        rw [hflag,hunprocessed,length_cons]
        simp only [Nat.add_lt_add_iff_right]

/-- The search before the turn of a level: the levels before it were taken as a whole, and what the
queue holds besides their nodes are the nodes of the level. -/
structure LevelStart (g : Graph δ ε) (start : Label) (maxNodes d : ℕ) (s : Search) : Prop where
  bfsNodes : s.bfsNodes = g.upTo start d
  room : s.bfsNodes.length < maxNodes
  depth : ∀ e ∈ s.queue, e.depth = d
  degree : ∀ e ∈ s.queue, e.degree = g.degree e.node
  within : ∀ e ∈ s.queue, g.within start d e.node = true
  complete : ∀ x, g.At start d x → ∃ e ∈ s.queue, e.node = x
  unexplored : s.hasUnexploredNeighbors = false
  unprocessed : s.hasUnprocessedLevelNodes = false

theorem levelStart_begin (hpos : 0 < maxNodes) :
    LevelStart g start maxNodes 0 (Search.begin g start) where
  bfsNodes := rfl
  room := hpos
  depth e he := by rw [mem_singleton.mp he]
  degree e he := by rw [mem_singleton.mp he]
  within e he := by
    rw [mem_singleton.mp he]
    simp [Graph.within]
  complete x hx := by
    have hstart : x = start := by simpa [Graph.within] using hx.1
    exact ⟨_,mem_singleton_self _,hstart.symm⟩
  unexplored := rfl
  unprocessed := rfl

variable {s : Search}

theorem LevelStart.turn (h : LevelStart g start maxNodes d s) (maxDepth : ℕ)
    (hstart : start ∈ g.nodes.keys) (hqueue : s.queue ≠ []) :
    Visits g maxDepth d ((g.levelNodes start d).take (maxNodes - s.bfsNodes.length))
        { s with queue := [] } (s.turn g maxDepth maxNodes) ∧
      (s.turn g maxDepth maxNodes).hasUnprocessedLevelNodes =
        decide (maxNodes - s.bfsNodes.length < (g.levelNodes start d).length) := by
  cases hq : s.queue with
  | nil => exact absurd hq hqueue
  | cons first rest =>
    have hfirst : first.depth = d := h.depth first (by rw [hq]; exact mem_cons_self)
    have hall : ∀ e ∈ s.queue, decide (e.depth = first.depth) = true := by
      intro e he
      rw [decide_eq_true_eq,hfirst,h.depth e he]
    have htake : (s.queue.takeWhile fun e => e.depth = first.depth) = s.queue :=
      takeWhile_eq_self_iff.mpr hall
    have hdrop : (s.queue.dropWhile fun e => e.depth = first.depth) = [] :=
      dropWhile_eq_nil_iff.mpr hall
    have hturn : s.turn g maxDepth maxNodes = Search.processLevel g maxDepth maxNodes
        (sorted Entry.priority s.queue) { s with queue := [] } := by
      unfold Search.turn
      simp only [hq]
      rw [← hq,htake,hdrop]
    have hmem : ∀ e, e ∈ sorted Entry.priority s.queue ↔ e ∈ s.queue := fun e => Smallest.mem_sorted
    have hfresh : fresh s.bfsNodes (sorted Entry.priority s.queue) = g.levelNodes start d := by
      have hsorted : (sorted Entry.priority s.queue).Pairwise fun a b => a.priority ≤ b.priority :=
        pairwise_insertionSort (fun a b : Entry => a.priority ≤ b.priority) s.queue
      apply (ascending_fresh (g := g) hsorted fun e he => h.degree e ((hmem e).mp he)).ext
        Graph.ascending_levelNodes
      intro x
      rw [mem_fresh,Graph.mem_levelNodes hstart,h.bfsNodes,Graph.mem_upTo hstart]
      constructor
      · rintro ⟨hnew,e,he,rfl⟩
        obtain ⟨n,hn,hat⟩ := Graph.exists_at (h.within e ((hmem e).mp he))
        rcases Nat.lt_or_ge n d with hlt | hge
        · exact absurd ⟨n,hlt,hat⟩ hnew
        · rwa [Nat.le_antisymm hn hge] at hat
      · intro hat
        obtain ⟨e,he,hnode⟩ := h.complete x hat
        refine ⟨?_,e,(hmem e).mpr he,hnode⟩
        rintro ⟨n,hn,hat'⟩
        have := hat.unique hat'
        omega
    have hroom : ({ s with queue := [] } : Search).bfsNodes.length < maxNodes := h.room
    have hdepth : ∀ e ∈ sorted Entry.priority s.queue, e.depth = d :=
      fun e he => h.depth e ((hmem e).mp he)
    have hspec : Visits g maxDepth d _ _ _ ∧ _ := processLevel_spec hdepth hroom
    rw [hfresh] at hspec
    rw [hturn]
    refine ⟨hspec.1,?_⟩
    rw [hspec.2,h.unprocessed,Bool.false_or]

theorem LevelStart.next (h : LevelStart g start maxNodes d s) (hstart : start ∈ g.nodes.keys)
    (hqueue : s.queue ≠ []) (hdepth : d < maxDepth)
    (hroom : (g.upTo start (d + 1)).length < maxNodes) :
    LevelStart g start maxNodes (d + 1) (s.turn g maxDepth maxNodes) := by
  obtain ⟨hvisits,hflag⟩ := h.turn maxDepth hstart hqueue
  have hlength : (g.upTo start (d + 1)).length =
      s.bfsNodes.length + (g.levelNodes start d).length := by
    rw [Graph.upTo_succ,length_append,h.bfsNodes]
  rw [take_of_length_le (by omega)] at hvisits
  have hbfs : (s.turn g maxDepth maxNodes).bfsNodes = g.upTo start (d + 1) := by
    rw [hvisits.bfsNodes,Graph.upTo_succ]
    exact congrArg (· ++ g.levelNodes start d) h.bfsNodes
  have hnew : ∀ e ∈ (s.turn g maxDepth maxNodes).queue, e.depth = d + 1 ∧
      e.degree = g.degree e.node ∧ ∃ u ∈ g.levelNodes start d, e.node ∈ g.neighbors u := by
    intro e he
    cases hvisits.queueNew e he with
    | inl hold => cases hold
    | inr hadded => exact hadded.2
  constructor
  case bfsNodes => exact hbfs
  case room => rwa [hbfs]
  case depth => exact fun e he => (hnew e he).1
  case degree => exact fun e he => (hnew e he).2.1
  case within =>
    intro e he
    obtain ⟨u,hu,hadj⟩ := (hnew e he).2.2
    exact Graph.within_neighbor ((Graph.mem_levelNodes hstart).mp hu).1 hadj
  case complete =>
    intro x hx
    obtain ⟨y,hy,hadj⟩ := hx.exists_neighbor
    cases hvisits.queued hdepth y ((Graph.mem_levelNodes hstart).mpr hy) x hadj with
    | inl hvisited =>
      rw [hbfs,Graph.mem_upTo hstart] at hvisited
      obtain ⟨e,he,hat⟩ := hvisited
      have := hx.unique hat
      omega
    | inr hqueued => exact hqueued
  case unexplored =>
    cases hflag' : (s.turn g maxDepth maxNodes).hasUnexploredNeighbors with
    | false => rfl
    | true =>
      cases hvisits.flagNew hflag' with
      | inl hold => exact absurd hold (by rw [h.unexplored]; decide)
      | inr hdeep => exact absurd hdepth hdeep.1
  case unprocessed =>
    rw [hflag,decide_eq_false_iff_not]
    omega

/-- A node at the greatest depth has a neighbour that no smaller depth reaches. -/
def HasOuterNeighbor (g : Graph δ ε) (start : Label) (maxDepth : ℕ) : Prop :=
  ∃ u n, g.At start maxDepth u ∧ n ∈ g.neighbors u ∧ n ≠ u ∧
    ∀ e < maxDepth, g.within start e n = false

/-- The search has ended with the first nodes, and says truncated when nodes were left out, or when
there are exactly as many as it may take and one of them has an outer neighbour. -/
structure Found (g : Graph δ ε) (start : Label) (maxDepth maxNodes : ℕ) (s : Search) : Prop where
  bfsNodes : s.bfsNodes = (g.ranked start maxDepth).take maxNodes
  ended : s.goesOn maxNodes = false
  truncated : s.isTruncated maxNodes = true ↔ maxNodes < (g.ranked start maxDepth).length ∨
    (g.ranked start maxDepth).length = maxNodes ∧ HasOuterNeighbor g start maxDepth

section

variable (hstart : start ∈ g.nodes.keys)

include hstart

theorem found_of_room
    (hbfs : s.bfsNodes = g.upTo start (maxDepth + 1)) (hroom : s.bfsNodes.length < maxNodes)
    (hqueue : s.queue = []) : Found g start maxDepth maxNodes s := by
  have hranked : g.ranked start maxDepth = g.upTo start (maxDepth + 1) := Graph.ranked_eq hstart
  rw [hbfs,← hranked] at hroom
  constructor
  case bfsNodes => rw [hbfs,← hranked,take_of_length_le hroom.le]
  case ended => simp [Search.goesOn,hqueue]
  case truncated =>
    have hfalse : s.isTruncated maxNodes = false := by
      rw [Search.isTruncated,hbfs,← hranked,decide_eq_false (not_le.mpr hroom),Bool.false_and]
    rw [hfalse]
    constructor
    · intro h
      cases h
    · omega

theorem queue_unvisited_iff (hdepth : d < maxDepth) {s' : Search}
    (hvisits : Visits g maxDepth d (g.levelNodes start d) { s with queue := [] } s')
    (hall : s'.bfsNodes = g.upTo start (d + 1)) :
    (s'.queue.any fun e => e.node ∉ s'.bfsNodes) = true ↔ ∃ x, g.At start (d + 1) x := by
  rw [any_eq_true]
  constructor
  · intro ⟨e,he,hnew⟩
    cases hvisits.queueNew e he with
    | inl hold => cases hold
    | inr hadded =>
      obtain ⟨-,-,-,u,hu,hadj⟩ := hadded
      have hwithin := Graph.within_neighbor ((Graph.mem_levelNodes hstart).mp hu).1 hadj
      obtain ⟨n,hn,hat⟩ := Graph.exists_at hwithin
      rw [hall,decide_eq_true_eq,Graph.mem_upTo hstart] at hnew
      rcases Nat.lt_or_ge n (d + 1) with hlt | hge
      · exact absurd ⟨n,hlt,hat⟩ hnew
      · rw [Nat.le_antisymm hn hge] at hat
        exact ⟨e.node,hat⟩
  · intro ⟨x,hx⟩
    have hnew : x ∉ s'.bfsNodes := by
      rw [hall,Graph.mem_upTo hstart]
      rintro ⟨n,hn,hat⟩
      have := hx.unique hat
      omega
    obtain ⟨y,hy,hadj⟩ := hx.exists_neighbor
    cases hvisits.queued hdepth y ((Graph.mem_levelNodes hstart).mpr hy) x hadj with
    | inl hvisited => exact absurd hvisited hnew
    | inr hqueued =>
      obtain ⟨e,he,hnode⟩ := hqueued
      exact ⟨e,he,by simpa [hnode] using hnew⟩

theorem length_upTo_lt_iff (hdepth : d < maxDepth) :
    (g.upTo start (d + 1)).length < (g.upTo start (maxDepth + 1)).length ↔
      ∃ x, g.At start (d + 1) x := by
  constructor
  · intro hlt
    by_contra hnone
    rw [Graph.upTo_eq_of_none hstart (fun x hx => hnone ⟨x,hx⟩)
      (show d + 1 ≤ maxDepth + 1 by omega)] at hlt
    exact Nat.lt_irrefl _ hlt
  · intro ⟨x,hx⟩
    have hpos := length_pos_of_mem ((Graph.mem_levelNodes hstart).mpr hx)
    have hle : (g.upTo start (d + 2)).length ≤ (g.upTo start (maxDepth + 1)).length :=
      (Graph.upTo_prefix (by omega)).length_le
    rw [Graph.upTo_succ,length_append] at hle
    omega

theorem unexplored_iff {s' : Search}
    (hold : s.hasUnexploredNeighbors = false) (hbfs : s.bfsNodes = g.upTo start maxDepth)
    (hvisits : Visits g maxDepth maxDepth (g.levelNodes start maxDepth)
      { s with queue := [] } s') (hall : s'.bfsNodes = g.upTo start (maxDepth + 1)) :
    s'.hasUnexploredNeighbors = true ↔ HasOuterNeighbor g start maxDepth := by
  have hnot : ¬ maxDepth < maxDepth := Nat.lt_irrefl maxDepth
  constructor
  · intro hflag
    cases hvisits.flagNew hflag with
    | inl hwas =>
      rw [hold] at hwas
      cases hwas
    | inr hnew =>
      obtain ⟨-,u,hu,n,hadj,hne,hunvisited⟩ := hnew
      refine ⟨u,n,(Graph.mem_levelNodes hstart).mp hu,hadj,hne,fun e he => ?_⟩
      cases hwithin : g.within start e n with
      | false => rfl
      | true =>
        obtain ⟨k,hk,hat⟩ := Graph.exists_at hwithin
        rw [hbfs,Graph.mem_upTo hstart] at hunvisited
        exact absurd ⟨k,by omega,hat⟩ hunvisited
  · intro ⟨u,n,hu,hadj,hne,houter⟩
    have hmem := (Graph.mem_levelNodes hstart).mpr hu
    by_cases hvisited : n ∈ s'.bfsNodes
    · rw [hall,Graph.mem_upTo hstart] at hvisited
      obtain ⟨k,hk,hat⟩ := hvisited
      have hkd : k = maxDepth := by
        rcases Nat.lt_or_ge k maxDepth with hlt | hge
        · have hfalse := houter k hlt
          rw [hat.1] at hfalse
          cases hfalse
        · omega
      rw [hkd] at hat
      -- whichever of the two neighbours comes first sees the other one unvisited
      have hpair := hvisits.flaggedPair hnot
      have hsymm : Std.Symm fun a b => b ∈ g.neighbors a → s'.hasUnexploredNeighbors = true :=
        ⟨fun a b h hab => h (g.symm hab)⟩
      exact hpair.forall hmem ((Graph.mem_levelNodes hstart).mpr hat) hne.symm hadj
    · exact hvisits.flagged hnot u hmem n hadj hvisited

end

theorem LevelStart.reached (h : LevelStart g start maxNodes d s) (maxDepth : ℕ)
    (hstart : start ∈ g.nodes.keys) (hqueue : s.queue ≠ []) (hdepth : d ≤ maxDepth)
    (hfull : maxNodes ≤ (g.upTo start (d + 1)).length) :
    Found g start maxDepth maxNodes (s.turn g maxDepth maxNodes) := by
  obtain ⟨hvisits,hflag⟩ := h.turn maxDepth hstart hqueue
  have hranked : g.ranked start maxDepth = g.upTo start (maxDepth + 1) := Graph.ranked_eq hstart
  have hlength : (g.upTo start (d + 1)).length =
      s.bfsNodes.length + (g.levelNodes start d).length := by
    rw [Graph.upTo_succ,length_append,h.bfsNodes]
  have hroom := h.room
  have hprefix : g.upTo start (d + 1) <+: g.upTo start (maxDepth + 1) :=
    Graph.upTo_prefix (by omega)
  have hbfs : (s.turn g maxDepth maxNodes).bfsNodes = (g.upTo start (d + 1)).take maxNodes := by
    rw [hvisits.bfsNodes,Graph.upTo_succ,take_append,← h.bfsNodes,take_of_length_le hroom.le]
  have hcount : (s.turn g maxDepth maxNodes).bfsNodes.length = maxNodes := by
    rw [hbfs,length_take]
    omega
  have hlong := hprefix.length_le
  constructor
  case bfsNodes =>
    rw [hbfs,hranked]
    obtain ⟨rest,hrest⟩ := hprefix
    rw [← hrest,take_append_of_le_length hfull]
  case ended =>
    rw [Search.goesOn,hcount]
    simp
  case truncated =>
    rw [Search.isTruncated,hcount,hflag,hranked]
    simp only [le_refl,decide_true,Bool.true_and,Bool.or_eq_true,decide_eq_true_eq]
    rcases Nat.lt_or_ge maxNodes (g.upTo start (d + 1)).length with hmore | hexact
    · constructor
      · exact fun _ => .inl (by omega)
      · exact fun _ => .inl (.inr (by omega))
    have hall : (s.turn g maxDepth maxNodes).bfsNodes = g.upTo start (d + 1) := by
      rw [hbfs,take_of_length_le hexact]
    have htake : (g.levelNodes start d).take (maxNodes - s.bfsNodes.length) =
        g.levelNodes start d := take_of_length_le (by omega)
    rw [htake] at hvisits
    have hequal : (g.upTo start (d + 1)).length = maxNodes := Nat.le_antisymm hexact hfull
    rcases Nat.lt_or_ge d maxDepth with hlt | hge
    · have hflagged : (s.turn g maxDepth maxNodes).hasUnexploredNeighbors = false := by
        cases hf : (s.turn g maxDepth maxNodes).hasUnexploredNeighbors with
        | false => rfl
        | true =>
          cases hvisits.flagNew hf with
          | inl hwas => exact absurd hwas (by rw [h.unexplored]; decide)
          | inr hdeep => exact absurd hlt hdeep.1
      rw [queue_unvisited_iff hstart hlt hvisits hall,hflagged,← hequal,
        length_upTo_lt_iff hstart hlt]
      constructor
      · rintro ((hx | hlater) | hf)
        · exact .inl hx
        · omega
        · cases hf
      · rintro (hx | ⟨-,u,n,hu,-⟩)
        · exact .inl (.inl hx)
        · exact .inl (.inl (Graph.exists_at_of_le hlt hu))
    · obtain rfl : d = maxDepth := Nat.le_antisymm hdepth hge
      have hempty : (s.turn g d maxNodes).queue = [] := by
        apply eq_nil_iff_forall_not_mem.mpr
        intro e he
        cases hvisits.queueNew e he with
        | inl hwas => cases hwas
        | inr hnew => exact absurd hnew.1 (Nat.lt_irrefl d)
      rw [hempty,unexplored_iff hstart h.unexplored h.bfsNodes hvisits hall,hequal]
      constructor
      · rintro ((hf | hlater) | houter)
        · cases hf
        · omega
        · exact .inr ⟨rfl,houter⟩
      · rintro (hlt | ⟨-,houter⟩)
        · exact absurd hlt (Nat.lt_irrefl _)
        · exact .inr houter

theorem loop_of_ended (hends : s.goesOn maxNodes = false) (n : ℕ) :
    s.loop g maxDepth maxNodes n = s := by
  cases n with
  | zero => rfl
  | succ n => rw [Search.loop,if_neg (by rw [hends]; decide)]

theorem LevelStart.loop (h : LevelStart g start maxNodes d s) (hstart : start ∈ g.nodes.keys)
    {n : ℕ} (hn : d + n = maxDepth + 1) (hpos : 0 < n) :
    Found g start maxDepth maxNodes (s.loop g maxDepth maxNodes n) := by
  induction n generalizing d s with
  | zero => omega
  | succ n ih =>
    by_cases hqueue : s.queue = []
    · -- an empty queue leaves no level to come
      have hnone : ∀ x, ¬ g.At start d x := by
        intro x hx
        obtain ⟨e,he,-⟩ := h.complete x hx
        rw [hqueue] at he
        cases he
      rw [loop_of_ended (by simp [Search.goesOn,hqueue])]
      apply found_of_room hstart _ h.room hqueue
      rw [h.bfsNodes]
      exact (Graph.upTo_eq_of_none hstart hnone (by omega)).symm
    · have hgoes : s.goesOn maxNodes = true := by
        simp [Search.goesOn,hqueue,h.room]
      rw [Search.loop,if_pos hgoes]
      rcases Nat.lt_or_ge (g.upTo start (d + 1)).length maxNodes with hroom | hfull
      · rcases Nat.lt_or_ge d maxDepth with hlt | hge
        · exact ih (h.next hstart hqueue hlt hroom) (by omega) (by omega)
        · obtain rfl : d = maxDepth := by omega
          obtain rfl : n = 0 := by omega
          obtain ⟨hvisits,-⟩ := h.turn d hstart hqueue
          have hlength : (g.upTo start (d + 1)).length =
              s.bfsNodes.length + (g.levelNodes start d).length := by
            rw [Graph.upTo_succ,length_append,h.bfsNodes]
          rw [take_of_length_le (by omega)] at hvisits
          have hbfs : (s.turn g d maxNodes).bfsNodes = g.upTo start (d + 1) := by
            rw [hvisits.bfsNodes,Graph.upTo_succ]
            exact congrArg (· ++ g.levelNodes start d) h.bfsNodes
          apply found_of_room hstart hbfs (by rwa [hbfs])
          apply eq_nil_iff_forall_not_mem.mpr
          intro e he
          cases hvisits.queueNew e he with
          | inl hwas => cases hwas
          | inr hnew => exact absurd hnew.1 (Nat.lt_irrefl d)
      · have hfound := h.reached maxDepth hstart hqueue (by omega) hfull
        rw [loop_of_ended hfound.ended]
        exact hfound

theorem found_result (hstart : start ∈ g.nodes.keys) (hpos : 0 < maxNodes) :
    Found g start maxDepth maxNodes (Search.result g maxDepth maxNodes start) :=
  (levelStart_begin hpos).loop hstart (Nat.zero_add _) (Nat.succ_pos _)

end LightRAG.GraphQuery
