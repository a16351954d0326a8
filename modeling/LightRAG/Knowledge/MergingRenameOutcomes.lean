import LightRAG.Knowledge.AttributionRuns
import LightRAG.Knowledge.MergingRename

/-!
# What a merging rename tells

The first failure of a merge decides how it ends, and the phase at which it comes what is durable.
-/

namespace LightRAG.Knowledge.MergingRename
open List

section

variable {h : Host} {a b : Await} {as bs : List Await} {f : ℕ → Answer} {m m' : Merging}
  {e : Failure} {took : Bool} {I : Merging → Prop} {answer : Answer} {w : KgWrite}
  {ws vs : List KgWrite}

theorem firstStrike_append :
    firstStrike (as ++ bs) f =
      (firstStrike as f).or (firstStrike bs fun i => f (i + as.length)) := by
  induction as generalizing f with
  | nil => rfl
  | cons a as ih =>
    rw [cons_append,firstStrike,firstStrike]
    cases a.strikes (f 0) with
    | some x => rfl
    | none =>
      rw [ih]
      rfl

theorem mem_of_firstStrike (hstrike : firstStrike as f = some (a, e, took)) : a ∈ as := by
  induction as generalizing f with
  | nil => cases hstrike
  | cons b as ih =>
    rw [firstStrike] at hstrike
    cases hb : b.strikes (f 0) with
    | some x =>
      rw [hb] at hstrike
      obtain rfl : b = a := congrArg Prod.fst (Option.some.inj hstrike)
      exact mem_cons_self
    | none =>
      rw [hb] at hstrike
      exact mem_cons_of_mem _ (ih hstrike)

theorem stops_of_none (hm : m.cancelled = false) (hnone : a.strikes answer = none) :
    m.stops a answer = none := by
  simp [Merging.stops,hm,hnone]

theorem stops_of_some (hm : m.cancelled = false) (hsome : a.strikes answer = some (e, took))
    (hdeferred : Merging.deferred a answer = false) : m.stops a answer = some (a.raised e) := by
  simp [Merging.stops,hm,hsome,hdeferred]

theorem perform_of_none (hm : m.cancelled = false) (hnone : a.strikes answer = none)
    (hdeferred : Merging.deferred a answer = false) :
    m.perform h a answer = m.writes h a.call.writes := by
  simp [Merging.perform,hm,hnone,hdeferred]

theorem perform_of_some (hm : m.cancelled = false) (hsome : a.strikes answer = some (e, took))
    (hdeferred : Merging.deferred a answer = false) :
    m.perform h a answer =
      if answer = .declines ∧ a.commits then m.decline h
      else if took then m.writes h a.call.writes else m := by
  unfold Merging.perform
  rw [if_neg (by simp [hm]),hsome]
  simp only [hdeferred,Bool.false_eq_true,if_false,or_false]

theorem run_singleton (hstrike : firstStrike [b] f = some (a, e, took))
    (hshielded : b.shielded = false) (hm : m.cancelled = false) :
    b.strikes (f 0) = some (e, took) ∧
    ((calls h).run [b] f m).2 =
      if f 0 = .declines ∧ b.commits then m.decline h
      else if took then m.writes h b.call.writes else m := by
  rw [firstStrike] at hstrike
  cases hstrikes : b.strikes (f 0) with
  | none =>
    rw [hstrikes] at hstrike
    cases hstrike
  | some x =>
    rw [hstrikes] at hstrike
    obtain ⟨rfl,rfl⟩ := Prod.mk.inj (Option.some.inj hstrike)
    have hdeferred : Merging.deferred b (f 0) = false := by
      cases f 0 with
      | returns => rfl
      | declines => rfl
      | raises e' took' => simp [Merging.deferred,hshielded]
    refine ⟨rfl,?_⟩
    rw [Calls.run_cons_some (C := calls h) (stops_of_some hm hstrikes hdeferred)]
    exact perform_of_some hm hstrikes hdeferred

theorem deferred_of_none (hnone : a.strikes answer = none) :
    Merging.deferred a answer = false := by
  cases answer with
  | returns => rfl
  | declines => rfl
  | raises e took =>
    by_cases he : e = .cancelled
    · simp [Await.strikes,he] at hnone
    · simp [Merging.deferred,he]

theorem writes_append : m.writes h (ws ++ vs) = (m.writes h ws).writes h vs :=
  foldl_append

theorem writes_keeps (hkeep : ∀ w ∈ ws, ∀ m, I m → I (m.write h w)) (hm : I m) :
    I (m.writes h ws) := by
  induction ws generalizing m with
  | nil => exact hm
  | cons w ws ih =>
    exact ih (fun v hv => hkeep v (mem_cons_of_mem _ hv)) (hkeep w mem_cons_self m hm)

@[simp] theorem cancelled_writes : (m.writes h ws).cancelled = m.cancelled := by
  induction ws generalizing m with
  | nil => rfl
  | cons w ws ih => exact ih

theorem perform_keeps (hwrites : ∀ w ∈ a.call.writes, ∀ m, I m → I (m.write h w))
    (hdecline : a.commits = true → ∀ m, I m → I (m.decline h))
    (hcancel : ∀ m, I m → I { m with cancelled := true }) (hm : I m) :
    I (m.perform h a answer) := by
  have hset : I (if Merging.deferred a answer then { m with cancelled := true } else m) := by
    split
    · exact hcancel m hm
    · exact hm
  unfold Merging.perform
  dsimp only
  split
  · exact hm
  · split
    · exact writes_keeps hwrites hset
    · split
      · rename_i hdeclines
        exact hdecline hdeclines.2 _ hset
      · split
        · exact writes_keeps hwrites hset
        · exact hset

theorem run_of_no_strike (hnone : firstStrike as f = none) (hm : m.cancelled = false) :
    (calls h).run as f m = (none, m.writes h (as.flatMap fun a => a.call.writes)) := by
  induction as generalizing f m with
  | nil => rfl
  | cons a as ih =>
    rw [firstStrike] at hnone
    cases ha : a.strikes (f 0) with
    | some x =>
      rw [ha] at hnone
      cases hnone
    | none =>
      rw [ha] at hnone
      have hperform := perform_of_none (h := h) hm ha (deferred_of_none ha)
      rw [Calls.run_cons_none (stops_of_none hm ha)]
      have hstep : (calls h).perform a (f 0) m = m.writes h a.call.writes := hperform
      rw [hstep,ih hnone (by rw [cancelled_writes,hm]),flatMap_cons,writes_append]

theorem of_deferred (hstrike : a.strikes answer = some (e, took))
    (hdeferred : Merging.deferred a answer = true) : e = .cancelled ∧ a.shielded = true := by
  cases answer with
  | returns => cases hdeferred
  | declines => cases hdeferred
  | raises e' took' =>
    have hboth : e' = .cancelled ∧ a.shielded = true := of_decide_eq_true hdeferred
    rw [Await.strikes,if_neg (by simp [hboth.1])] at hstrike
    exact ⟨(congrArg Prod.fst (Option.some.inj hstrike)).symm.trans hboth.1,hboth.2⟩

theorem cancelled_perform (hm : m.cancelled = false)
    (hdeferred : Merging.deferred a answer = true) :
    (m.perform h a answer).cancelled = true := by
  unfold Merging.perform
  rw [if_neg (by simp [hm]),if_pos hdeferred]
  split
  · rw [cancelled_writes]
  · split
    · unfold Merging.decline
      split <;> rfl
    · split
      · rw [cancelled_writes]
      · rfl

theorem run_of_cancelled (hm : m.cancelled = true)
    (hlast : ∃ b ∈ as.getLast?, b.shielded = false) :
    ((calls h).run as f m).1 = some (.failure .cancelled) := by
  induction as generalizing f m with
  | nil =>
    obtain ⟨b,hb,-⟩ := hlast
    cases hb
  | cons a as ih =>
    cases hstops : (calls h).stops a (f 0) m with
    | some x =>
      rw [Calls.run_cons_some hstops]
      have hx : m.stops a (f 0) = some x := hstops
      unfold Merging.stops at hx
      split at hx
      · exact hx.symm
      · split at hx
        · cases hx
        · split at hx
          · cases hx
          · exact hx.symm
    | none =>
      rw [Calls.run_cons_none hstops]
      have hshielded : a.shielded = true := by
        have hx : m.stops a (f 0) = none := hstops
        unfold Merging.stops at hx
        by_contra hnot
        rw [if_pos ⟨hm,hnot⟩] at hx
        cases hx
      apply ih
      · exact perform_keeps (I := fun m => m.cancelled = true)
          (fun w _ m hm => hm)
          (fun _ m hm => by
            unfold Merging.decline
            split
            · exact hm
            · exact hm)
          (fun m _ => rfl) hm
      · cases as with
        | nil =>
          obtain ⟨b,hb,hunshielded⟩ := hlast
          obtain rfl : a = b := Option.some.inj hb
          rw [hshielded] at hunshielded
          cases hunshielded
        | cons a' as => exact hlast

theorem run_of_strike (hstrike : firstStrike as f = some (a, e, took))
    (hlast : ∀ b ∈ as.getLast?, b.shielded = false) (hm : m.cancelled = false) :
    ((calls h).run as f m).1 = some (a.raised e) := by
  induction as generalizing f m with
  | nil => cases hstrike
  | cons b as ih =>
    have hrest : ∀ c ∈ as.getLast?, c.shielded = false := by
      intro c hc
      cases as with
      | nil => cases hc
      | cons b' as => exact hlast c hc
    rw [firstStrike] at hstrike
    cases hb : b.strikes (f 0) with
    | none =>
      rw [hb] at hstrike
      have hperform := perform_of_none (h := h) hm hb (deferred_of_none hb)
      rw [Calls.run_cons_none (stops_of_none hm hb)]
      have hstep : (calls h).perform b (f 0) m = m.writes h b.call.writes := hperform
      rw [hstep]
      exact ih hstrike hrest (by rw [cancelled_writes,hm])
    | some x =>
      rw [hb] at hstrike
      obtain ⟨rfl,rfl⟩ := Prod.mk.inj (Option.some.inj hstrike)
      cases hdeferred : Merging.deferred b (f 0) with
      | false => rw [Calls.run_cons_some (stops_of_some hm hb hdeferred)]
      | true =>
        have hgoes : (calls h).stops b (f 0) m = none := by
          simp [calls,Merging.stops,hm,hb,hdeferred]
        obtain ⟨rfl,hshielded⟩ := of_deferred hb hdeferred
        rw [Calls.run_cons_none hgoes,Await.raised,if_neg (by simp)]
        apply run_of_cancelled
        · exact cancelled_perform hm hdeferred
        · cases as with
          | nil =>
            have hself := hlast b rfl
            rw [hshielded] at hself
            cases hself
          | cons b' as =>
            have hsome := List.getLast?_eq_some_getLast (cons_ne_nil b' as)
            exact ⟨_,hsome,hrest _ hsome⟩

theorem run_append_cases (hstrike : firstStrike (as ++ bs) f = some (a, e, took))
    (hlast : ∀ b ∈ as.getLast?, b.shielded = false) (hm : m.cancelled = false) :
    firstStrike as f = some (a, e, took) ∧
      (calls h).run (as ++ bs) f m = (calls h).run as f m ∨
    firstStrike bs (fun i => f (i + as.length)) = some (a, e, took) ∧
      (calls h).run (as ++ bs) f m = (calls h).run bs (fun i => f (i + as.length))
        (m.writes h (as.flatMap fun a => a.call.writes)) := by
  rw [firstStrike_append] at hstrike
  cases has : firstStrike as f with
  | none =>
    rw [has] at hstrike
    exact .inr ⟨hstrike,Calls.run_append_none (run_of_no_strike has hm)⟩
  | some x =>
    rw [has] at hstrike
    obtain rfl := Option.some.inj hstrike
    have hends := run_of_strike (h := h) has hlast hm
    have hrun : (calls h).run as f m =
        (some (a.raised e), ((calls h).run as f m).2) := Prod.ext hends rfl
    refine .inl ⟨rfl,?_⟩
    rw [Calls.run_append_some hrun,← hrun]

end

/-- No write of the merge is durable, and the durable graph is still `g`. -/
def Unpublished (h : Host) (g : Graph) (m : Merging) : Prop := m.landed = [] ∧ m.durable h = g

structure Await.Drafts (phase : Phase) (a : Await) : Prop where
  phase_eq : a.phase = phase
  unshielded : a.shielded = false
  drafts : KgWrite.commitGraph ∉ a.call.writes

section

variable {h : Host} {a b : Await} {as bs : List Await} {f : ℕ → Answer} {m m' : Merging}
  {e : Failure} {took : Bool} {answer : Answer} {w : KgWrite} {ws : List KgWrite} {g : Graph}
  {phase : Phase}

theorem Await.Drafts.not_commits (hdrafts : a.Drafts phase) : a.commits = false := by
  apply decide_eq_false
  intro hcall
  apply hdrafts.drafts
  rw [hcall]
  exact mem_singleton_self _

theorem last_unshielded (hall : ∀ a ∈ as, a.Drafts phase) : ∀ b ∈ as.getLast?, b.shielded = false :=
  fun b hb => (hall b (mem_of_getLast? hb)).unshielded

theorem landed_write (hm : m.landed ≠ []) : (m.write h w).landed ≠ [] := by
  unfold Merging.write
  dsimp only
  split
  · exact append_ne_nil_of_left_ne_nil hm _
  · split
    · exact append_ne_nil_of_left_ne_nil hm _
    · exact hm

theorem landed_decline (hm : m.landed ≠ []) : (m.decline h).landed ≠ [] := by
  unfold Merging.decline
  split
  · exact hm
  · exact hm

theorem landed_perform (hm : m.landed ≠ []) : (m.perform h a answer).landed ≠ [] :=
  perform_keeps (I := fun m : Merging => m.landed ≠ []) (fun _ _ _ hm => landed_write hm)
    (fun _ _ hm => landed_decline hm) (fun _ hm => hm) hm

theorem landed_run (hm : m.landed ≠ []) : ((calls h).run as f m).2.landed ≠ [] :=
  Calls.run_keeps (I := fun m : Merging => m.landed ≠ []) (fun _ _ _ _ hm => landed_perform hm) hm

theorem disk_graph_write {b : Backend} {s : Stores} (hw : w ≠ .commitGraph) :
    (w.write b s).disk.graph = s.disk.graph := by
  cases w with
  | upsertRow o ids =>
    simp only [KgWrite.write,Stores.writeRow]
    split
    · rfl
    · rw [graph_upsertRow]
  | deleteRow o =>
    simp only [KgWrite.write,Stores.writeRow]
    split
    · rfl
    · rw [graph_deleteRow]
  | commitGraph => exact absurd rfl hw
  | upsertNode e ids => rfl
  | upsertEdge p ids => rfl
  | deleteNode e => rfl
  | removeEdge p => rfl
  | persistTracking entities relations => rfl

theorem Unpublished.write (himmediate : h.immediate = false) (hw : w ≠ .commitGraph)
    (hm : Unpublished h g m) : Unpublished h g (m.write h w) := by
  constructor
  · simp [Merging.write,hw,himmediate,hm.1]
  · have hdurable := hm.2
    simp only [Merging.durable,himmediate] at hdurable ⊢
    exact (disk_graph_write hw).trans hdurable

theorem Unpublished.decline (himmediate : h.immediate = false) (hm : Unpublished h g m) :
    Unpublished h g (m.decline h) := by
  have hdurable := hm.2
  unfold Merging.decline
  rw [if_neg (by simp [himmediate])]
  simp only [Merging.durable,himmediate] at hdurable
  constructor
  · exact hm.1
  · simp only [Merging.durable,himmediate]
    exact hdurable

theorem Unpublished.reading (hall : ∀ a ∈ as, a.Drafts phase ∧ a.call.writes = [])
    (hm : Unpublished h g m) : Unpublished h g ((calls h).run as f m).2 := by
  apply Calls.run_keeps _ hm
  intro a ha answer m hm
  apply perform_keeps _ _ (fun m hm => hm) hm
  · intro w hw
    rw [(hall a ha).2] at hw
    cases hw
  · intro hcommits
    rw [(hall a ha).1.not_commits] at hcommits
    cases hcommits

theorem Unpublished.drafting (himmediate : h.immediate = false) (hall : ∀ a ∈ as, a.Drafts phase)
    (hm : Unpublished h g m) : Unpublished h g ((calls h).run as f m).2 := by
  apply Calls.run_keeps _ hm
  intro a ha answer m hm
  apply perform_keeps _ _ (fun m hm => hm) hm
  · intro w hw m hm
    exact hm.write himmediate (ne_of_mem_of_not_mem hw (hall a ha).drafts)
  · intro _ m hm
    exact hm.decline himmediate

theorem pending_writes (himmediate : h.immediate = false) (hws : .commitGraph ∉ ws)
    (hm : m.pending ≠ []) : (m.writes h ws).pending ≠ [] := by
  apply writes_keeps (I := fun m => m.pending ≠ []) _ hm
  intro w hw m hm
  have hne : w ≠ .commitGraph := ne_of_mem_of_not_mem hw hws
  simp only [Merging.write,hne,if_false]
  split
  · exact append_ne_nil_of_left_ne_nil hm _
  · exact hm

theorem Unpublished.writes (himmediate : h.immediate = false) (hws : .commitGraph ∉ ws)
    (hm : Unpublished h g m) : Unpublished h g (m.writes h ws) :=
  writes_keeps (fun _ hw _ hm => hm.write himmediate (ne_of_mem_of_not_mem hw hws)) hm

theorem landed_writes (hm : m.landed ≠ []) : (m.writes h ws).landed ≠ [] :=
  writes_keeps (I := fun m : Merging => m.landed ≠ []) (fun _ _ _ hm => landed_write hm) hm

/-- The target is in the graph, and durable where the storage writes through. -/
def Drafted (h : Host) (g : Graph) (m : Merging) : Prop :=
  if h.immediate then m.landed ≠ [] else Unpublished h g m ∧ m.pending ≠ []

theorem Drafted.writes (hws : .commitGraph ∉ ws) (hm : Drafted h g m) :
    Drafted h g (m.writes h ws) := by
  unfold Drafted at hm ⊢
  cases himmediate : h.immediate with
  | true =>
    rw [himmediate] at hm
    exact landed_writes hm
  | false =>
    simp only [himmediate] at hm ⊢
    exact ⟨hm.1.writes himmediate hws,pending_writes himmediate hws hm.2⟩

theorem Drafted.run (hall : ∀ a ∈ as, a.Drafts phase) (hm : Drafted h g m) :
    if h.immediate then ((calls h).run as f m).2.landed ≠ []
    else Unpublished h g ((calls h).run as f m).2 := by
  unfold Drafted at hm
  cases himmediate : h.immediate with
  | true =>
    rw [himmediate] at hm
    exact landed_run hm
  | false =>
    simp only [himmediate] at hm ⊢
    exact hm.1.drafting himmediate hall

theorem Drafted.commit (hm : Drafted h g m) : (m.writes h [.commitGraph]).landed ≠ [] := by
  unfold Drafted at hm
  cases himmediate : h.immediate with
  | true =>
    rw [himmediate] at hm
    exact landed_writes hm
  | false =>
    simp only [himmediate] at hm
    simp [Merging.writes,Merging.write,hm.2]

theorem commitGraph_not_mem_writes (hall : ∀ a ∈ as, a.Drafts phase) :
    KgWrite.commitGraph ∉ as.flatMap fun a => a.call.writes := by
  rw [mem_flatMap]
  intro hmem
  obtain ⟨a,ha,hw⟩ := hmem
  exact (hall a ha).drafts hw

end

namespace Request

variable {r : Request} {a : Await} {e : Failure} {took : Bool} {ws : List KgWrite} {phase : Phase}
  {call : Call} {f : ℕ → Answer}

theorem drafts_bare (h : .commitGraph ∉ call.writes) : (bare phase call).Drafts phase :=
  ⟨rfl,rfl,h⟩

theorem drafts_guarded (h : .commitGraph ∉ call.writes) : (guarded phase call).Drafts phase :=
  ⟨rfl,rfl,h⟩

theorem drafts_together (h : .commitGraph ∉ ws) :
    ∀ a ∈ together (bare phase) ws, a.Drafts phase := by
  unfold together
  split
  · exact fun a ha => absurd ha not_mem_nil
  · intro a ha
    rw [mem_singleton.mp ha]
    exact drafts_bare h

theorem reading_drafts : ∀ a ∈ r.reading, a.Drafts .reading ∧ a.call.writes = [] := by
  have hread : ∀ call : Call, call.writes = [] →
      (bare .reading call).Drafts .reading ∧ (bare .reading call).call.writes = [] := by
    intro call hcall
    refine ⟨drafts_bare ?_,hcall⟩
    rw [hcall]
    exact not_mem_nil
  intro a ha
  rw [reading,mem_append] at ha
  rcases ha with ha | ha
  · obtain ⟨call,hcall,rfl⟩ := mem_map.mp ha
    apply hread
    simp only [mem_cons,not_mem_nil,or_false] at hcall
    rcases hcall with rfl | rfl | rfl | rfl <;> rfl
  · obtain ⟨e,-,ha⟩ := mem_flatMap.mp ha
    rcases mem_cons.mp ha with rfl | ha
    · exact hread _ rfl
    · obtain ⟨p,-,rfl⟩ := mem_map.mp ha
      exact hread _ rfl

theorem writingRelations_drafts : ∀ a ∈ r.writingRelations, a.Drafts .relations := by
  intro a ha
  simp only [writingRelations,mem_append,mem_map,mem_singleton] at ha
  rcases ha with (((((((⟨p,-,rfl⟩ | ⟨x,-,rfl⟩) | ha) | ha) | ⟨x,-,rfl⟩) | rfl) | ⟨x,-,rfl⟩) |
    ha) | rfl
  · exact drafts_bare not_mem_nil
  · exact drafts_bare (by simp [Call.writes])
  · exact drafts_together (by simp) a ha
  · split at ha
    · cases ha
    · rw [mem_singleton.mp ha]
      exact drafts_guarded not_mem_nil
  · exact drafts_guarded not_mem_nil
  · exact drafts_guarded not_mem_nil
  · exact drafts_bare not_mem_nil
  · refine drafts_together ?_ a ha
    split <;> simp
  · exact ⟨rfl,rfl,by simp [persistTracking,Call.writes]⟩

theorem finishing_phase : ∀ a ∈ r.finishing, a.phase = .finishing := by
  intro a ha
  simp only [finishing,flushing,region,mem_append,mem_cons,not_mem_nil,or_false] at ha
  rcases ha with (((rfl | rfl | rfl) | ha) | (rfl | rfl | ha) | rfl | rfl) | rfl | rfl
  · rfl
  · rfl
  · rfl
  · split at ha
    · rw [mem_singleton.mp ha]
      rfl
    · cases ha
  · rfl
  · rfl
  · unfold together at ha
    split at ha
    · cases ha
    · rw [mem_singleton.mp ha]
  · rfl
  · rfl
  · rfl
  · rfl

variable {m : Merging} {h : Host}

theorem drafted_target {g : Graph} (hm : Unpublished h g m) :
    Drafted h g (m.writes h r.writingTarget.call.writes) := by
  unfold Drafted
  cases himmediate : h.immediate with
  | true =>
    simp [Merging.writes,writingTarget,bare,Call.writes,Merging.write,onGraph,himmediate]
  | false =>
    refine ⟨hm.writes himmediate (by simp [writingTarget,bare,Call.writes]),?_⟩
    simp [Merging.writes,writingTarget,bare,Call.writes,Merging.write,onGraph,himmediate]

theorem run_target {g : Graph}
    (hstrike : firstStrike [r.writingTarget] f = some (a, e, took)) (hm : Unpublished h g m)
    (hcancelled : m.cancelled = false) :
    if h.immediate && took then ((calls h).run [r.writingTarget] f m).2.landed ≠ []
    else Unpublished h g ((calls h).run [r.writingTarget] f m).2 := by
  have hdrafts : r.writingTarget.Drafts .target := drafts_bare (by simp [Call.writes])
  obtain ⟨-,hrun⟩ := run_singleton (h := h) hstrike hdrafts.unshielded hcancelled
  rw [if_neg (by simp [hdrafts.not_commits])] at hrun
  rw [hrun]
  have hdrafted := drafted_target (r := r) hm
  unfold Drafted at hdrafted
  cases himmediate : h.immediate with
  | false =>
    simp only [himmediate] at hdrafted
    rw [Bool.false_and,if_neg Bool.false_ne_true]
    split
    · exact hdrafted.1
    · exact hm
  | true =>
    rw [himmediate] at hdrafted
    rw [Bool.true_and]
    split
    · exact hdrafted
    · exact hm

theorem run_committing {g : Graph}
    (hstrike : firstStrike [committing] f = some (a, e, took)) (hm : Drafted h g m)
    (hcancelled : m.cancelled = false) :
    if h.immediate || took then ((calls h).run [committing] f m).2.landed ≠ []
    else Unpublished h g ((calls h).run [committing] f m).2 := by
  obtain ⟨hstrikes,hrun⟩ := run_singleton (h := h) hstrike rfl hcancelled
  have hcommit := hm.commit
  unfold Drafted at hm
  by_cases hdeclines : f 0 = .declines
  · have hcommits : committing.commits = true := rfl
    rw [if_pos ⟨hdeclines,hcommits⟩] at hrun
    rw [hrun]
    rw [hdeclines] at hstrikes
    obtain rfl : false = took := congrArg Prod.snd (Option.some.inj hstrikes)
    rw [Bool.or_false]
    split
    · rename_i himmediate
      rw [if_pos himmediate] at hm
      exact landed_decline hm
    · rename_i himmediate
      rw [if_neg himmediate] at hm
      exact hm.1.decline (by simpa using himmediate)
  · rw [if_neg (by simp [hdeclines])] at hrun
    cases took with
    | true =>
      rw [Bool.or_true,hrun]
      exact hcommit
    | false =>
      rw [Bool.or_false,hrun]
      split
      · rename_i himmediate
        rw [if_pos himmediate] at hm
        exact hm
      · rename_i himmediate
        rw [if_neg himmediate] at hm
        exact hm.1

theorem run_from_target (hstrike : firstStrike ([r.writingTarget] ++
      (r.writingRelations ++ ([committing] ++ r.finishing))) f = some (a, e, took))
    {g : Graph} (hm : Unpublished h g m) (hcancelled : m.cancelled = false) :
    if a.phase.published h.immediate took then
      ((calls h).run ([r.writingTarget] ++
        (r.writingRelations ++ ([committing] ++ r.finishing))) f m).2.landed ≠ []
    else Unpublished h g ((calls h).run ([r.writingTarget] ++
        (r.writingRelations ++ ([committing] ++ r.finishing))) f m).2 := by
  have hunshielded : ∀ b ∈ [r.writingTarget].getLast?, b.shielded = false := by
    intro b hb
    obtain rfl : r.writingTarget = b := Option.some.inj hb
    rfl
  rcases run_append_cases (h := h) hstrike hunshielded hcancelled with ⟨hin,hrun⟩ | ⟨hrest,hrun⟩
  · rw [hrun,mem_singleton.mp (mem_of_firstStrike hin)]
    exact run_target hin hm hcancelled
  rw [hrun,flatMap_singleton]
  have hdrafted := drafted_target (r := r) hm
  have hlast := last_unshielded (writingRelations_drafts (r := r))
  rcases run_append_cases (h := h) (m := m.writes h r.writingTarget.call.writes) hrest hlast
    (by rw [cancelled_writes,hcancelled]) with ⟨hin,hrun⟩ | ⟨hrest,hrun⟩
  · rw [hrun,(writingRelations_drafts a (mem_of_firstStrike hin)).phase_eq]
    exact hdrafted.run writingRelations_drafts
  rw [hrun]
  have hready := hdrafted.writes (commitGraph_not_mem_writes (writingRelations_drafts (r := r)))
  have hidle : ((m.writes h r.writingTarget.call.writes).writes h
      (r.writingRelations.flatMap fun a => a.call.writes)).cancelled = false := by
    rw [cancelled_writes,cancelled_writes,hcancelled]
  have hcommitting : ∀ b ∈ [committing].getLast?, b.shielded = false := by
    intro b hb
    obtain rfl : committing = b := Option.some.inj hb
    rfl
  rcases run_append_cases (h := h) hrest hcommitting hidle with ⟨hin,hrun⟩ | ⟨hrest,hrun⟩
  · rw [hrun,mem_singleton.mp (mem_of_firstStrike hin)]
    exact run_committing hin hready hidle
  · rw [hrun,finishing_phase a (mem_of_firstStrike hrest)]
    exact landed_run hready.commit

theorem mergeEntitiesImpl_last : ∀ b ∈ r.mergeEntitiesImpl.getLast?, b.shielded = false := by
  intro b hb
  unfold mergeEntitiesImpl at hb
  split at hb
  · simp only [List.getLast?_append,finishing] at hb
    obtain rfl : r.readingBack = b := Option.some.inj hb
    rfl
  · obtain rfl : bare .reading .refuse = b := Option.some.inj hb
    rfl

theorem mergeEnds_strike
    (hstrike : firstStrike r.mergeEntitiesImpl r.answers = some (a, e, took)) :
    r.mergeEnds.1 = some (a.raised e) ∧
      if a.phase.published r.host.immediate took then r.mergeEnds.2.landed ≠ []
      else Unpublished r.host (r.start.durable r.host) r.mergeEnds.2 := by
  have hstart : Unpublished r.host (r.start.durable r.host) r.start := ⟨rfl,rfl⟩
  refine ⟨run_of_strike hstrike mergeEntitiesImpl_last rfl,?_⟩
  unfold mergeEnds
  unfold mergeEntitiesImpl at hstrike ⊢
  split at hstrike
  · rename_i hsource
    rw [if_pos hsource]
    have hlast := last_unshielded fun a ha => (reading_drafts (r := r) a ha).1
    rcases run_append_cases (h := r.host) (m := r.start) hstrike hlast rfl with
      ⟨hin,hrun⟩ | ⟨hrest,hrun⟩
    · rw [hrun,(reading_drafts a (mem_of_firstStrike hin)).1.phase_eq]
      exact hstart.reading reading_drafts
    · have hempty : r.reading.flatMap (fun a => a.call.writes) = [] :=
        flatMap_eq_nil_iff.mpr fun a ha => (reading_drafts a ha).2
      rw [hempty] at hrun
      rw [hrun]
      exact run_from_target hrest hstart rfl
  · rename_i hsource
    rw [if_neg hsource]
    have hdrafts : ∀ a ∈ [bare .reading (.hasNode r.source), bare .reading .refuse],
        a.Drafts .reading ∧ a.call.writes = [] := by
      intro a ha
      simp only [mem_cons,not_mem_nil,or_false] at ha
      rcases ha with rfl | rfl
      · exact ⟨drafts_bare not_mem_nil,rfl⟩
      · exact ⟨drafts_bare not_mem_nil,rfl⟩
    rw [(hdrafts a (mem_of_firstStrike hstrike)).1.phase_eq]
    exact hstart.reading hdrafts

theorem aeditEntity_of_failed {x : Exc} (h : r.updates = some (some x)) :
    r.aeditEntity = (.error x, r.start) := by
  rw [aeditEntity,h]

theorem aeditEntity_of_not_failed (h : ∀ x, r.updates ≠ some (some x)) :
    r.aeditEntity = (r.handle r.mergeEnds.1, r.mergeEnds.2) := by
  unfold aeditEntity
  split
  · rename_i x hx
    exact absurd hx (h x)
  · rfl

theorem handle_failure :
    (∃ x, r.handle (some (.failure e)) = .error (.failure x)) ∧
        ¬ (e.folded = true ∧ ∀ e' took', r.readBack ≠ .raises e' took') ∨
      r.handle (some (.failure e)) = .ok (r.failedSummary e) ∧
        e.folded = true ∧ ∀ e' took', r.readBack ≠ .raises e' took' := by
  cases e with
  | coordination => exact .inl ⟨⟨_,rfl⟩,by simp [Failure.folded]⟩
  | cancelled => exact .inl ⟨⟨_,rfl⟩,by simp [Failure.folded]⟩
  | error => cases hread : r.readBack <;> simp [handle,hread,Failure.folded]
  | bookkeeping => cases hread : r.readBack <;> simp [handle,hread,Failure.folded]

theorem raised_eq (h : a.raised e ≠ .consistency) : a.raised e = .failure e := by
  unfold Await.raised at h ⊢
  split at h
  · exact absurd rfl h
  · rename_i hnot
    rw [if_neg hnot]

/-- The caller is told honestly if and only if the first failure is a typed one or comes before
anything of the merge is durable, the source itself being durable where the answer names it. -/
theorem aeditEntity_honest_iff (r : Request) : r.Honest ↔ r.Spared := by
  constructor
  · intro hhonest
    by_cases hfailed : ∃ x, r.updates = some (some x)
    · exact .inl hfailed
    refine .inr fun a e took hstrike => ?_
    by_cases hraised : a.raised e = .consistency
    · exact .inl hraised
    have houtcome := aeditEntity_of_not_failed (r := r) fun x hx => hfailed ⟨x,hx⟩
    obtain ⟨hends,hdurable⟩ := mergeEnds_strike hstrike
    rw [hends,raised_eq hraised] at houtcome
    have htold := handle_failure (r := r) (e := e)
    cases hpublished : a.phase.published r.host.immediate took with
    | true =>
      rw [hpublished] at hdurable
      rcases hhonest.learns (by rw [houtcome]; exact hdurable) with ⟨summary,hok,hmerged⟩ | herror
      · rw [houtcome] at hok
        rcases htold with ⟨⟨x,hx⟩,-⟩ | ⟨hx,-⟩
        · rw [hx] at hok
          cases hok
        · rw [hx] at hok
          obtain rfl := Except.ok.inj hok
          cases hmerged
      · rw [houtcome] at herror
        rcases htold with ⟨⟨x,hx⟩,-⟩ | ⟨hx,-⟩
        · rw [hx] at herror
          cases herror
        · rw [hx] at herror
          cases herror
    | false =>
      rw [hpublished] at hdurable
      refine .inr ⟨rfl,fun hfolded hread => ?_⟩
      rcases htold with ⟨-,hnot⟩ | ⟨hx,-⟩
      · exact absurd ⟨hfolded,hread⟩ hnot
      · have hstatus : (r.failedSummary e).operationStatus ∈ ["partial_success", "failure"] := by
          unfold failedSummary
          split
          · exact mem_cons_self
          · exact mem_cons_of_mem _ mem_cons_self
        have hsurvives := (hhonest.survives (r.failedSummary e) (by rw [houtcome,hx]) hstatus rfl).1
        rw [houtcome,hdurable.2] at hsurvives
        exact hsurvives
  · intro hspared
    by_cases hfailed : ∃ x, r.updates = some (some x)
    · obtain ⟨x,hx⟩ := hfailed
      have houtcome := aeditEntity_of_failed hx
      constructor
      · intro summary hok
        rw [houtcome] at hok
        cases hok
      · intro hlanded
        rw [houtcome] at hlanded
        exact absurd rfl hlanded
    have houtcome := aeditEntity_of_not_failed (r := r) fun x hx => hfailed ⟨x,hx⟩
    cases hstrike : firstStrike r.mergeEntitiesImpl r.answers with
    | none =>
      have hends : r.mergeEnds.1 = none :=
        congrArg Prod.fst (run_of_no_strike (h := r.host) (m := r.start) hstrike rfl)
      rw [hends] at houtcome
      constructor
      · intro summary hok hstatus
        rw [houtcome] at hok
        obtain rfl := Except.ok.inj hok
        simp [mergedSummary] at hstatus
      · intro _
        exact .inl ⟨r.mergedSummary,by rw [houtcome]; rfl,rfl⟩
    | some x =>
      obtain ⟨a,e,took⟩ := x
      obtain ⟨hends,hdurable⟩ := mergeEnds_strike hstrike
      have hcase := (hspared.resolve_left hfailed) a e took hstrike
      by_cases hraised : a.raised e = .consistency
      · rw [hends,hraised] at houtcome
        constructor
        · intro summary hok
          rw [houtcome] at hok
          cases hok
        · intro _
          rw [houtcome]
          exact .inr rfl
      · obtain ⟨hpublished,hsource⟩ := hcase.resolve_left hraised
        rw [hends,raised_eq hraised] at houtcome
        rw [hpublished] at hdurable
        constructor
        · intro summary hok _ _
          rw [houtcome] at hok ⊢
          rw [hdurable.2]
          rcases handle_failure (r := r) (e := e) with ⟨⟨x,hx⟩,-⟩ | ⟨-,hfolded,hread⟩
          · rw [hx] at hok
            cases hok
          · exact ⟨hsource hfolded hread,fun p _ => rfl⟩
        · intro hlanded
          rw [houtcome] at hlanded
          exact absurd hdurable.1 hlanded

theorem writes_together {await : Call → Await} (h : (await (.write ws)).call = .write ws) :
    (together await ws).flatMap (fun a => a.call.writes) = ws := by
  unfold together
  split
  · rename_i hnil
    exact hnil.symm
  · rw [flatMap_singleton,h,Call.writes]

theorem writes_of_silent {α : Type} (xs : List α) {await : α → Await}
    (h : ∀ x, (await x).call.writes = []) :
    (xs.map await).flatMap (fun a => a.call.writes) = [] := by
  rw [flatMap_eq_nil_iff]
  intro a ha
  obtain ⟨x,-,rfl⟩ := mem_map.mp ha
  exact h x

theorem writes_of_each {α : Type} {xs : List α} {await : α → Await} {write : α → KgWrite}
    (h : ∀ x, (await x).call.writes = [write x]) :
    (xs.map await).flatMap (fun a => a.call.writes) = xs.map write := by
  induction xs with
  | nil => rfl
  | cons x xs ih => rw [map_cons,flatMap_cons,h,ih,map_cons,singleton_append]

theorem reading_writes : r.reading.flatMap (fun a => a.call.writes) = [] :=
  flatMap_eq_nil_iff.mpr fun a ha => (reading_drafts a ha).2

theorem writingRelations_writes : r.writingRelations.flatMap (fun a => a.call.writes) =
    r.edges.map (fun e => .upsertEdge e.1 e.2) ++ r.trackedRelations.map (fun x => .upsertRow x.1 x.2) ++
    (if r.merge.anyRowPresent r.store then
      [.upsertRow (.entity r.target) (r.merge.mergedChunkIds r.store)] else []) ++
    [.persistTracking true true] := by
  have hvectors : (if r.merge.allRelations r.store = [] then [] else
      [guarded .relations (.deleteRelationVectors (r.merge.allRelations r.store))]).flatMap
        (fun a => a.call.writes) = [] := by
    split <;> rfl
  unfold writingRelations
  simp only [flatMap_append]
  rw [hvectors,writes_of_silent (r.merge.keptRelations r.store) fun _ => rfl,
    writes_of_each fun _ => rfl,writes_together rfl,
    writes_of_silent r.edges fun _ => rfl,
    writes_of_silent (r.merge.entitiesToProcess r.store) fun _ => rfl,writes_together rfl]
  simp only [append_assoc]
  rfl

theorem finishing_writes : r.finishing.flatMap (fun a => a.call.writes) =
    .deleteNode r.source :: .commitGraph :: r.staleRelations.map .deleteRow ++
      [.deleteRow (.entity r.source), .persistTracking true true] := by
  have hflushing : r.flushing.flatMap (fun a => a.call.writes) = [] := by
    unfold flushing
    split <;> rfl
  have hlast : [saving, r.readingBack].flatMap (fun a => a.call.writes) = [] := rfl
  rw [finishing,flatMap_append,flatMap_append,hflushing,hlast,append_nil,region]
  simp only [flatMap_append,flatMap_cons]
  rw [writes_together rfl]
  rfl

theorem redirection_merge (h : r.store.graph.hasNode r.source = true) :
    r.merge.redirection r.store = some {
      nodes := [(r.target, r.merge.mergedSourceId r.store)]
      edges := r.edges
      rows := r.trackedRelations ++ if r.merge.anyRowPresent r.store then
        [(.entity r.target, r.merge.mergedChunkIds r.store)] else []
      removed := [r.source]
      retired := r.staleRelations ++ [.entity r.source] } := by
  have hall : r.merge.sources.all r.store.graph.hasNode = true := by simp [merge,h]
  have hremoved : (r.merge.sources.filter fun e => e ≠ r.merge.target) = [r.source] := by
    simp [merge,r.isRenaming]
  rw [EntityMerge.redirection,if_pos hall]
  simp only [hremoved]
  rfl

theorem mergeEntitiesImpl_writes (h : r.store.graph.hasNode r.source = true) :
    r.mergeEntitiesImpl.flatMap (fun a => a.call.writes) = mergeEntities r.merge r.store := by
  rw [mergeEntitiesImpl,if_pos h,flatMap_append,flatMap_append,flatMap_append,
    flatMap_append,reading_writes,writingRelations_writes,finishing_writes]
  rw [mergeEntities,redirection_merge h]
  cases r.merge.anyRowPresent r.store with
  | false =>
    simp [Redirection.writes,Redirection.graphWrites,Redirection.rowWrites,Redirection.conclusion,
      Redirection.retirement,writingTarget,committing,bare,Call.writes]
  | true =>
    simp [Redirection.writes,Redirection.graphWrites,Redirection.rowWrites,Redirection.conclusion,
      Redirection.retirement,writingTarget,committing,bare,Call.writes]

theorem stores_writes :
    (m.writes h ws).stores = (kgWriter h.backend).run ws m.stores := by
  induction ws generalizing m with
  | nil => rfl
  | cons w ws ih => exact ih

end Request

/-- A deferred graph storage, and a merge that is complete when its last read fails. -/
def readBackFails : Request where
  host := ⟨false, ⟨true, true⟩, false⟩
  source := "a"
  target := "b"
  isRenaming := by decide
  stores :=
    let graph := (((Graph.empty.upsertNode "a" ⟨true, ["c1"]⟩).upsertNode "b" ⟨true, ["c2"]⟩).upsertNode
      "c" ⟨true, ["c1"]⟩).upsertEdge s("a", "c") ⟨some ["c1"]⟩
    ⟨{ Store.empty with graph := graph }, { Store.empty with graph := graph }⟩
  targetExists := by decide +kernel
  updates := none
  answers i := if i = 27 then .raises .error false else .returns
  readBack := .returns

/-- The source is gone from the file, and the summary names it as the entity that is left. -/
theorem readBackFails_not_honest :
    readBackFails.aeditEntity.1 = .ok (readBackFails.failedSummary .error) ∧
      (readBackFails.aeditEntity.2.durable readBackFails.host).hasNode "a" = false ∧
      ¬ readBackFails.Honest := by
  have htold : readBackFails.aeditEntity.1 = .ok (readBackFails.failedSummary .error) := by rfl
  have hgone : (readBackFails.aeditEntity.2.durable readBackFails.host).hasNode "a" = false := by
    decide +kernel
  refine ⟨htold,hgone,fun hhonest => ?_⟩
  have hsurvives := hhonest.survives _ htold (by decide) rfl
  exact Bool.false_ne_true (hgone.symm.trans hsurvives.1)

end LightRAG.Knowledge.MergingRename
