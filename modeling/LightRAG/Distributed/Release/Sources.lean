import LightRAG.Distributed.Release.Commands

/-!
# Source cleanup

A source is owned by its cleanup or needed by unfinished commands, never both.
-/

namespace LightRAG.Release
open Table List

def Event.cleans : Event → Option (String × String × Uuid)
  | .call _ (.claimSourceCleanup instanceId ticket sourceRef) (.ok (.granted true)) =>
    some (sourceRef, instanceId, ticket)
  | _ => none

inductive CleanupStep (db : Db) (e : Event) (db' : Db) : Prop
  | same (hcleans : e.cleans = none)
      (hrefs : db'.sourceCleanup.map CleanupRow.sourceRef =
        db.sourceCleanup.map CleanupRow.sourceRef)
  | granted (row : CleanupRow)
      (hcleans : e.cleans = some (row.sourceRef, row.instanceId, row.ticketId))
      (hrows : db'.sourceCleanup = db.sourceCleanup ++ [row]) (hcommands : db'.commands = db.commands)
      (hfree : db.needsSource row.sourceRef = false)
      (hnew : ∀ r ∈ db.sourceCleanup, r.sourceRef ≠ row.sourceRef)

section Steps

variable {db db' : Db} {e : Event}

theorem cleans_of_quiet {now : Nat} {c : Call} {result : Except Failure Reply}
    (hquiet : ∀ r, result = .ok r → c.quiet r = true) :
    (Event.call now c result).cleans = none := by
  cases result with
  | error f => cases c <;> rfl
  | ok r =>
    have hq := hquiet r rfl
    cases c <;> try rfl
    cases r <;> try rfl
    rename_i inserted
    cases inserted with
    | false => rfl
    | true => cases hq

theorem cleanup_step (hstep : Step db e db') : CleanupStep db e db' := by
  cases hstep.change with
  | none hquiet => exact .same (cleans_of_quiet hquiet) rfl
  | closes _ | coordination _ | draws => exact .same rfl rfl
  | wrote hwrites =>
    cases hwrites with
    | claimSourceCleanup hfree hnew => exact .granted _ rfl rfl rfl hfree hnew
    | finishSourceCleanup => exact .same rfl (map_updateWhere fun _ => rfl)
    | _ => exact .same rfl rfl

theorem needsSource_eq_false {sourceRef : String} :
    db.needsSource sourceRef = false ↔
      ∀ c ∈ db.commands, c.state.unfinished = true → sourceRef ∉ c.envelope.sourceRefs := by
  simp [Db.needsSource]

theorem cleanupOwns_eq_false {sourceRefs : List String} :
    db.cleanupOwns sourceRefs = false ↔ ∀ r ∈ db.sourceCleanup, r.sourceRef ∉ sourceRefs := by
  simp [Db.cleanupOwns]

theorem needs_step (h : Queue db) (hstep : Step db e db') {c : CommandRow} (hc : c ∈ db'.commands)
    (hopen : c.state.unfinished = true) :
    (∃ c₀ ∈ db.commands, c₀.state.unfinished = true ∧ c₀.id = c.id ∧ c₀.envelope = c.envelope) ∨
      db.cleanupOwns c.envelope.sourceRefs = false := by
  cases commands_step hstep with
  | same _ hcommands =>
    rw [hcommands] at hc
    exact .inl ⟨c,hc,hopen,rfl,rfl⟩
  | enqueued row _ hcommands _ _ _ _ hclean _ =>
    rw [hcommands] at hc
    rcases mem_append.mp hc with hold | hnew
    · exact .inl ⟨c,hold,hopen,rfl,rfl⟩
    · rw [mem_singleton] at hnew
      subst hnew
      exact .inr hclean
  | claimed c₀ t i hnext _ hcommands _ _ _ =>
    obtain ⟨hc₀,hqueued,_⟩ := of_nextQueued hnext
    rw [hcommands] at hc
    rcases h.mem_update hc₀ hc with rfl | ⟨hold,_⟩
    · have hwas : c₀.state.unfinished = true := by simp [hqueued,CommandState.unfinished]
      exact .inl ⟨c₀,hc₀,hwas,rfl,rfl⟩
    · exact .inl ⟨c,hold,hopen,rfl,rfl⟩
  | finished c₀ t now state result _ _ hfound hexecuting _ hcommands _ _ _ _ =>
    have hc₀ := (mem_of_lookup hfound).1
    rw [hcommands] at hc
    rcases h.mem_update hc₀ hc with rfl | ⟨hold,_⟩
    · have hwas : c₀.state.unfinished = true := by simp [hexecuting,CommandState.unfinished]
      exact .inl ⟨c₀,hc₀,hwas,rfl,rfl⟩
    · exact .inl ⟨c,hold,hopen,rfl,rfl⟩

theorem accepted_clean (hstep : Step db e db') {c : CommandRow} (hc : c ∈ db'.commands)
    (hnew : ∀ c₀ ∈ db.commands, c₀.id ≠ c.id) :
    db.cleanupOwns c.envelope.sourceRefs = false := by
  have hnot : c ∉ db.commands := fun hin => hnew c hin rfl
  cases commands_step hstep with
  | same _ hcommands =>
    rw [hcommands] at hc
    exact absurd hc hnot
  | enqueued row _ hcommands _ _ _ _ hclean _ =>
    rw [hcommands] at hc
    rcases mem_append.mp hc with hold | hadded
    · exact absurd hold hnot
    · rw [mem_singleton] at hadded
      subst hadded
      exact hclean
  | claimed c₀ t i _ _ hcommands _ _ _ =>
    rw [hcommands] at hc
    obtain ⟨r,hr,⟨_,rfl⟩ | ⟨_,rfl⟩⟩ := mem_updateWhere.mp hc
    · exact absurd rfl (hnew r hr)
    · exact absurd hr hnot
  | finished c₀ t now state result _ _ _ _ _ hcommands _ _ _ _ =>
    rw [hcommands] at hc
    obtain ⟨r,hr,⟨_,rfl⟩ | ⟨_,rfl⟩⟩ := mem_updateWhere.mp hc
    · exact absurd rfl (hnew r hr)
    · exact absurd hr hnot

end Steps

/-- Sources are owned by cleanup or needed, and every grant of a run was for another source. -/
structure Sources (events : List Event) (db : Db) : Prop where
  queue : Queue db
  unneeded : ∀ r ∈ db.sourceCleanup, db.needsSource r.sourceRef = false
  recorded : ∀ g ∈ events.filterMap Event.cleans, g.1 ∈ db.sourceCleanup.map CleanupRow.sourceRef
  once : (events.filterMap Event.cleans).Pairwise fun a b => a.1 ≠ b.1

namespace Sources

variable {events : List Event} {db db' : Db} {e : Event}

theorem enrolled (h : db.Enrolled) : Sources [] db := by
  refine ⟨Queue.enrolled h,?_,?_,List.Pairwise.nil⟩ <;> simp [h.sourceCleanup]

theorem unneeded_step (h : Sources events db) (hstep : Step db e db') {sourceRef : String}
    (howned : sourceRef ∈ db.sourceCleanup.map CleanupRow.sourceRef) :
    db'.needsSource sourceRef = false := by
  obtain ⟨r,hr,rfl⟩ := mem_map.mp howned
  rw [needsSource_eq_false]
  intro c hc hopen
  rcases needs_step h.queue hstep hc hopen with ⟨c₀,hc₀,hopen₀,_,henvelope⟩ | hclean
  · have hfree := needsSource_eq_false.mp (h.unneeded r hr) c₀ hc₀ hopen₀
    rwa [henvelope] at hfree
  · exact cleanupOwns_eq_false.mp hclean r hr

theorem step (h : Sources events db) (hstep : Step db e db') : Sources (events ++ [e]) db' := by
  cases cleanup_step hstep with
  | same hcleans hrefs =>
    have hsame : (events ++ [e]).filterMap Event.cleans = events.filterMap Event.cleans := by
      simp [hcleans]
    refine ⟨h.queue.step hstep,?_,?_,?_⟩
    · intro r hr
      apply h.unneeded_step hstep
      rw [← hrefs]
      exact mem_map_of_mem hr
    · rw [hsame,hrefs]
      exact h.recorded
    · rw [hsame]
      exact h.once
  | granted row hcleans hrows hcommands hfree hnew =>
    have hmore : (events ++ [e]).filterMap Event.cleans =
        events.filterMap Event.cleans ++ [(row.sourceRef, row.instanceId, row.ticketId)] := by
      simp [hcleans]
    refine ⟨h.queue.step hstep,?_,?_,?_⟩
    · intro r hr
      rw [hrows] at hr
      rcases mem_append.mp hr with hold | hadded
      · exact h.unneeded_step hstep (mem_map_of_mem hold)
      · rw [mem_singleton] at hadded
        subst hadded
        rw [needsSource_eq_false,hcommands]
        exact needsSource_eq_false.mp hfree
    · intro g hg
      rw [hmore] at hg
      rw [hrows,map_append]
      rcases mem_append.mp hg with hold | hadded
      · exact mem_append_left _ (h.recorded g hold)
      · rw [mem_singleton] at hadded
        subst hadded
        simp
    · rw [hmore,pairwise_append]
      refine ⟨h.once,pairwise_singleton _ _,?_⟩
      intro a ha b hb
      rw [mem_singleton] at hb
      subst hb
      obtain ⟨r,hr,href⟩ := mem_map.mp (h.recorded a ha)
      rw [← href]
      exact hnew r hr

theorem run {db₀ : Db} (hinit : db₀.Enrolled) (hrun : Run Step db₀ events db) :
    Sources events db := by
  apply hrun.accumulates fun _ _ _ _ h hstep => h.step hstep
  exact enrolled hinit

end Sources

theorem enqueue_refused {db : Db} {now : Nat} {scope instanceId principal key hash : String}
    {id : Uuid} {envelope : CommandEnvelope}
    (hnew : ∀ c ∈ db.commands, c.key ≠ (principal, key))
    (howned : db.cleanupOwns envelope.sourceRefs = true) :
    let r := db.perform now (.enqueueCommand scope instanceId id principal key hash envelope)
    (∃ f, r.1 = .error f) ∧ r.2 = db := by
  have hnone : lookup CommandRow.key db.commands (principal, key) = none := lookup_eq_none.mpr hnew
  apply perform_post (f := Reply.command)
    (Q := fun r db' => (∃ f, r = .error f) ∧ db' = db) rfl
  unfold enqueueCommand strictScope
  simp only [Tx.post_bind,Tx.post_ite,Tx.post_fetch,Tx.post_pure]
  split
  · exact ⟨⟨_,rfl⟩,trivial⟩
  split
  · exact ⟨⟨_,rfl⟩,trivial⟩
  rw [hnone]
  simp only [Tx.post_bind,Tx.post_fetch,howned]
  exact ⟨⟨_,rfl⟩,trivial⟩

/-- A source is never cleaned while a command may need it, in every state that any interleaving
of calls reaches and in every step from there. -/
theorem cleaned_sources_unneeded {db₀ db : Db} {events : List Event} (hinit : db₀.Enrolled)
    (hrun : Run Step db₀ events db) :
    (∀ r ∈ db.sourceCleanup, ∀ c ∈ db.commands,
      c.state = .queued ∨ c.state = .executing ∨ c.state = .uncertain →
        r.sourceRef ∉ c.envelope.sourceRefs) ∧
    (events.filterMap Event.cleans).Pairwise (fun a b => a.1 ≠ b.1) ∧
    (∀ e db', Step db e db' → ∀ c ∈ db'.commands, (∀ c₀ ∈ db.commands, c₀.id ≠ c.id) →
      ∀ r ∈ db.sourceCleanup, r.sourceRef ∉ c.envelope.sourceRefs) ∧
    (∀ now scope instanceId id principal key hash envelope,
      (∀ c ∈ db.commands, c.key ≠ (principal, key)) →
      (∃ r ∈ db.sourceCleanup, r.sourceRef ∈ envelope.sourceRefs) →
      let r := db.perform now (.enqueueCommand scope instanceId id principal key hash envelope)
      (∃ f, r.1 = .error f) ∧ r.2 = db) := by
  have h := Sources.run hinit hrun
  refine ⟨?_,h.once,?_,?_⟩
  · intro r hr c hc hstate
    apply needsSource_eq_false.mp (h.unneeded r hr) c hc
    rcases hstate with hs | hs | hs <;> simp [hs,CommandState.unfinished]
  · intro e db' hstep c hc hnew
    exact cleanupOwns_eq_false.mp (accepted_clean hstep hc hnew)
  · intro now scope instanceId id principal key hash envelope hnew ⟨r,hr,href⟩
    apply enqueue_refused hnew
    exact any_eq_true.mpr ⟨r,hr,by simpa using href⟩

/-- The cleanup of `s1` waits for the command that needs it, and is granted once. -/
def cleanedSource : List (Nat × Call) :=
  [(0, .registerInstance "prod/main" "blue-1" .blue "config" "profile" 3),
    (1, .enqueueCommand "prod/main" "blue-1" 30 "ann" "k1" "h1"
      ⟨"insert", "prod/main", "ann", "k1", "h1", ["s1"], 90⟩),
    (2, .admitWriter "prod/main" "blue-1" 1 40 "cleanup" none none),
    (3, .claimSourceCleanup "blue-1" 40 "s1"),
    (4, .claimCommand "prod/main" "blue-1" 1 41),
    (5, .finishCommand "blue-1" 30 .failed "bad source"),
    (6, .claimSourceCleanup "blue-1" 40 "s1"),
    (7, .claimSourceCleanup "blue-1" 40 "s1")]

theorem cleaned_sources_unneeded_cleanedSource :
    let run := enrolledDb.execute cleanedSource
    run.1.filterMap Event.cleans = [("s1", "blue-1", 40)] ∧
      (∀ r ∈ run.2.sourceCleanup, ∀ c ∈ run.2.commands,
        c.state = .queued ∨ c.state = .executing ∨ c.state = .uncertain →
          r.sourceRef ∉ c.envelope.sourceRefs) := by
  have h := cleaned_sources_unneeded enrolledDb_enrolled (run_execute enrolledDb cleanedSource)
  exact ⟨by decide +kernel,h.1⟩

end LightRAG.Release
