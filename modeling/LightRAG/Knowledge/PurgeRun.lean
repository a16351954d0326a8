import LightRAG.Knowledge.PurgeOutcome

/-!
# The whole purge

The journal decides whether the derived part runs, and the recovery proof what it looks at.
-/

namespace LightRAG.Knowledge
open List Except

namespace PurgeCall

variable (call : PurgeCall) (s : Store)

def patch : List Name × List Pair :=
  if call.journaled then patchJournalCandidates (s.docStatus.get call.docId) else ([], [])

def entities : List Name := Knowledge.candidateEntities call (call.patch s).1 s

def relations : List Pair := Knowledge.candidateRelations call (call.patch s).2 s

/-- The journal of this very purge says that the derived part is done. -/
def committed : Bool :=
  call.journaled &&
    match (s.docStatus.get call.docId).bind StatusRow.kgPurge with
    | none => false
    | some journal =>
      decide (journal.operationId = makeKgPurgeOperationId call.docId call.chunkIds ∧
        journal.phase ≠ .prepared)

def unanchored : Bool :=
  call.journaled &&
    ((s.fullEntities.get call.docId).isNone || (s.fullRelations.get call.docId).isNone)

/-- What the call looks at: nothing once the derived part is done, and without both anchor rows
only the candidates of a patch. -/
def inspection : Inspection :=
  let looked := if call.unanchored s then call.under .preGraph else call
  { chunkIds := call.chunkIds
    policy := call.rebuildPolicy
    entities :=
      if call.committed s then [] else Knowledge.candidateEntities looked (call.patch s).1 s
    relations :=
      if call.committed s then [] else Knowledge.candidateRelations looked (call.patch s).2 s }

end PurgeCall

section

variable {cfg : KgConfig} {env : RebuildEnv} {call : PurgeCall} {s s' : Store}
  {proof : RecoveryProof} {phase : PurgePhase} {docId : DocId} {chunkIds : List ChunkId}

theorem writeKgPurgePhase_ok {operationId : OperationId}
    (h : writeKgPurgePhase s docId operationId phase = .ok s') :
    ∃ rows, s' = { s with docStatus := rows } := by
  unfold writeKgPurgePhase at h
  cases hrow : s.docStatus.get docId with
  | none =>
    rw [hrow] at h
    cases h
  | some row =>
    rw [hrow] at h
    exact ⟨_,(ok.inj h).symm⟩

theorem resolve_ok (h : resolvePurgeRecoveryProof s docId chunkIds = .ok proof) :
    (proof.patchCandidateEntities, proof.patchCandidateRelations) =
        patchJournalCandidates (s.docStatus.get docId) ∧
      journalPhase (s.docStatus.get docId) (makeKgPurgeOperationId docId chunkIds) =
        .ok proof.journalPhase ∧
      (proof.journalPhase = none ∨ proof.journalPhase = some .prepared →
        ((proof.proofKind = .preGraph ∨ proof.proofKind = .emptyScope) ↔
          (s.fullEntities.get docId = none ∨ s.fullRelations.get docId = none))) := by
  unfold resolvePurgeRecoveryProof at h
  cases hphase : journalPhase (s.docStatus.get docId) (makeKgPurgeOperationId docId chunkIds) with
  | error err =>
    simp only [hphase] at h
    cases h
  | ok recorded =>
    simp only [hphase,bind,Except.bind] at h
    split at h
    · obtain rfl := ok.inj h
      tauto
    · refine ⟨?_,?_,fun _ => ?_⟩ <;> cases hentities : s.fullEntities.get docId <;>
        cases hrelations : s.fullRelations.get docId <;>
        simp only [hentities,hrelations] at h <;> (repeat' split at h) <;>
        first
          | cases h; done
          | obtain rfl := ok.inj h
            simp

/-- The chunks, the anchors and the journal apart, nothing but the derived part touches a store. -/
def Store.SameKnowledge (s s' : Store) : Prop :=
  s'.graph = s.graph ∧ s'.entityChunks = s.entityChunks ∧ s'.relationChunks = s.relationChunks

theorem Store.SameKnowledge.trans {s'' : Store} (h : s.SameKnowledge s')
    (h' : s'.SameKnowledge s'') : s.SameKnowledge s'' :=
  ⟨h'.1.trans h.1,h'.2.1.trans h.2.1,h'.2.2.trans h.2.2⟩

theorem sameKnowledge_of_write {operationId : OperationId}
    (h : writeKgPurgePhase s docId operationId phase = .ok s') : s.SameKnowledge s' := by
  obtain ⟨rows,rfl⟩ := writeKgPurgePhase_ok h
  exact ⟨rfl,rfl,rfl⟩

theorem bind_ok {α β : Type} {x : Except PurgeError α} {f : α → Except PurgeError β} {b : β}
    (h : x >>= f = .ok b) : ∃ a, x = .ok a ∧ f a = .ok b := by
  cases x with
  | error err => cases h
  | ok a => exact ⟨a,rfl,h⟩

theorem purgeUnderProof_ok (h : purgeUnderProof cfg env call proof s = .ok s') :
    if proof.phaseAtLeast .derivedCommitted then s.SameKnowledge s'
    else ∃ rows s₂, purgeDerivedKgContributions cfg env (call.under proof.proofKind)
        proof.patchCandidateEntities proof.patchCandidateRelations { s with docStatus := rows } =
          .ok s₂ ∧ s₂.SameKnowledge s' := by
  obtain ⟨s₁,hprepared,h⟩ := bind_ok h
  obtain ⟨s₃,hderived,h⟩ := bind_ok h
  obtain ⟨s₄,hpending,hcompleted⟩ := bind_ok h
  have hrows : ∃ rows, s₁ = { s with docStatus := rows } := by
    unfold unlessPersisted at hprepared
    split at hprepared
    · exact ⟨s.docStatus,(ok.inj hprepared).symm⟩
    · exact writeKgPurgePhase_ok hprepared
  have hrest : s₃.SameKnowledge s' := by
    have hlast := sameKnowledge_of_write hcompleted
    refine Store.SameKnowledge.trans ?_ hlast
    unfold unlessPersisted at hpending
    split at hpending
    · obtain rfl := ok.inj hpending
      exact ⟨rfl,rfl,rfl⟩
    · have hchunks : (deleteChunks call.chunkIds s₃).SameKnowledge s₄ :=
        sameKnowledge_of_write hpending
      exact hchunks
  obtain ⟨rows,rfl⟩ := hrows
  unfold unlessPersisted at hderived
  split
  · rename_i hphase
    rw [if_pos hphase] at hderived
    obtain rfl := ok.inj hderived
    exact hrest
  · rename_i hphase
    rw [if_neg hphase] at hderived
    obtain ⟨s₂,hpurged,hwrite⟩ := bind_ok hderived
    exact ⟨rows,s₂,hpurged,(sameKnowledge_of_write hwrite).trans hrest⟩

theorem phaseAtLeast_derivedCommitted :
    proof.phaseAtLeast .derivedCommitted = true ↔
      proof.journalPhase ≠ none ∧ proof.journalPhase ≠ some .prepared := by
  unfold RecoveryProof.phaseAtLeast
  cases proof.journalPhase with
  | none => simp
  | some recorded => cases recorded <;> simp [PurgePhase.index]

theorem committed_iff (hjournaled : call.journaled = true)
    (h : journalPhase (s.docStatus.get call.docId)
      (makeKgPurgeOperationId call.docId call.chunkIds) = .ok proof.journalPhase) :
    call.committed s = true ↔ proof.phaseAtLeast .derivedCommitted = true := by
  rw [phaseAtLeast_derivedCommitted]
  unfold journalPhase at h
  unfold PurgeCall.committed
  rw [hjournaled]
  cases hjournal : (s.docStatus.get call.docId).bind StatusRow.kgPurge with
  | none =>
    rw [hjournal] at h
    rw [← ok.inj h]
    simp
  | some journal =>
    rw [hjournal] at h
    dsimp only at h ⊢
    split at h
    · rename_i hop
      rw [← ok.inj h]
      simp [hop]
    · rename_i hop
      split at h
      · rw [← ok.inj h]
        simp [hop]
      · cases h

theorem purgeDerived_ok {looked : PurgeCall} {extraEntities : List Name}
    {extraRelations : List Pair}
    (h : purgeDerivedKgContributions cfg env looked extraEntities extraRelations s = .ok s') :
    ∀ i : Inspection, i = ⟨looked.chunkIds, looked.rebuildPolicy,
      Knowledge.candidateEntities looked extraEntities s,
      Knowledge.candidateRelations looked extraRelations s⟩ →
      rebuildKnowledgeFromChunks cfg env i.policy (i.plan s).tasks (applyPlan (i.plan s) s) =
        some s' := by
  rintro i rfl
  unfold purgeDerivedKgContributions at h
  dsimp only at h
  split at h
  · cases h
  · rename_i s₂ hrebuild
    obtain rfl := ok.inj h
    exact hrebuild

theorem inspection_of_proof (hjournaled : call.journaled = true)
    (h : resolvePurgeRecoveryProof s call.docId call.chunkIds = .ok proof)
    (hphase : ¬ proof.phaseAtLeast .derivedCommitted = true)
    {rows : Dict DocId StatusRow} (hcommitted : call.committed s = false) :
    call.inspection s = ⟨(call.under proof.proofKind).chunkIds,
      (call.under proof.proofKind).rebuildPolicy,
      Knowledge.candidateEntities (call.under proof.proofKind) proof.patchCandidateEntities
        { s with docStatus := rows },
      Knowledge.candidateRelations (call.under proof.proofKind) proof.patchCandidateRelations
        { s with docStatus := rows }⟩ := by
  obtain ⟨hpatch,-,hkind⟩ := resolve_ok h
  rw [phaseAtLeast_derivedCommitted,not_and_or,not_not,not_not] at hphase
  have hlooked : (if call.unanchored s then call.under .preGraph else call) =
      call.under proof.proofKind := by
    have hanchors : call.unanchored s = true ↔
        proof.proofKind = .preGraph ∨ proof.proofKind = .emptyScope := by
      rw [hkind hphase,PurgeCall.unanchored,hjournaled]
      simp
    unfold PurgeCall.under
    by_cases hmissing : call.unanchored s = true
    · rw [if_pos hmissing,if_pos (hanchors.mp hmissing),if_pos (.inl rfl)]
    · rw [if_neg hmissing,if_neg ((not_congr hanchors).mp hmissing)]
  have hchunks : (call.under proof.proofKind).chunkIds = call.chunkIds ∧
      (call.under proof.proofKind).rebuildPolicy = call.rebuildPolicy := by
    unfold PurgeCall.under
    split <;> exact ⟨rfl,rfl⟩
  have hextra : call.patch s = (proof.patchCandidateEntities, proof.patchCandidateRelations) := by
    rw [PurgeCall.patch,if_pos hjournaled,hpatch]
  unfold PurgeCall.inspection
  rw [hlooked,hcommitted,hextra,hchunks.1,hchunks.2]
  rfl

theorem purge_ok (h : purgeKgContributions cfg env call s = .ok s') :
    (call.committed s = true ∨ call.chunkIds = []) ∧ s.SameKnowledge s' ∨
      call.committed s = false ∧ ∃ rows s₂,
        rebuildKnowledgeFromChunks cfg env (call.inspection s).policy
          ((call.inspection s).plan { s with docStatus := rows }).tasks
          (applyPlan ((call.inspection s).plan { s with docStatus := rows })
            { s with docStatus := rows }) = some s₂ ∧ s₂.SameKnowledge s' := by
  unfold purgeKgContributions at h
  split at h
  · rename_i hjournaled
    obtain ⟨proof,hproof,h⟩ := bind_ok h
    have hcommitted := committed_iff hjournaled (resolve_ok hproof).2.1
    split at h
    · rename_i hcompleted
      obtain rfl := ok.inj h
      refine .inl ⟨.inl (hcommitted.mpr ?_),rfl,rfl,rfl⟩
      unfold RecoveryProof.phaseAtLeast at hcompleted ⊢
      cases hphase : proof.journalPhase with
      | none =>
        rw [hphase] at hcompleted
        cases hcompleted
      | some recorded =>
        cases recorded <;> simp_all [PurgePhase.index]
    · have hrun := purgeUnderProof_ok h
      split at hrun
      · rename_i hphase
        exact .inl ⟨.inl (hcommitted.mpr hphase),hrun⟩
      · rename_i hphase
        have hnot : call.committed s = false := by
          rw [← Bool.not_eq_true]
          exact (not_congr hcommitted).mpr hphase
        obtain ⟨rows,s₂,hderived,hsame⟩ := hrun
        exact .inr ⟨hnot,rows,s₂,
          purgeDerived_ok hderived _ (inspection_of_proof hjournaled hproof hphase hnot),hsame⟩
  · rename_i hjournaled
    have hnot : call.committed s = false := by
      unfold PurgeCall.committed
      rw [Bool.not_eq_true] at hjournaled
      rw [hjournaled,Bool.false_and]
    split at h
    · rename_i hempty
      obtain rfl := ok.inj h
      exact .inl ⟨.inr hempty,rfl,rfl,rfl⟩
    · obtain ⟨s₂,hderived,h⟩ := bind_ok h
      have hsame : s₂.SameKnowledge s' := by
        split at h <;> obtain rfl := ok.inj h <;> exact ⟨rfl,rfl,rfl⟩
      have hlooked : call.inspection s = ⟨call.chunkIds,call.rebuildPolicy,
          Knowledge.candidateEntities call [] s,Knowledge.candidateRelations call [] s⟩ := by
        unfold PurgeCall.inspection PurgeCall.unanchored PurgeCall.patch
        rw [Bool.not_eq_true] at hjournaled
        rw [hnot,hjournaled]
        rfl
      exact .inr ⟨hnot,s.docStatus,s₂,purgeDerived_ok hderived _ hlooked,hsame⟩

theorem mem_candidateEntities {e : Name} {extra : List Name} :
    e ∈ Knowledge.candidateEntities call extra s ↔
      e ∈ call.candidateEntities.getD ((s.fullEntities.get call.docId).getD []) ∨ e ∈ extra := by
  unfold Knowledge.candidateEntities
  by_cases hin : e ∈ call.candidateEntities.getD ((s.fullEntities.get call.docId).getD [])
  · simp [hin]
  · simp [hin]

theorem mem_candidateRelations {p : Pair} {extra : List Pair} :
    p ∈ Knowledge.candidateRelations call extra s ↔
      p ∈ call.candidateRelations.getD ((s.fullRelations.get call.docId).getD []) ∨ p ∈ extra := by
  unfold Knowledge.candidateRelations
  by_cases hin : p ∈ call.candidateRelations.getD ((s.fullRelations.get call.docId).getD [])
  · simp [hin]
  · simp [hin]

theorem inspection_subset :
    (∀ e ∈ (call.inspection s).entities, e ∈ call.entities s) ∧
      ∀ p ∈ (call.inspection s).relations, p ∈ call.relations s := by
  unfold PurgeCall.inspection PurgeCall.entities PurgeCall.relations PurgeCall.under
  dsimp only
  constructor
  · intro e he
    split at he
    · cases he
    · rw [mem_candidateEntities] at he ⊢
      split at he
      · exact .inr (by simpa using he)
      · exact he
  · intro p hp
    split at hp
    · cases hp
    · rw [mem_candidateRelations] at hp ⊢
      split at hp
      · exact .inr (by simpa using hp)
      · exact hp

theorem graph_outside_candidates (h : purgeKgContributions cfg env call s = .ok s') :
    (∀ e, e ∉ call.entities s → s'.getNode e = s.getNode e) ∧
      ∀ p, p ∉ call.relations s → s'.getEdge p = none ∨ s'.getEdge p = s.getEdge p := by
  obtain ⟨-,hsame⟩ | ⟨-,rows,s₂,hrebuild,hsame⟩ := purge_ok h
  · constructor
    · exact fun e _ => congrArg (fun g : Graph => g.getNode e) hsame.1
    · exact fun p _ => .inr (congrArg (fun g : Graph => g.getEdge p) hsame.1)
  · have houtcome := outcome hrebuild
    constructor
    · intro e he
      have hnot : e ∉ (call.inspection s).entities := fun hin => he (inspection_subset.1 e hin)
      have hother := houtcome.entity_other e (fun hgone => hnot hgone.1) (fun hre => hnot hre.1)
      exact (congrArg (fun g : Graph => g.getNode e) hsame.1).trans hother.1
    · intro p hp
      have hnot : p ∉ (call.inspection s).relations := fun hin => hp (inspection_subset.2 p hin)
      have hafter : s'.getEdge p = s₂.getEdge p := congrArg (fun g : Graph => g.getEdge p) hsame.1
      rw [hafter]
      by_cases hgone : s.getEdge p ≠ none ∧
          (call.inspection s).removesRelation { s with docStatus := rows } p
      · exact .inl (houtcome.relation_removed p hgone.1 hgone.2).1
      · exact .inr (houtcome.relation_other p hgone (fun hre => hnot hre.1)).1

end

end LightRAG.Knowledge
