import LightRAG.Framework.Run
import LightRAG.Pipeline.Feeder

/-!
# Runs of the feeder

Every message is decided or given back, and no document is put twice.
-/

namespace LightRAG.Feeder
open List

/-- No await ends between the registration and the put, and the lock is taken after the put, or to
roll back. -/
def Admission.Clean (a : Admission) : Prop :=
  a.register.acquire = .returns → a.register.release = .returns ∧
    (a.put = .returns → a.recording.acquire = .returns) ∧
      (a.put ≠ .returns → a.rollback.acquire = .returns)

variable {ctx : Ctx} {w w' : World} {docId : String} {initial : Finset String} {total pageSize : ℕ}

structure Ctx.Inv (initial : Finset String) (total : ℕ) (ctx : Ctx) : Prop where
  initial_le : initial ⊆ ctx.inflight
  putsIn : ∀ docId ∈ ctx.puts.map Prod.snd, docId ∈ ctx.inflight ∨ docId ∈ ctx.routing
  once : (ctx.puts.map Prod.snd).Nodup
  fresh : ∀ docId ∈ ctx.puts.map Prod.snd, docId ∉ initial
  routing : ∀ docId, docId ∈ ctx.routing ↔ ∃ a, (docId, a) ∈ ctx.admissions ∧ ¬ a.Clean
  counted : (∀ e ∈ ctx.admissions, e.2.Clean) → ctx.totalFiles = total + ctx.puts.length

namespace Ctx

def meet (docId : String) (a : Admission) (ctx : Ctx) : Ctx :=
  { ctx with admissions := ctx.admissions ++ [(docId, a)] }

def putInto (group docId : String) (ctx : Ctx) : Ctx :=
  { ctx with puts := ctx.puts ++ [(group, docId)] }

theorem withLock_cases (use : LockUse) (body : Ctx → Ctx) (ctx : Ctx) :
    (use.acquire = .returns ∧ ctx.withLock use body = (body ctx, use.release)) ∨
    (use.acquire ≠ .returns ∧ ctx.withLock use body = (ctx, use.acquire)) := by
  rw [withLock]
  cases use.acquire with
  | returns => exact .inl ⟨rfl,rfl⟩
  | cancelled => exact .inr ⟨Await.noConfusion,rfl⟩
  | raises => exact .inr ⟨Await.noConfusion,rfl⟩

/-- The ways in which an admission ends: before the registration, with a registration that is left
behind before or after the put, rolled back, or complete. -/
theorem admitFedDocument_cases (engine docId : String) (a : Admission) (ctx : Ctx) :
    let r := ctx.admitFedDocument engine docId a
    let met := ctx.meet docId a
    (a.Clean ∧ r.2 ≠ .returns ∧ r.1 = met) ∨
    (a.Clean ∧ r.2 ≠ .returns ∧ r.1 = (met.register docId).rollBack docId) ∨
    (a.Clean ∧ r.1 = ((met.register docId).putInto (ctx.group engine) docId).recordAdmitted docId) ∨
    (¬ a.Clean ∧ r.2 ≠ .returns ∧ r.1 = met.register docId) ∨
    (¬ a.Clean ∧ r.2 ≠ .returns ∧
      r.1 = (met.register docId).putInto (ctx.group engine) docId) := by
  rw [admitFedDocument]
  dsimp only
  obtain ⟨hacquire,hregister⟩ | ⟨hacquire,hregister⟩ :=
    withLock_cases a.register (register docId) (ctx.meet docId a)
  · rw [← meet,hregister]
    by_cases hrelease : a.register.release = .returns
    · rw [if_pos hrelease]
      by_cases hput : a.put = .returns
      · rw [if_pos hput]
        obtain ⟨hgranted,heq⟩ | ⟨hgranted,heq⟩ := withLock_cases a.recording (recordAdmitted docId)
          (((ctx.meet docId a).register docId).putInto (ctx.group engine) docId)
        · rw [← putInto,heq]
          exact .inr (.inr (.inl ⟨fun _ => ⟨hrelease,fun _ => hgranted,fun h => absurd hput h⟩,rfl⟩))
        · rw [← putInto,heq]
          exact .inr (.inr (.inr (.inr ⟨fun hclean => hgranted ((hclean hacquire).2.1 hput),hgranted,
            rfl⟩)))
      · rw [if_neg hput]
        obtain ⟨hrollback,heq⟩ | ⟨hrollback,heq⟩ := withLock_cases a.rollback (rollBack docId)
          ((ctx.meet docId a).register docId)
        · rw [heq]
          refine .inr (.inl ⟨fun _ => ⟨hrelease,fun h => absurd h hput,fun _ => hrollback⟩,?_,rfl⟩)
          split
          · exact hput
          · assumption
        · rw [heq]
          refine .inr (.inr (.inr (.inl ⟨fun hclean => hrollback ((hclean hacquire).2.2 hput),?_,
            rfl⟩)))
          rw [if_neg hrollback]
          exact hrollback
    · rw [if_neg hrelease]
      exact .inr (.inr (.inr (.inl ⟨fun hclean => hrelease (hclean hacquire).1,hrelease,rfl⟩)))
  · rw [← meet,hregister]
    rw [if_neg hacquire]
    exact .inl ⟨fun h => absurd h hacquire,hacquire,rfl⟩

end Ctx

theorem Ctx.Inv.admission (h : ctx.Inv initial total) {docId : String} (hrouting : docId ∉ ctx.routing)
    (hinflight : docId ∉ ctx.inflight) (engine : String) (a : Admission) :
    (ctx.admitFedDocument engine docId a).1.Inv initial total ∧
      ((ctx.admitFedDocument engine docId a).2 = .returns →
        docId ∈ (ctx.admitFedDocument engine docId a).1.puts.map Prod.snd) := by
  have hnew : docId ∉ ctx.puts.map Prod.snd := by
    intro hin
    exact (h.putsIn docId hin).elim hinflight hrouting
  have hclean : (∀ e ∈ ctx.admissions ++ [(docId, a)], e.2.Clean) →
      ctx.totalFiles = total + ctx.puts.length :=
    fun hall => h.counted fun e he => hall e (mem_append_left _ he)
  have hmet : ∀ d, (∃ a', (d, a') ∈ ctx.admissions ++ [(docId, a)] ∧ ¬ a'.Clean) ↔
      d ∈ ctx.routing ∨ (d = docId ∧ ¬ a.Clean) := by
    intro d
    rw [h.routing d]
    simp [or_and_right,exists_or]
  have hstays : a.Clean → ∀ d, d ∈ ctx.routing ↔
      ∃ a', (d, a') ∈ ctx.admissions ++ [(docId, a)] ∧ ¬ a'.Clean := by
    intro ha d
    rw [hmet d]
    simp [ha]
  have hleft : ¬ a.Clean → ∀ d, d ∈ insert docId ctx.routing ↔
      ∃ a', (d, a') ∈ ctx.admissions ++ [(docId, a)] ∧ ¬ a'.Clean := by
    intro ha d
    rw [hmet d]
    simp [ha,or_comm]
  have herase : (insert docId ctx.routing).erase docId = ctx.routing :=
    Finset.erase_insert hrouting
  have honce : ((ctx.puts ++ [(ctx.group engine, docId)]).map Prod.snd).Nodup := by
    rw [map_append,nodup_append]
    refine ⟨h.once,nodup_singleton _,?_⟩
    intro d hd d' hd' heq
    rw [heq,mem_singleton.mp hd'] at hd
    exact hnew hd
  have hfresh : ∀ d ∈ (ctx.puts ++ [(ctx.group engine, docId)]).map Prod.snd, d ∉ initial := by
    intro d hd
    rw [map_append] at hd
    rcases mem_append.mp hd with hold | hlast
    · exact h.fresh d hold
    · rw [mem_singleton.mp hlast]
      exact fun hin => hinflight (h.initial_le hin)
  have hputs : ∀ d ∈ (ctx.puts ++ [(ctx.group engine, docId)]).map Prod.snd,
      d = docId ∨ d ∈ ctx.inflight ∨ d ∈ ctx.routing := by
    intro d hd
    rw [map_append] at hd
    rcases mem_append.mp hd with hold | hlast
    · exact .inr (h.putsIn d hold)
    · exact .inl (mem_singleton.mp hlast)
  rcases ctx.admitFedDocument_cases engine docId a with ⟨ha,hret,heq⟩ | ⟨ha,hret,heq⟩ |
    ⟨ha,heq⟩ | ⟨ha,hret,heq⟩ | ⟨ha,hret,heq⟩
  · rw [heq]
    refine ⟨⟨h.initial_le,h.putsIn,h.once,h.fresh,hstays ha,hclean⟩,fun h => absurd h hret⟩
  · rw [heq]
    refine ⟨⟨h.initial_le,?_,h.once,h.fresh,?_,hclean⟩,fun h => absurd h hret⟩
    · intro d hd
      change d ∈ ctx.inflight ∨ d ∈ (insert docId ctx.routing).erase docId
      rw [herase]
      exact h.putsIn d hd
    · change ∀ d, d ∈ (insert docId ctx.routing).erase docId ↔ _
      rw [herase]
      exact hstays ha
  · rw [heq]
    refine ⟨⟨h.initial_le.trans (Finset.subset_insert _ _),?_,honce,hfresh,?_,?_⟩,?_⟩
    · intro d hd
      change d ∈ insert docId ctx.inflight ∨ d ∈ (insert docId ctx.routing).erase docId
      rw [herase,Finset.mem_insert,or_assoc]
      exact hputs d hd
    · change ∀ d, d ∈ (insert docId ctx.routing).erase docId ↔ _
      rw [herase]
      exact hstays ha
    · intro hall
      change ctx.totalFiles + 1 = total + (ctx.puts ++ [(ctx.group engine, docId)]).length
      rw [length_append,hclean hall]
      exact Nat.add_assoc _ _ _
    · intro _
      change docId ∈ (ctx.puts ++ [(ctx.group engine, docId)]).map Prod.snd
      simp
  · rw [heq]
    refine ⟨⟨h.initial_le,?_,h.once,h.fresh,hleft ha,?_⟩,fun h => absurd h hret⟩
    · intro d hd
      exact (h.putsIn d hd).imp_right Finset.mem_insert_of_mem
    · intro hall
      exact absurd (hall (docId, a) (mem_append_right _ (mem_singleton_self _))) ha
  · rw [heq]
    refine ⟨⟨h.initial_le,?_,honce,hfresh,hleft ha,?_⟩,fun h => absurd h hret⟩
    · intro d hd
      change d ∈ ctx.inflight ∨ d ∈ insert docId ctx.routing
      rw [Finset.mem_insert,or_left_comm]
      exact hputs d hd
    · intro hall
      exact absurd (hall (docId, a) (mem_append_right _ (mem_singleton_self _))) ha

theorem Ctx.puts_of_admission (engine docId : String) (a : Admission) (ctx : Ctx) :
    ∃ new, (ctx.admitFedDocument engine docId a).1.puts = ctx.puts ++ new := by
  rcases ctx.admitFedDocument_cases engine docId a with ⟨-,-,heq⟩ | ⟨-,-,heq⟩ | ⟨-,heq⟩ |
    ⟨-,-,heq⟩ | ⟨-,-,heq⟩
  · exact ⟨[],by rw [heq,append_nil]; rfl⟩
  · exact ⟨[],by rw [heq,append_nil]; rfl⟩
  · exact ⟨_,by rw [heq]; rfl⟩
  · exact ⟨[],by rw [heq,append_nil]; rfl⟩
  · exact ⟨_,by rw [heq]; rfl⟩

theorem Ctx.Inv.routeOne (h : ctx.Inv initial total) (visit : Visit) (pending : Option Row)
    (docId : String) :
    (Feeder.routeOne visit pending docId ctx).1.Inv initial total ∧
      (∃ new, (Feeder.routeOne visit pending docId ctx).1.puts = ctx.puts ++ new) ∧
      ((Feeder.routeOne visit pending docId ctx).2 = .decided .admitted →
        docId ∈ (Feeder.routeOne visit pending docId ctx).1.puts.map Prod.snd) ∧
      ((Feeder.routeOne visit pending docId ctx).2 = .decided .malformed → docId = "") := by
  have hsame : ∀ r : Routed, r ≠ .decided .admitted → (r = .decided .malformed → docId = "") →
      (ctx, r).1.Inv initial total ∧ (∃ new, (ctx, r).1.puts = ctx.puts ++ new) ∧
      ((ctx, r).2 = .decided .admitted → docId ∈ (ctx, r).1.puts.map Prod.snd) ∧
      ((ctx, r).2 = .decided .malformed → docId = "") :=
    fun r hr hempty => ⟨h,⟨[],(append_nil _).symm⟩,fun hadmitted => absurd hadmitted hr,hempty⟩
  rw [Feeder.routeOne]
  split
  · rename_i hempty
    exact hsame _ (by decide) fun _ => hempty
  · split
    · exact hsame _ (by decide) fun hr => nomatch hr
    · exact hsame _ (by decide) fun hr => nomatch hr
    · split
      · exact hsame _ (by decide) fun hr => nomatch hr
      · rename_i hfresh
        rw [not_or] at hfresh
        unfold routePending
        split
        · exact hsame _ (by decide) fun hr => nomatch hr
        · split
          · exact hsame _ (by decide) fun hr => nomatch hr
          · split
            · exact hsame _ (by decide) fun hr => nomatch hr
            · exact hsame _ (by decide) fun hr => nomatch hr
            · exact hsame _ (by decide) fun hr => nomatch hr
            · split
              · exact hsame _ (by decide) fun hr => nomatch hr
              · rename_i engine _
                obtain ⟨hinv,hput⟩ := h.admission hfresh.1 hfresh.2 engine visit.admission
                refine ⟨hinv,ctx.puts_of_admission engine docId visit.admission,?_,?_⟩
                · intro hadmitted
                  apply hput
                  dsimp only at hadmitted
                  cases hret : (ctx.admitFedDocument engine docId visit.admission).2 with
                  | returns => rfl
                  | cancelled =>
                    rw [hret] at hadmitted
                    exact nomatch hadmitted
                  | raises =>
                    rw [hret] at hadmitted
                    exact nomatch hadmitted
                · intro hmalformed
                  dsimp only at hmalformed
                  cases hret : (ctx.admitFedDocument engine docId visit.admission).2
                  all_goals
                    rw [hret] at hmalformed
                    exact nomatch hmalformed

structure World.Sound (initial : Finset String) (total : ℕ) (w : World) : Prop where
  ctx : w.ctx.Inv initial total
  admitted : ∀ docId, (docId, .admitted) ∈ w.decisions → docId ∈ w.ctx.puts.map Prod.snd
  skipped : ∀ docId, (docId, .skipped) ∉ w.decisions
  malformed : ∀ docId, (docId, .malformed) ∈ w.decisions → docId = ""

def Flow.tail : Flow → List String
  | .goesOn => []
  | .returns => []
  | .cancelled tail => tail
  | .raised tail => tail

namespace World

def held (batch : List String) (w : World) : List String :=
  w.decisions.map Prod.fst ++ w.deferred ++ batch

theorem held_defer (batch : List String) (w : World) :
    ((w.defer batch).held []).Perm (w.held batch) := by
  rw [held,held,defer,append_nil,append_assoc]

theorem held_settle (docId : String) (d : Decision) (batch : List String) (w : World) :
    ((w.settle docId d).held batch).Perm (w.held (docId :: batch)) := by
  rw [perm_iff_count]
  cases d
  all_goals
    simp only [held,settle,defer,map_append,count_append,map_cons,map_nil,count_cons,count_nil]
    omega

theorem Sound.settle (h : w.Sound initial total) (docId : String) (d : Decision)
    (hadmitted : d = .admitted → docId ∈ w.ctx.puts.map Prod.snd)
    (hmalformed : d = .malformed → docId = "") : (w.settle docId d).Sound initial total := by
  have hdecided : d ≠ .skipped →
      ({ w with decisions := w.decisions ++ [(docId, d)] } : World).Sound initial total := by
    intro hd
    constructor
    case ctx => exact h.ctx
    case admitted =>
      intro x hx
      rcases mem_append.mp hx with hold | hnew
      · exact h.admitted x hold
      · obtain ⟨rfl,rfl⟩ := Prod.mk.inj (mem_singleton.mp hnew)
        exact hadmitted rfl
    case skipped =>
      intro x hx
      rcases mem_append.mp hx with hold | hnew
      · exact h.skipped x hold
      · exact hd (Prod.mk.inj (mem_singleton.mp hnew)).2.symm
    case malformed =>
      intro x hx
      rcases mem_append.mp hx with hold | hnew
      · exact h.malformed x hold
      · obtain ⟨rfl,rfl⟩ := Prod.mk.inj (mem_singleton.mp hnew)
        exact hmalformed rfl
  cases d with
  | skipped => exact ⟨h.ctx,h.admitted,h.skipped,h.malformed⟩
  | malformed => exact hdecided Decision.noConfusion
  | duplicate => exact hdecided Decision.noConfusion
  | stale => exact hdecided Decision.noConfusion
  | journaled => exact hdecided Decision.noConfusion
  | admitted => exact hdecided Decision.noConfusion

theorem Sound.next {ctx : Ctx} (h : w.Sound initial total) (hctx : ctx.Inv initial total)
    (hputs : ∃ new, ctx.puts = w.ctx.puts ++ new) :
    ({ w with ctx := ctx } : World).Sound initial total where
  ctx := hctx
  admitted docId hdocId := by
    obtain ⟨new,hnew⟩ := hputs
    rw [hnew,map_append]
    exact mem_append_left _ (h.admitted docId hdocId)
  skipped := h.skipped
  malformed := h.malformed

theorem visitAll_keeps {visits : ℕ → Visit} {pending : String → Option Row} (batch : List String)
    (reached : ℕ) (w : World) (h : w.Sound initial total) :
    let r := w.visitAll pageSize visits pending reached batch
    r.1.Sound initial total ∧ r.1.mailbox = w.mailbox ∧ r.1.received = w.received ∧
      (r.1.held r.2.tail).Perm (w.held batch) := by
  induction batch generalizing reached w with
  | nil => exact ⟨h,rfl,rfl,.refl _⟩
  | cons docId rest ih =>
    rw [visitAll]
    split
    · exact ⟨⟨h.ctx,h.admitted,h.skipped,h.malformed⟩,rfl,rfl,held_defer _ w⟩
    · obtain ⟨hctx,hputs,hadmitted,hmalformed⟩ :=
        h.ctx.routeOne (visits reached) (pending docId) docId
      have hnext := h.next hctx hputs
      dsimp only
      cases hrouted : (routeOne (visits reached) (pending docId) docId w.ctx).2 with
      | cancelled => exact ⟨hnext,rfl,rfl,.refl _⟩
      | raised => exact ⟨hnext,rfl,rfl,.refl _⟩
      | decided d =>
        have hsettled := hnext.settle docId d
          (fun hd => hadmitted (by rw [hrouted,hd]))
          (fun hd => hmalformed (by rw [hrouted,hd]))
        obtain ⟨hsound,hmailbox,hreceived,hperm⟩ := ih (reached + 1) _ hsettled
        refine ⟨hsound,?_,?_,?_⟩
        · rw [hmailbox]
          cases d <;> rfl
        · rw [hreceived]
          cases d <;> rfl
        · exact hperm.trans (held_settle docId d rest _)

structure Inv (initial : Finset String) (total : ℕ) (w : World) : Prop where
  sound : w.Sound initial total
  /-- `_validate_document_message` -/
  valid : ∀ docId ∈ w.received, docId ≠ ""
  balanced : w.received.Perm (w.held w.mailbox)

theorem Inv.attempt (h : w.Inv initial total) (pageSize : ℕ) (d : Drain) :
    let r := w.attempt pageSize d
    r.1.Sound initial total ∧ r.1.received = w.received ∧
      w.received.Perm (r.1.held (r.2.tail ++ r.1.mailbox)) := by
  rw [World.attempt]
  split
  · exact ⟨h.sound,rfl,h.balanced⟩
  · cases d.next with
    | cancelled => exact ⟨h.sound,rfl,h.balanced⟩
    | raises => exact ⟨h.sound,rfl,h.balanced⟩
    | returns =>
      dsimp only
      have hparts : w.mailbox.take drainLimit ++ w.mailbox.drop drainLimit = w.mailbox :=
        take_append_drop drainLimit w.mailbox
      have hdrained : ({ w with mailbox := w.mailbox.drop drainLimit } : World).Sound initial total :=
        ⟨h.sound.ctx,h.sound.admitted,h.sound.skipped,h.sound.malformed⟩
      have hbatch : w.received.Perm
          (w.held (w.mailbox.take drainLimit ++ w.mailbox.drop drainLimit)) := by
        rw [hparts]
        exact h.balanced
      rw [World.routeBatch]
      split
      · rename_i hall
        have hnone : w.mailbox.take drainLimit = [] := by
          rw [eq_nil_iff_forall_not_mem]
          intro docId hdocId
          have hin : docId ∈ w.received := by
            rw [h.balanced.mem_iff]
            exact mem_append_right _ (mem_of_mem_take hdocId)
          apply h.valid docId hin
          simpa using all_eq_true.mp hall docId hdocId
        rw [hnone] at hbatch
        exact ⟨hdrained,rfl,hbatch⟩
      · cases d.hydrate with
        | cancelled => exact ⟨hdrained,rfl,hbatch⟩
        | raises => exact ⟨hdrained,rfl,hbatch⟩
        | returns =>
          obtain ⟨hsound,hmailbox,hreceived,hperm⟩ := visitAll_keeps
            (w.mailbox.take drainLimit) 0 { w with mailbox := w.mailbox.drop drainLimit } hdrained
          refine ⟨hsound,hreceived,hbatch.trans ?_⟩
          rw [hmailbox,held,held,← append_assoc,← append_assoc]
          exact (hperm.symm).append_right _

theorem Inv.iterate (h : w.Inv initial total) (pageSize : ℕ) (d : Drain)
    (hvalid : ∀ docId ∈ d.arrived, docId ≠ "") :
    (w.iterate pageSize d).1.Inv initial total := by
  have harrived : ({ w with
      mailbox := w.mailbox ++ d.arrived
      received := w.received ++ d.arrived } : World).Inv initial total := by
    refine ⟨⟨h.sound.ctx,h.sound.admitted,h.sound.skipped,h.sound.malformed⟩,?_,?_⟩
    · intro docId hdocId
      exact (mem_append.mp hdocId).elim (h.valid docId) (hvalid docId)
    · rw [held,← append_assoc]
      exact h.balanced.append_right _
  obtain ⟨hsound,hreceived,hperm⟩ := harrived.attempt pageSize d
  rw [World.iterate]
  split
  all_goals
    rename_i hflow
    rw [hflow] at hperm
  · exact ⟨hsound,by rw [hreceived]; exact harrived.valid,by rw [hreceived]; exact hperm⟩
  · exact ⟨hsound,by rw [hreceived]; exact harrived.valid,by rw [hreceived]; exact hperm⟩
  · refine ⟨⟨hsound.ctx,hsound.admitted,hsound.skipped,hsound.malformed⟩,?_,?_⟩
    · change ∀ docId ∈ (World.attempt _ _ _).1.received, _
      rw [hreceived]
      exact harrived.valid
    · change (World.attempt _ _ _).1.received.Perm _
      rw [hreceived]
      apply hperm.trans
      simp only [held,defer,append_assoc]
      exact .refl _
  · refine ⟨⟨hsound.ctx,hsound.admitted,hsound.skipped,hsound.malformed⟩,?_,?_⟩
    · change ∀ docId ∈ (World.attempt _ _ _).1.received, _
      rw [hreceived]
      exact harrived.valid
    · change (World.attempt _ _ _).1.received.Perm _
      rw [hreceived]
      apply hperm.trans
      exact perm_append_comm.append_left _

def start (inflight : Finset String) (totalFiles docs batchs : ℕ)
    (parserSpecs : String → Option String) (parseQueues mailbox : List String) (auto : Bool) :
    World where
  ctx := ⟨∅, inflight, totalFiles, docs, batchs, parserSpecs, parseQueues, [], []⟩
  mailbox := mailbox
  autoRescanPending := auto
  deferred := []
  received := mailbox
  decisions := []

def Step (pageSize : ℤ) (w : World) (d : Drain) (w' : World) : Prop :=
  (∀ docId ∈ d.arrived, docId ≠ "") ∧ w.iterate pageSize d = (w', true)

def Ends (pageSize : ℤ) (w : World) (ds : List Drain) (last : Drain) (w' : World) : Prop :=
  ∃ w₁ w₂, Run (Step pageSize) w ds w₁ ∧ (∀ docId ∈ last.arrived, docId ≠ "") ∧
    w₁.iterate pageSize last = (w₂, false) ∧ w' = w₂.finish

/-- The feeder has neither lost nor duplicated a document. -/
structure Kept (initial : Finset String) (total : ℕ) (w : World) : Prop where
  messages : w.received.Perm (w.decisions.map Prod.fst ++ w.mailbox)
  decided : ∀ docId d, (docId, d) ∈ w.decisions → d = .duplicate ∨ d = .stale ∨ d = .journaled ∨
    (d = .admitted ∧ docId ∈ w.ctx.puts.map Prod.snd)
  once : (w.ctx.puts.map Prod.snd).Nodup
  fresh : ∀ docId ∈ w.ctx.puts.map Prod.snd, docId ∉ initial
  counted : w.ctx.totalFiles = total + w.ctx.puts.length
  routing : w.ctx.routing = ∅

theorem Inv.start {docs batchs : ℕ} {parserSpecs : String → Option String}
    {parseQueues mailbox : List String} {auto : Bool} (hvalid : ∀ docId ∈ mailbox, docId ≠ "") :
    (World.start initial total docs batchs parserSpecs parseQueues mailbox auto).Inv initial
      total where
  sound := by
    refine ⟨⟨Finset.Subset.refl _,?_,nodup_nil,?_,?_,fun _ => rfl⟩,?_,?_,?_⟩
    · exact fun _ hin => absurd hin not_mem_nil
    · exact fun _ hin => absurd hin not_mem_nil
    · simp [World.start]
    · exact fun _ hin => absurd hin not_mem_nil
    · exact fun _ hin => absurd hin not_mem_nil
    · exact fun _ hin => absurd hin not_mem_nil
  valid := hvalid
  balanced := .refl _

theorem Inv.finish (h : w.Inv initial total) :
    w.finish.received.Perm (w.finish.decisions.map Prod.fst ++ w.finish.mailbox) := by
  apply h.balanced.trans
  rw [held,append_assoc]
  exact perm_append_comm.append_left _

theorem Inv.kept_iff (h : w.Inv initial total) :
    w.finish.Kept initial total ↔ ∀ e ∈ w.ctx.admissions, e.2.Clean := by
  constructor
  · rintro hkept ⟨docId,a⟩ he
    by_contra hnot
    have hin : docId ∈ w.ctx.routing := (h.sound.ctx.routing docId).mpr ⟨a,he,hnot⟩
    have hempty : w.ctx.routing = ∅ := hkept.routing
    rw [hempty] at hin
    exact absurd hin (Finset.notMem_empty docId)
  · intro hclean
    constructor
    case messages => exact h.finish
    case decided =>
      intro docId d hd
      have hin : (docId, d) ∈ w.decisions := hd
      cases d with
      | malformed =>
        have hreceived : docId ∈ w.received := by
          rw [h.balanced.mem_iff]
          exact mem_append_left _ (mem_append_left _ (mem_map.mpr ⟨_,hin,rfl⟩))
        exact absurd (h.sound.malformed docId hin) (h.valid docId hreceived)
      | duplicate => exact .inl rfl
      | stale => exact .inr (.inl rfl)
      | journaled => exact .inr (.inr (.inl rfl))
      | admitted => exact .inr (.inr (.inr ⟨rfl,h.sound.admitted docId hin⟩))
      | skipped => exact absurd hin (h.sound.skipped docId)
    case once => exact h.sound.ctx.once
    case fresh => exact h.sound.ctx.fresh
    case counted => exact h.sound.ctx.counted hclean
    case routing =>
      rw [Finset.eq_empty_iff_forall_notMem]
      intro docId hin
      obtain ⟨a,ha,hnot⟩ := (h.sound.ctx.routing docId).mp hin
      exact hnot (hclean _ ha)

end World

/-- For every batch of inputs: the feeder has lost and duplicated nothing when it has ended, exactly
if no admission ended between its steps. -/
theorem feeder_kept_iff {docs batchs : ℕ} {parserSpecs : String → Option String}
    {parseQueues mailbox : List String} {auto : Bool} (hvalid : ∀ docId ∈ mailbox, docId ≠ "")
    {ds : List Drain} {last : Drain}
    (hends : World.Ends pageSize
      (World.start initial total docs batchs parserSpecs parseQueues mailbox auto) ds last w) :
    w.Kept initial total ↔ ∀ e ∈ w.ctx.admissions, e.2.Clean := by
  obtain ⟨w₁,w₂,hrun,hlast,hiterate,rfl⟩ := hends
  have hinv : w₁.Inv initial total := by
    apply hrun.preserves _ (World.Inv.start hvalid)
    rintro s d t ⟨harrived,hstep⟩ hs
    have hnext := hs.iterate pageSize d harrived
    rwa [hstep] at hnext
  have hended := hinv.iterate pageSize last hlast
  rw [hiterate] at hended
  exact hended.kept_iff

def quiet : Signals := ⟨false, false, false⟩

def freeLock : LockUse := ⟨.returns, .returns⟩

def smooth : Admission := ⟨freeLock, .returns, freeLock, freeLock⟩

def sampleDrain (next : Await) (admission : Admission) : Drain where
  arrived := []
  signals := quiet
  next := next
  hydrate := .returns
  rows _ := some ⟨true, false⟩
  visits _ := ⟨quiet, freeLock, .found, some "native", admission⟩
  sleep := .returns

def sampleStart : World :=
  World.start {"a"} 1 1 1 (fun _ => some "native") ["native"] ["a", "b"] false

def ranWith (admission : Admission) : World :=
  let routed := (sampleStart.iterate 0 (sampleDrain .returns admission)).1
  (routed.iterate 0 (sampleDrain .cancelled admission)).1.finish

theorem feeder_kept_smooth : (ranWith smooth).Kept {"a"} 1 := by
  have hends : World.Ends 0 sampleStart [sampleDrain .returns smooth]
      (sampleDrain .cancelled smooth) (ranWith smooth) := by
    refine ⟨(sampleStart.iterate 0 (sampleDrain .returns smooth)).1,_,.cons ⟨?_,rfl⟩ (.nil _),?_,
      rfl,rfl⟩
    · exact fun _ hin => absurd hin not_mem_nil
    · exact fun _ hin => absurd hin not_mem_nil
  have hkept := feeder_kept_iff (by decide) hends
  apply hkept.mpr
  intro e he
  have hsmooth : e = ("b", smooth) := mem_singleton.mp he
  rw [hsmooth]
  exact fun _ => ⟨rfl,fun _ => rfl,fun h => absurd rfl h⟩

def cancelledAfterPut : Admission := { smooth with recording := ⟨.cancelled, .returns⟩ }

def cancelledBeforePut : Admission := { smooth with register := ⟨.returns, .cancelled⟩ }

def cancelledWith (admission : Admission) : World :=
  (sampleStart.iterate 0 (sampleDrain .returns admission)).1.finish

/-- A cancellation leaves a registration behind, and with it a document that was not put is counted
or one that was put looks as if it still waited. -/
theorem registration_left_behind :
    (World.Ends 0 sampleStart [] (sampleDrain .returns cancelledAfterPut)
        (cancelledWith cancelledAfterPut) ∧
      ¬ (cancelledWith cancelledAfterPut).Kept {"a"} 1 ∧
      (cancelledWith cancelledAfterPut).ctx.routing = {"b"}) ∧
    (World.Ends 0 sampleStart [] (sampleDrain .returns cancelledBeforePut)
        (cancelledWith cancelledBeforePut) ∧
      ¬ (cancelledWith cancelledBeforePut).Kept {"a"} 1 ∧
      (cancelledWith cancelledBeforePut).ctx.totalFiles = 2 ∧
      (cancelledWith cancelledBeforePut).ctx.puts = []) := by
  have hends : ∀ admission, (sampleStart.iterate 0 (sampleDrain .returns admission)).2 = false →
      World.Ends 0 sampleStart [] (sampleDrain .returns admission) (cancelledWith admission) := by
    intro admission hended
    exact ⟨sampleStart,_,.nil _,fun _ hin => absurd hin not_mem_nil,Prod.ext rfl hended,rfl⟩
  have hafter : (cancelledWith cancelledAfterPut).ctx.routing = {"b"} := by decide +kernel
  have hbefore : (cancelledWith cancelledBeforePut).ctx.routing = {"b"} := by decide +kernel
  refine ⟨⟨hends _ rfl,?_,hafter⟩,hends _ rfl,?_,rfl,rfl⟩
  · intro hkept
    exact Finset.singleton_ne_empty _ (hafter.symm.trans hkept.routing)
  · intro hkept
    exact Finset.singleton_ne_empty _ (hbefore.symm.trans hkept.routing)

end LightRAG.Feeder
