import Mathlib.Data.List.Nodup
import Mathlib.Order.Basic
import Mathlib.Data.Nat.Basic
import LightRAG.Query.Accounting

/-!
# Every reservation of a query is settled

What holds of each call in every state that the scope can reach.
-/

namespace LightRAG.QueryAccounting
open List Option Function

def Consistent (response : Response) (kind : String) (expectedModel : Option String)
    (usage : Usage) : Prop :=
  response.model = some usage.model ∧ expectedModel = some usage.model ∧
    ∃ raw, response.usage = some raw ∧ raw.promptTokens = some (.int usage.promptTokens) ∧
      (if kind = "embedding" then usage.completionTokens = 0
        else raw.completionTokens = some (.int usage.completionTokens)) ∧
      raw.totalTokens = some (.int usage.totalTokens) ∧
      0 ≤ usage.promptTokens ∧ 0 ≤ usage.completionTokens ∧
      usage.totalTokens = usage.promptTokens + usage.completionTokens

theorem rawUsage_eq_some {response : Response} {kind : String} {expectedModel : Option String}
    {usage : Usage} :
    rawUsage response kind expectedModel = some usage ↔
      Consistent response kind expectedModel usage := by
  obtain ⟨model,raw⟩ := response
  obtain ⟨p,c,t,m⟩ := usage
  cases model with
  | none => simp [rawUsage,Consistent]
  | some model =>
    cases raw with
    | none => simp [rawUsage,Consistent]
    | some raw =>
      obtain ⟨p',c',t'⟩ := raw
      unfold rawUsage Consistent
      by_cases hmodel : some model ≠ expectedModel
      · simp only [if_pos hmodel,reduceCtorEq,some.injEq,false_iff]
        rintro ⟨rfl,rfl,-⟩
        exact hmodel rfl
      · by_cases hkind : kind = "embedding"
        · rcases p' with - | (p' | -)
          · simp
          · rcases t' with - | (t' | -)
            · simp
            · split
              · simp only [Usage.mk.injEq]
                grind
              · grind
            · simp
          · simp
        · simp only [hkind]
          rcases p' with - | (p' | -)
          · simp
          · rcases c' with - | (c' | -)
            · simp
            · rcases t' with - | (t' | -)
              · simp
              · split
                · simp only [some.injEq]
                  grind
                · grind
              · simp
            · simp
          · simp

namespace Call

variable (c : Call)

def proof : Option Usage := c.response.bind fun r => rawUsage r c.kind c.payload.model

/-- Nothing has been asked of the provider or of `settle_call`. -/
structure Unsent : Prop where
  granted : c.granted = false
  sends : c.sends = 0
  response : c.response = none
  settles : c.settles = []
  settled : c.settled = false
  cancelled : c.cancelled = false

/-- The send of the call has started, or it will not start, and its reservation is settled or
being settled. -/
structure Owing : Prop where
  granted : c.granted = true
  sends : c.sends ≤ 1
  settles : c.settles = [c.proof]

/-- What each phase says of a call, in a scope that has failed or not. -/
def Lawful (failed : Bool) : Prop :=
  match c.phase with
  | .waitingSlot | .waitingLock _ _ | .reserving => c.Unsent
  | .sending => c.granted = true ∧ c.sends = 1 ∧ c.response = none ∧ c.settles = [] ∧
      c.settled = false ∧ c.cancelled = false
  | .settling .refused _ | .settling (.broke _) _ | .closingClient => c.Owing ∧ failed = true
  | .settling .answered answer => c.Owing ∧ c.settled = (answer == some true)
  | .returned => c.Owing ∧ c.settled = true ∧ c.cancelled = false ∧ c.proof ≠ none
  | .raised => c.Unsent ∨ c.Owing ∧ failed = true

variable {c}

theorem Lawful.mono {failed failed' : Bool} (h : c.Lawful failed)
    (himp : failed = true → failed' = true) : c.Lawful failed' := by
  unfold Lawful at h ⊢
  cases hphase : c.phase with
  | settling cause answer =>
    cases cause <;> simp only [hphase] at h ⊢
    · exact ⟨h.1,himp h.2⟩
    · exact ⟨h.1,himp h.2⟩
    · exact h
  | closingClient =>
    simp only [hphase] at h ⊢
    exact ⟨h.1,himp h.2⟩
  | raised =>
    simp only [hphase] at h ⊢
    exact h.imp_right fun hraised => ⟨hraised.1,himp hraised.2⟩
  | _ =>
    simp only [hphase] at h ⊢
    exact h

theorem Unsent.account {T : Type} [LinearOrder T] {scope : Scope T} {now : T} {failed : Bool}
    (h : c.Unsent) : (c.account scope now).Lawful failed := by
  unfold Call.account
  split
  · exact .inl ⟨h.granted,h.sends,h.response,h.settles,h.settled,h.cancelled⟩
  · exact ⟨h.granted,h.sends,h.response,h.settles,h.settled,h.cancelled⟩

variable {cause : Cause}

@[simp] theorem id_resume {ok : Bool} : (c.resume cause ok).id = c.id := by
  cases cause <;> rfl

@[simp] theorem granted_resume {ok : Bool} :
    (c.resume cause ok).granted = c.granted := by
  cases cause <;> rfl

theorem phase_resume {ok : Bool} : (c.resume cause ok).phase ≠ .reserving := by
  cases cause
  · simp [Call.resume]
  · simp only [Call.resume]
    split <;> simp
  · simp only [Call.resume]
    split <;> simp

theorem Lawful.resume {failed : Bool} {ok : Bool} (h : c.Lawful failed)
    (hphase : c.phase = .settling cause (some ok)) :
    (c.resume cause ok).Lawful (failed || decide ((c.resume cause ok).phase ≠ .returned)) := by
  unfold Lawful at h
  rw [hphase] at h
  cases cause with
  | refused =>
    refine .inr ⟨⟨h.1.granted,h.1.sends,h.1.settles⟩,?_⟩
    rw [h.2,Bool.true_or]
  | broke cancelled =>
    rw [h.2]
    by_cases hclose : cancelled = true ∧ c.client.hasClose = true
    · simp only [Call.resume,if_pos hclose]
      exact ⟨⟨h.1.granted,h.1.sends,h.1.settles⟩,rfl⟩
    · simp only [Call.resume,if_neg hclose]
      exact .inr ⟨⟨h.1.granted,h.1.sends,h.1.settles⟩,rfl⟩
  | answered =>
    by_cases hreturns : ok = true ∧ ¬ c.cancelled = true ∧ c.settles ≠ [none]
    · simp only [Call.resume,if_pos hreturns]
      obtain ⟨rfl,hcancelled,hsettles⟩ := hreturns
      refine ⟨⟨h.1.granted,h.1.sends,h.1.settles⟩,h.2,Bool.not_eq_true _ ▸ hcancelled,?_⟩
      intro hproof
      have hnone : c.proof = none := hproof
      rw [h.1.settles,hnone] at hsettles
      exact hsettles rfl
    · simp only [Call.resume,if_neg hreturns]
      refine .inr ⟨⟨h.1.granted,h.1.sends,h.1.settles⟩,?_⟩
      simp

theorem start_lawful {T : Type} [LinearOrder T] {owner : Owner} {scope : Scope T} {now : T}
    {failed : Bool} {kind : String} {client : Client} {payload : Payload} :
    ((Call.new kind client payload).start owner scope now).Lawful failed := by
  have hnew : (Call.new kind client payload).Unsent := ⟨rfl,rfl,rfl,rfl,rfl,rfl⟩
  cases owner with
  | absent => exact hnew.account
  | untrusted => exact .inl ⟨rfl,rfl,rfl,rfl,rfl,rfl⟩
  | transport =>
    unfold Call.start
    simp only
    split
    · exact ⟨rfl,rfl,rfl,rfl,rfl,rfl⟩
    · exact .inl ⟨rfl,rfl,rfl,rfl,rfl,rfl⟩

end Call

section

variable {T : Type} {w : World T} {i j : Nat} {c : Call} {b : Bool}

@[simp] theorem scope_setCall : (w.setCall i c).scope = w.scope := rfl

@[simp] theorem requested_setCall : (w.setCall i c).requested = w.requested := rfl

@[simp] theorem finishes_setCall : (w.setCall i c).finishes = w.finishes := rfl

theorem calls_setCall : (w.setCall i c).calls j = if j = i then some c else w.calls j :=
  update_apply _ _ _ _

theorem calls_setCall_self : (w.setCall i c).calls i = some c := update_self _ _ _

@[simp] theorem calls_failIf : (w.failIf b).calls = w.calls := by
  cases b <;> rfl

@[simp] theorem requested_failIf : (w.failIf b).requested = w.requested := by
  cases b <;> rfl

@[simp] theorem finishes_failIf : (w.failIf b).finishes = w.finishes := by
  cases b <;> rfl

theorem scope_failIf :
    (w.failIf b).scope = { w.scope with failed := w.scope.failed || b } := by
  cases b
  · simp [World.failIf]
  · simp [World.failIf,World.fail]

theorem Call.Lawful.unsent (h : c.Lawful w.scope.failed)
    (hphase : c.phase = .waitingSlot ∨ (∃ size output, c.phase = .waitingLock size output) ∨
      c.phase = .reserving) : c.Unsent := by
  obtain hphase | ⟨size,output,hphase⟩ | hphase := hphase
  all_goals
    unfold Call.Lawful at h
    rw [hphase] at h
    exact h

theorem Call.Unsent.raise {failed : Bool} (h : c.Unsent) :
    ({ c with phase := .raised } : Call).Lawful failed :=
  .inl ⟨h.granted,h.sends,h.response,h.settles,h.settled,h.cancelled⟩

end

section

variable {T : Type} [LinearOrder T] {w w' : World T} {i j : Nat} {c d : Call} {e : Event T}
  {es : List (Event T)} {quote : Quote T} {owner : Owner} {ending : Ending}

structure Changes (w : World T) (i : Nat) (c : Call) (w' : World T) (c' : Call) : Prop where
  calls : w'.calls = Function.update w.calls i (some c')
  quote : w'.scope.quote = w.scope.quote
  closed : w'.scope.closed = w.scope.closed
  failed : w.scope.failed = true → w'.scope.failed = true
  finishes : w'.finishes = w.finishes
  lawful : c.Lawful w.scope.failed → c'.Lawful w'.scope.failed
  named : (c.phase = .reserving ∨ c.granted = true → c.id ≠ none) →
    c'.phase = .reserving ∨ c'.granted = true → c'.id ≠ none
  reservation : w'.requested = w.requested ∧ w'.scope.count = w.scope.count ∧ c'.id = c.id ∨
    w'.requested = w.requested ++ [(w.scope.quote.queryId, w.scope.count + 1)] ∧
      w'.scope.count = w.scope.count + 1 ∧ ¬ w.scope.quote.maxCalls ≤ w.scope.count ∧
      c'.id = some (w.scope.quote.queryId, w.scope.count + 1)

variable {scope : Scope T} {now : T}

theorem phase_account : (c.account scope now).phase ≠ .reserving := by
  unfold Call.account
  split <;> simp

@[simp] theorem granted_account :
    (c.account scope now).granted = c.granted := by
  unfold Call.account
  split <;> rfl

@[simp] theorem id_account : (c.account scope now).id = c.id := by
  unfold Call.account
  split <;> rfl

theorem Moves.changes (h : Moves w i c e w') : ∃ c', Changes w i c w' c' := by
  cases h with
  | slot now hphase =>
    refine ⟨c.account w.scope now,rfl,rfl,rfl,id,rfl,fun h => ?_,fun hnamed h => ?_,
      .inl ⟨rfl,rfl,id_account⟩⟩
    · exact (h.unsent (.inl hphase)).account
    · have hgranted := h.resolve_left phase_account
      rw [granted_account] at hgranted
      rw [id_account]
      exact hnamed (.inr hgranted)
  | leaveSlot hphase =>
    exact ⟨_,rfl,rfl,rfl,id,rfl,fun h => (h.unsent (.inl hphase)).raise,
      fun hnamed h => hnamed (.inr (h.resolve_left (by simp))),.inl ⟨rfl,rfl,rfl⟩⟩
  | leaveLock hphase =>
    exact ⟨_,rfl,rfl,rfl,id,rfl,fun h => (h.unsent (.inr (.inl ⟨_,_,hphase⟩))).raise,
      fun hnamed h => hnamed (.inr (h.resolve_left (by simp))),.inl ⟨rfl,rfl,rfl⟩⟩
  | exhausted now hphase hlock hno =>
    exact ⟨_,rfl,rfl,rfl,id,rfl,fun h => (h.unsent (.inr (.inl ⟨_,_,hphase⟩))).raise,
      fun hnamed h => hnamed (.inr (h.resolve_left (by simp))),.inl ⟨rfl,rfl,rfl⟩⟩
  | reserve now hphase hlock hlimits hcount =>
    refine ⟨_,rfl,rfl,rfl,id,rfl,fun h => ?_,fun _ _ => by simp,.inr ⟨rfl,rfl,hcount,rfl⟩⟩
    have hun := h.unsent (.inr (.inl ⟨_,_,hphase⟩))
    exact ⟨hun.granted,hun.sends,hun.response,hun.settles,hun.settled,hun.cancelled⟩
  | reserved now hphase =>
    by_cases hrefused : w.scope.refuses now = true
    · rw [hrefused]
      refine ⟨_,rfl,rfl,rfl,fun _ => rfl,rfl,fun h => ?_,fun hnamed _ => hnamed (.inl hphase),
        .inl ⟨rfl,rfl,rfl⟩⟩
      have hun := h.unsent (.inr (.inr hphase))
      refine ⟨⟨rfl,?_,?_⟩,rfl⟩
      · simp [Call.proceed,Call.settle,hun.sends]
      · simp [Call.proceed,Call.settle,Call.proof,hun.settles,hun.response]
    · rw [Bool.not_eq_true] at hrefused
      rw [hrefused]
      refine ⟨_,rfl,rfl,rfl,id,rfl,fun h => ?_,fun hnamed _ => hnamed (.inl hphase),
        .inl ⟨rfl,rfl,rfl⟩⟩
      have hun := h.unsent (.inr (.inr hphase))
      exact ⟨rfl,congrArg (· + 1) hun.sends,hun.response,hun.settles,hun.settled,hun.cancelled⟩
  | unreserved hphase =>
    exact ⟨_,rfl,rfl,rfl,fun _ => rfl,rfl,fun h => (h.unsent (.inr (.inr hphase))).raise,
      fun hnamed _ => hnamed (.inl hphase),.inl ⟨rfl,rfl,rfl⟩⟩
  | answered response hphase =>
    refine ⟨_,rfl,rfl,rfl,id,rfl,fun h => ?_,
      fun hnamed h => hnamed (.inr (h.resolve_left (by simp [Call.settle]))),.inl ⟨rfl,rfl,rfl⟩⟩
    unfold Call.Lawful at h
    rw [hphase] at h
    obtain ⟨hgranted,hsends,-,hsettles,hsettled,-⟩ := h
    refine ⟨⟨hgranted,Nat.le_of_eq hsends,?_⟩,?_⟩
    · simp [Call.settle,Call.proof,hsettles]
    · simp [Call.settle,hsettled]
  | broke cancelled hphase =>
    refine ⟨_,rfl,rfl,rfl,fun _ => rfl,rfl,fun h => ?_,
      fun hnamed h => hnamed (.inr (h.resolve_left (by simp [Call.settle]))),.inl ⟨rfl,rfl,rfl⟩⟩
    unfold Call.Lawful at h
    rw [hphase] at h
    obtain ⟨hgranted,hsends,hresponse,hsettles,-,-⟩ := h
    refine ⟨⟨hgranted,Nat.le_of_eq hsends,?_⟩,rfl⟩
    simp [Call.settle,Call.proof,hsettles,hresponse]
  | cancel hphase =>
    refine ⟨_,rfl,rfl,rfl,id,rfl,fun h => ?_,fun hnamed h => hnamed h,.inl ⟨rfl,rfl,rfl⟩⟩
    unfold Call.Lawful at h ⊢
    obtain ⟨cause,answer,hphase⟩ | hphase := hphase
    · cases cause
      all_goals
        simp only [hphase] at h ⊢
        exact ⟨⟨h.1.granted,h.1.sends,h.1.settles⟩,h.2⟩
    · simp only [hphase] at h ⊢
      exact ⟨⟨h.1.granted,h.1.sends,h.1.settles⟩,h.2⟩
  | settled ok hphase =>
    refine ⟨_,rfl,rfl,rfl,id,rfl,fun h => ?_,
      fun hnamed h => hnamed (.inr (h.resolve_left (by simp))),.inl ⟨rfl,rfl,rfl⟩⟩
    unfold Call.Lawful at h
    rw [hphase] at h
    rename_i cause
    cases cause
    · exact ⟨⟨h.1.granted,h.1.sends,h.1.settles⟩,h.2⟩
    · exact ⟨⟨h.1.granted,h.1.sends,h.1.settles⟩,h.2⟩
    · refine ⟨⟨h.1.granted,h.1.sends,h.1.settles⟩,?_⟩
      cases ok <;> rfl
  | resume hphase =>
    rename_i cause ok
    refine ⟨c.resume cause ok,?_,?_,?_,fun h => ?_,?_,fun h => ?_,fun hnamed h => ?_,
      .inl ⟨?_,?_,Call.id_resume⟩⟩
    · simp only [World.setCall,calls_failIf]
    · rw [scope_setCall,scope_failIf]
    · rw [scope_setCall,scope_failIf]
    · rw [scope_setCall,scope_failIf]
      simp only [h,Bool.true_or]
    · rw [finishes_setCall,finishes_failIf]
    · rw [scope_setCall,scope_failIf]
      exact h.resume hphase
    · have hgranted := h.resolve_left Call.phase_resume
      rw [Call.granted_resume] at hgranted
      rw [Call.id_resume]
      exact hnamed (.inr hgranted)
    · rw [requested_setCall,requested_failIf]
    · rw [scope_setCall,scope_failIf]
  | closed hphase =>
    refine ⟨_,rfl,rfl,rfl,id,rfl,fun h => ?_,
      fun hnamed h => hnamed (.inr (h.resolve_left (by simp))),.inl ⟨rfl,rfl,rfl⟩⟩
    unfold Call.Lawful at h
    rw [hphase] at h
    exact .inr ⟨⟨h.1.granted,h.1.sends,h.1.settles⟩,h.2⟩

structure World.Sound (quote : Quote T) (w : World T) : Prop where
  sameQuote : w.scope.quote = quote
  requested : w.requested = (List.range w.scope.count).map fun k => (quote.queryId, k + 1)
  bounded : (w.scope.count : Int) ≤ max 0 quote.maxCalls
  lawful : ∀ i c, w.calls i = some c → c.Lawful w.scope.failed
  named : ∀ i c, w.calls i = some c → c.phase = .reserving ∨ c.granted = true → c.id ≠ none
  ids : ∀ i c id, w.calls i = some c → c.id = some id → id ∈ w.requested
  distinct : ∀ i j c d id, w.calls i = some c → w.calls j = some d → c.id = some id →
    d.id = some id → i = j
  finishes : w.finishes.length = if w.scope.closed then 1 else 0

omit [LinearOrder T] in
theorem World.Sound.opened : (World.opened owner quote).Sound quote where
  sameQuote := rfl
  requested := rfl
  bounded := Int.le_max_left _ _
  lawful i c h := by cases h
  named i c h := by cases h
  ids i c id h := by cases h
  distinct i j c d id h := by cases h
  finishes := rfl

omit [LinearOrder T] in
theorem World.Sound.fresh (h : w.Sound quote) : (quote.queryId, w.scope.count + 1) ∉ w.requested := by
  rw [h.requested,List.mem_map]
  rintro ⟨k,hk,heq⟩
  have hlt := mem_range.mp hk
  rw [Prod.mk.injEq] at heq
  omega

theorem World.Sound.moves (h : w.Sound quote) (hcall : w.calls i = some c)
    (hmoves : Moves w i c e w') : w'.Sound quote := by
  obtain ⟨c',hc⟩ := hmoves.changes
  have hcalls : ∀ j d, w'.calls j = some d → j = i ∧ d = c' ∨ j ≠ i ∧ w.calls j = some d := by
    intro j d hd
    rw [hc.calls,update_apply] at hd
    by_cases hj : j = i
    · rw [if_pos hj] at hd
      exact .inl ⟨hj,(some.inj hd).symm⟩
    · rw [if_neg hj] at hd
      exact .inr ⟨hj,hd⟩
  have hsub : ∀ id, id ∈ w.requested → id ∈ w'.requested := by
    intro id hid
    obtain ⟨hsame,-,-⟩ | ⟨hnew,-,-,-⟩ := hc.reservation
    · rwa [hsame]
    · rw [hnew]
      exact mem_append_left _ hid
  have hids : ∀ id, c'.id = some id → id ∈ w'.requested := by
    intro id hid
    obtain ⟨-,-,hsame⟩ | ⟨hnew,-,-,hid'⟩ := hc.reservation
    · exact hsub id (h.ids i c id hcall (hsame ▸ hid))
    · rw [hid'] at hid
      rw [hnew,← some.inj hid]
      exact mem_append_right _ (mem_singleton_self _)
  -- an id of another call is not the id that a segment gives its own call
  have hother : ∀ j d id, j ≠ i → w.calls j = some d → d.id = some id → c'.id ≠ some id := by
    intro j d id hj hd hid hid'
    obtain ⟨-,-,hsame⟩ | ⟨-,-,-,hnew⟩ := hc.reservation
    · exact hj (h.distinct j i d c id hd hcall hid (hsame ▸ hid'))
    · rw [hnew,h.sameQuote] at hid'
      apply h.fresh
      rw [some.inj hid']
      exact h.ids j d id hd hid
  constructor
  · rw [hc.quote,h.sameQuote]
  · obtain ⟨hreq,hcount,-⟩ | ⟨hreq,hcount,-,-⟩ := hc.reservation
    · rw [hreq,hcount,h.requested]
    · rw [hreq,hcount,h.requested,h.sameQuote,range_succ,map_append,map_singleton]
  · obtain ⟨-,hcount,-⟩ | ⟨-,hcount,hless,-⟩ := hc.reservation
    · rw [hcount]
      exact h.bounded
    · rw [h.sameQuote] at hless
      omega
  · intro j d hd
    obtain ⟨-,rfl⟩ | ⟨-,hd⟩ := hcalls j d hd
    · exact hc.lawful (h.lawful i c hcall)
    · exact (h.lawful j d hd).mono hc.failed
  · intro j d hd
    obtain ⟨-,rfl⟩ | ⟨-,hd⟩ := hcalls j d hd
    · exact hc.named (h.named i c hcall)
    · exact h.named j d hd
  · intro j d id hd hid
    obtain ⟨-,rfl⟩ | ⟨-,hd⟩ := hcalls j d hd
    · exact hids id hid
    · exact hsub id (h.ids j d id hd hid)
  · intro j k d d' id hd hd' hid hid'
    obtain ⟨hj,rfl⟩ | ⟨hj,hd⟩ := hcalls j d hd
    · obtain ⟨hk,rfl⟩ | ⟨hk,hd'⟩ := hcalls k d' hd'
      · rw [hj,hk]
      · exact absurd hid (hother k d' id hk hd' hid')
    · obtain ⟨hk,rfl⟩ | ⟨hk,hd'⟩ := hcalls k d' hd'
      · exact absurd hid' (hother j d id hj hd hid)
      · exact h.distinct j k d d' id hd hd' hid hid'
  · rw [hc.finishes,hc.closed,h.finishes]

variable {payload : Payload} {client : Client} {kind : String}

theorem Call.id_start : ((Call.new kind client payload).start owner scope now).id = none := by
  cases owner with
  | absent => exact id_account
  | untrusted => rfl
  | transport =>
    simp only [Call.start]
    split <;> rfl

theorem Call.granted_start
    : ((Call.new kind client payload).start owner scope now).granted = false := by
  cases owner with
  | absent => exact granted_account
  | untrusted => rfl
  | transport =>
    simp only [Call.start]
    split <;> rfl

theorem Call.phase_start
    :
    ((Call.new kind client payload).start owner scope now).phase ≠ .reserving := by
  cases owner with
  | absent => exact phase_account
  | untrusted => exact Phase.noConfusion
  | transport =>
    simp only [Call.start]
    split <;> exact Phase.noConfusion

theorem World.Sound.step (h : w.Sound quote) (hstep : Step w e w') : w'.Sound quote := by
  cases hstep with
  | moves hcall hmoves => exact h.moves hcall hmoves
  | finish ending hopen =>
    refine ⟨h.sameQuote,h.requested,h.bounded,h.lawful,h.named,h.ids,h.distinct,?_⟩
    have hnone := h.finishes
    rw [hopen] at hnone
    simp [hnone]
  | call kind client payload now hfresh =>
    rename_i i
    have hcalls : ∀ j d, (w.setCall i ((Call.new kind client payload).start w.owner w.scope
        now)).calls j = some d →
        d = (Call.new kind client payload).start w.owner w.scope now ∨ w.calls j = some d := by
      intro j d hd
      rw [calls_setCall] at hd
      split at hd
      · exact .inl (some.inj hd).symm
      · exact .inr hd
    refine ⟨h.sameQuote,h.requested,h.bounded,fun j d hd => ?_,fun j d hd hres => ?_,
      fun j d id hd hid => ?_,fun j k d d' id hd hd' hid hid' => ?_,h.finishes⟩
    · obtain rfl | hd := hcalls j d hd
      · exact Call.start_lawful
      · exact h.lawful j d hd
    · obtain rfl | hd := hcalls j d hd
      · rw [Call.granted_start] at hres
        exact absurd (hres.resolve_right Bool.false_ne_true) Call.phase_start
      · exact h.named j d hd hres
    · obtain rfl | hd := hcalls j d hd
      · rw [Call.id_start] at hid
        cases hid
      · exact h.ids j d id hd hid
    · obtain rfl | hd := hcalls j d hd
      · rw [Call.id_start] at hid
        cases hid
      · obtain rfl | hd' := hcalls k d' hd'
        · rw [Call.id_start] at hid'
          cases hid'
        · exact h.distinct j k d d' id hd hd' hid hid'

theorem run_sound (hrun : Run Step (World.opened owner quote) es w) : w.Sound quote :=
  hrun.preserves (I := World.Sound quote) (fun _ _ _ hstep h => h.step hstep) .opened

def Phase.ended : Phase → Bool
  | .returned | .raised => true
  | _ => false

structure Call.Accounted (c : Call) : Prop where
  reservedBeforeSend : 0 < c.sends → c.granted = true
  sentOnce : c.sends ≤ 1
  named : c.granted = true → c.id ≠ none
  unreserved : c.granted = false → c.settles = []
  settledOnce : c.granted = true → c.phase ≠ .sending → c.settles.length = 1
  unsettled : c.phase = .sending → c.settles = []
  proven : ∀ usage, some usage ∈ c.settles →
    ∃ r, c.response = some r ∧ Consistent r c.kind c.payload.model usage
  unproven : none ∈ c.settles →
    ∀ r usage, c.response = some r → ¬ Consistent r c.kind c.payload.model usage
  handedOver : c.phase = .returned → c.settled = true ∧ ∃ usage, c.settles = [some usage]

theorem Call.proof_eq_some {usage : Usage} : c.proof = some usage ↔
    ∃ r, c.response = some r ∧ Consistent r c.kind c.payload.model usage := by
  unfold Call.proof
  rw [bind_eq_some_iff]
  simp only [rawUsage_eq_some]

theorem Call.Lawful.cases {failed : Bool} (h : c.Lawful failed) :
    c.Unsent ∧ c.phase ≠ .sending ∧ c.phase ≠ .returned ∨
      c.phase = .sending ∧ c.granted = true ∧ c.sends = 1 ∧ c.settles = [] ∨
      c.Owing ∧ c.phase ≠ .sending ∧
        (c.phase = .returned → c.settled = true ∧ c.cancelled = false ∧ c.proof ≠ none) ∧
        (c.phase = .raised → failed = true) := by
  unfold Call.Lawful at h
  cases hphase : c.phase with
  | settling cause answer =>
    cases cause <;> simp only [hphase] at h
    all_goals exact .inr (.inr ⟨h.1,by simp,by simp,by simp⟩)
  | _ =>
    simp only [hphase] at h
    grind

theorem Call.Lawful.accounted {failed : Bool} (h : c.Lawful failed)
    (hnamed : c.granted = true → c.id ≠ none) : c.Accounted := by
  obtain ⟨hun,hsending,hreturned⟩ | ⟨hphase,hgranted,hsends,hsettles⟩ |
    ⟨howing,hsending,hreturned,-⟩ := h.cases
  · refine ⟨fun hs => ?_,?_,hnamed,fun _ => hun.settles,fun hg => ?_,fun hs => ?_,
      fun u hu => ?_,fun hu => ?_,fun hr => ?_⟩
    · rw [hun.sends] at hs
      cases hs
    · rw [hun.sends]
      exact Nat.zero_le 1
    · rw [hun.granted] at hg
      cases hg
    · exact absurd hs hsending
    · rw [hun.settles] at hu
      cases hu
    · rw [hun.settles] at hu
      cases hu
    · exact absurd hr hreturned
  · refine ⟨fun _ => hgranted,Nat.le_of_eq hsends,hnamed,fun _ => hsettles,fun _ hs => absurd hphase hs,
      fun _ => hsettles,fun u hu => ?_,fun hu => ?_,fun hr => ?_⟩
    · rw [hsettles] at hu
      cases hu
    · rw [hsettles] at hu
      cases hu
    · rw [hphase] at hr
      cases hr
  · refine ⟨fun _ => howing.granted,howing.sends,hnamed,fun hg => ?_,fun _ _ => ?_,
      fun hs => absurd hs hsending,fun u hu => ?_,fun hu r u hr hcons => ?_,fun hr => ?_⟩
    · rw [howing.granted] at hg
      cases hg
    · rw [howing.settles]
      rfl
    · rw [howing.settles,mem_singleton] at hu
      exact Call.proof_eq_some.mp hu.symm
    · rw [howing.settles,mem_singleton] at hu
      rw [Call.proof_eq_some.mpr ⟨r,hr,hcons⟩] at hu
      cases hu
    · obtain ⟨hsettled,-,hproof⟩ := hreturned hr
      obtain ⟨u,hu⟩ := ne_none_iff_exists'.mp hproof
      exact ⟨hsettled,u,hu ▸ howing.settles⟩

theorem sends_account : (c.account scope now).sends = c.sends := by
  unfold Call.account
  split <;> rfl

theorem sends_start : ((Call.new kind client payload).start owner scope now).sends = 0 := by
  cases owner with
  | absent => exact sends_account
  | untrusted => rfl
  | transport =>
    simp only [Call.start]
    split <;> rfl

def World.sends (w : World T) (i : Nat) : Nat := ((w.calls i).map Call.sends).getD 0

omit [LinearOrder T] in
theorem sends_setCall {w₀ : World T} (hsame : w₀.calls = w.calls) :
    (w₀.setCall i c).sends j = if j = i then c.sends else w.sends j := by
  unfold World.sends
  rw [calls_setCall,hsame]
  split <;> rfl

omit [LinearOrder T] in
theorem sends_unchanged {w₀ : World T} (hsame : w₀.calls = w.calls) (hcall : w.calls i = some c)
    (hsends : d.sends = c.sends) : ¬ w.sends j < (w₀.setCall i d).sends j := by
  rw [sends_setCall hsame,hsends]
  split
  · rename_i hj
    rw [hj,World.sends,hcall]
    exact Nat.lt_irrefl _
  · exact Nat.lt_irrefl _

theorem Moves.sends (h : Moves w i c e w') (hcall : w.calls i = some c)
    (hmore : w.sends j < w'.sends j) :
    j = i ∧ c.phase = .reserving ∧ ∃ now, e = .reserved i now ∧ w.scope.refuses now = false := by
  cases h with
  | reserved now hphase =>
    cases hrefused : w.scope.refuses now with
    | true =>
      rw [hrefused] at hmore
      exact absurd hmore (sends_unchanged rfl hcall rfl)
    | false =>
      have hsame : ({ w with lock := none }.failIf false).calls = w.calls := rfl
      rw [hrefused,sends_setCall hsame] at hmore
      split at hmore
      · rename_i hj
        exact ⟨hj,hphase,now,rfl,hrefused⟩
      · exact absurd hmore (Nat.lt_irrefl _)
  | slot now hphase => exact absurd hmore (sends_unchanged rfl hcall sends_account)
  | resume hphase =>
    rename_i cause ok
    have hsame : (c.resume cause ok).sends = c.sends := by cases cause <;> rfl
    exact absurd hmore (sends_unchanged calls_failIf hcall hsame)
  | _ => exact absurd hmore (sends_unchanged rfl hcall rfl)

theorem step_sends (h : Step w e w') (hmore : w.sends i < w'.sends i) :
    ∃ now c, e = .reserved i now ∧ w.calls i = some c ∧ c.phase = .reserving ∧
      w.scope.refuses now = false := by
  cases h with
  | call kind client payload now hfresh =>
    rw [sends_setCall (w := w) rfl,sends_start] at hmore
    split at hmore <;> omega
  | finish ending hopen => exact absurd hmore (Nat.lt_irrefl _)
  | moves hcall hmoves =>
    obtain ⟨rfl,hphase,now,he,hrefuses⟩ := hmoves.sends hcall hmore
    exact ⟨now,_,he,hcall,hphase,hrefuses⟩

theorem step_settles (h : Step w e w') (hcall : w.calls i = some c) (hcall' : w'.calls i = some d)
    (hsending : c.phase = .sending) (hlawful : c.Lawful w.scope.failed) :
    d = c ∨ ∃ usage, d.settles = [usage] := by
  have hnone : c.settles = [] := by
    unfold Call.Lawful at hlawful
    rw [hsending] at hlawful
    exact hlawful.2.2.2.1
  cases h with
  | call kind client payload now hfresh =>
    rename_i j
    rw [calls_setCall] at hcall'
    by_cases hij : i = j
    · rw [hij,hfresh] at hcall
      cases hcall
    · rw [if_neg hij,hcall] at hcall'
      exact .inl (some.inj hcall').symm
  | finish ending hopen =>
    have hsame : w.calls i = some d := hcall'
    rw [hcall] at hsame
    exact .inl (some.inj hsame).symm
  | moves hcall₂ hmoves =>
    rename_i j c₂
    by_cases hij : i = j
    · subst hij
      rw [hcall] at hcall₂
      obtain rfl := some.inj hcall₂
      cases hmoves with
      | answered response hphase =>
        rw [calls_setCall,if_pos rfl] at hcall'
        refine .inr ⟨rawUsage response c.kind c.payload.model,?_⟩
        rw [← some.inj hcall',hnone]
        rfl
      | broke cancelled hphase =>
        rw [calls_setCall,if_pos rfl] at hcall'
        refine .inr ⟨none,?_⟩
        rw [← some.inj hcall',hnone]
        rfl
      | exhausted now hphase hlock hno =>
        rw [hsending] at hphase
        cases hphase
      | reserve now hphase hlock hlimits hcount =>
        rw [hsending] at hphase
        cases hphase
      | cancel hphase =>
        rw [hsending] at hphase
        obtain ⟨cause,answer,hphase⟩ | hphase := hphase
        · cases hphase
        · cases hphase
      | _ =>
        rename_i hphase
        rw [hsending] at hphase
        cases hphase
    · obtain ⟨c',hc⟩ := hmoves.changes
      rw [hc.calls,update_of_ne hij,hcall] at hcall'
      exact .inl (some.inj hcall').symm

/-- The usage scope: each reservation is settled once, and the scope finishes once. A call that is
in flight when its body ends is not waited for. -/
theorem query_accounting {queryId : String} {opened : T}
    (hquote : validateQuote quote queryId opened = true)
    (hrun : Run Step (World.opened owner quote) es w) :
    (w.requested.Nodup ∧ (w.requested.length : Int) ≤ quote.maxCalls) ∧
      (∀ i c, w.calls i = some c → c.Accounted ∧
        ∀ id, c.id = some id → id ∈ w.requested ∧
          ∀ j d, w.calls j = some d → d.id = some id → i = j) ∧
      (∀ e w' i, Step w e w' → w.sends i < w'.sends i →
        ∃ now c', e = .reserved i now ∧ w'.calls i = some c' ∧ c'.granted = true ∧
          w.scope.closed = false ∧ w.scope.failed = false ∧ now < quote.deadline) ∧
      (∀ e w' i c c', Step w e w' → w.calls i = some c → c.phase = .sending →
        w'.calls i = some c' → c' = c ∨ ∃ usage, c'.settles = [usage]) ∧
      (w.finishes.length = if w.scope.closed then 1 else 0) ∧
      ∀ ending w', Step w (.finish ending) w' → w'.finishes = [.completed] →
        ending = .normally ∧ w.scope.failed = false ∧
          ∀ i c, w.calls i = some c → c.granted = true → c.phase.ended = true →
            c.phase = .returned ∧ c.settled = true ∧ c.cancelled = false ∧
              ∃ usage, c.settles = [some usage] := by
  have hsound := run_sound hrun
  have hmax : 0 ≤ quote.maxCalls := by
    simp only [validateQuote,Bool.and_eq_true,decide_eq_true_eq] at hquote
    omega
  refine ⟨⟨?_,?_⟩,fun i c hcall => ⟨?_,fun id hid => ⟨?_,fun j d hd hid' => ?_⟩⟩,
    fun e w' i hstep hmore => ?_,fun e w' i c c' hstep hcall hsending hcall' => ?_,
    hsound.finishes,fun ending w' hstep hcompleted => ?_⟩
  · rw [hsound.requested]
    apply List.Nodup.map _ nodup_range
    intro k l hkl
    simpa using hkl
  · have hbounded := hsound.bounded
    rw [hsound.requested,length_map,length_range]
    omega
  · exact (hsound.lawful i c hcall).accounted fun hgranted =>
      hsound.named i c hcall (.inr hgranted)
  · exact hsound.ids i c id hcall hid
  · exact hsound.distinct i j c d id hcall hd hid hid'
  · obtain ⟨now,c,he,hcall,hphase,hopen⟩ := step_sends hstep hmore
    simp only [Scope.refuses,Bool.or_eq_false_iff,decide_eq_false_iff_not,not_le,
      hsound.sameQuote] at hopen
    have hnext := hsound.step hstep
    cases hcall' : w'.calls i with
    | none =>
      rw [World.sends,World.sends,hcall'] at hmore
      cases hmore
    | some c' =>
      have hsends : 0 < c'.sends := by
        rw [World.sends,World.sends,hcall'] at hmore
        exact Nat.zero_lt_of_lt hmore
      have haccounted := (hnext.lawful i c' hcall').accounted fun hgranted =>
        hnext.named i c' hcall' (.inr hgranted)
      exact ⟨now,c',he,rfl,haccounted.reservedBeforeSend hsends,hopen.1.1,hopen.1.2,hopen.2⟩
  · exact step_settles hstep hcall hcall' hsending (hsound.lawful i c hcall)
  · cases hstep with
    | moves hcall hmoves => cases hmoves
    | finish ending hopen =>
      have hnone : w.finishes = [] := by
        rw [← length_eq_zero_iff,hsound.finishes,hopen]
        rfl
      simp only [hnone] at hcompleted
      have hends : ending = .normally ∧ w.scope.failed = false := by
        cases ending with
        | normally =>
          refine ⟨rfl,?_⟩
          by_contra hfailed
          rw [Bool.not_eq_false] at hfailed
          rw [hfailed] at hcompleted
          cases hcompleted
        | cancelled => cases hcompleted
        | raising => cases hcompleted
      refine ⟨hends.1,hends.2,fun i c hcall hgranted hended => ?_⟩
      obtain ⟨hun,-⟩ | ⟨hphase,-⟩ | ⟨howing,hsending,hreturned,hraised⟩ :=
        (hsound.lawful i c hcall).cases
      · rw [hun.granted] at hgranted
        cases hgranted
      · rw [hphase] at hended
        cases hended
      · cases hphase : c.phase with
        | returned =>
          obtain ⟨hsettled,hcancelled,hproof⟩ := hreturned hphase
          obtain ⟨usage,husage⟩ := ne_none_iff_exists'.mp hproof
          exact ⟨rfl,hsettled,hcancelled,usage,husage ▸ howing.settles⟩
        | raised =>
          rw [hends.2] at hraised
          exact absurd (hraised hphase) Bool.false_ne_true
        | _ =>
          rw [hphase] at hended
          cases hended

end

private def oneCallQuote : Quote Nat := ⟨"q", "l", 1, 10, [⟨"llm", "m", "o", 100, 5⟩]⟩

private theorem oneCallQuote_valid : validateQuote oneCallQuote "q" 0 = true := by decide

private def plainPayload : Payload := ⟨some "m", false, false, none, none, fun _ => some 1⟩

private def plainCall : Call := .new "llm" ⟨0, "o", true⟩ plainPayload

private theorem plainCall_start :
    plainCall.start .absent (World.opened .absent oneCallQuote).scope 0 =
      { plainCall with phase := .waitingLock 1 5 } := by rfl

private theorem oneCall_sending : ∃ es w c,
    Run Step (World.opened .absent oneCallQuote) es w ∧ w.calls 0 = some c ∧ c.granted = true ∧
      c.settles = [] ∧ w.scope.closed = false ∧ w.scope.failed = false ∧ w.finishes = [] :=
  ⟨_,_,_,.cons (.call (i := 0) "llm" ⟨0,"o",true⟩ plainPayload 0 rfl)
      (.cons (.moves calls_setCall_self
          (.reserve 0 (congrArg Call.phase plainCall_start) rfl (by decide) (by decide)))
        (.cons (.moves calls_setCall_self (.reserved 0 rfl)) (.nil _))),
    calls_setCall_self,rfl,rfl,rfl,rfl,rfl⟩

/-- The scope reports a completed query although the provider has not answered. -/
theorem completed_with_call_in_flight :
    validateQuote oneCallQuote "q" 0 = true ∧
      ∃ es w w', Run Step (World.opened .absent oneCallQuote) es w ∧
        Step w (.finish .normally) w' ∧ w'.finishes = [.completed] ∧
        ∃ c, w.calls 0 = some c ∧ c.granted = true ∧ c.settles = [] := by
  obtain ⟨es,w,c,hrun,hcall,hgranted,hsettles,hopen,hfailed,hfinishes⟩ := oneCall_sending
  refine ⟨oneCallQuote_valid,es,w,_,hrun,.finish .normally hopen,?_,c,hcall,hgranted,hsettles⟩
  simp only [hfinishes,hfailed]
  rfl

theorem query_accounting_sending : ∃ (w : World Nat) (c : Call),
    w.calls 0 = some c ∧ c.granted = true ∧ c.Accounted ∧
      (w.requested.length : Int) ≤ oneCallQuote.maxCalls := by
  obtain ⟨es,w,c,hrun,hcall,hgranted,-⟩ := oneCall_sending
  have h := query_accounting oneCallQuote_valid hrun
  exact ⟨w,c,hcall,hgranted,(h.2.1 0 c hcall).1,h.1.2⟩

end LightRAG.QueryAccounting
