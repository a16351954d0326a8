import LightRAG.Storage.KeyedContextProgress

/-!
# What keyed locks guarantee

Where no context is given a key twice, the contexts exclude each other, the table of a process
counts them, nothing is left of one that failed, and whenever those inside leave everyone gets
inside.
-/

namespace LightRAG.KeyedContexts
open List Option

def Context.work (c : Context) : Nat :=
  6 * c.todo.length + c.entries.length +
    match c.stage with
    | .acquiring => 3
    | .waiting false => 5
    | .polling => 4
    | .waiting true | .inside => 2
    | .rollback | .exiting => 1

section Work

variable {multiprocess : Bool} {w w' : World} {c d : Context} {event : Event}
  {next : Option Context}

theorem work_gated {e : Entry} {entries : List Entry} (hentries : c.entries = e :: entries)
    (hstage : c.stage = .waiting false) : (c.gated multiprocess).work < c.work := by
  have htodo : (c.gated multiprocess).todo = c.todo := by
    unfold Context.gated
    rw [hentries]
    cases multiprocess <;> rfl
  obtain ⟨hnew,hnext,-,-⟩ := gated_entries multiprocess hentries
  unfold Context.work
  rw [htodo,hnew,hnext,hentries,hstage]
  cases multiprocess <;> simp

theorem work_moves (hmoves : Moves multiprocess w c event next w')
    (hadvances : event.advances = true) : next.elim 0 Context.work < c.work := by
  cases hmoves with
  | @take key todo hstage htodo =>
    obtain ⟨lock,queued,hqueued,htake⟩ := take_cases multiprocess w c key todo
    have hwork : queued.work < c.work := by
      unfold Context.work
      rw [hqueued,hstage,htodo]
      simp only [length_cons]
      omega
    obtain htake | htake := htake
    · rw [htake]
      exact (work_gated (by rw [hqueued]) (by rw [hqueued])).trans hwork
    · rw [htake]
      exact hwork
  | inside hstage htodo =>
    simp [Context.work,hstage]
  | resume hstage hentries hdone => exact work_gated hentries hstage
  | cancel => cases hadvances
  | abandon hstage hentries =>
    simp [Context.work,hstage]
  | poll hstage hentries hfree =>
    simp [Context.work,hstage,hentries]
  | fail => cases hadvances
  | exit hstage =>
    simp [Context.work,hstage]
  | release hstage hentries =>
    obtain hstage | hstage := hstage <;> simp [Context.work,hentries]
  | leave hstage hentries =>
    obtain hstage | hstage := hstage <;> simp [Context.work,hstage]

theorem entering_moves (hmoves : Moves multiprocess w c event next w')
    (hadvances : event.advances = true) (hentering : c.Entering) :
    event = .inside c.id ∨ ∃ d, next = some d ∧ d.id = c.id ∧ d.keys = c.keys ∧ d.Entering := by
  have hgated : ∀ (c : Context) (e : Entry) (entries : List Entry), c.entries = e :: entries →
      (c.gated multiprocess).id = c.id ∧ (c.gated multiprocess).keys = c.keys ∧
        (c.gated multiprocess).Entering := by
    intro c e entries hentries
    unfold Context.gated Context.Entering
    rw [hentries]
    cases multiprocess <;> simp
  cases hmoves with
  | @take key todo hstage htodo =>
    right
    obtain ⟨lock,queued,hqueued,htake⟩ := take_cases multiprocess w c key todo
    obtain htake | htake := htake
    · obtain ⟨hid,hkeys,hnext⟩ := hgated queued _ _ (by rw [hqueued])
      rw [hqueued] at hid hkeys
      rw [hqueued] at htake hnext
      exact ⟨_,congrArg some htake,hid,hkeys,hnext⟩
    · exact ⟨_,congrArg some htake,by rw [hqueued],by rw [hqueued],.inr (.inl (by rw [hqueued]))⟩
  | inside hstage htodo => exact .inl rfl
  | resume hstage hentries hdone =>
    obtain ⟨hid,hkeys,hnext⟩ := hgated c _ _ hentries
    exact .inr ⟨_,rfl,hid,hkeys,hnext⟩
  | cancel => cases hadvances
  | abandon hstage =>
    obtain hst | hst | hst := hentering <;> rw [hst] at hstage <;> cases hstage
  | poll hstage hentries hfree => exact .inr ⟨_,rfl,rfl,rfl,.inl rfl⟩
  | fail => cases hadvances
  | exit hstage =>
    obtain hst | hst | hst := hentering <;> rw [hst] at hstage <;> cases hstage
  | release hstage hentries =>
    obtain hst | hst | hst := hentering <;> rw [hst] at hstage <;>
      obtain hstage | hstage := hstage <;> cases hstage
  | leave hstage hentries =>
    obtain hst | hst | hst := hentering <;> rw [hst] at hstage <;>
      obtain hstage | hstage := hstage <;> cases hstage

theorem context_moves (hmoves : Moves multiprocess w c event next w') : event.context = c.id := by
  cases hmoves <;> rfl

theorem work_step (hstep : Step multiprocess w event w') (hadvances : event.advances = true) :
    tally Context.work w'.contexts < tally Context.work w.contexts := by
  cases hstep with
  | enter => cases hadvances
  | @moves before after c next _ _ hcontexts hmoves =>
    have hlt := work_moves hmoves hadvances
    show tally Context.work (before ++ next.toList ++ after) < tally Context.work w.contexts
    rw [hcontexts,tally_append,tally_append,tally_append,tally_cons]
    cases next with
    | none =>
      rw [toList_none,tally_nil]
      omega
    | some d =>
      rw [toList_some,tally_cons,tally_nil]
      simp only [elim_some] at hlt
      omega

theorem entering_step (hc : c ∈ w.contexts) (hentering : c.Entering)
    (hstep : Step multiprocess w event w') (hadvances : event.advances = true) :
    event = .inside c.id ∨ ∃ d ∈ w'.contexts, d.id = c.id ∧ d.Entering := by
  cases hstep with
  | enter => cases hadvances
  | @moves before after c₀ next _ _ hcontexts hmoves =>
    rw [hcontexts] at hc
    obtain rfl | hc := mem_mid.mp hc
    · obtain hinside | ⟨d,rfl,hid,-,hnext⟩ := entering_moves hmoves hadvances hentering
      · exact .inl hinside
      · exact .inr ⟨d,by simp,hid,hnext⟩
    · refine .inr ⟨c,?_,rfl,hentering⟩
      simp only [mem_append] at hc ⊢
      tauto

theorem run_advances {events : List Event} (hrun : Run (Step multiprocess) w events w')
    (hadvances : ∀ event ∈ events, event.advances = true) :
    events.length + tally Context.work w'.contexts ≤ tally Context.work w.contexts ∧
      ∀ c ∈ w.contexts, c.Entering → .inside c.id ∈ events ∨
        ∃ d ∈ w'.contexts, d.id = c.id ∧ d.Entering := by
  induction hrun with
  | nil w =>
    refine ⟨by simp,?_⟩
    intro c hc hentering
    exact .inr ⟨c,hc,rfl,hentering⟩
  | @cons w w₁ w' event events hstep hrun ih =>
    have hadvance := hadvances event mem_cons_self
    obtain ⟨hlength,hinside⟩ := ih fun e he => hadvances e (mem_cons_of_mem _ he)
    refine ⟨?_,?_⟩
    · have hlt := work_step hstep hadvance
      rw [length_cons]
      omega
    · intro c hc hentering
      obtain rfl | ⟨d,hd,hid,hnext⟩ := entering_step hc hentering hstep hadvance
      · exact .inl mem_cons_self
      · obtain hmem | hlater := hinside d hd hnext
        · rw [hid] at hmem
          exact .inl (mem_cons_of_mem _ hmem)
        · rw [hid] at hlater
          exact .inr hlater

theorem Sound.alone (h : Sound multiprocess w w.contexts) (hlisted : ∀ c ∈ w.contexts, c.Listed)
    (hc : c ∈ w.contexts) (hentering : c.Entering)
    (hfree : ∀ d ∈ w.contexts, d ≠ c → ∀ e ∈ d.entries, e.key ∉ c.keys) :
    ∃ events w', Run (Step multiprocess) w events w' ∧
      (∀ event ∈ events, event.advances = true ∧ event.context = c.id) ∧ .inside c.id ∈ events := by
  induction hn : c.work using Nat.strongRecOn generalizing w c with
  | _ n ih =>
    have hadvances : Advances multiprocess w c.id := by
      by_contra hnot
      obtain ⟨e,entries,hentries,-,d,hd,hne,f,hf,hkey,-⟩ :=
        h.blocked (hlisted c hc) hc hnot
      apply hfree d hd hne f hf
      rw [hkey]
      exact (hlisted c hc).mem_keys (by simp [hentries])
    obtain ⟨event,w₁,hadvance,hcontext,hstep⟩ := hadvances
    have hsound := h.step hstep
    have hdistinct : event.Distinct := by
      cases event <;> trivial
    have hlisted₁ := listed_step hlisted hdistinct hstep
    cases hstep with
    | enter => cases hadvance
    | @moves before after c₀ next _ w₂ hcontexts hmoves =>
      have hsame : c₀ = c := by
        rw [hcontexts] at hc
        have hids := h.ids
        rw [hcontexts] at hids
        obtain rfl | hc := mem_mid.mp hc
        · rfl
        · exact absurd (hcontext.symm.trans (context_moves hmoves)) (id_ne hids hc)
      subst hsame
      have hrun : Run (Step multiprocess) w [event]
          { w₂ with contexts := before ++ next.toList ++ after } :=
        .cons (.moves hcontexts hmoves) (.nil _)
      have hlt := work_moves hmoves hadvance
      obtain rfl | ⟨d,rfl,hid,hkeys,hnext⟩ := entering_moves hmoves hadvance hentering
      · refine ⟨_,_,hrun,?_,mem_singleton_self _⟩
        intro e he
        rw [mem_singleton.mp he]
        exact ⟨hadvance,hcontext⟩
      · have hfree₁ : ∀ d' ∈ before ++ [d] ++ after, d' ≠ d → ∀ e ∈ d'.entries, e.key ∉ d.keys := by
          intro d' hd' hne e he
          rw [hkeys]
          have hold : d' ∈ before ++ after := by
            simp only [mem_append,mem_singleton] at hd' ⊢
            tauto
          have hmem : d' ∈ w.contexts := by
            rw [hcontexts]
            exact mem_mid.mpr (.inr hold)
          apply hfree d' hmem _ e he
          rintro rfl
          have hids := h.ids
          rw [hcontexts] at hids
          exact id_ne hids hold rfl
        obtain ⟨events,w',hrun',hevents,hinside⟩ :=
          ih d.work (hn ▸ hlt) hsound hlisted₁ (by simp) hnext hfree₁ rfl
        rw [hid] at hevents hinside
        refine ⟨_,w',hrun.append hrun',?_,mem_append_right _ hinside⟩
        intro e he
        obtain he | he := mem_append.mp he
        · rw [mem_singleton.mp he]
          exact ⟨hadvance,hcontext⟩
        · exact hevents e he

end Work

/-- The context holds or awaits the key, or has yet to give it back. -/
def Context.Uses (process : Process) (key : Key) (c : Context) : Prop :=
  c.process = process ∧ key ∈ c.entries.map Entry.key

instance (process : Process) (key : Key) (c : Context) : Decidable (c.Uses process key) := by
  unfold Context.Uses
  infer_instance

def users (process : Process) (key : Key) (contexts : List Context) : Nat :=
  contexts.countP fun c => c.Uses process key

structure Guarantee (multiprocess : Bool) (w : World) : Prop where
  exclusion : ∀ c ∈ w.contexts, ∀ d ∈ w.contexts, c.stage = .inside → d.stage = .inside →
    ∀ key ∈ c.keys, key ∈ d.keys → c = d
  counted : ∀ process key, (w.table process key).map Prod.snd =
    if users process key w.contexts = 0 then none else some (users process key w.contexts)
  locked : ∀ process key lock n, w.table process key = some (lock, n) →
    (w.locks lock).locked = true →
      ∃ c ∈ w.contexts, c.process = process ∧ ∃ e ∈ c.entries, e.key = key ∧ e.gate = true
  held : multiprocess = true → ∀ key id, w.holders key = some id →
    ∃ c ∈ w.contexts, c.id = id ∧ ∃ e ∈ c.entries, e.key = key ∧ e.entered = true
  progress : ∀ events w', Run (Step multiprocess) w events w' →
    (∀ event ∈ events, event.advances = true) →
      events.length ≤ tally Context.work w.contexts ∧
        ((∃ c ∈ w'.contexts, Advances multiprocess w' c.id) ∨
          w'.contexts = [] ∧ ∀ c ∈ w.contexts, c.Entering → .inside c.id ∈ events)
  alone : ∀ c ∈ w.contexts, c.Entering →
    (∀ d ∈ w.contexts, d ≠ c → ∀ e ∈ d.entries, e.key ∉ c.keys) →
      ∃ events w', Run (Step multiprocess) w events w' ∧
        (∀ event ∈ events, event.advances = true ∧ event.context = c.id) ∧
          .inside c.id ∈ events

/-- What is kept in every run, also of contexts that are given a key twice and wait for themselves:
each entry is counted, a key is entered at most once, and what is taken belongs to a context. -/
structure Accounted (multiprocess : Bool) (w : World) (process : Process) (key : Key) : Prop where
  counted : (w.table process key).map Prod.snd =
    if tally (refCount process key) w.contexts = 0 then none
    else some (tally (refCount process key) w.contexts)
  entered : multiprocess = true → tally (leaseCount key) w.contexts ≤ 1
  locked : ∀ lock n, w.table process key = some (lock, n) → (w.locks lock).locked = true →
    ∃ c ∈ w.contexts, c.process = process ∧ ∃ e ∈ c.entries, e.key = key ∧ e.gate = true
  held : multiprocess = true → ∀ id, w.holders key = some id →
    ∃ c ∈ w.contexts, c.id = id ∧ ∃ e ∈ c.entries, e.key = key ∧ e.entered = true

section Guarantee

variable {multiprocess : Bool} {w w₀ : World} {c d : Context} {contexts : List Context}
  {events : List Event} {process : Process} {key : Key}

theorem tally_eq_countP {f : Context → Nat} {p : Context → Prop} [DecidablePred p]
    (h : ∀ c ∈ contexts, f c = if p c then 1 else 0) :
    tally f contexts = contexts.countP fun c => p c := by
  induction contexts with
  | nil => rfl
  | cons c contexts ih =>
    rw [tally_cons,countP_cons,h c mem_cons_self,
      ih fun d hd => h d (mem_cons_of_mem _ hd),Nat.add_comm]
    simp

theorem refs_listed (h : c.Listed) (process : Process) (key : Key) :
    refCount process key c = if c.Uses process key then 1 else 0 := by
  unfold refCount
  by_cases hprocess : c.process = process
  · have hcount : c.entries.countP (fun e => e.key = key) =
        (c.entries.map Entry.key).count key := by
      rw [List.count,countP_map]
      rfl
    rw [if_pos hprocess,hcount]
    by_cases hmem : key ∈ c.entries.map Entry.key
    · have huses : c.Uses process key := ⟨hprocess,hmem⟩
      rw [if_pos huses]
      exact count_eq_one_of_mem h.nodup hmem
    · have hnot : ¬c.Uses process key := fun huses => hmem huses.2
      rw [if_neg hnot]
      exact count_eq_zero_of_not_mem hmem
  · have hnot : ¬c.Uses process key := fun huses => hprocess huses.1
    rw [if_neg hprocess,if_neg hnot]

section

variable (h : Sound multiprocess w w.contexts)

include h

theorem Sound.counted
    (hlisted : ∀ c ∈ w.contexts, c.Listed) (process : Process) (key : Key) :
    (w.table process key).map Prod.snd =
      if users process key w.contexts = 0 then none else some (users process key w.contexts) := by
  have hcounted := h.references.counted process key
  rw [tally_eq_countP fun c hc => refs_listed (hlisted c hc) process key] at hcounted
  change users process key w.contexts = _ at hcounted
  rw [hcounted]
  cases hfound : w.table process key with
  | none => simp
  | some entry =>
    obtain ⟨lock,n⟩ := entry
    have hpos := (h.references.positive process key lock n hfound).1
    simp [Nat.pos_iff_ne_zero.mp hpos]

theorem Sound.inside_entered (hlisted : c.Listed)
    (hc : c ∈ w.contexts) (hstage : c.stage = .inside) (hkey : key ∈ c.keys) :
    ∃ e ∈ c.entries, e.key = key ∧ e.gate = true ∧ e.entered = true := by
  have hahead := hlisted.ahead (.inr hstage)
  rw [hlisted.inside hstage,append_nil] at hahead
  rw [← hahead,mem_reverse] at hkey
  obtain ⟨e,he,rfl⟩ := mem_map.mp hkey
  have hshape := h.shaped c hc
  unfold Context.Shaped at hshape
  rw [hstage] at hshape
  exact ⟨e,he,rfl,hshape e he⟩

theorem Sound.exclusion
    (hlisted : ∀ c ∈ w.contexts, c.Listed) (hc : c ∈ w.contexts) (hd : d ∈ w.contexts)
    (hcstage : c.stage = .inside) (hdstage : d.stage = .inside) (hckey : key ∈ c.keys)
    (hdkey : key ∈ d.keys) : c = d := by
  obtain ⟨e,he,hekey,hegate,hein⟩ := h.inside_entered (hlisted c hc) hc hcstage hckey
  obtain ⟨f,hf,hfkey,hfgate,hfin⟩ := h.inside_entered (hlisted d hd) hd hdstage hdkey
  cases hmode : multiprocess with
  | true =>
    have hheld := (h.leases hmode).named c hc e he hein
    rw [hekey,← hfkey,(h.leases hmode).named d hd f hf hfin] at hheld
    exact inj_on_of_nodup_map h.ids hc hd (some_injective _ hheld).symm
  | false =>
    by_contra hne
    obtain ⟨n,hn⟩ := h.references.shared c hc e he
    obtain ⟨m,hm⟩ := h.references.shared d hd f hf
    rw [h.processes hmode d hd,hfkey,← hekey,← h.processes hmode c hc,hn] at hm
    have hlock : e.lock = f.lock := (Prod.ext_iff.mp (some_injective _ hm)).1
    have htwo := add_le_tally (f := gateCount e.lock) hc hd hne
    rw [h.gates e.lock (h.references.lock_lt hc he)] at htwo
    have hepos := gates_pos he hegate
    have hfpos := gates_pos hf hfgate
    rw [← hlock] at hfpos
    split at htwo <;> omega

theorem Sound.locked_user {lock : LockId} {n : Nat}
    (hfound : w.table process key = some (lock, n)) (hlocked : (w.locks lock).locked = true) :
    ∃ c ∈ w.contexts, c.process = process ∧ ∃ e ∈ c.entries, e.key = key ∧ e.gate = true := by
  have hlt := (h.references.positive process key lock n hfound).2
  obtain ⟨c,hc,e,he,hlock,hgate⟩ := h.gate_of_locked hlt hlocked
  obtain ⟨m,hm⟩ := h.references.shared c hc e he
  rw [hlock] at hm
  obtain ⟨hprocess,hkey⟩ := h.references.distinct _ _ _ _ _ _ _ hm hfound
  exact ⟨c,hc,hprocess,e,he,hkey,hgate⟩

theorem Sound.held_user (hmode : multiprocess = true)
    {id : ContextId} (hheld : w.holders key = some id) :
    ∃ c ∈ w.contexts, c.id = id ∧ ∃ e ∈ c.entries, e.key = key ∧ e.entered = true := by
  obtain ⟨c,hc,e,he,hkey,hin⟩ := h.lease_of_holder hmode (show w.holders key ≠ none by simp [hheld])
  have hnamed := (h.leases hmode).named c hc e he hin
  rw [hkey,hheld] at hnamed
  exact ⟨c,hc,(some_injective _ hnamed).symm,e,he,hkey,hin⟩

end

theorem listed_run {w' : World} (hrun : Run (Step multiprocess) w events w')
    (hdistinct : ∀ event ∈ events, event.Distinct) (h : Sound multiprocess w w.contexts)
    (hlisted : ∀ c ∈ w.contexts, c.Listed) :
    Sound multiprocess w' w'.contexts ∧ ∀ c ∈ w'.contexts, c.Listed := by
  induction hrun with
  | nil => exact ⟨h,hlisted⟩
  | cons hstep _ ih =>
    apply ih fun e he => hdistinct e (mem_cons_of_mem _ he)
    · exact h.step hstep
    · exact listed_step hlisted (hdistinct _ mem_cons_self) hstep

theorem distinct_of_advances {event : Event} (h : event.advances = true) : event.Distinct := by
  cases event <;> trivial

theorem Sound.guarantee (h : Sound multiprocess w w.contexts)
    (hlisted : ∀ c ∈ w.contexts, c.Listed) : Guarantee multiprocess w where
  exclusion c hc d hd hcstage hdstage key hckey hdkey :=
    h.exclusion hlisted hc hd hcstage hdstage hckey hdkey
  counted := h.counted hlisted
  locked process key lock n hfound hlocked := h.locked_user hfound hlocked
  held hmode key id hheld := h.held_user hmode hheld
  progress events w' hrun hadvances := by
    obtain ⟨hlength,hinside⟩ := run_advances hrun hadvances
    obtain ⟨h',hlisted'⟩ :=
      listed_run hrun (fun e he => distinct_of_advances (hadvances e he)) h hlisted
    refine ⟨by omega,?_⟩
    by_cases hempty : w'.contexts = []
    · refine .inr ⟨hempty,?_⟩
      intro c hc hentering
      obtain hmem | ⟨d,hd,-⟩ := hinside c hc hentering
      · exact hmem
      · rw [hempty] at hd
        cases hd
    · exact .inl (h'.advances hlisted' hempty)
  alone c hc hentering hfree := h.alone hlisted hc hentering hfree

/-- Keyed locks in every run whose contexts are not given a key twice. -/
theorem guarantee_of_distinct_keys (hinit : w₀.Initial) (hrun : Run (Step multiprocess) w₀ events w)
    (hdistinct : ∀ event ∈ events, event.Distinct) : Guarantee multiprocess w := by
  have hlisted : ∀ c ∈ w₀.contexts, c.Listed := by
    rw [hinit.contexts]
    simp
  obtain ⟨hsound,hlisted'⟩ := listed_run hrun hdistinct hinit.sound hlisted
  exact hsound.guarantee hlisted'

theorem accounted_of_run (hinit : w₀.Initial) (hrun : Run (Step multiprocess) w₀ events w)
    (process : Process) (key : Key) : Accounted multiprocess w process key := by
  have h : Sound multiprocess w w.contexts :=
    hrun.preserves (I := fun w => Sound multiprocess w w.contexts)
      (fun _ _ _ hstep hs => hs.step hstep) hinit.sound
  constructor
  case counted =>
    rw [h.references.counted process key]
    cases hfound : w.table process key with
    | none => simp
    | some entry =>
      have hpos := (h.references.positive process key entry.1 entry.2 hfound).1
      simp [Nat.pos_iff_ne_zero.mp hpos]
  case entered =>
    intro hmode
    rw [(h.leases hmode).counted key]
    split <;> decide
  case locked => exact fun lock n hfound hlocked => h.locked_user hfound hlocked
  case held => exact fun hmode id hheld => h.held_user hmode hheld

end Guarantee

def World.empty : World := ⟨fun _ => .new, 0, fun _ _ => none, fun _ => none, []⟩

theorem World.initial_empty : World.empty.Initial :=
  ⟨rfl,fun _ _ => rfl,fun _ => rfl,rfl⟩

def selfBlocked (key : Key) : Context :=
  ⟨0, 0, [key, key], [], [⟨key, 0, false, false⟩, ⟨key, 0, true, true⟩], .waiting false⟩

theorem take_new {w : World} {c : Context} {key : Key} (todo : List Key)
    (hnone : w.table c.process key = none) :
    (w.take false c key todo).1 = { c with
        todo := todo, entries := ⟨key, w.nextLock, true, true⟩ :: c.entries, stage := .acquiring } ∧
      (w.take false c key todo).2.table c.process key = some (w.nextLock, 1) ∧
        (w.take false c key todo).2.locks w.nextLock = ⟨true, []⟩ := by
  unfold World.take World.getOrCreate
  rw [hnone]
  simp [World.setLock,AsyncLock.acquire,AsyncLock.new,Context.gated]

theorem take_held {w : World} {c : Context} {key : Key} {lock : LockId} {n : Nat} (todo : List Key)
    (hfound : w.table c.process key = some (lock, n)) (hlocked : (w.locks lock).locked = true) :
    (w.take false c key todo).1 = { c with
        todo := todo, entries := ⟨key, lock, false, false⟩ :: c.entries, stage := .waiting false } ∧
      ((w.take false c key todo).2.locks lock).waiters =
        (w.locks lock).waiters ++ [(c.id, .pending)] := by
  unfold World.take World.getOrCreate
  rw [hfound]
  simp [World.setTable,AsyncLock.acquire,hlocked]

theorem run_selfBlocked : ∃ w, Run (Step false) World.empty
    [.enter 0 0 "GraphDB" ["A", "A"], .take 0, .take 0] w ∧
      w.contexts = [selfBlocked (combinedKey "GraphDB" "A")] ∧
        (w.locks 0).waiters = [(0, .pending)] := by
  have hkeys : sortedKeys ["A", "A"] = ["A", "A"] :=
    perm_replicate.mp (sortedKeys_perm (List.replicate 2 "A"))
  have henter : Step false .empty (.enter 0 0 "GraphDB" ["A", "A"]) _ :=
    .enter "GraphDB" ["A", "A"] (by simp [World.empty]) fun _ => rfl
  rw [hkeys] at henter
  simp only [map_cons] at henter
  generalize combinedKey "GraphDB" "A" = key at henter ⊢
  let c₁ : Context := ⟨0,0,[key, key],[key, key],[],.acquiring⟩
  let c₂ : Context := ⟨0,0,[key, key],[key],[⟨key,0,true,true⟩],.acquiring⟩
  let w₁ : World := { World.empty with contexts := [c₁] }
  obtain ⟨hcontext₁,htable,hlock⟩ :=
    take_new [key] (show w₁.table c₁.process key = none from rfl)
  have hfirst : Step false w₁ (.take 0) { (w₁.take false c₁ key [key]).2 with contexts := [c₂] } := by
    have hmoves : Moves false w₁ c₁ (.take 0) _ _ := .take rfl rfl
    have hstep := Step.moves (show w₁.contexts = [] ++ c₁ :: [] from rfl) hmoves
    exact hstep
  let w₂ : World := { (w₁.take false c₁ key [key]).2 with contexts := [c₂] }
  obtain ⟨hcontext₂,hwaiters⟩ :=
    take_held [] (show w₂.table c₂.process key = some (0, 1) from htable)
      (congrArg AsyncLock.locked hlock)
  have hsecond : Step false w₂ (.take 0)
      { (w₂.take false c₂ key []).2 with contexts := [selfBlocked key] } := by
    have hmoves : Moves false w₂ c₂ (.take 0) _ _ := .take rfl rfl
    have hstep := Step.moves (show w₂.contexts = [] ++ c₂ :: [] from rfl) hmoves
    rw [hcontext₂] at hstep
    exact hstep
  refine ⟨_,.cons henter (.cons hfirst (.cons hsecond (.nil _))),rfl,?_⟩
  exact hwaiters

theorem accounted_selfBlocked : ∃ w, w.contexts = [selfBlocked (combinedKey "GraphDB" "A")] ∧
    Accounted false w 0 (combinedKey "GraphDB" "A") := by
  obtain ⟨w,hrun,hcontexts,-⟩ := run_selfBlocked
  exact ⟨w,hcontexts,accounted_of_run World.initial_empty hrun 0 _⟩

/-- A context that is given a key twice, alone in its process, is stuck. -/
theorem not_guarantee_of_repeated_key : ¬∀ (multiprocess : Bool) (w₀ w : World)
    (events : List Event), w₀.Initial → Run (Step multiprocess) w₀ events w →
      Guarantee multiprocess w := by
  intro hall
  obtain ⟨w,hrun,hcontexts,hwaiters⟩ := run_selfBlocked
  have hguarantee := hall false .empty w _ World.initial_empty hrun
  obtain ⟨-,⟨c,hc,event,w',hadvances,-,hstep⟩ | ⟨hempty,-⟩⟩ :=
    hguarantee.progress [] w (.nil w) (by simp)
  · cases hstep with
    | enter => cases hadvances
    | @moves before after c₀ next _ _ hsplit hmoves =>
      have hc₀ : c₀ = selfBlocked (combinedKey "GraphDB" "A") := by
        have hmem : c₀ ∈ w.contexts := by simp [hsplit]
        rw [hcontexts] at hmem
        exact mem_singleton.mp hmem
      subst hc₀
      cases hmoves with
      | take hstage => cases hstage
      | inside hstage => cases hstage
      | resume hstage hentries hdone =>
        cases hentries
        rw [show (w.locks 0).waiters = _ from hwaiters] at hdone
        simp at hdone
      | cancel => cases hadvances
      | abandon hstage => cases hstage
      | poll hstage => cases hstage
      | fail => cases hadvances
      | exit hstage => cases hstage
      | release hstage => obtain hstage | hstage := hstage <;> cases hstage
      | leave hstage => obtain hstage | hstage := hstage <;> cases hstage
  · rw [hcontexts] at hempty
    cases hempty

theorem guarantee_of_distinct_keys_alone : ∃ w, Run (Step false) World.empty
    [.enter 0 0 "GraphDB" ["A"]] w ∧ w.contexts ≠ [] ∧ Guarantee false w := by
  have henter : Step false .empty (.enter 0 0 "GraphDB" ["A"]) _ :=
    .enter "GraphDB" ["A"] (by simp [World.empty]) fun _ => rfl
  have hrun := Run.cons henter (.nil _)
  refine ⟨_,hrun,by simp,guarantee_of_distinct_keys World.initial_empty hrun ?_⟩
  intro event hevent
  rw [mem_singleton.mp hevent]
  exact nodup_singleton "A"

end LightRAG.KeyedContexts
