import Mathlib.Data.Finset.Max
import Mathlib.Data.Prod.Lex
import Mathlib.Data.String.Basic
import LightRAG.Storage.KeyedContextRuns

/-!
# Progress of keyed locks

A context comes to its keys in their order, so where every key list is without repeats a context
that is blocked by another is blocked at a smaller key.
-/

namespace LightRAG.KeyedContexts
open List

theorem combinedKey_lt {nameSpace a b : String} (h : a < b) :
    combinedKey nameSpace a < combinedKey nameSpace b := by
  have happend : ∀ key : String, (nameSpace ++ ":" ++ key).toList =
      (nameSpace ++ ":").toList ++ key.toList := fun _ => String.toList_append
  unfold combinedKey
  rw [String.lt_iff_toList_lt] at h ⊢
  rw [happend,happend]
  generalize (nameSpace ++ ":").toList = shared
  induction shared with
  | nil => exact h
  | cons c shared ih =>
    exact cons_lt_cons_iff.mpr (.inr ⟨rfl,ih⟩)

theorem sortedKeys_perm (keys : List String) : (sortedKeys keys).Perm keys :=
  mergeSort_perm keys _

theorem sortedKeys_pairwise {keys : List String} (h : keys.Nodup) :
    (sortedKeys keys).Pairwise (· < ·) := by
  have hsorted : (sortedKeys keys).Pairwise (· ≤ ·) := by
    have hle := @pairwise_mergeSort String (fun a b => decide (a ≤ b))
      (by simpa using fun a b c => le_trans) (by simpa using le_total) keys
    simpa [sortedKeys] using hle
  have hnodup : (sortedKeys keys).Nodup := (sortedKeys_perm keys).nodup_iff.mpr h
  exact hsorted.imp₂ (fun _ _ hle hne => lt_of_le_of_ne hle hne) hnodup

/-- The events that enter a context with a key list without repeats. -/
def Event.Distinct : Event → Prop
  | .enter _ _ _ keys => keys.Nodup
  | _ => True

def Context.Entering (c : Context) : Prop :=
  c.stage = .acquiring ∨ c.stage = .waiting false ∨ c.stage = .polling

instance (c : Context) : Decidable c.Entering := by
  unfold Context.Entering
  infer_instance

structure Context.Listed (c : Context) : Prop where
  sorted : c.keys.Pairwise (· < ·)
  passed : ∃ rest, (c.entries.map Entry.key).reverse ++ rest = c.keys
  ahead : c.Entering ∨ c.stage = .inside → (c.entries.map Entry.key).reverse ++ c.todo = c.keys
  inside : c.stage = .inside → c.todo = []

section Listed

variable {multiprocess : Bool} {w w' : World} {before after : List Context} {c d : Context}
  {e f : Entry} {entries : List Entry}

theorem Context.Listed.lt_last (h : c.Listed) (hentries : c.entries = e :: entries)
    (hf : f ∈ entries) : f.key < e.key := by
  obtain ⟨rest,hrest⟩ := h.passed
  have hsorted := h.sorted
  rw [← hrest,hentries,map_cons,reverse_cons] at hsorted
  have hpair := (pairwise_append.mp hsorted).1
  have hlast := (pairwise_append.mp hpair).2.2
  exact hlast f.key (mem_reverse.mpr (mem_map_of_mem hf)) e.key (mem_singleton_self _)

theorem Context.Listed.nodup (h : c.Listed) : (c.entries.map Entry.key).Nodup := by
  obtain ⟨rest,hrest⟩ := h.passed
  have hkeys : c.keys.Nodup := h.sorted.imp fun hlt => ne_of_lt hlt
  rw [← hrest] at hkeys
  exact nodup_reverse.mp (nodup_append.mp hkeys).1

theorem Context.Listed.mem_keys (h : c.Listed) (he : e ∈ c.entries) : e.key ∈ c.keys := by
  obtain ⟨rest,hrest⟩ := h.passed
  rw [← hrest]
  exact mem_append_left _ (mem_reverse.mpr (mem_map_of_mem he))

theorem Context.Listed.gated (h : c.Listed) (hentries : c.entries = e :: entries)
    (hentering : c.Entering) : (c.gated multiprocess).Listed := by
  have hkeys : (c.gated multiprocess).entries.map Entry.key = c.entries.map Entry.key := by
    rw [(gated_entries _ hentries).1,hentries]
    rfl
  have hsame : (c.gated multiprocess).keys = c.keys ∧ (c.gated multiprocess).todo = c.todo := by
    unfold Context.gated
    rw [hentries]
    cases multiprocess <;> exact ⟨rfl,rfl⟩
  refine ⟨?_,?_,?_,?_⟩
  · rw [hsame.1]
    exact h.sorted
  · rw [hkeys,hsame.1]
    exact h.passed
  · intro _
    rw [hkeys,hsame.1,hsame.2]
    exact h.ahead (.inl hentering)
  · intro hinside
    rw [(gated_entries _ hentries).2.1] at hinside
    cases multiprocess <;> cases hinside

theorem take_cases (multiprocess : Bool) (w : World) (c : Context) (key : Key) (todo : List Key) :
    ∃ lock, ∃ queued : Context,
    queued = { c with todo := todo, entries := ⟨key, lock, false, false⟩ :: c.entries,
                      stage := .waiting false } ∧
      ((w.take multiprocess c key todo).1 = queued.gated multiprocess ∨
        (w.take multiprocess c key todo).1 = queued) := by
  unfold World.take
  generalize w.getOrCreate c.process key = r
  obtain ⟨lock,w₁⟩ := r
  refine ⟨lock,_,rfl,?_⟩
  dsimp only
  split
  · exact .inl rfl
  · exact .inr rfl

theorem Context.Listed.moves (h : c.Listed) {event : Event} {next : Option Context}
    (hmoves : Moves multiprocess w c event next w') : ∀ d ∈ next, d.Listed := by
  intro d hd
  cases hmoves with
  | @take key todo hstage htodo =>
    cases hd
    have hahead := h.ahead (.inl (.inl hstage))
    rw [htodo] at hahead
    obtain ⟨lock,queued,hqueued,htake⟩ := take_cases multiprocess w c key todo
    have hlisted : queued.Listed := by
      have hkeys : (queued.entries.map Entry.key).reverse ++ todo = c.keys := by
        rw [← hahead,hqueued]
        simp
      subst hqueued
      exact ⟨h.sorted,⟨todo,hkeys⟩,fun _ => hkeys,fun hs => by cases hs⟩
    obtain htake | htake := htake
    · rw [htake]
      subst hqueued
      exact hlisted.gated rfl (.inr (.inl rfl))
    · rw [htake]
      exact hlisted
  | inside hstage htodo =>
    cases hd
    exact ⟨h.sorted,h.passed,fun _ => h.ahead (.inl (.inl hstage)),fun _ => htodo⟩
  | resume hstage hentries hdone =>
    cases hd
    exact h.gated hentries (.inr (.inl hstage))
  | cancel hstage hentries =>
    cases hd
    exact ⟨h.sorted,h.passed,fun _ => h.ahead (.inl (.inr (.inl hstage))),fun hs => by cases hs⟩
  | abandon hstage hentries =>
    cases hd
    refine ⟨h.sorted,h.passed,?_,fun hs => by cases hs⟩
    rintro ((hs | hs | hs) | hs) <;> cases hs
  | poll hstage hentries hfree =>
    cases hd
    have hpassed := h.passed
    have hahead := h.ahead (.inl (.inr (.inr hstage)))
    rw [hentries] at hpassed hahead
    exact ⟨h.sorted,hpassed,fun _ => hahead,fun hs => by cases hs⟩
  | fail hstage hentries =>
    cases hd
    have hpassed := h.passed
    rw [hentries] at hpassed
    refine ⟨h.sorted,hpassed,?_,fun hs => by cases hs⟩
    rintro ((hs | hs | hs) | hs) <;> cases hs
  | exit hstage =>
    cases hd
    refine ⟨h.sorted,h.passed,?_,fun hs => by cases hs⟩
    rintro ((hs | hs | hs) | hs) <;> cases hs
  | @release e entries hstage hentries =>
    cases hd
    obtain ⟨rest,hrest⟩ := h.passed
    rw [hentries,map_cons,reverse_cons,append_assoc] at hrest
    have hnot : ¬(c.Entering ∨ c.stage = .inside) := by
      rintro ((hs | hs | hs) | hs) <;> obtain hst | hst := hstage <;> rw [hst] at hs <;> cases hs
    exact ⟨h.sorted,⟨_,hrest⟩,fun hs => absurd hs hnot,fun hs => absurd (.inr hs) hnot⟩
  | leave => cases hd

end Listed

theorem listed_step {multiprocess : Bool} {w w' : World} {event : Event}
    (h : ∀ c ∈ w.contexts, c.Listed) (hdistinct : event.Distinct)
    (hstep : Step multiprocess w event w') : ∀ c ∈ w'.contexts, c.Listed := by
  intro d hd
  cases hstep with
  | enter nameSpace keys hfresh hprocess =>
    obtain hd | rfl := mem_append.mp hd |>.imp_right mem_singleton.mp
    · exact h d hd
    · have hsorted : ((sortedKeys keys).map (combinedKey nameSpace)).Pairwise (· < ·) := by
        rw [pairwise_map]
        exact (sortedKeys_pairwise hdistinct).imp combinedKey_lt
      exact ⟨hsorted,⟨_,rfl⟩,fun _ => rfl,fun hs => by cases hs⟩
  | @moves before after c next _ _ hcontexts hmoves =>
    rw [hcontexts] at h
    simp only [mem_append,Option.mem_toList] at hd
    obtain (hd | hd) | hd := hd
    · exact h d (by simp [hd])
    · exact (h c (by simp)).moves hmoves d hd
    · exact h d (by simp [hd])

section Blocked

variable {multiprocess : Bool} {w w' : World} {c d : Context} {e f : Entry} {entries : List Entry}

/-- The context can go on without another failure or cancellation. -/
def Advances (multiprocess : Bool) (w : World) (id : ContextId) : Prop :=
  ∃ event w', event.advances = true ∧ event.context = id ∧ Step multiprocess w event w'

theorem advances_of_moves {event : Event} {next : Option Context} (hc : c ∈ w.contexts)
    (hmoves : Moves multiprocess w c event next w') (hadvances : event.advances = true)
    (hcontext : event.context = c.id) : Advances multiprocess w c.id := by
  obtain ⟨before,after,hcontexts⟩ := append_of_mem hc
  exact ⟨event,_,hadvances,hcontext,.moves hcontexts hmoves⟩

theorem Sound.advances_of_not_entering (h : Sound multiprocess w w.contexts)
    (hc : c ∈ w.contexts) (hnot : ¬c.Entering) : Advances multiprocess w c.id := by
  have hleaves : c.stage = .rollback ∨ c.stage = .exiting → Advances multiprocess w c.id := by
    intro hstage
    cases hentries : c.entries with
    | nil => exact advances_of_moves hc (.leave hstage hentries) rfl rfl
    | cons e entries => exact advances_of_moves hc (.release hstage hentries) rfl rfl
  have hshape := h.shaped c hc
  unfold Context.Shaped at hshape
  cases hstage : c.stage with
  | acquiring => exact absurd (.inl hstage) hnot
  | waiting cancelled =>
    cases cancelled with
    | false => exact absurd (.inr (.inl hstage)) hnot
    | true =>
      rw [hstage] at hshape
      obtain ⟨e,entries,hentries,-⟩ := hshape
      exact advances_of_moves hc (.abandon hstage hentries) rfl rfl
  | polling => exact absurd (.inr (.inr hstage)) hnot
  | inside => exact advances_of_moves hc (.exit hstage) rfl rfl
  | rollback => exact hleaves (.inl hstage)
  | exiting => exact hleaves (.inr hstage)

theorem Sound.gate_of_locked (h : Sound multiprocess w w.contexts) {lock : LockId}
    (hlt : lock < w.nextLock) (hlocked : (w.locks lock).locked = true) :
    ∃ d ∈ w.contexts, ∃ f ∈ d.entries, f.lock = lock ∧ f.gate = true := by
  by_contra hnone
  push Not at hnone
  have hzero : tally (gateCount lock) w.contexts = 0 := by
    apply tally_eq_zero
    intro d hd
    apply countP_eq_zero.mpr
    intro f hf hgate
    simp only [Bool.and_eq_true,decide_eq_true_eq] at hgate
    exact hnone d hd f hf hgate.1 hgate.2
  rw [h.gates lock hlt,hlocked] at hzero
  cases hzero

theorem Sound.lease_of_holder (h : Sound multiprocess w w.contexts) (hmode : multiprocess = true)
    {key : Key} (hheld : w.holders key ≠ none) :
    ∃ d ∈ w.contexts, ∃ f ∈ d.entries, f.key = key ∧ f.entered = true := by
  by_contra hnone
  push Not at hnone
  have hzero : tally (leaseCount key) w.contexts = 0 := by
    apply tally_eq_zero
    intro d hd
    apply countP_eq_zero.mpr
    intro f hf hin
    simp only [Bool.and_eq_true,decide_eq_true_eq] at hin
    exact hnone d hd f hf hin.1 hin.2
  rw [(h.leases hmode).counted key,if_pos (Option.isSome_iff_ne_none.mpr hheld)] at hzero
  cases hzero

theorem References.key_eq {contexts : List Context} (h : References w contexts)
    (hc : c ∈ contexts) (hd : d ∈ contexts) (he : e ∈ c.entries) (hf : f ∈ d.entries)
    (hlock : f.lock = e.lock) : d.process = c.process ∧ f.key = e.key := by
  obtain ⟨n,hn⟩ := h.shared c hc e he
  obtain ⟨m,hm⟩ := h.shared d hd f hf
  rw [hlock] at hm
  exact h.distinct _ _ _ _ _ _ _ hm hn

/-- What stands before a context that cannot go on: another one with an entry for the same key,
which can go on, has entered the key or is at the holder table for it. -/
theorem Sound.blocked (h : Sound multiprocess w w.contexts) (hlisted : c.Listed)
    (hc : c ∈ w.contexts) (hnot : ¬Advances multiprocess w c.id) :
    ∃ e entries, c.entries = e :: entries ∧ e.entered = false ∧
      ∃ d ∈ w.contexts, d ≠ c ∧ ∃ f ∈ d.entries, f.key = e.key ∧
        (Advances multiprocess w d.id ∨ f.entered = true ∨
          f.gate = true ∧ c.stage = .waiting false) := by
  have hentering : c.Entering := by
    by_contra hentering
    exact hnot (h.advances_of_not_entering hc hentering)
  have hshape := h.shaped c hc
  unfold Context.Shaped at hshape
  obtain hstage | hstage | hstage := hentering
  · cases htodo : c.todo with
    | nil => exact absurd (advances_of_moves hc (.inside hstage htodo) rfl rfl) hnot
    | cons key todo => exact absurd (advances_of_moves hc (.take hstage htodo) rfl rfl) hnot
  · rw [hstage] at hshape
    obtain ⟨e,entries,hentries,hgate,hentered,-⟩ := hshape
    have he : e ∈ c.entries := by simp [hentries]
    have hlt := h.references.lock_lt hc he
    refine ⟨e,entries,hentries,hentered,?_⟩
    cases hlocked : (w.locks e.lock).locked with
    | true =>
      obtain ⟨d,hd,f,hf,hlock,hgated⟩ := h.gate_of_locked hlt hlocked
      have hkey := (h.references.key_eq hc hd he hf hlock).2
      refine ⟨d,hd,?_,f,hf,hkey,.inr (.inr ⟨hgated,hstage⟩)⟩
      rintro rfl
      rw [hentries] at hf
      obtain rfl | hf := mem_cons.mp hf
      · rw [hgate] at hgated
        cases hgated
      · exact absurd hkey (ne_of_lt (hlisted.lt_last hentries hf))
    | false =>
      -- the lock is free, so it has woken a waiter or one of them was cancelled
      obtain ⟨f₀,hf₀⟩ := h.waits.queued c hc e.lock ⟨⟨false,hstage⟩,e,entries,hentries,rfl⟩
      obtain ⟨p,hp,hpending⟩ := (h.waits.fair e.lock hlt).woken hlocked (ne_nil_of_mem hf₀)
      obtain ⟨d,hd,hid,hawaits,hcancelled⟩ := h.waits.known e.lock hlt p hp
      obtain ⟨⟨cancelled,hdstage⟩,f,fs,hfentries,hlock⟩ := hawaits
      have hf : f ∈ d.entries := by simp [hfentries]
      have hadvances : Advances multiprocess w d.id := by
        cases cancelled with
        | true => exact advances_of_moves hd (.abandon hdstage hfentries) rfl rfl
        | false =>
          have hdone : (d.id, .done) ∈ (w.locks f.lock).waiters := by
            rw [hid,hlock]
            obtain ⟨id,future⟩ := p
            cases future with
            | pending => exact absurd rfl hpending
            | done => exact hp
            | cancelled =>
              have hst := hcancelled rfl
              rw [hdstage] at hst
              cases hst
          exact advances_of_moves hd (.resume hdstage hfentries hdone) rfl rfl
      refine ⟨d,hd,?_,f,hf,(h.references.key_eq hc hd he hf hlock).2,.inl hadvances⟩
      rintro rfl
      exact hnot hadvances
  · rw [hstage] at hshape
    obtain ⟨hmode,e,entries,hentries,-,hentered,-⟩ := hshape
    refine ⟨e,entries,hentries,hentered,?_⟩
    have hheld : w.holders e.key ≠ none := by
      intro hfree
      exact hnot (advances_of_moves hc (.poll hstage hentries hfree) rfl rfl)
    obtain ⟨d,hd,f,hf,hkey,hin⟩ := h.lease_of_holder hmode hheld
    refine ⟨d,hd,?_,f,hf,hkey,.inr (.inl hin)⟩
    rintro rfl
    rw [hentries] at hf
    obtain rfl | hf := mem_cons.mp hf
    · rw [hentered] at hin
      cases hin
    · exact absurd hkey (ne_of_lt (hlisted.lt_last hentries hf))

def Context.rank (c : Context) : Key ×ₗ Nat :=
  toLex ((c.entries.head?.map Entry.key).getD "", if c.stage = .polling then 1 else 0)

theorem Sound.rank_lt (h : Sound multiprocess w w.contexts) (hlisted : ∀ c ∈ w.contexts, c.Listed)
    (hc : c ∈ w.contexts) (hnot : ¬Advances multiprocess w c.id) :
    ∃ d ∈ w.contexts, Advances multiprocess w d.id ∨ c.rank < d.rank := by
  obtain ⟨e,entries,hentries,-,d,hd,-,f,hf,hkey,hcases⟩ :=
    h.blocked (hlisted c hc) hc hnot
  refine ⟨d,hd,?_⟩
  by_cases hadvances : Advances multiprocess w d.id
  · exact .inl hadvances
  right
  obtain ⟨e',entries',hentries',hentered',-⟩ := h.blocked (hlisted d hd) hd hadvances
  have hlast : f ∈ entries' → c.rank < d.rank := by
    intro hf'
    have hlt := (hlisted d hd).lt_last hentries' hf'
    rw [hkey] at hlt
    unfold Context.rank
    rw [hentries,hentries',Prod.Lex.toLex_lt_toLex]
    exact .inl hlt
  rw [hentries'] at hf
  obtain rfl | hf := mem_cons.mp hf
  · obtain hadv | hin | ⟨hgate,hstage⟩ := hcases
    · exact absurd hadv hadvances
    · rw [hentered'] at hin
      cases hin
    · have hentering : d.Entering := by
        by_contra hentering
        exact hadvances (h.advances_of_not_entering hd hentering)
      have hpolling : d.stage = .polling := by
        have hshape := h.shaped d hd
        unfold Context.Shaped at hshape
        obtain hst | hst | hst := hentering
        · rw [hst] at hshape
          have hin := (hshape f (by simp [hentries'])).2
          rw [hentered'] at hin
          cases hin
        · rw [hst] at hshape
          obtain ⟨e,es,heq,hfalse,-⟩ := hshape
          rw [hentries'] at heq
          cases heq
          rw [hgate] at hfalse
          cases hfalse
        · exact hst
      unfold Context.rank
      rw [hentries,hentries',Prod.Lex.toLex_lt_toLex,hstage,hpolling]
      exact .inr ⟨hkey.symm,by simp⟩
  · exact hlast hf

theorem Sound.advances (h : Sound multiprocess w w.contexts)
    (hlisted : ∀ c ∈ w.contexts, c.Listed) (hne : w.contexts ≠ []) :
    ∃ c ∈ w.contexts, Advances multiprocess w c.id := by
  by_contra hnone
  push Not at hnone
  have hnonempty : w.contexts.toFinset.Nonempty := by
    obtain ⟨c,hc⟩ := exists_mem_of_ne_nil _ hne
    exact ⟨c,mem_toFinset.mpr hc⟩
  obtain ⟨c,hc,hmax⟩ := Finset.exists_max_image _ Context.rank hnonempty
  have hc := mem_toFinset.mp hc
  obtain ⟨d,hd,hadvances | hlt⟩ := h.rank_lt hlisted hc (hnone c hc)
  · exact hnone d hd hadvances
  · exact absurd hlt (not_lt_of_ge (hmax d (mem_toFinset.mpr hd)))

end Blocked

end LightRAG.KeyedContexts
