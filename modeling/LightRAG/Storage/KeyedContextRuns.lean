import LightRAG.Storage.KeyedContextInvariant

/-!
# Runs of keyed locks

Every step of a context keeps the invariant, for any key lists and with a failure or a
cancellation wherever the context is suspended.
-/

namespace LightRAG.KeyedContexts
open List

section Steps

variable {multiprocess : Bool} {w w' : World} {before after contexts : List Context}
  {c c' d : Context} {key : Key} {todo : List Key} {e : Entry} {entries : List Entry}

theorem lock_getOrCreate (h : References w (before ++ c :: after)) (key : Key) :
    (w.getOrCreate c.process key).1 < (w.getOrCreate c.process key).2.nextLock ∧
      w.nextLock ≤ (w.getOrCreate c.process key).2.nextLock := by
  unfold World.getOrCreate
  cases hfound : w.table c.process key with
  | some entry =>
    exact ⟨(h.positive _ _ _ _ hfound).2,Nat.le_refl _⟩
  | none => exact ⟨Nat.lt_succ_self _,Nat.le_succ _⟩

theorem locks_getOrCreate (c : Context) (key : Key) (lock : LockId) :
    (w.getOrCreate c.process key).2.locks lock =
        (if lock = w.nextLock ∧ w.table c.process key = none then AsyncLock.new
          else w.locks lock) ∧
      ((w.getOrCreate c.process key).2.nextLock =
        if w.table c.process key = none then w.nextLock + 1 else w.nextLock) := by
  unfold World.getOrCreate
  cases hfound : w.table c.process key with
  | some entry => simp [World.setTable]
  | none =>
    simp only [World.setTable]
    by_cases hlock : lock = w.nextLock
    · simp
    · simp [hlock]

theorem References.lock_lt (h : References w contexts) (hc : c ∈ contexts) (he : e ∈ c.entries) :
    e.lock < w.nextLock := by
  obtain ⟨n,hn⟩ := h.shared c hc e he
  exact (h.positive _ _ _ _ hn).2

theorem References.gates_new (h : References w contexts) :
    tally (gateCount w.nextLock) contexts = 0 := by
  apply tally_eq_zero
  intro c hc
  apply countP_eq_zero.mpr
  intro e he hlock
  have hlt := h.lock_lt hc he
  simp only [decide_eq_true_eq] at hlock
  rw [hlock.1] at hlt
  exact absurd hlt (Nat.lt_irrefl _)

theorem References.awaits_lt (h : References w contexts) (hc : c ∈ contexts) {lock : LockId}
    (hawaits : c.Awaits lock) : lock < w.nextLock := by
  obtain ⟨-,e,entries,hentries,rfl⟩ := hawaits
  exact h.lock_lt hc (by simp [hentries])

theorem Gates.getOrCreate (h : Gates w contexts) (hrefs : References w contexts) (c : Context)
    (key : Key) :
    Gates (w.getOrCreate c.process key).2 contexts := by
  intro lock hlt
  obtain ⟨hlocks,hnext⟩ := locks_getOrCreate (w := w) c key lock
  rw [hlocks]
  rw [hnext] at hlt
  split
  · rename_i hnew
    rw [hnew.1,hrefs.gates_new]
    rfl
  · rename_i hold
    apply h lock
    split at hlt
    · rename_i hnone
      have hne : lock ≠ w.nextLock := fun heq => hold ⟨heq,hnone⟩
      exact lt_of_le_of_ne (Nat.le_of_lt_succ hlt) hne
    · exact hlt

theorem Waits.getOrCreate (h : Waits w contexts) (hrefs : References w contexts) (c : Context)
    (key : Key) :
    Waits (w.getOrCreate c.process key).2 contexts := by
  have hcases : ∀ lock, lock < (w.getOrCreate c.process key).2.nextLock →
      (w.getOrCreate c.process key).2.locks lock = AsyncLock.new ∨
        lock < w.nextLock ∧ (w.getOrCreate c.process key).2.locks lock = w.locks lock := by
    intro lock hlt
    obtain ⟨hlocks,hnext⟩ := locks_getOrCreate (w := w) c key lock
    rw [hlocks]
    rw [hnext] at hlt
    split
    · exact .inl rfl
    · rename_i hold
      refine .inr ⟨?_,rfl⟩
      split at hlt
      · rename_i hnone
        have hne : lock ≠ w.nextLock := fun heq => hold ⟨heq,hnone⟩
        exact lt_of_le_of_ne (Nat.le_of_lt_succ hlt) hne
      · exact hlt
  refine ⟨?_,?_,?_⟩
  · intro lock hlt
    obtain hnew | ⟨hlt',hold⟩ := hcases lock hlt
    · rw [hnew]
      exact AsyncLock.fair_new
    · rw [hold]
      exact h.fair lock hlt'
  · intro lock hlt p hp
    obtain hnew | ⟨hlt',hold⟩ := hcases lock hlt
    · rw [hnew] at hp
      cases hp
    · rw [hold] at hp
      exact h.known lock hlt' p hp
  · intro d hd lock hawaits
    have hlt := hrefs.awaits_lt hd hawaits
    obtain ⟨hlocks,-⟩ := locks_getOrCreate (w := w) c key lock
    rw [hlocks,if_neg (fun hnew => absurd (hnew.1 ▸ hlt) (Nat.lt_irrefl _))]
    exact h.queued d hd lock hawaits

theorem gated_entries (multiprocess : Bool) (hentries : c.entries = e :: entries) :
    (c.gated multiprocess).entries =
        ⟨e.key, e.lock, true, if multiprocess then e.entered else true⟩ :: entries ∧
      (c.gated multiprocess).stage = (if multiprocess then .polling else .acquiring) ∧
      (c.gated multiprocess).id = c.id ∧ (c.gated multiprocess).process = c.process := by
  unfold Context.gated
  rw [hentries]
  cases multiprocess <;> exact ⟨rfl,rfl,rfl,rfl⟩

section

variable (hentries : c.entries = e :: entries)

include hentries

theorem gates_gated (hgate : e.gate = false)
    (lock : LockId) : gateCount lock (c.gated multiprocess) =
      gateCount lock c + if lock = e.lock then 1 else 0 := by
  unfold gateCount
  rw [(gated_entries _ hentries).1,hentries]
  by_cases hlock : lock = e.lock
  · simp [hlock,hgate]
  · simp [hlock,Ne.symm hlock]

theorem shaped_gated (hentered : e.entered = false)
    (hrest : ∀ f ∈ entries, f.gate = true ∧ f.entered = true) :
    (c.gated multiprocess).Shaped multiprocess := by
  obtain ⟨hnew,hstage,-,-⟩ := gated_entries multiprocess hentries
  unfold Context.Shaped
  rw [hstage]
  cases multiprocess with
  | true => exact ⟨rfl,_,entries,hnew,rfl,hentered,hrest⟩
  | false =>
    intro f hf
    rw [hnew] at hf
    obtain rfl | hf := mem_cons.mp hf
    · exact ⟨rfl,rfl⟩
    · exact hrest f hf

theorem not_awaits_gated (lock : LockId) :
    ¬(c.gated multiprocess).Awaits lock := by
  apply not_awaits
  rw [(gated_entries _ hentries).2.1]
  cases multiprocess <;> simp

theorem leases_gated (key : Key) :
    leaseCount key (c.gated true) = leaseCount key c := by
  unfold leaseCount
  rw [(gated_entries _ hentries).1,hentries,countP_cons,countP_cons]
  rfl

end

theorem processes_mid (h : multiprocess = false → ∀ d ∈ before ++ c :: after, d.process = 0)
    (hprocess : c'.process = c.process) (hmode : multiprocess = false) :
    ∀ d ∈ before ++ c' :: after, d.process = 0 := by
  intro d hd
  obtain rfl | hd := mem_mid.mp hd
  · rw [hprocess]
    exact h hmode c (by simp)
  · exact h hmode d (mem_mid.mpr (.inr hd))

theorem shaped_mid (h : ∀ d ∈ before ++ c :: after, d.Shaped multiprocess)
    (hshaped : c'.Shaped multiprocess) : ∀ d ∈ before ++ c' :: after, d.Shaped multiprocess := by
  intro d hd
  obtain rfl | hd := mem_mid.mp hd
  · exact hshaped
  · exact h d (mem_mid.mpr (.inr hd))

theorem Leases.congr (h : Leases w contexts) (hholders : w'.holders = w.holders) :
    Leases w' contexts := by
  refine ⟨?_,?_⟩
  · rw [hholders]
    exact h.counted
  · rw [hholders]
    exact h.named

theorem holders_getOrCreate (process : Process) (key : Key) :
    (w.getOrCreate process key).2.holders = w.holders := by
  unfold World.getOrCreate
  split <;> rfl

section

variable (h : Sound multiprocess w (before ++ c :: after))

include h

theorem Sound.take (hstage : c.stage = .acquiring)
    (htodo : c.todo = key :: todo) :
    Sound multiprocess (w.take multiprocess c key todo).2
      (before ++ (w.take multiprocess c key todo).1 :: after) := by
  have hshaped : ∀ f ∈ c.entries, f.gate = true ∧ f.entered = true := by
    have hc := h.shaped c (by simp)
    unfold Context.Shaped at hc
    rw [hstage] at hc
    exact hc
  have hlt := lock_getOrCreate h.references key
  have hgates := h.gates.getOrCreate h.references c key
  have hwaits := h.waits.getOrCreate h.references c key
  have hholders := holders_getOrCreate (w := w) c.process key
  have hrefs : ∀ (next : Context) (gate entered : Bool), next.process = c.process →
      next.entries = ⟨key,(w.getOrCreate c.process key).1,gate,entered⟩ :: c.entries →
        References (w.getOrCreate c.process key).2 (before ++ next :: after) :=
    fun _ _ _ => h.references.getOrCreate
  unfold World.take
  generalize hr : w.getOrCreate c.process key = r at *
  obtain ⟨lock,w₁⟩ := r
  dsimp only at hlt hgates hwaits hholders hrefs ⊢
  have hnot : ∀ lock', ¬c.Awaits lock' := not_awaits fun _ hs => by rw [hstage] at hs; cases hs
  have hfresh : ∀ f, (c.id, f) ∉ (w₁.locks lock).waiters := by
    intro f hf
    obtain ⟨d,hd,hid,hawaits,-⟩ := hwaits.known lock hlt.1 _ hf
    obtain rfl | hd := mem_mid.mp hd
    · exact hnot lock hawaits
    · exact id_ne h.ids hd hid
  have hpasses := AsyncLock.passes_acquire hfresh
  let queued : Context := { c with todo := todo, entries := ⟨key,lock,false,false⟩ :: c.entries,
                                   stage := .waiting false }
  have hqueued : queued.entries = ⟨key,lock,false,false⟩ :: c.entries := rfl
  obtain ⟨hfree,hacquire⟩ | hacquire := AsyncLock.acquire_cases c.id (w₁.locks lock)
  · rw [hacquire] at hpasses ⊢
    obtain ⟨hentries,hstage',hid,hprocess⟩ :=
      gated_entries multiprocess hqueued
    show Sound multiprocess (w₁.setLock lock { w₁.locks lock with locked := true })
      (before ++ queued.gated multiprocess :: after)
    refine ⟨ids_mid h.ids hid,processes_mid h.processes hprocess,
      shaped_mid h.shaped (shaped_gated hqueued rfl hshaped),?_,?_,?_,?_⟩
    · exact (hrefs (queued.gated multiprocess) true _ hprocess hentries).congr rfl rfl
    · apply hgates.update (queued.gated multiprocess)
      · intro lock' hne
        rw [gates_gated hqueued rfl,if_neg hne]
        unfold gateCount
        rw [hqueued]
        simp
      · rw [gates_gated hqueued rfl,hfree]
        unfold gateCount
        rw [hqueued]
        simp
    · apply hwaits.update (queued.gated multiprocess) h.ids hpasses hid
      · intro lock' hawaits
        exact absurd hawaits (hnot lock')
      · intro f hf
        exact absurd hf (hfresh f)
      · intro lock' hawaits
        exact absurd hawaits (not_awaits_gated hqueued lock')
    · rintro rfl
      have hleases : Leases w₁ (before ++ c :: after) := (h.leases rfl).congr hholders
      have hnext : Leases w₁ (before ++ queued.gated true :: after) := by
        apply hleases.same (queued.gated true) hid
        · intro key'
          rw [leases_gated hqueued]
          unfold leaseCount
          rw [hqueued]
          simp
        · intro f hf hin
          obtain rfl | hf := mem_cons.mp hf
          · cases hin
          · exact hf
      exact hnext.congr rfl
  · rw [hacquire] at hpasses ⊢
    show Sound multiprocess
      (w₁.setLock lock { w₁.locks lock with waiters := (w₁.locks lock).waiters ++ [(c.id,
        .pending)] })
      (before ++ queued :: after)
    have hid : queued.id = c.id := rfl
    refine ⟨ids_mid h.ids hid,processes_mid h.processes rfl,?_,?_,?_,?_,?_⟩
    · exact shaped_mid h.shaped ⟨_,_,hqueued,rfl,rfl,hshaped⟩
    · exact (hrefs queued false false rfl hqueued).congr rfl rfl
    · have hsame : ∀ lock', gateCount lock' queued = gateCount lock' c := by
        unfold gateCount
        rw [hqueued]
        simp
      apply hgates.update queued
      · intro lock' _
        exact hsame lock'
      · rw [hsame]
    · apply hwaits.update queued h.ids hpasses hid
      · intro lock' hawaits
        exact absurd hawaits (hnot lock')
      · intro f hf
        refine ⟨⟨⟨false,rfl⟩,_,_,hqueued,rfl⟩,?_⟩
        rintro rfl
        obtain hf | hf := mem_append.mp hf
        · exact absurd hf (hfresh _)
        · simp at hf
      · rintro lock' ⟨-,e',entries',heq,rfl⟩
        cases heq
        exact ⟨rfl,.pending,by simp⟩
    · rintro rfl
      have hleases : Leases w₁ (before ++ c :: after) := (h.leases rfl).congr hholders
      have hnext : Leases w₁ (before ++ queued :: after) := by
        apply hleases.same queued hid
        · unfold leaseCount
          rw [hqueued]
          simp
        · intro f hf hin
          obtain rfl | hf := mem_cons.mp hf
          · cases hin
          · exact hf
      exact hnext.congr rfl

theorem Sound.stage {stage : Stage}
    (hbefore : ∀ cancelled, c.stage ≠ .waiting cancelled)
    (hafter : ∀ cancelled, stage ≠ .waiting cancelled)
    (hshaped : ({ c with stage := stage } : Context).Shaped multiprocess) :
    Sound multiprocess w (before ++ { c with stage := stage } :: after) where
  ids := ids_mid h.ids rfl
  processes := processes_mid h.processes rfl
  shaped := shaped_mid h.shaped hshaped
  references := h.references.same { c with stage := stage } rfl rfl
  gates := h.gates.same { c with stage := stage } fun _ => rfl
  waits := h.waits.same { c with stage := stage } (not_awaits hbefore) (not_awaits hafter)
  leases hmode :=
    (h.leases hmode).same { c with stage := stage } rfl (fun _ => rfl) fun _ he _ => he

theorem Sound.shape : c.Shaped multiprocess :=
  h.shaped c (by simp)

theorem Sound.waiting {cancelled : Bool}
    (hstage : c.stage = .waiting cancelled) (hentries : c.entries = e :: entries) :
    e.gate = false ∧ e.entered = false ∧ (∀ f ∈ entries, f.gate = true ∧ f.entered = true) ∧
      e.lock < w.nextLock ∧ ∀ lock, c.Awaits lock → lock = e.lock := by
  have hshape := h.shape
  unfold Context.Shaped at hshape
  rw [hstage] at hshape
  obtain ⟨e',entries',heq,hgate,hentered,hrest⟩ := hshape
  rw [hentries] at heq
  cases heq
  refine ⟨hgate,hentered,hrest,h.references.lock_lt (c := c) (by simp) (by simp [hentries]),?_⟩
  rintro lock ⟨-,e',entries',heq,rfl⟩
  rw [hentries] at heq
  cases heq
  rfl

theorem Sound.resume
    (hstage : c.stage = .waiting false) (hentries : c.entries = e :: entries)
    (hdone : (c.id, .done) ∈ (w.locks e.lock).waiters) :
    Sound multiprocess (w.setLock e.lock ((w.locks e.lock).resume c.id))
      (before ++ c.gated multiprocess :: after) := by
  obtain ⟨hgate,hentered,hrest,hlt,honly⟩ := h.waiting hstage hentries
  obtain ⟨hnew,-,hid,hprocess⟩ := gated_entries multiprocess hentries
  have hfree := (h.waits.fair e.lock hlt).free _ hdone rfl
  refine ⟨ids_mid h.ids hid,processes_mid h.processes hprocess,
    shaped_mid h.shaped (shaped_gated hentries hentered hrest),?_,?_,?_,?_⟩
  · have hrefs : References w (before ++ c.gated multiprocess :: after) := by
      apply h.references.same _ hprocess
      rw [hnew,hentries]
      rfl
    exact hrefs.congr rfl rfl
  · apply h.gates.update (c.gated multiprocess)
    · intro lock hne
      rw [gates_gated hentries hgate,if_neg hne]
      rfl
    · rw [gates_gated hentries hgate,hfree]
      simp [AsyncLock.resume]
  · apply h.waits.update _ h.ids (AsyncLock.passes_resume hdone) hid honly
    · intro f hf
      exact absurd rfl (AsyncLock.mem_remove.mp hf).2
    · intro lock hawaits
      exact absurd hawaits (not_awaits_gated hentries lock)
  · rintro rfl
    have hleases : Leases w (before ++ c.gated true :: after) := by
      apply (h.leases rfl).same _ hid (leases_gated hentries)
      intro f hf hin
      rw [hnew] at hf
      obtain rfl | hf := mem_cons.mp hf
      · rw [hentered] at hin
        cases hin
      · rw [hentries]
        exact mem_cons_of_mem _ hf
    exact hleases.congr rfl

theorem Sound.cancel
    (hstage : c.stage = .waiting false) (hentries : c.entries = e :: entries) :
    Sound multiprocess (w.setLock e.lock ((w.locks e.lock).cancel c.id))
      (before ++ { c with stage := .waiting true } :: after) := by
  obtain ⟨hgate,hentered,hrest,hlt,honly⟩ := h.waiting hstage hentries
  have hawaits : ({ c with stage := .waiting true } : Context).Awaits e.lock :=
    ⟨⟨true,rfl⟩,e,entries,hentries,rfl⟩
  refine ⟨ids_mid h.ids rfl,processes_mid h.processes rfl,
    shaped_mid h.shaped ⟨e,entries,hentries,hgate,hentered,hrest⟩,?_,?_,?_,?_⟩
  · exact (h.references.same { c with stage := .waiting true } rfl rfl).congr rfl rfl
  · exact h.gates.update { c with stage := .waiting true } (fun _ _ => rfl) rfl
  · apply h.waits.update { c with stage := .waiting true } h.ids AsyncLock.passes_cancel rfl honly
    · intro f _
      exact ⟨hawaits,fun _ => rfl⟩
    · rintro lock ⟨-,e',entries',heq,rfl⟩
      have hsame : c.entries = e' :: entries' := heq
      rw [hentries] at hsame
      cases hsame
      obtain ⟨f,hf⟩ := h.waits.queued c (by simp) e.lock ⟨⟨false,hstage⟩,e,entries,hentries,rfl⟩
      have hname : c.id ∈ ((w.locks e.lock).cancel c.id).waiters.map Prod.fst := by
        rw [AsyncLock.names_cancel]
        exact mem_map_of_mem hf
      exact ⟨rfl,AsyncLock.mem_names.mp hname⟩
  · intro hmode
    have hleases : Leases w (before ++ { c with stage := .waiting true } :: after) :=
      (h.leases hmode).same { c with stage := .waiting true } rfl (fun _ => rfl) fun _ he _ => he
    exact hleases.congr rfl

theorem Sound.abandon
    (hstage : c.stage = .waiting true) (hentries : c.entries = e :: entries) :
    Sound multiprocess (w.setLock e.lock ((w.locks e.lock).abandon c.id))
      (before ++ { c with stage := .rollback } :: after) := by
  obtain ⟨hgate,hentered,hrest,hlt,honly⟩ := h.waiting hstage hentries
  have hnot : ∀ lock, ¬({ c with stage := .rollback } : Context).Awaits lock :=
    not_awaits fun _ hs => by cases hs
  refine ⟨ids_mid h.ids rfl,processes_mid h.processes rfl,shaped_mid h.shaped ?_,?_,?_,?_,?_⟩
  · intro f hf
    have hmem : f ∈ c.entries := hf
    rw [hentries] at hmem
    obtain rfl | hmem := mem_cons.mp hmem
    · rw [hgate,hentered]
    · rw [(hrest f hmem).1,(hrest f hmem).2]
  · exact (h.references.same { c with stage := .rollback } rfl rfl).congr rfl rfl
  · apply h.gates.update { c with stage := .rollback } (fun _ _ => rfl)
    rw [AsyncLock.locked_abandon]
    rfl
  · apply h.waits.update { c with stage := .rollback } h.ids AsyncLock.passes_abandon rfl honly
    · intro f hf
      exact absurd hf AsyncLock.not_mem_abandon
    · intro lock hawaits
      exact absurd hawaits (hnot lock)
  · intro hmode
    have hleases : Leases w (before ++ { c with stage := .rollback } :: after) :=
      (h.leases hmode).same { c with stage := .rollback } rfl (fun _ => rfl) fun _ he _ => he
    exact hleases.congr rfl

theorem Sound.polling (hstage : c.stage = .polling)
    (hentries : c.entries = e :: entries) :
    multiprocess = true ∧ e.gate = true ∧ e.entered = false ∧
      ∀ f ∈ entries, f.gate = true ∧ f.entered = true := by
  have hshape := h.shape
  unfold Context.Shaped at hshape
  rw [hstage] at hshape
  obtain ⟨hmode,e',entries',heq,hgate,hentered,hrest⟩ := hshape
  rw [hentries] at heq
  cases heq
  exact ⟨hmode,hgate,hentered,hrest⟩

theorem Sound.poll (hstage : c.stage = .polling)
    (hentries : c.entries = e :: entries) (hfree : w.holders e.key = none) :
    Sound multiprocess { w with holders := Function.update w.holders e.key (some c.id) }
      (before ++ { c with entries := { e with entered := true } :: entries,
                          stage := .acquiring } :: after) := by
  obtain ⟨hmode,hgate,hentered,hrest⟩ := h.polling hstage hentries
  let next : Context :=
    { c with entries := { e with entered := true } :: entries, stage := .acquiring }
  show Sound multiprocess { w with holders := Function.update w.holders e.key (some c.id) }
    (before ++ next :: after)
  refine ⟨ids_mid h.ids rfl,processes_mid h.processes rfl,shaped_mid h.shaped ?_,?_,?_,?_,?_⟩
  · intro f hf
    obtain rfl | hf := mem_cons.mp hf
    · exact ⟨hgate,rfl⟩
    · exact hrest f hf
  · have hrefs : References w (before ++ next :: after) := by
      apply h.references.same next rfl
      rw [hentries]
      rfl
    exact hrefs.congr rfl rfl
  · apply h.gates.same next
    intro lock
    unfold gateCount
    rw [hentries,countP_cons,countP_cons]
  · have hwaits : Waits w (before ++ next :: after) := by
      apply h.waits.same next
      · exact not_awaits fun _ hs => by rw [hstage] at hs; cases hs
      · exact not_awaits fun _ hs => by cases hs
    exact ⟨hwaits.fair,hwaits.known,hwaits.queued⟩
  · intro hmode'
    exact (h.leases hmode').hold hentries hentered hfree rfl rfl

theorem Sound.locked
    (hmem : e ∈ c.entries) (hgate : e.gate = true) :
    (w.locks e.lock).locked = true ∧ gateCount e.lock c = 1 := by
  have hpos := gates_pos hmem hgate
  have hle := le_tally (f := gateCount e.lock) (show c ∈ before ++ c :: after by simp)
  rw [h.gates e.lock (h.references.lock_lt (by simp) hmem)] at hle
  cases hlocked : (w.locks e.lock).locked with
  | true =>
    rw [hlocked,if_pos rfl] at hle
    exact ⟨rfl,by omega⟩
  | false =>
    rw [hlocked] at hle
    simp only [Bool.false_eq_true,↓reduceIte] at hle
    omega

theorem Sound.releasedWaits (next : Context)
    (hid : next.id = c.id) (hbefore : ∀ lock, ¬c.Awaits lock) (hafter : ∀ lock, ¬next.Awaits lock)
    {lock : LockId} (hlt : lock < w.nextLock) :
    Waits (w.setLock lock (w.locks lock).release) (before ++ next :: after) := by
  apply h.waits.update next h.ids (AsyncLock.passes_release c.id) hid
  · intro lock' hawaits
    exact absurd hawaits (hbefore lock')
  · intro f hf
    have hwoken : (c.id, f) ∈ (AsyncLock.wakeUpFirst
      { w.locks lock with locked := false }).waiters := hf
    obtain ⟨q,hq,hname,-⟩ := AsyncLock.mem_wakeUpFirst hwoken
    obtain ⟨d,hd,hdid,hawaits,-⟩ := h.waits.known lock hlt q hq
    obtain rfl | hd := mem_mid.mp hd
    · exact absurd hawaits (hbefore lock)
    · exact absurd (hdid.trans hname) (id_ne h.ids hd)
  · intro lock' hawaits
    exact absurd hawaits (hafter lock')

theorem Sound.fail (hstage : c.stage = .polling)
    (hentries : c.entries = e :: entries) :
    Sound multiprocess (w.setLock e.lock (w.locks e.lock).release)
      (before ++ { c with entries := { e with gate := false } :: entries,
                          stage := .rollback } :: after) := by
  obtain ⟨hmode,hgate,hentered,hrest⟩ := h.polling hstage hentries
  have hlocked := h.locked (e := e) (by simp [hentries]) hgate
  have hnot : ∀ lock, ¬c.Awaits lock := not_awaits fun _ hs => by rw [hstage] at hs; cases hs
  let next : Context :=
    { c with entries := { e with gate := false } :: entries, stage := .rollback }
  show Sound multiprocess (w.setLock e.lock (w.locks e.lock).release) (before ++ next :: after)
  refine ⟨ids_mid h.ids rfl,processes_mid h.processes rfl,shaped_mid h.shaped ?_,?_,?_,?_,?_⟩
  · intro f hf
    obtain rfl | hf := mem_cons.mp hf
    · exact hentered.symm
    · rw [(hrest f hf).1,(hrest f hf).2]
  · have hrefs : References w (before ++ next :: after) := by
      apply h.references.same next rfl
      rw [hentries]
      rfl
    exact hrefs.congr rfl rfl
  · have hcount : ∀ lock, gateCount lock c =
        gateCount lock next + if lock = e.lock then 1 else 0 := by
      intro lock
      unfold gateCount
      rw [hentries,countP_cons,countP_cons]
      by_cases hlock : lock = e.lock
      · simp [hlock,hgate]
      · simp [hlock,Ne.symm hlock]
    apply h.gates.update next
    · intro lock hne
      rw [hcount lock,if_neg hne]
      rfl
    · rw [hcount e.lock,hlocked.1,AsyncLock.locked_release]
      simp
  · exact h.releasedWaits next rfl hnot (not_awaits fun _ hs => by cases hs)
      (h.references.lock_lt (c := c) (by simp) (by simp [hentries]))
  · intro hmode'
    have hleases : Leases w (before ++ next :: after) := by
      apply (h.leases hmode').same next rfl
      · intro key
        unfold leaseCount
        rw [hentries,countP_cons,countP_cons]
      · intro f hf hin
        obtain rfl | hf := mem_cons.mp hf
        · rw [hentered] at hin
          cases hin
        · rw [hentries]
          exact mem_cons_of_mem _ hf
    exact hleases.congr rfl

end

theorem Gates.congr (h : Gates w contexts) (hlocks : w'.locks = w.locks)
    (hnext : w'.nextLock = w.nextLock) : Gates w' contexts := by
  intro lock hlt
  rw [hlocks]
  exact h lock (hnext ▸ hlt)

theorem Waits.congr (h : Waits w contexts) (hlocks : w'.locks = w.locks)
    (hnext : w'.nextLock = w.nextLock) : Waits w' contexts := by
  refine ⟨?_,?_,?_⟩
  · rw [hlocks,hnext]
    exact h.fair
  · rw [hlocks,hnext]
    exact h.known
  · rw [hlocks]
    exact h.queued

theorem releaseRef_frame (process : Process) (key : Key) :
    (w.releaseRef process key).locks = w.locks ∧
      (w.releaseRef process key).nextLock = w.nextLock ∧
        (w.releaseRef process key).holders = w.holders := by
  unfold World.releaseRef
  split <;> exact ⟨rfl,rfl,rfl⟩

theorem releaseHolder_frame (key : Key) (id : ContextId) :
    (w.releaseHolder key id).locks = w.locks ∧
      (w.releaseHolder key id).nextLock = w.nextLock ∧
        (w.releaseHolder key id).table = w.table := by
  unfold World.releaseHolder
  split <;> exact ⟨rfl,rfl,rfl⟩

theorem gates_cons (c' : Context) (hentries : c.entries = e :: entries)
    (hrest : c'.entries = entries) (lock : LockId) : gateCount lock c =
      gateCount lock c' + if e.gate ∧ lock = e.lock then 1 else 0 := by
  unfold gateCount
  rw [hentries,hrest,countP_cons]
  by_cases hlock : lock = e.lock
  · simp [hlock]
  · simp [hlock,Ne.symm hlock]

section

variable (h : Sound multiprocess w (before ++ c :: after))

include h

theorem Sound.unlock
    (hstage : c.stage = .rollback ∨ c.stage = .exiting) (hentries : c.entries = e :: entries)
    (hgate : e.gate = true) (hentered : e.entered = true) (next : Context)
    (hnext : next = { c with entries := entries }) :
    let w₁ := if multiprocess then w.releaseHolder e.key c.id else w
    Gates (w₁.setLock e.lock (w₁.locks e.lock).release) (before ++ next :: after) ∧
      Waits (w₁.setLock e.lock (w₁.locks e.lock).release) (before ++ next :: after) ∧
        (multiprocess = true →
          Leases (w₁.setLock e.lock (w₁.locks e.lock).release) (before ++ next :: after)) := by
  subst hnext
  intro w₁
  have hframe : w₁.locks = w.locks ∧ w₁.nextLock = w.nextLock := by
    cases multiprocess with
    | true => exact ⟨(releaseHolder_frame e.key c.id).1,(releaseHolder_frame e.key c.id).2.1⟩
    | false => exact ⟨rfl,rfl⟩
  have hlocked := h.locked (e := e) (by simp [hentries]) hgate
  have hlt : e.lock < w.nextLock := h.references.lock_lt (c := c) (by simp) (by simp [hentries])
  have hawaits : ∀ entries' : List Entry, ∀ lock,
      ¬({ c with entries := entries' } : Context).Awaits lock := by
    intro entries'
    apply not_awaits
    intro cancelled hs
    have hs' : c.stage = .waiting cancelled := hs
    obtain hst | hst := hstage
    · rw [hst] at hs'
      cases hs'
    · rw [hst] at hs'
      cases hs'
  refine ⟨?_,?_,?_⟩
  · have hgates : Gates (w.setLock e.lock (w.locks e.lock).release)
        (before ++ { c with entries := entries } :: after) := by
      apply h.gates.update { c with entries := entries }
      · intro lock hne
        rw [gates_cons { c with entries := entries } hentries rfl,if_neg fun hand => hne hand.2]
        rfl
      · have hcons := gates_cons { c with entries := entries } hentries rfl e.lock
        rw [if_pos ⟨hgate,rfl⟩] at hcons
        rw [hcons,hlocked.1,AsyncLock.locked_release]
        simp
    apply hgates.congr
    · show Function.update w₁.locks e.lock (w₁.locks e.lock).release = _
      rw [hframe.1]
      rfl
    · exact hframe.2
  · have hwaits : Waits (w.setLock e.lock (w.locks e.lock).release)
        (before ++ { c with entries := entries } :: after) :=
      h.releasedWaits { c with entries := entries } rfl (hawaits c.entries) (hawaits entries) hlt
    apply hwaits.congr
    · show Function.update w₁.locks e.lock (w₁.locks e.lock).release = _
      rw [hframe.1]
      rfl
    · exact hframe.2
  · intro hmode
    have hleases : Leases (w.releaseHolder e.key c.id)
        (before ++ { c with entries := entries } :: after) :=
      (h.leases hmode).release hentries hentered rfl rfl
    apply hleases.congr
    show w₁.holders = _
    unfold w₁
    rw [if_pos hmode]

theorem Sound.release
    (hstage : c.stage = .rollback ∨ c.stage = .exiting) (hentries : c.entries = e :: entries) :
    Sound multiprocess (w.releaseEntry multiprocess c e)
      (before ++ { c with entries := entries } :: after) := by
  have hshape := h.shape
  unfold Context.Shaped at hshape
  have hsame : ∀ f ∈ c.entries, f.gate = f.entered := by
    intro f hf
    obtain hst | hst := hstage
    · rw [hst] at hshape
      exact hshape f hf
    · rw [hst] at hshape
      rw [(hshape f hf).1,(hshape f hf).2]
  have hshaped : ({ c with entries := entries } : Context).Shaped multiprocess := by
    have hmem : ∀ f ∈ entries, f ∈ c.entries := by
      intro f hf
      rw [hentries]
      exact mem_cons_of_mem _ hf
    obtain hst | hst := hstage
    · rw [hst] at hshape ⊢
      intro f hf
      exact hshape f (hmem f hf)
    · rw [hst] at hshape ⊢
      intro f hf
      exact hshape f (hmem f hf)
  have hgate := hsame e (by simp [hentries])
  let next : Context := { c with entries := entries }
  show Sound multiprocess (w.releaseEntry multiprocess c e) (before ++ next :: after)
  unfold World.releaseEntry
  cases hentered : e.entered with
  | true =>
    rw [hentered] at hgate
    obtain ⟨hgates,hwaits,hleases⟩ := h.unlock hstage hentries hgate hentered next rfl
    generalize hw₁ : (if multiprocess then w.releaseHolder e.key c.id else w) = w₁ at *
    obtain ⟨hlocks,hnextLock,hholders⟩ := releaseRef_frame
      (w := w₁.setLock e.lock (w₁.locks e.lock).release) c.process e.key
    have htable : w₁.table = w.table ∧ w₁.nextLock = w.nextLock := by
      rw [← hw₁]
      cases multiprocess with
      | true => exact ⟨(releaseHolder_frame e.key c.id).2.2,(releaseHolder_frame e.key c.id).2.1⟩
      | false => exact ⟨rfl,rfl⟩
    have hrefs : References (w₁.setLock e.lock (w₁.locks e.lock).release)
        (before ++ c :: after) := h.references.congr htable.1 htable.2
    exact ⟨ids_mid h.ids rfl,processes_mid h.processes rfl,shaped_mid h.shaped hshaped,
      hrefs.releaseRef hentries rfl rfl,hgates.congr hlocks hnextLock,
      hwaits.congr hlocks hnextLock,fun hmode => (hleases hmode).congr hholders⟩
  | false =>
    rw [hentered] at hgate
    obtain ⟨hlocks,hnextLock,hholders⟩ := releaseRef_frame (w := w) c.process e.key
    have hwaiting : ∀ entries' : List Entry, ∀ lock,
        ¬({ c with entries := entries' } : Context).Awaits lock := by
      intro entries'
      apply not_awaits
      intro cancelled hs
      have hs' : c.stage = .waiting cancelled := hs
      obtain hst | hst := hstage
      · rw [hst] at hs'
        cases hs'
      · rw [hst] at hs'
        cases hs'
    have hgates : Gates w (before ++ next :: after) := by
      apply h.gates.same next
      intro lock
      rw [gates_cons next hentries rfl,if_neg]
      · rfl
      · intro hand
        rw [hgate] at hand
        cases hand.1
    have hwaits : Waits w (before ++ next :: after) :=
      h.waits.same next (hwaiting c.entries) (hwaiting entries)
    have hleases : multiprocess = true → Leases w (before ++ next :: after) := by
      intro hmode
      apply (h.leases hmode).same next rfl
      · intro key
        unfold leaseCount
        rw [hentries]
        simp [hentered,next]
      · intro f hf _
        rw [hentries]
        exact mem_cons_of_mem _ hf
    exact ⟨ids_mid h.ids rfl,processes_mid h.processes rfl,shaped_mid h.shaped hshaped,
      h.references.releaseRef hentries rfl rfl,hgates.congr hlocks hnextLock,
      hwaits.congr hlocks hnextLock,fun hmode => (hleases hmode).congr hholders⟩

theorem Sound.leave (hentries : c.entries = []) :
    Sound multiprocess w (before ++ after) := by
  have hmem : ∀ d, d ∈ before ++ after → d ∈ before ++ c :: after :=
    fun d hd => mem_mid.mpr (.inr hd)
  refine ⟨?_,fun hmode d hd => h.processes hmode d (hmem d hd),fun d hd => h.shaped d (hmem d hd),
    h.references.leave hentries,?_,⟨h.waits.fair,?_,?_⟩,?_⟩
  · have hids := h.ids
    rw [(perm_middle.map Context.id).nodup_iff,map_cons,nodup_cons] at hids
    exact hids.2
  · intro lock hlt
    have hgates := h.gates lock hlt
    rw [tally_mid] at hgates
    simpa [gateCount,hentries] using hgates
  · intro lock hlt p hp
    obtain ⟨d,hd,hid,hawaits,hstage⟩ := h.waits.known lock hlt p hp
    obtain rfl | hd := mem_mid.mp hd
    · obtain ⟨-,e,entries,heq,-⟩ := hawaits
      rw [hentries] at heq
      cases heq
    · exact ⟨d,hd,hid,hawaits,hstage⟩
  · intro d hd
    exact h.waits.queued d (hmem d hd)
  · intro hmode
    refine ⟨?_,fun d hd => (h.leases hmode).named d (hmem d hd)⟩
    intro key
    have hcounted := (h.leases hmode).counted key
    rw [tally_mid] at hcounted
    simpa [leaseCount,hentries] using hcounted

end

theorem Sound.enter (h : Sound multiprocess w contexts) (c : Context)
    (hfresh : c.id ∉ contexts.map Context.id) (hprocess : multiprocess = false → c.process = 0)
    (hentries : c.entries = []) (hstage : c.stage = .acquiring) :
    Sound multiprocess w (contexts ++ [c]) := by
  have hcases : ∀ d, d ∈ contexts ++ [c] → d ∈ contexts ∨ d = c := by
    intro d hd
    exact (mem_append.mp hd).imp_right mem_singleton.mp
  have hnot : ∀ lock, ¬c.Awaits lock := not_awaits fun _ hs => by rw [hstage] at hs; cases hs
  refine ⟨?_,?_,?_,h.references.enter hentries,?_,⟨h.waits.fair,?_,?_⟩,?_⟩
  · rw [map_append]
    apply List.Nodup.append h.ids (nodup_singleton _)
    intro id hid hc
    rw [mem_singleton.mp hc] at hid
    exact hfresh hid
  · intro hmode d hd
    obtain hd | rfl := hcases d hd
    · exact h.processes hmode d hd
    · exact hprocess hmode
  · intro d hd
    obtain hd | rfl := hcases d hd
    · exact h.shaped d hd
    · unfold Context.Shaped
      rw [hstage]
      simp [hentries]
  · intro lock hlt
    rw [tally_append,tally_cons,tally_nil,h.gates lock hlt]
    simp [gateCount,hentries]
  · intro lock hlt p hp
    obtain ⟨d,hd,hknown⟩ := h.waits.known lock hlt p hp
    exact ⟨d,mem_append_left _ hd,hknown⟩
  · intro d hd lock hawaits
    obtain hd | rfl := hcases d hd
    · exact h.waits.queued d hd lock hawaits
    · exact absurd hawaits (hnot lock)
  · intro hmode
    refine ⟨?_,?_⟩
    · intro key
      rw [tally_append,tally_cons,tally_nil,(h.leases hmode).counted key]
      simp [leaseCount,hentries]
    · intro d hd e he hin
      obtain hd | rfl := hcases d hd
      · exact (h.leases hmode).named d hd e he hin
      · rw [hentries] at he
        cases he

theorem Sound.congr (h : Sound multiprocess w contexts) (hlocks : w'.locks = w.locks)
    (hnext : w'.nextLock = w.nextLock) (htable : w'.table = w.table)
    (hholders : w'.holders = w.holders) : Sound multiprocess w' contexts :=
  ⟨h.ids,h.processes,h.shaped,h.references.congr htable hnext,h.gates.congr hlocks hnext,
    h.waits.congr hlocks hnext,fun hmode => (h.leases hmode).congr hholders⟩

theorem Sound.moves (h : Sound multiprocess w (before ++ c :: after)) {event : Event}
    {next : Option Context} (hmoves : Moves multiprocess w c event next w') :
    Sound multiprocess w' (before ++ next.toList ++ after) := by
  rw [append_assoc]
  cases hmoves with
  | take hstage htodo => exact h.take hstage htodo
  | inside hstage htodo =>
    have hshape := h.shape
    unfold Context.Shaped at hshape
    rw [hstage] at hshape
    apply h.stage (fun _ hs => by rw [hstage] at hs; cases hs) (fun _ hs => by cases hs)
    exact hshape
  | resume hstage hentries hdone => exact h.resume hstage hentries hdone
  | cancel hstage hentries => exact h.cancel hstage hentries
  | abandon hstage hentries => exact h.abandon hstage hentries
  | poll hstage hentries hfree => exact h.poll hstage hentries hfree
  | fail hstage hentries => exact h.fail hstage hentries
  | exit hstage =>
    have hshape := h.shape
    unfold Context.Shaped at hshape
    rw [hstage] at hshape
    apply h.stage (fun _ hs => by rw [hstage] at hs; cases hs) (fun _ hs => by cases hs)
    exact hshape
  | release hstage hentries => exact h.release hstage hentries
  | leave hstage hentries => exact h.leave hentries

theorem Sound.step {event : Event} (h : Sound multiprocess w w.contexts)
    (hstep : Step multiprocess w event w') : Sound multiprocess w' w'.contexts := by
  cases hstep with
  | enter nameSpace keys hfresh hprocess =>
    exact (h.enter ⟨_,_,_,_,[],.acquiring⟩ hfresh hprocess rfl rfl).congr rfl rfl rfl rfl
  | moves hcontexts hmoves =>
    rw [hcontexts] at h
    exact (h.moves hmoves).congr rfl rfl rfl rfl

theorem World.Initial.sound (h : w.Initial) : Sound multiprocess w w.contexts := by
  rw [h.contexts]
  have hnone : ∀ lock, ¬lock < w.nextLock := by
    intro lock hlt
    rw [h.nextLock] at hlt
    exact absurd hlt (Nat.not_lt_zero lock)
  refine ⟨nodup_nil,fun _ => by simp,by simp,⟨by simp,?_,?_,?_⟩,?_,⟨?_,?_,by simp⟩,?_⟩
  · intro process key
    rw [h.table]
    rfl
  · intro process key lock n hfound
    rw [h.table] at hfound
    cases hfound
  · intro process key process' key' lock n n' hfound
    rw [h.table] at hfound
    cases hfound
  · intro lock hlt
    exact absurd hlt (hnone lock)
  · intro lock hlt
    exact absurd hlt (hnone lock)
  · intro lock hlt
    exact absurd hlt (hnone lock)
  · intro _
    refine ⟨?_,by simp⟩
    intro key
    rw [h.holders]
    rfl

end Steps

end LightRAG.KeyedContexts
