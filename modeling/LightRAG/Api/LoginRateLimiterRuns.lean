import LightRAG.Api.LoginRateLimiter
import Mathlib.Data.List.DropRight
import Mathlib.Data.List.Perm.Basic
import Mathlib.Tactic.Linarith

/-!
# The limiter over runs

What the table remembers of the requests, and what follows for them while no untracked attempt is
released into the reservation of another one.
-/

namespace LightRAG.LoginRateLimit
open List

variable {l : Limiter} {es es' : Entries} {key k : String} {e e' : Entry} {now t : ℚ}

theorem get_erase : (erase es key).get k = if k = key then none else es.get k := Dict.get_drop

theorem get_touch : (touch es key e).get k = if k = key then some e else es.get k := by
  rw [touch,Dict.get_set,Dict.get_drop]
  by_cases hk : k = key
  · rw [if_pos hk,if_pos hk]
  · rw [if_neg hk,if_neg hk,if_neg hk]

theorem entries_touch :
    (touch es key e).entries = (erase es key).entries ++ [(key, e)] := by
  have hnot : key ∉ (erase es key).keys := by
    rw [← Dict.get_eq_none,get_erase,if_pos rfl]
  change ((erase es key).set key e).entries = _
  unfold Dict.set
  rw [dif_neg hnot]

theorem entries_set (h : es.get key ≠ none) :
    (es.set key e).entries = es.entries.map fun x => if x.1 = key then (x.1, e) else x := by
  have hmem : key ∈ es.keys := Dict.mem_keys.mpr h
  unfold Dict.set
  rw [dif_pos hmem]
  simp only [Table.updateWhere,decide_eq_true_eq]

theorem length_erase : (erase es key).entries.length ≤ es.entries.length :=
  length_filter_le _ _

theorem length_erase_of_mem (h : es.get key ≠ none) :
    (erase es key).entries.length < es.entries.length := by
  obtain ⟨e,he⟩ := Option.ne_none_iff_exists'.mp h
  apply length_filter_lt_length_iff_exists.mpr
  exact ⟨(key, e),Dict.get_eq_some.mp he,by simp⟩

def view (es : Entries) (key : String) : Entry := (es.get key).getD ⟨[], 0⟩

theorem view_of_get (h : es.get key = some e) : view es key = e := by rw [view,h,Option.getD_some]

theorem view_of_none (h : es.get key = none) : view es key = ⟨[], 0⟩ := by
  rw [view,h,Option.getD_none]

theorem eq_of_idle (h : e.idle = true) : e = ⟨[], 0⟩ := by
  obtain ⟨failures,pending⟩ := e
  simp only [Entry.idle,Bool.and_eq_true,List.isEmpty_iff,beq_iff_eq] at h
  rw [h.1,h.2]

theorem idle_eq_false : e.idle = false ↔ e.pending = 0 → e.failures ≠ [] := by
  simp only [Entry.idle,Bool.and_eq_false_iff,isEmpty_eq_false_iff,beq_eq_false_iff_ne]
  tauto

theorem view_erase : view (erase es key) k = if k = key then ⟨[], 0⟩ else view es k := by
  unfold view
  rw [get_erase]
  split <;> rfl

theorem view_set : view (es.set key e) k = if k = key then e else view es k := by
  unfold view
  rw [Dict.get_set]
  split <;> rfl

theorem view_touch : view (touch es key e) k = if k = key then e else view es k := by
  unfold view
  rw [get_touch]
  split <;> rfl

theorem view_release : view (release es key) k =
    if k = key then { view es key with pending := (view es key).pending - 1 } else view es k := by
  unfold release
  cases hget : es.get key with
  | none =>
    dsimp only
    split
    · rename_i hk
      rw [hk,view_of_none hget]
      rfl
    · rfl
  | some e =>
    dsimp only
    rw [view_of_get hget]
    split
    · rename_i hidle
      rw [view_erase,eq_of_idle hidle]
    · exact view_set

theorem view_reset : view (reset es key) k =
    if k = key then { view es key with failures := [] } else view es k := by
  unfold reset
  cases hget : es.get key with
  | none =>
    dsimp only
    split
    · rename_i hk
      rw [hk,view_of_none hget]
    · rfl
  | some e =>
    dsimp only
    rw [view_of_get hget]
    split
    · rename_i hpending
      rw [view_erase,hpending]
    · exact view_set

theorem failures_prune (hsorted : e.failures.Pairwise (· ≤ ·)) :
    (l.prune e now).failures = e.failures.filter fun f => now - l.windowSeconds < f := by
  have hgen : ∀ fs : List ℚ, fs.Pairwise (· ≤ ·) →
      (fs.dropWhile fun f => f ≤ now - l.windowSeconds) =
        fs.filter fun f => now - l.windowSeconds < f := by
    intro fs hfs
    induction fs with
    | nil => rfl
    | cons f fs ih =>
      rw [pairwise_cons] at hfs
      by_cases hf : f ≤ now - l.windowSeconds
      · rw [dropWhile_cons_of_pos (by simpa using hf),
          filter_cons_of_neg (by simpa using hf),ih hfs.2]
      · have hlater : ∀ f' ∈ f :: fs, now - l.windowSeconds < f' := by
          intro f' hf'
          rcases mem_cons.mp hf' with rfl | hin
          · exact not_le.mp hf
          · exact (not_le.mp hf).trans_le (hfs.1 f' hin)
        rw [dropWhile_cons_of_neg (by simpa using hf),filter_eq_self.mpr]
        intro f' hf'
        exact decide_eq_true (hlater f' hf')
  exact hgen e.failures hsorted

@[simp] theorem pending_prune : (l.prune e now).pending = e.pending := rfl

theorem mem_prune {f : ℚ} (h : f ∈ (l.prune e now).failures) : f ∈ e.failures :=
  (dropWhile_sublist _).mem h

theorem not_idle_prune (hsorted : e.failures.Pairwise (· ≤ ·)) :
    (l.prune e now).idle = false ↔ l.live e now := by
  rw [idle_eq_false,failures_prune hsorted,pending_prune]
  constructor
  · intro h
    rcases Nat.eq_zero_or_pos e.pending with hzero | hpos
    · obtain ⟨f,hf⟩ := exists_mem_of_ne_nil _ (h hzero)
      rw [mem_filter,decide_eq_true_eq] at hf
      exact .inl ⟨f,hf⟩
    · exact .inr hpos
  · rintro (⟨f,hf,hwindow⟩ | hpos) hzero
    · exact ne_nil_of_mem (mem_filter.mpr ⟨hf,decide_eq_true hwindow⟩)
    · omega

/-- An entry that is held by failures alone has one that is not older than any of an entry before
it. -/
def Before (x y : String × Entry) : Prop :=
  y.2.pending = 0 → ∀ f ∈ x.2.failures, ∃ f' ∈ y.2.failures, f ≤ f'

structure Tidy (l : Limiter) (now : ℚ) (es : Entries) : Prop where
  size : es.entries.length ≤ l.maxTrackedKeys
  alive : ∀ k e, es.get k = some e → e.idle = false
  sorted : ∀ k e, es.get k = some e → e.failures.Pairwise (· ≤ ·)
  past : ∀ k e, es.get k = some e → ∀ f ∈ e.failures, f ≤ now
  ordered : es.entries.Pairwise Before

namespace Tidy

theorem empty : Tidy l now Dict.empty where
  size := Nat.zero_le _
  alive := fun _ _ h => by cases h
  sorted := fun _ _ h => by cases h
  past := fun _ _ h => by cases h
  ordered := List.Pairwise.nil

theorem mono (h : Tidy l now es) (hle : now ≤ t) : Tidy l t es :=
  { h with past := fun k e he f hf => (h.past k e he f hf).trans hle }

theorem of_each (hsize : es.entries.length ≤ l.maxTrackedKeys)
    (heach : ∀ k e, es.get k = some e →
      e.idle = false ∧ e.failures.Pairwise (· ≤ ·) ∧ ∀ f ∈ e.failures, f ≤ now)
    (hordered : es.entries.Pairwise Before) : Tidy l now es :=
  ⟨hsize,fun k e he => (heach k e he).1,fun k e he => (heach k e he).2.1,
    fun k e he => (heach k e he).2.2,hordered⟩

theorem each (h : Tidy l now es) (he : es.get k = some e) :
    e.idle = false ∧ e.failures.Pairwise (· ≤ ·) ∧ ∀ f ∈ e.failures, f ≤ now :=
  ⟨h.alive k e he,h.sorted k e he,h.past k e he⟩

theorem erase (h : Tidy l now es) : Tidy l now (erase es key) := by
  refine of_each (length_erase.trans h.size) ?_ (h.ordered.sublist filter_sublist)
  intro k e he
  rw [get_erase] at he
  split at he
  · cases he
  · exact h.each he

theorem touch (h : Tidy l now es)
    (hsize : es.get key ≠ none ∨ es.entries.length < l.maxTrackedKeys) (halive : e.idle = false)
    (hsorted : e.failures.Pairwise (· ≤ ·)) (hpast : ∀ f ∈ e.failures, f ≤ now)
    (hbefore : ∀ x ∈ es.entries, Before x (key, e)) : Tidy l now (touch es key e) := by
  refine of_each ?_ ?_ ?_
  · rw [entries_touch,length_append,length_singleton]
    rcases hsize with hpresent | hroom
    · exact (length_erase_of_mem hpresent).trans_le h.size
    · exact (Nat.succ_le_succ length_erase).trans hroom
  · intro k e' he'
    rw [get_touch] at he'
    split at he'
    · obtain rfl := Option.some.inj he'
      exact ⟨halive,hsorted,hpast⟩
    · exact h.each he'
  · rw [entries_touch,pairwise_append]
    refine ⟨h.erase.ordered,pairwise_singleton _ _,?_⟩
    intro x hx y hy
    rw [mem_singleton.mp hy]
    exact hbefore x (mem_filter.mp hx).1

theorem set (h : Tidy l now es) (hget : es.get key = some e) (halive : e'.idle = false)
    (hsorted : e'.failures.Pairwise (· ≤ ·)) (hsub : ∀ f ∈ e'.failures, f ∈ e.failures)
    (hlater : ∀ x, Before x (key, e) → Before x (key, e')) : Tidy l now (es.set key e') := by
  have hpresent : es.get key ≠ none := by simp [hget]
  refine of_each ?_ ?_ ?_
  · rw [entries_set hpresent,length_map]
    exact h.size
  · intro k d hd
    rw [Dict.get_set] at hd
    split at hd
    · obtain rfl := Option.some.inj hd
      exact ⟨halive,hsorted,fun f hf => h.past key e hget f (hsub f hf)⟩
    · exact h.each hd
  · rw [entries_set hpresent,pairwise_map]
    apply h.ordered.imp_of_mem
    intro x y hx hy hbefore
    have hsame : ∀ z ∈ es.entries, z.1 = key → z = (key, e) := by
      rintro ⟨z,d⟩ hz rfl
      have hd : es.get z = some d := Dict.get_eq_some.mpr hz
      rw [hget] at hd
      rw [Option.some.inj hd]
    have hy' : Before x (if y.1 = key then (y.1, e') else y) := by
      split
      · rename_i hkey
        rw [hsame y hy hkey] at hbefore
        exact hlater x hbefore
      · exact hbefore
    split
    · rename_i hkey
      intro hpending f hf
      have hx' := hsame x hx hkey
      subst hx'
      exact hy' hpending f (hsub f hf)
    · exact hy'

end Tidy

/-- The entry of a key after what is out of the window has gone from it. -/
def Aged (l : Limiter) (now : ℚ) (es es' : Entries) : Prop :=
  ∀ k, view es' k = view es k ∨ view es' k = l.prune (view es k) now

def Keeps (l : Limiter) (now : ℚ) (es es' : Entries) : Prop :=
  ∀ k e, es.get k = some e → l.live e now → ∃ e', es'.get k = some e' ∧ l.live e' now

theorem inWindow_prune (hsorted : e.failures.Pairwise (· ≤ ·)) (hle : now ≤ t)
    (h : l.inWindow e t) : l.inWindow (l.prune e now) t := by
  obtain ⟨f,hf,hwindow⟩ := h
  refine ⟨f,?_,hwindow⟩
  rw [failures_prune hsorted,mem_filter]
  exact ⟨hf,decide_eq_true (by linarith)⟩

variable {x : String × Entry}

theorem before_prune (hsorted : e.failures.Pairwise (· ≤ ·)) (halive : (l.prune e now).idle = false)
    (h : Before x (key, e)) : Before x (key, l.prune e now) := by
  intro hpending f hf
  obtain ⟨f',hf',hle⟩ := h hpending f hf
  have hkept := idle_eq_false.mp halive hpending
  rw [failures_prune hsorted] at hkept ⊢
  by_cases hwindow : now - l.windowSeconds < f'
  · exact ⟨f',mem_filter.mpr ⟨hf',decide_eq_true hwindow⟩,hle⟩
  · obtain ⟨g,hg⟩ := exists_mem_of_ne_nil _ hkept
    have hnew : now - l.windowSeconds < g := of_decide_eq_true (mem_filter.mp hg).2
    exact ⟨g,hg,by linarith⟩

theorem liveEntry_cases (l : Limiter) (es : Entries) (key : String) (now : ℚ) :
    (es.get key = none ∧ l.liveEntry es key now = (none, es)) ∨
      (∃ e, es.get key = some e ∧ (l.prune e now).idle = true ∧
        l.liveEntry es key now = (none, erase es key)) ∨
      (∃ e, es.get key = some e ∧ (l.prune e now).idle = false ∧
        l.liveEntry es key now = (some (l.prune e now), es.set key (l.prune e now))) := by
  unfold Limiter.liveEntry
  cases hget : es.get key with
  | none => exact .inl ⟨rfl,rfl⟩
  | some e =>
    right
    dsimp only
    cases hidle : (l.prune e now).idle with
    | true => exact .inl ⟨e,rfl,hidle,by rw [if_pos rfl]⟩
    | false => exact .inr ⟨e,rfl,hidle,by rw [if_neg (by decide)]⟩

theorem Tidy.prune (h : Tidy l now es) (hget : es.get key = some e)
    (hidle : (l.prune e t).idle = false) : Tidy l now (es.set key (l.prune e t)) := by
  have hsorted := h.sorted key e hget
  refine h.set hget hidle ?_ (fun f hf => mem_prune hf) fun x hx => before_prune hsorted hidle hx
  rw [failures_prune hsorted]
  exact hsorted.filter _

theorem aged_erase (hget : es.get key = some e) (hidle : (l.prune e now).idle = true) :
    Aged l now es (erase es key) := by
  intro k
  rw [view_erase]
  split
  · rename_i hk
    right
    rw [hk,view_of_get hget,eq_of_idle hidle]
  · exact .inl rfl

theorem aged_prune (hget : es.get key = some e) :
    Aged l now es (es.set key (l.prune e now)) := by
  intro k
  rw [view_set]
  split
  · rename_i hk
    right
    rw [hk,view_of_get hget]
  · exact .inl rfl

theorem Aged.trans {es₁ es₂ es₃ : Entries} (h : Aged l now es₁ es₂) (h' : Aged l now es₂ es₃) :
    Aged l now es₁ es₃ := by
  intro k
  have htwice : l.prune (l.prune (view es₁ k) now) now = l.prune (view es₁ k) now := by
    unfold Limiter.prune
    rw [dropWhile_idempotent]
  rcases h k with heq | heq <;> rcases h' k with heq' | heq'
  · exact .inl (heq'.trans heq)
  · exact .inr (by rw [heq',heq])
  · exact .inr (by rw [heq',heq])
  · exact .inr (by rw [heq',heq,htwice])

theorem keeps_of_aged (h : Tidy l now es) (haged : Aged l now es es') (hle : now ≤ t) :
    Keeps l t es es' := by
  intro k e he hlive
  have hlive' : l.live (view es' k) t := by
    rcases haged k with heq | heq
    · rw [heq,view_of_get he]
      exact hlive
    · rw [heq,view_of_get he]
      exact hlive.imp (inWindow_prune (h.sorted k e he) hle) id
  cases hget : es'.get k with
  | none =>
    rw [view_of_none hget] at hlive'
    rcases hlive' with ⟨f,hf,-⟩ | hpos
    · cases hf
    · cases hpos
  | some e' =>
    rw [view_of_get hget] at hlive'
    exact ⟨e',rfl,hlive'⟩

theorem Keeps.trans {es₁ es₂ es₃ : Entries} (h : Keeps l now es₁ es₂) (h' : Keeps l now es₂ es₃) :
    Keeps l now es₁ es₃ := by
  intro k e he hlive
  obtain ⟨e',he',hlive'⟩ := h k e he hlive
  exact h' k e' he' hlive'

structure Swept (l : Limiter) (now : ℚ) (es es' : Entries) : Prop where
  tidy : Tidy l now es'
  aged : Aged l now es es'
  keeps : Keeps l now es es'

theorem Swept.of_aged (h : Tidy l now es) (htidy : Tidy l now es') (haged : Aged l now es es') :
    Swept l now es es' := ⟨htidy,haged,keeps_of_aged h haged le_rfl⟩

theorem Swept.refl (h : Tidy l now es) : Swept l now es es := .of_aged h h fun _ => .inl rfl

theorem Swept.trans {es₁ es₂ es₃ : Entries} (h : Swept l now es₁ es₂) (h' : Swept l now es₂ es₃) :
    Swept l now es₁ es₃ := ⟨h'.tidy,h.aged.trans h'.aged,h.keeps.trans h'.keeps⟩

theorem swept_liveEntry (h : Tidy l now es) : Swept l now es (l.liveEntry es key now).2 := by
  rcases liveEntry_cases l es key now with ⟨-,heq⟩ | ⟨e,hget,hidle,heq⟩ | ⟨e,hget,hidle,heq⟩
  · rw [heq]
    exact .refl h
  · rw [heq]
    exact .of_aged h h.erase (aged_erase hget hidle)
  · rw [heq]
    exact .of_aged h (h.prune hget hidle) (aged_prune hget)

theorem roomIn_of_lt {entries : List (String × Entry)} (h : entries.length < l.maxTrackedKeys) :
    l.roomIn now entries = (true, entries) := by
  cases entries with
  | nil => rfl
  | cons x rest => exact if_pos h

theorem ext_entries (h : es.entries = es'.entries) : es = es' := by
  cases es
  cases h
  rfl

variable {rest : List (String × Entry)}

theorem erase_head (h : es.entries = x :: rest) : (erase es x.1).entries = rest := by
  have hnodup := es.nodup
  rw [h,map_cons,nodup_cons] at hnodup
  have hrest : ∀ y ∈ rest, y.1 ≠ x.1 := by
    intro y hy heq
    exact hnodup.1 (heq ▸ mem_map_of_mem hy)
  change es.entries.filter _ = rest
  rw [h,filter_cons_of_neg (by simp),filter_eq_self]
  intro y hy
  exact decide_eq_true (hrest y hy)

theorem set_head (h : es.entries = x :: rest) : (es.set x.1 e).entries = (x.1, e) :: rest := by
  have hnodup := es.nodup
  rw [h,map_cons,nodup_cons] at hnodup
  have hpresent : es.get x.1 ≠ none := by
    rw [← Dict.mem_keys,Dict.keys,h]
    exact mem_cons_self
  rw [entries_set hpresent,h,map_cons,if_pos rfl]
  have hsame : (rest.map fun y => if y.1 = x.1 then (y.1, e) else y) = rest.map id := by
    apply map_congr_left
    intro y hy
    have hmem : y.1 ∈ rest.map Prod.fst := mem_map_of_mem hy
    exact if_neg fun heq : y.1 = x.1 => hnodup.1 (heq ▸ hmem)
  rw [hsame,map_id]

theorem makeRoom_cases (now : ℚ) (hsize : es.entries.length ≤ l.maxTrackedKeys) :
    (es.entries.length < l.maxTrackedKeys ∧ l.makeRoom es now = (true, es)) ∨
      (∃ x rest, es.entries = x :: rest ∧ (l.prune x.2 now).idle = true ∧
        l.makeRoom es now = (true, erase es x.1)) ∨
      (∃ x rest, es.entries = x :: rest ∧ es.entries.length = l.maxTrackedKeys ∧
        (l.prune x.2 now).idle = false ∧
        l.makeRoom es now = (false, es.set x.1 (l.prune x.2 now))) := by
  have hroom : ∀ b es', l.roomIn now es.entries = (b, es'.entries) →
      l.makeRoom es now = (b, es') := by
    intro b es' heq
    have hfst : (l.makeRoom es now).1 = (l.roomIn now es.entries).1 := rfl
    have hsnd : (l.makeRoom es now).2.entries = (l.roomIn now es.entries).2 := rfl
    rw [heq] at hfst hsnd
    exact Prod.ext hfst (ext_entries hsnd)
  cases hentries : es.entries with
  | nil =>
    refine .inl ⟨l.maxTrackedKeys_pos,hroom true es ?_⟩
    rw [hentries]
    rfl
  | cons x rest =>
    rcases Nat.lt_or_eq_of_le hsize with hlt | hfull
    · exact .inl ⟨hentries ▸ hlt,hroom true es (roomIn_of_lt hlt)⟩
    · right
      rw [hentries,length_cons] at hfull
      have hfull' : ¬ rest.length + 1 < l.maxTrackedKeys := by omega
      have hstep : l.roomIn now es.entries = if (l.prune x.2 now).idle then l.roomIn now rest
          else (false, (x.1, l.prune x.2 now) :: rest) := by
        rw [hentries]
        exact if_neg hfull'
      cases hidle : (l.prune x.2 now).idle with
      | true =>
        refine .inl ⟨x,rest,rfl,hidle,hroom true _ ?_⟩
        rw [hstep,if_pos hidle,roomIn_of_lt (by omega),erase_head hentries]
      | false =>
        refine .inr ⟨x,rest,rfl,hfull,hidle,hroom false _ ?_⟩
        rw [hstep,if_neg (by simp [hidle]),set_head hentries]

theorem get_head (h : es.entries = x :: rest) : es.get x.1 = some x.2 := by
  rw [Dict.get_eq_some,h]
  exact mem_cons_self

theorem swept_makeRoom (h : Tidy l now es) : Swept l now es (l.makeRoom es now).2 := by
  rcases makeRoom_cases now h.size with ⟨-,heq⟩ | ⟨x,rest,hentries,hidle,heq⟩ |
    ⟨x,rest,hentries,-,hidle,heq⟩
  · rw [heq]
    exact .refl h
  · rw [heq]
    exact .of_aged h h.erase (aged_erase (get_head hentries) hidle)
  · rw [heq]
    exact .of_aged h (h.prune (get_head hentries) hidle) (aged_prune (get_head hentries))

/-- The times of the tracked attempts on a key that were verified as wrong since its last success,
newest first. -/
def recentTimes (key : String) : List Verified → List ℚ
  | [] => []
  | v :: log =>
    if v.key = key then
      if v.correct then [] else if v.tracked then v.time :: recentTimes key log
      else recentTimes key log
    else recentTimes key log

def recentIn (l : Limiter) (s : Server) (key : String) (now : ℚ) : List ℚ :=
  (recentTimes key s.verified).filter fun f => now - l.windowSeconds < f

structure Account (l : Limiter) (s : Server) : Prop where
  tidy : Tidy l s.clock s.entries
  held : ∀ k, (view s.entries k).pending = reserved s.inFlight k
  remembered : ∀ k, (recentIn l s k s.clock).Sublist (view s.entries k).failures.reverse
  bound : ∀ k, (recentIn l s k s.clock).length + reserved s.inFlight k ≤ l.maxAttempts
  logged : ∀ v ∈ s.verified, v.time ≤ s.clock
  inOrder : s.verified.Pairwise fun v u => u.time ≤ v.time
  limited : ∀ key lo hi, hi < lo + l.windowSeconds → Unsuccessful s.verified key lo hi →
    (wrongIn s.verified key lo hi).length ≤ l.maxAttempts

theorem Tidy.sorted_view (h : Tidy l now es) (k : String) :
    (view es k).failures.Pairwise (· ≤ ·) := by
  cases hget : es.get k with
  | none =>
    rw [view_of_none hget]
    exact List.Pairwise.nil
  | some e =>
    rw [view_of_get hget]
    exact h.sorted k e hget

theorem pending_of_aged (h : Aged l now es es') : (view es' k).pending = (view es k).pending := by
  rcases h k with heq | heq
  · rw [heq]
  · rw [heq,pending_prune]

theorem filter_recent {recent : List ℚ} (hle : now ≤ t) :
    (recent.filter fun f => t - l.windowSeconds < f) =
      (recent.filter fun f => now - l.windowSeconds < f).filter
        fun f => t - l.windowSeconds < f := by
  rw [filter_filter]
  apply filter_congr
  intro f _
  rw [← Bool.decide_and,decide_eq_decide]
  constructor
  · intro hf
    exact ⟨hf,by linarith⟩
  · exact fun hf => hf.1

theorem remembers_later {recent failures : List ℚ}
    (h : (recent.filter fun f => now - l.windowSeconds < f).Sublist failures) (hle : now ≤ t) :
    (recent.filter fun f => t - l.windowSeconds < f).Sublist failures := by
  rw [filter_recent hle]
  exact filter_sublist.trans h

theorem remembers_prune {recent : List ℚ} (hsorted : e.failures.Pairwise (· ≤ ·))
    (h : (recent.filter fun f => now - l.windowSeconds < f).Sublist e.failures.reverse)
    (hle : now ≤ t) :
    (recent.filter fun f => t - l.windowSeconds < f).Sublist (l.prune e t).failures.reverse := by
  rw [filter_recent hle,failures_prune hsorted,← filter_reverse]
  exact h.filter _

theorem remembers_of_aged {recent : List ℚ} (htidy : Tidy l now es) (haged : Aged l t es es')
    (h : (recent.filter fun f => now - l.windowSeconds < f).Sublist (view es k).failures.reverse)
    (hle : now ≤ t) :
    (recent.filter fun f => t - l.windowSeconds < f).Sublist (view es' k).failures.reverse := by
  rcases haged k with heq | heq
  · rw [heq]
    exact remembers_later h hle
  · rw [heq]
    exact remembers_prune (htidy.sorted_view k) h hle

variable {s : Server}

theorem recentIn_mono (hle : now ≤ t) :
    (recentIn l s k t).Sublist (recentIn l s k now) := by
  apply monotone_filter_right
  intro f hf
  rw [decide_eq_true_eq] at hf ⊢
  linarith

theorem fst_liveEntry : ((l.liveEntry es key now).1).getD ⟨[], 0⟩ =
    view (l.liveEntry es key now).2 key := by
  rcases liveEntry_cases l es key now with ⟨hget,heq⟩ | ⟨e,-,-,heq⟩ | ⟨e,-,-,heq⟩
  · rw [heq,view_of_none hget]
    rfl
  · rw [heq,view_erase,if_pos rfl]
    rfl
  · rw [heq,view_set,if_pos rfl]
    rfl

theorem snd_retryAfter : (l.retryAfter es key now).2 = (l.liveEntry es key now).2 := by
  unfold Limiter.retryAfter
  split
  · rename_i heq
    rw [heq]
  · rename_i heq
    rw [heq]
    split
    · rfl
    · split <;> rfl

theorem retryAfter_eq {wait : Option ℚ} (h : (l.retryAfter es key now).1 = wait) :
    l.retryAfter es key now = (wait, (l.liveEntry es key now).2) := Prod.ext h snd_retryAfter

theorem lt_of_retryAfter (h : (l.retryAfter es key now).1 = none) :
    (view (l.liveEntry es key now).2 key).failures.length +
      (view (l.liveEntry es key now).2 key).pending < l.maxAttempts := by
  rw [← fst_liveEntry]
  unfold Limiter.retryAfter at h
  split at h
  · rename_i heq
    rw [heq]
    exact l.maxAttempts_pos
  · rename_i heq
    rw [heq]
    split at h
    · rename_i hlt
      exact hlt
    · split at h <;> cases h

def Blocked (l : Limiter) (now : ℚ) (es : Entries) : Prop :=
  ∃ x rest, es.entries = x :: rest ∧ es.entries.length = l.maxTrackedKeys ∧ l.live x.2 now

theorem makeRoom_new (h : Tidy l t es) (hget : es.get key = none) :
    (l.makeRoom es t).2.get key = none ∧
      (((l.makeRoom es t).1 = true ∧
          (l.makeRoom es t).2.entries.length < l.maxTrackedKeys) ∨
        ((l.makeRoom es t).1 = false ∧ Blocked l t es)) := by
  rcases makeRoom_cases t h.size with ⟨hroom,heq⟩ | ⟨x,rest,hentries,-,heq⟩ |
    ⟨x,rest,hentries,hfull,hidle,heq⟩
  · rw [heq]
    exact ⟨hget,.inl ⟨rfl,hroom⟩⟩
  · have hpresent : es.get x.1 ≠ none := by simp [get_head hentries]
    rw [heq]
    refine ⟨?_,.inl ⟨rfl,(length_erase_of_mem hpresent).trans_le h.size⟩⟩
    rw [get_erase,hget,ite_self]
  · have hsorted := h.sorted x.1 x.2 (get_head hentries)
    have hne : key ≠ x.1 := by
      rintro rfl
      rw [get_head hentries] at hget
      cases hget
    rw [heq]
    refine ⟨?_,.inr ⟨rfl,x,rest,hentries,hfull,(not_idle_prune hsorted).mp hidle⟩⟩
    rw [Dict.get_set,if_neg hne,hget]

theorem reserveAttempt_cases (key : String) (h : Tidy l t es) : ∃ es', Swept l t es es' ∧
    ((l.reserveAttempt es key t =
          touch es' key { view es' key with pending := (view es' key).pending + 1 } ∧
        (es'.get key ≠ none ∨ es'.entries.length < l.maxTrackedKeys)) ∨
      (l.reserveAttempt es key t = es' ∧ es'.get key = none ∧ es.get key = none ∧
        Blocked l t es)) := by
  have hswept : Swept l t es (l.liveEntry es key t).2 := swept_liveEntry h
  unfold Limiter.reserveAttempt
  rcases liveEntry_cases l es key t with ⟨hget,heq⟩ | ⟨e,hget,-,heq⟩ | ⟨e,hget,-,heq⟩
  · have hnew := makeRoom_new h hget
    have hroom := swept_makeRoom h
    rw [heq]
    dsimp only
    generalize l.makeRoom es t = made at hnew hroom ⊢
    obtain ⟨room,es'⟩ := made
    refine ⟨es',hroom,?_⟩
    obtain ⟨hnone,⟨rfl,hless⟩ | ⟨rfl,hblocked⟩⟩ := hnew
    · exact .inl ⟨by simp only [view_of_none hnone],.inr hless⟩
    · exact .inr ⟨rfl,hnone,hget,hblocked⟩
  · rw [heq] at hswept ⊢
    have hgone : (erase es key).get key = none := by rw [get_erase,if_pos rfl]
    have hpresent : es.get key ≠ none := by simp [hget]
    have hless := (length_erase_of_mem hpresent).trans_le h.size
    have hnew := makeRoom_new hswept.tidy hgone
    have hroom := hswept.trans (swept_makeRoom hswept.tidy)
    dsimp only at hnew hroom ⊢
    generalize l.makeRoom (erase es key) t = made at hnew hroom ⊢
    obtain ⟨room,es'⟩ := made
    refine ⟨es',hroom,?_⟩
    obtain ⟨hnone,⟨rfl,hless'⟩ | ⟨-,x,rest,-,hfull,-⟩⟩ := hnew
    · exact .inl ⟨by simp only [view_of_none hnone],.inr hless'⟩
    · omega
  · rw [heq] at hswept ⊢
    have hset : (es.set key (l.prune e t)).get key = some (l.prune e t) := by
      rw [Dict.get_set,if_pos rfl]
    exact ⟨_,hswept,.inl ⟨by simp only [view_of_get hset],.inl (by simp [hset])⟩⟩

theorem Account.swept (h : Account l s) (hle : s.clock ≤ t)
    (hswept : Swept l t s.entries es') : Account l { s with entries := es', clock := t } where
  tidy := hswept.tidy
  held := fun k => (pending_of_aged hswept.aged).trans (h.held k)
  remembered := fun k => remembers_of_aged h.tidy hswept.aged (h.remembered k) hle
  bound := by
    intro k
    have hmono : (recentIn l s k t).length ≤ (recentIn l s k s.clock).length :=
      (recentIn_mono hle).length_le
    have hbound := h.bound k
    change (recentIn l s k t).length + reserved s.inFlight k ≤ l.maxAttempts
    omega
  logged := fun v hv => (h.logged v hv).trans hle
  inOrder := h.inOrder
  limited := h.limited

variable {a : Attempt}

theorem reserved_append {inFlight : List Attempt} : reserved (inFlight ++ [a]) k =
    reserved inFlight k + if k = a.key ∧ a.tracked = true then 1 else 0 := by
  unfold reserved
  rw [countP_append,countP_singleton]
  simp only [Bool.and_eq_true,decide_eq_true_eq,@eq_comm _ a.key k]

theorem reserved_eraseIdx {inFlight : List Attempt} {i : ℕ}
    (h : inFlight[i]? = some a) : reserved inFlight k =
      reserved (inFlight.eraseIdx i) k + if k = a.key ∧ a.tracked = true then 1 else 0 := by
  have hperm : inFlight.Perm (a :: inFlight.eraseIdx i) := by
    obtain ⟨hi,rfl⟩ := List.getElem?_eq_some_iff.mp h
    exact (getElem_cons_eraseIdx_perm hi).symm
  unfold reserved
  rw [hperm.countP_eq,countP_cons]
  simp only [Bool.and_eq_true,decide_eq_true_eq,@eq_comm _ a.key k]

theorem Account.reserve (h : Account l s)
    (hroom : s.entries.get key ≠ none ∨ s.entries.entries.length < l.maxTrackedKeys)
    (hlimit : (recentIn l s key s.clock).length + reserved s.inFlight key < l.maxAttempts)
    (he : e = { view s.entries key with pending := (view s.entries key).pending + 1 }) :
    Account l { s with
      entries := touch s.entries key e
      inFlight := s.inFlight ++ [⟨key, true⟩] } := by
  have hview : ∀ k, view (touch s.entries key e) k = if k = key then e else view s.entries k :=
    fun k => view_touch
  have hfailures : ∀ k,
      (view (touch s.entries key e) k).failures = (view s.entries k).failures := by
    intro k
    rw [hview]
    split
    · rename_i hk
      rw [he,hk]
    · rfl
  have hreserved : ∀ k, reserved (s.inFlight ++ [⟨key,true⟩]) k =
      reserved s.inFlight k + if k = key then 1 else 0 := by
    intro k
    rw [reserved_append]
    simp only [and_true]
  refine ⟨?_,?_,?_,?_,h.logged,h.inOrder,h.limited⟩
  · apply h.tidy.touch hroom
    · rw [idle_eq_false,he]
      intro hpending
      cases hpending
    · rw [he]
      exact h.tidy.sorted_view key
    · intro f hf
      rw [he] at hf
      cases hget : s.entries.get key with
      | none =>
        rw [view_of_none hget] at hf
        cases hf
      | some d =>
        rw [view_of_get hget] at hf
        exact h.tidy.past key d hget f hf
    · intro x _ hpending
      rw [he] at hpending
      cases hpending
  · intro k
    rw [hview,hreserved]
    split
    · rename_i hk
      rw [he,hk,h.held key]
    · exact h.held k
  · intro k
    have hremembered := h.remembered k
    rw [← hfailures k] at hremembered
    exact hremembered
  · intro k
    rw [hreserved]
    split
    · rename_i hk
      rw [hk]
      exact hlimit
    · exact h.bound k

theorem Account.login {checked later : ℚ} (h : Account l s)
    (hchecked : s.clock ≤ checked) (hlater : checked ≤ later) :
    Account l (l.login s key checked later) := by
  have hfirst : Swept l checked s.entries (l.liveEntry s.entries key checked).2 :=
    swept_liveEntry (h.tidy.mono hchecked)
  have hchecking := h.swept hchecked hfirst
  have hreserving := hchecking.swept hlater (Swept.refl (hchecking.tidy.mono hlater))
  unfold Limiter.login
  cases hretry : (l.retryAfter s.entries key checked).1 with
  | some wait =>
    rw [retryAfter_eq hretry]
    exact hreserving
  | none =>
    have hlt := lt_of_retryAfter hretry
    have hremembered := (hchecking.remembered key).length_le
    have hheld := hchecking.held key
    have hrecent : (recentIn l s key later).length ≤ (recentIn l s key checked).length :=
      (recentIn_mono hlater).length_le
    rw [length_reverse] at hremembered
    change (recentIn l s key checked).length ≤
      (view (l.liveEntry s.entries key checked).2 key).failures.length at hremembered
    change (view (l.liveEntry s.entries key checked).2 key).pending =
      reserved s.inFlight key at hheld
    rw [retryAfter_eq hretry]
    dsimp only
    obtain ⟨es',hswept,hcases⟩ : ∃ es', Swept l later _ es' ∧ _ :=
      reserveAttempt_cases key hreserving.tidy
    have hnext := hreserving.swept le_rfl hswept
    rcases hcases with ⟨heq,hroom⟩ | ⟨heq,hnone,-,-⟩
    · have hlimit : (recentIn l s key later).length + reserved s.inFlight key < l.maxAttempts := by
        omega
      have htouched := hnext.reserve hroom hlimit rfl
      rw [heq,get_touch,if_pos rfl]
      exact htouched
    · rw [heq,hnone]
      have huntracked : ∀ k, reserved (s.inFlight ++ [⟨key,false⟩]) k = reserved s.inFlight k := by
        intro k
        rw [reserved_append,if_neg (by simp),Nat.add_zero]
      exact {
        tidy := hnext.tidy
        held := fun k => (hnext.held k).trans (huntracked k).symm
        remembered := hnext.remembered
        bound := fun k => (congrArg _ (huntracked k)).trans_le (hnext.bound k)
        logged := hnext.logged
        inOrder := hnext.inOrder
        limited := hnext.limited }

theorem set_touch : (touch es key e).set key e' = touch es key e' := by
  apply ext_entries
  have hpresent : (touch es key e).get key ≠ none := by simp [get_touch]
  have hothers : ((erase es key).entries.map fun x => if x.1 = key then (x.1, e') else x) =
      (erase es key).entries.map id := by
    apply map_congr_left
    intro x hx
    have hne : x.1 ≠ key := by simpa using (mem_filter.mp hx).2
    exact if_neg hne
  rw [entries_set hpresent,entries_touch,entries_touch,map_append,hothers]
  simp

theorem release_commitFailure (hget : es.get key = some e) :
    release (l.commitFailure es key now) key =
      touch es key ⟨(l.prune e now).failures ++ [now], e.pending - 1⟩ := by
  unfold Limiter.commitFailure
  rw [hget]
  unfold release
  rw [get_touch,if_pos rfl]
  dsimp only
  rw [if_neg (by simp [Entry.idle]),set_touch]
  rfl

theorem release_commitFailure_none (hget : es.get key = none) :
    release (l.commitFailure es key now) key = es := by
  unfold Limiter.commitFailure release
  simp only [hget]

theorem Tidy.reset (h : Tidy l now es) : Tidy l now (reset es key) := by
  unfold LoginRateLimit.reset
  cases hget : es.get key with
  | none => exact h
  | some e =>
    dsimp only
    split
    · exact h.erase
    · rename_i hpending
      exact h.set hget (idle_eq_false.mpr fun hzero => absurd hzero hpending) List.Pairwise.nil
        (fun f hf => by cases hf) fun x _ hzero => absurd hzero hpending

theorem Tidy.release (h : Tidy l now es) (hempty : (view es key).failures = []) :
    Tidy l now (release es key) := by
  unfold LoginRateLimit.release
  cases hget : es.get key with
  | none => exact h
  | some e =>
    dsimp only
    rw [view_of_get hget] at hempty
    split
    · exact h.erase
    · rename_i hidle
      have halive := Bool.eq_false_of_not_eq_true hidle
      have hpending : e.pending - 1 ≠ 0 := by
        intro hzero
        exact idle_eq_false.mp halive hzero hempty
      apply h.set hget halive
      · exact h.sorted key e hget
      · exact fun f hf => hf
      · exact fun x _ hzero => absurd hzero hpending

theorem wrongIn_le_recent {log : List Verified} {lo hi c : ℚ} (hc : c < lo)
    (hpast : ∀ v ∈ log, v.time ≤ hi) (horder : log.Pairwise fun v u => u.time ≤ v.time)
    (hquiet : Unsuccessful log key lo hi) :
    (wrongIn log key lo hi).length ≤ ((recentTimes key log).filter fun f => c < f).length := by
  induction log with
  | nil => exact le_rfl
  | cons v log ih =>
    have horder' := pairwise_cons.mp horder
    have hquiet' : Unsuccessful log key lo hi := fun u hu => hquiet u (mem_cons_of_mem v hu)
    have hrest := ih (fun u hu => hpast u (mem_cons_of_mem v hu)) horder'.2 hquiet'
    unfold wrongIn at hrest ⊢
    by_cases hkey : v.key = key
    · cases hcorrect : v.correct with
      | true =>
        -- A success on the key is before the interval, and so is all that is older.
        have hearly : v.time < lo := by
          by_contra hnot
          have hlate := hquiet v mem_cons_self hkey hcorrect (not_lt.mp hnot)
          exact absurd (hpast v mem_cons_self) (not_le.mpr hlate)
        have hnone : (log.filter fun u => u.wrong key lo hi) = [] := by
          rw [filter_eq_nil_iff]
          intro u hu
          have hold : u.time < lo := (horder'.1 u hu).trans_lt hearly
          simp [Verified.wrong,not_le.mpr hold]
        rw [filter_cons_of_neg (by simp [Verified.wrong,hcorrect]),hnone]
        exact Nat.zero_le _
      | false =>
        cases htracked : v.tracked with
        | false =>
          rw [filter_cons_of_neg (by simp [Verified.wrong,htracked])]
          simpa [recentTimes,hkey,hcorrect,htracked] using hrest
        | true =>
          by_cases hin : lo ≤ v.time
          · rw [filter_cons_of_pos (by
              simp [Verified.wrong,hkey,hcorrect,htracked,hin,hpast v mem_cons_self])]
            have hrecent : recentTimes key (v :: log) = v.time :: recentTimes key log := by
              simp [recentTimes,hkey,hcorrect,htracked]
            rw [hrecent,filter_cons_of_pos (by simpa using hc.trans_le hin),length_cons]
            exact Nat.succ_le_succ hrest
          · rw [filter_cons_of_neg (by simp [Verified.wrong,hin])]
            have hrecent : recentTimes key (v :: log) = v.time :: recentTimes key log := by
              simp [recentTimes,hkey,hcorrect,htracked]
            rw [hrecent]
            exact hrest.trans ((sublist_cons_self _ _).filter _).length_le
    · rw [filter_cons_of_neg (by simp [Verified.wrong,hkey])]
      simpa [recentTimes,hkey] using hrest

theorem reserved_pos {i : ℕ} (ha : s.inFlight[i]? = some a)
    (htracked : a.tracked = true) : 0 < reserved s.inFlight a.key := by
  rw [reserved_eraseIdx ha,if_pos ⟨rfl,htracked⟩]
  omega

theorem Account.limited_finish {i : ℕ} {correct : Bool}
    (h : Account l s) (ha : s.inFlight[i]? = some a) (hnow : s.clock ≤ now) :
    ∀ key lo hi, hi < lo + l.windowSeconds →
      Unsuccessful (l.finish s i a correct now).verified key lo hi →
      (wrongIn (l.finish s i a correct now).verified key lo hi).length ≤ l.maxAttempts := by
  intro key lo hi hlt hquiet
  change (wrongIn (⟨a.key,a.tracked,correct,now⟩ :: s.verified) key lo hi).length ≤ _
  have hquiet' : Unsuccessful s.verified key lo hi := fun v hv =>
    hquiet v (mem_cons_of_mem _ hv)
  by_cases hin : Verified.wrong ⟨a.key,a.tracked,correct,now⟩ key lo hi = true
  · unfold wrongIn
    rw [filter_cons,if_pos hin,length_cons]
    simp only [Verified.wrong,Bool.and_eq_true,decide_eq_true_eq] at hin
    obtain ⟨⟨⟨⟨rfl,htracked⟩,-⟩,-⟩,hhi⟩ := hin
    have hpast : ∀ v ∈ s.verified, v.time ≤ hi := fun v hv =>
      ((h.logged v hv).trans hnow).trans hhi
    have hcut : now - l.windowSeconds < lo := by linarith
    have hwrong := wrongIn_le_recent hcut hpast h.inOrder hquiet'
    have hrecent : (recentIn l s a.key now).length ≤ (recentIn l s a.key s.clock).length :=
      (recentIn_mono hnow).length_le
    have hbound := h.bound a.key
    have hpos := reserved_pos ha htracked
    unfold wrongIn at hwrong
    unfold recentIn at hrecent hbound
    omega
  · unfold wrongIn
    rw [filter_cons,if_neg hin]
    exact h.limited key lo hi hlt hquiet'

theorem Account.settle {i : ℕ} {correct : Bool} (h : Account l s)
    (ha : s.inFlight[i]? = some a) (hnow : s.clock ≤ now)
    (halone : a.tracked = false → (view s.entries a.key).pending = 0)
    (hentries : (l.finish s i a correct now).entries = es') (htidy : Tidy l now es')
    (hother : ∀ k, k ≠ a.key → view es' k = view s.entries k)
    (hpending : (view es' a.key).pending = (view s.entries a.key).pending - 1)
    (hremembered : (recentIn l (l.finish s i a correct now) a.key now).Sublist
      (view es' a.key).failures.reverse)
    (hbound : (recentIn l (l.finish s i a correct now) a.key now).length +
      ((view s.entries a.key).pending - 1) ≤ l.maxAttempts) :
    Account l (l.finish s i a correct now) := by
  have hreserved : ∀ k, reserved (s.inFlight.eraseIdx i) k =
      if k = a.key then (view s.entries a.key).pending - 1 else reserved s.inFlight k := by
    intro k
    have hsplit := reserved_eraseIdx (k := k) ha
    by_cases hk : k = a.key
    · subst hk
      have hheld := h.held a.key
      rw [if_pos rfl]
      cases htracked : a.tracked with
      | true =>
        rw [if_pos ⟨rfl,htracked⟩] at hsplit
        omega
      | false =>
        have hzero := halone htracked
        omega
    · rw [if_neg fun hboth => hk hboth.1] at hsplit
      rw [if_neg hk,hsplit,Nat.add_zero]
  have hrecent : ∀ k, k ≠ a.key → recentIn l (l.finish s i a correct now) k now = recentIn l s k now :=
    fun k hk => congrArg _ (if_neg (Ne.symm hk))
  refine ⟨hentries ▸ htidy,?_,?_,?_,?_,
    pairwise_cons.mpr ⟨fun u hu => (h.logged u hu).trans hnow,h.inOrder⟩,
    h.limited_finish ha hnow⟩
  · intro k
    rw [hentries]
    refine Eq.trans ?_ (hreserved k).symm
    by_cases hk : k = a.key
    · rw [if_pos hk,hk,hpending]
    · rw [if_neg hk,hother k hk,h.held k]
  · intro k
    rw [hentries]
    by_cases hk : k = a.key
    · exact hk ▸ hremembered
    · rw [hother k hk]
      exact (hrecent k hk) ▸ remembers_later (h.remembered k) hnow
  · intro k
    change (recentIn l (l.finish s i a correct now) k now).length +
      reserved (s.inFlight.eraseIdx i) k ≤ l.maxAttempts
    rw [hreserved]
    by_cases hk : k = a.key
    · rw [if_pos hk,hk]
      exact hbound
    · have hmono : (recentIn l s k now).length ≤ (recentIn l s k s.clock).length :=
        (recentIn_mono hnow).length_le
      have hbound := h.bound k
      rw [if_neg hk,hrecent k hk]
      omega
  · intro v hv
    rcases mem_cons.mp hv with rfl | hv
    · exact le_rfl
    · exact (h.logged v hv).trans hnow

theorem Account.finish {i : ℕ} {correct : Bool} (h : Account l s)
    (ha : s.inFlight[i]? = some a) (hnow : s.clock ≤ now)
    (halone : a.tracked = false → ∀ e, s.entries.get a.key = some e → e.pending = 0) :
    Account l (l.finish s i a correct now) := by
  have htidy := h.tidy.mono hnow
  have hpending : a.tracked = false → (view s.entries a.key).pending = 0 := by
    intro huntracked
    cases hget : s.entries.get a.key with
    | none => rw [view_of_none hget]
    | some e =>
      rw [view_of_get hget]
      exact halone huntracked e hget
  have hbound := h.bound a.key
  have hheld := h.held a.key
  have hmono : (recentIn l s a.key now).length ≤ (recentIn l s a.key s.clock).length :=
    (recentIn_mono hnow).length_le
  cases correct with
  | true =>
    have hview : ∀ k, view (release (reset s.entries a.key) a.key) k =
        if k = a.key then ⟨[],(view s.entries a.key).pending - 1⟩ else view s.entries k := by
      intro k
      rw [view_release,view_reset,view_reset,if_pos rfl]
      by_cases hk : k = a.key
      · rw [if_pos hk,if_pos hk]
      · rw [if_neg hk,if_neg hk,if_neg hk]
    have hnone : recentIn l (l.finish s i a true now) a.key now = [] := by
      change (recentTimes a.key (⟨a.key,a.tracked,true,now⟩ :: s.verified)).filter _ = []
      rw [recentTimes,if_pos rfl,if_pos rfl,filter_nil]
    apply h.settle ha hnow hpending rfl
    · apply Tidy.release htidy.reset
      rw [view_reset,if_pos rfl]
    · exact fun k hk => (hview k).trans (if_neg hk)
    · exact congrArg Entry.pending ((hview a.key).trans (if_pos rfl))
    · rw [hnone]
      exact nil_sublist _
    · rw [hnone,length_nil]
      omega
  | false =>
    have hrecent : recentIn l (l.finish s i a false now) a.key now =
        if a.tracked then now :: recentIn l s a.key now else recentIn l s a.key now := by
      have hwindow : now - l.windowSeconds < now := sub_lt_self now l.windowSeconds_pos
      change (recentTimes a.key (⟨a.key,a.tracked,false,now⟩ :: s.verified)).filter _ = _
      rw [recentTimes,if_pos rfl,if_neg Bool.false_ne_true]
      split
      · exact filter_cons_of_pos (decide_eq_true hwindow)
      · rfl
    have hlength : (recentIn l (l.finish s i a false now) a.key now).length +
        ((view s.entries a.key).pending - 1) ≤ l.maxAttempts := by
      rw [hrecent]
      split
      · rename_i htracked
        have hpos := reserved_pos ha htracked
        rw [length_cons]
        omega
      · omega
    cases hget : s.entries.get a.key with
    | none =>
      -- The request is on a key that is not tracked, and stays without effect.
      have huntracked : ¬a.tracked = true := by
        intro htracked
        have hpos := reserved_pos ha htracked
        rw [view_of_none hget] at hheld
        change 0 = _ at hheld
        omega
      have hentries : (l.finish s i a false now).entries = s.entries :=
        release_commitFailure_none hget
      refine h.settle ha hnow hpending hentries htidy (fun _ _ => rfl) ?_ ?_ hlength
      · rw [view_of_none hget]
        rfl
      · rw [hrecent,if_neg huntracked]
        exact remembers_later (h.remembered a.key) hnow
    | some e =>
      have hsorted := h.tidy.sorted a.key e hget
      have hpast : ∀ f ∈ (l.prune e now).failures, f ≤ now := fun f hf =>
        htidy.past a.key e hget f (mem_prune hf)
      have hremembered := h.remembered a.key
      rw [view_of_get hget] at hremembered
      have hpruned : (recentIn l s a.key now).Sublist (l.prune e now).failures.reverse :=
        remembers_prune hsorted hremembered hnow
      have hentries : (l.finish s i a false now).entries =
          touch s.entries a.key ⟨(l.prune e now).failures ++ [now],e.pending - 1⟩ :=
        release_commitFailure hget
      refine h.settle ha hnow hpending hentries ?_ ?_ ?_ ?_ hlength
      · apply htidy.touch (.inl (by simp [hget]))
        · exact idle_eq_false.mpr fun _ => by simp
        · rw [failures_prune hsorted] at hpast ⊢
          rw [pairwise_append]
          refine ⟨hsorted.filter _,pairwise_singleton _ _,?_⟩
          intro f hf f' hf'
          rw [mem_singleton.mp hf']
          exact hpast f hf
        · intro f hf
          rcases mem_append.mp hf with hf | hf
          · exact hpast f hf
          · exact (mem_singleton.mp hf).le
        · intro x hx _ f hf
          refine ⟨now,mem_append_right _ (mem_singleton_self now),?_⟩
          exact htidy.past x.1 x.2 (Dict.get_eq_some.mpr hx) f hf
      · exact fun k hk => view_touch.trans (if_neg hk)
      · rw [view_touch,if_pos rfl,view_of_get hget]
      · rw [view_touch,if_pos rfl,hrecent,reverse_append]
        split
        · exact hpruned.cons_cons now
        · exact hpruned.cons now

theorem Account.step {s u : Server} {r : Request} (h : Account l s)
    (hstep : l.UndisturbedStep s r u) : Account l u := by
  obtain ⟨hstep,halone⟩ := hstep
  cases hstep with
  | login hchecked hlater => exact h.login hchecked hlater
  | finish ha hnow => exact h.finish ha hnow (halone _ ha)

theorem account_start {clock : ℚ} : Account l (start clock) where
  tidy := Tidy.empty
  held := fun _ => rfl
  remembered := fun _ => List.Sublist.refl _
  bound := fun _ => Nat.zero_le _
  logged := fun _ hv => by cases hv
  inOrder := List.Pairwise.nil
  limited := fun _ _ _ _ _ => Nat.zero_le _

theorem Account.protected (h : Account l s) : l.Protected s where
  pending := fun k e he => by rw [← h.held k,view_of_get he]
  limited := h.limited

theorem login_cases {checked later : ℚ} (key : String) (h : Account l s)
    (hchecked : s.clock ≤ checked) (hlater : checked ≤ later) :
    Keeps l later s.entries (l.login s key checked later).entries ∧
      ((l.login s key checked later).inFlight = s.inFlight ++ [⟨key, false⟩] →
        s.entries.get key = none ∧ Blocked l later s.entries) := by
  have htidy := h.tidy.mono hchecked
  have hsweeping : Swept l checked s.entries (l.liveEntry s.entries key checked).2 :=
    swept_liveEntry htidy
  have hfirst := keeps_of_aged htidy hsweeping.aged hlater
  have hreserving := hsweeping.tidy.mono hlater
  unfold Limiter.login
  cases hretry : (l.retryAfter s.entries key checked).1 with
  | some wait =>
    rw [retryAfter_eq hretry]
    refine ⟨hfirst,fun hsame => ?_⟩
    have hlength := congrArg List.length hsame
    simp at hlength
  | none =>
    rw [retryAfter_eq hretry]
    dsimp only
    obtain ⟨es',hswept,⟨heq,-⟩ | ⟨heq,hnone,hget,hblocked⟩⟩ :=
      reserveAttempt_cases key hreserving
    · rw [heq]
      constructor
      · apply (hfirst.trans hswept.keeps).trans
        intro k d hd hlive
        rw [get_touch]
        split
        · exact ⟨_,rfl,.inr (Nat.succ_pos _)⟩
        · exact ⟨d,hd,hlive⟩
      · intro hsame
        rw [get_touch] at hsame
        simp at hsame
    · rw [heq]
      refine ⟨hfirst.trans hswept.keeps,fun _ => ?_⟩
      -- An entry of the key that goes here leaves room.
      rcases liveEntry_cases l s.entries key checked with ⟨hkey,hlive⟩ | ⟨e,hkey,-,hlive⟩ |
        ⟨e,hkey,-,hlive⟩
      · rw [hlive] at hblocked
        exact ⟨hkey,hblocked⟩
      · rw [hlive] at hblocked
        obtain ⟨x,rest,-,hfull,-⟩ := hblocked
        have hpresent : s.entries.get key ≠ none := by simp [hkey]
        have hless := (length_erase_of_mem hpresent).trans_le h.tidy.size
        have hfull' : (erase s.entries key).entries.length = l.maxTrackedKeys := hfull
        omega
      · rw [hlive,Dict.get_set,if_pos rfl] at hget
        cases hget

theorem live_of_first (htidy : Tidy l now es)
    (hentries : es.entries = x :: rest) (hwindow : l.inWindow x.2 t) :
    ∀ y ∈ es.entries, l.live y.2 t := by
  obtain ⟨f,hf,hin⟩ := hwindow
  have hordered := htidy.ordered
  rw [hentries,pairwise_cons] at hordered
  rw [hentries]
  intro y hy
  rcases mem_cons.mp hy with rfl | hy
  · exact .inl ⟨f,hf,hin⟩
  · rcases Nat.eq_zero_or_pos y.2.pending with hzero | hpos
    · obtain ⟨f',hf',hle⟩ := hordered.1 y hy hzero f hf
      exact .inl ⟨f',hf',hin.trans_le hle⟩
    · exact .inr hpos

theorem get_release_of_ne (hk : k ≠ key) : (release es key).get k = es.get k := by
  unfold release
  split
  · rfl
  · dsimp only
    split
    · rw [get_erase,if_neg hk]
    · rw [Dict.get_set,if_neg hk]

theorem get_reset_of_ne (hk : k ≠ key) : (reset es key).get k = es.get k := by
  unfold reset
  split
  · rfl
  · split
    · rw [get_erase,if_neg hk]
    · rw [Dict.get_set,if_neg hk]

theorem get_commitFailure_of_ne (hk : k ≠ key) : (l.commitFailure es key now).get k = es.get k := by
  unfold Limiter.commitFailure
  split
  · rfl
  · rw [get_touch,if_neg hk]

theorem Account.protectedStep {s u : Server} {r : Request} (h : Account l s)
    (hstep : l.UndisturbedStep s r u) : l.ProtectedStep s r u := by
  have hlive : ∀ k e now, s.entries.get k = some e →
      l.inWindow e now ∨ 0 < reserved s.inFlight k → l.live e now := by
    intro k e now he hheld
    rw [← h.held k,view_of_get he] at hheld
    exact hheld
  obtain ⟨hstep,hundisturbed⟩ := hstep
  cases hstep with
  | login hchecked hlater =>
    rename_i key checked later
    obtain ⟨hkeeps,huntracked⟩ := login_cases key h hchecked hlater
    refine ⟨fun _ _ _ hr => (by cases hr),?_,?_⟩
    · intro k e he hheld hgone
      have hclock : (l.login s key checked later).clock = later := by
        unfold Limiter.login
        split <;> rfl
      rw [hclock] at hheld
      obtain ⟨e',he',-⟩ := hkeeps k e he (hlive k e later he hheld)
      rw [hgone] at he'
      cases he'
    · intro key' checked' later' hr hnew
      cases hr
      obtain ⟨hnone,x,rest,hentries,hfull,hfirst⟩ := huntracked hnew
      refine ⟨hfull,?_⟩
      by_cases hwindow : l.inWindow x.2 later
      · exact live_of_first h.tidy hentries hwindow
      · apply hundisturbed hnone hfull x _ hwindow (hfirst.resolve_left hwindow)
        rw [hentries]
        rfl
  | finish ha hnow =>
    rename_i i a correct now
    refine ⟨?_,?_,fun _ _ _ hr => (by cases hr)⟩
    · intro i' now' a' hr ha' htracked
      cases hr
      rw [ha] at ha'
      obtain rfl := Option.some.inj ha'
      have hpos := reserved_pos ha htracked
      cases hget : s.entries.get a.key with
      | none =>
        have hheld := h.held a.key
        rw [view_of_none hget] at hheld
        change 0 = _ at hheld
        omega
      | some e =>
        have hentries : (l.finish s i a false now).entries =
            touch s.entries a.key ⟨(l.prune e now).failures ++ [now],e.pending - 1⟩ :=
          release_commitFailure hget
        rw [hentries,get_touch,if_pos rfl]
        exact ⟨_,rfl,mem_append_right _ (mem_singleton_self now)⟩
    · intro k e he _ hgone
      refine ⟨i,correct,now,a,rfl,ha,?_⟩
      by_contra hne
      have hk : k ≠ a.key := fun heq => hne heq.symm
      have hsame : (l.finish s i a correct now).entries.get k = s.entries.get k := by
        unfold Limiter.finish
        rw [get_release_of_ne hk]
        split
        · exact get_reset_of_ne hk
        · exact get_commitFailure_of_ne hk
      rw [hsame,he] at hgone
      cases hgone

def small : Limiter := ⟨2, 10, 1, by decide, by decide +kernel, by decide⟩

end LightRAG.LoginRateLimit
