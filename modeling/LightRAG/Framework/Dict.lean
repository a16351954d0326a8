import LightRAG.Framework.Table

/-!
# Dictionaries

A dictionary keeps its entries in the order in which their keys came in; a key that is set again
stays where it is.
-/

namespace LightRAG
open List

structure Dict (α β : Type) where
  entries : List (α × β)
  nodup : (entries.map Prod.fst).Nodup

namespace Dict

variable {α β : Type}

def empty : Dict α β := ⟨[], nodup_nil⟩

def keys (d : Dict α β) : List α := d.entries.map Prod.fst

variable [DecidableEq α] {d : Dict α β} {k k' : α} {v : β} {es : List (α × β)}

/-- `d.get(k)`. -/
def get (d : Dict α β) (k : α) : Option β := (Table.lookup Prod.fst d.entries k).map Prod.snd

theorem mem_keys : k ∈ d.keys ↔ d.get k ≠ none := by
  unfold get keys
  rw [ne_eq,Option.map_eq_none_iff,Table.lookup_eq_none]
  simp only [mem_map,not_forall,not_not,exists_prop]

theorem get_eq_none : d.get k = none ↔ k ∉ d.keys := by
  rw [mem_keys,not_not]

theorem get_eq_some : d.get k = some v ↔ (k, v) ∈ d.entries := by
  unfold get
  rw [Option.map_eq_some_iff]
  constructor
  · rintro ⟨⟨k',v'⟩,hfound,rfl⟩
    obtain ⟨hmem,rfl⟩ := Table.mem_of_lookup hfound
    exact hmem
  · intro hmem
    exact ⟨(k, v),(Table.lookup_eq_some d.nodup).mpr ⟨hmem,rfl⟩,rfl⟩

theorem keys_overwrite (v : β) : (Table.updateWhere (fun e => e.1 = k)
    (fun e => (e.1, v)) d.entries).map Prod.fst = d.keys :=
  Table.map_updateWhere fun _ => rfl

/-- `d[k] = v`. -/
def set (d : Dict α β) (k : α) (v : β) : Dict α β :=
  if h : k ∈ d.keys then
    ⟨Table.updateWhere (fun e => e.1 = k) (fun e => (e.1, v)) d.entries, by
      rw [keys_overwrite]
      exact d.nodup⟩
  else
    ⟨d.entries ++ [(k, v)], by
      apply Table.nodup_append_new d.nodup
      intro e he heq
      exact h (mem_map.mpr ⟨e, he, heq⟩)⟩

theorem get_set : (d.set k v).get k' = if k' = k then some v else d.get k' := by
  unfold set get
  split
  · rename_i hmem
    have hkey : ∀ e : α × β, ((e.1, v) : α × β).1 = e.1 := fun _ => rfl
    rw [Table.lookup_updateWhere (f := fun e : α × β => (e.1, v)) hkey]
    by_cases hk : k' = k
    · subst hk
      obtain ⟨e,he,rfl⟩ := mem_map.mp hmem
      rw [(Table.lookup_eq_some d.nodup).mpr ⟨he,rfl⟩]
      simp
    · rw [if_neg hk]
      cases hfound : Table.lookup Prod.fst d.entries k' with
      | none => rfl
      | some e =>
        obtain ⟨-,rfl⟩ := Table.mem_of_lookup hfound
        simp [hk]
  · rename_i hnot
    have hnone : Table.lookup Prod.fst d.entries k = none := by
      rw [Table.lookup_eq_none]
      intro e he heq
      exact hnot (mem_map.mpr ⟨e,he,heq⟩)
    rw [Table.lookup_append_new (r := (k, v)) hnone]
    by_cases hk : k' = k
    · simp [hk]
    · simp [hk]

theorem keys_set : (d.set k v).keys = if k ∈ d.keys then d.keys else d.keys ++ [k] := by
  unfold set
  split
  · exact keys_overwrite v
  · simp [keys]

/-- `d.update(es)`. -/
def update (d : Dict α β) (es : List (α × β)) : Dict α β :=
  es.foldl (fun d e => d.set e.1 e.2) d

theorem update_nil : d.update [] = d := rfl

theorem update_cons {e : α × β} : d.update (e :: es) = (d.set e.1 e.2).update es := rfl

theorem update_append {es' : List (α × β)} : d.update (es ++ es') = (d.update es).update es' :=
  foldl_append

theorem mem_keys_update : k ∈ (d.update es).keys ↔ k ∈ d.keys ∨ k ∈ es.map Prod.fst := by
  induction es generalizing d with
  | nil => simp [update_nil]
  | cons e es ih =>
    rw [update_cons,ih,keys_set]
    by_cases he : e.1 ∈ d.keys
    · rw [if_pos he,map_cons,mem_cons]
      constructor
      · rintro (hk | hk)
        · exact .inl hk
        · exact .inr (.inr hk)
      · rintro (hk | rfl | hk)
        · exact .inl hk
        · exact .inl he
        · exact .inr hk
    · rw [if_neg he,map_cons,mem_append,mem_singleton,mem_cons]
      tauto

theorem get_update_of_not_mem (h : k ∉ es.map Prod.fst) : (d.update es).get k = d.get k := by
  induction es generalizing d with
  | nil => rfl
  | cons e es ih =>
    rw [map_cons,mem_cons,not_or] at h
    rw [update_cons,ih h.2,get_set,if_neg h.1]

theorem get_update_mem (h : k ∈ es.map Prod.fst) :
    ∃ v, (k, v) ∈ es ∧ (d.update es).get k = some v := by
  induction es generalizing d with
  | nil => cases h
  | cons e es ih =>
    rw [update_cons]
    by_cases hk : k ∈ es.map Prod.fst
    · obtain ⟨v,hv,hget⟩ := ih (d := d.set e.1 e.2) hk
      exact ⟨v,mem_cons_of_mem _ hv,hget⟩
    · rw [map_cons,mem_cons] at h
      obtain rfl | h := h
      · rw [get_update_of_not_mem hk,get_set,if_pos rfl]
        exact ⟨e.2,mem_cons_self,rfl⟩
      · exact absurd h hk

theorem get_update_cases (h : (d.update es).get k = some v) : (k, v) ∈ es ∨ d.get k = some v := by
  by_cases hk : k ∈ es.map Prod.fst
  · obtain ⟨v',hv',hget⟩ := get_update_mem (d := d) hk
    rw [h] at hget
    cases hget
    exact .inl hv'
  · rw [get_update_of_not_mem hk] at h
    exact .inr h

theorem get_update_of_mem (hnodup : (es.map Prod.fst).Nodup) (h : (k, v) ∈ es) :
    (d.update es).get k = some v := by
  have hk : k ∈ es.map Prod.fst := mem_map.mpr ⟨(k, v),h,rfl⟩
  obtain ⟨v',hv',hget⟩ := get_update_mem (d := d) hk
  have heq := inj_on_of_nodup_map hnodup hv' h rfl
  rw [hget,(Prod.mk.inj heq).2]

theorem update_same_iff (hnodup : (es.map Prod.fst).Nodup) :
    (∀ k, (d.update es).get k = d.get k) ↔ ∀ e ∈ es, d.get e.1 = some e.2 := by
  constructor
  · intro h e he
    rw [← h]
    exact get_update_of_mem hnodup he
  · intro h k
    by_cases hk : k ∈ es.map Prod.fst
    · obtain ⟨v,hv,hget⟩ := get_update_mem (d := d) hk
      rw [hget]
      exact (h _ hv).symm
    · exact get_update_of_not_mem hk
variable {γ : Type}

theorem get_update_entries (d' : Dict α γ) (f : γ → β) :
    (d.update (d'.entries.map fun e => (e.1, f e.2))).get k = ((d'.get k).map f).or (d.get k) := by
  have hkeys : (d'.entries.map fun e => (e.1, f e.2)).map Prod.fst = d'.keys := by
    rw [map_map]
    rfl
  cases hget : d'.get k with
  | none =>
    rw [get_update_of_not_mem (by rw [hkeys]; exact get_eq_none.mp hget),Option.map_none,
      Option.none_or]
  | some v =>
    have hmem : (k, f v) ∈ d'.entries.map fun e => (e.1, f e.2) :=
      mem_map.mpr ⟨(k, v),get_eq_some.mp hget,rfl⟩
    rw [get_update_of_mem (by rw [hkeys]; exact d'.nodup) hmem,Option.map_some,Option.some_or]

/-- `d.setdefault(k, []).extend(xs)` for each pair. -/
def collect (es : List (α × List γ)) : Dict α (List γ) :=
  es.foldl (fun d e => d.set e.1 ((d.get e.1).getD [] ++ e.2)) empty

/-- Every key with `p` is deleted. -/
def drop (d : Dict α β) (p : α → Prop) [DecidablePred p] : Dict α β :=
  ⟨d.entries.filter fun e => ¬ p e.1, d.nodup.sublist (filter_sublist.map Prod.fst)⟩

theorem get_drop {p : α → Prop} [DecidablePred p] :
    (d.drop p).get k = if p k then none else d.get k := by
  cases hget : (d.drop p).get k with
  | none =>
    split
    · rfl
    · rename_i hp
      rw [get_eq_none,keys,mem_map,not_exists] at hget
      symm
      rw [get_eq_none,keys,mem_map]
      rintro ⟨e,he,rfl⟩
      exact hget e ⟨mem_filter.mpr ⟨he,by simpa using hp⟩,rfl⟩
  | some v =>
    rw [get_eq_some,drop,mem_filter] at hget
    have hp : ¬ p k := by simpa using hget.2
    rw [if_neg hp]
    exact (get_eq_some.mpr hget.1).symm

/-- The entries `f` keeps, with what it makes of them. -/
def filterMap {γ : Type} (d : Dict α β) (f : α → β → Option γ) : Dict α γ :=
  ⟨d.entries.filterMap fun e => (f e.1 e.2).map fun c => (e.1, c), by
    have hkeys : ∀ es : List (α × β),
        ((es.filterMap fun e => (f e.1 e.2).map fun c => (e.1, c)).map Prod.fst).Sublist
          (es.map Prod.fst) := by
      intro es
      induction es with
      | nil => exact .slnil
      | cons e es ih =>
        rw [filterMap_cons]
        cases f e.1 e.2 with
        | none => exact ih.cons _
        | some c => exact ih.cons_cons _
    exact d.nodup.sublist (hkeys d.entries)⟩

theorem get_filterMap {f : α → β → Option γ} :
    (d.filterMap f).get k = (d.get k).bind (f k) := by
  have hmem : ∀ c, (d.filterMap f).get k = some c ↔ (d.get k).bind (f k) = some c := by
    intro c
    rw [get_eq_some,filterMap,mem_filterMap,Option.bind_eq_some_iff]
    constructor
    · rintro ⟨⟨k',v⟩,hin,heq⟩
      obtain ⟨c',hc',hpair⟩ := Option.map_eq_some_iff.mp heq
      obtain ⟨rfl,rfl⟩ := Prod.mk.inj hpair
      exact ⟨v,get_eq_some.mpr hin,hc'⟩
    · rintro ⟨v,hget,hc⟩
      exact ⟨(k, v),get_eq_some.mp hget,by rw [hc]; rfl⟩
  exact Option.ext hmem

/-- `d.update(m)`. -/
def overwrite (d m : Dict α β) : Dict α β := d.update m.entries

theorem get_overwrite {m : Dict α β} : (d.overwrite m).get k = (m.get k).or (d.get k) := by
  have h := get_update_entries (d := d) (k := k) m fun v => v
  rw [Option.map_id',map_id''] at h
  · exact h
  · exact fun e => rfl

/-- `d[k] = f(d.get(k), c)` for each entry of `m`. -/
def mergeWith (d : Dict α β) (f : Option β → γ → β) (m : Dict α γ) : Dict α β :=
  d.overwrite (m.filterMap fun k c => some (f (d.get k) c))

theorem get_mergeWith {f : Option β → γ → β} {m : Dict α γ} :
    (d.mergeWith f m).get k = ((m.get k).map (f (d.get k))).or (d.get k) := by
  rw [mergeWith,get_overwrite,get_filterMap]
  cases m.get k <;> rfl

theorem get_update_filterMap {f : α → Option β} {ks : List α} :
    (d.update (ks.filterMap fun k => (f k).map fun v => (k, v))).get k =
      if k ∈ ks then (f k).or (d.get k) else d.get k := by
  induction ks generalizing d with
  | nil => rfl
  | cons k' ks ih =>
    cases hv : f k' with
    | none =>
      rw [filterMap_cons_none (by rw [hv]; rfl),ih]
      by_cases hk : k = k'
      · subst hk
        simp [hv]
      · simp [hk]
    | some v =>
      rw [filterMap_cons_some (by rw [hv]; rfl),update_cons,ih,get_set]
      by_cases hk : k = k'
      · subst hk
        simp [hv]
      · simp [hk]

end Dict

end LightRAG

/-!
## Grouping

The elements of a list are gathered by a key: the first one of a key starts an entry and the others
are added to it.
-/

namespace LightRAG
open List

variable {α β κ : Type} [DecidableEq κ]

def groupStep (key : α → κ) (start : α → β) (step : β → α → β) (d : Dict κ β) (x : α) : Dict κ β :=
  match d.get (key x) with
  | some v => d.set (key x) (step v x)
  | none => d.set (key x) (start x)

def groupBy (key : α → κ) (start : α → β) (step : β → α → β) (xs : List α) : Dict κ β :=
  xs.foldl (groupStep key start step) Dict.empty

variable {key : α → κ} {start : α → β} {step : β → α → β} {xs : List α} {d : Dict κ β} {k : κ}
  {v : β} {x : α}

theorem get_groupStep_of_ne (hk : k ≠ key x) : (groupStep key start step d x).get k = d.get k := by
  unfold groupStep
  cases d.get (key x) with
  | none => rw [Dict.get_set,if_neg hk]
  | some v => rw [Dict.get_set,if_neg hk]

theorem get_foldl_groupStep (h : d.get k = some v) :
    (xs.foldl (groupStep key start step) d).get k =
      some ((xs.filter fun x => key x = k).foldl step v) := by
  induction xs generalizing d v with
  | nil => simpa using h
  | cons x xs ih =>
    by_cases hk : key x = k
    · rw [filter_cons_of_pos (by simpa using hk)]
      apply ih
      rw [groupStep,hk,h]
      simp [Dict.get_set]
    · rw [filter_cons_of_neg (by simpa using hk)]
      exact ih (by rw [get_groupStep_of_ne (Ne.symm hk),h])

theorem get_foldl_groupStep_of_none (h : d.get k = none) :
    (xs.foldl (groupStep key start step) d).get k =
      match xs.filter fun x => key x = k with
      | [] => none
      | x :: rest => some (rest.foldl step (start x)) := by
  induction xs generalizing d with
  | nil => simpa using h
  | cons x xs ih =>
    rw [foldl_cons]
    by_cases hk : key x = k
    · rw [filter_cons_of_pos (by simpa using hk)]
      apply get_foldl_groupStep
      rw [groupStep,hk,h]
      simp [Dict.get_set]
    · rw [filter_cons_of_neg (by simpa using hk)]
      exact ih (by rw [get_groupStep_of_ne (Ne.symm hk),h])

theorem get_groupBy : (groupBy key start step xs).get k =
    match xs.filter fun x => key x = k with
    | [] => none
    | x :: rest => some (rest.foldl step (start x)) :=
  get_foldl_groupStep_of_none rfl

theorem mem_keys_groupBy : k ∈ (groupBy key start step xs).keys ↔ ∃ x ∈ xs, key x = k := by
  rw [Dict.mem_keys,get_groupBy]
  cases hgroup : xs.filter fun x => key x = k with
  | nil =>
    simpa using hgroup
  | cons x rest =>
    have hmem : x ∈ xs.filter fun x => key x = k := by
      rw [hgroup]
      exact mem_cons_self
    rw [mem_filter] at hmem
    simp only [ne_eq,reduceCtorEq,not_false_eq_true,true_iff]
    exact ⟨x,hmem.1,by simpa using hmem.2⟩

theorem get_groupBy_eq_some (h : (groupBy key start step xs).get k = some v) :
    ∃ x rest, xs.filter (fun x => key x = k) = x :: rest ∧ v = rest.foldl step (start x) := by
  rw [get_groupBy] at h
  cases hgroup : xs.filter fun x => key x = k with
  | nil =>
    rw [hgroup] at h
    cases h
  | cons x rest =>
    rw [hgroup] at h
    exact ⟨x,rest,rfl,(Option.some.inj h).symm⟩

theorem foldl_accumulates {γ : Type} (holds : β → γ → Prop) (gives : α → γ → Prop)
    (hstep : ∀ v x c, holds (step v x) c ↔ holds v c ∨ gives x c) {c : γ} :
    holds (xs.foldl step v) c ↔ holds v c ∨ ∃ x ∈ xs, gives x c := by
  induction xs generalizing v with
  | nil => simp
  | cons x xs ih =>
    rw [foldl_cons,ih,hstep]
    simp only [mem_cons,exists_eq_or_imp]
    tauto

theorem foldl_keeps (holds : β → Prop) (hkeep : ∀ v x, holds v → holds (step v x)) (hv : holds v) :
    holds (xs.foldl step v) := by
  induction xs generalizing v with
  | nil => exact hv
  | cons x xs ih => exact ih (hkeep v x hv)

theorem foldl_gains (holds : β → Prop) (hkeep : ∀ v x, holds v → holds (step v x)) (hx : x ∈ xs)
    (hgain : ∀ v, holds (step v x)) : holds (xs.foldl step v) := by
  induction xs generalizing v with
  | nil => cases hx
  | cons y xs ih =>
    rw [foldl_cons]
    rcases mem_cons.mp hx with rfl | hrest
    · exact foldl_keeps holds hkeep (hgain v)
    · exact ih hrest

end LightRAG

/-!
## Numbered lists

The elements of a list under their positions. A list can be put behind a dictionary that already
holds the positions before it.
-/

namespace LightRAG
open List Function

variable {α : Type} {start i n : ℕ} {x : α} {xs : List α}

def positions (start : ℕ) (xs : List α) : List (ℕ × α) := (xs.zipIdx start).map Prod.swap

@[simp] theorem positions_fst : (positions start xs).map Prod.fst = List.range' start xs.length := by
  simp [positions,comp_def]

@[simp] theorem positions_snd : (positions start xs).map Prod.snd = xs := by
  simp [positions,comp_def]

theorem mem_positions : (i, x) ∈ positions start xs ↔ start ≤ i ∧ xs[i - start]? = some x := by
  rw [positions,mem_map,← mk_mem_zipIdx_iff_le_and_getElem?_sub]
  constructor
  · rintro ⟨e,he,heq⟩
    obtain rfl : e = (x, i) := by rw [← Prod.swap_swap e,heq]; rfl
    exact he
  · intro he
    exact ⟨(x, i),he,rfl⟩

namespace Dict

def numbered (xs : List α) : Dict ℕ α := ⟨positions 0 xs, by simp [nodup_range']⟩

theorem get_numbered : (numbered xs).get i = xs[i]? := by
  apply Option.ext
  intro y
  rw [get_eq_some,numbered,mem_positions]
  simp

theorem get_isSome_numbered : i ∈ (numbered xs).keys ↔ i < xs.length := by
  rw [mem_keys,get_numbered,ne_eq,List.getElem?_eq_none_iff,Nat.not_le]

section

variable {β : Type} [DecidableEq β] {d : Dict β α} {es : List (β × α)}

theorem entries_update_fresh (hfresh : ∀ e ∈ es, e.1 ∉ d.keys) (hnodup : (es.map Prod.fst).Nodup) :
    (d.update es).entries = d.entries ++ es := by
  induction es generalizing d with
  | nil => simp [update_nil]
  | cons e es ih =>
    rw [map_cons,nodup_cons] at hnodup
    have hnew : e.1 ∉ d.keys := hfresh e mem_cons_self
    have hset : (d.set e.1 e.2).entries = d.entries ++ [e] := by
      rw [set,dif_neg hnew]
    have hfresh' : ∀ e' ∈ es, e'.1 ∉ (d.set e.1 e.2).keys := by
      intro e' he'
      rw [keys_set,if_neg hnew,mem_append,mem_singleton,not_or]
      constructor
      · exact hfresh e' (mem_cons_of_mem _ he')
      · intro heq
        exact hnodup.1 (mem_map.mpr ⟨e',he',heq⟩)
    rw [update_cons,ih hfresh' hnodup.2,hset,append_assoc,singleton_append]

end

/-- The positions before `n` are the keys. -/
def Full (d : Dict ℕ α) (n : ℕ) : Prop := ∀ i, i ∈ d.keys ↔ i < n

theorem Full.numbered : (numbered xs).Full xs.length := fun _ => get_isSome_numbered

theorem Full.entries_append {d : Dict ℕ α} (h : d.Full n) :
    (d.update (positions n xs)).entries = d.entries ++ positions n xs := by
  apply entries_update_fresh
  · rintro ⟨i,x⟩ he hkey
    have hi := (mem_positions.mp he).1
    have hlt := (h i).mp hkey
    omega
  · simp [nodup_range']

theorem Full.append {d : Dict ℕ α} (h : d.Full n) (xs : List α) :
    (d.update (positions n xs)).Full (n + xs.length) := by
  intro i
  rw [mem_keys_update,h i,positions_fst,mem_range'_1]
  omega

theorem Full.get_append {d : Dict ℕ α} (h : d.Full n) :
    (d.update (positions n xs)).get i = if i < n then d.get i else xs[i - n]? := by
  apply Option.ext
  intro y
  rw [get_eq_some,h.entries_append,mem_append,mem_positions]
  split
  · rw [← get_eq_some]
    simp
    omega
  · rename_i hi
    have hnot : (i, y) ∉ d.entries := by
      intro hin
      exact hi ((h i).mp (mem_map.mpr ⟨(i, y),hin,rfl⟩))
    simp [hnot]
    omega

end Dict

end LightRAG
