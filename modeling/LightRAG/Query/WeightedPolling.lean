import LightRAG.Framework.Rounding
import LightRAG.Query.Selection
import Mathlib.Algebra.BigOperators.Group.Finset.Basic

/-!
# Weighted polling

The selection of chunks by the weights of their groups with the quotas as floating-point arithmetic
gives them, and what each group gets of the whole quota.
-/

namespace LightRAG.WeightedPolling
open List

/-- `expected_counts[i]` of `n` groups. -/
def expectedCount (fl : Rounding) (maxRelated minRelated : ℤ) (n i : ℕ) : ℤ :=
  let ratio := if 1 < n then fl (i / ((n - 1 : ℕ) : ℚ)) else 0
  roundHalfEven (fl (fl maxRelated - fl (ratio * fl ((maxRelated - minRelated : ℤ) : ℚ))))

/-- The first round from the `i`th group on: the chunks taken, the chunks left and the quota that
was not used. -/
def firstRound (expected : ℕ → ℤ) :
    ℕ → List (List String) → List String × List (List String) × ℕ
  | _, [] => ([], [], 0)
  | i, group :: groups =>
    let actual := min (expected i) group.length
    let rest := firstRound expected (i + 1) groups
    (group.take actual.toNat ++ rest.1, group.drop actual.toNat :: rest.2.1,
      (expected i - actual).toNat + rest.2.2)

/-- `pick_by_weighted_polling` on the lists of `sorted_chunks`. -/
def pickByWeightedPolling (fl : Rounding) (groups : List (List String))
    (maxRelated minRelated : ℤ) : List String :=
  if groups = [] then []
  else if maxRelated ≤ 0 then []
  else
    match groups with
    | [group] => group.take maxRelated.toNat
    | groups =>
      let first := firstRound (expectedCount fl maxRelated minRelated groups.length) 0 groups
      first.1 ++ QueryPrompt.allocateRounds first.2.2 first.2.1

/-- The quota of the `i`th of `n` groups; a group on its own has the whole of it. -/
def quota (fl : Rounding) (maxRelated : ℤ) (n i : ℕ) : ℕ :=
  if n = 1 then maxRelated.toNat else (expectedCount fl maxRelated 1 n i).toNat

section

variable (fl : Rounding) {maxRelated : ℤ} {n i : ℕ}

theorem expectedCount_nonneg (hmax : 1 ≤ maxRelated) (hi : i < n) :
    0 ≤ expectedCount fl maxRelated 1 n i := by
  apply roundHalfEven_nonneg
  apply fl.nonneg
  have hrange : (0 : ℚ) ≤ ((maxRelated - 1 : ℤ) : ℚ) := by exact_mod_cast sub_nonneg.mpr hmax
  have hstep : fl ((maxRelated - 1 : ℤ) : ℚ) ≤ fl maxRelated := by
    apply fl.mono
    exact_mod_cast (sub_lt_self maxRelated one_pos).le
  rw [sub_nonneg]
  apply fl.le_of_le
  apply le_trans _ hstep
  apply mul_le_of_le_one_left (fl.nonneg hrange)
  split
  · apply fl.le_one
    apply div_le_one_of_le₀
    · exact_mod_cast Nat.le_sub_one_of_lt hi
    · exact Nat.cast_nonneg _
  · exact zero_le_one

theorem expectedCount_exact {m : ℕ} (hm : 1 ≤ m) (hn : 1 < n) (hi : i < n) :
    expectedCount Rounding.exact m 1 n i = (QueryPrompt.expectedCount m n i : ℤ) := by
  have hd : 0 < n - 1 := Nat.sub_pos_of_lt hn
  have hdq : (((n - 1 : ℕ) : ℚ)) ≠ 0 := by exact_mod_cast hd.ne'
  have hle : i * (m - 1) ≤ m * (n - 1) :=
    (Nat.mul_le_mul (Nat.le_sub_one_of_lt hi) (Nat.sub_le m 1)).trans_eq (Nat.mul_comm _ _)
  have hquot : (m : ℚ) - (i / ((n - 1 : ℕ) : ℚ)) * ((m - 1 : ℤ) : ℚ) =
      ((m * (n - 1) - i * (m - 1) : ℕ) : ℚ) / ((n - 1 : ℕ) : ℚ) := by
    rw [Nat.cast_sub hle,eq_div_iff hdq,sub_mul,Nat.cast_mul,Nat.cast_mul,Nat.cast_sub hm]
    rw [mul_right_comm,div_mul_cancel₀ _ hdq]
    push_cast
    ring
  have hround := roundHalfEven_div (m * (n - 1) - i * (m - 1)) hd
  rw [← hquot] at hround
  simp only [expectedCount,if_pos hn,Rounding.exact,id]
  rw [show ((m : ℤ) : ℚ) = (m : ℚ) from Int.cast_natCast m,hround,QueryPrompt.expectedCount,
    QueryPrompt.roundHalfEven]

theorem quota_eq (hn : n ≠ 1) :
    quota fl maxRelated n i = (expectedCount fl maxRelated 1 n i).toNat := if_neg hn

end

section

variable {α : Type}

abbrev Apart (gs : List (ℕ × List α)) : Prop := gs.Pairwise fun x y => x.2.Disjoint y.2

/-- Each group gives its quota, then the quotas that are left go through the groups in turn. -/
def shares (gs : List (ℕ × List α)) : List α :=
  gs.flatMap (fun x => x.2.take x.1) ++
    (gs.flatMap fun x => x.2.drop x.1).take (gs.map fun x => x.1 - x.2.length).sum

variable {gs : List (ℕ × List α)} {x y : ℕ × List α} {f : ℕ × List α → List α}

theorem take_subset (y : ℕ × List α) : y.2.take y.1 ⊆ y.2 := List.take_subset _ _

theorem drop_subset (y : ℕ × List α) : y.2.drop y.1 ⊆ y.2 := List.drop_subset _ _

theorem disjoint_flatMap (hf : ∀ y, f y ⊆ y.2) (h : ∀ y ∈ gs, y.2.Disjoint x.2) :
    (gs.flatMap f).Disjoint x.2 := by
  intro c hc hx
  obtain ⟨y,hy,hcy⟩ := mem_flatMap.mp hc
  exact h y hy (hf y hcy) hx

theorem length_shares : (shares gs).length =
    min (gs.map Prod.fst).sum (gs.map fun x => x.2.length).sum := by
  have hused : (gs.flatMap fun x => x.2.take x.1).length +
      (gs.map fun x => x.1 - x.2.length).sum = (gs.map Prod.fst).sum := by
    induction gs with
    | nil => rfl
    | cons x gs ih =>
      simp only [flatMap_cons,length_append,length_take,map_cons,sum_cons]
      omega
  have hkept : (gs.flatMap fun x => x.2.take x.1).length +
      (gs.flatMap fun x => x.2.drop x.1).length = (gs.map fun x => x.2.length).sum := by
    clear hused
    induction gs with
    | nil => rfl
    | cons x gs ih =>
      simp only [flatMap_cons,length_append,length_take,length_drop,map_cons,sum_cons]
      omega
  rw [shares,length_append,length_take]
  omega

theorem perm_flatMap : (gs.flatMap (fun x => x.2.take x.1) ++
    gs.flatMap fun x => x.2.drop x.1).Perm (gs.flatMap Prod.snd) := by
  induction gs with
  | nil => exact List.Perm.refl []
  | cons x gs ih =>
    have hswap : ((x.2.take x.1 ++ gs.flatMap fun x => x.2.take x.1) ++
        (x.2.drop x.1 ++ gs.flatMap fun x => x.2.drop x.1)).Perm
        ((x.2.take x.1 ++ x.2.drop x.1) ++
          (gs.flatMap (fun x => x.2.take x.1) ++ gs.flatMap fun x => x.2.drop x.1)) := by
      rw [append_assoc,append_assoc]
      apply List.Perm.append_left
      rw [← append_assoc,← append_assoc]
      exact perm_append_comm.append_right _
    rw [take_append_drop] at hswap
    exact hswap.trans (ih.append_left _)

theorem shares_subperm : (shares gs).Subperm (gs.flatMap Prod.snd) :=
  ((List.Sublist.refl _).append (take_sublist _ _)).subperm.trans perm_flatMap.subperm

theorem nodup_shares (hnodup : ∀ x ∈ gs, x.2.Nodup) (hapart : Apart gs) : (shares gs).Nodup := by
  have hall : (gs.flatMap Prod.snd).Nodup := by
    rw [nodup_flatMap]
    exact ⟨hnodup,hapart⟩
  have hsubperm : (shares gs).Subperm (gs.flatMap Prod.snd) := shares_subperm
  obtain ⟨l,hperm,hsub⟩ := hsubperm
  exact hperm.nodup_iff.mp (hall.sublist hsub)

theorem mem_of_mem_shares {c : α} (h : c ∈ shares gs) : ∃ x ∈ gs, c ∈ x.2 :=
  mem_flatMap.mp (shares_subperm.subset h)

variable [DecidableEq α]

def part (picked group : List α) : List α := picked.filter (· ∈ group)

theorem part_append {as bs group : List α} :
    part (as ++ bs) group = part as group ++ part bs group := filter_append ..

theorem part_eq_nil {as group : List α} (h : as.Disjoint group) : part as group = [] := by
  rw [part,filter_eq_nil_iff]
  intro c hc hmem
  exact h hc (of_decide_eq_true hmem)

theorem part_eq_self {as group : List α} (h : as ⊆ group) : part as group = as := by
  rw [part,filter_eq_self]
  intro c hc
  exact decide_eq_true (h hc)

theorem part_flatMap (hf : ∀ y, f y ⊆ y.2) (hapart : Apart gs) (hx : x ∈ gs) :
    part (gs.flatMap f) x.2 = f x := by
  induction gs with
  | nil => cases hx
  | cons y gs ih =>
    have hcons := pairwise_cons.mp hapart
    rw [flatMap_cons,part_append]
    rcases mem_cons.mp hx with rfl | hin
    · have hrest : (gs.flatMap f).Disjoint x.2 :=
        disjoint_flatMap hf fun z hz => (hcons.1 z hz).symm
      rw [part_eq_self (hf x),part_eq_nil hrest,append_nil]
    · have hhead : (f y).Disjoint x.2 := fun c hc hcx => hcons.1 x hin (hf y hc) hcx
      rw [part_eq_nil hhead,ih hcons.2 hin,nil_append]

theorem part_shares (hapart : Apart gs) (hx : x ∈ gs) :
    ∃ m, part (shares gs) x.2 = x.2.take x.1 ++ (x.2.drop x.1).take m := by
  have hlater : part ((gs.flatMap fun y => y.2.drop y.1).take
      (gs.map fun y => y.1 - y.2.length).sum) x.2 <+: x.2.drop x.1 := by
    have hpieces := part_flatMap drop_subset hapart hx
    rw [← hpieces]
    exact (List.take_prefix _ _).filter _
  obtain ⟨m,hm⟩ : ∃ m, part ((gs.flatMap fun y => y.2.drop y.1).take
      (gs.map fun y => y.1 - y.2.length).sum) x.2 = (x.2.drop x.1).take m :=
    ⟨_,prefix_iff_eq_take.mp hlater⟩
  exact ⟨m,by rw [shares,part_append,part_flatMap take_subset hapart hx,hm]⟩

theorem part_shares_prefix (hapart : Apart gs) (hx : x ∈ gs) : part (shares gs) x.2 <+: x.2 := by
  obtain ⟨m,hm⟩ := part_shares hapart hx
  rw [hm]
  have h := prefix_append_right_inj (x.2.take x.1) |>.mpr (List.take_prefix m (x.2.drop x.1))
  rwa [take_append_drop] at h

theorem le_part_shares (hapart : Apart gs) (hx : x ∈ gs) :
    min x.1 x.2.length ≤ (part (shares gs) x.2).length := by
  obtain ⟨m,hm⟩ := part_shares hapart hx
  rw [hm,length_append,length_take]
  exact Nat.le_add_right _ _

theorem part_shares_earlier {pre post : List (ℕ × List α)} (hgs : gs = pre ++ y :: post)
    (hapart : Apart gs) (hx : x ∈ pre) (hmore : y.1 < (part (shares gs) y.2).length) :
    part (shares gs) x.2 = x.2 := by
  subst hgs
  have hsplit := pairwise_append.mp hapart
  have hx' : x ∈ pre ++ y :: post := mem_append_left _ hx
  have hy' : y ∈ pre ++ y :: post := mem_append_right _ mem_cons_self
  have hbefore : (pre.flatMap fun z => z.2.drop z.1).Disjoint y.2 :=
    disjoint_flatMap drop_subset fun z hz => hsplit.2.2 z hz y mem_cons_self
  by_cases hk : ((pre ++ y :: post).map fun z => z.1 - z.2.length).sum ≤
      (pre.flatMap fun z => z.2.drop z.1).length
  · -- The rounds end before they come to `y`.
    rw [shares,part_append,part_flatMap take_subset hapart hy',flatMap_append,
      take_append_of_le_length hk,
      part_eq_nil (disjoint_of_subset_left (List.take_subset _ _) hbefore),append_nil,
      length_take] at hmore
    exact absurd hmore (by omega)
  · have hpre : part (pre.flatMap fun z => z.2.drop z.1) x.2 = x.2.drop x.1 :=
      part_flatMap drop_subset hsplit.1 hx
    have hafter : ((y :: post).flatMap fun z => z.2.drop z.1).Disjoint x.2 :=
      disjoint_flatMap drop_subset fun z hz => (hsplit.2.2 x hx z hz).symm
    have hwhole : (pre.flatMap fun z => z.2.drop z.1).take
        ((pre ++ y :: post).map fun z => z.1 - z.2.length).sum =
        pre.flatMap fun z => z.2.drop z.1 := take_of_length_le (not_le.mp hk).le
    rw [shares,part_append,part_flatMap take_subset hapart hx',flatMap_append,
      take_append,hwhole,part_append,hpre,
      part_eq_nil (disjoint_of_subset_left (List.take_subset _ _) hafter),
      append_nil,take_append_drop]

end

section

variable {groups : List (List String)}

theorem allocate_eq_none (h : QueryPrompt.allocate groups = none) : groups.flatten = [] := by
  induction groups with
  | nil => rfl
  | cons group groups ih =>
    cases group with
    | nil => exact ih (Option.map_eq_none_iff.mp h)
    | cons c cs => cases h

theorem allocate_eq_some {found : String × List (List String)}
    (h : QueryPrompt.allocate groups = some found) :
    groups.flatten = found.1 :: found.2.flatten := by
  induction groups generalizing found with
  | nil => cases h
  | cons group groups ih =>
    cases group with
    | nil =>
      obtain ⟨later,hlater,rfl⟩ := Option.map_eq_some_iff.mp h
      have htail : groups.flatten = later.1 :: later.2.flatten := ih hlater
      exact htail
    | cons c cs =>
      obtain rfl := Option.some.inj h
      rfl

theorem allocateRounds_eq (n : ℕ) :
    QueryPrompt.allocateRounds n groups = groups.flatten.take n := by
  induction n generalizing groups with
  | zero => rfl
  | succ n ih =>
    cases h : QueryPrompt.allocate groups with
    | none => simp only [QueryPrompt.allocateRounds,h,allocate_eq_none h,take_nil]
    | some found =>
      simp only [QueryPrompt.allocateRounds,h,allocate_eq_some h,ih,take_succ_cons]

/-- The groups from the `i`th on, with their quotas. -/
def withQuotas (expected : ℕ → ℕ) (i : ℕ) (groups : List (List String)) :
    List (ℕ × List String) := (groups.zipIdx i).map fun p => (expected p.2, p.1)

theorem firstRound_eq {expected : ℕ → ℤ} {i : ℕ}
    (h : ∀ j, i ≤ j → j < i + groups.length → 0 ≤ expected j) :
    firstRound expected i groups =
      ((withQuotas (fun j => (expected j).toNat) i groups).flatMap (fun x => x.2.take x.1),
        (withQuotas (fun j => (expected j).toNat) i groups).map (fun x => x.2.drop x.1),
        ((withQuotas (fun j => (expected j).toNat) i groups).map
          fun x => x.1 - x.2.length).sum) := by
  induction groups generalizing i with
  | nil => rfl
  | cons group groups ih =>
    have htail : ∀ j, i + 1 ≤ j → j < i + 1 + groups.length → 0 ≤ expected j := by
      intro j hij hj
      exact h j (by omega) (by rw [length_cons]; omega)
    have hactual : (min (expected i) (group.length : ℤ)).toNat =
        min (expected i).toNat group.length := by omega
    have hremaining : (expected i - min (expected i) (group.length : ℤ)).toNat =
        (expected i).toNat - group.length := by omega
    rw [firstRound,ih htail]
    simp only [withQuotas,hactual,hremaining,← take_eq_take_min,← drop_eq_drop_min,zipIdx_cons,
      map_cons,flatMap_cons,sum_cons]

theorem pickByWeightedPolling_eq (fl : Rounding) {maxRelated : ℤ} (hmax : 1 ≤ maxRelated) :
    pickByWeightedPolling fl groups maxRelated 1 =
      shares (withQuotas (quota fl maxRelated groups.length) 0 groups) := by
  unfold pickByWeightedPolling
  split
  · rename_i hgroups
    rw [hgroups]
    rfl
  · rw [if_neg (by omega)]
    split
    · rename_i group _
      have hquota : quota fl maxRelated 1 0 = maxRelated.toNat := rfl
      simp only [withQuotas,shares,length_singleton,zipIdx_cons,zipIdx_nil,
        map_cons,map_nil,flatMap_cons,flatMap_nil,append_nil,
        sum_cons,sum_nil,hquota]
      rcases Nat.le_total maxRelated.toNat group.length with hle | hle
      · rw [Nat.sub_eq_zero_of_le hle,Nat.add_zero,take_zero,append_nil]
      · rw [drop_of_length_le hle,take_nil,append_nil]
    · rename_i hmany
      have hlength : groups.length ≠ 1 := by
        intro hone
        obtain ⟨group,rfl⟩ := length_eq_one_iff.mp hone
        exact hmany group rfl
      have hquota : quota fl maxRelated groups.length =
          fun j => (expectedCount fl maxRelated 1 groups.length j).toNat :=
        funext fun j => quota_eq fl hlength
      have hnonneg : ∀ j, 0 ≤ j → j < 0 + groups.length →
          0 ≤ expectedCount fl maxRelated 1 groups.length j := by
        intro j _ hj
        exact expectedCount_nonneg fl hmax (by omega)
      dsimp only
      rw [firstRound_eq hnonneg,allocateRounds_eq,hquota]
      rfl

end

/-- What the groups get: each a first part of its chunks, not less than its quota or all of them,
and what short groups leave of the quotas as far as it goes, the groups in their order. -/
structure Fair (expected : ℕ → ℕ) (groups : List (List String)) (picked : List String) : Prop where
  nodup : picked.Nodup
  source : ∀ c ∈ picked, ∃ group ∈ groups, c ∈ group
  first : ∀ group ∈ groups, part picked group <+: group
  quota : ∀ i (hi : i < groups.length),
    min (expected i) groups[i].length ≤ (part picked groups[i]).length
  total : picked.length =
    min ((List.range groups.length).map expected).sum (groups.map List.length).sum
  earliest : ∀ i j (hi : i < groups.length) (hj : j < groups.length), i < j →
    expected j < (part picked groups[j]).length → part picked groups[i] = groups[i]
  complete : picked.length < ((List.range groups.length).map expected).sum →
    ∀ group ∈ groups, group ⊆ picked

section

variable {expected : ℕ → ℕ} {groups : List (List String)}

theorem getElem_withQuotas {i : ℕ} (hi : i < (withQuotas expected 0 groups).length)
    (hi' : i < groups.length) : (withQuotas expected 0 groups)[i] = (expected i, groups[i]) := by
  simp [withQuotas]

theorem mem_withQuotas {x : ℕ × List String} :
    x ∈ withQuotas expected 0 groups ↔
      ∃ i, ∃ h : i < groups.length, (expected i, groups[i]) = x := by
  have hlength : (withQuotas expected 0 groups).length = groups.length := by simp [withQuotas]
  rw [mem_iff_getElem]
  constructor
  · rintro ⟨i,hi,rfl⟩
    exact ⟨i,hlength ▸ hi,(getElem_withQuotas hi _).symm⟩
  · rintro ⟨i,hi,rfl⟩
    exact ⟨i,hlength.symm ▸ hi,getElem_withQuotas _ hi⟩

theorem fair_shares (hnodup : ∀ group ∈ groups, group.Nodup)
    (hapart : groups.Pairwise List.Disjoint) :
    Fair expected groups (shares (withQuotas expected 0 groups)) := by
  have hlength : (withQuotas expected 0 groups).length = groups.length := by simp [withQuotas]
  have hsnd : (withQuotas expected 0 groups).map Prod.snd = groups := by
    rw [withQuotas,map_map]
    exact zipIdx_map_fst 0 groups
  have hfst : (withQuotas expected 0 groups).map Prod.fst =
      (List.range groups.length).map expected := by
    rw [withQuotas,map_map,range_eq_range',← zipIdx_map_snd 0 groups,map_map]
    rfl
  have hsizes : ((withQuotas expected 0 groups).map fun x => x.2.length) =
      groups.map List.length := by
    conv_rhs => rw [← hsnd,map_map]
    rfl
  have hdisjoint : Apart (withQuotas expected 0 groups) := by
    rw [← hsnd,pairwise_map] at hapart
    exact hapart
  have htotal : (shares (withQuotas expected 0 groups)).length =
      min ((List.range groups.length).map expected).sum (groups.map List.length).sum := by
    rw [length_shares,hfst,hsizes]
  have hfirst : ∀ group ∈ groups,
      part (shares (withQuotas expected 0 groups)) group <+: group := by
    intro group hgroup
    obtain ⟨i,hi,rfl⟩ := getElem_of_mem hgroup
    exact part_shares_prefix hdisjoint (mem_withQuotas.mpr ⟨i,hi,rfl⟩)
  refine ⟨?_,?_,hfirst,?_,htotal,?_,?_⟩
  · apply nodup_shares _ hdisjoint
    intro x hx
    obtain ⟨i,hi,rfl⟩ := mem_withQuotas.mp hx
    exact hnodup _ (getElem_mem hi)
  · intro c hc
    obtain ⟨x,hx,hcx⟩ := mem_of_mem_shares hc
    obtain ⟨i,hi,rfl⟩ := mem_withQuotas.mp hx
    exact ⟨_,getElem_mem hi,hcx⟩
  · intro i hi
    exact le_part_shares hdisjoint (mem_withQuotas.mpr ⟨i,hi,rfl⟩)
  · intro i j hi hj hij hmore
    have hj' : j < (withQuotas expected 0 groups).length := hlength.symm ▸ hj
    have hsplit : withQuotas expected 0 groups = (withQuotas expected 0 groups).take j ++
        (expected j, groups[j]) :: (withQuotas expected 0 groups).drop (j + 1) := by
      rw [← getElem_withQuotas hj' hj,← drop_eq_getElem_cons,take_append_drop]
    have hbefore : (expected i, groups[i]) ∈ (withQuotas expected 0 groups).take j := by
      rw [← getElem_withQuotas (hlength.symm ▸ hi) hi]
      exact mem_take_iff_getElem.mpr ⟨i,by omega,rfl⟩
    exact part_shares_earlier hsplit hdisjoint hbefore hmore
  · intro hless group hgroup
    have hall : (shares (withQuotas expected 0 groups)).length = (groups.map List.length).sum := by
      omega
    have hperm : (shares (withQuotas expected 0 groups)).Perm
        ((withQuotas expected 0 groups).flatMap Prod.snd) := by
      apply shares_subperm.perm_of_length_le
      rw [hall,← hsizes,length_flatMap]
    intro c hc
    apply hperm.symm.subset
    rw [flatMap_def,hsnd]
    exact mem_flatten.mpr ⟨group,hgroup,hc⟩

end

/-- The selection hands out the whole quota and is fair, in the arithmetic of any format. -/
theorem pickByWeightedPolling_fair (fl : Rounding) (groups : List (List String)) (maxRelated : ℤ)
    (hmax : 1 ≤ maxRelated) (hnodup : ∀ group ∈ groups, group.Nodup)
    (hapart : groups.Pairwise List.Disjoint) :
    Fair (quota fl maxRelated groups.length) groups
      (pickByWeightedPolling fl groups maxRelated 1) := by
  rw [pickByWeightedPolling_eq fl hmax]
  exact fair_shares hnodup hapart

theorem pickByWeightedPolling_fair_three :
    Fair (quota Rounding.exact 3 3) [["a"], ["b", "c", "d"], ["e", "f"]]
      (pickByWeightedPolling Rounding.exact [["a"], ["b", "c", "d"], ["e", "f"]] 3 1) :=
  pickByWeightedPolling_fair Rounding.exact [["a"], ["b", "c", "d"], ["e", "f"]] 3 (by decide)
    (by decide) (by simp)

theorem firstRound_exact {m n i : ℕ} {groups : List (List String)} (hm : 1 ≤ m) (hn : 1 < n)
    (hi : i + groups.length ≤ n) : firstRound (expectedCount Rounding.exact m 1 n) i groups =
      QueryPrompt.firstRound m n i groups := by
  induction groups generalizing i with
  | nil => rfl
  | cons group groups ih =>
    rw [length_cons] at hi
    have hactual (e : ℕ) : (min (e : ℤ) (group.length : ℤ)).toNat = min e group.length := by omega
    have hremaining (e : ℕ) : ((e : ℤ) - min (e : ℤ) (group.length : ℤ)).toNat =
        e - group.length := by omega
    rw [firstRound,QueryPrompt.firstRound,ih (by omega),expectedCount_exact hm hn (by omega)]
    simp only [hactual,hremaining,← take_eq_take_min,← drop_eq_drop_min]

theorem pickByWeightedPolling_exact (groups : List (List String)) (m : ℕ) :
    pickByWeightedPolling Rounding.exact groups m 1 =
      QueryPrompt.pickByWeightedPolling groups m := by
  match groups with
  | [] => rfl
  | [group] =>
    rcases Nat.eq_zero_or_pos m with rfl | hm
    · rfl
    · have hpos : ¬ (m : ℤ) ≤ 0 := by omega
      simp only [pickByWeightedPolling,QueryPrompt.pickByWeightedPolling,hpos,if_false,
        cons_ne_nil,Int.toNat_natCast]
  | group :: group' :: groups =>
    rcases Nat.eq_zero_or_pos m with rfl | hm
    · rfl
    · have hpos : ¬ (m : ℤ) ≤ 0 := by omega
      have hround : firstRound (expectedCount Rounding.exact m 1
          (group :: group' :: groups).length) 0 (group :: group' :: groups) =
          QueryPrompt.firstRound m (group :: group' :: groups).length 0
            (group :: group' :: groups) := firstRound_exact hm (by simp) (by simp)
      simp only [pickByWeightedPolling,QueryPrompt.pickByWeightedPolling,hpos,if_false,
        cons_ne_nil,hround,hm.ne']

end LightRAG.WeightedPolling
