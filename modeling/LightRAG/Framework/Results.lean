import Mathlib.Data.List.Forall2

/-!
# Loops that can fail

What a loop in `Except` gives when it does not fail.
-/

namespace LightRAG.Results
open List Except

variable {ε α β σ : Type}
variable {f : α → Except ε β}

theorem bind_ok {x : Except ε α} {b : β} (h : (x >>= f) = .ok b) :
    ∃ a, x = .ok a ∧ f a = .ok b := by
  cases x with
  | error _ => exact nomatch h
  | ok a => exact ⟨a,rfl,h⟩

theorem map_ok {x : Except ε α} {f : α → β} {b : β} (h : x.map f = .ok b) :
    ∃ a, x = .ok a ∧ f a = b := by
  cases x with
  | error _ => exact nomatch h
  | ok a => exact ⟨a,rfl,ok.inj h⟩

theorem map_error {x : Except ε α} {f : α → β} {e : ε} (h : x.map f = .error e) : x = .error e := by
  cases x with
  | error e' => rw [error.inj h]
  | ok a => exact nomatch h

variable {xs : List α} {ys : List β}

theorem mapM_ok (h : xs.mapM f = .ok ys) :
    List.Forall₂ (fun x y => f x = .ok y) xs ys := by
  induction xs generalizing ys with
  | nil =>
    obtain rfl := ok.inj h
    exact .nil
  | cons x xs ih =>
    rw [mapM_cons] at h
    obtain ⟨y,hy,h⟩ := bind_ok h
    obtain ⟨zs,hzs,h⟩ := bind_ok h
    obtain rfl := ok.inj h
    exact .cons hy (ih hzs)

theorem mapM_fails :
    (∃ e, xs.mapM f = .error e) ↔ ∃ x ∈ xs, ∃ e, f x = .error e := by
  induction xs with
  | nil => simp [pure,Except.pure]
  | cons x xs ih =>
    rw [mapM_cons]
    cases hx : f x with
    | error e => simp [bind,Except.bind,hx]
    | ok y =>
      cases hxs : xs.mapM f with
      | error e =>
        rw [hxs] at ih
        simpa [bind,Except.bind,hx] using ih
      | ok ys =>
        rw [hxs] at ih
        simpa [bind,Except.bind,pure,Except.pure,hx] using ih
theorem mapM_mem (h : xs.mapM f = .ok ys) {y : β} :
    y ∈ ys ↔ ∃ x ∈ xs, f x = .ok y := by
  have hall := mapM_ok h
  clear h
  induction hall with
  | nil => simp
  | @cons x z xs zs hxz _ ih =>
    have hhead : y = z ↔ f x = .ok y := by
      rw [hxz,ok.injEq,eq_comm]
    simp only [mem_cons,exists_eq_or_imp,ih,hhead]

theorem forall₂_mem {R : α → β → Prop} (h : List.Forall₂ R xs ys) :
    List.Forall₂ (fun x y => x ∈ xs ∧ R x y) xs ys := by
  induction h with
  | nil => exact .nil
  | cons hxy _ ih =>
    exact .cons ⟨mem_cons_self,hxy⟩ (ih.imp fun _ _ h => ⟨mem_cons_of_mem _ h.1,h.2⟩)

theorem exists_of_mem {R : α → β → Prop} (h : List.Forall₂ R xs ys)
    {x : α} (hx : x ∈ xs) : ∃ y, R x y := by
  induction h with
  | nil => cases hx
  | cons hxy _ ih =>
    rcases mem_cons.mp hx with rfl | hx
    · exact ⟨_,hxy⟩
    · exact ih hx

theorem foldlM_ok {f : σ → α → Except ε σ} {s t : σ} (inv : σ → Prop)
    (hstep : ∀ s x t, x ∈ xs → inv s → f s x = .ok t → inv t) (hs : inv s)
    (h : xs.foldlM f s = .ok t) : inv t := by
  induction xs generalizing s with
  | nil =>
    obtain rfl := ok.inj h
    exact hs
  | cons x xs ih =>
    obtain ⟨u,hu,h⟩ := bind_ok h
    exact ih (fun s x t hx => hstep s x t (mem_cons_of_mem _ hx))
      (hstep s x u mem_cons_self hs hu) h

theorem foldlM_done {f : σ → α → Except ε σ} {s t : σ} (Done : α → σ → Prop)
    (hstep : ∀ x ∈ xs, ∀ s t, f s x = .ok t → Done x t)
    (hkeep : ∀ x y s t, Done x s → f s y = .ok t → Done x t) (h : xs.foldlM f s = .ok t) :
    ∀ x ∈ xs, Done x t := by
  induction xs generalizing s with
  | nil => exact fun x hx => absurd hx not_mem_nil
  | cons x xs ih =>
    obtain ⟨u,hu,hrest⟩ := bind_ok h
    intro y hy
    rcases mem_cons.mp hy with rfl | hy
    · exact foldlM_ok (Done y) (fun s z t _ hs ht => hkeep y z s t hs ht)
        (hstep y mem_cons_self s u hu) hrest
    · exact ih (fun z hz => hstep z (mem_cons_of_mem _ hz)) hrest y hy

theorem foldlM_ok_iff {f : σ → α → Except ε σ} {s : σ} {Apart : α → α → Prop}
    {Ready Done : α → σ → Prop}
    (hstep : ∀ x ∈ xs, ∀ s, (∃ t, f s x = .ok t ∧ Done x t) ↔ Ready x s)
    (hready : ∀ x y s t, Apart x y → f s x = .ok t → (Ready y t ↔ Ready y s))
    (hdone : ∀ x y s t, Apart x y → f s y = .ok t → (Done x t ↔ Done x s))
    (hapart : xs.Pairwise Apart) :
    (∃ t, xs.foldlM f s = .ok t ∧ ∀ x ∈ xs, Done x t) ↔ ∀ x ∈ xs, Ready x s := by
  induction xs generalizing s with
  | nil =>
    constructor
    · exact fun _ x hx => absurd hx not_mem_nil
    · exact fun _ => ⟨s,rfl,fun x hx => absurd hx not_mem_nil⟩
  | cons x xs ih =>
    obtain ⟨hhead,htail⟩ := pairwise_cons.mp hapart
    have hlater : ∀ ys : List α, (∀ y ∈ ys, Apart x y) → ∀ u t, ys.foldlM f u = .ok t →
        (Done x t ↔ Done x u) := by
      intro ys
      induction ys with
      | nil =>
        intro _ u t ht
        obtain rfl := ok.inj ht
        rfl
      | cons y ys ihy =>
        intro hys u t ht
        obtain ⟨v,hv,ht⟩ := bind_ok ht
        rw [ihy (fun z hz => hys z (mem_cons_of_mem _ hz)) v t ht]
        exact hdone x y u v (hys y mem_cons_self) hv
    have ih' := fun u => ih (s := u) (fun y hy => hstep y (mem_cons_of_mem _ hy)) htail
    constructor
    · rintro ⟨t,ht,hall⟩
      obtain ⟨u,hu,ht⟩ := bind_ok ht
      have hfirst := (hlater xs hhead u t ht).mp (hall x mem_cons_self)
      have hrest := (ih' u).mp ⟨t,ht,fun y hy => hall y (mem_cons_of_mem _ hy)⟩
      intro y hy
      rcases mem_cons.mp hy with rfl | hy
      · exact (hstep y mem_cons_self s).mp ⟨u,hu,hfirst⟩
      · exact (hready x y s u (hhead y hy) hu).mp (hrest y hy)
    · intro hall
      obtain ⟨u,hu,hfirst⟩ := (hstep x mem_cons_self s).mpr (hall x mem_cons_self)
      have hrest : ∀ y ∈ xs, Ready y u := fun y hy =>
        (hready x y s u (hhead y hy) hu).mpr (hall y (mem_cons_of_mem _ hy))
      obtain ⟨t,ht,hdones⟩ := (ih' u).mpr hrest
      refine ⟨t,?_,?_⟩
      · rw [foldlM_cons,hu]
        exact ht
      · intro y hy
        rcases mem_cons.mp hy with rfl | hy
        · exact (hlater xs hhead u t ht).mpr hfirst
        · exact hdones y hy

end LightRAG.Results
