import Mathlib.Data.Finset.Basic

/-!
# Iterations over a set that changes

An iteration returns names in pages, some perhaps repeatedly. A name that is present throughout is
returned; one that comes or goes in between may be missed.
-/

namespace LightRAG

/-- An iteration: the names at its start, and those of them that have not been returned. -/
structure Scan (α : Type) where
  start : Finset α
  missing : Finset α
deriving DecidableEq

namespace Scan

variable {α : Type}

def begin (present : Finset α) : Scan α := ⟨present, present⟩

def page [DecidableEq α] (s : Scan α) (names : List α) : Scan α := { s with missing := s.missing \ names.toFinset }

/-- What a page may hold, while `present` are the names in the set. -/
def Promise (s : Scan α) (present : Finset α) (names : List α) (last : Bool) : Prop :=
  (∀ n ∈ names, n ∈ s.start) ∧ (last = true → ∀ n ∈ s.missing, n ∈ present → n ∈ names)

instance [DecidableEq α] (s : Scan α) (present : Finset α) (names : List α) (last : Bool) :
    Decidable (s.Promise present names last) :=
  inferInstanceAs (Decidable (_ ∧ _))

/-- A loop that handles the names of each page: the present names that need handling were there at
the start, and are in the batch or have not been returned. -/
structure Covers (s : Scan α) (due : Finset α) (batch : List α) : Prop where
  known : ∀ n ∈ due, n ∈ s.start
  waiting : ∀ n ∈ due, n ∈ s.missing ∨ n ∈ batch

variable {s : Scan α} {present due due' : Finset α} {names batch : List α} {last : Bool} {n : α}

theorem covers_begin : (begin due).Covers due [] := ⟨fun _ h => h,fun _ h => .inl h⟩

theorem Covers.handle (h : s.Covers due batch) (hsub : ∀ n ∈ due', n ∈ due)
    {batch' : List α} (hhandled : ∀ n ∈ due', n ∈ batch → n ∈ batch') : s.Covers due' batch' := by
  refine ⟨fun n hn => h.known n (hsub n hn),?_⟩
  intro n hn
  obtain hmissing | hbatch := h.waiting n (hsub n hn)
  · exact .inl hmissing
  · exact .inr (hhandled n hn hbatch)

theorem Covers.eq_empty (h : s.Covers due []) (hlast : ∀ n ∈ due, n ∉ s.missing) : due = ∅ := by
  rw [Finset.eq_empty_iff_forall_notMem]
  intro n hn
  obtain hmissing | hbatch := h.waiting n hn
  · exact hlast n hn hmissing
  · cases hbatch

theorem Promise.found (h : (begin present).Promise present names last) (hne : names ≠ []) :
    present ≠ ∅ := by
  obtain ⟨n,names,rfl⟩ := List.exists_cons_of_ne_nil hne
  exact Finset.ne_empty_of_mem (h.1 n List.mem_cons_self)

theorem Promise.absent (h : (begin present).Promise present [] true) : present = ∅ := by
  rw [Finset.eq_empty_iff_forall_notMem]
  intro n hn
  have hin := h.2 rfl n hn hn
  cases hin

section

variable [DecidableEq α]

theorem mem_missing_page : n ∈ (s.page names).missing ↔ n ∈ s.missing ∧ n ∉ names := by
  simp [page]

theorem Covers.page (h : s.Covers due []) (names : List α) : (s.page names).Covers due names := by
  refine ⟨h.known,?_⟩
  intro n hn
  rw [mem_missing_page]
  by_cases hin : n ∈ names
  · exact .inr hin
  · obtain hmissing | hbatch := h.waiting n hn
    · exact .inl ⟨hmissing,hin⟩
    · cases hbatch

theorem Promise.missing_page (h : s.Promise present names true) :
    ∀ n ∈ present, n ∉ (s.page names).missing := by
  intro n hn hmissing
  rw [mem_missing_page] at hmissing
  exact hmissing.2 (h.2 rfl n hmissing.1 hn)

end

end Scan

end LightRAG
