import Mathlib.Data.List.Basic

/-!
# Text predicates

The character classes and the splitting that checks on short identifiers are written with,
on the code points of a string.
-/

namespace LightRAG.Text
open List

/-- The code points that `str.isspace` accepts. -/
def isSpace (c : Char) : Bool :=
  let n := c.toNat
  (9 ≤ n && n ≤ 13) || (28 ≤ n && n ≤ 32) || n = 0x85 || n = 0xA0 || n = 0x1680 ||
    (0x2000 ≤ n && n ≤ 0x200A) || n = 0x2028 || n = 0x2029 || n = 0x202F || n = 0x205F ||
    n = 0x3000

/-- `not value.strip()`. -/
def isBlank (s : String) : Bool := s.toList.all isSpace

def strip (s : String) : String :=
  String.ofList ((s.toList.dropWhile isSpace).reverse.dropWhile isSpace).reverse

/-- `[A-Za-z0-9_.-]`. -/
def isWord (c : Char) : Bool :=
  ('A' ≤ c && c ≤ 'Z') || ('a' ≤ c && c ≤ 'z') || ('0' ≤ c && c ≤ '9') || c = '_' || c = '.' ||
    c = '-'

/-- `[0-9]`. -/
def isDigit (c : Char) : Bool := '0' ≤ c && c ≤ '9'

/-- `[a-f0-9]`. -/
def isHex (c : Char) : Bool := isDigit c || ('a' ≤ c && c ≤ 'f')

/-- `str.split` with one separator, on characters. -/
def split (separator : Char) : List Char → List (List Char)
  | [] => [[]]
  | c :: cs =>
    match split separator cs with
    | [] => [[c]]
    | field :: fields => if c = separator then [] :: field :: fields else (c :: field) :: fields

/-- `int` of a string of digits. -/
def toNat (digits : List Char) : Nat :=
  digits.foldl (fun n c => 10 * n + (c.toNat - '0'.toNat)) 0

def isRun (p : Char → Bool) (cs : List Char) : Bool := !cs.isEmpty && cs.all p

theorem forall_mem {p : Char → Prop} [DecidablePred p] {s : List Char}
    (h : (s.all fun c => p c) = true) : ∀ c ∈ s, p c := by
  simpa using h

theorem strip_eq_self {s : String} (hhead : ∀ c, s.toList.head? = some c → isSpace c = false)
    (hlast : ∀ c, s.toList.getLast? = some c → isSpace c = false) : strip s = s := by
  have hstart : s.toList.dropWhile isSpace = s.toList := by
    cases hs : s.toList with
    | nil => rfl
    | cons c cs =>
      rw [hs] at hhead
      simp [hhead c rfl]
  have hend : s.toList.reverse.dropWhile isSpace = s.toList.reverse := by
    cases hs : s.toList.reverse with
    | nil => rfl
    | cons c cs =>
      have hc : s.toList.getLast? = some c := by
        rw [← List.head?_reverse,hs]
        rfl
      simp [hlast c hc]
  rw [strip,hstart,hend,reverse_reverse,String.ofList_toList]

theorem head_dropWhile {p : Char → Bool} {cs : List Char} {c : Char}
    (h : (cs.dropWhile p).head? = some c) : p c = false := by
  induction cs with
  | nil => cases h
  | cons d cs ih =>
    rw [dropWhile_cons] at h
    split at h
    · exact ih h
    · rename_i hd
      obtain rfl := Option.some.inj h
      simpa using hd

theorem head_strip {s : String} {c : Char} (hc : (strip s).toList.head? = some c) :
    isSpace c = false := by
  rw [strip,String.toList_ofList] at hc
  rw [List.head?_reverse] at hc
  obtain ⟨dropped,hdropped⟩ :=
    dropWhile_suffix isSpace (l := (s.toList.dropWhile isSpace).reverse)
  have hlast : (s.toList.dropWhile isSpace).reverse.getLast? = some c := by
    rw [← hdropped,List.getLast?_append,hc,Option.some_or]
  rw [List.getLast?_reverse] at hlast
  exact head_dropWhile hlast

theorem last_strip {s : String} {c : Char} (hc : (strip s).toList.getLast? = some c) :
    isSpace c = false := by
  rw [strip,String.toList_ofList,List.getLast?_reverse] at hc
  exact head_dropWhile hc

theorem strip_strip (s : String) : strip (strip s) = strip s :=
  strip_eq_self (fun _ hc => head_strip hc) fun _ hc => last_strip hc

section Split

variable {c : Char} {a b s : List Char}

theorem split_ne_nil (c : Char) (s : List Char) : split c s ≠ [] := by
  induction s with
  | nil => simp [split]
  | cons d s ih =>
    obtain ⟨field,fields,heq⟩ := exists_cons_of_ne_nil ih
    rw [split,heq]
    dsimp only
    split <;> simp

theorem split_of_not_mem (h : c ∉ s) : split c s = [s] := by
  induction s with
  | nil => rfl
  | cons d s ih =>
    rw [mem_cons,not_or] at h
    rw [split,ih h.2]
    exact if_neg (Ne.symm h.1)

theorem split_append (h : c ∉ a) : split c (a ++ c :: b) = a :: split c b := by
  induction a with
  | nil =>
    obtain ⟨field,fields,heq⟩ := exists_cons_of_ne_nil (split_ne_nil c b)
    rw [nil_append,split,heq]
    exact if_pos rfl
  | cons d a ih =>
    rw [mem_cons,not_or] at h
    rw [cons_append,split,ih h.2]
    exact if_neg (Ne.symm h.1)

theorem not_mem_split {part : List Char} (h : part ∈ split c s) : c ∉ part := by
  induction s generalizing part with
  | nil =>
    obtain rfl := mem_singleton.mp h
    exact not_mem_nil
  | cons d s ih =>
    obtain ⟨field,fields,heq⟩ := exists_cons_of_ne_nil (split_ne_nil c s)
    rw [heq] at ih
    rw [split,heq] at h
    dsimp only at h
    split at h
    · rcases mem_cons.mp h with rfl | h
      · exact not_mem_nil
      · exact ih h
    · rename_i hd
      rcases mem_cons.mp h with rfl | h
      · rw [mem_cons,not_or]
        exact ⟨Ne.symm hd,ih mem_cons_self⟩
      · exact ih (mem_cons_of_mem _ h)

end Split

end LightRAG.Text

/-!
## Trimming

What is left of a list without the elements of a class at its ends.
-/

namespace LightRAG.Trim
open List

variable {α : Type} (p : α → Bool) {a b s : List α} {c : α}

def rtrim (s : List α) : List α := (s.reverse.dropWhile p).reverse

def trim (s : List α) : List α := rtrim p (s.dropWhile p)

variable {p}

theorem dropWhile_append_cons (hc : p c = false) :
    (a ++ c :: b).dropWhile p = a.dropWhile p ++ c :: b := by
  induction a with
  | nil => simp [hc]
  | cons d a ih =>
    cases hd : p d
    · simp [hd]
    · simp [hd,ih]

theorem rtrim_append_cons (hc : p c = false) : rtrim p (a ++ c :: b) = a ++ c :: rtrim p b := by
  rw [rtrim,reverse_append,reverse_cons,append_assoc,singleton_append,
    dropWhile_append_cons hc,reverse_append,reverse_cons,rtrim]
  simp

theorem trim_append_cons (hc : p c = false) :
    trim p (a ++ c :: b) = a.dropWhile p ++ c :: rtrim p b := by
  rw [trim,dropWhile_append_cons hc,rtrim_append_cons hc]

theorem dropWhile_eq_nil : s.dropWhile p = [] ↔ s.all p = true := by
  induction s with
  | nil => simp
  | cons e s ih => cases he : p e <;> simp [he,ih]

theorem rtrim_eq_nil : rtrim p s = [] ↔ s.all p = true := by
  rw [rtrim,reverse_eq_nil_iff,dropWhile_eq_nil,all_reverse]

theorem rtrim_sublist (s : List α) : (rtrim p s).Sublist s := by
  rw [rtrim,← reverse_sublist,reverse_reverse]
  exact dropWhile_sublist p

theorem trim_sublist (s : List α) : (trim p s).Sublist s :=
  (rtrim_sublist _).trans (dropWhile_sublist p)

theorem exists_trim (s : List α) :
    ∃ before after, s = before ++ trim p s ++ after ∧ before.all p = true ∧ after.all p = true := by
  have hsplit : ∀ t : List α, t = t.takeWhile p ++ t.dropWhile p := by
    intro t
    rw [takeWhile_append_dropWhile]
  have htake : ∀ t : List α, (t.takeWhile p).all p = true := by
    intro t
    exact all_takeWhile
  refine ⟨s.takeWhile p,((s.dropWhile p).reverse.takeWhile p).reverse,?_,htake s,?_⟩
  · have hback := congrArg List.reverse (hsplit (s.dropWhile p).reverse)
    rw [reverse_reverse,reverse_append] at hback
    rw [trim,rtrim,append_assoc,← hback]
    exact hsplit s
  · rw [all_reverse]
    exact htake _

theorem not_head_dropWhile {d : α} (h : (s.dropWhile p).head? = some d) : p d = false := by
  induction s with
  | nil => cases h
  | cons e s ih =>
    cases he : p e
    · rw [dropWhile_cons_of_neg (by simp [he])] at h
      rw [← Option.some.inj h,he]
    · rw [dropWhile_cons_of_pos he] at h
      exact ih h

theorem dropWhile_self (h : ∀ d, s.head? = some d → p d = false) : s.dropWhile p = s := by
  cases s with
  | nil => rfl
  | cons e s => rw [dropWhile_cons_of_neg (by simp [h e rfl])]

theorem head_rtrim {d : α} (h : (rtrim p s).head? = some d) : s.head? = some d := by
  obtain ⟨after,hafter⟩ : ∃ after, s = rtrim p s ++ after := by
    refine ⟨(s.reverse.takeWhile p).reverse,?_⟩
    rw [rtrim,← reverse_append,takeWhile_append_dropWhile,reverse_reverse]
  rw [hafter,List.head?_append,h,Option.some_or]

theorem rtrim_rtrim (s : List α) : rtrim p (rtrim p s) = rtrim p s := by
  rw [rtrim,rtrim,reverse_reverse,dropWhile_self fun d hd => not_head_dropWhile hd]

theorem trim_trim (s : List α) : trim p (trim p s) = trim p s := by
  have hhead : ∀ d, (trim p s).head? = some d → p d = false :=
    fun d hd => not_head_dropWhile (head_rtrim hd)
  rw [trim,dropWhile_self hhead,trim,rtrim_rtrim]

end LightRAG.Trim
