import Mathlib.Algebra.GroupWithZero.Nat
import Mathlib.Data.Fin.Basic

/-!
# UTF-8

Strings of code points, lone surrogates included, their encoding with every surrogate replaced,
and the decoding of arbitrary bytes that ignores what is malformed.
-/

namespace LightRAG.Utf8
open List Option Bool

abbrev CodePoint := Fin 0x110000

abbrev Str := List CodePoint

instance codePoints_ne_zero : NeZero 0x110000 := ⟨by decide⟩

def ofString (s : String) : Str := s.toList.map fun c => Fin.ofNat _ c.toNat

/-- A surrogate is encoded as a question mark. -/
def encodeOne (c : CodePoint) : List Nat :=
  let n := c.val
  if n < 0x80 then [n]
  else if n < 0x800 then [0xC0 + n / 0x40, 0x80 + n % 0x40]
  else if 0xD800 ≤ n ∧ n < 0xE000 then [0x3F]
  else if n < 0x10000 then [0xE0 + n / 0x1000, 0x80 + n / 0x40 % 0x40, 0x80 + n % 0x40]
  else [0xF0 + n / 0x40000, 0x80 + n / 0x1000 % 0x40, 0x80 + n / 0x40 % 0x40, 0x80 + n % 0x40]

/-- `encode("utf-8", errors="replace")`. -/
def encode (s : Str) : List Nat := s.flatMap encodeOne

def size (s : Str) : Nat := (encode s).length

def isTail (b : Nat) : Bool := 0x80 ≤ b && b < 0xC0

/-- The code point the bytes start with and the number of its bytes. -/
def decodeOne : List Nat → Option (CodePoint × Nat)
  | [] => none
  | a :: rest =>
    if a < 0x80 then some (Fin.ofNat _ a, 1)
    else if 0xC2 ≤ a ∧ a < 0xE0 then
      match rest with
      | b :: _ =>
        if isTail b then some (Fin.ofNat _ ((a - 0xC0) * 0x40 + (b - 0x80)), 2) else none
      | _ => none
    else if 0xE0 ≤ a ∧ a < 0xF0 then
      match rest with
      | b :: c :: _ =>
        let n := (a - 0xE0) * 0x1000 + (b - 0x80) * 0x40 + (c - 0x80)
        if isTail b && isTail c && 0x800 ≤ n && !(0xD800 ≤ n && n < 0xE000) then
          some (Fin.ofNat _ n, 3)
        else none
      | _ => none
    else if 0xF0 ≤ a ∧ a < 0xF5 then
      match rest with
      | b :: c :: d :: _ =>
        let n := (a - 0xF0) * 0x40000 + (b - 0x80) * 0x1000 + (c - 0x80) * 0x40 + (d - 0x80)
        if isTail b && isTail c && isTail d && 0x10000 ≤ n && n < 0x110000 then
          some (Fin.ofNat _ n, 4)
        else none
      | _ => none
    else none

/-- Decode after the next `k` bytes. -/
def decodeFrom : Nat → List Nat → Str
  | _, [] => []
  | k + 1, _ :: rest => decodeFrom k rest
  | 0, b :: rest =>
    match decodeOne (b :: rest) with
    | some (c, n) => c :: decodeFrom (n - 1) rest
    | none => decodeFrom 0 rest

/-- `decode("utf-8", errors="ignore")`. Dropping one byte of a malformed sequence at a time drops
all of it, since its other bytes start no code point. -/
def decode (bytes : List Nat) : Str := decodeFrom 0 bytes

theorem size_nil : size [] = 0 := rfl

theorem size_cons (c : CodePoint) (s : Str) : size (c :: s) = (encodeOne c).length + size s := by
  simp [size,encode]

theorem length_encodeOne (c : CodePoint) :
    (encodeOne c).length ≤ if c.val < 0x80 then 1 else if c.val < 0x800 then 2 else
      if c.val < 0x10000 then 3 else 4 := by
  simp only [encodeOne]
  split
  · simp
  · split
    · simp
    · split
      · simp only [length_cons,length_nil]
        split <;> omega
      · split
        · simp
        · simp

theorem length_encodeOne_ofNat {n k : Nat} (hn : n < 0x110000)
    (hk : (n < 0x80 ∧ k = 1) ∨ (n < 0x800 ∧ k = 2) ∨ (n < 0x10000 ∧ k = 3) ∨ k = 4) :
    (encodeOne (Fin.ofNat _ n)).length ≤ k := by
  have hval : (Fin.ofNat 0x110000 n).val = n := Nat.mod_eq_of_lt hn
  have hlength := length_encodeOne (Fin.ofNat 0x110000 n)
  split at hlength
  · omega
  · split at hlength
    · omega
    · split at hlength
      · omega
      · omega

theorem decodeOne_bounds {bytes : List Nat} {c : CodePoint} {k : Nat}
    (h : decodeOne bytes = some (c, k)) :
    1 ≤ k ∧ k ≤ bytes.length ∧ (encodeOne c).length ≤ k := by
  cases bytes with
  | nil => cases h
  | cons a rest =>
    simp only [decodeOne] at h
    split at h
    · obtain ⟨rfl,rfl⟩ := h
      exact ⟨le_rfl,by simp,length_encodeOne_ofNat (by omega) (by omega)⟩
    · split at h
      · split at h
        · split at h
          · rename_i hb
            simp only [isTail,and_eq_true,decide_eq_true_eq] at hb
            simp only [some.injEq,Prod.mk.injEq] at h
            obtain ⟨rfl,rfl⟩ := h
            exact ⟨by omega,by simp,length_encodeOne_ofNat (by omega) (by omega)⟩
          · cases h
        · cases h
      · split at h
        · split at h
          · split at h
            · rename_i hbc
              simp only [isTail,and_eq_true,decide_eq_true_eq] at hbc
              simp only [some.injEq,Prod.mk.injEq] at h
              obtain ⟨rfl,rfl⟩ := h
              exact ⟨by omega,by simp,length_encodeOne_ofNat (by omega) (by omega)⟩
            · cases h
          · cases h
        · split at h
          · split at h
            · split at h
              · rename_i hbcd
                simp only [and_eq_true,decide_eq_true_eq] at hbcd
                simp only [some.injEq,Prod.mk.injEq] at h
                obtain ⟨rfl,rfl⟩ := h
                exact ⟨by omega,by simp,length_encodeOne_ofNat hbcd.2 (by omega)⟩
              · cases h
            · cases h
          · cases h

theorem size_decodeFrom (bytes : List Nat) (k : Nat) (hk : k ≤ bytes.length) :
    size (decodeFrom k bytes) + k ≤ bytes.length := by
  induction bytes generalizing k with
  | nil =>
    rw [decodeFrom,size_nil]
    simpa using hk
  | cons b rest ih =>
    cases k with
    | succ k =>
      have hrest := ih k (by simpa using hk)
      simp only [decodeFrom,length_cons]
      omega
    | zero =>
      simp only [decodeFrom]
      split
      · rename_i c n hone
        obtain ⟨hpos,hle,hbytes⟩ := decodeOne_bounds hone
        rw [length_cons] at hle
        have hrest := ih (n - 1) (by omega)
        rw [size_cons,length_cons]
        omega
      · have hrest := ih 0 (Nat.zero_le _)
        rw [length_cons]
        omega

theorem size_decode (bytes : List Nat) : size (decode bytes) ≤ bytes.length := by
  have hall := size_decodeFrom bytes 0 (Nat.zero_le _)
  rw [decode]
  omega

end LightRAG.Utf8
