import Mathlib.Data.List.Basic

/-!
# File fingerprints

The file half of the fence of the file-backed storages: what the files look like against what the
process recorded when it last loaded or wrote them.
-/

namespace LightRAG.FileFingerprint

/-- For each path `(st_mtime_ns, st_size)`, or `none` if there is no file. -/
abbrev Fingerprint := List (Option (ℕ × ℕ))

/-- What `sample` gives. -/
inductive Sampled
  | unreadable
  | read (fingerprint : Fingerprint)
deriving DecidableEq

/-- The value to record for a sample. -/
def Sampled.adopted : Sampled → Option Fingerprint
  | .unreadable => none
  | .read fingerprint => some fingerprint

def countsAsANewLostNotification (sampled : Sampled) (alreadyCounted : Option Fingerprint) : Bool :=
  match sampled with
  | .unreadable => false
  | .read fingerprint => decide (some fingerprint ≠ alreadyCounted)

/-- The files before the marker are all there and strictly older. -/
def olderThan (markerMtime : ℕ) (committed : Fingerprint) : Bool :=
  committed.all fun entry => entry.any fun stat => decide (stat.1 < markerMtime)

/-- The last path is the commit marker. -/
def publicationComplete (sampled : Fingerprint) : Bool :=
  match sampled.getLast? with
  | none => true
  | some none => sampled.dropLast.all Option.isNone
  | some (some marker) => olderThan marker.1 sampled.dropLast

/-- `multiprocess` is `fence_enabled()`. -/
def divergenceDetected (multiprocess : Bool) (sampled : Sampled) (recorded : Option Fingerprint) :
    Bool :=
  match sampled with
  | .unreadable => false
  | .read fingerprint =>
    multiprocess && decide (some fingerprint ≠ recorded) &&
      (decide (fingerprint.length ≤ 1) || publicationComplete fingerprint)

variable {multiprocess : Bool} {fingerprint : Fingerprint} {recorded : Option Fingerprint}

theorem complete_of_divergence (hpaths : 1 < fingerprint.length)
    (h : divergenceDetected multiprocess (.read fingerprint) recorded = true) :
    publicationComplete fingerprint = true := by
  have hmany : decide (fingerprint.length ≤ 1) = false := decide_eq_false (by omega)
  rw [divergenceDetected,hmany,Bool.and_eq_true] at h
  exact h.2

end LightRAG.FileFingerprint
