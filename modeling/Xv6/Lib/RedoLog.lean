import Mathlib

/-!
# `RedoLog` — installing a list of writes

A log is a list of writes `(b, x)`. Installing it is a left fold of updates, so a later write to the same
place wins. The lemmas say what an installed log shows at a place and that installing is insensitive to
what its own places held before, which is what makes a redo log safe to replay.
-/

namespace RedoLog

variable {B X : Type*} [DecidableEq B] {es : List (B × X)} {d d' : B → X} {b : B}

def install (es : List (B × X)) (d : B → X) : B → X :=
  es.foldl (fun d e => Function.update d e.1 e.2) d

@[simp] theorem install_nil (d : B → X) : install [] d = d := rfl

@[simp] theorem install_cons (e : B × X) (es : List (B × X)) (d : B → X) :
    install (e :: es) d = install es (Function.update d e.1 e.2) := rfl

theorem install_append (es fs : List (B × X)) (d : B → X) :
    install (es ++ fs) d = install fs (install es d) := List.foldl_append

/-- A place that is not written keeps its value. -/
theorem install_of_notMem (h : b ∉ es.map Prod.fst) : install es d b = d b := by
  induction es generalizing d with
  | nil => rfl
  | cons e es ih =>
      rw [List.map_cons, List.mem_cons, not_or] at h
      rw [install_cons, ih h.2, Function.update_of_ne h.1]

/-- What the places of the log held before does not matter. -/
theorem install_congr (h : d b = d' b ∨ b ∈ es.map Prod.fst) : install es d b = install es d' b := by
  induction es generalizing d d' with
  | nil => exact h.resolve_right (by simp)
  | cons e es ih =>
      rw [install_cons, install_cons]
      apply ih
      by_cases hb : b = e.1
      · left
        rw [hb, Function.update_self, Function.update_self]
      · rw [Function.update_of_ne hb, Function.update_of_ne hb]
        refine h.imp id fun hm => ?_
        exact (List.mem_cons.mp hm).resolve_left hb

/-- The last write to a place is the one that shows. -/
theorem install_last {x : B × X} {fs : List (B × X)} (h : x.1 ∉ fs.map Prod.fst) :
    install (es ++ x :: fs) d x.1 = x.2 := by
  rw [install_append, install_cons, install_of_notMem h, Function.update_self]

end RedoLog
