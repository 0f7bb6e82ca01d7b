import Mathlib

/-!
# `Trace` — runs of a machine with labelled, deterministic steps

A machine is a partial function `step : σ → α → Option σ`: the label carries every choice (which thread
moves, what the environment answers), so a run is a list of labels and can be evaluated. The two
induction rules below are the only way the developments on top of this module reason about runs:
`run_history` for facts that relate the state to the labels taken so far, `run_invariant` for facts about
the state alone.
-/

namespace Trace

variable {σ α : Type*}

/-- Take the labels from left to right; `none` as soon as one is not enabled. -/
def run (step : σ → α → Option σ) : σ → List α → Option σ
  | s, [] => some s
  | s, a :: as => (step s a).bind fun t => run step t as

variable {step : σ → α → Option σ}

@[simp] theorem run_nil (s : σ) : run step s [] = some s := rfl

theorem run_cons (s : σ) (a : α) (as : List α) :
    run step s (a :: as) = (step s a).bind fun t => run step t as := rfl

theorem run_append (s : σ) (as bs : List α) :
    run step s (as ++ bs) = (run step s as).bind fun t => run step t bs := by
  induction as generalizing s with
  | nil => rfl
  | cons a as ih =>
      simp only [List.cons_append, run_cons]
      cases step s a with
      | none => rfl
      | some t => simpa using ih t

/-- A run that ends with `a` is a shorter run followed by one step. -/
theorem run_snoc_eq_some {s u : σ} {as : List α} {a : α} :
    run step s (as ++ [a]) = some u ↔ ∃ t, run step s as = some t ∧ step t a = some u := by
  rw [run_append, Option.bind_eq_some_iff]
  refine exists_congr fun t => and_congr_right fun _ => ?_
  simp [run_cons]

/-- **The history rule.** A relation between the labels taken and the state reached holds along every
    run if it holds at the start and each enabled step keeps it. -/
theorem run_history {P : List α → σ → Prop} {s₀ : σ} (h0 : P [] s₀)
    (hstep : ∀ as s a t, run step s₀ as = some s → P as s → step s a = some t → P (as ++ [a]) t) :
    ∀ {as : List α} {s : σ}, run step s₀ as = some s → P as s := by
  intro as
  induction as using List.reverseRecOn with
  | nil => intro s hs; cases hs; exact h0
  | append_singleton as a ih =>
      intro u hu
      obtain ⟨t, ht, hta⟩ := run_snoc_eq_some.mp hu
      exact hstep as t a u ht (ih ht) hta

/-- **The invariant rule.** -/
theorem run_invariant {I : σ → Prop} {s₀ : σ} (h0 : I s₀)
    (hstep : ∀ s a t, I s → step s a = some t → I t) :
    ∀ {as : List α} {s : σ}, run step s₀ as = some s → I s :=
  run_history (P := fun _ s => I s) h0 fun _ s a t _ hI hs => hstep s a t hI hs

/-- Every step of the run from `s` meets the condition `C` in the state it is taken in. -/
def Along (step : σ → α → Option σ) (C : σ → α → Prop) : σ → List α → Prop
  | _, [] => True
  | s, a :: as => C s a ∧ match step s a with
    | some t => Along step C t as
    | none => True

/-- A condition that the labels alone guarantee. -/
theorem along_of_forall {C : σ → α → Prop} {as : List α} (h : ∀ a ∈ as, ∀ s, C s a) :
    ∀ s, Along step C s as := by
  induction as with
  | nil => exact fun _ => trivial
  | cons a as ih =>
      intro s
      refine ⟨h a List.mem_cons_self s, ?_⟩
      cases step s a with
      | none => trivial
      | some t => exact ih (fun b hb => h b (List.mem_cons_of_mem a hb)) t

/-- **The invariant rule for conditioned runs.** -/
theorem run_invariant_along {C : σ → α → Prop} {I : σ → Prop}
    (hstep : ∀ s a t, I s → C s a → step s a = some t → I t) :
    ∀ {as : List α} {s₀ s : σ}, I s₀ → Along step C s₀ as → run step s₀ as = some s → I s := by
  intro as
  induction as with
  | nil => intro s₀ s h0 _ hr; cases hr; exact h0
  | cons a as ih =>
      intro s₀ s h0 hC hr
      obtain ⟨t, ht, hr'⟩ := Option.bind_eq_some_iff.mp hr
      obtain ⟨hCa, hrest⟩ := hC
      rw [ht] at hrest
      exact ih (hstep s₀ a t h0 hCa ht) hrest hr'

/-- **Two conditions that mean the same** in the states that the second leads to. -/
theorem along_congr {C D : σ → α → Prop} {I : σ → Prop} (hCD : ∀ s a, I s → (C s a ↔ D s a))
    (hstep : ∀ s a t, I s → D s a → step s a = some t → I t) :
    ∀ {as : List α} {s : σ}, I s → (Along step C s as ↔ Along step D s as) := by
  intro as
  induction as with
  | nil => exact fun _ => Iff.rfl
  | cons a as ih =>
      intro s hs
      simp only [Along]
      refine (and_congr_left' (hCD s a hs)).trans (and_congr_right fun hD => ?_)
      cases hst : step s a with
      | none => exact Iff.rfl
      | some t => exact ih (hstep s a t hs hD hst)

theorem along_of_append {C : σ → α → Prop} {as bs : List α} :
    ∀ {s : σ}, Along step C s (as ++ bs) → Along step C s as := by
  induction as with
  | nil => exact fun _ => trivial
  | cons a as ih =>
      intro s h
      obtain ⟨hC, hrest⟩ := h
      refine ⟨hC, ?_⟩
      cases hst : step s a with
      | none => trivial
      | some t =>
          rw [hst] at hrest
          exact ih hrest

theorem along_snoc {C : σ → α → Prop} {as : List α} {a : α} :
    ∀ {s₀ s : σ}, run step s₀ as = some s →
      (Along step C s₀ (as ++ [a]) ↔ Along step C s₀ as ∧ C s a) := by
  induction as with
  | nil =>
      intro s₀ s hr
      cases hr
      show (C s₀ a ∧ _) ↔ True ∧ C s₀ a
      cases step s₀ a <;> simp [Along]
  | cons b as ih =>
      intro s₀ s hr
      obtain ⟨t, ht, hr'⟩ := Option.bind_eq_some_iff.mp hr
      simp only [List.cons_append, Along, ht]
      rw [ih hr', and_assoc]

/-! ## Flow

What a run puts out is the concatenation of what its steps put out. -/

/-- The output of the steps of a run, up to the first one that is not enabled. -/
def output {γ : Type*} (step : σ → α → Option σ) (out : σ → α → List γ) : σ → List α → List γ
  | _, [] => []
  | s, a :: as => match step s a with
    | some t => out s a ++ output step out t as
    | none => []

theorem output_filter {γ : Type*} (p : γ → Bool) (out : σ → α → List γ) (as : List α) :
    ∀ s, (output step out s as).filter p = output step (fun s a => (out s a).filter p) s as := by
  induction as with
  | nil => exact fun _ => rfl
  | cons a as ih =>
      intro s
      rw [output, output]
      cases step s a with
      | none => rfl
      | some t => exact (List.filter_append _ _).trans (congrArg _ (ih t))

/-- **Conservation.** If each step puts what comes in behind the contents of the state and takes what goes out
    from the front, then so does a run. -/
theorem run_flow {γ : Type*} {inn out : σ → α → List γ} {contents : σ → List γ} {I : σ → Prop}
    (hI : ∀ s a t, I s → step s a = some t → I t)
    (hstep : ∀ s a t, I s → step s a = some t → contents s ++ inn s a = out s a ++ contents t) :
    ∀ {as : List α} {s t : σ}, I s → run step s as = some t →
      contents s ++ output step inn s as = output step out s as ++ contents t := by
  intro as
  induction as with
  | nil =>
      intro s t _ hr
      cases hr
      exact List.append_nil _
  | cons a as ih =>
      intro s u hs hr
      obtain ⟨t, ht, hr'⟩ := Option.bind_eq_some_iff.mp hr
      simp only [output, ht]
      rw [← List.append_assoc, hstep s a t hs ht, List.append_assoc, ih (hI s a t hs ht) hr', List.append_assoc]

/-! ## Simulation

A second machine follows the first through an abstraction function; the label it takes may depend on the
state the first is in. -/

variable {τ β : Type*} {step' : τ → β → Option τ}

/-- **A simulated run.** If each step of the machine is a step of the abstract one, and the two steps meet
    their conditions together, then a run is an abstract run, and the two meet their conditions together. -/
theorem run_simulation {I : σ → Prop} {C : σ → α → Prop} {D : τ → β → Prop} (abs : σ → τ)
    (hI : ∀ s a t, I s → step s a = some t → I t)
    (hsim : ∀ s a t, I s → step s a = some t →
      ∃ b, step' (abs s) b = some (abs t) ∧ (C s a ↔ D (abs s) b)) :
    ∀ {as : List α} {s₀ s : σ}, I s₀ → run step s₀ as = some s →
      ∃ bs, run step' (abs s₀) bs = some (abs s) ∧
        (Along step C s₀ as ↔ Along step' D (abs s₀) bs) := by
  intro as
  induction as with
  | nil =>
      intro s₀ s _ hr
      cases hr
      exact ⟨[], rfl, Iff.rfl⟩
  | cons a as ih =>
      intro s₀ s h0 hr
      obtain ⟨t, ht, hr'⟩ := Option.bind_eq_some_iff.mp hr
      obtain ⟨b, hb, hC⟩ := hsim s₀ a t h0 ht
      obtain ⟨bs, hbs, hAlong⟩ := ih (hI s₀ a t h0 ht) hr'
      refine ⟨b :: bs, ?_, ?_⟩
      · rw [run_cons, hb]
        exact hbs
      · simp only [Along, ht, hb]
        rw [hC, hAlong]

end Trace
