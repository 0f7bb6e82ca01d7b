import Xv6.Lib.Trace

/-!
# `Counter` — one unlocked increment against locked decrements

A counter modulo `m` and the number `refs` of references it should show. An update is a load and a later
store of the loaded value plus or minus one. The decrements exclude each other (one can be in flight at a
time); the only increment excludes nobody. `eq_refs_iff` says exactly when the counter is right in the end:
if and only if no store was made between the load and the store of another update.
-/

namespace Counter

/-- The increment: not begun, begun with the loaded value, finished or given up. -/
inductive Inc
  | before
  | loaded (r : Nat)
  | done
deriving DecidableEq

structure State where
  ref : Nat
  refs : Nat
  inc : Inc
  dec : Option Nat
deriving DecidableEq

inductive Act
  | quiet
  | skip
  | incLoad
  | incStore
  | decLoad
  | decStore
deriving DecidableEq

def step (m : Nat) (s : State) : Act → Option State
  | .quiet => some s
  | .skip => if s.inc = .before then some { s with inc := .done } else none
  | .incLoad => if s.inc = .before then some { s with inc := .loaded s.ref } else none
  | .incStore =>
      match s.inc with
      | .loaded r => some { s with ref := (r + 1) % m, refs := s.refs + 1, inc := .done }
      | _ => none
  | .decLoad => if s.dec = none then some { s with dec := some s.ref } else none
  | .decStore =>
      match s.dec, s.refs with
      | some r, refs + 1 => some { s with ref := (r + (m - 1)) % m, refs := refs, dec := none }
      | _, _ => none

/-- The step is no store inside another update. -/
def Exclusive (s : State) : Act → Prop
  | .incStore => s.dec = none
  | .decStore => ∀ r, s.inc ≠ .loaded r
  | _ => True

def init (n : Nat) : State := { ref := n, refs := n, inc := .before, dec := none }

/-! ## The two kinds of states -/

/-- No update has been lost: the counter is right and so is every loaded value. -/
structure Right (s : State) : Prop where
  ref_eq : s.ref = s.refs
  inc_eq : ∀ r, s.inc = .loaded r → r = s.refs
  dec_eq : ∀ r, s.dec = some r → r = s.refs

/-- An update has been lost or is bound to be. -/
inductive Wrong (m B : Nat) (s : State) : Prop
  /-- the increment will write back `d` decrements -/
  | staleInc (r d : Nat) (hinc : s.inc = .loaded r) (hr : r = s.refs + d) (hd : 0 < d) (hB : r ≤ B)
      (href : s.ref = s.refs) (hdec : ∀ r', s.dec = some r' → r' = s.refs)
  /-- a decrement will overwrite the increment -/
  | staleDec (r : Nat) (hinc : s.inc = .done) (hdec : s.dec = some r) (hr : r + 1 = s.refs)
  /-- the counter is off by `e` for good -/
  | off (e : Int) (hinc : s.inc = .done) (he : e = -1 ∨ 0 < e ∧ e ≤ B)
      (href : (s.ref : Int) = (s.refs + e) % m) (hdec : ∀ r, s.dec = some r → r = s.ref)

/-- At most the initial references and one for a finished increment. -/
def Bounded (B : Nat) (s : State) : Prop := s.refs + (if s.inc = .done then 0 else 1) ≤ B + 1

variable {m B : Nat} {s t : State} {a : Act}

theorem bounded_step (h : Bounded B s) (hst : step m s a = some t) : Bounded B t := by
  unfold Bounded at *
  cases a <;> simp only [step] at hst
  case quiet => cases hst; exact h
  case skip => split at hst <;> cases hst; simp_all; omega
  case incLoad => split at hst <;> cases hst; simp_all
  case incStore => split at hst <;> cases hst; simp_all
  case decLoad => split at hst <;> cases hst; simpa using h
  case decStore =>
      split at hst <;> cases hst
      rename_i hrefs
      simp only [hrefs] at h
      exact le_trans (by simp) h

/-- An exclusive step loses nothing. -/
theorem right_step (hm : B + 1 < m) (hb : Bounded B s) (h : Right s) (hx : Exclusive s a)
    (hst : step m s a = some t) : Right t := by
  obtain ⟨href, hinc, hdec⟩ := h
  unfold Bounded at hb
  cases a <;> simp only [step] at hst
  case quiet => cases hst; exact ⟨href, hinc, hdec⟩
  case skip => split at hst <;> cases hst; exact ⟨href, nofun, hdec⟩
  case incLoad =>
      split at hst <;> cases hst
      exact ⟨href, fun r hr => by cases hr; exact href, hdec⟩
  case incStore =>
      split at hst <;> cases hst
      rename_i r hr
      have hrr := hinc r hr
      refine ⟨?_, nofun, fun r' hr' => ?_⟩
      · have hlt : r + 1 < m := by simp [hr] at hb; omega
        show (r + 1) % m = s.refs + 1
        rw [Nat.mod_eq_of_lt hlt, hrr]
      · simp only [Exclusive] at hx
        simp [hx] at hr'
  case decLoad =>
      split at hst <;> cases hst
      exact ⟨href, hinc, fun r hr => by cases hr; exact href⟩
  case decStore =>
      split at hst <;> cases hst
      rename_i r refs hr hrefs
      have hrr := hdec r hr
      refine ⟨?_, fun r' hr' => absurd hr' (hx r'), nofun⟩
      have hlt : refs < m := by omega
      show (r + (m - 1)) % m = refs
      rw [hrr, hrefs, show refs + 1 + (m - 1) = refs + m by omega, Nat.add_mod_right,
        Nat.mod_eq_of_lt hlt]

/-- A store inside another update makes the counter wrong. -/
theorem wrong_of_not_exclusive (hm : B + 1 < m) (hb : Bounded B s) (h : Right s) (hx : ¬Exclusive s a)
    (hst : step m s a = some t) : Wrong m B t := by
  obtain ⟨href, hinc, hdec⟩ := h
  unfold Bounded at hb
  cases a <;> simp only [Exclusive, not_true_eq_false] at hx <;> simp only [step] at hst
  case incStore =>
      split at hst <;> cases hst
      rename_i r hr
      obtain ⟨r', hr'⟩ := Option.ne_none_iff_exists'.mp hx
      exact .staleDec r' rfl hr' (by rw [hdec r' hr'])
  case decStore =>
      split at hst <;> cases hst
      rename_i r refs hr hrefs
      obtain ⟨r', hr'⟩ : ∃ r', s.inc = .loaded r' := by simpa using hx
      have hr'' := hinc r' hr'
      have hlt : refs < m := by omega
      refine .staleInc r' 1 hr' (by rw [hr'', hrefs]) Nat.one_pos ?_ ?_ nofun
      · simp [hr'] at hb; omega
      · show (r + (m - 1)) % m = refs
        rw [hdec r hr, hrefs, show refs + 1 + (m - 1) = refs + m by omega, Nat.add_mod_right,
          Nat.mod_eq_of_lt hlt]

/-- Nothing repairs a wrong counter. -/
theorem wrong_step (hm : B + 1 < m) (hb : Bounded B s) (h : Wrong m B s) (hst : step m s a = some t) :
    Wrong m B t := by
  unfold Bounded at hb
  cases h with
  | staleInc r d hinc hr hd hB href hdec =>
      cases a <;> simp only [step, hinc, reduceCtorEq, if_false] at hst
      case quiet => cases hst; exact .staleInc r d hinc hr hd hB href hdec
      case incStore =>
          cases hst
          cases hdec' : s.dec with
          | some r' => exact .staleDec r' rfl rfl (by rw [hdec r' hdec'])
          | none =>
              refine .off d rfl (Or.inr ⟨by omega, by omega⟩) ?_ nofun
              show (((r + 1) % m : Nat) : Int) = ((s.refs + 1 : Nat) + d) % m
              rw [hr]
              push_cast
              ring_nf
      case decLoad =>
          split at hst <;> cases hst
          exact .staleInc r d rfl hr hd hB href fun r' hr' => by cases hr'; exact href
      case decStore =>
          split at hst <;> cases hst
          rename_i r' refs hr' hrefs
          have hlt : refs < m := by omega
          refine .staleInc r (d + 1) rfl (by show _ = refs + _; omega) (by omega) hB ?_ nofun
          show (r' + (m - 1)) % m = refs
          rw [hdec r' hr', hrefs, show refs + 1 + (m - 1) = refs + m by omega, Nat.add_mod_right,
            Nat.mod_eq_of_lt hlt]
  | staleDec r hinc hdec hr =>
      cases a <;> simp only [step, hinc, hdec, reduceCtorEq, if_false] at hst
      case quiet => cases hst; exact .staleDec r hinc hdec hr
      case decStore =>
          split at hst <;> cases hst
          rename_i r' refs hr' hrefs
          cases hr'
          refine .off (-1) rfl (Or.inl rfl) ?_ nofun
          show (((r + (m - 1)) % m : Nat) : Int) = ((refs : Int) + -1) % m
          have hrr : r = refs := by omega
          rw [hrr]
          push_cast [Nat.cast_sub (show 1 ≤ m by omega)]
          rw [show (refs : Int) + (m - 1) = (refs + -1) + m by ring, Int.add_emod_right]
  | off e hinc he href hdec =>
      cases a <;> simp only [step, hinc, reduceCtorEq, if_false] at hst
      case quiet => cases hst; exact .off e hinc he href hdec
      case decLoad =>
          split at hst <;> cases hst
          exact .off e rfl he href fun r hr => by cases hr; rfl
      case decStore =>
          split at hst <;> cases hst
          rename_i r refs hr hrefs
          refine .off e rfl he ?_ nofun
          show (((r + (m - 1)) % m : Nat) : Int) = ((refs : Int) + e) % m
          rw [hdec r hr]
          push_cast [Nat.cast_sub (show 1 ≤ m by omega)]
          rw [href, Int.emod_add_emod, hrefs]
          push_cast
          rw [show (refs : Int) + 1 + e + (m - 1) = (refs + e) + m by ring, Int.add_emod_right]

/-- The run has lost no update, or the counter is wrong. -/
theorem right_or_wrong (hm : B + 1 < m) {n : Nat} (hn : n ≤ B) {acts : List Act} {s : State}
    (h : Trace.run (step m) (init n) acts = some s) :
    Bounded B s ∧ (Trace.Along (step m) Exclusive (init n) acts ∧ Right s ∨
      ¬Trace.Along (step m) Exclusive (init n) acts ∧ Wrong m B s) := by
  refine Trace.run_history
    (P := fun as s => Bounded B s ∧ (Trace.Along (step m) Exclusive (init n) as ∧ Right s ∨
      ¬Trace.Along (step m) Exclusive (init n) as ∧ Wrong m B s)) ?_ ?_ h
  · refine ⟨by simp [Bounded, init, hn], Or.inl ⟨trivial, rfl, nofun, nofun⟩⟩
  · rintro as s a t hr ⟨hb, hcase⟩ hst
    refine ⟨bounded_step hb hst, ?_⟩
    rw [Trace.along_snoc hr]
    rcases hcase with ⟨hal, hright⟩ | ⟨hal, hwrong⟩
    · by_cases hx : Exclusive s a
      · exact Or.inl ⟨⟨hal, hx⟩, right_step hm hb hright hx hst⟩
      · exact Or.inr ⟨fun hc => hx hc.2, wrong_of_not_exclusive hm hb hright hx hst⟩
    · exact Or.inr ⟨fun hc => hal hc.1, wrong_step hm hb hwrong hst⟩

/-- **When the counter is right in the end.** -/
theorem eq_refs_iff (hm : B + 1 < m) {n : Nat} (hn : n ≤ B) {acts : List Act} {s : State}
    (h : Trace.run (step m) (init n) acts = some s) (hinc : ∀ r, s.inc ≠ .loaded r)
    (hdec : s.dec = none) :
    s.ref = s.refs ↔ Trace.Along (step m) Exclusive (init n) acts := by
  obtain ⟨hb, ⟨hal, hright⟩ | ⟨hal, hwrong⟩⟩ := right_or_wrong hm hn h
  · exact ⟨fun _ => hal, fun _ => hright.ref_eq⟩
  · refine ⟨fun heq => ?_, fun hc => absurd hc hal⟩
    cases hwrong with
    | staleInc r _ hl => exact absurd hl (hinc r)
    | staleDec r _ hl => rw [hdec] at hl; cases hl
    | off e hdone he href _ =>
        -- `e` lies strictly between `-m` and `m` and is not zero
        exfalso
        have hdvd : (m : Int) ∣ e := by
          have hmod : ((s.refs : Int) + e) % m = s.refs % m := by
            rw [← href, heq, Int.emod_eq_of_lt (by omega)]
            simp [Bounded, hdone] at hb
            omega
          have hzero := Int.emod_eq_emod_iff_emod_sub_eq_zero.mp hmod
          rw [add_sub_cancel_left] at hzero
          exact Int.dvd_of_emod_eq_zero hzero
        rcases he with rfl | ⟨hpos, hle⟩
        · have := Int.le_of_dvd Int.one_pos (Int.dvd_neg.mp hdvd)
          omega
        · have := Int.le_of_dvd hpos hdvd
          omega

end Counter
