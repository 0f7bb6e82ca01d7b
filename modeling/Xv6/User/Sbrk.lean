import Xv6.User.Heap
import Xv6.Vm.Model

/-!
# `Sbrk` — `malloc` over the kernel's `sbrk`

The process has a size, which the memory of the machine bounds, and the kernel changes it as `growproc` does. A request
of `nbytes` asks `sbrk` for a number of bytes that is then converted to an `int`. **`malloc_safe_iff`**: `malloc` hands out memory of the process only, and never shrinks
the process, for exactly those requests for which that number is an `int`.
-/

namespace Xv6.User

open Extents (Block)

/-- The bytes of memory of the machine. -/
def MEMORY : Nat := Vm.PHYSTOP - Vm.KERNBASE

/-- A process: its size, and for each further attempt to grow whether the kernel finds the pages. -/
structure Process where
  sz : Nat
  bound : sz ≤ MEMORY
  answers : Nat → Bool

/-- `growproc(n)`, as far as sizes are concerned: sums are 32-bit numbers, growing may fail, and both `uvmalloc` and
    `uvmdealloc` return the old size if the new one lies on the wrong side of it. -/
def growproc (p : Process) (n : Int) : Process × Bool :=
  let newsz := ((p.sz + n) % 2 ^ 32).toNat
  if 0 < n then
    if newsz < p.sz then (p, true)
    else if h : p.answers 0 = true ∧ newsz ≤ MEMORY then (⟨newsz, h.2, fun k => p.answers (k + 1)⟩, true)
    else ({ p with answers := fun k => p.answers (k + 1) }, false)
  else if n < 0 then
    if h : newsz < p.sz then ({ p with sz := newsz, bound := (Nat.le_of_lt h).trans p.bound }, true) else (p, true)
  else (p, true)

/-- The value of `x` as an `int`. -/
def asInt (x : Nat) : Int := if x % 2 ^ 32 < 2 ^ 31 then (x % 2 ^ 32 : Nat) else (x % 2 ^ 32 : Nat) - 2 ^ 32

/-- `sbrk(n)` is `sys_sbrk`: the old size, as an `int`, or -1. A header can be written where the pages of the process are:
    its fields are the first 12 bytes. -/
def processKernel : Kernel Process where
  sbrk p n :=
    let addr := asInt p.sz
    match growproc p (asInt n) with
    | (p, false) => (p, none)
    | (p, true) => (p, if addr = -1 then none else some (addr % 2 ^ 64).toNat)
  writable p a := a + 12 ≤ (p.sz + 4095) / 4096 * 4096

theorem MEMORY_eq : MEMORY = 2 ^ 27 := rfl

theorem asInt_of_lt {x : Nat} (h : x < 2 ^ 31) : asInt x = x := by
  rw [asInt, Nat.mod_eq_of_lt (by omega), if_pos h]

theorem sbrk_eq (p : Process) (n : Nat) :
    processKernel.sbrk p n = ((growproc p (asInt n)).1, if (growproc p (asInt n)).2 then some p.sz else none) := by
  have hb := p.bound
  rw [MEMORY_eq] at hb
  have haddr : asInt p.sz = p.sz := asInt_of_lt (by omega)
  have hne : ¬(p.sz : Int) = -1 := by omega
  have hmod : ((p.sz : Int) % 2 ^ 64).toNat = p.sz := by omega
  rw [processKernel]
  simp only [haddr, hmod]
  generalize growproc p (asInt n) = r
  obtain ⟨p', ok⟩ := r
  cases ok with
  | false => rfl
  | true => simp only [if_neg hne, if_true]

/-- A request that is an `int` is granted in full or not at all. -/
theorem growproc_pos (p : Process) {n : Int} (hn : 0 < n) (hlt : n < 2 ^ 31) :
    (∃ p', growproc p n = (p', true) ∧ p'.sz = p.sz + n.toNat) ∨ ∃ p', growproc p n = (p', false) ∧ p'.sz = p.sz := by
  have hb := p.bound
  rw [MEMORY_eq] at hb
  have hnew : ((p.sz + n) % 2 ^ 32).toNat = p.sz + n.toNat := by omega
  rw [growproc]
  simp only [hnew, if_pos hn]
  rw [if_neg (by omega)]
  by_cases h : p.answers 0 = true ∧ p.sz + n.toNat ≤ MEMORY
  · exact .inl ⟨_, dif_pos h, rfl⟩
  · exact .inr ⟨_, dif_neg h, rfl⟩

/-- The request fits in an `int`. -/
def Fits (nbytes : UInt32) : Prop := atLeast4096 (unitsOf nbytes) * HEADER < 2 ^ 31

theorem processKernel_grants {nu : Nat} (hpos : 0 < nu) (hfit : nu * HEADER < 2 ^ 31) :
    Grants processKernel Process.sz (fun p => p.sz / HEADER) nu := by
  have hn : 0 < (nu * HEADER : Nat) := Nat.mul_pos hpos (by decide)
  have hcases : ∀ p : Process, (∃ p', processKernel.sbrk p (nu * HEADER) = (p', some p.sz) ∧ p'.sz = p.sz + nu * HEADER) ∨
      ∃ p', processKernel.sbrk p (nu * HEADER) = (p', none) ∧ p'.sz = p.sz := by
    intro p
    rw [sbrk_eq, asInt_of_lt hfit]
    rcases growproc_pos p (n := (nu * HEADER : Nat)) (by omega) (by omega) with ⟨p', hg, hsz⟩ | ⟨p', hg, hsz⟩
    · exact .inl ⟨p', by rw [hg]; rfl, by rw [hsz, Int.toNat_natCast]⟩
    · exact .inr ⟨p', by rw [hg]; rfl, hsz⟩
  constructor
  · intro s s' r hs
    rcases hcases s with ⟨p', heq, hsz⟩ | ⟨p', heq, hsz⟩
    · obtain ⟨rfl, -⟩ := Prod.mk.inj (heq.symm.trans hs)
      omega
    · obtain ⟨rfl, -⟩ := Prod.mk.inj (heq.symm.trans hs)
      omega
  · intro s s' hs
    rcases hcases s with ⟨p', heq, hsz⟩ | ⟨p', heq, hsz⟩
    · exact absurd (Prod.mk.inj (heq.symm.trans hs)).2 nofun
    · obtain ⟨rfl, -⟩ := Prod.mk.inj (heq.symm.trans hs)
      exact congrArg (· / HEADER) hsz
  · intro s s' a hs _
    rcases hcases s with ⟨p', heq, hsz⟩ | ⟨p', heq, hsz⟩
    · obtain ⟨rfl, ha⟩ := Prod.mk.inj (heq.symm.trans hs)
      obtain rfl := Option.some.inj ha
      have hb := p'.bound
      rw [MEMORY_eq] at hb
      have hdiv : (s.sz + nu * HEADER) / HEADER = s.sz / HEADER + nu := Nat.add_mul_div_right _ _ (by decide)
      refine ⟨le_rfl, ?_, ?_, ?_⟩
      · rw [hsz, Nat.mul_comm]
      · rw [hsz, hdiv]
      · exact Nat.lt_of_le_of_lt (Nat.div_le_self _ _) (by omega)
    · exact absurd (Prod.mk.inj (heq.symm.trans hs)).2 nofun

theorem atLeast4096_pos (nu : Nat) : 0 < atLeast4096 nu := by
  unfold atLeast4096
  split_ifs <;> omega

/-- What a call of `malloc(nbytes)` may do: the process does not become smaller, a pointer that is returned has `nbytes`
    bytes of the process behind it, all at or above the start `lo` of the heap, and the size of a block that `morecore`
    makes is no more than what the process grew by. -/
structure SafeCall (lo : Nat) (h : Heap Process) (nbytes : UInt32) (r : Except (Stop Process) (Heap Process × Nat)) : Prop where
  returns : ∀ h' q, r = .ok (h', q) → h.proc.sz ≤ h'.proc.sz
  killed : ∀ h', r = .error (.fault h') → h.proc.sz ≤ h'.proc.sz
  inside : ∀ h' q, r = .ok (h', q) → q ≠ 0 → lo ≤ q ∧ q + nbytes.toNat ≤ h'.proc.sz
  recorded : ∀ p a, processKernel.sbrk h.proc (atLeast4096 (unitsOf nbytes) * HEADER) = (p, some a) →
    processKernel.writable p a = true → HEADER * atLeast4096 (unitsOf nbytes) ≤ p.sz - h.proc.sz

/-- A call in a state that is ready is safe if its request fits. -/
theorem Ready.safeCall {base lo c n fuel : Nat} {s : Program Process} {nbytes : UInt32}
    (hR : Ready Process.sz (fun p => p.sz / HEADER) base lo c n s) (hbase : 0 < base) (hfit : Fits nbytes)
    (hfuel : 2 * n + 3 ≤ fuel) : SafeCall lo s.heap nbytes (malloc processKernel base fuel s.heap nbytes) := by
  have hG := processKernel_grants (atLeast4096_pos _) hfit
  have hstep := hR.step (K := processKernel) hbase (.malloc nbytes) (fun _ heq => Call.malloc.inj heq ▸ hG) hfuel
  rw [Program.step] at hstep
  refine ⟨fun h' q hr => ?_, fun h' hr => ?_, fun h' q hr hq => ?_, fun p a hs hw => ?_⟩
  · rw [hr] at hstep
    cases q with
    | zero =>
        cases hstep with
        | ok _ htop => exact htop
    | succ q =>
        cases hstep with
        | ok _ htop => exact htop
  · rw [hr] at hstep
    cases hstep with
    | fault htop _ => exact htop
  · rw [hr] at hstep
    obtain ⟨q, rfl⟩ := Nat.exists_eq_add_one_of_ne_zero hq
    cases hstep with
    | ok hR' _ =>
        rcases hR' with hU | ⟨l, -, hI⟩
        · exact absurd hU.live (List.cons_ne_nil _ _)
        · -- the new block is the first of the live ones
          have hin := hI.live _ (List.mem_map_of_mem List.mem_cons_self)
          have husable : nbytes.toNat + HEADER ≤ HEADER * (h'.hdr (q + 1 - HEADER)).size := hI.usable _ List.mem_cons_self
          have hlt := hI.list.base_lt hin
          have hlow := hin.low
          have hhigh := hin.high
          simp only [blockAt, Block.stop] at hlt hlow hhigh
          have : 0 < HEADER := by decide
          omega
  · obtain ⟨hle, hstop, -, -⟩ := hG.region hs hw
    omega

/-! ## Requests that do not fit -/

/-- The first call of `malloc` in a process where `sbrk` gives the address `a` for a request of at least 4096 units. -/
theorem malloc_first {K : Kernel Process} (base a fuel : Nat) (h : Heap Process) {p : Process} {nbytes : UInt32}
    (hfreep : h.freep = 0) (hnu : 4096 ≤ unitsOf nbytes) (hs : K.sbrk h.proc (unitsOf nbytes * HEADER) = (p, some a))
    (ha : base < a) :
    ∃ h', h'.proc = p ∧ malloc K base (fuel + 2) h nbytes =
      if K.writable p a then .ok (h', a + HEADER) else .error (.fault { initBase base h with proc := p }) := by
  have hpos : ¬unitsOf nbytes ≤ 0 := by omega
  have hne : a ≠ base := Nat.ne_of_gt ha
  have hinit : initBase base h = { h with hdr := Function.update h.hdr base ⟨base, 0⟩, freep := base } := if_pos hfreep
  obtain ⟨hdr₀, hhdr₀⟩ : ∃ hdr₀, hdr₀ = Function.update h.hdr base ⟨base, 0⟩ := ⟨_, rfl⟩
  rw [← hhdr₀] at hinit
  have hbase₀ : hdr₀ base = ⟨base, 0⟩ := by rw [hhdr₀, Function.update_self]
  -- the headers after the store of the size, and after the two steps of `free`
  obtain ⟨hdr₁, hhdr₁⟩ : ∃ hdr₁, hdr₁ = Function.update hdr₀ a { hdr₀ a with size := unitsOf nbytes } := ⟨_, rfl⟩
  have hbase₁ : hdr₁ base = ⟨base, 0⟩ := by rw [hhdr₁, Function.update_of_ne hne.symm, hbase₀]
  have ha₁ : (hdr₁ a).size = unitsOf nbytes := by rw [hhdr₁, Function.update_self]
  have hplace : findPlace hdr₁ a (fuel + 1) base = some base := by
    rw [findPlace, hbase₁, if_neg (fun hlt => Nat.lt_asymm hlt.1 hlt.2), if_pos ⟨le_rfl, .inl ha⟩]
  have hlink₁ : link hdr₁ a base = Function.update hdr₁ a { hdr₁ a with ptr := base } := by
    rw [link, if_neg (by omega)]
  have hlink₂ : link (link hdr₁ a base) base a = Function.update (link hdr₁ a base) base ⟨a, 0⟩ := by
    have hbase₂ : link hdr₁ a base base = ⟨base, 0⟩ := by rw [link_of_ne hne.symm, hbase₁]
    rw [link, hbase₂, if_neg (show ¬base + HEADER * 0 = a by omega)]
  have ha₃ : (link (link hdr₁ a base) base a a).size = unitsOf nbytes := by
    rw [hlink₂, Function.update_of_ne hne, hlink₁, Function.update_self, ha₁]
  have hbase₃ : (link (link hdr₁ a base) base a base).ptr = a := by rw [hlink₂, Function.update_self]
  refine ⟨(carve ⟨link (link hdr₁ a base) base a, base, p⟩ (unitsOf nbytes) base a).1, ?_, ?_⟩
  · rw [carve, if_pos ha₃]
  · rw [malloc, hinit]
    simp only [hbase₀]
    rw [mallocLoop]
    simp only [hbase₀, if_neg hpos, if_true]
    rw [morecore]
    simp only [if_neg (show ¬unitsOf nbytes < 4096 by omega), hs]
    by_cases hw : K.writable p a = true
    · simp only [if_pos hw, ← hhdr₁, free, Nat.add_sub_cancel, hplace, hbase₁]
      rw [mallocLoop]
      simp only [hbase₃, ha₃, le_refl, if_true]
      rw [carve, if_pos ha₃]
    · simp only [if_neg hw]

/-- What `growproc` does with such a request, in a process of 8208 bytes: the process gets smaller, or it gets at most
    16 bytes. -/
theorem growproc_unfit (p : Process) (hsz : p.sz = 8208) (hans : p.answers 0 = true) {d : Nat} (hlow : 2 ^ 31 ≤ d)
    (hhigh : d ≤ 2 ^ 32 + 16) (hunit : d % 16 = 0) :
    (growproc p (asInt d)).2 = true ∧
      ((growproc p (asInt d)).1.sz ≤ 8192 ∨ 8208 ≤ (growproc p (asInt d)).1.sz ∧ (growproc p (asInt d)).1.sz ≤ 8224) := by
  have hint : asInt d = (d : Int) - 2 ^ 32 := by
    rw [asInt]
    split_ifs <;> omega
  rw [hint, growproc]
  by_cases h₁ : 0 < (d : Int) - 2 ^ 32
  · have hnew : ((p.sz + ((d : Int) - 2 ^ 32)) % 2 ^ 32).toNat = 8224 := by omega
    simp only [if_pos h₁, hnew]
    rw [if_neg (by omega), dif_pos ⟨hans, by decide⟩]
    exact ⟨rfl, .inr ⟨show 8208 ≤ 8224 by decide, show 8224 ≤ 8224 from le_rfl⟩⟩
  · simp only [if_neg h₁]
    by_cases h₂ : (d : Int) - 2 ^ 32 < 0
    · rw [if_pos h₂]
      by_cases h₃ : ((p.sz + ((d : Int) - 2 ^ 32)) % 2 ^ 32).toNat < p.sz
      · rw [dif_pos h₃]
        refine ⟨rfl, .inl ?_⟩
        show ((p.sz + ((d : Int) - 2 ^ 32)) % 2 ^ 32).toNat ≤ 8192
        omega
      · rw [dif_neg h₃]
        exact ⟨rfl, .inr ⟨hsz.ge, show p.sz ≤ 8224 by omega⟩⟩
    · rw [if_neg h₂]
      exact ⟨rfl, .inr ⟨hsz.ge, show p.sz ≤ 8224 by omega⟩⟩

/-- **`malloc` hands out memory of the process only, and never shrinks it**, in every process that has made requests
    that fit, for exactly the requests that fit in an `int`. -/
theorem malloc_safe_iff (nbytes : UInt32) :
    (∀ (base fuel : Nat) (hdr : Nat → Header) (p : Process) (calls : List Call) (s : Program Process), 0 < base →
      base + HEADER ≤ p.sz → (∀ n, Call.malloc n ∈ calls → Fits n) → 2 * calls.length + 3 ≤ fuel →
      Program.run processKernel base fuel ⟨⟨hdr, 0, p⟩, []⟩ calls = .ok s →
      SafeCall p.sz s.heap nbytes (malloc processKernel base fuel s.heap nbytes)) ↔ Fits nbytes := by
  constructor
  · intro h
    by_contra hfit
    -- a process whose size is 16 bytes above a page boundary
    obtain ⟨p, hp⟩ : ∃ p : Process, p = ⟨8208, by decide, fun _ => true⟩ := ⟨_, rfl⟩
    have hsz : p.sz = 8208 := by rw [hp]
    have hlt := nbytes.toNat_lt
    have hnu : 4096 ≤ unitsOf nbytes ∧ 2 ^ 31 ≤ unitsOf nbytes * HEADER ∧ unitsOf nbytes * HEADER ≤ 2 ^ 32 + 16 ∧
        2 ^ 30 ≤ nbytes.toNat := by
      have hfit' : ¬atLeast4096 (unitsOf nbytes) * HEADER < 2 ^ 31 := hfit
      unfold atLeast4096 at hfit'
      rw [unitsOf, HEADER] at *
      split_ifs at hfit' <;> omega
    obtain ⟨hnu₁, hnu₂, hnu₃, hbytes⟩ := hnu
    have hsafe := h 4096 3 (fun _ => ⟨0, 0⟩) p [] ⟨⟨fun _ => ⟨0, 0⟩, 0, p⟩, []⟩ (by decide) (by rw [hsz]; decide)
      (fun _ hmem => absurd hmem List.not_mem_nil) le_rfl rfl
    obtain ⟨hok, hgrow⟩ := growproc_unfit p hsz (by rw [hp]) hnu₂ hnu₃ (Nat.mul_mod_left _ 16)
    have hs : processKernel.sbrk p (unitsOf nbytes * HEADER) =
        ((growproc p (asInt (unitsOf nbytes * HEADER))).1, some 8208) := by
      rw [sbrk_eq, hok, hsz]
      rfl
    generalize (growproc p (asInt (unitsOf nbytes * HEADER))).1 = p' at hs hgrow
    obtain ⟨h', hproc, hrun⟩ := malloc_first 4096 8208 1 ⟨fun _ => ⟨0, 0⟩, 0, p⟩ rfl hnu₁ hs (by decide)
    have hwritable : processKernel.writable p' 8208 = decide (8208 + 12 ≤ (p'.sz + 4095) / 4096 * 4096) := rfl
    rcases hgrow with hsmall | ⟨hge, hle⟩
    · -- the process is smaller, and the store to the header kills it
      rw [if_neg (by rw [hwritable, decide_eq_true_iff]; omega)] at hrun
      have hkilled : p.sz ≤ p'.sz := hsafe.killed _ hrun
      omega
    · -- the pointer is at the end of the process or behind it
      rw [if_pos (by rw [hwritable, decide_eq_true_iff]; omega)] at hrun
      have hin := (hsafe.inside _ _ hrun (by decide)).2
      rw [hproc] at hin
      have : (8208 + HEADER : Nat) = 8224 := rfl
      omega
  · intro hfit base fuel hdr p calls s hbase hle hcalls hfuel hrun
    have hb := p.bound
    rw [MEMORY_eq] at hb
    have hU : Untouched Process.sz (fun p => p.sz / HEADER) base p.sz (p.sz / HEADER) ⟨⟨hdr, 0, p⟩, []⟩ :=
      ⟨rfl, rfl, hle, le_rfl, rfl, Nat.lt_of_le_of_lt (Nat.div_le_self _ _) (by omega)⟩
    have hends := Ready.run (K := processKernel) (n := 0) hbase calls (.inl hU)
      (fun n hn => processKernel_grants (atLeast4096_pos _) (hcalls n hn)) (show 2 * (0 + calls.length) + 3 ≤ fuel by omega)
    rw [hrun] at hends
    cases hends with
    | ok hR _ => exact hR.safeCall hbase hfit (by omega)

/-- A process of 8208 bytes, and nothing allocated. -/
def smallProcess : Heap Process := ⟨fun _ => ⟨0, 0⟩, 0, ⟨8208, by decide, fun _ => true⟩⟩

/-- `malloc(4294967295)` there: `sbrk` is asked for 2^32 + 16 bytes, which is 16 as an `int`, and the pointer that comes
    back is the new end of the process. -/
theorem malloc_beyond_break :
    ¬SafeCall 8208 smallProcess 4294967295 (malloc processKernel 4096 3 smallProcess 4294967295) := by
  have hrun : (match malloc processKernel 4096 3 smallProcess 4294967295 with
      | .ok (h, q) => q == 8224 && h.proc.sz == 8224
      | .error _ => false) = true := by decide +kernel
  intro hsafe
  cases hm : malloc processKernel 4096 3 smallProcess 4294967295 with
  | error e =>
      rw [hm] at hrun
      exact absurd hrun nofun
  | ok r =>
      obtain ⟨h', q⟩ := r
      simp only [hm, Bool.and_eq_true, beq_iff_eq] at hrun
      have hin := (hsafe.inside h' q hm (by omega)).2
      rw [hrun.1, hrun.2] at hin
      exact absurd hin (by decide)

end Xv6.User
