import Xv6.User.Heap

/-!
# `Malloc` — the allocator over fresh regions

Every successful `morecore` adds a fresh region above all earlier ones. **`heap_invariant`** says what holds after
every sequence of calls, if fewer than 2^32 units are obtained: sizes are 32-bit numbers, and with more units a block
made by joining can be larger than its size says (`sizes_wrap`).
-/

namespace Xv6.User

open Extents (Block Apart Disjoint total)

/-! ## Fresh regions -/

/-- The memory obtained so far: the end of the last region, the units of all of them, and for each further call of
    `sbrk` how far above the last region the next one begins, if it succeeds. -/
structure Regions where
  top : Nat
  obtained : Nat
  answers : Nat → Option Nat

/-- Every successful `sbrk` adds a region above all earlier ones, up to `limit` units in all. -/
def freshRegions (limit : Nat) : Kernel Regions where
  sbrk s n :=
    let answers := fun k => s.answers (k + 1)
    match s.answers 0 with
    | none => ({ s with answers := answers }, none)
    | some gap =>
        if s.obtained + n / HEADER ≤ limit then
          (⟨s.top + gap + n, s.obtained + n / HEADER, answers⟩, some (s.top + gap))
        else ({ s with answers := answers }, none)
  writable _ _ := true

/-- What is in the memory that has been obtained: the free blocks `l` in a circular list, and the live blocks. -/
structure Sound (base : Nat) (s : Program Regions) (l : List Block) : Prop where
  /-- From `freep` the list goes once through `base` and every free block, with one wrap, and back. -/
  circular : ∃ n, List.iterate (next s.heap.hdr) s.heap.freep (l.length + 1) = (base :: l.map Block.addr).rotate n ∧
    (next s.heap.hdr)^[l.length + 1] s.heap.freep = s.heap.freep
  increasing : (base :: l.map Block.addr).Pairwise (· < ·)
  baseSize : (s.heap.hdr base).size = 0
  sizes : ∀ b ∈ l, (s.heap.hdr b.addr).size = b.size
  /-- Free blocks are disjoint, and no two of them touch. -/
  apart : l.Pairwise (Apart HEADER)
  free_live : ∀ n ∈ l, ∀ x ∈ s.blocks, Disjoint HEADER n x
  live_live : s.blocks.Pairwise (Disjoint HEADER)
  usable : ∀ x ∈ s.live, x.nbytes.toNat + HEADER ≤ HEADER * (s.heap.hdr x.addr).size
  sum : total l + total s.blocks = s.heap.proc.obtained

/-- The heap before the first call, or with its blocks. -/
def SoundHeap (base : Nat) (s : Program Regions) : Prop :=
  (s.heap.freep = 0 ∧ s.live = [] ∧ s.heap.proc.obtained = 0) ∨ ∃ l, Sound base s l

theorem freshRegions_grants {limit : Nat} (hlimit : limit < 2 ^ 32) (n : Nat) :
    Grants (freshRegions limit) Regions.top Regions.obtained n := by
  have hdiv : n * HEADER / HEADER = n := Nat.mul_div_cancel n (by decide)
  have hcases : ∀ s : Regions, (∃ answers, (freshRegions limit).sbrk s (n * HEADER) = ({ s with answers := answers }, none)) ∨
      ∃ gap answers, s.obtained + n ≤ limit ∧
        (freshRegions limit).sbrk s (n * HEADER) = (⟨s.top + gap + n * HEADER, s.obtained + n, answers⟩, some (s.top + gap)) := by
    intro s
    simp only [freshRegions, hdiv]
    cases s.answers 0 with
    | none => exact .inl ⟨_, rfl⟩
    | some gap =>
        by_cases hle : s.obtained + n ≤ limit
        · exact .inr ⟨gap, _, hle, if_pos hle⟩
        · exact .inl ⟨_, if_neg hle⟩
  constructor
  · intro s s' r hs
    rcases hcases s with ⟨answers, heq⟩ | ⟨gap, answers, -, heq⟩
    · obtain ⟨rfl, -⟩ := Prod.mk.inj (heq.symm.trans hs)
      exact le_rfl
    · obtain ⟨rfl, -⟩ := Prod.mk.inj (heq.symm.trans hs)
      show s.top ≤ s.top + gap + n * HEADER
      omega
  · intro s s' hs
    rcases hcases s with ⟨answers, heq⟩ | ⟨gap, answers, -, heq⟩
    · obtain ⟨rfl, -⟩ := Prod.mk.inj (heq.symm.trans hs)
      rfl
    · exact absurd (Prod.mk.inj (heq.symm.trans hs)).2 nofun
  · intro s s' a hs _
    rcases hcases s with ⟨answers, heq⟩ | ⟨gap, answers, hle, heq⟩
    · exact absurd (Prod.mk.inj (heq.symm.trans hs)).2 nofun
    · obtain ⟨rfl, ha⟩ := Prod.mk.inj (heq.symm.trans hs)
      obtain rfl := Option.some.inj ha
      show s.top ≤ s.top + gap ∧ s.top + gap + HEADER * n ≤ s.top + gap + n * HEADER ∧
        s.obtained + n = s.obtained + n ∧ s.obtained + n < 2 ^ 32
      rw [Nat.mul_comm]
      omega

theorem Inv.sound {base lo : Nat} {s : Program Regions} {l : List Block}
    (hI : Inv Regions.top Regions.obtained base lo 0 s l) : Sound base s l := by
  obtain ⟨u, v, huv, hlinks⟩ := hI.list.walk
  have hlen : (s.heap.freep :: v ++ u).length = l.length + 1 := by
    have := congrArg List.length huv
    simp only [List.length_cons, List.length_map, List.length_append] at this ⊢
    omega
  have hiter : List.iterate (next s.heap.hdr) s.heap.freep (s.heap.freep :: v ++ u).length = s.heap.freep :: v ++ u ∧
      (next s.heap.hdr)^[(s.heap.freep :: v ++ u).length] s.heap.freep = s.heap.freep := hlinks.iterate
  rw [hlen] at hiter
  refine ⟨⟨u.length, ?_, hiter.2⟩, hI.list.increasing, hI.list.rep.sizes ⟨base, 0⟩ List.mem_cons_self,
    fun b hb => hI.list.rep.sizes b (List.mem_cons_of_mem _ hb), (List.pairwise_cons.mp hI.list.apart).2, hI.free_live,
    hI.live_live, hI.usable, hI.sum⟩
  rw [huv, List.rotate_append_length_eq]
  exact hiter.1

/-- The program before its first call. -/
def Program.start (hdr : Nat → Header) (proc : Regions) : Program Regions := ⟨⟨hdr, 0, proc⟩, []⟩

/-- **The heap invariant.** After every sequence of calls that frees live pointers only, all loops have ended, and the
    free list and the live blocks are as they should be, if fewer than 2^32 units can be obtained. -/
theorem heap_invariant {limit base top fuel : Nat} (hlimit : limit < 2 ^ 32) (hbase : 0 < base) (htop : base + HEADER ≤ top)
    (hdr : Nat → Header) (answers : Nat → Option Nat) (calls : List Call) (hfuel : 2 * calls.length + 3 ≤ fuel) :
    ∃ s, (Program.start hdr ⟨top, 0, answers⟩).run (freshRegions limit) base fuel calls = .ok s ∧ SoundHeap base s := by
  have hU : Untouched Regions.top Regions.obtained base top 0 (Program.start hdr ⟨top, 0, answers⟩) :=
    ⟨rfl, rfl, htop, le_rfl, rfl, by decide⟩
  have hrun := Ready.run (K := freshRegions limit) (n := 0) hbase calls (.inl hU)
    (fun nbytes _ => freshRegions_grants hlimit _) (show 2 * (0 + calls.length) + 3 ≤ fuel by omega)
  generalize (Program.start hdr ⟨top, 0, answers⟩).run (freshRegions limit) base fuel calls = r at hrun
  cases hrun with
  | ok hR _ =>
      refine ⟨_, rfl, ?_⟩
      rcases hR with hU' | ⟨l, -, hI⟩
      · exact .inl ⟨hU'.freep, hU'.live, hU'.units⟩
      · exact .inr ⟨l, hI.sound⟩
  | fault _ hw =>
      obtain ⟨_, _, hw⟩ := hw
      exact absurd (show true = false from hw) nofun

/-- One `malloc`, and a `free` of what it gave. -/
theorem heap_after_two_calls :
    ∃ s, (Program.start (fun _ => ⟨0, 0⟩) ⟨4112, 0, fun _ => some 0⟩).run (freshRegions 4096) 4096 7
      [.malloc 100, .free 0] = .ok s ∧ SoundHeap 4096 s :=
  heap_invariant (by decide) (by decide) (by decide) _ _ _ (by decide)

/-- Sixteen blocks of 2^28 + 1 units each, all given back: they become one block whose size says 16. -/
def wrapCalls : List Call := List.replicate 16 (.malloc 4294967295) ++ List.replicate 16 (.free 0)

/-- The run, with as many regions as it wants, one right behind the other. -/
def wrapRun : Except (Stop Regions) (Program Regions) :=
  (Program.start (fun _ => ⟨0, 0⟩) ⟨4112, 0, fun _ => some 0⟩).run (freshRegions (2 ^ 33)) 4096 100 wrapCalls

theorem wrapRun_eq : ∃ s, wrapRun = .ok s ∧ s.live = [] ∧ s.heap.hdr 4096 = ⟨4112, 0⟩ ∧ s.heap.hdr 4112 = ⟨4096, 16⟩ ∧
    s.heap.freep = 4096 ∧ s.heap.proc.obtained = 2 ^ 32 + 16 := by
  have hrun : (match wrapRun with
      | .ok s => s.live.isEmpty && s.heap.hdr 4096 == ⟨4112, 0⟩ && s.heap.hdr 4112 == ⟨4096, 16⟩ &&
          s.heap.freep == 4096 && s.heap.proc.obtained == 2 ^ 32 + 16
      | .error _ => false) = true := by decide +kernel
  cases hw : wrapRun with
  | error e =>
      rw [hw] at hrun
      exact absurd hrun nofun
  | ok s =>
      simp only [hw, Bool.and_eq_true, List.isEmpty_iff, beq_iff_eq] at hrun
      obtain ⟨⟨⟨⟨h₁, h₂⟩, h₃⟩, h₄⟩, h₅⟩ := hrun
      exact ⟨s, rfl, h₁, h₂, h₃, h₄, h₅⟩

/-- A list that leads from `base` to one block and back has no other blocks. -/
theorem Sound.eq_singleton {base a : Nat} {s : Program Regions} {l : List Block} (hs : Sound base s l)
    (hfreep : s.heap.freep = base) (hbase : next s.heap.hdr base = a) (ha : next s.heap.hdr a = base) (hne : a ≠ base) :
    ∃ b, l = [b] ∧ b.addr = a := by
  obtain ⟨⟨n, hiter, hback⟩, hincr⟩ := And.intro hs.circular hs.increasing
  rw [hfreep] at hiter hback
  match l with
  | [] => exact absurd (hbase.symm.trans hback) hne
  | [b] =>
      have hmem : b.addr ∈ [base, a] := by
        rw [show [base, a] = List.iterate (next s.heap.hdr) base 2 by rw [List.iterate, List.iterate, List.iterate, hbase],
          show (2 : Nat) = [b].length + 1 from rfl, hiter, List.mem_rotate]
        exact List.mem_cons_of_mem base List.mem_cons_self
      have hlt : base < b.addr := (List.pairwise_cons.mp hincr).1 _ List.mem_cons_self
      rcases List.mem_cons.mp hmem with heq | heq
      · omega
      · exact ⟨b, rfl, List.mem_singleton.mp heq⟩
  | b :: c :: l =>
      -- three steps come back to `base` too early
      have hnodup : (List.iterate (next s.heap.hdr) base ((b :: c :: l).length + 1)).Nodup := by
        rw [hiter, List.nodup_rotate]
        exact hincr.imp Nat.ne_of_lt
      rw [List.length_cons, List.length_cons, List.iterate, List.iterate, List.iterate, hbase, ha, List.nodup_cons] at hnodup
      exact absurd (List.mem_cons_of_mem a List.mem_cons_self) hnodup.1

/-- With 2^32 units or more the sizes of the blocks no longer add up to the units obtained. -/
theorem sizes_wrap : ∃ s, wrapRun = .ok s ∧ ¬SoundHeap 4096 s := by
  obtain ⟨s, hrun, hlive, hbase, hblock, hfreep, hobtained⟩ := wrapRun_eq
  refine ⟨s, hrun, ?_⟩
  rintro (⟨-, -, h0⟩ | ⟨l, hs⟩)
  · omega
  · obtain ⟨b, rfl, hb⟩ := hs.eq_singleton (a := 4112) hfreep (by rw [next, hbase]) (by rw [next, hblock]) (by decide)
    have hsize := hs.sizes b List.mem_cons_self
    have hsum := hs.sum
    rw [hb, hblock] at hsize
    rw [Program.blocks, hlive, hobtained, List.map_nil, Extents.total_cons, ← hsize] at hsum
    exact absurd hsum (by decide)

end Xv6.User
