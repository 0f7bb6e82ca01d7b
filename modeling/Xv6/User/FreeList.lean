import Xv6.Lib.Circular
import Xv6.Lib.Extents
import Xv6.User.Umalloc

/-!
# `FreeList` — the circular list of free blocks

`FreeList base lo top h l` says that the list from `base` on goes through the blocks `l` in the order of their addresses
and back to `base`, with a gap between any two of them. `free` puts a block in its place (**`FreeList.free`**), `carve`
takes one out (**`FreeList.carve`**), and the loop of `malloc` goes around the list once (`mallocLoop_scan`). Each result
says what happens to the blocks and that no other header changes.
-/

namespace Xv6.User

open Circular (Links)
open Extents (Block Apart Disjoint total join joinRight)

variable {σ : Type} {h h' : Heap σ} {base lo top fuel nunits : Nat} {l : List Block} {b : Block} {hdr : Nat → Header}

/-! ## Lists of headers -/

/-- `p->s.ptr` -/
def next (hdr : Nat → Header) (a : Nat) : Nat := (hdr a).ptr

/-- The headers of the blocks say their sizes and lead from one block to the other, and from the last one to `z`. -/
structure Rep (hdr : Nat → Header) (l : List Block) (z : Nat) : Prop where
  links : Links (next hdr) (l.map Block.addr) z
  sizes : ∀ b ∈ l, (hdr b.addr).size = b.size

theorem Rep.congr {hdr' : Nat → Header} {z : Nat} (hr : Rep hdr l z) (heq : ∀ b ∈ l, hdr' b.addr = hdr b.addr) :
    Rep hdr' l z := by
  refine ⟨hr.links.congr fun a ha => ?_, fun b hb => by rw [heq b hb, hr.sizes b hb]⟩
  obtain ⟨b, hb, rfl⟩ := List.mem_map.mp ha
  rw [next, heq b hb, next]

theorem rep_append {u v : List Block} {z : Nat} :
    Rep hdr (u ++ v) z ↔ Rep hdr u ((v.map Block.addr).headD z) ∧ Rep hdr v z := by
  constructor
  · rintro ⟨hl, hs⟩
    rw [List.map_append, Circular.links_append] at hl
    obtain ⟨hu, hv⟩ := List.forall_mem_append.mp hs
    exact ⟨⟨hl.1, hu⟩, hl.2, hv⟩
  · rintro ⟨hu, hv⟩
    refine ⟨?_, List.forall_mem_append.mpr ⟨hu.sizes, hv.sizes⟩⟩
    rw [List.map_append, Circular.links_append]
    exact ⟨hu.links, hv.links⟩

theorem rep_cons {v : List Block} {z : Nat} :
    Rep hdr (b :: v) z ↔ hdr b.addr = ⟨(v.map Block.addr).headD z, b.size⟩ ∧ Rep hdr v z := by
  constructor
  · rintro ⟨hl, hs⟩
    obtain ⟨hb, hv⟩ := List.forall_mem_cons.mp hs
    have hl' : next hdr b.addr = (v.map Block.addr).headD z ∧ Links (next hdr) (v.map Block.addr) z := hl
    rw [next] at hl'
    exact ⟨by rw [← hl'.1, ← hb], hl'.2, hv⟩
  · rintro ⟨hb, hv⟩
    refine ⟨⟨?_, hv.links⟩, List.forall_mem_cons.mpr ⟨by rw [hb], hv.sizes⟩⟩
    rw [next, hb]

theorem link_of_ne {a n x : Nat} (hx : x ≠ a) : link hdr a n x = hdr x := by
  unfold link
  split_ifs <;> exact Function.update_of_ne hx _ _

/-- One of the two steps of `free`: a block before a list is joined to it or linked to it. -/
theorem Rep.link {v : List Block} {z : Nat} (hr : Rep hdr v z) (hb : (hdr b.addr).size = b.size)
    (hlt : b.size + total v < 2 ^ 32) (hv : ∀ n ∈ v, n.addr ≠ b.addr) (hz : v = [] → b.stop HEADER ≠ z) :
    Rep (link hdr b.addr ((v.map Block.addr).headD z)) (joinRight HEADER b v) z := by
  rw [User.link, hb]
  cases v with
  | nil =>
      rw [List.map_nil, List.headD_nil, if_neg (show ¬b.addr + HEADER * b.size = z from hz rfl), joinRight, rep_cons, Function.update_self, ← hb]
      exact ⟨rfl, trivial, fun _ hn => absurd hn List.not_mem_nil⟩
  | cons n v =>
      obtain ⟨hn, hr'⟩ := rep_cons.mp hr
      have hkeep : ∀ x : Header, ∀ c ∈ n :: v, Function.update hdr b.addr x c.addr = hdr c.addr :=
        fun x c hc => Function.update_of_ne (hv c hc) _ _
      rw [List.map_cons, List.headD_cons]
      by_cases htouch : b.stop HEADER = n.addr
      · have hsum : (b.size + n.size) % 2 ^ 32 = b.size + n.size := by
          rw [Extents.total_cons] at hlt
          exact Nat.mod_eq_of_lt (by omega)
        rw [if_pos (show b.addr + HEADER * b.size = n.addr from htouch), Extents.joinRight_cons_of_eq htouch, rep_cons, hn]
        refine ⟨?_, hr'.congr fun c hc => hkeep _ c (List.mem_cons_of_mem n hc)⟩
        rw [Function.update_self, hsum]
      · rw [if_neg (show ¬b.addr + HEADER * b.size = n.addr from htouch), Extents.joinRight_cons_of_ne htouch, rep_cons]
        refine ⟨?_, hr.congr (hkeep _)⟩
        rw [Function.update_self, ← hb]
        rfl

/-! ## The free list -/

/-- A block of the heap: it has a header, and it lies between `lo` and `top`. -/
structure InHeap (lo top : Nat) (b : Block) : Prop where
  pos : 0 < b.size
  low : lo ≤ b.addr
  high : b.stop HEADER ≤ top

theorem InHeap.bytes_pos (hb : InHeap lo top b) : 0 < HEADER * b.size := Nat.mul_pos (by decide) hb.pos

theorem InHeap.mono {top' : Nat} (hb : InHeap lo top b) (ht : top ≤ top') : InHeap lo top' b :=
  { hb with high := hb.high.trans ht }

/-- Two blocks that touch make one. -/
theorem InHeap.join {n : Block} (hb : InHeap lo top b) (hn : InHeap lo top n) (heq : b.stop HEADER = n.addr) :
    InHeap lo top ⟨b.addr, b.size + n.size⟩ :=
  ⟨Nat.add_pos_left hb.pos _, hb.low, (Extents.stop_join heq).trans_le hn.high⟩

/-- The free list: `base`, the blocks `l` in the order of their addresses, and back. -/
structure FreeList (base lo top : Nat) (h : Heap σ) (l : List Block) : Prop where
  rep : Rep h.hdr (⟨base, 0⟩ :: l) base
  apart : (⟨base, 0⟩ :: l : List Block).Pairwise (Apart HEADER)
  above : base + HEADER ≤ lo
  inHeap : ∀ b ∈ l, InHeap lo top b
  freep : h.freep ∈ base :: l.map Block.addr

theorem FreeList.base_lt (hF : FreeList base lo top h l) (hb : InHeap lo top b) : base < b.addr :=
  Nat.lt_of_lt_of_le (Nat.lt_add_of_pos_right (by decide)) (hF.above.trans hb.low)

theorem FreeList.mono {top' : Nat} (hF : FreeList base lo top h l) (ht : top ≤ top') : FreeList base lo top' h l :=
  { hF with inHeap := fun b hb => (hF.inHeap b hb).mono ht }

/-- The list depends on the headers of its blocks and on `freep` only. -/
theorem FreeList.congr (hF : FreeList base lo top h l) (hbase : h'.hdr base = h.hdr base)
    (heq : ∀ b ∈ l, h'.hdr b.addr = h.hdr b.addr) (hfreep : h'.freep = h.freep) : FreeList base lo top h' l :=
  { hF with
    rep := hF.rep.congr (List.forall_mem_cons.mpr ⟨hbase, heq⟩)
    freep := hfreep ▸ hF.freep }

/-- A list of headers from `base` on, sorted and in the heap, is a free list. -/
theorem freeList_of (hrep : Rep h.hdr (⟨base, 0⟩ :: l) base) (hapart : (⟨base, 0⟩ :: l : List Block).Pairwise (Apart HEADER))
    (habove : base + HEADER ≤ lo)
    (hin : ∀ c ∈ (⟨base, 0⟩ :: l : List Block), c = ⟨base, 0⟩ ∨ InHeap lo top c)
    (hfreep : h.freep ∈ (⟨base, 0⟩ :: l : List Block).map Block.addr) : FreeList base lo top h l := by
  refine ⟨hrep, hapart, habove, fun c hc => ?_, hfreep⟩
  rcases hin c (List.mem_cons_of_mem _ hc) with rfl | hc'
  · have : Apart HEADER ⟨base, 0⟩ ⟨base, 0⟩ := (List.pairwise_cons.mp hapart).1 _ hc
    exact absurd this (Nat.lt_irrefl base)
  · exact hc'

theorem FreeList.inHeap_or (hF : FreeList base lo top h l) :
    ∀ c ∈ (⟨base, 0⟩ :: l : List Block), c = ⟨base, 0⟩ ∨ InHeap lo top c :=
  List.forall_mem_cons.mpr ⟨.inl rfl, fun c hc => .inr (hF.inHeap c hc)⟩

/-- The place where the loop of `free` stops. -/
def Stops (hdr : Nat → Header) (bp p : Nat) : Prop :=
  (p < bp ∧ bp < next hdr p) ∨ (next hdr p ≤ p ∧ (p < bp ∨ bp < next hdr p))

/-- It stops at the last block below `bp`. -/
theorem FreeList.stops_iff (hF : FreeList base lo top h l) {u v : List Block} {p : Block} {bp : Nat}
    (hl : ⟨base, 0⟩ :: l = u ++ p :: v) (hbp : base < bp) :
    Stops h.hdr bp p.addr ↔ p.addr < bp ∧ ∀ n ∈ v, bp < n.addr := by
  have hrep := hF.rep
  rw [hl, rep_append, rep_cons] at hrep
  have hsorted := hF.apart
  rw [hl] at hsorted
  obtain ⟨hpv, hv⟩ := List.pairwise_cons.mp (List.pairwise_append.mp hsorted).2.1
  have hbase : base ≤ p.addr := by
    have hp : p ∈ (⟨base, 0⟩ :: l : List Block) := hl ▸ List.mem_append_right u List.mem_cons_self
    rcases List.mem_cons.mp hp with rfl | hp
    · exact le_rfl
    · exact Nat.le_of_lt (hF.base_lt (hF.inHeap p hp))
  rw [Stops, next, hrep.2.1]
  cases v with
  | nil =>
      -- the last block, which leads back to `base`
      simp only [List.map_nil, List.headD_nil, List.not_mem_nil, false_implies, implies_true, and_true]
      omega
  | cons n v =>
      have hpn : p.addr < n.addr := Nat.lt_of_le_of_lt (Extents.addr_le_stop HEADER p) (hpv n List.mem_cons_self)
      have hnv := (List.pairwise_cons.mp hv).1
      simp only [List.map_cons, List.headD_cons, List.forall_mem_cons]
      refine ⟨fun hs => ⟨by omega, by omega, fun c hc => ?_⟩, fun hs => .inl ⟨hs.1, hs.2.1⟩⟩
      have := hnv c hc
      have := Extents.addr_le_stop HEADER n
      rw [Apart] at *
      omega

theorem findPlace_of_iterate (fuel : Nat) {bp k q : Nat} (hk : k < fuel) (hstop : Stops hdr bp ((next hdr)^[k] q)) :
    ∃ j, findPlace hdr bp fuel q = some ((next hdr)^[j] q) ∧ Stops hdr bp ((next hdr)^[j] q) := by
  induction fuel generalizing k q with
  | zero => exact absurd hk (Nat.not_lt_zero k)
  | succ fuel ih =>
      rw [findPlace]
      by_cases h₁ : q < bp ∧ bp < (hdr q).ptr
      · exact ⟨0, if_pos h₁, .inl h₁⟩
      · rw [if_neg h₁]
        by_cases h₂ : (hdr q).ptr ≤ q ∧ (q < bp ∨ bp < (hdr q).ptr)
        · exact ⟨0, if_pos h₂, .inr h₂⟩
        · rw [if_neg h₂]
          cases k with
          | zero => exact absurd hstop (not_or.mpr ⟨h₁, h₂⟩)
          | succ k =>
              obtain ⟨j, hj, hs⟩ := ih (Nat.lt_of_succ_lt_succ hk) hstop
              exact ⟨j + 1, hj, hs⟩

/-- The walk from `freep`: the rest of the list behind it and then the beginning up to it. -/
theorem FreeList.walk (hF : FreeList base lo top h l) :
    ∃ u v, base :: l.map Block.addr = u ++ h.freep :: v ∧ Links (next h.hdr) (h.freep :: v ++ u) h.freep := by
  obtain ⟨u, v, huv⟩ := List.append_of_mem hF.freep
  refine ⟨u, v, huv, Links.rotate (z := base) ?_⟩
  rw [← huv]
  exact hF.rep.links

theorem FreeList.iterate_mem (hF : FreeList base lo top h l) (j : Nat) :
    (next h.hdr)^[j] h.freep ∈ base :: l.map Block.addr := by
  induction j with
  | zero => exact hF.freep
  | succ j ih =>
      rw [Function.iterate_succ_apply']
      exact hF.rep.links.next_mem List.mem_cons_self ih

/-- The loop of `free` ends, at the place of the block. -/
theorem FreeList.exists_findPlace (hF : FreeList base lo top h l) {bp : Nat} (hbp : base < bp) (hno : ∀ n ∈ l, n.addr ≠ bp)
    (hfuel : l.length < fuel) :
    ∃ u p v, ⟨base, 0⟩ :: l = u ++ p :: v ∧ findPlace h.hdr bp fuel h.freep = some p.addr ∧ p.addr < bp ∧
      ∀ n ∈ v, bp < n.addr := by
  obtain ⟨u, p, v, hl, hp, hv⟩ := Extents.exists_place hF.apart hbp
  have hv' : ∀ n ∈ v, bp < n.addr := by
    intro n hn
    have hmem : n ∈ (⟨base, 0⟩ :: l : List Block) := hl ▸ List.mem_append_right u (List.mem_cons_of_mem p hn)
    rcases List.mem_cons.mp hmem with rfl | hmem
    · exact absurd (hv _ hn) (Nat.not_le_of_lt hbp)
    · exact Nat.lt_of_le_of_ne (hv n hn) (Ne.symm (hno n hmem))
  -- the place is on the way around the list
  obtain ⟨s, t, hst, hwalk⟩ := hF.walk
  have hp_mem : p.addr ∈ h.freep :: t ++ s := by
    have : p.addr ∈ base :: l.map Block.addr := by
      rw [show base :: l.map Block.addr = (⟨base, 0⟩ :: l : List Block).map Block.addr from rfl, hl]
      exact List.mem_map_of_mem (List.mem_append_right u List.mem_cons_self)
    rw [hst, List.mem_append] at this
    rw [List.mem_append]
    exact this.symm
  obtain ⟨k, hk, hkp⟩ := hwalk.reach hp_mem
  have hk' : k < (h.freep :: t ++ s).length := hk
  have hlen : (h.freep :: t ++ s).length = l.length + 1 := by
    have := congrArg List.length hst
    simp only [List.length_cons, List.length_map, List.length_append] at this ⊢
    omega
  have hstop : Stops h.hdr bp ((next h.hdr)^[k] h.freep) := hkp ▸ (hF.stops_iff hl hbp).mpr ⟨hp, hv'⟩
  obtain ⟨j, hj, hs⟩ := findPlace_of_iterate fuel (by omega) hstop
  -- wherever the loop stops, it stops behind the last block below `bp`
  obtain ⟨c, hc, hcj⟩ := List.mem_map.mp
    (show (next h.hdr)^[j] h.freep ∈ (⟨base, 0⟩ :: l : List Block).map Block.addr from hF.iterate_mem j)
  obtain ⟨u', v', hl'⟩ := List.append_of_mem hc
  rw [← hcj] at hj hs
  exact ⟨u', c, v', hl', hj, (hF.stops_iff hl' hbp).mp hs⟩

/-- The list begins with `base`, and joining a block behind it keeps it there. -/
theorem exists_join_eq {u v : List Block} {p : Block} (hl : ⟨base, 0⟩ :: l = u ++ p :: v) (hb : base < b.addr) :
    ∃ l', u ++ join HEADER p b v = ⟨base, 0⟩ :: l' ∧ l'.length ≤ l.length + 1 := by
  have hlen := congrArg List.length hl
  rw [List.length_append, List.length_cons, List.length_cons] at hlen
  cases u with
  | nil =>
      obtain ⟨rfl, rfl⟩ := List.cons.inj hl
      obtain ⟨c, w, hcw, hc⟩ := Extents.exists_joinRight HEADER b l
      have hne : Block.stop HEADER ⟨base, 0⟩ ≠ c.addr := by
        rw [Block.stop, hc]
        exact Nat.ne_of_lt hb
      refine ⟨joinRight HEADER b l, ?_, Extents.length_joinRight_le _ _ _⟩
      rw [List.nil_append, join, hcw, Extents.joinRight_cons_of_ne hne]
  | cons a u =>
      obtain ⟨rfl, hl'⟩ := List.cons.inj hl
      refine ⟨u ++ join HEADER p b v, rfl, ?_⟩
      have h₁ := Extents.length_joinRight_le HEADER b v
      have h₂ := Extents.length_joinRight_le HEADER p (joinRight HEADER b v)
      rw [List.length_append, join]
      rw [List.length_cons] at hlen
      omega

/-- The place of `b` in the list: behind `p` and before `v`. -/
structure Place (base : Nat) (l u : List Block) (p : Block) (v : List Block) (b : Block) : Prop where
  split : ⟨base, 0⟩ :: l = u ++ p :: v
  lt : p.addr < b.addr
  below : p.stop HEADER ≤ b.addr
  above : ∀ n ∈ v, b.stop HEADER ≤ n.addr
  mem : ∀ n ∈ v, n ∈ l

/-- The loop of `free` ends, at the place of a block that overlaps no other one. -/
theorem FreeList.place (hF : FreeList base lo top h l) (hb : InHeap lo top b) (hdisj : ∀ n ∈ l, Disjoint HEADER n b)
    (hfuel : l.length < fuel) :
    ∃ u p v, findPlace h.hdr b.addr fuel h.freep = some p.addr ∧ Place base l u p v b := by
  have hne : ∀ n ∈ l, n.addr ≠ b.addr := fun n hn => (hdisj n hn).addr_ne (hF.inHeap n hn).bytes_pos hb.bytes_pos
  obtain ⟨u, p, v, hl, hfind, hp, hv⟩ := hF.exists_findPlace (hF.base_lt hb) hne hfuel
  have hmem : ∀ n ∈ v, n ∈ l := by
    intro n hn
    have hmem : n ∈ (⟨base, 0⟩ :: l : List Block) := hl ▸ List.mem_append_right u (List.mem_cons_of_mem p hn)
    rcases List.mem_cons.mp hmem with rfl | hmem
    · exact absurd (hv _ hn) (Nat.not_lt_of_lt (hF.base_lt hb))
    · exact hmem
  refine ⟨u, p, v, hfind, hl, hp, ?_, fun n hn => ?_, hmem⟩
  · have hpl : p ∈ (⟨base, 0⟩ :: l : List Block) := hl ▸ List.mem_append_right u List.mem_cons_self
    rcases List.mem_cons.mp hpl with rfl | hpl
    · exact Nat.le_of_lt (hF.base_lt hb)
    · rcases hdisj p hpl with hd | hd
      · exact hd
      · have := Extents.addr_le_stop HEADER b
        omega
  · have := hv n hn
    rcases hdisj n (hmem n hn) with hd | hd
    · have := Extents.addr_le_stop HEADER n
      omega
    · exact hd

/-- The two steps of `free` give the list with the block in it. -/
theorem Place.rep {u v : List Block} {p : Block} (hp : Place base l u p v b) (hF : FreeList base lo top h l)
    (hb : InHeap lo top b) (hsize : (h.hdr b.addr).size = b.size) (hlt : total l + b.size < 2 ^ 32) :
    Rep (link (link h.hdr b.addr (h.hdr p.addr).ptr) p.addr b.addr) (u ++ join HEADER p b v) base := by
  have htotal : total l = total u + (p.size + total v) := by
    rw [← Extents.total_cons, ← Extents.total_append, ← hp.split, Extents.total_cons, Nat.zero_add]
  have hrep := hF.rep
  have hapart := hF.apart
  rw [hp.split] at hrep hapart
  obtain ⟨hu, hpv⟩ := rep_append.mp hrep
  obtain ⟨hp_hdr, hv⟩ := rep_cons.mp hpv
  have hlt' := hp.lt
  have hright : ∀ c ∈ joinRight HEADER b v, b.addr ≤ c.addr :=
    Extents.forall_mem_joinRight le_rfl (fun n hn => (Extents.addr_le_stop HEADER b).trans (hp.above n hn)) fun _ _ _ => le_rfl
  -- the first step, with what follows
  have hrep₁ : Rep (link h.hdr b.addr (h.hdr p.addr).ptr) (joinRight HEADER b v) base := by
    rw [hp_hdr]
    refine hv.link hsize (by omega) (fun n hn heq => ?_) fun _ heq => ?_
    · have := hp.above n hn
      have := hb.bytes_pos
      rw [Block.stop] at *
      omega
    · have := Extents.addr_le_stop HEADER b
      have := (hF.base_lt hb)
      omega
  -- the second step, with `p`
  obtain ⟨c, w, hcw, hc⟩ := Extents.exists_joinRight HEADER b v
  have hhead : ((joinRight HEADER b v).map Block.addr).headD base = b.addr := by
    rw [hcw, List.map_cons, List.headD_cons, hc]
  have hrep₂ := hrep₁.link (b := p) (by rw [link_of_ne (by omega), hp_hdr]) (by rw [Extents.total_joinRight]; omega)
    (fun n hn => by have := hright n hn; omega) fun hnil => absurd (hcw.symm.trans hnil) (List.cons_ne_nil c w)
  rw [hhead] at hrep₂
  -- the blocks before `p` are as they were
  obtain ⟨d, w', hdw, hd⟩ := Extents.exists_joinRight HEADER p (joinRight HEADER b v)
  have hhead' : ((join HEADER p b v).map Block.addr).headD base = p.addr := by
    rw [join, hdw, List.map_cons, List.headD_cons, hd]
  refine rep_append.mpr ⟨?_, hrep₂⟩
  rw [hhead']
  refine hu.congr fun a ha => ?_
  have : a.stop HEADER < p.addr := (List.pairwise_append.mp hapart).2.2 a ha p List.mem_cons_self
  have := Extents.addr_le_stop HEADER a
  rw [link_of_ne (by omega), link_of_ne (by omega)]

theorem Place.inHeap {u v : List Block} {p : Block} (hp : Place base l u p v b) (hF : FreeList base lo top h l)
    (hb : InHeap lo top b) : ∀ c ∈ u ++ join HEADER p b v, c = ⟨base, 0⟩ ∨ InHeap lo top c := by
  have hold := hF.inHeap_or
  rw [hp.split] at hold
  have hright : ∀ c ∈ joinRight HEADER b v, InHeap lo top c :=
    Extents.forall_mem_joinRight hb (fun n hn => hF.inHeap n (hp.mem n hn)) fun n hn heq =>
      hb.join (hF.inHeap n (hp.mem n hn)) heq
  obtain ⟨hu, hpv⟩ := List.forall_mem_append.mp hold
  refine List.forall_mem_append.mpr ⟨hu, Extents.forall_mem_joinRight (hpv p List.mem_cons_self)
    (fun c hc => .inr (hright c hc)) fun c hc heq => .inr ?_⟩
  rcases hpv p List.mem_cons_self with rfl | hp
  · have : base = c.addr := heq
    exact absurd this (Nat.ne_of_lt (hF.base_lt (hright c hc)))
  · exact hp.join (hright c hc) heq

/-- What happens to the blocks of the free list: `l'` has `b` in addition to `l`. -/
structure Added (h h' : Heap σ) (base lo : Nat) (l l' : List Block) (b : Block) : Prop where
  total : total l' = total l + b.size
  length : l'.length ≤ l.length + 1
  disjoint : ∀ x : Block, 0 < HEADER * x.size → (∀ n ∈ l, Disjoint HEADER n x) → Disjoint HEADER b x →
    lo ≤ x.addr → ∀ n ∈ l', Disjoint HEADER n x
  large : ∃ n ∈ l', b.size ≤ n.size
  frame : ∀ a, a ≠ b.addr → a ∉ base :: l.map Block.addr → h'.hdr a = h.hdr a

/-- **`free`** ends and puts the block in its place. -/
theorem FreeList.free (hF : FreeList base lo top h l) (hb : InHeap lo top b) (hsize : (h.hdr b.addr).size = b.size)
    (hdisj : ∀ n ∈ l, Disjoint HEADER n b) (hlt : total l + b.size < 2 ^ 32) (hfuel : l.length < fuel) :
    ∃ h' l', free fuel h (b.addr + HEADER) = some h' ∧ h'.proc = h.proc ∧ FreeList base lo top h' l' ∧ Added h h' base lo l l' b := by
  obtain ⟨u, p, v, hfind, hp⟩ := hF.place hb hdisj hfuel
  obtain ⟨l', hl', hlen⟩ := exists_join_eq hp.split (hF.base_lt hb)
  have hrep := hp.rep hF hb hsize hlt
  have hapart := Extents.pairwise_join (hp.split ▸ hF.apart) hp.below hp.above
  have hin := hp.inHeap hF hb
  have htotal := Extents.total_join HEADER u p b v
  have hlarge := Extents.exists_size_le_join HEADER u p b v
  have hp_mem : p.addr ∈ base :: l.map Block.addr := by
    rw [show base :: l.map Block.addr = (⟨base, 0⟩ :: l : List Block).map Block.addr from rfl, hp.split]
    exact List.mem_map_of_mem (List.mem_append_right u List.mem_cons_self)
  have hp_mem' : p.addr ∈ (⟨base, 0⟩ :: l' : List Block).map Block.addr := by
    obtain ⟨d, w', hdw, hd⟩ := Extents.exists_joinRight HEADER p (joinRight HEADER b v)
    rw [← hl', join, hdw, ← hd]
    exact List.mem_map_of_mem (List.mem_append_right u List.mem_cons_self)
  rw [hl'] at hrep hapart hin htotal hlarge
  rw [← hp.split, Extents.total_cons, Extents.total_cons, Nat.zero_add, Nat.zero_add] at htotal
  refine ⟨{ h with hdr := link (link h.hdr b.addr (h.hdr p.addr).ptr) p.addr b.addr, freep := p.addr }, l', ?_, rfl,
    freeList_of hrep hapart hF.above hin hp_mem', htotal, hlen, fun x hx hxl hxb hlow => ?_, ?_, fun a ha hal => ?_⟩
  · rw [User.free, Nat.add_sub_cancel, hfind]
  · have hall : ∀ c ∈ u ++ join HEADER p b v, Disjoint HEADER c x := by
      refine Extents.disjoint_join ?_ hxb hx
      rw [← hp.split]
      refine List.forall_mem_cons.mpr ⟨.inl ?_, hxl⟩
      exact (Nat.le_add_right base HEADER).trans (hF.above.trans hlow)
    rw [hl'] at hall
    exact (List.forall_mem_cons.mp hall).2
  · obtain ⟨c, hc, hcb⟩ := hlarge
    rcases List.mem_cons.mp hc with rfl | hc
    · exact absurd (Nat.lt_of_lt_of_le hb.pos hcb) (Nat.lt_irrefl 0)
    · exact ⟨c, hc, hcb⟩
  · have hap : a ≠ p.addr := by
      rintro rfl
      exact hal hp_mem
    exact (link_of_ne hap).trans (link_of_ne ha)

/-! ## Taking a block out -/

/-- What happens to the blocks of the free list when `b` is taken out of it. -/
structure Taken (h h' : Heap σ) (base lo top : Nat) (l l' : List Block) (b : Block) : Prop where
  inHeap : InHeap lo top b
  size : (h'.hdr b.addr).size = b.size
  total : total l = total l' + b.size
  length : l'.length ≤ l.length
  apart : ∀ n ∈ l', Disjoint HEADER n b
  inside : ∀ x : Block, 0 < HEADER * x.size → (∀ n ∈ l, Disjoint HEADER n x) → Disjoint HEADER b x
  disjoint : ∀ x : Block, 0 < HEADER * x.size → (∀ n ∈ l, Disjoint HEADER n x) → ∀ n ∈ l', Disjoint HEADER n x
  frame : ∀ a, a ∉ base :: l.map Block.addr → a ≠ b.addr → h'.hdr a = h.hdr a

/-- The block that a block of the list leads to, if it is not `base`. -/
theorem FreeList.exists_next (hF : FreeList base lo top h l) {prevp : Nat} (hprev : prevp ∈ base :: l.map Block.addr)
    (hne : next h.hdr prevp ≠ base) :
    ∃ u q p v, ⟨base, 0⟩ :: l = u ++ q :: p :: v ∧ q.addr = prevp ∧ p.addr = next h.hdr prevp ∧ p ∈ l := by
  obtain ⟨q, hq, rfl⟩ := List.mem_map.mp
    (show prevp ∈ (⟨base, 0⟩ :: l : List Block).map Block.addr from hprev)
  obtain ⟨u, w, hl⟩ := List.append_of_mem hq
  have hrep := hF.rep
  rw [hl, rep_append, rep_cons] at hrep
  cases w with
  | nil => exact absurd (by rw [next, hrep.2.1]; rfl) hne
  | cons p v =>
      refine ⟨u, q, p, v, hl, rfl, by rw [next, hrep.2.1]; rfl, ?_⟩
      have hmem : p ∈ (⟨base, 0⟩ :: l : List Block) :=
        hl ▸ List.mem_append_right u (List.mem_cons_of_mem q List.mem_cons_self)
      rcases List.mem_cons.mp hmem with rfl | hmem
      · exact absurd (by rw [next, hrep.2.1]; rfl) hne
      · exact hmem

/-- `p` in the list, behind `q` and before `v`. -/
structure Behind (base : Nat) (h : Heap σ) (l u : List Block) (q p : Block) (v : List Block) : Prop where
  split : ⟨base, 0⟩ :: l = u ++ q :: p :: v
  mem : p ∈ l
  before : Rep h.hdr u q.addr
  prev : h.hdr q.addr = ⟨p.addr, q.size⟩
  hdr : h.hdr p.addr = ⟨(v.map Block.addr).headD base, p.size⟩
  after : Rep h.hdr v base
  sorted : (u ++ q :: v).Pairwise (Apart HEADER)
  left : ∀ n ∈ u, Apart HEADER n q
  behind : ∀ n ∈ v, Apart HEADER q n
  below : ∀ n ∈ u ++ [q], Apart HEADER n p
  above : ∀ n ∈ v, Apart HEADER p n

theorem FreeList.behind (hF : FreeList base lo top h l) {u v : List Block} {q p : Block}
    (hl : ⟨base, 0⟩ :: l = u ++ q :: p :: v) (hp : p ∈ l) : Behind base h l u q p v := by
  have hrep := hF.rep
  have hapart := hF.apart
  rw [hl] at hrep hapart
  obtain ⟨hu, hqpv⟩ := rep_append.mp hrep
  obtain ⟨hq, hpv⟩ := rep_cons.mp hqpv
  obtain ⟨hp_hdr, hv⟩ := rep_cons.mp hpv
  obtain ⟨-, hqpv', hcross⟩ := List.pairwise_append.mp hapart
  obtain ⟨hqp, hpv'⟩ := List.pairwise_cons.mp hqpv'
  have hsub : List.Sublist (u ++ q :: v) (u ++ q :: p :: v) :=
    (List.Sublist.refl u).append ((List.sublist_cons_self p v).cons_cons q)
  refine ⟨hl, hp, hu, hq, hp_hdr, hv, hapart.sublist hsub, fun n hn => hcross n hn q List.mem_cons_self,
    fun n hn => hqp n (List.mem_cons_of_mem p hn), ?_, (List.pairwise_cons.mp hpv').1⟩
  refine List.forall_mem_append.mpr ⟨fun n hn => ?_, List.forall_mem_singleton.mpr (hqp p List.mem_cons_self)⟩
  exact hcross n hn p (List.mem_cons_of_mem q List.mem_cons_self)

theorem Behind.total {u v : List Block} {q p : Block} (hp : Behind base h l u q p v) :
    total l = total u + (q.size + (p.size + total v)) := by
  rw [← Extents.total_cons, ← Extents.total_cons, ← Extents.total_append, ← hp.split, Extents.total_cons, Nat.zero_add]

theorem Behind.ne {u v : List Block} {q p : Block} (hp : Behind base h l u q p v) :
    (∀ n ∈ u, n.addr ≠ q.addr) ∧ (∀ n ∈ v, n.addr ≠ q.addr) ∧ p.addr ≠ q.addr := by
  have hlt : ∀ {a b : Block}, Apart HEADER a b → a.addr < b.addr := fun hab =>
    Nat.lt_of_le_of_lt (Extents.addr_le_stop HEADER _) hab
  exact ⟨fun n hn => Nat.ne_of_lt (hlt (hp.left n hn)), fun n hn => Nat.ne_of_gt (hlt (hp.behind n hn)),
    Nat.ne_of_gt (hlt (hp.below q (List.mem_append_right u List.mem_cons_self)))⟩

/-- The list with `w` behind `q` begins with `base` too, and has no other blocks than those of `w` and of `l`. -/
theorem Behind.exists_eq {u v : List Block} {q p : Block} (hp : Behind base h l u q p v) (w : List Block) :
    ∃ l', u ++ q :: w = ⟨base, 0⟩ :: l' ∧ (∀ n ∈ l', n ∈ w ∨ n ∈ l) ∧ l'.length + 1 = u.length + (w.length + 1) := by
  have hl := hp.split
  cases u with
  | nil =>
      refine ⟨w, by rw [List.nil_append, (List.cons.inj hl).1], fun n hn => .inl hn, ?_⟩
      rw [List.length_nil, Nat.zero_add]
  | cons a u =>
      obtain ⟨rfl, hl'⟩ := List.cons.inj hl
      refine ⟨u ++ q :: w, rfl, fun n hn => ?_, ?_⟩
      · rw [show l = u ++ q :: p :: v from hl']
        simp only [List.mem_append, List.mem_cons] at hn ⊢
        tauto
      · simp only [List.length_append, List.length_cons]
        omega

theorem Behind.mem_after {u v : List Block} {q p : Block} (hp : Behind base h l u q p v) (hF : FreeList base lo top h l) :
    ∀ n ∈ v, n ∈ l := by
  intro n hn
  have hmem : n ∈ (⟨base, 0⟩ :: l : List Block) := by
    rw [hp.split]
    exact List.mem_append_right u (List.mem_cons_of_mem q (List.mem_cons_of_mem p hn))
  rcases List.mem_cons.mp hmem with rfl | hmem
  · have := hF.base_lt (hF.inHeap p hp.mem)
    have : p.stop HEADER < base := hp.above _ hn
    have := Extents.addr_le_stop HEADER p
    omega
  · exact hmem

/-- Taking all of a block. -/
theorem FreeList.carve_all (hF : FreeList base lo top h l) {u v : List Block} {q p : Block} (hp : Behind base h l u q p v) :
    ∃ h' l', carve h p.size q.addr p.addr = (h', p.addr + HEADER) ∧ h'.proc = h.proc ∧ FreeList base lo top h' l' ∧
      Taken h h' base lo top l l' p := by
  obtain ⟨l', hl', hsub, hlen⟩ := hp.exists_eq v
  obtain ⟨hu_ne, hv_ne, hp_ne⟩ := hp.ne
  have hmem : ∀ n ∈ l', n ∈ l := fun n hn => (hsub n hn).elim (hp.mem_after hF n) id
  obtain ⟨hdr', hhdr'⟩ : ∃ hdr', hdr' = Function.update h.hdr q.addr { h.hdr q.addr with ptr := (h.hdr p.addr).ptr } := ⟨_, rfl⟩
  have hkeep : ∀ a, a ≠ q.addr → hdr' a = h.hdr a := fun a ha => hhdr' ▸ Function.update_of_ne ha _ _
  have hrep : Rep hdr' (u ++ q :: v) base := by
    rw [rep_append, rep_cons]
    refine ⟨hp.before.congr fun n hn => hkeep _ (hu_ne n hn), ?_, hp.after.congr fun n hn => hkeep _ (hv_ne n hn)⟩
    rw [hhdr', Function.update_self, hp.prev, hp.hdr]
  have hsorted := hp.sorted
  have htotal : total (u ++ q :: v) = total l' := by rw [hl', Extents.total_cons, Nat.zero_add]
  have hfreep : q.addr ∈ (u ++ q :: v).map Block.addr := List.mem_map_of_mem (List.mem_append_right u List.mem_cons_self)
  rw [hl'] at hrep hsorted hfreep
  refine ⟨{ h with hdr := hdr', freep := q.addr }, l', ?_, rfl, freeList_of hrep hsorted hF.above ?_ hfreep,
    hF.inHeap p hp.mem, ?_, ?_, ?_, fun n hn => ?_, fun x _ hx => hx p hp.mem, fun x _ hx n hn => hx n (hmem n hn), fun a ha _ => ?_⟩
  · rw [User.carve, if_pos (by rw [hp.hdr]), hhdr']
  · exact List.forall_mem_cons.mpr ⟨.inl rfl, fun n hn => .inr (hF.inHeap n (hmem n hn))⟩
  · show (hdr' p.addr).size = p.size
    rw [hkeep _ hp_ne, hp.hdr]
  · rw [hp.total, ← htotal, Extents.total_append, Extents.total_cons]
    omega
  · have := congrArg List.length hp.split
    simp only [List.length_cons, List.length_append] at this
    omega
  · -- the others are those before `p` and those behind it
    have hn' : n ∈ u ++ q :: v := hl' ▸ List.mem_cons_of_mem _ hn
    rw [show u ++ q :: v = u ++ [q] ++ v by rw [List.append_assoc]; rfl, List.mem_append] at hn'
    rcases hn' with hn' | hn'
    · exact (hp.below n hn').disjoint
    · exact (hp.above n hn').disjoint.symm
  · refine hkeep a ?_
    rintro rfl
    refine ha ?_
    rw [show base :: l.map Block.addr = (⟨base, 0⟩ :: l : List Block).map Block.addr from rfl, hp.split]
    exact List.mem_map_of_mem (List.mem_append_right u List.mem_cons_self)

/-- Taking the tail end of a block. -/
theorem FreeList.carve_tail (hF : FreeList base lo top h l) {u v : List Block} {q p : Block} (hp : Behind base h l u q p v)
    (hpos : 0 < nunits) (hlt : nunits < p.size) :
    ∃ h' l', carve h nunits q.addr p.addr = (h', p.addr + HEADER * (p.size - nunits) + HEADER) ∧ h'.proc = h.proc ∧
      FreeList base lo top h' l' ∧ Taken h h' base lo top l l' ⟨p.addr + HEADER * (p.size - nunits), nunits⟩ := by
  obtain ⟨rest, hrest⟩ : ∃ rest, rest = p.size - nunits := ⟨_, rfl⟩
  obtain ⟨c, hc⟩ : ∃ c : Block, c = ⟨p.addr, rest⟩ := ⟨_, rfl⟩
  obtain ⟨b, hb⟩ : ∃ b : Block, b = ⟨p.addr + HEADER * rest, nunits⟩ := ⟨_, rfl⟩
  have hin := hF.inHeap p hp.mem
  have hstart : c.addr = p.addr := by rw [hc]
  have hmiddle : c.stop HEADER = b.addr := by rw [hc, hb, Block.stop]
  have hstop : b.stop HEADER = p.stop HEADER := by
    rw [hb, Block.stop, Block.stop, Nat.add_assoc, ← Nat.mul_add, hrest, Nat.sub_add_cancel (Nat.le_of_lt hlt)]
  have hc_pos : 0 < HEADER * c.size := Nat.mul_pos (by decide) (by rw [hc]; exact hrest ▸ Nat.sub_pos_of_lt hlt)
  have hb_pos : 0 < HEADER * b.size := Nat.mul_pos (by decide) (by rw [hb]; exact hpos)
  have hcb : c.addr < b.addr := by
    rw [Block.stop] at hmiddle
    omega
  have hbs : b.addr < b.stop HEADER := Nat.lt_add_of_pos_right hb_pos
  obtain ⟨l', hl', hsub, hlen⟩ := hp.exists_eq (c :: v)
  have hmem : ∀ n ∈ l', n = c ∨ n ∈ l := fun n hn => (hsub n hn).elim
    (fun hn => (List.mem_cons.mp hn).imp id (hp.mem_after hF n)) .inr
  -- only sizes change
  obtain ⟨hdr₁, hhdr₁⟩ : ∃ hdr₁, hdr₁ = Function.update h.hdr p.addr { h.hdr p.addr with size := rest } := ⟨_, rfl⟩
  obtain ⟨hdr', hhdr'⟩ : ∃ hdr', hdr' = Function.update hdr₁ b.addr { hdr₁ b.addr with size := nunits } := ⟨_, rfl⟩
  have hkeep : ∀ a, a ≠ p.addr → a ≠ b.addr → hdr' a = h.hdr a := fun a hap hab => by
    rw [hhdr', Function.update_of_ne hab, hhdr₁, Function.update_of_ne hap]
  have hc_hdr : hdr' c.addr = ⟨(h.hdr p.addr).ptr, c.size⟩ := by
    rw [hhdr', Function.update_of_ne (Nat.ne_of_lt hcb), hhdr₁, hstart, Function.update_self, hc]
  have hbefore : ∀ n ∈ u ++ [q], hdr' n.addr = h.hdr n.addr := fun n hn => by
    have : n.stop HEADER < p.addr := hp.below n hn
    have := Extents.addr_le_stop HEADER n
    exact hkeep _ (by omega) (by omega)
  have hafter : ∀ n ∈ v, hdr' n.addr = h.hdr n.addr := fun n hn => by
    have : p.stop HEADER < n.addr := hp.above n hn
    exact hkeep _ (by omega) (by omega)
  obtain ⟨hu, hq⟩ := List.forall_mem_append.mp hbefore
  have hrep : Rep hdr' (u ++ q :: c :: v) base := by
    rw [rep_append, rep_cons, rep_cons]
    refine ⟨hp.before.congr hu, ?_, ?_, hp.after.congr hafter⟩
    · rw [hq q List.mem_cons_self, hp.prev, List.map_cons, List.headD_cons, hstart]
    · rw [hc_hdr, hp.hdr]
  have hbelow : ∀ n ∈ u ++ [q], Apart HEADER n c := fun n hn => by
    rw [Apart, hstart]
    exact hp.below n hn
  have habove : ∀ n ∈ v, Apart HEADER c n := fun n hn => by
    have : p.stop HEADER < n.addr := hp.above n hn
    rw [Apart]
    omega
  have hassoc : ∀ w, u ++ q :: w = u ++ [q] ++ w := fun w => by rw [List.append_assoc]; rfl
  have hsorted : (u ++ q :: c :: v).Pairwise (Apart HEADER) := by
    rw [hassoc]
    exact Extents.pairwise_insert (hassoc v ▸ hp.sorted) hbelow habove
  have htotal : total (u ++ q :: c :: v) = total l' := by rw [hl', Extents.total_cons, Nat.zero_add]
  have hfreep : q.addr ∈ (u ++ q :: c :: v).map Block.addr := List.mem_map_of_mem (List.mem_append_right u List.mem_cons_self)
  rw [hl'] at hrep hsorted hfreep
  have hc_in : InHeap lo top c := ⟨Nat.pos_of_mul_pos_left hc_pos, hstart ▸ hin.low, by
    have := hin.high
    omega⟩
  rw [← hrest, ← hb]
  refine ⟨{ h with hdr := hdr', freep := q.addr }, l', ?_, rfl, freeList_of hrep hsorted hF.above ?_ hfreep,
    ⟨Nat.pos_of_mul_pos_left hb_pos, ?_, hstop ▸ hin.high⟩, ?_, ?_, ?_, fun n hn => ?_, fun x _ hx => ?_, fun x _ hx n hn => ?_,
    fun a ha hab => hkeep a ?_ hab⟩
  · rw [User.carve, if_neg (by rw [hp.hdr]; exact Nat.ne_of_gt hlt), hp.hdr]
    simp only [← hrest, hhdr', hhdr₁, hb, hp.hdr]
  · refine List.forall_mem_cons.mpr ⟨.inl rfl, fun n hn => .inr ?_⟩
    rcases hmem n hn with rfl | hn
    · exact hc_in
    · exact hF.inHeap n hn
  · have := hin.low
    omega
  · show (hdr' b.addr).size = b.size
    rw [hhdr', Function.update_self, hb]
  · have hsize : c.size + b.size = p.size := by
      rw [hb, hc, hrest]
      exact Nat.sub_add_cancel (Nat.le_of_lt hlt)
    rw [hp.total, ← htotal, Extents.total_append, Extents.total_cons, Extents.total_cons]
    omega
  · have := congrArg List.length hp.split
    simp only [List.length_cons, List.length_append] at this hlen
    omega
  · have hn' : n ∈ u ++ q :: c :: v := hl' ▸ List.mem_cons_of_mem _ hn
    rw [hassoc, List.mem_append, List.mem_cons] at hn'
    rcases hn' with hn' | rfl | hn'
    · have : n.stop HEADER < c.addr := hbelow n hn'
      exact .inl (by omega)
    · exact .inl (Nat.le_of_eq hmiddle)
    · have : p.stop HEADER < n.addr := hp.above n hn'
      exact .inr (by omega)
  · rcases hx p hp.mem with hx | hx
    · exact .inl (by omega)
    · exact .inr (by omega)
  · rcases hmem n hn with rfl | hn
    · rcases hx p hp.mem with hx | hx
      · exact .inl (by omega)
      · exact .inr (by omega)
    · exact hx n hn
  · rintro rfl
    exact ha (List.mem_cons_of_mem base (List.mem_map_of_mem hp.mem))

/-- **`carve`** takes the block, or its tail end, out of the list. -/
theorem FreeList.carve (hF : FreeList base lo top h l) {prevp : Nat} (hprev : prevp ∈ base :: l.map Block.addr)
    (hpos : 0 < nunits) (hfit : nunits ≤ (h.hdr (next h.hdr prevp)).size) :
    ∃ h' l' b, carve h nunits prevp (next h.hdr prevp) = (h', b.addr + HEADER) ∧ h'.proc = h.proc ∧ b.size = nunits ∧
      FreeList base lo top h' l' ∧ Taken h h' base lo top l l' b := by
  have hbase : (h.hdr base).size = 0 := hF.rep.sizes ⟨base, 0⟩ List.mem_cons_self
  have hne : next h.hdr prevp ≠ base := by
    intro heq
    rw [heq, hbase] at hfit
    omega
  obtain ⟨u, q, p, v, hl, rfl, hnext, hmem⟩ := hF.exists_next hprev hne
  have hp := hF.behind hl hmem
  rw [← hnext, hp.hdr] at hfit
  rw [← hnext]
  rcases Nat.eq_or_lt_of_le hfit with rfl | hlt
  · obtain ⟨h', l', hrun, hproc, hF', ht⟩ := hF.carve_all hp
    exact ⟨h', l', p, hrun, hproc, rfl, hF', ht⟩
  · obtain ⟨h', l', hrun, hproc, hF', ht⟩ := hF.carve_tail hp hpos hlt
    exact ⟨h', l', _, hrun, hproc, rfl, hF', ht⟩

/-! ## The loop of `malloc` -/

/-- What the loop does when it has come back to `freep` without finding a block. -/
def refill (K : Kernel σ) (nunits fuel : Nat) (h : Heap σ) : Except (Stop σ) (Heap σ × Nat) :=
  match morecore K fuel h nunits with
  | .error e => .error e
  | .ok (h, none) => .ok (h, 0)
  | .ok (h, some p) => mallocLoop K nunits fuel h p (next h.hdr p)

/-- One turn around the list from `prevp` to `freep`: the loop takes from the first block that is large enough, or comes
    to `freep` and asks for more. -/
theorem mallocLoop_scan (K : Kernel σ) (fuel : Nat) (w : List Nat) {prevp : Nat} (hw : Links (next h.hdr) (prevp :: w) h.freep)
    (hfreep : h.freep ∉ w) (hfuel : w.length < fuel) :
    (∃ q ∈ prevp :: w, nunits ≤ (h.hdr (next h.hdr q)).size ∧
      mallocLoop K nunits fuel h prevp (next h.hdr prevp) = .ok (carve h nunits q (next h.hdr q))) ∨
    ((∀ x ∈ w ++ [h.freep], (h.hdr x).size < nunits) ∧
      mallocLoop K nunits fuel h prevp (next h.hdr prevp) = refill K nunits (fuel - w.length - 1) h) := by
  induction w generalizing prevp fuel with
  | nil =>
      obtain ⟨fuel, rfl⟩ := Nat.exists_eq_add_one_of_ne_zero (Nat.ne_of_gt hfuel)
      have hnext : next h.hdr prevp = h.freep := hw.1
      rw [hnext, mallocLoop]
      by_cases hfit : nunits ≤ (h.hdr h.freep).size
      · exact .inl ⟨prevp, List.mem_cons_self, hnext ▸ hfit, by rw [if_pos hfit, hnext]⟩
      · refine .inr ⟨List.forall_mem_singleton.mpr (Nat.lt_of_not_le hfit), ?_⟩
        rw [if_neg hfit, if_pos rfl]
        rfl
  | cons p w ih =>
      obtain ⟨fuel, rfl⟩ := Nat.exists_eq_add_one_of_ne_zero (Nat.ne_of_gt (Nat.zero_lt_of_lt hfuel))
      have hnext : next h.hdr prevp = p := hw.1
      rw [List.mem_cons, not_or] at hfreep
      rw [hnext, mallocLoop]
      by_cases hfit : nunits ≤ (h.hdr p).size
      · exact .inl ⟨prevp, List.mem_cons_self, hnext ▸ hfit, by rw [if_pos hfit, hnext]⟩
      · rw [if_neg hfit, if_neg (Ne.symm hfreep.1)]
        rcases ih fuel hw.2 hfreep.2 (Nat.lt_of_succ_lt_succ hfuel) with ⟨q, hq, hqfit, hrun⟩ | ⟨hnone, hrun⟩
        · exact .inl ⟨q, List.mem_cons_of_mem _ hq, hqfit, hrun⟩
        · refine .inr ⟨List.forall_mem_cons.mpr ⟨Nat.lt_of_not_le hfit, hnone⟩, ?_⟩
          rw [List.length_cons, Nat.add_sub_add_right]
          exact hrun

end Xv6.User
