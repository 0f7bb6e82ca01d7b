import Mathlib

/-!
# `Extents` — sorted lists of blocks with a gap between any two

A block has an address and a size in units of `w` bytes. In a list sorted by `Apart` the blocks are disjoint and no two
touch. A new block goes between `p` and `v` by joining it with what follows, if they touch, and then with `p`, if those
touch; the list stays sorted (`pairwise_join`), its total size grows by that of the block (`total_join`), and it covers
no byte that it did not cover before or that is not in the block (`disjoint_join`).
-/

namespace Extents

/-- A block of memory: where it begins and how many units it has. -/
structure Block where
  addr : Nat
  size : Nat
  deriving DecidableEq

variable {w : Nat} {a b c p : Block} {u v l : List Block}

/-- The first address behind the block. -/
def Block.stop (w : Nat) (b : Block) : Nat := b.addr + w * b.size

/-- `a` ends below the beginning of `b`, with a gap. -/
def Apart (w : Nat) (a b : Block) : Prop := a.stop w < b.addr

/-- The blocks do not overlap. -/
def Disjoint (w : Nat) (a b : Block) : Prop := a.stop w ≤ b.addr ∨ b.stop w ≤ a.addr

/-- The units of all blocks together. -/
def total (l : List Block) : Nat := (l.map Block.size).sum

/-- `b` before `v`, joined with the first block of `v` if it touches it. -/
def joinRight (w : Nat) (b : Block) : List Block → List Block
  | [] => [b]
  | n :: v => if b.stop w = n.addr then ⟨b.addr, b.size + n.size⟩ :: v else b :: n :: v

theorem joinRight_cons_of_ne {n : Block} (h : b.stop w ≠ n.addr) : joinRight w b (n :: v) = b :: n :: v := if_neg h

theorem joinRight_cons_of_eq {n : Block} (h : b.stop w = n.addr) :
    joinRight w b (n :: v) = ⟨b.addr, b.size + n.size⟩ :: v := if_pos h

theorem stop_join {n : Block} (h : b.stop w = n.addr) : Block.stop w ⟨b.addr, b.size + n.size⟩ = n.stop w := by
  simp only [Block.stop] at h ⊢
  rw [Nat.mul_add, ← Nat.add_assoc, h]

theorem addr_le_stop (w : Nat) (b : Block) : b.addr ≤ b.stop w := Nat.le_add_right _ _

theorem Apart.disjoint (h : Apart w a b) : Disjoint w a b := .inl (Nat.le_of_lt h)

theorem Disjoint.symm (h : Disjoint w a b) : Disjoint w b a := Or.symm h

instance : Std.Symm (Disjoint w) := ⟨fun _ _ h => h.symm⟩

theorem Disjoint.addr_ne (h : Disjoint w a b) (ha : 0 < w * a.size) (hb : 0 < w * b.size) : a.addr ≠ b.addr := by
  rw [Disjoint, Block.stop, Block.stop] at h
  omega

theorem total_cons (b : Block) (l : List Block) : total (b :: l) = b.size + total l := by
  rw [total, List.map_cons, List.sum_cons, total]

theorem total_append (u v : List Block) : total (u ++ v) = total u + total v := by
  rw [total, List.map_append, List.sum_append, total, total]

theorem pairwise_insert (hl : (u ++ v).Pairwise (Apart w)) (hu : ∀ n ∈ u, Apart w n b) (hv : ∀ n ∈ v, Apart w b n) :
    (u ++ b :: v).Pairwise (Apart w) := by
  obtain ⟨hu', hv', hcross⟩ := List.pairwise_append.mp hl
  exact List.pairwise_append.mpr ⟨hu', List.pairwise_cons.mpr ⟨hv, hv'⟩, fun a ha =>
    List.forall_mem_cons.mpr ⟨hu a ha, hcross a ha⟩⟩

/-! ## Joining -/

/-- Joining keeps the address of the first block. -/
theorem exists_joinRight (w : Nat) (b : Block) (v : List Block) :
    ∃ c v', joinRight w b v = c :: v' ∧ c.addr = b.addr := by
  cases v with
  | nil => exact ⟨b, [], rfl, rfl⟩
  | cons n v =>
      by_cases h : b.stop w = n.addr
      · exact ⟨_, v, joinRight_cons_of_eq h, rfl⟩
      · exact ⟨b, n :: v, joinRight_cons_of_ne h, rfl⟩

/-- A property of all blocks after joining: of the first, of the others, and of the first with the one it touches. -/
theorem forall_mem_joinRight {P : Block → Prop} (hb : P b) (hv : ∀ n ∈ v, P n)
    (hjoin : ∀ n ∈ v, b.stop w = n.addr → P ⟨b.addr, b.size + n.size⟩) : ∀ c ∈ joinRight w b v, P c := by
  cases v with
  | nil => exact List.forall_mem_singleton.mpr hb
  | cons n v =>
      by_cases h : b.stop w = n.addr
      · rw [joinRight_cons_of_eq h]
        exact List.forall_mem_cons.mpr ⟨hjoin n List.mem_cons_self h, (List.forall_mem_cons.mp hv).2⟩
      · rw [joinRight_cons_of_ne h]
        exact List.forall_mem_cons.mpr ⟨hb, hv⟩

theorem total_joinRight (w : Nat) (b : Block) (v : List Block) : total (joinRight w b v) = b.size + total v := by
  cases v with
  | nil => rw [joinRight, total_cons]
  | cons n v =>
      by_cases h : b.stop w = n.addr
      · rw [joinRight_cons_of_eq h, total_cons, total_cons, Nat.add_assoc]
      · rw [joinRight_cons_of_ne h, total_cons]

/-- A block that lies before all of `v`, joined to it. -/
theorem pairwise_joinRight (hv : v.Pairwise (Apart w)) (hb : ∀ n ∈ v, b.stop w ≤ n.addr) :
    (joinRight w b v).Pairwise (Apart w) := by
  cases v with
  | nil => exact List.pairwise_singleton _ _
  | cons n v =>
      have hn := List.forall_mem_cons.mp hb
      obtain ⟨hnv, hv'⟩ := List.pairwise_cons.mp hv
      by_cases h : b.stop w = n.addr
      · rw [joinRight_cons_of_eq h]
        refine List.pairwise_cons.mpr ⟨fun c hc => ?_, hv'⟩
        rw [Apart, stop_join h]
        exact hnv c hc
      · rw [joinRight_cons_of_ne h]
        have hlt : Apart w b n := Nat.lt_of_le_of_ne hn.1 h
        refine List.pairwise_cons.mpr ⟨List.forall_mem_cons.mpr ⟨hlt, fun c hc => ?_⟩, hv⟩
        exact Nat.lt_trans hlt (Nat.lt_of_le_of_lt (addr_le_stop w n) (hnv c hc))

theorem disjoint_joinRight {x : Block} (hb : Disjoint w b x) (hv : ∀ n ∈ v, Disjoint w n x) (hx : 0 < w * x.size) :
    ∀ c ∈ joinRight w b v, Disjoint w c x := by
  refine forall_mem_joinRight hb hv fun n hn h => ?_
  rw [Disjoint, stop_join h]
  rcases hb with hb | hb
  · rcases hv n hn with hn | hn
    · exact .inl hn
    · -- `x` would lie between two blocks that touch
      rw [Block.stop] at hn
      omega
  · exact .inr hb

/-! ## Putting a block in its place -/

/-- The place of an address in a sorted list that begins below it. -/
theorem exists_place {x : Nat} (hl : (a :: l).Pairwise (Apart w)) (ha : a.addr < x) :
    ∃ u p v, a :: l = u ++ p :: v ∧ p.addr < x ∧ ∀ n ∈ v, x ≤ n.addr := by
  induction l generalizing a with
  | nil => exact ⟨[], a, [], rfl, ha, nofun⟩
  | cons b l ih =>
      obtain ⟨hab, hbl⟩ := List.pairwise_cons.mp hl
      by_cases hb : b.addr < x
      · obtain ⟨u, p, v, heq, hp, hv⟩ := ih hbl hb
        exact ⟨a :: u, p, v, congrArg (a :: ·) heq, hp, hv⟩
      · obtain ⟨hbl', -⟩ := List.pairwise_cons.mp hbl
        refine ⟨[], a, b :: l, rfl, ha, List.forall_mem_cons.mpr ⟨Nat.le_of_not_lt hb, fun n hn => ?_⟩⟩
        exact (Nat.le_of_not_lt hb).trans ((addr_le_stop w b).trans (Nat.le_of_lt (hbl' n hn)))

/-- `b` between `p` and `v`. -/
def join (w : Nat) (p b : Block) (v : List Block) : List Block := joinRight w p (joinRight w b v)

theorem pairwise_join (hl : (u ++ p :: v).Pairwise (Apart w)) (hp : p.stop w ≤ b.addr) (hb : ∀ n ∈ v, b.stop w ≤ n.addr) :
    (u ++ join w p b v).Pairwise (Apart w) := by
  obtain ⟨hu, hpv, hcross⟩ := List.pairwise_append.mp hl
  obtain ⟨-, hv⟩ := List.pairwise_cons.mp hpv
  have hbv : ∀ c ∈ joinRight w b v, p.stop w ≤ c.addr :=
    forall_mem_joinRight hp (fun n hn => hp.trans ((addr_le_stop w b).trans (hb n hn))) fun _ _ _ => hp
  refine List.pairwise_append.mpr ⟨hu, pairwise_joinRight (pairwise_joinRight hv hb) hbv, fun a ha c hc => ?_⟩
  have hap : Apart w a p := hcross a ha p List.mem_cons_self
  have hle : ∀ c ∈ join w p b v, p.addr ≤ c.addr :=
    forall_mem_joinRight le_rfl (fun n hn => (addr_le_stop w p).trans (hbv n hn)) fun _ _ _ => le_rfl
  exact Nat.lt_of_lt_of_le hap (hle c hc)

theorem total_join (w : Nat) (u : List Block) (p b : Block) (v : List Block) :
    total (u ++ join w p b v) = total (u ++ p :: v) + b.size := by
  rw [total_append, total_append, join, total_joinRight, total_joinRight, total_cons]
  omega

/-- The block is in the list, perhaps as a part of a larger one. -/
theorem exists_size_le_join (w : Nat) (u : List Block) (p b : Block) (v : List Block) :
    ∃ c ∈ u ++ join w p b v, b.size ≤ c.size := by
  have hright : ∃ c v', joinRight w b v = c :: v' ∧ b.size ≤ c.size := by
    cases v with
    | nil => exact ⟨b, [], rfl, le_rfl⟩
    | cons n v =>
        by_cases h : b.stop w = n.addr
        · exact ⟨_, v, joinRight_cons_of_eq h, Nat.le_add_right _ _⟩
        · exact ⟨b, n :: v, joinRight_cons_of_ne h, le_rfl⟩
  obtain ⟨c, v', hcv, hc⟩ := hright
  rw [join, hcv]
  by_cases h : p.stop w = c.addr
  · rw [joinRight_cons_of_eq h]
    exact ⟨_, List.mem_append_right u List.mem_cons_self, hc.trans (Nat.le_add_left _ _)⟩
  · rw [joinRight_cons_of_ne h]
    exact ⟨c, List.mem_append_right u (List.mem_cons_of_mem p List.mem_cons_self), hc⟩

theorem length_joinRight_le (w : Nat) (b : Block) (v : List Block) : (joinRight w b v).length ≤ v.length + 1 := by
  cases v with
  | nil => exact le_rfl
  | cons n v =>
      by_cases h : b.stop w = n.addr
      · rw [joinRight_cons_of_eq h]
        exact Nat.le_succ _
      · rw [joinRight_cons_of_ne h, List.length_cons]

theorem disjoint_join {x : Block} (hl : ∀ n ∈ u ++ p :: v, Disjoint w n x) (hb : Disjoint w b x) (hx : 0 < w * x.size) :
    ∀ c ∈ u ++ join w p b v, Disjoint w c x := by
  obtain ⟨hu, hpv⟩ := List.forall_mem_append.mp hl
  obtain ⟨hp, hv⟩ := List.forall_mem_cons.mp hpv
  exact List.forall_mem_append.mpr ⟨hu, disjoint_joinRight hp (disjoint_joinRight hb hv hx) hx⟩

end Extents
