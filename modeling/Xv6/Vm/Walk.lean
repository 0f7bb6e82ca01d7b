import Xv6.Lib.Outcome
import Xv6.Lib.Radix
import Xv6.Vm.Model

/-!
# `Vm.Walk` — the three-level page table is a finite map

A page table is a tree of table pages (`Radix.Tree`) over the entries that raw memory holds; `lookup` is the
entry that `walk` finds for a page number, 0 if it finds none. `walk` with `alloc` links fresh table pages into
the tree and changes no lookup (`Links`), and writing the entry it returns changes exactly one. What
`mappages` and `uvmunmap` do to all lookups follows by induction over their turns
(**`page_table_is_finite_map`**).
-/

namespace Xv6.Vm

open Radix (descend Tree Reaches Linked)

variable {m m' m₁ : Kmem} {root x y t pg vpn vpn' k : Nat} {i j : Fin 512} {va pa perm v : UInt64}
  {p : List (Fin 512)}

/-! ## Entries in memory -/

theorem pte_of_page (h : m'.page pg = m.page pg) (i : Fin 512) : m'.pte pg i = m.pte pg i := by
  rw [Kmem.pte, Kmem.pte, h]

theorem pte_setPte_self (m : Kmem) (pg : Nat) (i : Fin 512) (v : UInt64) : (m.setPte pg i v).pte pg i = v := by
  have hpage : (m.setPte pg i v).page pg = Bytes.store (m.page pg) (8 * i) 8 v.toNat := Function.update_self _ _ _
  rw [Kmem.pte, hpage, Bytes.load_store v.toNat_lt, UInt64.ofNat_toNat]

theorem pte_setPte_of_ne (m : Kmem) (v : UInt64) (h : pg ≠ t ∨ j ≠ i) : (m.setPte t i v).pte pg j = m.pte pg j := by
  rw [Kmem.pte, Kmem.pte, Kmem.setPte]
  by_cases hpg : pg = t
  · subst hpg
    have hne : (j : Nat) ≠ i := fun heq => (h.resolve_left (not_not.mpr rfl)) (Fin.ext heq)
    simp only [Function.update_self]
    rw [Bytes.load_store_of_disjoint (by omega)]
  · simp only [Function.update_of_ne hpg]

theorem page_setPte_of_ne (m : Kmem) (i : Fin 512) (v : UInt64) (h : pg ≠ t) : (m.setPte t i v).page pg = m.page pg :=
  Function.update_of_ne h _ _

theorem page_fill_of_ne (m : Kmem) (c : UInt8) (h : pg ≠ t) : (m.fill t c).page pg = m.page pg :=
  Function.update_of_ne h _ _

theorem pte_fill_zero (m : Kmem) (pg : Nat) (i : Fin 512) : (m.fill pg 0).pte pg i = 0 := by
  have hpage : (m.fill pg 0).page pg = fun _ => 0 := Function.update_self _ _ _
  rw [Kmem.pte, hpage, Bytes.load_eq_zero fun _ _ _ => rfl]
  rfl

/-! ## The allocator -/

/-- What `kalloc` does when it has a page. -/
theorem kalloc_some (h : kalloc m = (m', some pg)) :
    m.freelist = pg :: m'.freelist ∧ m.deny 0 = false ∧
      m' = { m with
        deny := fun k => m.deny (k + 1), freelist := m'.freelist, ref := Function.update m.ref pg 1
        page := Function.update m.page pg fun _ => 5 } := by
  unfold kalloc at h
  cases hf : m.freelist with
  | nil => simp [hf] at h
  | cons q rest =>
      simp only [hf] at h
      cases hd : m.deny 0 with
      | true => simp [hd] at h
      | false =>
          simp only [hd, Bool.false_eq_true, if_false, Prod.mk.injEq, Option.some.injEq] at h
          obtain ⟨rfl, rfl⟩ := h
          exact ⟨rfl, rfl, rfl⟩

theorem kalloc_none (h : kalloc m = (m', none)) :
    (m.freelist = [] ∨ m.deny 0 = true) ∧ m' = { m with deny := fun k => m.deny (k + 1) } := by
  unfold kalloc at h
  cases hf : m.freelist with
  | nil =>
      simp only [hf, Prod.mk.injEq, and_true] at h
      exact ⟨.inl rfl, h.symm⟩
  | cons q rest =>
      simp only [hf] at h
      cases hd : m.deny 0 with
      | true =>
          simp only [hd, if_true, Prod.mk.injEq, and_true] at h
          exact ⟨.inr rfl, h.symm⟩
      | false => simp [hd] at h

theorem kalloc_page_of_ne (h : kalloc m = (m', some pg)) (hne : x ≠ pg) : m'.page x = m.page x := by
  rw [(kalloc_some h).2.2]
  exact Function.update_of_ne hne _ _

/-! ## Tables -/

/-- The table that an entry of a table points to. -/
def kid (m : Kmem) (pg : Nat) (i : Fin 512) : Option Nat :=
  if flag (m.pte pg i) PTE_V then some (ppage (m.pte pg i)) else none

/-- The entries of the two upper levels for a page number. -/
def path (vpn : Nat) : List (Fin 512) := [Fin.ofNat 512 (vpn / 512 ^ 2), Fin.ofNat 512 (vpn / 512)]

/-- The entry of the last level. -/
def slot (vpn : Nat) : Fin 512 := Fin.ofNat 512 vpn

/-- The entry of the page table for a page number; 0 if there is no table for it. -/
def lookup (m : Kmem) (root vpn : Nat) : UInt64 :=
  match descend (kid m) root (path vpn) with
  | some t => m.pte t (slot vpn)
  | none => 0

/-- The page number of an address. -/
def vpnOf (va : UInt64) : Nat := va.toNat / PGSIZE

theorem length_path (vpn : Nat) : (path vpn).length = 2 := rfl

/-- Page numbers of 27 bits are told apart by their indices. -/
theorem path_slot_inj (h : vpn < 2 ^ 27) (h' : vpn' < 2 ^ 27) (hp : path vpn = path vpn')
    (hs : slot vpn = slot vpn') : vpn = vpn' := by
  simp only [path, slot, List.cons.injEq, Fin.ext_iff, Fin.val_ofNat, and_true] at hp hs
  omega

theorem index_one_two (va : UInt64) : [index 2 va, index 1 va] = path (vpnOf va) := by
  simp only [path, vpnOf, List.cons.injEq, Fin.ext_iff, Fin.val_ofNat, and_true, PGSIZE_eq]
  exact ⟨index_val 2 le_rfl va, by rw [index_val 1 (by decide), pow_one]⟩

theorem index_zero (va : UInt64) : index 0 va = slot (vpnOf va) := by
  rw [Fin.ext_iff, index_val 0 (by decide), slot, Fin.val_ofNat, vpnOf, pow_zero, Nat.div_one]
  rfl

theorem vpnOf_lt (h : va < MAXVA) : vpnOf va < 2 ^ 26 := by
  have : va.toNat < 2 ^ 38 := toNat_MAXVA ▸ UInt64.lt_iff_toNat_lt.mp h
  rw [vpnOf, PGSIZE_eq]
  omega

theorem kid_of_page (h : m'.page pg = m.page pg) (i : Fin 512) : kid m' pg i = kid m pg i := by
  rw [kid, kid, pte_of_page h]

/-- A lookup reads the tables only. -/
theorem lookup_congr (h : ∀ pg, Reaches (kid m) root 2 pg → m'.page pg = m.page pg) (vpn : Nat) :
    lookup m' root vpn = lookup m root vpn := by
  have hd : descend (kid m') root (path vpn) = descend (kid m) root (path vpn) := by
    refine Radix.descend_congr fun q z hq hz i => kid_of_page (h z ⟨q, ?_, hz⟩) i
    rw [length_path] at hq
    omega
  unfold lookup
  rw [hd]
  cases ht : descend (kid m) root (path vpn) with
  | none => rfl
  | some t => exact pte_of_page (h t ⟨path vpn, le_rfl, ht⟩) _

/-- A page table whose tables are pages of their own, which the allocator does not have. -/
structure Wf (m : Kmem) (root : Nat) : Prop where
  tree : Tree (kid m) root 2
  nodup : m.freelist.Nodup
  fresh : ∀ pg ∈ m.freelist, ¬Reaches (kid m) root 2 pg
  bound : ∀ pg ∈ m.freelist, pg < 2 ^ 52

/-! ## Linking -/

/-- What `walk` does with a page from `kalloc`: it clears the page and points the entry to it. -/
def link (m : Kmem) (x : Nat) (i : Fin 512) (y : Nat) : Kmem :=
  (m.fill y 0).setPte x i (PA2PTE (addr y) ||| PTE_V)

theorem flag_link (y : Nat) : flag (PA2PTE (addr y) ||| PTE_V) PTE_V = true := by
  rw [flag_or]
  simp [show flag PTE_V PTE_V = true from rfl]

theorem ppage_link (h : y < 2 ^ 52) : ppage (PA2PTE (addr y) ||| PTE_V) = y := by
  rw [ppage_or (by decide), ppage_PA2PTE h]

theorem page_link (m : Kmem) (i : Fin 512) (hx : pg ≠ x) (hy : pg ≠ y) : (link m x i y).page pg = m.page pg := by
  rw [link, page_setPte_of_ne _ _ _ hx, page_fill_of_ne _ _ hy]

theorem linked (hk : kalloc m = (m₁, some y)) (hxy : x ≠ y) (hy : y < 2 ^ 52) :
    Linked (kid m) (kid (link m₁ x i y)) x i y where
  entry := by rw [kid, link, pte_setPte_self, flag_link, if_pos rfl, ppage_link hy]
  other j hj := by
    have hpte : (link m₁ x i y).pte x j = m.pte x j := by
      rw [link, pte_setPte_of_ne _ _ (.inr hj)]
      exact pte_of_page ((page_fill_of_ne _ _ hxy).trans (kalloc_page_of_ne hk hxy)) j
    rw [kid, kid, hpte]
  fresh j := by
    have hpte : (link m₁ x i y).pte y j = 0 := by rw [link, pte_setPte_of_ne _ _ (.inl hxy.symm), pte_fill_zero]
    rw [kid, hpte, flag_zero]
    rfl
  frame z hzx hzy j := kid_of_page ((page_link m₁ i hzx hzy).trans (kalloc_page_of_ne hk hzy)) j

/-- `walk` with `alloc` from `m` to `m'`: it links some tables into the tree, and may fail to get another one. -/
inductive Links (root : Nat) : Kmem → Kmem → Prop
  | refl (m : Kmem) : Links root m m
  | denied {m m' : Kmem} (h : kalloc m = (m', none)) : Links root m m'
  | link {m m₁ m' : Kmem} {x y : Nat} {i : Fin 512} {p : List (Fin 512)} (hx : descend (kid m) root p = some x)
      (hp : p.length < 2) (hnone : kid m x i = none) (hk : kalloc m = (m₁, some y))
      (rest : Links root (link m₁ x i y) m') : Links root m m'

section
variable (h : Wf m root) (hx : descend (kid m) root p = some x) (hp : p.length < 2) (hnone : kid m x i = none)
  (hk : kalloc m = (m₁, some y))

include hk

theorem mem_of_kalloc : y ∈ m.freelist := by
  rw [(kalloc_some hk).1]
  exact List.mem_cons_self

include h hx hp

theorem Wf.ne_free : x ≠ y := fun heq => h.fresh y (mem_of_kalloc hk) ⟨p, hp.le, heq ▸ hx⟩

include hnone

theorem Wf.descend_link {q : List (Fin 512)} (hq : q.length ≤ 2) :
    descend (kid (Vm.link m₁ x i y)) root q = if q = p ++ [i] then some y else descend (kid m) root q :=
  h.tree.descend_link hx hp hnone (h.fresh y (mem_of_kalloc hk)) (linked hk (h.ne_free hx hp hk) (h.bound y (mem_of_kalloc hk))) hq

/-- **A link** keeps the tree. -/
theorem Wf.link : Wf (Vm.link m₁ x i y) root := by
  obtain ⟨hfree, -, -⟩ := kalloc_some hk
  have hnodup := h.nodup
  rw [hfree] at hnodup
  have hlist : (Vm.link m₁ x i y).freelist = m₁.freelist := rfl
  have hsub : ∀ {q}, q ∈ m₁.freelist → q ∈ m.freelist := fun hq => hfree ▸ List.mem_cons_of_mem y hq
  refine ⟨?_, hlist ▸ (List.nodup_cons.mp hnodup).2, fun q hq hr => ?_, fun q hq => h.bound q (hsub hq)⟩
  · exact h.tree.link hx hp hnone (h.fresh y (mem_of_kalloc hk)) (linked hk (h.ne_free hx hp hk) (h.bound y (mem_of_kalloc hk)))
  · obtain ⟨r, hr, hrq⟩ := hr
    rw [h.descend_link hx hp hnone hk hr] at hrq
    split at hrq
    · cases hrq
      exact (List.nodup_cons.mp hnodup).1 hq
    · exact h.fresh q (hsub hq) ⟨r, hr, hrq⟩

/-- A link changes no lookup: the new table has no entries. -/
theorem Wf.lookup_link (vpn : Nat) : lookup (Vm.link m₁ x i y) root vpn = lookup m root vpn := by
  have hxy := h.ne_free hx hp hk
  unfold lookup
  rw [h.descend_link hx hp hnone hk (length_path vpn).le]
  split_ifs with hpath
  · have hold : descend (kid m) root (path vpn) = none := by
      rw [hpath, Radix.descend_snoc, hx, Option.bind_some, hnone]
    simp only [hold]
    rw [Vm.link, pte_setPte_of_ne _ _ (.inl hxy.symm), pte_fill_zero]
  · cases ht : descend (kid m) root (path vpn) with
    | none => rfl
    | some t =>
        have hty : t ≠ y := fun heq => h.fresh y (mem_of_kalloc hk) ⟨path vpn, le_rfl, heq ▸ ht⟩
        -- `x` is above the last level, `t` on it
        have htx : t ≠ x := fun heq => by
          have := h.tree.unique le_rfl hp.le ht (heq ▸ hx)
          rw [← this, length_path] at hp
          omega
        exact pte_of_page ((page_link m₁ i htx hty).trans (kalloc_page_of_ne hk hty)) _

end

/-- **`walk` keeps the tree and all lookups**, and a table that was there is where it was. -/
theorem Links.spec (hl : Links root m m') (h : Wf m root) :
    Wf m' root ∧ (∀ vpn, lookup m' root vpn = lookup m root vpn) ∧
      ∀ q x, q.length ≤ 2 → descend (kid m) root q = some x → descend (kid m') root q = some x := by
  induction hl with
  | refl m => exact ⟨h, fun _ => rfl, fun _ _ _ hx => hx⟩
  | denied hk =>
      obtain ⟨-, rfl⟩ := kalloc_none hk
      exact ⟨⟨h.tree, h.nodup, h.fresh, h.bound⟩, fun _ => rfl, fun _ _ _ hx => hx⟩
  | link hx hp hnone hk _ ih =>
      obtain ⟨hwf, hlookup, hmono⟩ := ih (h.link hx hp hnone hk)
      refine ⟨hwf, fun vpn => (hlookup vpn).trans (h.lookup_link hx hp hnone hk vpn), fun q z hq hz => ?_⟩
      refine hmono q z hq ?_
      rw [h.descend_link hx hp hnone hk hq, if_neg, hz]
      rintro rfl
      rw [Radix.descend_snoc, hx, Option.bind_some, hnone] at hz
      cases hz

/-! ## `walk` -/

/-- The entries that `walkLevel` follows. -/
def steps (va : UInt64) : Nat → List (Fin 512)
  | 0 => []
  | level + 1 => index (level + 1) va :: steps va level

/-- **The loop of `walk`** links tables along the path, if it may, and returns the table at its end. -/
theorem walkLevel_links (alloc : Bool) (va : UInt64) {level : Nat} (h : Wf m root)
    (hx : descend (kid m) root p = some x) (hp : p.length + level = 2) :
    Links root m (walkLevel alloc va level m x).1 ∧
      (walkLevel alloc va level m x).2 =
        descend (kid (walkLevel alloc va level m x).1) root (p ++ steps va level) := by
  induction level generalizing m x p with
  | zero =>
      rw [steps, List.append_nil]
      exact ⟨.refl m, hx.symm⟩
  | succ level ih =>
      have hsteps : p ++ steps va (level + 1) = (p ++ [index (level + 1) va]) ++ steps va level := by
        rw [steps, List.append_assoc, List.singleton_append]
      have hlen : (p ++ [index (level + 1) va]).length + level = 2 := by
        rw [List.length_append, List.length_singleton]
        omega
      rw [hsteps, walkLevel]
      by_cases hV : flag (m.pte x (index (level + 1) va)) PTE_V = true
      · simp only [hV, if_true]
        refine ih h ?_ hlen
        rw [Radix.descend_snoc, hx, Option.bind_some, kid, if_pos hV]
      · have hnone : kid m x (index (level + 1) va) = none := if_neg hV
        have hcut : ∀ q, descend (kid m) root ((p ++ [index (level + 1) va]) ++ q) = none := fun q => by
          rw [Radix.descend_append, Radix.descend_snoc, hx, Option.bind_some, hnone]
          rfl
        simp only [hV, Bool.false_eq_true, if_false]
        cases alloc with
        | false => exact ⟨.refl m, (hcut _).symm⟩
        | true =>
            simp only [Bool.not_true, Bool.false_eq_true, if_false]
            rcases hk : kalloc m with ⟨m₁, _ | y⟩
            · obtain ⟨-, hm⟩ := kalloc_none hk
              refine ⟨.denied hk, ?_⟩
              simp only [hm]
              exact (hcut _).symm
            · have hpl : p.length < 2 := by omega
              have hy : descend (kid (link m₁ x (index (level + 1) va) y)) root (p ++ [index (level + 1) va]) =
                  some y := by
                rw [h.descend_link hx hpl hnone hk (by omega), if_pos rfl]
              obtain ⟨hl, heq⟩ := ih (h.link hx hpl hnone hk) hy hlen
              exact ⟨.link hx hpl hnone hk hl, heq⟩

theorem walkLevel_false (va : UInt64) (level : Nat) (m : Kmem) (x : Nat) : (walkLevel false va level m x).1 = m := by
  induction level generalizing x with
  | zero => rfl
  | succ level ih =>
      rw [walkLevel]
      split
      · exact ih _
      · rfl

/-- `walk` without `alloc` returns the entry. -/
theorem walkLevel_false_snd (va : UInt64) (level : Nat) (m : Kmem) (x : Nat) :
    (walkLevel false va level m x).2 = descend (kid m) x (steps va level) := by
  induction level generalizing x with
  | zero => rfl
  | succ level ih =>
      rw [walkLevel, steps, descend, kid]
      by_cases hV : flag (m.pte x (index (level + 1) va)) PTE_V = true
      · simp only [hV, if_true, Option.bind_some]
        exact ih _
      · simp [hV]

theorem steps_two (va : UInt64) : steps va 2 = path (vpnOf va) := index_one_two va

theorem walk_false (m : Kmem) (root : Nat) (hva : va < MAXVA) :
    walk m root va false = .ok (m, (descend (kid m) root (path (vpnOf va))).map fun t => (t, slot (vpnOf va))) := by
  rw [walk, if_neg (UInt64.not_le.mpr hva)]
  simp only [walkLevel_false, walkLevel_false_snd, steps_two, index_zero]

/-- `walk` with `alloc`. -/
theorem walk_true (h : Wf m root) (hva : va < MAXVA) : ∃ m',
    walk m root va true =
        .ok (m', (descend (kid m') root (path (vpnOf va))).map fun t => (t, slot (vpnOf va))) ∧ Links root m m' := by
  obtain ⟨hl, heq⟩ := walkLevel_links true va h (Radix.descend_nil root) (show ([] : List (Fin 512)).length + 2 = 2 from rfl)
  refine ⟨_, ?_, hl⟩
  rw [walk, if_neg (UInt64.not_le.mpr hva), ← steps_two, ← index_zero]
  simp only [heq]
  rfl

/-! ## Writing an entry -/

section
variable (h : Tree (kid m) root 2) (ht : descend (kid m) root (path vpn) = some t)

include h ht

/-- An entry of the last level is no part of the tree. -/
theorem tree_setPte (v : UInt64) : Tree (kid (m.setPte t (slot vpn) v)) root 2 ∧
    ∀ p, p.length ≤ 2 → descend (kid (m.setPte t (slot vpn) v)) root p = descend (kid m) root p := by
  refine h.congr fun q z hq hz i => kid_of_page (page_setPte_of_ne m _ v fun heq => ?_) i
  have := h.unique hq.le le_rfl hz (heq ▸ ht)
  rw [this, length_path] at hq
  omega

/-- **Writing an entry** changes one lookup. -/
theorem lookup_setPte (v : UInt64) (hv : vpn < 2 ^ 27) (hv' : vpn' < 2 ^ 27) :
    lookup (m.setPte t (slot vpn) v) root vpn' = if vpn' = vpn then v else lookup m root vpn' := by
  unfold lookup
  rw [(tree_setPte h ht v).2 _ (length_path vpn').le]
  split_ifs with heq
  · rw [heq, ht]
    exact pte_setPte_self m t _ v
  · cases ht' : descend (kid m) root (path vpn') with
    | none => rfl
    | some t' =>
        refine pte_setPte_of_ne m v ?_
        by_cases htt : t' = t
        · refine .inr fun hslot => heq (path_slot_inj hv' hv ?_ hslot)
          exact h.unique le_rfl le_rfl (htt ▸ ht') ht
        · exact .inl htt

end

theorem Wf.setPte (h : Wf m root) (ht : descend (kid m) root (path vpn) = some t) (v : UInt64) :
    Wf (m.setPte t (slot vpn) v) root := by
  obtain ⟨htree, hd⟩ := tree_setPte h.tree ht v
  refine ⟨htree, h.nodup, fun pg hpg hr => ?_, h.bound⟩
  obtain ⟨p, hp, hpx⟩ := hr
  exact h.fresh pg hpg ⟨p, hp, hd p hp ▸ hpx⟩

/-! ## `mappages` -/

theorem toNat_add_pgsize {a : UInt64} (h : a.toNat + 4096 < 2 ^ 64) : (a + pgsize).toNat = a.toNat + 4096 := by
  rw [UInt64.toNat_add, toNat_pgsize]
  exact Nat.mod_eq_of_lt h

theorem vpnOf_add_pgsize {a : UInt64} (h : a.toNat + 4096 < 2 ^ 64) : vpnOf (a + pgsize) = vpnOf a + 1 := by
  rw [vpnOf, vpnOf, toNat_add_pgsize h, PGSIZE_eq]
  omega

theorem lt_MAXVA {a : UInt64} (h : a.toNat < 2 ^ 38) : a < MAXVA := by
  rw [UInt64.lt_iff_toNat_lt, toNat_MAXVA]
  exact h

/-- The entry that `mappages` writes for the `n`-th page of its range. -/
def mapped (pa perm : UInt64) (n : Nat) : UInt64 := PA2PTE (pa + UInt64.ofNat n * pgsize) ||| perm ||| PTE_V

theorem mapped_zero (pa perm : UInt64) : mapped pa perm 0 = PA2PTE pa ||| perm ||| PTE_V := by
  rw [mapped, show UInt64.ofNat 0 * pgsize = 0 from rfl, UInt64.add_zero]

theorem mapped_succ (pa perm : UInt64) (n : Nat) : mapped (pa + pgsize) perm n = mapped pa perm (n + 1) := by
  have hmul : UInt64.ofNat (n + 1) * pgsize = pgsize + UInt64.ofNat n * pgsize := by
    rw [UInt64.ofNat_add, UInt64.add_mul, UInt64.add_comm]
    rfl
  rw [mapped, mapped, hmul, UInt64.add_assoc]

/-- **The turns of `mappages`**, up to the one that fails to get a table. -/
theorem mappagesLoop_spec (a pa perm : UInt64) (h : Wf m root) (hend : a.toNat + k * 4096 < 2 ^ 38) :
    ∃ m' ok, mappagesLoop root perm k m a pa = .ok (m', ok) ∧ Wf m' root ∧
      (ok = true → ∀ n ≤ k, lookup m' root (vpnOf a + n) = mapped pa perm n) ∧
      ∀ vpn < 2 ^ 27, (vpn < vpnOf a ∨ vpnOf a + k < vpn) → lookup m' root vpn = lookup m root vpn := by
  induction k generalizing m a pa with
  | zero =>
      obtain ⟨m₁, hwalk, hl⟩ := walk_true h (lt_MAXVA (by omega))
      obtain ⟨hwf, hlookup, -⟩ := hl.spec h
      rw [mappagesLoop, hwalk]
      cases ht : descend (kid m₁) root (path (vpnOf a)) with
      | none => exact ⟨m₁, false, rfl, hwf, fun h => (by cases h), fun vpn _ _ => hlookup vpn⟩
      | some t =>
          have hv : vpnOf a < 2 ^ 27 := (vpnOf_lt (lt_MAXVA (by omega))).trans (by decide)
          refine ⟨_, true, rfl, hwf.setPte ht _, fun _ n hn => ?_, fun vpn hvpn hout => ?_⟩
          · obtain rfl : n = 0 := by omega
            rw [Nat.add_zero, lookup_setPte hwf.tree ht _ hv hv, if_pos rfl, mapped_zero]
          · rw [lookup_setPte hwf.tree ht _ hv hvpn, if_neg (by omega), hlookup]
  | succ k ih =>
      obtain ⟨m₁, hwalk, hl⟩ := walk_true h (lt_MAXVA (show a.toNat < 2 ^ 38 by omega))
      obtain ⟨hwf, hlookup, -⟩ := hl.spec h
      rw [mappagesLoop, hwalk]
      cases ht : descend (kid m₁) root (path (vpnOf a)) with
      | none => exact ⟨m₁, false, rfl, hwf, fun h => (by cases h), fun vpn _ _ => hlookup vpn⟩
      | some t =>
          have hv : vpnOf a < 2 ^ 27 := (vpnOf_lt (lt_MAXVA (by omega))).trans (by decide)
          have hnext : vpnOf (a + pgsize) = vpnOf a + 1 := vpnOf_add_pgsize (by omega)
          obtain ⟨m', ok, hrun, hwf', hin, hout⟩ :=
            ih (a + pgsize) (pa + pgsize) (hwf.setPte ht (PA2PTE pa ||| perm ||| PTE_V))
              (by rw [toNat_add_pgsize (by omega)]; omega)
          rw [hnext] at hin hout
          refine ⟨m', ok, hrun, hwf', fun hok n hn => ?_, fun vpn hvpn hv' => ?_⟩
          · cases n with
            | zero =>
                rw [Nat.add_zero, hout _ hv (by omega), lookup_setPte hwf.tree ht _ hv hv, if_pos rfl, mapped_zero]
            | succ n =>
                rw [← mapped_succ, ← hin hok n (by omega)]
                congr 1
                omega
          · rw [hout vpn hvpn (by omega), lookup_setPte hwf.tree ht _ hv hvpn, if_neg (by omega), hlookup]

/-- The last page of a range that ends at or below `MAXVA`. -/
theorem mappages_turns {size : UInt64} (hsize : size ≠ 0) (hend : va.toNat + size.toNat ≤ 2 ^ 38) :
    (PGROUNDDOWN (va + size - 1) - PGROUNDDOWN va).toNat / PGSIZE =
      (va.toNat + size.toNat - 1) / 4096 - va.toNat / 4096 := by
  have hpos : 0 < size.toNat := Nat.pos_of_ne_zero fun h0 => hsize (UInt64.toNat_inj.mp h0)
  have hlast : (va + size - 1).toNat = va.toNat + size.toNat - 1 := by
    have hsum : (va + size).toNat = va.toNat + size.toNat := by
      rw [UInt64.toNat_add]
      exact Nat.mod_eq_of_lt (by omega)
    rw [UInt64.toNat_sub_of_le _ _ (by rw [UInt64.le_iff_toNat_le, hsum]; exact Nat.le_add_left_of_le hpos), hsum]
    rfl
  have hle : PGROUNDDOWN va ≤ PGROUNDDOWN (va + size - 1) := by
    rw [UInt64.le_iff_toNat_le, toNat_PGROUNDDOWN, toNat_PGROUNDDOWN, hlast]
    omega
  rw [UInt64.toNat_sub_of_le _ _ hle, toNat_PGROUNDDOWN, toNat_PGROUNDDOWN, hlast, PGSIZE_eq]
  omega

theorem vpnOf_PGROUNDDOWN (va : UInt64) : vpnOf (PGROUNDDOWN va) = vpnOf va := by
  rw [vpnOf, vpnOf, toNat_PGROUNDDOWN, PGSIZE_eq]
  omega

/-- **`mappages`** maps the pages of its range, or stops with -1 having changed none outside it. -/
theorem mappages_spec {size : UInt64} (pa perm : UInt64) (h : Wf m root) (hsize : size ≠ 0) (hend : va.toNat + size.toNat ≤ 2 ^ 38) :
    ∃ m' ok, mappages m root va size pa perm = .ok (m', ok) ∧ Wf m' root ∧
      (ok = true → ∀ n ≤ (va.toNat + size.toNat - 1) / 4096 - va.toNat / 4096,
        lookup m' root (vpnOf va + n) = mapped pa perm n) ∧
      ∀ vpn < 2 ^ 27, (vpn < vpnOf va ∨ (va.toNat + size.toNat - 1) / 4096 < vpn) →
        lookup m' root vpn = lookup m root vpn := by
  have hpos : 0 < size.toNat := Nat.pos_of_ne_zero fun h0 => hsize (UInt64.toNat_inj.mp h0)
  obtain ⟨m', ok, hrun, hwf, hin, hout⟩ :=
    mappagesLoop_spec (k := (va.toNat + size.toNat - 1) / 4096 - va.toNat / 4096) (PGROUNDDOWN va) pa perm h
      (by rw [toNat_PGROUNDDOWN]; omega)
  rw [vpnOf_PGROUNDDOWN] at hin hout
  refine ⟨m', ok, ?_, hwf, hin, fun vpn hvpn hv => hout vpn hvpn ?_⟩
  · rw [mappages, if_neg hsize]
    simp only [mappages_turns hsize hend]
    exact hrun
  · rw [vpnOf, PGSIZE_eq] at hv ⊢
    omega

/-- What the entry says. -/
theorem mapped_decode (hpa : pa.toNat % 4096 = 0) (hperm : perm.toNat < 1024) (n : Nat) :
    PTE2PA (mapped pa perm n) = pa + UInt64.ofNat n * pgsize ∧ PTE_FLAGS (mapped pa perm n) = perm ||| PTE_V := by
  obtain ⟨q, hq⟩ : ∃ q, q = pa + UInt64.ofNat n * pgsize := ⟨_, rfl⟩
  have hmod : q.toNat % 4096 = 0 := by
    rw [hq, UInt64.toNat_add, UInt64.toNat_mul, toNat_pgsize]
    omega
  have hlow : (perm ||| PTE_V).toNat < 1024 := by
    rw [UInt64.toNat_or]
    exact Nat.or_lt_two_pow (n := 10) hperm (by decide)
  have hassoc : mapped pa perm n = PA2PTE q ||| (perm ||| PTE_V) := by rw [mapped, ← hq, UInt64.or_assoc]
  have hdiv : (mapped pa perm n).toNat / 1024 = q.toNat / 4096 := by
    rw [hassoc, div_or _ _ hlow, toNat_PA2PTE]
    omega
  constructor
  · rw [← hq, ← UInt64.toNat_inj, toNat_PTE2PA, hdiv]
    have := q.toNat_lt
    omega
  · rw [← UInt64.toNat_inj, toNat_PTE_FLAGS, hassoc, UInt64.toNat_or, show 1024 = 2 ^ 10 from rfl, Nat.or_mod_two_pow,
      toNat_PA2PTE, show q.toNat / 4096 * 1024 % 2 ^ 10 = 0 by omega, Nat.zero_or, Nat.mod_eq_of_lt hlow]

/-! ## `uvmunmap` -/

/-- The pages that `kfree` accepts. -/
structure Image.Freeable (im : Image) (pg : Nat) : Prop where
  ge : im.kend ≤ pg * 4096
  lt : pg * 4096 < PHYSTOP

theorem Image.Freeable.bound {im : Image} (h : im.Freeable pg) : pg < 2 ^ 52 := by
  have hlt := h.lt
  have hstop : PHYSTOP = 0x88000000 := rfl
  omega

/-- `kfree` of a page: one reference less, and nothing else changes unless it was the last one. -/
theorem kfree_eq (h : m.image.Freeable pg) : kfree m (addr pg) = .ok
    (if m.ref pg - 1 ≠ 0 then { m with ref := Function.update m.ref pg (m.ref pg - 1) }
    else { m with
      ref := Function.update m.ref pg (m.ref pg - 1)
      page := Function.update m.page pg (Bytes.store (fun _ => 1) 0 8 m.head)
      freelist := pg :: m.freelist }) := by
  have hlt := h.bound
  obtain ⟨hlo, hhi⟩ := h
  rw [kfree, addr_div hlt, if_neg]
  · simp only [Function.update_self]
    split <;> rfl
  · rw [addr_toNat hlt, PGSIZE_eq]
    omega

theorem kfree_page (h : m.image.Freeable pg) : ∃ m', kfree m (addr pg) = .ok m' ∧ m'.image = m.image ∧
    ∀ x, x ≠ pg → m'.page x = m.page x := by
  refine ⟨_, kfree_eq h, ?_⟩
  split
  · exact ⟨rfl, fun _ _ => rfl⟩
  · exact ⟨rfl, fun x hx => Function.update_of_ne hx _ _⟩

/-- A valid entry with one of `R`, `W`, `X`. -/
def leaf (pte : UInt64) : Prop := flag pte PTE_V = true ∧ flag pte (PTE_R ||| PTE_W ||| PTE_X) = true

theorem leaf.flags_ne {pte : UInt64} (h : leaf pte) : PTE_FLAGS pte ≠ PTE_V := fun heq => by
  have hflag := h.2
  rw [← flag_PTE_FLAGS (by decide), heq] at hflag
  cases hflag

theorem lookup_table (h : flag (lookup m root vpn) PTE_V = true) :
    ∃ t, descend (kid m) root (path vpn) = some t ∧ lookup m root vpn = m.pte t (slot vpn) := by
  unfold lookup at h ⊢
  cases ht : descend (kid m) root (path vpn) with
  | none =>
      rw [ht] at h
      simp at h
  | some t => exact ⟨t, rfl, rfl⟩

theorem uvmunmapLoop_turn {doFree : Bool} {a : UInt64} (hva : a < MAXVA)
    (ht : descend (kid m) root (path (vpnOf a)) = some t) (hleaf : leaf (m.pte t (slot (vpnOf a))))
    (hfree : (if doFree then kfree m (PTE2PA (m.pte t (slot (vpnOf a)))) else .ok m) = .ok m₁) :
    uvmunmapLoop root doFree (k + 1) m a =
      uvmunmapLoop root doFree k (m₁.setPte t (slot (vpnOf a)) 0) (a + pgsize) := by
  rw [uvmunmapLoop, walk_false m root hva, ht]
  simp only [Option.map_some, hleaf.1, hleaf.flags_ne, Bool.not_true, Bool.false_eq_true, if_false, bind, Except.bind]
  cases doFree with
  | false =>
      cases hfree
      rfl
  | true =>
      simp only [if_true] at hfree ⊢
      rw [hfree]

/-- **The turns of `uvmunmap`** over leaf pages. The pages it frees are no tables of this tree. -/
theorem uvmunmapLoop_spec (doFree : Bool) (a : UInt64) (h : Tree (kid m) root 2) (hend : a.toNat + k * 4096 ≤ 2 ^ 38)
    (hleaf : ∀ n < k, leaf (lookup m root (vpnOf a + n)))
    (hfree : doFree = true → ∀ n < k, m.image.Freeable (ppage (lookup m root (vpnOf a + n))) ∧
      ¬Reaches (kid m) root 2 (ppage (lookup m root (vpnOf a + n)))) :
    ∃ m', uvmunmapLoop root doFree k m a = .ok m' ∧ Tree (kid m') root 2 ∧
      (∀ n < k, lookup m' root (vpnOf a + n) = 0) ∧
      ∀ vpn < 2 ^ 27, (vpn < vpnOf a ∨ vpnOf a + k ≤ vpn) → lookup m' root vpn = lookup m root vpn := by
  induction k generalizing m a with
  | zero => exact ⟨m, rfl, h, fun n hn => absurd hn (Nat.not_lt_zero n), fun _ _ _ => rfl⟩
  | succ k ih =>
      have hva : a < MAXVA := lt_MAXVA (by omega)
      have hv : vpnOf a < 2 ^ 27 := (vpnOf_lt hva).trans (by decide)
      have hleaf0 := hleaf 0 (Nat.succ_pos k)
      rw [Nat.add_zero] at hleaf0
      obtain ⟨t, ht, hpte⟩ := lookup_table hleaf0.1
      -- the page is given up first; that leaves the tables as they are
      obtain ⟨m₁, hm₁, himage, hpage⟩ : ∃ m₁, (if doFree then kfree m (PTE2PA (m.pte t (slot (vpnOf a)))) else .ok m) =
          .ok m₁ ∧ m₁.image = m.image ∧ ∀ x, Reaches (kid m) root 2 x → m₁.page x = m.page x := by
        cases doFree with
        | false => exact ⟨m, rfl, rfl, fun _ _ => rfl⟩
        | true =>
            obtain ⟨hok, hno⟩ := hfree rfl 0 (Nat.succ_pos k)
            rw [Nat.add_zero, hpte] at hok hno
            obtain ⟨m₁, hm₁, himage, hpage⟩ := kfree_page hok
            rw [PTE2PA_eq_addr]
            exact ⟨m₁, hm₁, himage, fun x hx => hpage x fun heq => hno (heq ▸ hx)⟩
      obtain ⟨htree, hd⟩ := h.congr fun q z hq hz i => kid_of_page (hpage z ⟨q, hq.le, hz⟩) i
      have ht₁ : descend (kid m₁) root (path (vpnOf a)) = some t := (hd _ le_rfl).trans ht
      have hlook : ∀ vpn < 2 ^ 27, lookup (m₁.setPte t (slot (vpnOf a)) 0) root vpn =
          if vpn = vpnOf a then 0 else lookup m root vpn := fun vpn hvpn => by
        rw [lookup_setPte htree ht₁ 0 hv hvpn, lookup_congr hpage]
      have hnext : vpnOf (a + pgsize) = vpnOf a + 1 := vpnOf_add_pgsize (by omega)
      have hrest : ∀ n < k, lookup (m₁.setPte t (slot (vpnOf a)) 0) root (vpnOf (a + pgsize) + n) =
          lookup m root (vpnOf a + (n + 1)) := fun n hn => by
        have hvn : vpnOf a + (n + 1) < 2 ^ 27 := by
          rw [vpnOf, PGSIZE_eq]
          omega
        rw [hnext, show vpnOf a + 1 + n = vpnOf a + (n + 1) by omega, hlook _ hvn, if_neg (by omega)]
      obtain ⟨htree', hd'⟩ := tree_setPte htree ht₁ 0
      obtain ⟨m', hrun, htree'', hin, hout⟩ := ih (a + pgsize) htree'
        (by rw [toNat_add_pgsize (by omega)]; omega)
        (fun n hn => by rw [hrest n hn]; exact hleaf (n + 1) (by omega))
        (fun hdo n hn => by
          obtain ⟨hok, hno⟩ := hfree hdo (n + 1) (by omega)
          rw [hrest n hn]
          refine ⟨himage ▸ hok, ?_⟩
          rintro ⟨p, hp, hpx⟩
          exact hno ⟨p, hp, by rw [← hd p hp, ← hd' p hp, hpx]⟩)
      rw [hnext] at hin hout
      refine ⟨m', ?_, htree'', fun n hn => ?_, fun vpn hvpn hv' => ?_⟩
      · rw [uvmunmapLoop_turn hva ht (hpte ▸ hleaf0) hm₁]
        exact hrun
      · cases n with
        | zero => rw [Nat.add_zero, hout _ hv (by omega), hlook _ hv, if_pos rfl]
        | succ n => rw [show vpnOf a + (n + 1) = vpnOf a + 1 + n by omega, hin n (by omega)]
      · rw [hout vpn hvpn (by omega), hlook vpn hvpn, if_neg (by omega)]

theorem turns_pages {npages : UInt64} (hend : va.toNat + npages.toNat * 4096 ≤ 2 ^ 38) :
    turns va (va + npages * pgsize) = npages.toNat := by
  have hsum : (va + npages * pgsize).toNat = va.toNat + npages.toNat * 4096 := by
    rw [UInt64.toNat_add, UInt64.toNat_mul, toNat_pgsize]
    omega
  rw [turns, hsum, PGSIZE_eq]
  omega

theorem uvmunmap_eq {npages : UInt64} (doFree : Bool) (hva : va.toNat % 4096 = 0)
    (hend : va.toNat + npages.toNat * 4096 ≤ 2 ^ 38) :
    uvmunmap m root va npages doFree = uvmunmapLoop root doFree npages.toNat m va := by
  rw [uvmunmap, if_neg, turns_pages hend]
  rw [not_not, ← UInt64.toNat_inj, UInt64.toNat_mod, toNat_pgsize]
  exact hva

/-! ## The finite map -/

theorem leaf_of_flags {pte : UInt64} (hflags : PTE_FLAGS pte = perm ||| PTE_V)
    (hperm : flag perm (PTE_R ||| PTE_W ||| PTE_X) = true) : leaf pte := by
  constructor
  · rw [← flag_PTE_FLAGS (by decide), hflags, flag_or]
    simp [show flag PTE_V PTE_V = true from rfl]
  · rw [← flag_PTE_FLAGS (by decide), hflags, flag_or, hperm, Bool.true_or]

/-- **The three-level page table is a finite map** from page numbers to entries. `walk` without `alloc` looks a
    page up; with `alloc` it changes no lookup, whether or not it gets its pages; `mappages` and `uvmunmap` change
    the lookups of their range as they should and no others. A page that `uvmunmap` frees has to be one that
    `kfree` takes and no table of this tree. -/
theorem page_table_is_finite_map (h : Wf m root) :
    (∀ va, va < MAXVA → ∃ e, walk m root va false = .ok (m, e) ∧
      lookup m root (vpnOf va) = e.elim 0 fun e => m.pte e.1 e.2) ∧
    (∀ va, va < MAXVA → ∃ m' e, walk m root va true = .ok (m', e) ∧ Wf m' root ∧
      ∀ vpn, lookup m' root vpn = lookup m root vpn) ∧
    (∀ va size pa perm : UInt64, size ≠ 0 → va.toNat + size.toNat ≤ MAXVA.toNat → pa.toNat % PGSIZE = 0 →
      perm.toNat < 1024 → flag perm (PTE_R ||| PTE_W ||| PTE_X) = true →
      ∃ m' ok, mappages m root va size pa perm = .ok (m', ok) ∧ Wf m' root ∧
        (ok = true → ∀ n, vpnOf va + n ≤ (va.toNat + size.toNat - 1) / PGSIZE →
          leaf (lookup m' root (vpnOf va + n)) ∧
            PTE2PA (lookup m' root (vpnOf va + n)) = pa + UInt64.ofNat n * pgsize ∧
            PTE_FLAGS (lookup m' root (vpnOf va + n)) = perm ||| PTE_V) ∧
        ∀ vpn < 2 ^ 27, (vpn < vpnOf va ∨ (va.toNat + size.toNat - 1) / PGSIZE < vpn) →
          lookup m' root vpn = lookup m root vpn) ∧
    ∀ va npages doFree, va.toNat % PGSIZE = 0 → va.toNat + npages.toNat * PGSIZE ≤ MAXVA.toNat →
      (∀ n < npages.toNat, leaf (lookup m root (vpnOf va + n))) →
      (doFree = true → ∀ n < npages.toNat, m.image.Freeable (ppage (lookup m root (vpnOf va + n))) ∧
        ¬Reaches (kid m) root 2 (ppage (lookup m root (vpnOf va + n)))) →
      ∃ m', uvmunmap m root va npages doFree = .ok m' ∧ Tree (kid m') root 2 ∧
        (∀ n < npages.toNat, lookup m' root (vpnOf va + n) = 0) ∧
        ∀ vpn < 2 ^ 27, (vpn < vpnOf va ∨ vpnOf va + npages.toNat ≤ vpn) →
          lookup m' root vpn = lookup m root vpn := by
  rw [toNat_MAXVA, PGSIZE_eq]
  refine ⟨fun va hva => ?_, fun va hva => ?_, fun va size pa perm hsize hend hpa hperm hrwx => ?_,
    fun va npages doFree hva hend hleaf hfree => ?_⟩
  · refine ⟨_, walk_false m root hva, ?_⟩
    unfold lookup
    cases descend (kid m) root (path (vpnOf va)) <;> rfl
  · obtain ⟨m', hwalk, hl⟩ := walk_true h hva
    obtain ⟨hwf, hlookup, -⟩ := hl.spec h
    exact ⟨m', _, hwalk, hwf, hlookup⟩
  · obtain ⟨m', ok, hrun, hwf, hin, hout⟩ := mappages_spec pa perm h hsize hend
    refine ⟨m', ok, hrun, hwf, fun hok n hn => ?_, hout⟩
    have hn' : n ≤ (va.toNat + size.toNat - 1) / 4096 - va.toNat / 4096 := by
      rw [vpnOf, PGSIZE_eq] at hn
      omega
    obtain ⟨hpa', hflags⟩ := mapped_decode hpa hperm n
    rw [hin hok n hn']
    exact ⟨leaf_of_flags hflags hrwx, hpa', hflags⟩
  · rw [uvmunmap_eq doFree hva hend]
    exact uvmunmapLoop_spec doFree va h.tree hend hleaf hfree

theorem sampleImage_kend_ge : KERNBASE ≤ 0x80030000 := by decide

theorem sampleImage_kend_lt : 0x80030000 < PHYSTOP := by decide

theorem sampleImage_trampoline_ge : KERNBASE ≤ 0x80007 * PGSIZE := by decide

theorem sampleImage_trampoline_lt : (0x80007 + 1) * PGSIZE ≤ 0x80030000 := by decide

def sampleImage : Image where
  kend := 0x80030000
  trampoline := 0x80007
  kend_ge := sampleImage_kend_ge
  kend_lt := sampleImage_kend_lt
  trampoline_ge := sampleImage_trampoline_ge
  trampoline_lt := sampleImage_trampoline_lt

/-- Memory with an empty page table at page `0x8003f` and `n` free pages after it. -/
def emptyTable (n : Nat) : Kmem where
  image := sampleImage
  page _ _ := 0
  freelist := (List.range n).map (0x80040 + ·)
  ref _ := 0
  deny _ := false

theorem emptyTable_wf {n : Nat} (hn : n < 100) : Wf (emptyTable n) 0x8003f := by
  have hkid : ∀ pg i, kid (emptyTable n) pg i = none := fun pg i => by
    have hpte : (emptyTable n).pte pg i = 0 := by
      have hpage : (emptyTable n).page pg = fun _ => 0 := rfl
      rw [Kmem.pte, hpage, Bytes.load_eq_zero fun _ _ _ => rfl]
      rfl
    rw [kid, hpte, flag_zero]
    rfl
  have hroot : ∀ {p x}, descend (kid (emptyTable n)) 0x8003f p = some x → p = [] ∧ x = 0x8003f := by
    intro p x hx
    cases p with
    | nil =>
        cases hx
        exact ⟨rfl, rfl⟩
    | cons i p =>
        rw [descend, hkid] at hx
        cases hx
  refine ⟨⟨fun _ _ hp hq => (hroot hp).1.trans (hroot hq).1.symm⟩, ?_, fun pg hpg hr => ?_, fun pg hpg => ?_⟩
  · exact List.nodup_range.map fun a b hab => Nat.add_left_cancel hab
  · obtain ⟨k, -, rfl⟩ := List.mem_map.mp hpg
    obtain ⟨p, -, hp⟩ := hr
    have := (hroot hp).2
    omega
  · obtain ⟨k, hk, rfl⟩ := List.mem_map.mp hpg
    have := List.mem_range.mp hk
    omega

/-- Two pages are mapped across a boundary between two tables, with three new tables. -/
theorem emptyTable_maps : ∃ m', mappages (emptyTable 3) 0x8003f 0x1ff000 0x2000 0x80050000 (PTE_R ||| PTE_U) =
      .ok (m', true) ∧ PTE2PA (lookup m' 0x8003f 0x1ff) = 0x80050000 ∧ PTE2PA (lookup m' 0x8003f 0x200) = 0x80051000 := by
  have hmap := (page_table_is_finite_map (emptyTable_wf (n := 3) (by decide))).2.2.1 0x1ff000 0x2000 0x80050000
    (PTE_R ||| PTE_U) (by decide) (by decide) (by decide) (by decide) (by decide)
  obtain ⟨m', ok, hrun, -, hin, -⟩ := hmap
  have hok : (mappages (emptyTable 3) 0x8003f 0x1ff000 0x2000 0x80050000 (PTE_R ||| PTE_U)).toOption.any Prod.snd =
      true := by
    decide +kernel
  rw [hrun] at hok
  obtain rfl : ok = true := hok
  exact ⟨m', hrun, (hin rfl 0 (by decide)).2.1, (hin rfl 1 (by decide)).2.1⟩

end Xv6.Vm
