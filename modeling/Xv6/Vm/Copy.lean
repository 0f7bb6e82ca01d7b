import Xv6.Lib.Cstring
import Xv6.Vm.Walk

/-!
# `Vm.Copy` — reading user memory: `copyin` and `copyinstr`

Both functions go page by page through the addresses that `walkaddr` translates. Seen through the pages that a
page table gives to its user, `copyin` is the function of `Vm.Copyin`, and `copyinstr` is a scan byte by byte
(`copyinstr_eq_scan`), whatever the page boundaries do to its three counters (**`copyinstr_exact`**).
-/

namespace Xv6.Vm

variable {m m' : Kmem} {root root' vpn n pg : Nat} {va srcva : UInt64}

/-! ## User pages -/

/-- The page is below `MAXVA` and mapped with `V` and `U`. There is no memory at physical address 0, which is what
    `walkaddr` returns for a page that is not mapped. -/
structure Mapped (m : Kmem) (root vpn : Nat) : Prop where
  below : vpn < 2 ^ 26
  valid : flag (lookup m root vpn) PTE_V = true
  user : flag (lookup m root vpn) PTE_U = true
  memory : ppage (lookup m root vpn) ≠ 0

instance (m : Kmem) (root vpn : Nat) : Decidable (Mapped m root vpn) :=
  decidable_of_iff (vpn < 2 ^ 26 ∧ flag (lookup m root vpn) PTE_V = true ∧ flag (lookup m root vpn) PTE_U = true ∧
      ppage (lookup m root vpn) ≠ 0)
    ⟨fun h => ⟨h.1, h.2.1, h.2.2.1, h.2.2.2⟩, fun h => ⟨h.below, h.valid, h.user, h.memory⟩⟩

/-- The pages that the user of a page table can read. -/
def userPages (m : Kmem) (root : Nat) : Pages := fun vpn =>
  if Mapped m root vpn then some (m.page (ppage (lookup m root vpn))) else none

/-- The byte at a user address. -/
def peek (m : Kmem) (root a : Nat) : UInt8 := m.page (ppage (lookup m root (a / PGSIZE))) (a % PGSIZE)

theorem addr_ne_zero (h : pg ≠ 0) (hlt : pg < 2 ^ 52) : addr pg ≠ 0 := fun heq => by
  have := congrArg UInt64.toNat heq
  rw [addr_toNat hlt, UInt64.toNat_zero] at this
  omega

theorem walkaddr_of_mapped (h : Mapped m root (vpnOf va)) : walkaddr m root va = addr (ppage (lookup m root (vpnOf va))) := by
  have hva : va < MAXVA := lt_MAXVA (by
    have := h.below
    rw [vpnOf, PGSIZE_eq] at this
    omega)
  obtain ⟨t, ht, hpte⟩ := lookup_table h.valid
  rw [walkaddr, if_neg (UInt64.not_le.mpr hva), walk_false m root hva, ht]
  simp only [Option.map_some]
  rw [← hpte, h.valid, h.user, PTE2PA_eq_addr]
  rfl

theorem walkaddr_of_not_mapped (h : ¬Mapped m root (vpnOf va)) : walkaddr m root va = 0 := by
  unfold walkaddr
  split
  · rfl
  · rename_i hle
    have hva := UInt64.not_le.mp hle
    rw [walk_false m root hva]
    cases ht : Radix.descend (kid m) root (path (vpnOf va)) with
    | none => rfl
    | some t =>
        have hlookup : lookup m root (vpnOf va) = m.pte t (slot (vpnOf va)) := by
          rw [lookup, ht]
        simp only [Option.map_some, ← hlookup]
        split
        · rfl
        · split
          · rfl
          · rename_i hV hU
            rw [PTE2PA_eq_addr]
            by_contra hne
            refine h ⟨vpnOf_lt hva, by simpa using hV, by simpa using hU, fun h0 => hne ?_⟩
            rw [h0]
            rfl

/-! ## One page of a copy -/

/-- The part of an address within its page. -/
theorem sub_PGROUNDDOWN (va : UInt64) : (va - PGROUNDDOWN va).toNat = va.toNat % 4096 := by
  rw [UInt64.toNat_sub_of_le _ _ (UInt64.le_iff_toNat_le.mpr (PGROUNDDOWN_le va)), toNat_PGROUNDDOWN]
  omega

theorem left_in_page (va : UInt64) : (pgsize - (va - PGROUNDDOWN va)).toNat = PGSIZE - va.toNat % PGSIZE := by
  have hlt : va.toNat % 4096 < 4096 := Nat.mod_lt _ (by decide)
  rw [UInt64.toNat_sub_of_le _ _ (by rw [UInt64.le_iff_toNat_le, sub_PGROUNDDOWN, toNat_pgsize]; exact hlt.le),
    sub_PGROUNDDOWN]
  rfl

theorem addr_add (hlt : pg < 2 ^ 52) (va : UInt64) :
    (addr pg + (va - PGROUNDDOWN va)).toNat = pg * 4096 + va.toNat % 4096 := by
  rw [UInt64.toNat_add, addr_toNat hlt, sub_PGROUNDDOWN]
  omega

theorem addr_add_div (hlt : pg < 2 ^ 52) (va : UInt64) :
    (addr pg + (va - PGROUNDDOWN va)).toNat / PGSIZE = pg ∧
      (addr pg + (va - PGROUNDDOWN va)).toNat % PGSIZE = va.toNat % PGSIZE := by
  rw [addr_add hlt, PGSIZE_eq]
  omega

theorem same_page (a : Nat) {k : Nat} (h : k < PGSIZE - a % PGSIZE) :
    (a + k) / PGSIZE = a / PGSIZE ∧ (a + k) % PGSIZE = a % PGSIZE + k := by
  rw [PGSIZE_eq] at *
  omega

/-- The next page of a copy, if there can be one. -/
theorem next_page (h : Mapped m root (vpnOf va)) :
    (PGROUNDDOWN va + pgsize).toNat = (va.toNat / PGSIZE + 1) * PGSIZE := by
  have hlt := h.below
  rw [vpnOf, PGSIZE_eq] at hlt
  rw [toNat_add_pgsize (by rw [toNat_PGROUNDDOWN]; omega), toNat_PGROUNDDOWN, PGSIZE_eq]
  omega

theorem userPages_of_mapped (h : Mapped m root vpn) : userPages m root vpn = some (m.page (ppage (lookup m root vpn))) :=
  if_pos h

theorem userPages_of_not_mapped (h : ¬Mapped m root vpn) : userPages m root vpn = none := if_neg h

/-- **`copyin` through a page table** is `copyin` from the pages of the user. -/
theorem copyin_eq (m : Kmem) (root : Nat) (srcva : UInt64) (len : Nat) :
    copyin m root srcva len = Xv6.copyin (userPages m root) srcva.toNat len := by
  have hloop : ∀ fuel (srcva : UInt64) len,
      copyinLoop m root fuel srcva len = Xv6.copyinLoop (userPages m root) fuel srcva.toNat len := by
    intro fuel
    induction fuel with
    | zero => exact fun _ _ => rfl
    | succ fuel ih =>
        intro srcva len
        rw [copyinLoop, Xv6.copyinLoop]
        split
        · rfl
        · by_cases hm : Mapped m root (vpnOf srcva)
          · have hm' : Mapped m root (vpnOf (PGROUNDDOWN srcva)) := by rwa [vpnOf_PGROUNDDOWN]
            have hpage : userPages m root (srcva.toNat / PGSIZE) = _ := userPages_of_mapped hm
            obtain ⟨hdiv, hmod⟩ := addr_add_div (ppage_lt (lookup m root (vpnOf srcva))) srcva
            simp only [walkaddr_of_mapped hm', vpnOf_PGROUNDDOWN, if_neg (addr_ne_zero hm.memory (ppage_lt _)),
              left_in_page, ih, next_page hm, hpage, Kmem.read, hdiv, hmod]
            rfl
          · have hm' : ¬Mapped m root (vpnOf (PGROUNDDOWN srcva)) := by rwa [vpnOf_PGROUNDDOWN]
            have hpage : userPages m root (srcva.toNat / PGSIZE) = none := userPages_of_not_mapped hm
            simp only [walkaddr_of_not_mapped hm', if_true, hpage]
  exact hloop len srcva len

/-! ## `copyinstr` -/

/-- The user's memory as bytes. -/
def userMem (m : Kmem) (root a : Nat) : Option UInt8 := if Mapped m root (a / PGSIZE) then some (peek m root a) else none

theorem userMem_eq (m : Kmem) (root a : Nat) :
    userMem m root a = (userPages m root (a / PGSIZE)).map fun page => page (a % PGSIZE) := by
  unfold userMem userPages
  split <;> rfl

/-- The part of a scan that lies within a page. -/
theorem scan_chunk {byte : Nat → Option UInt8} {f : Nat → UInt8} {a k max : Nat} (hk : k ≤ max)
    (h : ∀ j < k, byte (a + j) = some (f j)) :
    Cstring.scan byte max a =
      if (copyChars ((List.range k).map f)).2 then copyChars ((List.range k).map f)
      else ((copyChars ((List.range k).map f)).1 ++ (Cstring.scan byte (max - k) (a + k)).1,
        (Cstring.scan byte (max - k) (a + k)).2) := by
  induction k generalizing a max f with
  | zero => rfl
  | succ k ih =>
      obtain ⟨max, rfl⟩ : ∃ max', max = max' + 1 := ⟨max - 1, by omega⟩
      have h0 : byte a = some (f 0) := h 0 (Nat.succ_pos k)
      have hrange : (List.range (k + 1)).map f = f 0 :: (List.range k).map fun j => f (j + 1) := by
        rw [List.range_succ_eq_map, List.map_cons, List.map_map]
        rfl
      rw [hrange, copyChars]
      by_cases hc : f 0 = 0
      · rw [if_pos hc, Cstring.scan_nul (hc ▸ h0)]
        rfl
      · have hih := ih (f := fun j => f (j + 1)) (a := a + 1) (Nat.le_of_succ_le_succ hk) fun j hj => by
          rw [show a + 1 + j = a + (j + 1) by omega]
          exact h (j + 1) (by omega)
        rw [if_neg hc, Cstring.scan_char h0 hc, hih, show a + 1 + k = a + (k + 1) by omega,
          show max + 1 - (k + 1) = max - k by omega]
        simp only
        split <;> rfl

/-- **`copyinstr` is a scan of the user's memory.** -/
theorem copyinstr_eq_scan (m : Kmem) (root : Nat) (srcva : UInt64) (max : Nat) :
    copyinstr m root srcva max = Cstring.scan (userMem m root) max srcva.toNat := by
  have hloop : ∀ fuel (srcva : UInt64) max, max ≤ fuel →
      copyinstrLoop m root fuel srcva max = Cstring.scan (userMem m root) max srcva.toNat := by
    intro fuel
    induction fuel with
    | zero =>
        intro srcva max hmax
        obtain rfl : max = 0 := by omega
        rfl
    | succ fuel ih =>
        intro srcva max hmax
        rw [copyinstrLoop]
        split
        · rename_i h0
          rw [h0]
          rfl
        · rename_i hpos
          by_cases hm : Mapped m root (vpnOf srcva)
          · have hm' : Mapped m root (vpnOf (PGROUNDDOWN srcva)) := by rwa [vpnOf_PGROUNDDOWN]
            obtain ⟨hdiv, hmod⟩ := addr_add_div (ppage_lt (lookup m root (vpnOf srcva))) srcva
            have hoff : srcva.toNat % PGSIZE < PGSIZE := Nat.mod_lt _ (by decide)
            obtain ⟨n, hn⟩ : ∃ n, n = min (PGSIZE - srcva.toNat % PGSIZE) max := ⟨_, rfl⟩
            -- all bytes of this turn lie in one page
            have hbyte : ∀ j < n, userMem m root (srcva.toNat + j) =
                some (m.page (ppage (lookup m root (vpnOf srcva))) (srcva.toNat % PGSIZE + j)) := by
              intro j hj
              obtain ⟨hd, hr⟩ := same_page srcva.toNat (k := j) (by omega)
              rw [userMem, peek, hd, hr]
              exact if_pos hm
            have hrest : copyinstrLoop m root fuel (PGROUNDDOWN srcva + pgsize) (max - n) =
                Cstring.scan (userMem m root) (max - n) (srcva.toNat + n) := by
              rw [ih _ _ (by omega), next_page hm]
              by_cases hlast : max - n = 0
              · rw [hlast]
                rfl
              · have hnext := Nat.div_add_mod srcva.toNat PGSIZE
                rw [show (srcva.toNat / PGSIZE + 1) * PGSIZE = srcva.toNat + n by
                  rw [Nat.add_mul, Nat.mul_comm, Nat.one_mul]
                  omega]
            simp only [walkaddr_of_mapped hm', vpnOf_PGROUNDDOWN, if_neg (addr_ne_zero hm.memory (ppage_lt _)),
              left_in_page, Kmem.read, hdiv, hmod, ← hn, hrest]
            rw [scan_chunk (k := n) (by omega) hbyte]
          · have hm' : ¬Mapped m root (vpnOf (PGROUNDDOWN srcva)) := by rwa [vpnOf_PGROUNDDOWN]
            have hhole : userMem m root srcva.toNat = none := if_neg hm
            simp only [walkaddr_of_not_mapped hm', if_true]
            exact (Cstring.scan_hole hhole).symm
  exact hloop max srcva max le_rfl

/-- A string of `k` bytes and its NUL stand at a user address, on pages that the user can read. -/
structure UserString (m : Kmem) (root a k : Nat) : Prop where
  mapped : ∀ j ≤ k, Mapped m root ((a + j) / PGSIZE)
  nul : peek m root (a + k) = 0
  text : ∀ j < k, peek m root (a + j) ≠ 0

theorem userString_iff {a k : Nat} : UserString m root a k ↔ Cstring.Terminated (userMem m root) a k := by
  have hsome : ∀ {b c}, userMem m root b = some c ↔ Mapped m root (b / PGSIZE) ∧ peek m root b = c := by
    intro b c
    unfold userMem
    split
    · rename_i h
      simp [h]
    · rename_i h
      simp [h]
  constructor
  · intro h
    refine ⟨hsome.mpr ⟨h.mapped k le_rfl, h.nul⟩, fun j hj => ?_⟩
    exact ⟨_, hsome.mpr ⟨h.mapped j hj.le, rfl⟩, h.text j hj⟩
  · intro h
    refine ⟨fun j hj => ?_, (hsome.mp h.nul).2, fun j hj => ?_⟩
    · rcases Nat.lt_or_eq_of_le hj with hlt | rfl
      · obtain ⟨c, hc, -⟩ := h.text j hlt
        exact (hsome.mp hc).1
      · exact (hsome.mp h.nul).1
    · obtain ⟨c, hc, hne⟩ := h.text j hj
      rw [(hsome.mp hc).2]
      exact hne

/-- **`copyinstr`** returns 0 exactly if a string with its NUL stands within `max` bytes on readable pages; it then
    has stored that string; it never stores more than `max` bytes; and pages behind the NUL do not matter. -/
theorem copyinstr_exact (m : Kmem) (root : Nat) (srcva : UInt64) (max : Nat) :
    ((copyinstr m root srcva max).2 = true ↔ ∃ k < max, UserString m root srcva.toNat k) ∧
      (copyinstr m root srcva max).1.length ≤ max ∧
      ∀ k < max, UserString m root srcva.toNat k →
        (copyinstr m root srcva max).1 = (List.range (k + 1)).map (fun j => peek m root (srcva.toNat + j)) ∧
          ∀ m' root', (∀ vpn, vpn ≤ (srcva.toNat + k) / PGSIZE → userPages m' root' vpn = userPages m root vpn) →
            copyinstr m' root' srcva max = copyinstr m root srcva max := by
  simp only [copyinstr_eq_scan]
  refine ⟨⟨fun h => ?_, fun ⟨k, hk, hs⟩ => ?_⟩, Cstring.length_scan_le _ _ _, fun k hk hs => ⟨?_, ?_⟩⟩
  · obtain ⟨k, hk, hs⟩ := Cstring.terminated_of_scan h
    exact ⟨k, hk, userString_iff.mpr hs⟩
  · exact (Cstring.scan_of_terminated (userString_iff.mp hs) hk).1
  · have hbytes := (Cstring.scan_of_terminated (userString_iff.mp hs) hk).2
    apply List.map_injective_iff.mpr (Option.some_injective _)
    rw [hbytes, List.map_map]
    refine List.map_congr_left fun j hj => if_pos (hs.mapped j ?_)
    exact Nat.lt_succ_iff.mp (List.mem_range.mp hj)
  · intro m' root' hpages
    refine Cstring.scan_congr (userString_iff.mp hs) fun j hj => ?_
    rw [userMem_eq, userMem_eq, hpages _ (Nat.div_le_div_right (by omega))]

end Xv6.Vm
