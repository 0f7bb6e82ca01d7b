import Xv6.Lib.Copy

/-!
# `Kernel.Memmove` — `memmove` of `kernel/string.c` and of `user/ulib.c`

Memory is a byte for each 64-bit address; pointers wrap as the machine's do. The kernel copies backwards exactly when
the destination starts inside the source, the library whenever the source does not lie above the destination.

**`memmove_overlap_safe`**: for ranges that do not wrap, both move the bytes the source had before the call and leave
every other byte alone, so that they agree.
-/

namespace Xv6

/-- A byte at each address. -/
abbrev Memory := UInt64 → UInt8

variable {mem : Memory} {dst src : UInt64}

namespace Kernel

/-- `memmove` of the kernel, with the pointer it returns. -/
def memmove (mem : Memory) (dst src : UInt64) (n : UInt32) : Memory × UInt64 :=
  if n = 0 then (mem, dst)
  else if src < dst ∧ src + n.toUInt64 > dst then
    (Copy.down mem (dst + n.toUInt64) (src + n.toUInt64) n.toNat, dst)
  else (Copy.up mem dst src n.toNat, dst)

theorem toUInt64_eq (n : UInt32) : n.toUInt64 = UInt64.ofNat n.toNat := by
  apply UInt64.toNat_inj.mp
  have := n.toNat_lt
  rw [UInt32.toNat_toUInt64, UInt64.toNat_ofNat', Nat.mod_eq_of_lt (by omega)]

theorem memmove_moved {n : UInt32} (hs : src.toNat + n.toNat ≤ 2 ^ 64) (hd : dst.toNat + n.toNat ≤ 2 ^ 64) :
    Copy.Moved mem (memmove mem dst src n).1 dst src n.toNat := by
  unfold memmove
  split
  · rename_i h0
    rw [h0]
    exact Copy.moved_zero mem dst src
  · split
    · rename_i hover
      have hlt := UInt64.lt_iff_toNat_lt.mp hover.1
      rw [toUInt64_eq]
      refine Copy.moved_down hd hs fun i j hji hi => ?_
      omega
    · rename_i hover
      refine Copy.moved_up hd hs fun i j hij hj => ?_
      by_cases hlt : src < dst
      · -- `s + n` does not wrap, because `d + n` does not and `d` lies above `s`
        have hnot : ¬src + n.toUInt64 > dst := fun hgt => hover ⟨hlt, hgt⟩
        have hle := UInt64.le_iff_toNat_le.mp (UInt64.not_lt.mp hnot)
        have hlt := UInt64.lt_iff_toNat_lt.mp hlt
        rw [UInt64.toNat_add, UInt32.toNat_toUInt64, Nat.mod_eq_of_lt (by omega)] at hle
        omega
      · have hle := UInt64.le_iff_toNat_le.mp (UInt64.not_lt.mp hlt)
        omega

theorem memmove_snd (mem : Memory) (dst src : UInt64) (n : UInt32) : (memmove mem dst src n).2 = dst := by
  unfold memmove
  split
  · rfl
  · split <;> rfl

end Kernel

namespace User

/-- `memmove` of the user library, with the pointer it returns. A negative `n` copies nothing. -/
def memmove (mem : Memory) (vdst vsrc : UInt64) (n : Int32) : Memory × UInt64 :=
  if vsrc > vdst then (Copy.up mem vdst vsrc n.toInt.toNat, vdst)
  else (Copy.down mem (vdst + n.toInt64.toUInt64) (vsrc + n.toInt64.toUInt64) n.toInt.toNat, vdst)

theorem toUInt64_eq {n : Int32} (hn : 0 ≤ n.toInt) : n.toInt64.toUInt64 = UInt64.ofNat n.toInt.toNat := by
  have hext : n.toInt64.toInt = n.toInt := Int32.toInt_toInt64 n
  have hnonneg : 0 ≤ n.toInt64 := by
    rw [Int64.le_iff_toInt_le, hext]
    exact hn
  have hlt := Int32.toInt_lt n
  apply UInt64.toNat_inj.mp
  rw [Int64.toNat_toUInt64_of_le hnonneg, UInt64.toNat_ofNat', Nat.mod_eq_of_lt (by omega), Int64.toNatClampNeg, hext]

theorem memmove_moved {n : Int32} (hn : 0 ≤ n.toInt) (hs : src.toNat + n.toInt.toNat ≤ 2 ^ 64)
    (hd : dst.toNat + n.toInt.toNat ≤ 2 ^ 64) : Copy.Moved mem (memmove mem dst src n).1 dst src n.toInt.toNat := by
  unfold memmove
  split
  · rename_i hgt
    have hlt := UInt64.lt_iff_toNat_lt.mp hgt
    refine Copy.moved_up hd hs fun i j hij hj => ?_
    omega
  · rename_i hgt
    have hle := UInt64.le_iff_toNat_le.mp (UInt64.not_lt.mp hgt)
    rw [toUInt64_eq hn]
    refine Copy.moved_down hd hs fun i j hji hi => ?_
    omega

theorem memmove_snd (mem : Memory) (dst src : UInt64) (n : Int32) : (memmove mem dst src n).2 = dst := by
  unfold memmove
  split <;> rfl

end User

/-- **`memmove` is safe for any overlap.** For ranges that do not wrap around the address space, the kernel's and the
    library's both leave at `dst` the bytes that were at `src` and every other byte as it was, and return `dst`;
    for one length they do the same. -/
theorem memmove_overlap_safe (mem : Memory) (dst src : UInt64) :
    (∀ n : UInt32, src.toNat + n.toNat ≤ 2 ^ 64 → dst.toNat + n.toNat ≤ 2 ^ 64 →
      Copy.Moved mem (Kernel.memmove mem dst src n).1 dst src n.toNat ∧ (Kernel.memmove mem dst src n).2 = dst) ∧
    (∀ n : Int32, 0 ≤ n.toInt → src.toNat + n.toInt.toNat ≤ 2 ^ 64 → dst.toNat + n.toInt.toNat ≤ 2 ^ 64 →
      Copy.Moved mem (User.memmove mem dst src n).1 dst src n.toInt.toNat ∧ (User.memmove mem dst src n).2 = dst) ∧
    ∀ (n : UInt32) (k : Int32), k.toInt = n.toNat → src.toNat + n.toNat ≤ 2 ^ 64 → dst.toNat + n.toNat ≤ 2 ^ 64 →
      Kernel.memmove mem dst src n = User.memmove mem dst src k := by
  refine ⟨fun n hs hd => ⟨Kernel.memmove_moved hs hd, Kernel.memmove_snd mem dst src n⟩,
    fun n hn hs hd => ⟨User.memmove_moved hn hs hd, User.memmove_snd mem dst src n⟩, fun n k hk hs hd => ?_⟩
  have hlen : k.toInt.toNat = n.toNat := by omega
  have hkernel : Copy.Moved mem (Kernel.memmove mem dst src n).1 dst src n.toNat := Kernel.memmove_moved hs hd
  have huser : Copy.Moved mem (User.memmove mem dst src k).1 dst src k.toInt.toNat :=
    User.memmove_moved (by omega) (by omega) (by omega)
  rw [hlen] at huser
  refine Prod.ext (hkernel.unique hd huser) ?_
  rw [Kernel.memmove_snd, User.memmove_snd]

/-- Three bytes moved up by one, the ranges overlapping: both take the way back. -/
theorem memmove_three_up :
    ((3 : UInt64).toNat + (3 : UInt32).toNat ≤ 2 ^ 64 ∧ (4 : UInt64).toNat + (3 : UInt32).toNat ≤ 2 ^ 64) ∧
      Copy.Moved (fun a => a.toUInt8) (Kernel.memmove (fun a => a.toUInt8) 4 3 3).1 4 3 3 ∧
      Kernel.memmove (fun a => a.toUInt8) 4 3 3 = User.memmove (fun a => a.toUInt8) 4 3 3 :=
  have h := memmove_overlap_safe (fun a => a.toUInt8) 4 3
  ⟨by decide, (h.1 3 (by decide) (by decide)).1, h.2.2 3 3 (by decide) (by decide) (by decide)⟩

end Xv6
