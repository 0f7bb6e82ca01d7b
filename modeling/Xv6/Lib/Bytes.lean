import Mathlib

/-!
# `Bytes` — little-endian words and byte runs in a byte array

An array of bytes is a function from positions to bytes. `load`/`store` read and write a word of `w` bytes,
least significant first; `put` writes a run of bytes. Everything is stated pointwise, so that what a write
leaves alone is immediate.
-/

namespace Bytes

variable {f g : Nat → UInt8} {o o' w w' v : Nat}

/-- Byte `k` of the number `v`. -/
def byte (v k : Nat) : UInt8 := UInt8.ofNat (v / 256 ^ k)

/-- The `w`-byte word at position `o`. -/
def load (f : Nat → UInt8) (o : Nat) : Nat → Nat
  | 0 => 0
  | w + 1 => (f o).toNat + 256 * load f (o + 1) w

/-- Write `v` as a `w`-byte word at position `o`. -/
def store (f : Nat → UInt8) (o w v : Nat) : Nat → UInt8 :=
  fun i => if o ≤ i ∧ i < o + w then byte v (i - o) else f i

/-- Write the bytes `bs` at position `o`. -/
def put (f : Nat → UInt8) (o : Nat) (bs : List UInt8) : Nat → UInt8 :=
  fun i => if o ≤ i ∧ i < o + bs.length then bs.getD (i - o) 0 else f i

/-! ## Words -/

theorem load_congr (h : ∀ i, o ≤ i → i < o + w → f i = g i) : load f o w = load g o w := by
  induction w generalizing o with
  | zero => rfl
  | succ w ih =>
      rw [load, load, h o le_rfl (by omega), ih fun i hi hi' => h i (by omega) (by omega)]

theorem load_lt (f : Nat → UInt8) (o w : Nat) : load f o w < 256 ^ w := by
  induction w generalizing o with
  | zero => exact Nat.one_pos
  | succ w ih =>
      have hb : (f o).toNat < 256 := UInt8.toNat_lt _
      have hrest := ih (o + 1)
      rw [load, pow_succ]
      omega

theorem load_eq_zero (h : ∀ i, o ≤ i → i < o + w → f i = 0) : load f o w = 0 := by
  induction w generalizing o with
  | zero => rfl
  | succ w ih =>
      rw [load, h o le_rfl (by omega), ih fun i hi hi' => h i (by omega) (by omega)]
      rfl

theorem store_of_lt {i : Nat} (h : i < o ∨ o + w ≤ i) : store f o w v i = f i := by
  rw [store, if_neg (by omega)]

/-- Word `k` bytes into the number `v`. -/
theorem load_byte (k w : Nat) (h : ∀ i, o ≤ i → i < o + w → f i = byte v (i - o + k)) :
    load f o w = v / 256 ^ k % 256 ^ w := by
  induction w generalizing o k with
  | zero => rw [load, pow_zero, Nat.mod_one]
  | succ w ih =>
      have hrest : load f (o + 1) w = v / 256 ^ (k + 1) % 256 ^ w := by
        refine ih (k + 1) fun i hi hi' => ?_
        rw [h i (by omega) (by omega)]
        congr 1
        omega
      have hbyte : (f o).toNat = v / 256 ^ k % 256 := by
        rw [h o le_rfl (by omega), byte, Nat.sub_self, Nat.zero_add, UInt8.toNat_ofNat']
      rw [load, hbyte, hrest, pow_succ' 256 w, Nat.mod_mul, pow_succ, Nat.div_div_eq_div_mul]

/-- Reading back what was written. -/
theorem load_store_mod (f : Nat → UInt8) (o w v : Nat) : load (store f o w v) o w = v % 256 ^ w := by
  have h := load_byte (v := v) (f := store f o w v) (o := o) 0 w fun i hi hi' => by
    rw [store, if_pos ⟨hi, hi'⟩, Nat.add_zero]
  rwa [pow_zero, Nat.div_one] at h

theorem load_store (h : v < 256 ^ w) : load (store f o w v) o w = v := by
  rw [load_store_mod, Nat.mod_eq_of_lt h]

/-- A write elsewhere. -/
theorem load_store_of_disjoint (h : o' + w' ≤ o ∨ o + w ≤ o') :
    load (store f o w v) o' w' = load f o' w' :=
  load_congr fun i hi hi' => store_of_lt (by omega)

/-- Writing back what is there. -/
theorem store_load (f : Nat → UInt8) (o w : Nat) : store f o w (load f o w) = f := by
  have hbyte : ∀ w k o, k < w → byte (load f o w) k = f (o + k) := by
    intro w
    induction w with
    | zero => intro k o hk; omega
    | succ w ih =>
        intro k o hk
        have hb : (f o).toNat < 256 := UInt8.toNat_lt _
        cases k with
        | zero =>
            show byte _ 0 = f o
            apply UInt8.toNat_inj.mp
            rw [byte, load, pow_zero, Nat.div_one, UInt8.toNat_ofNat']
            omega
        | succ k =>
            have hdiv : load f o (w + 1) / 256 ^ (k + 1) = load f (o + 1) w / 256 ^ k := by
              rw [load, pow_succ', ← Nat.div_div_eq_div_mul]
              congr 1
              omega
            have hk' := ih k (o + 1) (by omega)
            rw [byte] at hk' ⊢
            rw [hdiv, hk']
            congr 1
            omega
  funext i
  rw [store]
  split
  · rename_i hi
    rw [hbyte w (i - o) o (by omega)]
    congr 1
    omega
  · rfl

/-- The bytes of a word are determined by its value. -/
theorem eq_of_load_eq {i : Nat} (h : load f o w = load g o w) (h1 : o ≤ i) (h2 : i < o + w) : f i = g i := by
  have hf := congrFun (store_load f o w) i
  have hg := congrFun (store_load g o w) i
  rw [store, if_pos ⟨h1, h2⟩] at hf hg
  rw [← hf, ← hg, h]

/-! ## Arrays of words -/

/-- Write the words `vs`, of `w` bytes each, one after the other. -/
def storeWords (f : Nat → UInt8) (o w : Nat) : List Nat → Nat → UInt8
  | [] => f
  | v :: vs => storeWords (store f o w v) (o + w) w vs

/-- The `n` words at position `o`. -/
def loadWords (f : Nat → UInt8) (o w n : Nat) : List Nat :=
  (List.range n).map fun i => load f (o + w * i) w

theorem load_storeWords_of_disjoint {vs : List Nat} (h : o' + w' ≤ o ∨ o + w * vs.length ≤ o') :
    load (storeWords f o w vs) o' w' = load f o' w' := by
  induction vs generalizing f o with
  | nil => rfl
  | cons v vs ih =>
      rw [List.length_cons, Nat.mul_add, Nat.mul_one] at h
      rw [storeWords, ih (by omega), load_store_of_disjoint (by omega)]

theorem load_storeWords {vs : List Nat} {i : Nat} (hi : i < vs.length) (hv : ∀ v ∈ vs, v < 256 ^ w) :
    load (storeWords f o w vs) (o + w * i) w = vs.getD i 0 := by
  induction vs generalizing f o i with
  | nil => cases hi
  | cons v vs ih =>
      rw [storeWords]
      cases i with
      | zero =>
          rw [Nat.mul_zero, Nat.add_zero, load_storeWords_of_disjoint (Or.inl le_rfl),
            load_store (hv v List.mem_cons_self)]
          rfl
      | succ i =>
          have hstep : o + w * (i + 1) = o + w + w * i := by ring
          rw [hstep, ih (by simpa using hi) fun u hu => hv u (List.mem_cons_of_mem v hu)]
          rfl

/-- Reading back the words that were written. -/
theorem loadWords_storeWords {vs : List Nat} (hv : ∀ v ∈ vs, v < 256 ^ w) :
    loadWords (storeWords f o w vs) o w vs.length = vs := by
  refine List.ext_getElem (by simp [loadWords]) fun i hi hi' => ?_
  simp only [loadWords, List.getElem_map, List.getElem_range]
  rw [load_storeWords hi' hv, List.getD_eq_getElem _ _ hi']

/-! ## Runs -/

theorem put_nil (f : Nat → UInt8) (o : Nat) : put f o [] = f := by
  funext i
  rw [put, if_neg (by simp)]

theorem put_of_lt {i : Nat} {bs : List UInt8} (h : i < o ∨ o + bs.length ≤ i) : put f o bs i = f i := by
  rw [put, if_neg (by omega)]

theorem put_add {k : Nat} {bs : List UInt8} (h : k < bs.length) :
    put f o bs (o + k) = bs.getD k 0 := by
  rw [put, if_pos (by omega), Nat.add_sub_cancel_left]

end Bytes
