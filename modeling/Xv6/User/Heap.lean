import Xv6.User.FreeList

/-!
# `Heap` — whole runs of `malloc` and `free`

A program calls `malloc`, frees what it got, and writes to the bytes it got, in any order. `Inv` says that the free list
and the live blocks share the memory obtained from `sbrk` between them. It is kept by every call, whatever `sbrk`
answers, as long as an answer is fresh memory of the size that was asked for (`Grants`). **`Ready.run`** is the result for
whole runs.
-/

namespace Xv6.User

open Circular (Links)
open Extents (Block Apart Disjoint total)

variable {σ : Type} {K : Kernel σ} {h h' : Heap σ} {base lo fuel nunits : Nat} {l l' : List Block} {b : Block}
  {top units : σ → Nat}

/-! ## The calls -/

/-- For a request of `n` units: a failing `sbrk` takes nothing away, and a successful one gives `n` fresh units above
    everything that was there. -/
structure Grants (K : Kernel σ) (top units : σ → Nat) (n : Nat) : Prop where
  mono : ∀ {s s' r}, K.sbrk s (n * HEADER) = (s', r) → top s ≤ top s'
  fail : ∀ {s s'}, K.sbrk s (n * HEADER) = (s', none) → units s' = units s
  region : ∀ {s s' a}, K.sbrk s (n * HEADER) = (s', some a) → K.writable s' a = true →
    top s ≤ a ∧ a + HEADER * n ≤ top s' ∧ units s' = units s + n ∧ units s' < 2 ^ 32

/-- A block that is disjoint from the free list is left alone: its header, and that it is disjoint. -/
def Spares (lo top : Nat) (h h' : Heap σ) (l l' : List Block) : Prop :=
  ∀ x : Block, InHeap lo top x → (∀ n ∈ l, Disjoint HEADER n x) →
    h'.hdr x.addr = h.hdr x.addr ∧ ∀ n ∈ l', Disjoint HEADER n x

theorem notMem_addrs {t : Nat} (hF : FreeList base lo t h l) {x : Block} (hx : InHeap lo t x)
    (hdisj : ∀ n ∈ l, Disjoint HEADER n x) : x.addr ∉ base :: l.map Block.addr := by
  rw [List.mem_cons, not_or]
  refine ⟨Nat.ne_of_gt (hF.base_lt hx), fun hmem => ?_⟩
  obtain ⟨n, hn, hnx⟩ := List.mem_map.mp hmem
  exact (hdisj n hn).addr_ne (hF.inHeap n hn).bytes_pos hx.bytes_pos hnx

theorem Taken.spares {t : Nat} (ht : Taken h h' base lo t l l' b) (hF : FreeList base lo t h l) : Spares lo t h h' l l' := by
  intro x hx hdisj
  have hbx := ht.inside x hx.bytes_pos hdisj
  refine ⟨ht.frame _ (notMem_addrs hF hx hdisj) ?_, ht.disjoint x hx.bytes_pos hdisj⟩
  exact (hbx.addr_ne ht.inHeap.bytes_pos hx.bytes_pos).symm

/-- What a successful `morecore` leaves: a free list with a block of at least `nu` units. -/
structure More (top units : σ → Nat) (base lo : Nat) (h h' : Heap σ) (l l' : List Block) (nu : Nat) : Prop where
  rises : top h.proc ≤ top h'.proc
  list : FreeList base lo (top h'.proc) h' l'
  total : total l' + units h.proc = total l + units h'.proc
  lt : units h'.proc < 2 ^ 32
  length : l'.length ≤ l.length + 1
  large : ∃ n ∈ l', nu ≤ n.size
  spares : Spares lo (top h.proc) h h' l l'

/-- How `morecore` ends: without memory, at a store that faults, or with a new block in the free list. -/
inductive Morecore (K : Kernel σ) (top units : σ → Nat) (base lo : Nat) (h : Heap σ) (l : List Block) (nu : Nat) :
    Except (Stop σ) (Heap σ × Option Nat) → Prop
  | none {proc : σ} (htop : top h.proc ≤ top proc) (hunits : units proc = units h.proc) :
      Morecore K top units base lo h l nu (.ok ({ h with proc := proc }, none))
  | fault {proc : σ} (htop : top h.proc ≤ top proc) (hw : ∃ s a, K.writable s a = false) : Morecore K top units base lo h l nu (.error (.fault { h with proc := proc }))
  | some {h' : Heap σ} {l' : List Block} (hmore : More top units base lo h h' l l' nu) :
      Morecore K top units base lo h l nu (.ok (h', some h'.freep))

/-- The units that `morecore(nu)` asks for. -/
def atLeast4096 (nu : Nat) : Nat := if nu < 4096 then 4096 else nu

theorem le_atLeast4096 (nu : Nat) : nu ≤ atLeast4096 nu := by
  unfold atLeast4096
  split_ifs <;> omega

theorem FreeList.morecore (hF : FreeList base lo (top h.proc) h l) (hG : Grants K top units (atLeast4096 nunits))
    (hbase : lo ≤ top h.proc) (htotal : total l ≤ units h.proc) (hpos : 0 < nunits) (hfuel : l.length < fuel) :
    Morecore K top units base lo h l nunits (morecore K fuel h nunits) := by
  obtain ⟨nu, hnu⟩ : ∃ nu, nu = atLeast4096 nunits := ⟨_, rfl⟩
  have hle : nunits ≤ nu := hnu ▸ le_atLeast4096 nunits
  rw [← hnu] at hG
  unfold User.morecore
  rw [show (if nunits < 4096 then 4096 else nunits) = nu from hnu.symm]
  cases hs : K.sbrk h.proc (nu * HEADER) with
  | mk proc r =>
      cases r with
      | none =>
          simp only [hs]
          exact .none (hG.mono hs) (hG.fail hs)
      | some hp =>
          by_cases hw : K.writable proc hp = true
          · obtain ⟨hlow, hhigh, hunits, hlt⟩ := hG.region hs hw
            obtain ⟨h₁, hh₁⟩ : ∃ h₁ : Heap σ,
              h₁ = { h with hdr := Function.update h.hdr hp { h.hdr hp with size := nu }, proc := proc } := ⟨_, rfl⟩
            obtain ⟨b, hb⟩ : ∃ b : Block, b = ⟨hp, nu⟩ := ⟨_, rfl⟩
            have hb_size : b.size = nu := by rw [hb]
            have hmono : top h.proc ≤ top proc := hG.mono hs
            have hb_in : InHeap lo (top proc) b := by
              rw [hb]
              exact ⟨Nat.lt_of_lt_of_le hpos hle, hbase.trans hlow, hhigh⟩
            -- the new region is above every block
            have hdisj : ∀ n : Block, InHeap lo (top h.proc) n → Disjoint HEADER n b := fun n hn => by
              rw [hb]
              exact .inl (hn.high.trans hlow)
            have hkeep : ∀ n : Block, InHeap lo (top h.proc) n → h₁.hdr n.addr = h.hdr n.addr := fun n hn => by
              rw [hh₁]
              refine Function.update_of_ne ?_ _ _
              have := hn.high
              have := hn.bytes_pos
              rw [Block.stop] at *
              omega
            have hF₁ : FreeList base lo (top proc) h₁ l := by
              refine (hF.mono hmono).congr ?_ (fun n hn => hkeep n (hF.inHeap n hn)) (by rw [hh₁])
              rw [hh₁]
              refine Function.update_of_ne ?_ _ _
              have := hF.above
              have : 0 < HEADER := by decide
              omega
            have hsize : (h₁.hdr b.addr).size = b.size := by
              rw [hh₁, hb]
              show (Function.update h.hdr hp { h.hdr hp with size := nu } hp).size = nu
              rw [Function.update_self]
            obtain ⟨h', l', hrun, hproc, hF', hadd⟩ := hF₁.free hb_in hsize (fun n hn => hdisj n (hF.inHeap n hn))
              (by omega) hfuel
            have hproc' : h'.proc = proc := by rw [hproc, hh₁]
            rw [hb, hh₁] at hrun
            simp only [hs, if_pos hw, hrun]
            refine .some ⟨hproc' ▸ hmono, hproc' ▸ hF', ?_, hproc' ▸ hlt, hadd.length, ?_, fun x hx hxl => ?_⟩
            · rw [hadd.total, hproc', hunits, hb_size]
              omega
            · obtain ⟨n, hn, hbn⟩ := hadd.large
              exact ⟨n, hn, hle.trans (hb_size ▸ hbn)⟩
            · have hbx := (hdisj x hx).symm
              have hx' := hx.mono hmono
              refine ⟨?_, hadd.disjoint x hx.bytes_pos hxl hbx hx.low⟩
              rw [hadd.frame _ (hbx.addr_ne hb_in.bytes_pos hx.bytes_pos).symm (notMem_addrs hF₁ hx' hxl), hkeep x hx]
          · simp only [hs, if_neg hw]
            exact .fault (hG.mono hs) ⟨_, _, Bool.eq_false_iff.mpr hw⟩

/-- What a successful `malloc` leaves: the block `b` belongs to the caller. -/
structure Got (top units : σ → Nat) (base lo : Nat) (h h' : Heap σ) (l l' : List Block) (b : Block) : Prop where
  rises : top h.proc ≤ top h'.proc
  list : FreeList base lo (top h'.proc) h' l'
  inHeap : InHeap lo (top h'.proc) b
  size : (h'.hdr b.addr).size = b.size
  total : total l' + b.size + units h.proc = total l + units h'.proc
  lt : units h'.proc < 2 ^ 32
  length : l'.length ≤ l.length + 1
  apart : ∀ n ∈ l', Disjoint HEADER n b
  spares : Spares lo (top h.proc) h h' l l'
  fresh : ∀ x, InHeap lo (top h.proc) x → (∀ n ∈ l, Disjoint HEADER n x) → Disjoint HEADER b x

/-- How the loop of `malloc` ends: without memory, at a store that faults, or with a block of its own. -/
inductive Malloc (K : Kernel σ) (top units : σ → Nat) (base lo : Nat) (h : Heap σ) (l : List Block) (nunits : Nat) :
    Except (Stop σ) (Heap σ × Nat) → Prop
  | none {proc : σ} (htop : top h.proc ≤ top proc) (hunits : units proc = units h.proc) :
      Malloc K top units base lo h l nunits (.ok ({ h with proc := proc }, 0))
  | fault {proc : σ} (htop : top h.proc ≤ top proc) (hw : ∃ s a, K.writable s a = false) :
      Malloc K top units base lo h l nunits (.error (.fault { h with proc := proc }))
  | some {h' : Heap σ} {l' : List Block} {b : Block} (hsize : b.size = nunits) (hgot : Got top units base lo h h' l l' b) :
      Malloc K top units base lo h l nunits (.ok (h', b.addr + HEADER))

theorem FreeList.increasing {t : Nat} (hF : FreeList base lo t h l) : (base :: l.map Block.addr).Pairwise (· < ·) := by
  rw [show base :: l.map Block.addr = (⟨base, 0⟩ :: l : List Block).map Block.addr from rfl, List.pairwise_map]
  exact hF.apart.imp fun {a _} hab => Nat.lt_of_le_of_lt (Extents.addr_le_stop HEADER a) hab

/-- The walk once around the list from `freep`. -/
theorem FreeList.turn {t : Nat} (hF : FreeList base lo t h l) :
    ∃ w, Links (next h.hdr) (h.freep :: w) h.freep ∧ h.freep ∉ w ∧ w.length = l.length ∧
      ∀ a, a ∈ h.freep :: w ↔ a ∈ base :: l.map Block.addr := by
  obtain ⟨u, v, huv, hlinks⟩ := hF.walk
  have hnodup : (base :: l.map Block.addr).Nodup := hF.increasing.imp Nat.ne_of_lt
  have hlen := congrArg List.length huv
  refine ⟨v ++ u, hlinks, ?_, ?_, fun a => ?_⟩
  · rw [huv, List.nodup_middle, List.nodup_cons, List.mem_append] at hnodup
    rw [List.mem_append]
    exact fun hmem => hnodup.1 hmem.symm
  · simp only [List.length_cons, List.length_map, List.length_append] at hlen ⊢
    omega
  · rw [huv]
    simp only [List.mem_cons, List.mem_append]
    tauto

/-- Taking a block that has been found. -/
theorem FreeList.got {q : Nat} (hF : FreeList base lo (top h.proc) h l) (hq : q ∈ base :: l.map Block.addr)
    (hpos : 0 < nunits) (hfit : nunits ≤ (h.hdr (next h.hdr q)).size) (hlt : units h.proc < 2 ^ 32) :
    ∃ h' l' b, User.carve h nunits q (next h.hdr q) = (h', b.addr + HEADER) ∧ b.size = nunits ∧ l'.length ≤ l.length ∧
      Got top units base lo h h' l l' b := by
  obtain ⟨h', l', b, hrun, hproc, hsize, hF', ht⟩ := hF.carve hq hpos hfit
  refine ⟨h', l', b, hrun, hsize, ht.length, hproc ▸ le_rfl, hproc ▸ hF', hproc ▸ ht.inHeap, ht.size, ?_, hproc ▸ hlt,
    ht.length.trans (Nat.le_succ _), ht.apart, ht.spares hF, fun x hx hxl => ht.inside x hx.bytes_pos hxl⟩
  rw [hproc, ht.total]

/-- Taking a block after `morecore`. -/
theorem More.got {h₁ : Heap σ} {l₁ : List Block} {nu : Nat} (hm : More top units base lo h h₁ l l₁ nu)
    (hg : Got top units base lo h₁ h' l₁ l' b) (hlen : l'.length ≤ l₁.length) : Got top units base lo h h' l l' b := by
  have htotal := hm.total
  have htotal' := hg.total
  refine { hg with
    rises := hm.rises.trans hg.rises
    total := by omega
    length := hlen.trans hm.length
    spares := fun x hx hxl => ?_
    fresh := fun x hx hxl => hg.fresh x (hx.mono hm.rises) (hm.spares x hx hxl).2 }
  obtain ⟨h₁, hl₁⟩ := hm.spares x hx hxl
  obtain ⟨h₂, hl₂⟩ := hg.spares x (hx.mono hm.rises) hl₁
  exact ⟨h₂.trans h₁, hl₂⟩

/-- **The loop of `malloc`** ends, in one of these ways. -/
theorem FreeList.mallocLoop (hF : FreeList base lo (top h.proc) h l) (hG : Grants K top units (atLeast4096 nunits))
    (hbase : lo ≤ top h.proc) (htotal : total l ≤ units h.proc) (hlt : units h.proc < 2 ^ 32) (hpos : 0 < nunits)
    (hfuel : 2 * l.length + 3 ≤ fuel) :
    Malloc K top units base lo h l nunits (mallocLoop K nunits fuel h h.freep (next h.hdr h.freep)) := by
  obtain ⟨w, hw, hfreep, hlen, hmem⟩ := hF.turn
  rcases mallocLoop_scan K fuel w hw hfreep (by omega) with ⟨q, hq, hfit, hrun⟩ | ⟨-, hrun⟩
  · obtain ⟨h', l', b, hcarve, hsize, -, hgot⟩ := hF.got ((hmem q).mp hq) hpos hfit hlt
    rw [hrun, hcarve]
    exact .some hsize hgot
  · obtain ⟨fuel', hfuel'⟩ : ∃ fuel', fuel' = fuel - w.length - 1 := ⟨_, rfl⟩
    have hmore : Morecore K top units base lo h l nunits (User.morecore K fuel' h nunits) :=
      hF.morecore hG hbase htotal hpos (by omega)
    rw [hrun, refill, ← hfuel']
    generalize User.morecore K fuel' h nunits = r at hmore
    cases hmore with
    | none htop hunits => exact .none htop hunits
    | fault htop hw => exact .fault htop hw
    | some hmore =>
        rename_i h' l'
        -- the second turn finds the new block, or what it has become a part of
        obtain ⟨w', hw', hfreep', hlen', hmem'⟩ := hmore.list.turn
        have hlen'' := hmore.length
        rcases mallocLoop_scan K fuel' w' hw' hfreep' (by omega) with ⟨q, hq, hfit, hrun'⟩ | ⟨hnone, -⟩
        · obtain ⟨h'', l'', b, hcarve, hsize, hlen₂, hgot⟩ := hmore.list.got ((hmem' q).mp hq) hpos hfit hmore.lt
          show Malloc K top units base lo h l nunits (User.mallocLoop K nunits fuel' h' h'.freep (next h'.hdr h'.freep))
          rw [hrun', hcarve]
          exact .some hsize (hmore.got hgot hlen₂)
        · obtain ⟨n, hn, hsize⟩ := hmore.large
          have hn_mem : n.addr ∈ w' ++ [h'.freep] := by
            have := (hmem' n.addr).mpr (List.mem_cons_of_mem base (List.mem_map_of_mem hn))
            rw [List.mem_cons] at this
            rw [List.mem_append, List.mem_singleton]
            exact this.symm
          have := hnone _ hn_mem
          rw [hmore.list.rep.sizes n (List.mem_cons_of_mem _ hn)] at this
          omega

/-! ## Runs -/

/-- A block that the program has got and not given back: the address of its header, and what was asked for. -/
structure Held where
  addr : Nat
  nbytes : UInt32

/-- The program: the heap, and the blocks it holds. -/
structure Program (σ : Type) where
  heap : Heap σ
  live : List Held

/-- The block of a header. -/
def blockAt (hdr : Nat → Header) (x : Held) : Block := ⟨x.addr, (hdr x.addr).size⟩

/-- The live blocks. -/
def Program.blocks (s : Program σ) : List Block := s.live.map (blockAt s.heap.hdr)

/-- What the program can do: call `malloc`, free one of the blocks it holds, or write to the bytes of its blocks (which
    may change whatever is read as a header there). -/
inductive Call where
  | malloc (nbytes : UInt32)
  | free (i : Nat)
  | write (hdr : Nat → Header)

/-- A header at `a` would lie in the bytes of the block, behind its own header. -/
def Block.inside (b : Block) (a : Nat) : Bool := b.addr < a && a < b.stop HEADER

/-- One call. A pointer can be freed only while it is live. -/
def Program.step (K : Kernel σ) (base fuel : Nat) (s : Program σ) : Call → Except (Stop σ) (Program σ)
  | .malloc nbytes =>
      match malloc K base fuel s.heap nbytes with
      | .error e => .error e
      | .ok (h, 0) => .ok { s with heap := h }
      | .ok (h, p + 1) => .ok { heap := h, live := ⟨p + 1 - HEADER, nbytes⟩ :: s.live }
  | .free i =>
      match s.live[i]? with
      | none => .ok s
      | some x =>
          match free fuel s.heap (x.addr + HEADER) with
          | none => .error .fuel
          | some h => .ok { heap := h, live := s.live.eraseIdx i }
  | .write hdr =>
      let inside := fun a => s.blocks.any (Block.inside · a)
      .ok { s with heap := { s.heap with hdr := fun a => if inside a then hdr a else s.heap.hdr a } }

/-- A sequence of calls. -/
def Program.run (K : Kernel σ) (base fuel : Nat) (s : Program σ) (calls : List Call) : Except (Stop σ) (Program σ) :=
  calls.foldlM (Program.step K base fuel) s

/-- **The invariant.** The free blocks `l` and the live blocks are disjoint parts of the memory from `lo` on, and there
    is nothing else: all units but the first `c` are in one of them. -/
structure Inv (top units : σ → Nat) (base lo c : Nat) (s : Program σ) (l : List Block) : Prop where
  list : FreeList base lo (top s.heap.proc) s.heap l
  lo_le : lo ≤ top s.heap.proc
  live : ∀ x ∈ s.blocks, InHeap lo (top s.heap.proc) x
  free_live : ∀ n ∈ l, ∀ x ∈ s.blocks, Disjoint HEADER n x
  live_live : s.blocks.Pairwise (Disjoint HEADER)
  usable : ∀ x ∈ s.live, x.nbytes.toNat + HEADER ≤ HEADER * (s.heap.hdr x.addr).size
  sum : total l + total s.blocks + c = units s.heap.proc
  lt : units s.heap.proc < 2 ^ 32

variable {s : Program σ} {c : Nat}

/-- The live blocks depend on their headers only. -/
theorem blocks_congr {hdr hdr' : Nat → Header} {live : List Held}
    (h : ∀ x ∈ live.map (blockAt hdr), hdr' x.addr = hdr x.addr) : live.map (blockAt hdr') = live.map (blockAt hdr) := by
  refine List.map_congr_left fun x hx => ?_
  have := h _ (List.mem_map_of_mem hx)
  rw [blockAt, blockAt, show hdr' x.addr = hdr x.addr from this]

/-- The invariant depends on the headers of its blocks, on `freep` and on the process. -/
theorem Inv.congr (hI : Inv top units base lo c s l) (hproc : h'.proc = s.heap.proc) (hfreep : h'.freep = s.heap.freep)
    (hbase : h'.hdr base = s.heap.hdr base) (hl : ∀ n ∈ l, h'.hdr n.addr = s.heap.hdr n.addr)
    (hlive : ∀ x ∈ s.blocks, h'.hdr x.addr = s.heap.hdr x.addr) : Inv top units base lo c { s with heap := h' } l := by
  have hblocks : Program.blocks { s with heap := h' } = s.blocks := blocks_congr hlive
  refine ⟨?_, hproc ▸ hI.lo_le, ?_, ?_, hblocks ▸ hI.live_live, fun x hx => ?_, ?_, hproc ▸ hI.lt⟩
  · exact hproc ▸ hI.list.congr hbase hl hfreep
  · rw [hblocks]
    exact hproc ▸ hI.live
  · rw [hblocks]
    exact hI.free_live
  · rw [show h'.hdr x.addr = s.heap.hdr x.addr from hlive _ (List.mem_map_of_mem hx)]
    exact hI.usable x hx
  · rw [hblocks]
    exact hproc ▸ hI.sum

/-- No header of the allocator lies in the bytes of a live block. -/
theorem Inv.not_inside (hI : Inv top units base lo c s l) {a : Nat}
    (ha : a = base ∨ (∃ n ∈ l, a = n.addr) ∨ ∃ x ∈ s.blocks, a = x.addr) : s.blocks.any (Block.inside · a) = false := by
  rw [List.any_eq_false]
  intro x hx
  have hx_in := hI.live x hx
  rw [Block.inside, Bool.and_eq_true, decide_eq_true_iff, decide_eq_true_iff]
  rcases ha with rfl | ⟨n, hn, rfl⟩ | ⟨y, hy, rfl⟩
  · have := hI.list.base_lt hx_in
    omega
  · have hd := hI.free_live n hn x hx
    have := (hI.list.inHeap n hn).bytes_pos
    rw [Extents.Disjoint, Block.stop] at hd
    omega
  · by_cases hxy : x = y
    · rw [hxy]
      omega
    · have hd := hI.live_live.forall hx hy hxy
      have := (hI.live y hy).bytes_pos
      rw [Extents.Disjoint, Block.stop, Block.stop] at hd
      rw [Block.stop]
      omega

theorem Inv.write (hI : Inv top units base lo c s l) (hdr : Nat → Header) :
    ∃ s', s.step K base fuel (.write hdr) = .ok s' ∧ Inv top units base lo c s' l ∧ s'.heap.proc = s.heap.proc := by
  have hkeep : ∀ a, a = base ∨ (∃ n ∈ l, a = n.addr) ∨ (∃ x ∈ s.blocks, a = x.addr) →
      (if s.blocks.any (Block.inside · a) then hdr a else s.heap.hdr a) = s.heap.hdr a := fun a ha => by
    rw [hI.not_inside ha]
    rfl
  exact ⟨_, rfl, hI.congr rfl rfl (hkeep _ (.inl rfl)) (fun n hn => hkeep _ (.inr (.inl ⟨n, hn, rfl⟩)))
    fun x hx => hkeep _ (.inr (.inr ⟨x, hx, rfl⟩)), rfl⟩

theorem Inv.free (hI : Inv top units base lo c s l) (i : Nat) (hfuel : l.length < fuel) :
    ∃ s' l', s.step K base fuel (.free i) = .ok s' ∧ Inv top units base lo c s' l' ∧ l'.length ≤ l.length + 1 ∧
      s'.heap.proc = s.heap.proc := by
  rw [Program.step]
  cases hx : s.live[i]? with
  | none => exact ⟨s, l, rfl, hI, Nat.le_succ _, rfl⟩
  | some x =>
      obtain ⟨hi, hxi⟩ := List.getElem?_eq_some_iff.mp hx
      obtain ⟨b, hb⟩ : ∃ b, b = blockAt s.heap.hdr x := ⟨_, rfl⟩
      obtain ⟨others, hothers⟩ : ∃ others, others = (s.live.eraseIdx i).map (blockAt s.heap.hdr) := ⟨_, rfl⟩
      -- the live blocks are `b` and the others
      have hperm : s.blocks.Perm (b :: others) := by
        rw [Program.blocks, hb, hothers, ← List.map_cons, ← hxi]
        exact (List.getElem_cons_eraseIdx_perm hi).symm.map _
      have hmem : ∀ y, y ∈ s.blocks ↔ y = b ∨ y ∈ others := fun y => by rw [hperm.mem_iff, List.mem_cons]
      have hb_mem : b ∈ s.blocks := (hmem b).mpr (.inl rfl)
      obtain ⟨hb_others, hothers'⟩ := List.pairwise_cons.mp ((hperm.pairwise_iff fun h => Extents.Disjoint.symm h).mp hI.live_live)
      have htotal : total s.blocks = b.size + total others := by
        rw [← Extents.total_cons]
        exact (hperm.map Block.size).sum_eq
      have hb_in := hI.live b hb_mem
      have hsum := hI.sum
      have hlt := hI.lt
      obtain ⟨h', l', hrun, hproc, hF', hadd⟩ := hI.list.free (b := b) hb_in (by rw [hb]; rfl)
        (fun n hn => hI.free_live n hn b hb_mem) (by omega) hfuel
      have hspare : ∀ y ∈ others, h'.hdr y.addr = s.heap.hdr y.addr := fun y hy => by
        have hy_in := hI.live y ((hmem y).mpr (.inr hy))
        have hyl : ∀ n ∈ l, Disjoint HEADER n y := fun n hn => hI.free_live n hn y ((hmem y).mpr (.inr hy))
        exact hadd.frame _ ((hb_others y hy).addr_ne hb_in.bytes_pos hy_in.bytes_pos).symm (notMem_addrs hI.list hy_in hyl)
      have hblocks : (s.live.eraseIdx i).map (blockAt h'.hdr) = others := by
        rw [hothers]
        exact blocks_congr fun y hy => hspare y (hothers ▸ hy)
      have haddr : x.addr + HEADER = b.addr + HEADER := by rw [hb]; rfl
      rw [← haddr] at hrun
      simp only [hrun]
      refine ⟨_, l', rfl, ⟨hproc ▸ hF', hproc ▸ hI.lo_le, ?_, ?_, ?_, fun y hy => ?_, ?_, hproc ▸ hlt⟩, hadd.length, hproc⟩
      · rw [Program.blocks, hblocks]
        exact fun y hy => hproc ▸ hI.live y ((hmem y).mpr (.inr hy))
      · rw [Program.blocks, hblocks]
        intro n hn y hy
        have hy' := (hmem y).mpr (.inr hy)
        exact hadd.disjoint y (hI.live y hy').bytes_pos (fun n hn => hI.free_live n hn y hy') (hb_others y hy)
          (hI.live y hy').low n hn
      · rw [Program.blocks, hblocks]
        exact hothers'
      · show y.nbytes.toNat + HEADER ≤ HEADER * (h'.hdr y.addr).size
        rw [show h'.hdr y.addr = s.heap.hdr y.addr from hspare _ (hothers ▸ List.mem_map_of_mem hy)]
        exact hI.usable y (List.mem_of_mem_eraseIdx hy)
      · show total l' + total ((s.live.eraseIdx i).map (blockAt h'.hdr)) + c = units h'.proc
        rw [hblocks, hadd.total, hproc]
        omega

theorem unitsOf_pos (nbytes : UInt32) : 0 < unitsOf nbytes := Nat.succ_pos _

theorem le_unitsOf (nbytes : UInt32) : nbytes.toNat + HEADER ≤ HEADER * unitsOf nbytes := by
  rw [unitsOf, HEADER]
  omega

/-- The state after a call of `malloc`. -/
inductive MallocStep (K : Kernel σ) (top units : σ → Nat) (base lo c : Nat) (s : Program σ) (l : List Block) :
    Except (Stop σ) (Program σ) → Prop
  | ok {s' : Program σ} {l' : List Block} (hI : Inv top units base lo c s' l') (hlen : l'.length ≤ l.length + 1)
      (htop : top s.heap.proc ≤ top s'.heap.proc) : MallocStep K top units base lo c s l (.ok s')
  | fault {h' : Heap σ} (htop : top s.heap.proc ≤ top h'.proc) (hw : ∃ s a, K.writable s a = false) : MallocStep K top units base lo c s l (.error (.fault h'))

theorem initBase_eq (hI : Inv top units base lo c s l) (hbase : 0 < base) : initBase base s.heap = s.heap := by
  refine if_neg fun heq => ?_
  have hmem := hI.list.freep
  rw [heq, List.mem_cons, List.mem_map] at hmem
  rcases hmem with h0 | ⟨n, hn, h0⟩
  · omega
  · have := hI.list.base_lt (hI.list.inHeap n hn)
    omega

theorem Inv.malloc (hI : Inv top units base lo c s l) (hbase : 0 < base) {nbytes : UInt32}
    (hG : Grants K top units (atLeast4096 (unitsOf nbytes))) (hfuel : 2 * l.length + 3 ≤ fuel) :
    MallocStep K top units base lo c s l (s.step K base fuel (.malloc nbytes)) := by
  have hsum := hI.sum
  have hm := hI.list.mallocLoop hG hI.lo_le (by omega) hI.lt (unitsOf_pos nbytes) hfuel
  rw [Program.step, User.malloc, initBase_eq hI hbase]
  change Malloc K top units base lo s.heap l (unitsOf nbytes)
    (User.mallocLoop K (unitsOf nbytes) fuel s.heap s.heap.freep (s.heap.hdr s.heap.freep).ptr) at hm
  generalize User.mallocLoop K (unitsOf nbytes) fuel s.heap s.heap.freep (s.heap.hdr s.heap.freep).ptr = r at hm
  cases hm with
  | none htop hunits =>
      rename_i proc
      refine .ok (?_ : Inv top units base lo c _ l) (Nat.le_succ _) htop
      exact { hI with
        list := (hI.list.mono htop).congr rfl (fun _ _ => rfl) rfl
        lo_le := hI.lo_le.trans htop
        live := fun x hx => (hI.live x hx).mono htop
        sum := hI.sum.trans hunits.symm
        lt := hunits.trans_lt hI.lt }
  | fault htop hw => exact .fault htop hw
  | some hsize hg =>
      rename_i h' l' b
      obtain ⟨p, hp⟩ : ∃ p, b.addr + HEADER = p + 1 := ⟨b.addr + 15, rfl⟩
      have haddr : p + 1 - HEADER = b.addr := by omega
      rw [hp]
      simp only [haddr]
      have hspare : ∀ x ∈ s.blocks, h'.hdr x.addr = s.heap.hdr x.addr ∧ ∀ n ∈ l', Disjoint HEADER n x := fun x hx =>
        hg.spares x (hI.live x hx) fun n hn => hI.free_live n hn x hx
      have hblocks : Program.blocks { heap := h', live := ⟨b.addr, nbytes⟩ :: s.live } = b :: s.blocks := by
        rw [Program.blocks, List.map_cons, blocks_congr fun x hx => (hspare x hx).1, Program.blocks, blockAt, hg.size]
      refine .ok ⟨hg.list, hI.lo_le.trans hg.rises, ?_, ?_, ?_, ?_, ?_, hg.lt⟩ hg.length hg.rises
      · rw [hblocks]
        exact List.forall_mem_cons.mpr ⟨hg.inHeap, fun x hx => (hI.live x hx).mono hg.rises⟩
      · rw [hblocks]
        exact fun n hn => List.forall_mem_cons.mpr ⟨hg.apart n hn, fun x hx => (hspare x hx).2 n hn⟩
      · rw [hblocks]
        refine List.pairwise_cons.mpr ⟨fun x hx => ?_, hI.live_live⟩
        exact hg.fresh x (hI.live x hx) fun n hn => hI.free_live n hn x hx
      · refine List.forall_mem_cons.mpr ⟨?_, fun x hx => ?_⟩
        · show nbytes.toNat + HEADER ≤ HEADER * (h'.hdr b.addr).size
          rw [hg.size, hsize]
          exact le_unitsOf nbytes
        · show x.nbytes.toNat + HEADER ≤ HEADER * (h'.hdr x.addr).size
          rw [show h'.hdr x.addr = s.heap.hdr x.addr from (hspare _ (List.mem_map_of_mem hx)).1]
          exact hI.usable x hx
      · rw [hblocks, Extents.total_cons]
        have := hg.total
        show total l' + (b.size + total s.blocks) + c = units h'.proc
        omega

/-- Nothing has been allocated yet. -/
structure Untouched (top units : σ → Nat) (base lo c : Nat) (s : Program σ) : Prop where
  freep : s.heap.freep = 0
  live : s.live = []
  above : base + HEADER ≤ lo
  lo_le : lo ≤ top s.heap.proc
  units : units s.heap.proc = c
  lt : c < 2 ^ 32

/-- The state is as at the beginning, or the invariant holds with at most `n` free blocks. -/
def Ready (top units : σ → Nat) (base lo c n : Nat) (s : Program σ) : Prop :=
  Untouched top units base lo c s ∨ ∃ l, l.length ≤ n ∧ Inv top units base lo c s l

theorem Untouched.init (hU : Untouched top units base lo c s) :
    Inv top units base lo c { s with heap := initBase base s.heap } [] := by
  have hinit : initBase base s.heap = { s.heap with hdr := Function.update s.heap.hdr base ⟨base, 0⟩, freep := base } :=
    if_pos hU.freep
  have hblocks : Program.blocks { s with heap := initBase base s.heap } = [] := by rw [Program.blocks, hU.live, List.map_nil]
  have hproc : (initBase base s.heap).proc = s.heap.proc := by rw [hinit]
  refine ⟨⟨?_, List.pairwise_singleton _ _, hU.above, nofun, ?_⟩, hproc ▸ hU.lo_le, ?_, nofun, ?_, ?_, ?_, ?_⟩
  · rw [rep_cons, hinit]
    exact ⟨Function.update_self _ _ _, trivial, nofun⟩
  · rw [hinit]
    exact List.mem_cons_self
  · rw [hblocks]
    exact nofun
  · rw [hblocks]
    exact List.Pairwise.nil
  · rw [hU.live]
    exact nofun
  · rw [hblocks, hproc, hU.units]
    exact Nat.zero_add c
  · rw [hproc, hU.units]
    exact hU.lt

theorem initBase_initBase (hbase : 0 < base) (h : Heap σ) : initBase base (initBase base h) = initBase base h := by
  by_cases hf : h.freep = 0
  · have hinit : initBase base h = { h with hdr := Function.update h.hdr base ⟨base, 0⟩, freep := base } := if_pos hf
    rw [hinit]
    exact if_neg (Nat.ne_of_gt hbase)
  · rw [show initBase base h = h from if_neg hf]
    exact if_neg hf

/-- How a call ends: the state is ready again, or the process was killed at a store. -/
inductive Ends (K : Kernel σ) (top units : σ → Nat) (base lo c n : Nat) (s : Program σ) : Except (Stop σ) (Program σ) → Prop
  | ok {s' : Program σ} (hR : Ready top units base lo c n s') (htop : top s.heap.proc ≤ top s'.heap.proc) :
      Ends K top units base lo c n s (.ok s')
  | fault {h' : Heap σ} (htop : top s.heap.proc ≤ top h'.proc) (hw : ∃ s a, K.writable s a = false) : Ends K top units base lo c n s (.error (.fault h'))

variable {n : Nat}

theorem MallocStep.ends {r : Except (Stop σ) (Program σ)} (hm : MallocStep K top units base lo c s l r) (hlen : l.length ≤ n) :
    Ends K top units base lo c (n + 1) s r := by
  cases hm with
  | ok hI hlen' htop => exact .ok (.inr ⟨_, hlen'.trans (Nat.succ_le_succ hlen), hI⟩) htop
  | fault htop hw => exact .fault htop hw

/-- **One call** ends and leaves the state ready. -/
theorem Ready.step (hR : Ready top units base lo c n s) (hbase : 0 < base) (call : Call)
    (hG : ∀ nbytes, call = .malloc nbytes → Grants K top units (atLeast4096 (unitsOf nbytes))) (hfuel : 2 * n + 3 ≤ fuel) :
    Ends K top units base lo c (n + 1) s (s.step K base fuel call) := by
  rcases hR with hU | ⟨l, hlen, hI⟩
  · cases call with
    | malloc nbytes =>
        have hstep : s.step K base fuel (.malloc nbytes) =
            Program.step K base fuel { s with heap := initBase base s.heap } (.malloc nbytes) := by
          rw [Program.step, Program.step, User.malloc, User.malloc, initBase_initBase hbase]
        have hproc : (initBase base s.heap).proc = s.heap.proc := by
          rw [initBase]
          split_ifs <;> rfl
        have hm := hU.init.malloc hbase (hG nbytes rfl) (show 2 * ([] : List Block).length + 3 ≤ fuel from by
          rw [List.length_nil]
          omega)
        rw [hstep]
        generalize Program.step K base fuel { s with heap := initBase base s.heap } (.malloc nbytes) = r at hm
        cases hm.ends (Nat.zero_le n) with
        | ok hR htop => exact .ok hR (hproc ▸ htop)
        | fault htop hw => exact .fault (hproc ▸ htop) hw
    | free i =>
        rw [Program.step, hU.live]
        exact .ok (.inl hU) le_rfl
    | write hdr =>
        refine .ok (.inl ⟨hU.freep, hU.live, hU.above, hU.lo_le, hU.units, hU.lt⟩) le_rfl
  · cases call with
    | malloc nbytes => exact (hI.malloc hbase (hG nbytes rfl) (by omega)).ends hlen
    | free i =>
        obtain ⟨s', l', hrun, hI', hlen', hproc⟩ := hI.free (K := K) i (show l.length < fuel by omega)
        rw [hrun]
        exact .ok (.inr ⟨l', by omega, hI'⟩) (hproc ▸ le_rfl)
    | write hdr =>
        obtain ⟨s', hrun, hI', hproc⟩ := hI.write (K := K) hdr
        rw [hrun]
        exact .ok (.inr ⟨l, by omega, hI'⟩) (hproc ▸ le_rfl)

/-- **A whole run**: every call ends, and the state is ready after it, unless the process is killed at a store. -/
theorem Ready.run (hbase : 0 < base) (calls : List Call) (hR : Ready top units base lo c n s)
    (hG : ∀ nbytes, Call.malloc nbytes ∈ calls → Grants K top units (atLeast4096 (unitsOf nbytes)))
    (hfuel : 2 * (n + calls.length) + 3 ≤ fuel) :
    Ends K top units base lo c (n + calls.length) s (s.run K base fuel calls) := by
  induction calls generalizing s n with
  | nil => exact .ok hR le_rfl
  | cons call calls ih =>
      rw [List.length_cons] at hfuel ⊢
      have hstep := hR.step (K := K) hbase call
        (fun nbytes heq => hG nbytes (heq ▸ List.mem_cons_self)) (show 2 * n + 3 ≤ fuel by omega)
      rw [Program.run, List.foldlM_cons]
      generalize s.step K base fuel call = r at hstep
      cases hstep with
      | ok hR' htop =>
          have hrest := ih hR' (fun nbytes hmem => hG nbytes (List.mem_cons_of_mem call hmem)) (by omega)
          rename_i s'
          show Ends K top units base lo c (n + (calls.length + 1)) s (s'.run K base fuel calls)
          generalize s'.run K base fuel calls = r' at hrest
          rw [show n + (calls.length + 1) = n + 1 + calls.length by omega]
          cases hrest with
          | ok hR'' htop' => exact .ok hR'' (htop.trans htop')
          | fault htop' hw => exact .fault (htop.trans htop') hw
      | fault htop hw => exact .fault htop hw

end Xv6.User
