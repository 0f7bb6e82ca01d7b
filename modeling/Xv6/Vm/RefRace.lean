import Xv6.Lib.Counter

/-!
# `Vm.RefRace` — `ref_count` of one shared page under `fork`

`add_kmem_ref` increments `ref_count[i]` without a lock, `kfree` decrements it under `kmem.lock`, and
`usertrap`/`copyout` test it under `ref_lock`. The machine follows one physical page: process `f` runs
`uvmcopy` for its child `c` once, while every process (the parent and the child too, once `fork` is over)
may release the page through `uvmunmap` (`exit`, `exec`, `uvmdealloc`) or through a copy-on-write fault.
The load and the store of `ref_count[i]` are separate steps in both functions.

The machine is simulated by `Counter`, so the count is right at the end if and only if no store to
`ref_count[i]` falls between the load and the store of another update (`ref_count_eq_ptes_iff`).
-/

namespace Xv6.RefRace

abbrev NPROC : Nat := 64

/-- What follows a `kfree` of the page. -/
inductive Cont
  /-- `uvmunmap`: clear the PTE -/
  | unmap
  /-- `usertrap` or `copyout`, with the PTE already pointing to the copy: release `ref_lock` -/
  | cow
  /-- `uvmcopy`'s error path: clear the child's PTE and return -1 -/
  | unwind
deriving DecidableEq

/-- Program points. `unborn` is the child before `uvmcopy` has succeeded. -/
inductive Pc
  | user
  | unborn
  | forkMap
  | addLoad
  | addStore (r : UInt32)
  | forkRest
  | kfree (k : Cont)
  | kfreeLoad (k : Cont)
  | kfreeStore (k : Cont) (r : UInt32)
  | kfreeRelease (k : Cont) (zero : Bool)
  | kfreePush (k : Cont)
  | kfreeDone (k : Cont)
  | cowAcquire
  | cowRead
  | cowCopy
  | cowRelease

/-- `pte` says whether the process's page table maps the page. -/
structure Proc where
  pc : Pc
  pte : Bool

structure Sys where
  ref : UInt32
  kmemLock : Option (Fin NPROC)
  refLock : Option (Fin NPROC)
  procs : Fin NPROC → Proc
  forked : Bool
  freed : Nat

inductive Op
  | fork
  | unmap
  | cow
deriving DecidableEq

/-- `alloc p ok` answers the `mappages` or `kalloc` call that `p` is at. -/
inductive Act
  | call (p : Fin NPROC) (op : Op)
  | next (p : Fin NPROC)
  | alloc (p : Fin NPROC) (ok : Bool)
deriving DecidableEq

def Sys.setProc (s : Sys) (p : Fin NPROC) (pr : Proc) : Sys :=
  { s with procs := Function.update s.procs p pr }

def Sys.goto (s : Sys) (p : Fin NPROC) (pc : Pc) : Sys := s.setProc p { s.procs p with pc := pc }

def Sys.setPte (s : Sys) (p : Fin NPROC) (pte : Bool) : Sys :=
  s.setProc p { s.procs p with pte := pte }

/-- The statement after `kfree`. -/
def Sys.afterKfree (s : Sys) (c p : Fin NPROC) : Cont → Sys
  | .unmap => (s.setPte p false).goto p .user
  | .cow => { s with refLock := none }.goto p .user
  | .unwind => (s.setPte c false).goto p .user

/-- A system call or a fault of a process that maps the page. -/
def call (f : Fin NPROC) (s : Sys) (p : Fin NPROC) (op : Op) : Option Sys :=
  match s.procs p, op with
  | ⟨.user, true⟩, .fork =>
      if p = f ∧ s.forked = false then some ({ s with forked := true }.goto p .forkMap) else none
  | ⟨.user, true⟩, .unmap => some (s.goto p (.kfree .unmap))
  | ⟨.user, true⟩, .cow => some (s.goto p .cowAcquire)
  | _, _ => none

def next (c : Fin NPROC) (s : Sys) (p : Fin NPROC) : Option Sys :=
  match (s.procs p).pc with
  | .addLoad => some (s.goto p (.addStore s.ref))
  | .addStore r => some ({ s with ref := r + 1 }.goto p .forkRest)
  | .kfree k =>
      if s.kmemLock = none then some ({ s with kmemLock := some p }.goto p (.kfreeLoad k)) else none
  | .kfreeLoad k => some (s.goto p (.kfreeStore k s.ref))
  | .kfreeStore k r =>
      some ({ s with ref := r - 1 }.goto p (.kfreeRelease k (r - 1 == 0)))
  | .kfreeRelease k zero =>
      some ({ s with kmemLock := none }.goto p (if zero then .kfreePush k else .kfreeDone k))
  | .kfreePush k =>
      if s.kmemLock = none then some ({ s with freed := s.freed + 1 }.goto p (.kfreeDone k)) else none
  | .kfreeDone k => some (s.afterKfree c p k)
  | .cowAcquire =>
      if s.refLock = none then some ({ s with refLock := some p }.goto p .cowRead) else none
  | .cowRead => some (s.goto p (if s.ref = 1 then .cowRelease else .cowCopy))
  | .cowRelease => some ({ s with refLock := none }.goto p .user)
  | _ => none

def alloc (c : Fin NPROC) (s : Sys) (p : Fin NPROC) (ok : Bool) : Option Sys :=
  match (s.procs p).pc with
  | .forkMap =>
      if ok then some ((s.setPte c true).goto p .addLoad) else some (s.goto p .user)
  | .forkRest =>
      -- the pages after this one: all copied, or one of them fails
      if ok then some ((s.goto c .user).goto p .user) else some (s.goto p (.kfree .unwind))
  | .cowCopy =>
      if ok then some ((s.setPte p false).goto p (.kfree .cow)) else some (s.goto p .cowRelease)
  | _ => none

def step (f c : Fin NPROC) (s : Sys) : Act → Option Sys
  | .call p op => call f s p op
  | .next p => next c s p
  | .alloc p ok => alloc c s p ok

/-- Any set of processes maps the page, with the right count; the child does not exist yet. -/
def init (c : Fin NPROC) (maps : Finset (Fin NPROC)) : Sys where
  ref := UInt32.ofNat (maps.erase c).card
  kmemLock := none
  refLock := none
  procs p := if p = c then ⟨.unborn, false⟩ else ⟨.user, decide (p ∈ maps)⟩
  forked := false
  freed := 0

/-! ## The count that `ref_count` should show -/

/-- The number of PTEs that map the page. -/
def Sys.ptes (s : Sys) : Nat := ∑ p, (s.procs p).pte.toNat

def Sys.Quiescent (s : Sys) : Prop := ∀ p, (s.procs p).pc = .user ∨ (s.procs p).pc = .unborn

/-- What the process owns besides the reference it is dropping. -/
def Cont.rest (pte : Bool) : Cont → Nat
  | .unmap => 0
  | _ => pte.toNat

/-- The counted references a process owns. The parent owns the child's until `uvmcopy` returns; a reference
    is given up when the decremented count is stored. -/
def Proc.refs (pr : Proc) : Nat :=
  match pr.pc with
  | .unborn => 0
  | .forkRest => pr.pte.toNat + 1
  | .kfree k | .kfreeLoad k | .kfreeStore k _ => k.rest pr.pte + 1
  | .kfreeRelease k _ | .kfreePush k | .kfreeDone k => k.rest pr.pte
  | _ => pr.pte.toNat

def Sys.refs (s : Sys) : Nat := ∑ p, (s.procs p).refs

def Cont.unwinds : Cont → Bool
  | .unwind => true
  | _ => false

/-- The points of `uvmcopy` at which the child's PTE maps the page. -/
def Pc.childMapped : Pc → Bool
  | .addLoad | .addStore _ | .forkRest => true
  | .kfree k | .kfreeLoad k | .kfreeStore k _ | .kfreeRelease k _ | .kfreePush k | .kfreeDone k =>
      k.unwinds
  | _ => false

def Pc.forking : Pc → Bool
  | .forkMap => true
  | pc => pc.childMapped

/-- The points of a copy-on-write fault before the PTE changes. -/
def Pc.faulting : Pc → Bool
  | .cowAcquire | .cowRead | .cowCopy | .cowRelease => true
  | _ => false

/-- Between acquiring and releasing `kmem.lock` for the decrement. -/
def Pc.decrementing : Pc → Bool
  | .kfreeLoad _ | .kfreeStore _ _ | .kfreeRelease _ _ => true
  | _ => false

/-- Between the load and the store of an update of `ref_count`. -/
def Pc.updating : Pc → Bool
  | .addStore _ | .kfreeStore _ _ => true
  | _ => false

structure Inv (f c : Fin NPROC) (s : Sys) : Prop where
  lock : ∀ p, (s.procs p).pc.decrementing = true ↔ s.kmemLock = some p
  parent : ∀ p, (s.procs p).pc.forking = true → p = f ∧ s.forked = true ∧ (s.procs p).pte = true
  unborn : ∀ p, (s.procs p).pc = .unborn → p = c
  child : (s.procs c).pc = .unborn → (s.procs c).pte = (s.procs f).pc.childMapped
  waits : (s.procs f).pc.forking = true ∨ s.forked = false → (s.procs c).pc = .unborn
  faults : ∀ p, (s.procs p).pc.faulting = true → (s.procs p).pte = true

/-! ## What a step does

Most steps move one process without touching the count, the lock or the fork (`Move`). -/

/-- How far the increment is, where the program point alone says so. -/
def Pc.phase : Pc → Option Counter.Inc
  | .forkMap | .addLoad => some .before
  | .addStore r => some (.loaded r.toNat)
  | _ => none

/-- The value a decrement has loaded. -/
def Pc.decLoaded : Pc → Option Nat
  | .kfreeStore _ r => some r.toNat
  | _ => none

/-- A move that keeps the process's part in the fork. -/
structure Neutral (pr pr' : Proc) : Prop where
  childMapped_eq : pr'.pc.childMapped = pr.pc.childMapped
  forking_eq : pr'.pc.forking = pr.pc.forking
  pte_eq : pr'.pc.forking = true → pr'.pte = pr.pte
  born : pr.pc ≠ .unborn
  born' : pr'.pc ≠ .unborn
  faults : pr'.pc.faulting = true → pr'.pte = true

/-- A neutral move that concerns neither the updates of the count nor the references the process owns. -/
structure Move (pr pr' : Proc) : Prop extends Neutral pr pr' where
  refs_eq : pr'.refs = pr.refs
  phase_eq : pr'.pc.phase = pr.pc.phase
  unlocked : pr.pc.decrementing = false
  unlocked' : pr'.pc.decrementing = false
  idle : pr.pc.updating = false

def Act.proc : Act → Fin NPROC
  | .call p _ => p
  | .next p => p
  | .alloc p _ => p

/-- Every effect a step can have. -/
inductive Effect (f c : Fin NPROC) (s : Sys) : Act → Sys → Prop
  | quiet {a : Act} {pr : Proc} (rl : Option (Fin NPROC)) (fr : Nat) (hm : Move (s.procs a.proc) pr) :
      Effect f c s a ({ s with refLock := rl, freed := fr }.setProc a.proc pr)
  | fork (hpc : (s.procs f).pc = .user) (hpte : (s.procs f).pte = true) (hf : s.forked = false) :
      Effect f c s (.call f .fork) ({ s with forked := true }.goto f .forkMap)
  | forkFail {p : Fin NPROC} (hpc : (s.procs p).pc = .forkMap) :
      Effect f c s (.alloc p false) (s.goto p .user)
  | mapChild {p : Fin NPROC} (hpc : (s.procs p).pc = .forkMap) :
      Effect f c s (.alloc p true) ((s.setPte c true).goto p .addLoad)
  | addLoad {p : Fin NPROC} (hpc : (s.procs p).pc = .addLoad) :
      Effect f c s (.next p) (s.goto p (.addStore s.ref))
  | addStore {p : Fin NPROC} {r : UInt32} (hpc : (s.procs p).pc = .addStore r) :
      Effect f c s (.next p) ({ s with ref := r + 1 }.goto p .forkRest)
  | forkDone {p : Fin NPROC} (hpc : (s.procs p).pc = .forkRest) :
      Effect f c s (.alloc p true) ((s.goto c .user).goto p .user)
  | acquire {p : Fin NPROC} {k : Cont} (hpc : (s.procs p).pc = .kfree k) (hl : s.kmemLock = none) :
      Effect f c s (.next p) ({ s with kmemLock := some p }.goto p (.kfreeLoad k))
  | decLoad {p : Fin NPROC} {k : Cont} (hpc : (s.procs p).pc = .kfreeLoad k) :
      Effect f c s (.next p) (s.goto p (.kfreeStore k s.ref))
  | decStore {p : Fin NPROC} {k : Cont} {r : UInt32} (zero : Bool)
      (hpc : (s.procs p).pc = .kfreeStore k r) :
      Effect f c s (.next p)
        ({ s with ref := r - 1 }.goto p (.kfreeRelease k zero))
  | release {p : Fin NPROC} {k : Cont} {zero : Bool} (hpc : (s.procs p).pc = .kfreeRelease k zero) :
      Effect f c s (.next p)
        ({ s with kmemLock := none }.goto p (if zero then .kfreePush k else .kfreeDone k))
  | unwound {p : Fin NPROC} (hpc : (s.procs p).pc = .kfreeDone .unwind) :
      Effect f c s (.next p) ((s.setPte c false).goto p .user)

variable {f c : Fin NPROC} {s t : Sys} {a : Act}

/-- A quiet step from a known program point, given by the state it ends in. -/
theorem Effect.of_move {k : Pc} {r : Proc} {l : Option (Fin NPROC)} {n : Nat}
    (hpc : (s.procs a.proc).pc = k) (hm : Move ⟨k, (s.procs a.proc).pte⟩ r)
    (ht : t = { s with refLock := l, freed := n }.setProc a.proc r) : Effect f c s a t := by
  subst hpc
  exact ht ▸ .quiet l n hm

theorem call_effect {p : Fin NPROC} {op : Op} (h : call f s p op = some t) :
    Effect f c s (.call p op) t := by
  unfold call at h
  split at h
  case h_1 hp =>
      split at h
      · rename_i hg
        obtain ⟨rfl, hf⟩ := hg
        cases h
        exact .fork (by rw [hp]) (by rw [hp]) hf
      · cases h
  case h_2 hp =>
      cases h
      refine .of_move (by rw [Act.proc, hp]) ?_ rfl
      exact ⟨⟨rfl, rfl, nofun, nofun, nofun, nofun⟩, by rw [Act.proc, hp]; rfl, rfl, rfl, rfl, rfl⟩
  case h_3 hp =>
      cases h
      refine .of_move (by rw [Act.proc, hp]) ?_ rfl
      exact ⟨⟨rfl, rfl, nofun, nofun, nofun, fun _ => by rw [hp]⟩, rfl, rfl, rfl, rfl, rfl⟩
  case h_4 => cases h

theorem next_effect {p : Fin NPROC} (hI : Inv f c s) (h : next c s p = some t) :
    Effect f c s (.next p) t := by
  unfold next at h
  split at h
  case h_1 hpc => cases h; exact .addLoad hpc
  case h_2 r hpc => cases h; exact .addStore hpc
  case h_3 k hpc =>
      split at h <;> cases h
      exact .acquire hpc (by assumption)
  case h_4 k hpc => cases h; exact .decLoad hpc
  case h_5 k r hpc => cases h; exact .decStore _ hpc
  case h_6 k zero hpc => cases h; exact .release hpc
  case h_7 k hpc =>
      split at h <;> cases h
      refine .of_move hpc ?_ rfl
      exact ⟨⟨rfl, rfl, fun _ => rfl, nofun, nofun, nofun⟩, rfl, rfl, rfl, rfl, rfl⟩
  case h_8 k hpc =>
      cases h
      cases k with
      | unmap =>
          refine .of_move (r := ⟨.user, false⟩) (l := s.refLock) (n := s.freed) hpc ?_
            (by simp [Sys.afterKfree, Sys.setPte, Sys.goto, Sys.setProc, Act.proc])
          exact ⟨⟨rfl, rfl, nofun, nofun, nofun, nofun⟩, rfl, rfl, rfl, rfl, rfl⟩
      | cow =>
          refine .of_move hpc ?_ rfl
          exact ⟨⟨rfl, rfl, nofun, nofun, nofun, nofun⟩, rfl, rfl, rfl, rfl, rfl⟩
      | unwind => exact .unwound hpc
  case h_9 hpc =>
      split at h <;> cases h
      refine .of_move hpc ?_ rfl
      have hpte := hI.faults p (by rw [hpc]; rfl)
      exact ⟨⟨rfl, rfl, nofun, nofun, nofun, fun _ => hpte⟩, rfl, rfl, rfl, rfl, rfl⟩
  case h_10 hpc =>
      cases h
      refine .of_move hpc ?_ rfl
      have hpte := hI.faults p (by rw [hpc]; rfl)
      split <;> exact ⟨⟨rfl, rfl, nofun, nofun, nofun, fun _ => hpte⟩, rfl, rfl, rfl, rfl, rfl⟩
  case h_11 hpc =>
      cases h
      refine .of_move hpc ?_ rfl
      exact ⟨⟨rfl, rfl, nofun, nofun, nofun, nofun⟩, rfl, rfl, rfl, rfl, rfl⟩
  case h_12 => cases h

theorem alloc_effect {p : Fin NPROC} {ok : Bool} (hI : Inv f c s) (h : alloc c s p ok = some t) :
    Effect f c s (.alloc p ok) t := by
  unfold alloc at h
  split at h
  case h_1 hpc =>
      cases ok with
      | true => cases h; exact .mapChild hpc
      | false => cases h; exact .forkFail hpc
  case h_2 hpc =>
      cases ok with
      | true => cases h; exact .forkDone hpc
      | false =>
          cases h
          refine .of_move hpc ?_ rfl
          exact ⟨⟨rfl, rfl, fun _ => rfl, nofun, nofun, nofun⟩, rfl, rfl, rfl, rfl, rfl⟩
  case h_3 hpc =>
      have hpte := hI.faults p (by rw [hpc]; rfl)
      cases ok with
      | true =>
          cases h
          refine .of_move (r := ⟨.kfree .cow, false⟩) (l := s.refLock) (n := s.freed) hpc ?_
            (by simp [Sys.setPte, Sys.goto, Sys.setProc, Act.proc])
          exact ⟨⟨rfl, rfl, nofun, nofun, nofun, nofun⟩, by simp [Act.proc, hpte, Proc.refs, Cont.rest],
            rfl, rfl, rfl, rfl⟩
      | false =>
          cases h
          refine .of_move hpc ?_ rfl
          exact ⟨⟨rfl, rfl, nofun, nofun, nofun, fun _ => hpte⟩, rfl, rfl, rfl, rfl, rfl⟩
  case h_4 => cases h

theorem step_effect (hI : Inv f c s) (h : step f c s a = some t) : Effect f c s a t := by
  cases a with
  | call p op => exact call_effect h
  | next p => exact next_effect hI h
  | alloc p ok => exact alloc_effect hI h

/-! ## The invariant -/

@[simp] theorem setProc_procs (s : Sys) (p : Fin NPROC) (pr : Proc) :
    (s.setProc p pr).procs = Function.update s.procs p pr := rfl

theorem inv_init (f c : Fin NPROC) (maps : Finset (Fin NPROC)) : Inv f c (init c maps) := by
  constructor
  · intro p
    by_cases hp : p = c <;> simp [init, hp, Pc.decrementing]
  · intro p
    by_cases hp : p = c <;> simp [init, hp, Pc.forking, Pc.childMapped]
  · intro p
    by_cases hp : p = c <;> simp [init, hp]
  · by_cases hf : f = c <;> simp [init, hf, Pc.childMapped]
  · simp [init]
  · intro p
    by_cases hp : p = c <;> simp [init, hp, Pc.faulting]

/-- The parent is not the child while it forks. -/
theorem Inv.ne_child {p : Fin NPROC} (hI : Inv f c s) (hp : (s.procs p).pc.forking = true) :
    p = f ∧ c ≠ f ∧ s.forked = true ∧ (s.procs f).pte = true ∧ (s.procs c).pc = .unborn := by
  obtain ⟨rfl, hforked, hpte⟩ := hI.parent p hp
  have hc := hI.waits (Or.inl hp)
  refine ⟨rfl, ?_, hforked, hpte, hc⟩
  rintro rfl
  rw [hc] at hp
  cases hp

/-- A neutral move keeps the invariant, if the lock is accounted for. -/
theorem Inv.setProc {p : Fin NPROC} {pr : Proc} (hI : Inv f c s)
    (hprocs : t.procs = Function.update s.procs p pr) (hforked : t.forked = s.forked)
    (hlock : ∀ q, (t.procs q).pc.decrementing = true ↔ t.kmemLock = some q)
    (hn : Neutral (s.procs p) pr) : Inv f c t := by
  refine ⟨hlock, fun q hq => ?_, fun q => ?_, ?_, ?_, fun q => ?_⟩ <;> rw [hprocs] at *
  · rw [hforked]
    rcases eq_or_ne q p with rfl | hqp
    · rw [Function.update_self] at *
      obtain ⟨h1, h2, h3⟩ := hI.parent q (hn.forking_eq ▸ hq)
      exact ⟨h1, h2, by rw [hn.pte_eq hq, h3]⟩
    · rw [Function.update_of_ne hqp] at *
      exact hI.parent q hq
  · rcases eq_or_ne q p with rfl | hqp
    · rw [Function.update_self]
      exact fun h => absurd h hn.born'
    · rw [Function.update_of_ne hqp]
      exact hI.unborn q
  · rcases eq_or_ne c p with rfl | hc
    · rw [Function.update_self]
      exact fun h => absurd h hn.born'
    · rw [Function.update_of_ne hc]
      rcases eq_or_ne f p with rfl | hf
      · rw [Function.update_self, hn.childMapped_eq]
        exact hI.child
      · rw [Function.update_of_ne hf]
        exact hI.child
  · rw [hforked]
    have hwaits : (Function.update s.procs p pr f).pc.forking = (s.procs f).pc.forking := by
      rcases eq_or_ne f p with rfl | hf
      · rw [Function.update_self, hn.forking_eq]
      · rw [Function.update_of_ne hf]
    rw [hwaits]
    intro h
    rcases eq_or_ne c p with rfl | hc
    · exact absurd (hI.waits h) hn.born
    · rw [Function.update_of_ne hc]
      exact hI.waits h
  · rcases eq_or_ne q p with rfl | hqp
    · rw [Function.update_self]
      exact hn.faults
    · rw [Function.update_of_ne hqp]
      exact hI.faults q

/-- The lock is accounted for if the process does not enter or leave the decrement. -/
theorem Inv.lock_update {p : Fin NPROC} {pr : Proc} (hI : Inv f c s)
    (hd : pr.pc.decrementing = (s.procs p).pc.decrementing) (q : Fin NPROC) :
    (Function.update s.procs p pr q).pc.decrementing = true ↔ s.kmemLock = some q := by
  rcases eq_or_ne q p with rfl | hq
  · rw [Function.update_self, hd]
    exact hI.lock q
  · rw [Function.update_of_ne hq]
    exact hI.lock q

/-- A step that changes the parent and the child only. -/
theorem Inv.family (hI : Inv f c s) (hothers : ∀ q, q ≠ f → q ≠ c → t.procs q = s.procs q)
    (hlock : t.kmemLock = s.kmemLock)
    (hdf : (t.procs f).pc.decrementing = (s.procs f).pc.decrementing)
    (hdc : (t.procs c).pc.decrementing = (s.procs c).pc.decrementing)
    (hparent : (t.procs f).pc.forking = true → t.forked = true ∧ (t.procs f).pte = true)
    (hcfork : (t.procs c).pc.forking = true → c = f)
    (hborn : (t.procs f).pc ≠ .unborn)
    (hchild : (t.procs c).pc = .unborn → (t.procs c).pte = (t.procs f).pc.childMapped)
    (hwaits : (t.procs f).pc.forking = true ∨ t.forked = false → (t.procs c).pc = .unborn)
    (hffault : (t.procs f).pc.faulting = true → (t.procs f).pte = true)
    (hcfault : (t.procs c).pc.faulting = true → (t.procs c).pte = true) : Inv f c t := by
  refine ⟨fun q => ?_, fun q hq => ?_, fun q hq => ?_, hchild, hwaits, fun q hq => ?_⟩
  · rw [hlock, ← hI.lock q]
    by_cases hqf : q = f
    · rw [hqf, hdf]
    · by_cases hqc : q = c
      · rw [hqc, hdc]
      · rw [hothers q hqf hqc]
  · by_cases hqf : q = f
    · subst hqf
      exact ⟨rfl, hparent hq⟩
    · by_cases hqc : q = c
      · subst hqc
        exact absurd (hcfork hq) hqf
      · rw [hothers q hqf hqc] at hq
        exact absurd (hI.parent q hq).1 hqf
  · by_cases hqc : q = c
    · exact hqc
    · by_cases hqf : q = f
      · subst hqf
        exact absurd hq hborn
      · rw [hothers q hqf hqc] at hq
        exact hI.unborn q hq
  · by_cases hqf : q = f
    · subst hqf
      exact hffault hq
    · by_cases hqc : q = c
      · subst hqc
        exact hcfault hq
      · rw [hothers q hqf hqc] at hq ⊢
        exact hI.faults q hq

theorem inv_step (hI : Inv f c s) (hst : step f c s a = some t) : Inv f c t := by
  cases step_effect hI hst with
  | quiet rl fr hm =>
      exact hI.setProc rfl rfl (hI.lock_update (by rw [hm.unlocked, hm.unlocked'])) hm.toNeutral
  | fork hpc hpte hf =>
      have hc := hI.waits (Or.inr hf)
      have hchild := hI.child hc
      have hne : c ≠ f := by
        rintro rfl
        rw [hc] at hpc
        cases hpc
      apply hI.family <;> simp +contextual [Sys.goto, Sys.setProc, hne, hc, hpc, hpte, hchild,
        Pc.decrementing, Pc.forking, Pc.childMapped, Pc.faulting]
  | forkFail hpc =>
      obtain ⟨rfl, hne, hforked, hpte, hc⟩ := hI.ne_child (by rw [hpc]; rfl)
      have hchild := hI.child hc
      apply hI.family <;> simp +contextual [Sys.goto, Sys.setProc, hne, hc, hpc, hforked, hchild,
        Pc.decrementing, Pc.forking, Pc.childMapped, Pc.faulting]
  | mapChild hpc =>
      obtain ⟨rfl, hne, hforked, hpte, hc⟩ := hI.ne_child (by rw [hpc]; rfl)
      apply hI.family <;> simp +contextual [Sys.goto, Sys.setPte, Sys.setProc, hne, hne.symm, hc, hpc,
        hpte, hforked, Pc.decrementing, Pc.forking, Pc.childMapped, Pc.faulting]
  | addLoad hpc =>
      refine hI.setProc rfl rfl (hI.lock_update (by rw [hpc]; rfl)) ?_
      exact ⟨by rw [hpc]; rfl, by rw [hpc]; rfl, fun _ => rfl, by rw [hpc]; nofun, nofun, nofun⟩
  | addStore hpc =>
      refine hI.setProc rfl rfl (hI.lock_update (by rw [hpc]; rfl)) ?_
      exact ⟨by rw [hpc]; rfl, by rw [hpc]; rfl, fun _ => rfl, by rw [hpc]; nofun, nofun, nofun⟩
  | forkDone hpc =>
      obtain ⟨rfl, hne, hforked, hpte, hc⟩ := hI.ne_child (by rw [hpc]; rfl)
      apply hI.family <;> simp +contextual [Sys.goto, Sys.setProc, hne, hne.symm, hc, hpc,
        hforked, Pc.decrementing, Pc.forking, Pc.childMapped, Pc.faulting]
  | @acquire p k hpc hl =>
      refine hI.setProc rfl rfl (fun q => ?_) ?_
      · have hfree : (s.procs q).pc.decrementing ≠ true := by
          rw [ne_eq, hI.lock q, hl]
          nofun
        rcases eq_or_ne q p with rfl | hqp
        · simp [Sys.goto, Sys.setProc, Pc.decrementing]
        · simp [Sys.goto, Sys.setProc, hqp, hfree, hqp.symm]
      · exact ⟨by rw [hpc]; rfl, by rw [hpc]; rfl, fun _ => rfl, by rw [hpc]; nofun, nofun, nofun⟩
  | decLoad hpc =>
      refine hI.setProc rfl rfl (hI.lock_update (by rw [hpc]; rfl)) ?_
      exact ⟨by rw [hpc]; rfl, by rw [hpc]; rfl, fun _ => rfl, by rw [hpc]; nofun, nofun, nofun⟩
  | decStore zero hpc =>
      refine hI.setProc rfl rfl (hI.lock_update (by rw [hpc]; rfl)) ?_
      exact ⟨by rw [hpc]; rfl, by rw [hpc]; rfl, fun _ => rfl, by rw [hpc]; nofun, nofun, nofun⟩
  | @release p k zero hpc =>
      refine hI.setProc rfl rfl (fun q => ?_) ?_
      · have hp := (hI.lock p).mp (by rw [hpc]; rfl)
        rcases eq_or_ne q p with rfl | hqp
        · cases zero <;> simp [Sys.goto, Sys.setProc, Pc.decrementing]
        · have hq := (hI.lock q).not.mpr (by simp [hp, hqp.symm])
          simp [Sys.goto, Sys.setProc, hqp, hq]
      · cases zero <;>
          exact ⟨by rw [hpc]; rfl, by rw [hpc]; rfl, fun _ => rfl, by rw [hpc]; nofun, nofun, nofun⟩
  | unwound hpc =>
      obtain ⟨rfl, hne, hforked, hpte, hc⟩ := hI.ne_child (by rw [hpc]; rfl)
      apply hI.family <;> simp +contextual [Sys.goto, Sys.setPte, Sys.setProc, hne, hne.symm, hc, hpc,
        hforked, Pc.decrementing, Pc.forking, Pc.childMapped, Pc.faulting]

/-! ## Simulation by the counter -/

/-- The step is no store to `ref_count` between the load and the store of another process's update. -/
def Exclusive (s : Sys) (a : Act) : Prop :=
  (s.procs a.proc).pc.updating = true → ∀ q, q ≠ a.proc → (s.procs q).pc.updating = false

/-- The increment belongs to `f`, the decrement in flight to the holder of `kmem.lock`. -/
def abs (f : Fin NPROC) (s : Sys) : Counter.State where
  ref := s.ref.toNat
  refs := s.refs
  inc := (s.procs f).pc.phase.getD (if s.forked then .done else .before)
  dec := s.kmemLock.bind fun p => (s.procs p).pc.decLoaded

theorem sum_refs_update (g : Fin NPROC → Proc) (p : Fin NPROC) (pr : Proc) :
    ∑ q, (Function.update g p pr q).refs + (g p).refs = ∑ q, (g q).refs + pr.refs := by
  rw [← Finset.add_sum_erase _ _ (Finset.mem_univ p),
    ← Finset.add_sum_erase (a := p) _ _ (Finset.mem_univ p)]
  have hrest : ∑ q ∈ Finset.univ.erase p, (Function.update g p pr q).refs =
      ∑ q ∈ Finset.univ.erase p, (g q).refs :=
    Finset.sum_congr rfl fun q hq => by rw [Function.update_of_ne (Finset.ne_of_mem_erase hq)]
  rw [hrest, Function.update_self]
  omega

/-- The references after a step that changes one process. -/
theorem refs_setProc {p : Fin NPROC} {pr : Proc} (ht : t.procs = Function.update s.procs p pr) :
    t.refs + (s.procs p).refs = s.refs + pr.refs := by
  unfold Sys.refs
  rw [ht]
  exact sum_refs_update s.procs p pr

/-- The same for a move between two known program points. -/
theorem refs_goto {p : Fin NPROC} {k k' : Pc} (hpc : (s.procs p).pc = k)
    (ht : t.procs = Function.update s.procs p ⟨k', (s.procs p).pte⟩) :
    t.refs + Proc.refs ⟨k, (s.procs p).pte⟩ = s.refs + Proc.refs ⟨k', (s.procs p).pte⟩ := by
  subst hpc
  exact refs_setProc ht

theorem Inv.not_holder (hI : Inv f c s) {p : Fin NPROC} (hp : (s.procs p).pc.decrementing = false) :
    s.kmemLock ≠ some p := by
  intro hk
  rw [(hI.lock p).mpr hk] at hp
  cases hp

/-- The decrement in flight is untouched by a process that does not hold the lock. -/
theorem dec_update {g : Fin NPROC → Proc} {l : Option (Fin NPROC)} {p : Fin NPROC} {pr : Proc}
    (hp : l ≠ some p) :
    (l.bind fun q => (Function.update g p pr q).pc.decLoaded) = l.bind fun q => (g q).pc.decLoaded := by
  cases l with
  | none => rfl
  | some q =>
      have hq : q ≠ p := fun h => hp (by rw [h])
      simp [hq]

theorem inc_update {p : Fin NPROC} {pr : Proc} (h : pr.pc.phase = (s.procs p).pc.phase) :
    (Function.update s.procs p pr f).pc.phase = (s.procs f).pc.phase := by
  rcases eq_or_ne f p with rfl | hf
  · rw [Function.update_self, h]
  · rw [Function.update_of_ne hf]

theorem exclusive_of_idle (h : (s.procs a.proc).pc.updating = false) : Exclusive s a := by
  intro hu
  rw [h] at hu
  cases hu

/-- A step the counter does not see. -/
theorem sim_quiet (ht : abs f t = abs f s) (hidle : (s.procs a.proc).pc.updating = false) :
    ∃ b, Counter.step UInt32.size (abs f s) b = some (abs f t) ∧
      (Exclusive s a ↔ Counter.Exclusive (abs f s) b) :=
  ⟨.quiet, by rw [ht]; rfl, fun _ => trivial, fun _ => exclusive_of_idle hidle⟩

/-- The other updates in flight when `p` stores. -/
theorem Inv.updating_iff (hI : Inv f c s) {q : Fin NPROC} :
    (s.procs q).pc.updating = true ↔
      (q = f ∧ ∃ r, (s.procs q).pc = .addStore r) ∨
        (s.kmemLock = some q ∧ ∃ k r, (s.procs q).pc = .kfreeStore k r) := by
  constructor
  · intro h
    unfold Pc.updating at h
    split at h
    · rename_i r hq
      exact Or.inl ⟨(hI.parent q (by rw [hq]; rfl)).1, r, hq⟩
    · rename_i k r hq
      exact Or.inr ⟨(hI.lock q).mp (by rw [hq]; rfl), k, r, hq⟩
    · cases h
  · rintro (⟨_, r, hr⟩ | ⟨_, k, r, hr⟩) <;> rw [hr] <;> rfl

/-- A step that moves the parent and the child, with the same references between them. -/
theorem abs_family {p : Fin NPROC} {u v : Proc} (hI : Inv p c s) (hne : c ≠ p)
    (ht : t.procs = Function.update (Function.update s.procs c v) p u)
    (href : t.ref = s.ref) (hlock : t.kmemLock = s.kmemLock) (hforked : t.forked = s.forked)
    (hp : (s.procs p).pc.decrementing = false) (hc : (s.procs c).pc.decrementing = false)
    (hrefs : u.refs + v.refs = (s.procs p).refs + (s.procs c).refs)
    (hinc : u.pc.phase = (s.procs p).pc.phase) : abs p t = abs p s := by
  have h1 := sum_refs_update s.procs c v
  have h2 := sum_refs_update (Function.update s.procs c v) p u
  rw [Function.update_of_ne hne.symm] at h2
  simp only [abs, Counter.State.mk.injEq, ht, href, hlock, hforked, Function.update_self, hinc, true_and]
  refine ⟨?_, ?_⟩
  · unfold Sys.refs
    rw [ht]
    omega
  · rw [dec_update (hI.not_holder hp), dec_update (hI.not_holder hc)]

theorem addStore_of_loaded {r : Nat} (h : (abs f s).inc = .loaded r) :
    ∃ r', (s.procs f).pc = .addStore r' := by
  simp only [abs] at h
  unfold Pc.phase at h
  split at h
  · cases h
  · cases h
  · rename_i r' hr'
    exact ⟨r', hr'⟩
  · rw [Option.getD_none] at h
    split at h <;> cases h

theorem sim_addStore {p : Fin NPROC} {r : UInt32} (hI : Inv f c s) (hpc : (s.procs p).pc = .addStore r) :
    Counter.step UInt32.size (abs f s) .incStore =
        some (abs f ({ s with ref := r + 1 }.goto p .forkRest)) ∧
      (Exclusive s (.next p) ↔ Counter.Exclusive (abs f s) .incStore) := by
  obtain ⟨rfl, hne, hforked, hpte, hc⟩ := hI.ne_child (by rw [hpc]; rfl)
  have hinc : (abs p s).inc = .loaded r.toNat := by simp [abs, hpc, Pc.phase]
  constructor
  · have hrefs := refs_goto (t := { s with ref := r + 1 }.goto p .forkRest) hpc rfl
    simp only [Counter.step, hinc]
    simp only [abs, Option.some.injEq, Counter.State.mk.injEq]
    refine ⟨(UInt32.toNat_add r 1).symm, ?_, ?_, (dec_update (hI.not_holder (by rw [hpc]; rfl))).symm⟩
    · simp only [Proc.refs] at hrefs
      omega
    · simp [Sys.goto, Sys.setProc, Pc.phase, hforked]
  · -- another update in flight can only be the decrement of the lock holder
    constructor
    · intro hx
      show (abs p s).dec = none
      cases hk : s.kmemLock with
      | none => simp [abs, hk]
      | some q =>
          have hqp : q ≠ p := by
            rintro rfl
            exact hI.not_holder (by rw [hpc]; rfl) hk
          have hidle := hx (by rw [Act.proc, hpc]; rfl) q hqp
          have hload : (s.procs q).pc.decLoaded = none := by
            cases hq : (s.procs q).pc <;> first | rfl | (rw [hq] at hidle; cases hidle)
          simp [abs, hk, hload]
    · intro hdec _ q hqp
      rw [← Bool.not_eq_true, hI.updating_iff]
      rintro (⟨rfl, _⟩ | ⟨hk, k, r', hr'⟩)
      · exact hqp rfl
      · simp [Counter.Exclusive, abs, hk, hr', Pc.decLoaded] at hdec

theorem sim_decStore {p : Fin NPROC} {k : Cont} {r : UInt32} (hI : Inv f c s) (zero : Bool)
    (hpc : (s.procs p).pc = .kfreeStore k r) :
    Counter.step UInt32.size (abs f s) .decStore =
        some (abs f ({ s with ref := r - 1 }.goto p (.kfreeRelease k zero))) ∧
      (Exclusive s (.next p) ↔ Counter.Exclusive (abs f s) .decStore) := by
  have hl := (hI.lock p).mp (by rw [hpc]; rfl)
  have hdec : (abs f s).dec = some r.toNat := by simp [abs, hl, hpc, Pc.decLoaded]
  constructor
  · have hrefs := refs_goto (t := { s with ref := r - 1 }.goto p (.kfreeRelease k zero)) hpc rfl
    have hsucc : (abs f s).refs = ({ s with ref := r - 1 }.goto p (.kfreeRelease k zero)).refs + 1 := by
      simp only [Proc.refs] at hrefs
      show s.refs = _
      omega
    simp only [Counter.step, hdec, hsucc]
    simp only [abs, Option.some.injEq, Counter.State.mk.injEq, true_and]
    refine ⟨?_, ?_, ?_⟩
    · show (r.toNat + (UInt32.size - 1)) % UInt32.size = (r - 1).toNat
      rw [UInt32.toNat_sub, Nat.add_comm]
      rfl
    · rw [Sys.goto, setProc_procs, inc_update (by rw [hpc]; rfl)]
      rfl
    · simp [Sys.goto, Sys.setProc, hl, Pc.decLoaded]
  · constructor
    · intro hx r' hr'
      obtain ⟨r'', hf⟩ := addStore_of_loaded hr'
      have hfp : f ≠ p := by
        rintro rfl
        rw [hpc] at hf
        cases hf
      have hidle := hx (by rw [Act.proc, hpc]; rfl) f hfp
      rw [hf] at hidle
      cases hidle
    · intro hinc _ q hqp
      rw [← Bool.not_eq_true, hI.updating_iff]
      rintro (⟨rfl, r', hr'⟩ | ⟨hk, _⟩)
      · exact hinc r'.toNat (by simp [abs, hr', Pc.phase])
      · rw [hl] at hk
        exact hqp (Option.some.inj hk).symm

theorem sim_step (hI : Inv f c s) (hst : step f c s a = some t) :
    ∃ b, Counter.step UInt32.size (abs f s) b = some (abs f t) ∧
      (Exclusive s a ↔ Counter.Exclusive (abs f s) b) := by
  cases step_effect hI hst with
  | @quiet _ pr rl fr hm =>
      refine sim_quiet ?_ hm.idle
      have hrefs := refs_setProc (s := s) (t := { s with refLock := rl, freed := fr }.setProc a.proc pr) rfl
      rw [hm.refs_eq] at hrefs
      simp only [abs, Counter.State.mk.injEq]
      refine ⟨rfl, by omega, ?_, dec_update (hI.not_holder hm.unlocked)⟩
      rw [setProc_procs, inc_update hm.phase_eq]
      rfl
  | fork hpc hpte hf =>
      refine sim_quiet ?_ (by rw [Act.proc, hpc]; rfl)
      have hrefs := refs_goto (t := { s with forked := true }.goto f .forkMap) hpc rfl
      simp only [abs, Counter.State.mk.injEq]
      refine ⟨rfl, Nat.add_right_cancel hrefs, ?_, dec_update (hI.not_holder (by rw [hpc]; rfl))⟩
      simp [Sys.goto, hpc, hf, Pc.phase]
  | @forkFail p hpc =>
      obtain ⟨rfl, hne, hforked, hpte, hc⟩ := hI.ne_child (by rw [hpc]; rfl)
      refine ⟨.skip, ?_, fun _ => trivial, fun _ => exclusive_of_idle (by rw [Act.proc, hpc]; rfl)⟩
      have hrefs := refs_goto (t := s.goto p .user) hpc rfl
      have hinc : (abs p s).inc = .before := by simp [abs, hpc, Pc.phase]
      simp only [Counter.step, hinc, if_true]
      simp only [abs, Option.some.injEq, Counter.State.mk.injEq]
      refine ⟨rfl, (Nat.add_right_cancel hrefs).symm, ?_,
        (dec_update (hI.not_holder (by rw [hpc]; rfl))).symm⟩
      simp [Sys.goto, Sys.setProc, Pc.phase, hforked]
  | @mapChild p hpc =>
      obtain ⟨rfl, hne, hforked, hpte, hc⟩ := hI.ne_child (by rw [hpc]; rfl)
      refine sim_quiet (abs_family (u := ⟨.addLoad, (s.procs p).pte⟩)
        (v := ⟨(s.procs c).pc, true⟩) hI hne ?_ rfl rfl rfl
        (by rw [hpc]; rfl) (by rw [hc]; rfl) ?_ (by rw [hpc]; rfl)) (by rw [Act.proc, hpc]; rfl)
      · simp [Sys.goto, Sys.setPte, Sys.setProc, hne.symm]
      · simp [Proc.refs, hpc, hc]
  | @addLoad p hpc =>
      obtain ⟨rfl, hne, hforked, hpte, hc⟩ := hI.ne_child (by rw [hpc]; rfl)
      refine ⟨.incLoad, ?_, fun _ => trivial, fun _ => exclusive_of_idle (by rw [Act.proc, hpc]; rfl)⟩
      have hrefs := refs_goto (t := s.goto p (.addStore s.ref)) hpc rfl
      have hinc : (abs p s).inc = .before := by simp [abs, hpc, Pc.phase]
      simp only [Counter.step, hinc, if_true]
      simp only [abs, Option.some.injEq, Counter.State.mk.injEq]
      refine ⟨rfl, (Nat.add_right_cancel hrefs).symm, ?_,
        (dec_update (hI.not_holder (by rw [hpc]; rfl))).symm⟩
      simp [Sys.goto, Pc.phase]
  | addStore hpc => exact ⟨.incStore, sim_addStore hI hpc⟩
  | @forkDone p hpc =>
      obtain ⟨rfl, hne, hforked, hpte, hc⟩ := hI.ne_child (by rw [hpc]; rfl)
      refine sim_quiet (abs_family (u := ⟨.user, (s.procs p).pte⟩) (v := ⟨.user, (s.procs c).pte⟩) hI hne
        ?_ rfl rfl rfl (by rw [hpc]; rfl) (by rw [hc]; rfl) ?_ (by rw [hpc]; rfl)) (by rw [Act.proc, hpc]; rfl)
      · simp [Sys.goto, Sys.setProc, hne.symm]
      · -- the child now owns the reference the parent held for it
        have hchild := hI.child hc
        rw [hpc] at hchild
        simp [Proc.refs, hpc, hc, hchild, Pc.childMapped]
  | @acquire p k hpc hl =>
      refine sim_quiet ?_ (by rw [Act.proc, hpc]; rfl)
      have hrefs := refs_goto (t := { s with kmemLock := some p }.goto p (.kfreeLoad k)) hpc rfl
      simp only [abs, Counter.State.mk.injEq]
      refine ⟨rfl, Nat.add_right_cancel hrefs, ?_, ?_⟩
      · rw [Sys.goto, setProc_procs, inc_update (by rw [hpc]; rfl)]
        rfl
      · simp [Sys.goto, Sys.setProc, hl, Pc.decLoaded]
  | @decLoad p k hpc =>
      have hl := (hI.lock p).mp (by rw [hpc]; rfl)
      have hdec : (abs f s).dec = none := by simp [abs, hl, hpc, Pc.decLoaded]
      refine ⟨.decLoad, ?_, fun _ => trivial, fun _ => exclusive_of_idle (by rw [Act.proc, hpc]; rfl)⟩
      have hrefs := refs_goto (t := s.goto p (.kfreeStore k s.ref)) hpc rfl
      simp only [Counter.step, hdec, if_true]
      simp only [abs, Option.some.injEq, Counter.State.mk.injEq]
      refine ⟨rfl, (Nat.add_right_cancel hrefs).symm, ?_, ?_⟩
      · rw [Sys.goto, setProc_procs, inc_update (by rw [hpc]; rfl)]
        rfl
      · simp [Sys.goto, Sys.setProc, hl, Pc.decLoaded]
  | decStore zero hpc => exact ⟨.decStore, sim_decStore hI zero hpc⟩
  | @release p k zero hpc =>
      have hl := (hI.lock p).mp (by rw [hpc]; rfl)
      refine sim_quiet ?_ (by rw [Act.proc, hpc]; rfl)
      have hrefs := refs_goto
        (t := { s with kmemLock := none }.goto p (if zero then .kfreePush k else .kfreeDone k)) hpc rfl
      simp only [abs, Counter.State.mk.injEq]
      refine ⟨rfl, ?_, ?_, ?_⟩
      · cases zero <;> exact Nat.add_right_cancel hrefs
      · rw [Sys.goto, setProc_procs, inc_update (by rw [hpc]; cases zero <;> rfl)]
        rfl
      · simp [Sys.goto, Sys.setProc, hl, hpc, Pc.decLoaded]
  | @unwound p hpc =>
      obtain ⟨rfl, hne, hforked, hpte, hc⟩ := hI.ne_child (by rw [hpc]; rfl)
      refine sim_quiet (abs_family (u := ⟨.user, (s.procs p).pte⟩)
        (v := ⟨(s.procs c).pc, false⟩) hI hne ?_ rfl rfl rfl (by rw [hpc]; rfl) (by rw [hc]; rfl) ?_
        (by rw [hpc]; rfl)) (by rw [Act.proc, hpc]; rfl)
      · simp [Sys.goto, Sys.setPte, Sys.setProc, hne.symm]
      · simp [Proc.refs, Cont.rest, hpc, hc]

/-! ## The count at the end -/

theorem abs_init (f c : Fin NPROC) (maps : Finset (Fin NPROC)) :
    abs f (init c maps) = Counter.init (maps.erase c).card := by
  have hle : (maps.erase c).card ≤ NPROC := (Finset.card_le_univ _).trans (by simp)
  have hrefs : (init c maps).refs = (maps.erase c).card := by
    rw [Finset.card_eq_sum_ones, Sys.refs, ← Finset.sum_subset (Finset.subset_univ (maps.erase c))]
    · refine Finset.sum_congr rfl fun p hp => ?_
      obtain ⟨hpc, hpm⟩ := Finset.mem_erase.mp hp
      simp [init, hpc, hpm, Proc.refs]
    · intro p _ hp
      by_cases hpc : p = c
      · simp [init, hpc, Proc.refs]
      · have hpm : p ∉ maps := fun hm => hp (Finset.mem_erase.mpr ⟨hpc, hm⟩)
        simp [init, hpc, hpm, Proc.refs]
  have hinc : ((init c maps).procs f).pc.phase = none := by
    by_cases hf : f = c <;> simp [init, hf, Pc.phase]
  simp only [abs, Counter.init, hrefs, hinc, Counter.State.mk.injEq]
  refine ⟨?_, trivial, rfl, rfl⟩
  have hlt : (maps.erase c).card < UInt32.size := lt_of_le_of_lt hle (by decide)
  exact UInt32.toNat_ofNat_of_lt' hlt

/-- When every operation is over, the references are the PTEs. -/
theorem refs_eq_ptes (hI : Inv f c s) (hq : s.Quiescent) : s.refs = s.ptes := by
  refine Finset.sum_congr rfl fun p _ => ?_
  rcases hq p with hp | hp
  · rw [Proc.refs, hp]
  · -- an unborn child is not mapped once its parent is back in user space
    have hpc := hI.unborn p hp
    subst hpc
    have hpte := hI.child hp
    rw [Proc.refs, hp, hpte]
    rcases hq f with hf | hf <;> rw [hf] <;> rfl

/-- **When no update of `ref_count` is lost.** Let `uvmcopy` of one process run in any interleaving with
    releases of the page by any processes. Once all of them are over, `ref_count` is the number of PTEs that
    map the page if and only if no store to it fell between the load and the store of another update. -/
theorem ref_count_eq_ptes_iff {maps : Finset (Fin NPROC)} {acts : List Act}
    (h : Trace.run (step f c) (init c maps) acts = some s) (hq : s.Quiescent) :
    s.ref.toNat = s.ptes ↔ Trace.Along (step f c) Exclusive (init c maps) acts := by
  have hI : Inv f c s := Trace.run_invariant (inv_init f c maps) (fun _ _ _ hI hst => inv_step hI hst) h
  obtain ⟨bs, hbs, hiff⟩ := Trace.run_simulation (C := Exclusive) (D := Counter.Exclusive) (abs f)
    (fun _ _ _ hI hst => inv_step hI hst) (fun _ _ _ hI hst => sim_step hI hst) (inv_init f c maps) h
  rw [abs_init] at hbs hiff
  rw [hiff, ← refs_eq_ptes hI hq]
  have hidle : ∀ p, (s.procs p).pc.phase = none ∧ (s.procs p).pc.decLoaded = none := by
    intro p
    rcases hq p with hp | hp <;> rw [hp] <;> exact ⟨rfl, rfl⟩
  refine Counter.eq_refs_iff (B := NPROC) (by decide) ?_ hbs ?_ ?_
  · exact (Finset.card_le_univ _).trans (by simp)
  · intro r
    simp only [abs, (hidle f).1, Option.getD_none]
    split <;> nofun
  · cases hk : s.kmemLock <;> simp [abs, hk, hidle]

/-- Process 0 forks while process 2 releases the page: `kfree` runs between the load and the store of
    `add_kmem_ref`. -/
def lostDecrement : List Act :=
  [.call 0 .fork, .alloc 0 true, .next 0, .call 2 .unmap, .next 2, .next 2, .next 2, .next 2, .next 2,
    .next 0, .alloc 0 true]

/-- The page is mapped by processes 0 and 1 and has a count of 3. -/
theorem add_kmem_ref_loses_decrement :
    ∃ s, Trace.run (step 0 1) (init 1 {0, 2}) lostDecrement = some s ∧ s.Quiescent ∧
      s.ref.toNat = 3 ∧ s.ptes = 2 := by
  refine ⟨_, rfl, ?_, rfl, rfl⟩
  intro p
  fin_cases p <;> exact Or.inl rfl

/-- The same operations one after the other. -/
def forkThenUnmap : List Act :=
  [.call 0 .fork, .alloc 0 true, .next 0, .next 0, .alloc 0 true, .call 2 .unmap, .next 2, .next 2, .next 2,
    .next 2, .next 2]

theorem ref_count_eq_ptes_sequential :
    ∃ s, Trace.run (step 0 1) (init 1 {0, 2}) forkThenUnmap = some s ∧ s.ref.toNat = s.ptes ∧
      Trace.Along (step 0 1) Exclusive (init 1 {0, 2}) forkThenUnmap := by
  obtain ⟨s, hs, hq, heq⟩ : ∃ s, Trace.run (step 0 1) (init 1 {0, 2}) forkThenUnmap = some s ∧
      s.Quiescent ∧ s.ref.toNat = s.ptes := by
    refine ⟨_, rfl, fun p => ?_, rfl⟩
    fin_cases p <;> exact Or.inl rfl
  exact ⟨s, hs, heq, (ref_count_eq_ptes_iff hs hq).mp heq⟩

end Xv6.RefRace
