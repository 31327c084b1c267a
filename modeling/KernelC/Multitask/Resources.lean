import KernelC.Malloc.Kernel
import KernelC.Malloc.User
import KernelC.Multitask.Basic

/-!
# The scheduler and the two heaps

The functions of `multitask/multitask.c` that allocate and free, with the heaps
that they allocate from: `malloc` and `free` are those of `malloc/malloc.c`,
`user_free` that of `malloc/user_malloc.c`. What a function does to the lists
and to the task records is the scheduler's part, as before.

The records stay in `sched`. Of the memory of the heaps, a creation writes the
first frame, whose place it computes; every other write into a payload is a
client's, and it may happen at any time.

Four fields are not in the source but keep the books: `made` has the kernel
blocks that creations got from `malloc` and that were not freed since, `handed`
the user blocks that belong to a task and were not freed since, `blocks` the
three blocks of each serial number, and `released` the frees of
`free_task_resources`.
-/

namespace KernelC.Multitask

open Malloc (Region Client)
open Malloc.Kernel (KHeap)

/-- The places of the two heaps. The linker script puts `.bss`, which holds
`init_task`, before them. -/
structure HeapRegions where
  kernel : Region
  user : Region
  init_lt : initTask < kernel.lo

/-- What a task owns. -/
inductive Resource
  | record | stack | userMem
deriving DecidableEq

/-- The blocks of a task; its `user_mem` is NULL when `task_create` made it. -/
structure Blocks where
  record : Nat
  stack : Nat
  userMem : Nat

/-- A call of `free` or `user_free` by `free_task_resources`, and whether the
block was live then. -/
structure Release where
  uid : Nat
  what : Resource
  wasLive : Bool

structure World where
  sched : Sched
  kernel : Client KHeap
  user : Client Malloc.Heap
  made : Finset Nat
  handed : Finset Nat
  blocks : Nat → Blocks
  released : List Release

/-- The bytes of the first frame. -/
def frameBytes (entry kstackTop : Nat) : List UInt8 :=
  (List.range 22).flatMap fun i => bytesLE 8 (initialFrame entry kstackTop i)

/-- `stack_size`, or `KSTACK_SIZE` where it is 0. -/
def kstackSize (stackSize : Nat) : Nat := if stackSize = 0 then 8 * 1024 else stackSize

/-- Write the bytes `bs` into the kernel heap at `a`. -/
def writeKernel (c : Client KHeap) (a : Nat) (bs : List UInt8) : Client KHeap :=
  ⟨{ c.heap with mem := store c.heap.mem a bs }, c.live⟩

namespace World

variable (R : HeapRegions) (w : World)

/-- A `malloc` of a creation. -/
def malloc (n : Nat) : Option (World × Nat) :=
  (Malloc.Kernel.malloc R.kernel w.kernel.heap n).map fun r =>
    if r.2 = 0 then ({ w with kernel := ⟨r.1, w.kernel.live⟩ }, 0)
    else
      ({ w with
          kernel := ⟨r.1, insert r.2 w.kernel.live⟩
          made := insert r.2 w.made }, r.2)

def free (p : Nat) : World :=
  { w with
    kernel := ⟨Malloc.Kernel.free w.kernel.heap p, w.kernel.live.erase p⟩
    made := w.made.erase p }

def userFree (p : Nat) : World :=
  { w with
    user := ⟨Malloc.userFree w.user.heap p, w.user.live.erase p⟩
    handed := w.handed.erase p }

/-- Record that a block of the task `uid` is released now. -/
def note (uid : Nat) (what : Resource) (live : Bool) : World :=
  { w with released := ⟨uid, what, live⟩ :: w.released }

/-- The end of `task_create` and `utask_create`, with both blocks at hand. -/
def addTask (entry stackSize userMem userMemSize t kstack : Nat) : World × Int :=
  let r := Multitask.createTask w.sched entry stackSize userMem userMemSize t kstack
  let kstackTop := (kstack + kstackSize stackSize) % 2 ^ 64
  let sp := (prepareInitialStack w.sched.stack entry kstackTop).2
  ({ w with
      sched := r.1
      kernel := writeKernel w.kernel sp (frameBytes entry kstackTop)
      handed := if userMem = 0 then w.handed else insert userMem w.handed
      blocks := Function.update w.blocks (w.sched.created + 1) ⟨t, kstack, userMem⟩ }, r.2)

/-- The common body of `task_create` and `utask_create`; a record takes 72 bytes
(`sizeof(task_t)`). -/
def createTask (entry stackSize userMem userMemSize : Nat) : Option (World × Int) :=
  (w.malloc R 72).bind fun r =>
    let t := r.2
    if t = 0 then some (r.1, 0)
    else
      (r.1.malloc R (kstackSize stackSize)).map fun r =>
        let kstack := r.2
        if kstack = 0 then (r.1.free t, 0)
        else r.1.addTask entry stackSize userMem userMemSize t kstack

def taskCreate (entry stackSize : Nat) : Option World :=
  (w.createTask R entry stackSize 0 0).map Prod.fst

def utaskCreate (entry stackSize userMem userMemSize : Nat) : Option (World × Int) :=
  w.createTask R entry stackSize userMem userMemSize

/-- The frees of `free_task_resources`, for a task with the record `r` at `t`. -/
def freeBlocks (r : Task) (t : Nat) : World :=
  let w :=
    if r.kstack ≠ 0 then (w.note r.uid .stack (r.kstack ∈ w.kernel.live)).free r.kstack else w
  let w :=
    if r.userMem ≠ 0 then (w.note r.uid .userMem (r.userMem ∈ w.user.live)).userFree r.userMem
    else w
  (w.note r.uid .record (t ∈ w.kernel.live)).free t

def freeTaskResources (t : Nat) (f : Fate) : World :=
  let v := if t = 0 ∨ t = initTask then w else w.freeBlocks (w.sched.task t) t
  { v with sched := Multitask.freeTaskResources w.sched t f }

/-- The loop of `reap_zombies_internal`, from the zombie `z` on. -/
def reapLoop : Nat → World → Nat → Option World
  | 0, _, _ => none
  | k + 1, w, z =>
    if z = 0 then some w
    else
      let nextZ := w.sched.znext z
      (unlinkFromRing w.sched z).bind fun r =>
        reapLoop k (freeTaskResources { w with sched := r.1 } z .reaped) nextZ

def reapZombiesInternal : Option World :=
  reapLoop (2 ^ 64) { w with sched := { w.sched with zombieList := 0 } } w.sched.zombieList

def reapZombies : Option World := w.reapZombiesInternal

def stopOther (found : Nat) : Option World :=
  (unlinkFromRing w.sched found).bind fun r =>
    (freeTaskResources { w with sched := r.1 } found .stopped).reapZombiesInternal

def taskStop (pid : Int) : Option (World × Option Int) :=
  if pid = 0 then some (w, some (-1))
  else
    w.reapZombiesInternal.bind fun w =>
      if w.sched.taskRing = 0 then some (w, some (-1))
      else
        (findPid w.sched pid).bind fun found =>
          match found with
          | none => some (w, some (-1))
          | some a =>
            if a = w.sched.current then
              (stopSelf w.sched).map fun s => ({ w with sched := s }, none)
            else (w.stopOther a).map fun w => (w, some 0)

def taskExit (exitCode : Int) : Option World :=
  w.reapZombiesInternal.map fun w =>
    if w.sched.current = 0 ∨ w.sched.current = initTask then w
    else
      { w with
        sched := endCurrent w.sched
          (fun t => { t with exitCode := exitCode, state := .zombie }) .exited }

def taskIsAlive (pid : Int) : Option (World × Int) :=
  if pid ≤ 0 then some (w, if pid = 0 then 1 else 0)
  else
    w.reapZombiesInternal.bind fun w =>
      if w.sched.taskRing = 0 then some (w, 0)
      else
        (findPid w.sched pid).map fun found =>
          match found with
          | none => (w, 0)
          | some a => (w, if (w.sched.task a).state ≠ .zombie then 1 else 0)

end World

/-! ## Runs -/

/-- A call of the scheduler, a tick, or a call of another client of one of the
heaps. -/
inductive Call
  | taskCreate (entry stackSize : Nat)
  | utaskCreate (entry stackSize userMem userMemSize : Nat)
  | tick (regs : Nat)
  | taskStop (pid : Int)
  | taskExit (exitCode : Int)
  | reapZombies
  | taskIsAlive (pid : Int)
  | kernelHeap (o : Malloc.Op)
  | userHeap (o : Malloc.Op)

/-- The first frame fits into a stack of `n` bytes at `k`: 22 quadwords lie between its
start and the last multiple of 16 in reach, and `align_up(n)` does not wrap. -/
def StackFits (k n : Nat) : Prop := k + 176 ≤ (k + n) / 16 * 16 ∧ n ≤ 2 ^ 64 - 8

/-- For a stack that `malloc` has aligned. -/
theorem stackFits_iff {k n : Nat} (hk : k % 8 = 0) :
    StackFits k n ↔ 176 + k % 16 ≤ n ∧ n ≤ 2 ^ 64 - 8 := by
  unfold StackFits
  omega

theorem stackFits_of_large {k n : Nat} (h : 192 ≤ n ∧ n ≤ 2 ^ 64 - 8) : StackFits k n := by
  unfold StackFits
  omega

/-- The stack of a creation, if it gets one, has room for the first frame. The callers in
the source pass 0 and 16384. -/
def FrameFits (R : HeapRegions) (w : World) (stackSize : Nat) : Prop :=
  ∀ r ∈ w.malloc R 72, r.2 ≠ 0 →
    ∀ q ∈ r.1.malloc R (kstackSize stackSize), q.2 ≠ 0 → StackFits q.2 (kstackSize stackSize)

theorem frameFits_of_large (R : HeapRegions) (w : World) {stackSize : Nat}
    (h : 192 ≤ kstackSize stackSize ∧ kstackSize stackSize ≤ 2 ^ 64 - 8) :
    FrameFits R w stackSize :=
  fun _ _ _ _ _ _ => stackFits_of_large h

/-- `heap_expand` does not succeed in the two mallocs of a creation. -/
def NoGrowth (R : HeapRegions) (w : World) (stackSize : Nat) : Prop :=
  Malloc.Kernel.NoExpand R.kernel w.kernel (.malloc 72) ∧
  ∀ r ∈ w.malloc R 72, r.2 ≠ 0 →
    Malloc.Kernel.NoExpand R.kernel r.1.kernel (.malloc (kstackSize stackSize))

/-- A client does not free or move the blocks in `S`. -/
def Spares (S : Finset Nat) : Malloc.Op → Prop
  | .malloc _ => True
  | .free p => p ∉ S
  | .realloc p _ => p ∉ S
  | .write _ _ _ => True

namespace World

def step (R : HeapRegions) (w : World) : Call → Option World
  | .taskCreate entry size => w.taskCreate R entry size
  | .utaskCreate entry size mem memSize => (w.utaskCreate R entry size mem memSize).map Prod.fst
  | .tick regs => (scheduleFromIsr w.sched regs).map fun r => { w with sched := r.1 }
  | .taskStop pid => (w.taskStop pid).map Prod.fst
  | .taskExit code => w.taskExit code
  | .reapZombies => w.reapZombies
  | .taskIsAlive pid => (w.taskIsAlive pid).map Prod.fst
  | .kernelHeap o => ((Malloc.Kernel.kernel R.kernel).step w.kernel o).map fun c =>
      { w with kernel := c }
  | .userHeap o => ((Malloc.user R.user).step w.user o).map fun c => { w with user := c }

/-- The system as `kmain` leaves it before the first task is created, over any
contents of the memory. -/
def start (R : HeapRegions) (task : Nat → Task) (stack : Nat → Nat) (mk mu : Mem) : World :=
  { sched := Multitask.start task stack
    kernel := Malloc.Kernel.kernelStart R.kernel mk
    user := Malloc.userStart R.user mu
    made := ∅
    handed := ∅
    blocks := fun _ => ⟨0, 0, 0⟩
    released := [] }

/-- The calls that are made: a task that has exited or stopped itself makes no
call of the scheduler, `user_mem` is a live user block that no task has yet, and
the clients of the heaps leave the blocks of the tasks alone. -/
def Permitted (R : HeapRegions) (w : World) : Call → Prop
  | .taskCreate _ size => ¬ Ended w.sched ∧ FrameFits R w size ∧ NoGrowth R w size
  | .utaskCreate _ size mem _ =>
    ¬ Ended w.sched ∧ FrameFits R w size ∧ NoGrowth R w size ∧ mem ∈ w.user.live ∧ mem ∉ w.handed
  | .tick _ => True
  | .taskStop _ => ¬ Ended w.sched
  | .taskExit _ => ¬ Ended w.sched
  | .reapZombies => ¬ Ended w.sched
  | .taskIsAlive _ => ¬ Ended w.sched
  | .kernelHeap o =>
    (Malloc.Kernel.kernel R.kernel).Permitted w.kernel o ∧
      Malloc.Kernel.NoExpand R.kernel w.kernel o ∧ Spares w.made o
  | .userHeap o => (Malloc.user R.user).Permitted w.user o ∧ Spares w.handed o

end World

end KernelC.Multitask
