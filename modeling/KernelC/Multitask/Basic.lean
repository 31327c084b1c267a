import KernelC.Lib.Ring
import KernelC.Lib.Run
import KernelC.Lib.WordStack
import Mathlib.Algebra.Group.Nat.Defs
import Mathlib.Algebra.Ring.Int.Defs
import Mathlib.Data.Finset.Basic

/-!
# The scheduler: `multitask/multitask.c`

Task records live at addresses; NULL is 0. The two mallocs of a creation are
the environment's: their results are arguments of the call, and the state keeps
the blocks that are live in `alloc`. Distinct blocks do not overlap, so a task
record is one entry of the function `task`, and the stacks are a memory of their
own. A first frame that leaves its stack damages no record here. In the code it
does (`small_stack_header`): a stack needs at least 184 bytes, and the callers
pass 0, for 8192, and 16384.

Each function is the whole call, run without interruption. A loop over a list
gets a bound on its rounds; `none` stands for a loop that does not end.

Some fields are not in the source but record what happened: a task's serial
number `uid` (addresses and, after 2^32 creations, pids are used again), the
`fate` of each serial number, and the calls of `free_task_resources`.
-/

namespace KernelC.Multitask

inductive TaskState
  | running | ready | blocked | zombie
deriving DecidableEq

structure Task where
  pid : Int
  state : TaskState
  regs : Nat
  kstack : Nat
  kstackSize : Nat
  exitCode : Int
  next : Nat
  znext : Nat
  userMem : Nat
  userMemSize : Nat
  uid : Nat

/-- What has become of a task. -/
inductive Fate
  | absent | live | exited | selfStopped | stopped | reaped
deriving DecidableEq

/-- A call of `free_task_resources`: the task, and whether it was the current
one. -/
structure FreeCall where
  uid : Nat
  wasCurrent : Bool
deriving DecidableEq

structure Sched where
  task : Nat → Task
  stack : Nat → Nat
  taskRing : Nat
  current : Nat
  nextPid : Int
  zombieList : Nat
  syscallKstackTop : Nat
  alloc : Finset Nat
  created : Nat
  fate : Nat → Fate
  freed : List FreeCall

/-- The address of the static `init_task`; the code only compares it. -/
def initTask : Nat := 0x110000

/-- The address of `init_task_stack`, of 16 KiB. -/
def initTaskStack : Nat := 0x111000

/-- The value that an `int` keeps of `x`. -/
def int32 (x : Int) : Int := (x + 2 ^ 31) % 2 ^ 32 - 2 ^ 31

namespace Sched

variable (s : Sched)

def next (a : Nat) : Nat := (s.task a).next

def znext (a : Nat) : Nat := (s.task a).znext

/-- Change the record at `a`. -/
def modify (a : Nat) (f : Task → Task) : Sched :=
  { s with task := Function.update s.task a (f (s.task a)) }

/-- `a->next = v`. -/
def setNext (a v : Nat) : Sched := s.modify a fun t => { t with next := v }

/-- The task that runs; the boot code becomes `init_task` at the first tick. -/
def running : Nat := if s.current = 0 then initTask else s.current

/-- Record what has become of the task at `a`. -/
def setFate (a : Nat) (f : Fate) : Sched :=
  { s with fate := Function.update s.fate (s.task a).uid f }

end Sched

/-- The 22 quadwords of the first frame of a task. -/
def initialFrame (entry kstackTop : Nat) : Nat → Nat
  | 0 => 32
  | 17 => entry
  | 18 => 0x08
  | 19 => 0x202
  | 20 => kstackTop
  | 21 => 0x10
  | _ => 0

/-- Returns the stack memory, by quadwords, and the stack pointer. -/
def prepareInitialStack (stack : Nat → Nat) (entry kstackTop : Nat) : (Nat → Nat) × Nat :=
  let sp := (kstackTop / 16 * 16 + (2 ^ 64 - 22 * 8)) % 2 ^ 64
  (storeFrame stack sp (initialFrame entry kstackTop) 22, sp)

def schedulerInit (s : Sched) : Sched :=
  { s with
    task := Function.update s.task initTask
      { pid := 0, state := .running, regs := 0, kstack := 0, kstackSize := 0, exitCode := 0,
        next := initTask, znext := 0, userMem := 0, userMemSize := 0, uid := 0 }
    taskRing := initTask
    current := 0
    nextPid := 1 }

/-- Put the task at `t` into the ring as the new tail. -/
def insertTail (s : Sched) (t : Nat) : Sched :=
  if s.taskRing = 0 then { s.setNext t t with taskRing := t }
  else
    let s := s.setNext t (s.next s.taskRing)
    let s := s.setNext s.taskRing t
    { s with taskRing := t }

/-- The common body of `task_create` and `utask_create`, where `t` and `kstack`
are what the two mallocs returned. Returns the pid, or 0. -/
def createTask (s : Sched) (entry stackSize userMem userMemSize t kstack : Nat) : Sched × Int :=
  let stackSize := if stackSize = 0 then 8 * 1024 else stackSize
  if t = 0 then (s, 0)
  else if kstack = 0 then (s, 0)
  else
    let kstackTop := (kstack + stackSize) % 2 ^ 64
    let frame := prepareInitialStack s.stack entry kstackTop
    let uid := s.created + 1
    let s' := { s with
      task := Function.update s.task t
        { pid := s.nextPid, state := .ready, regs := frame.2, kstack := kstack,
          kstackSize := stackSize, exitCode := 0, next := 0, znext := 0, userMem := userMem,
          userMemSize := userMemSize, uid := uid }
      stack := frame.1
      nextPid := int32 (s.nextPid + 1)
      alloc := insert kstack (insert t s.alloc)
      created := uid
      fate := Function.update s.fate uid .live }
    (insertTail s' t, s.nextPid)

def taskCreate (s : Sched) (entry stackSize t kstack : Nat) : Sched :=
  (createTask s entry stackSize 0 0 t kstack).1

def utaskCreate (s : Sched) (entry stackSize userMem userMemSize t kstack : Nat) : Sched × Int :=
  createTask s entry stackSize userMem userMemSize t kstack

def TaskState.canRun (st : TaskState) : Bool := st = .ready ∨ st = .running

def runnable (s : Sched) (a : Nat) : Bool := (s.task a).state.canRun

/-- The next task to run; the inner `none` is NULL. -/
def pickNext (s : Sched) : Option (Option Nat) :=
  if s.taskRing = 0 then some none
  else
    let start := if s.current ≠ 0 then s.next s.current else s.next s.taskRing
    ringFind s.next (runnable s) start (2 ^ 64) start

/-- Make `a` the task whose stack `syscall` uses. -/
def useKstack (s : Sched) (a : Nat) : Sched :=
  { s with syscallKstackTop := ((s.task a).kstack + (s.task a).kstackSize) % 2 ^ 64 }

/-- The first part of `schedule_from_isr`: save the interrupted task. -/
def saveCurrent (s : Sched) (regs : Nat) : Sched :=
  if s.current = 0 then
    let s := s.modify initTask fun t =>
      { t with kstack := initTaskStack, kstackSize := 16 * 1024, regs := regs, state := .running }
    useKstack { s with current := initTask } initTask
  else
    s.modify s.current fun t =>
      { t with regs := regs, state := if t.state = .running then .ready else t.state }

/-- A timer tick; returns the frame to restore. -/
def scheduleFromIsr (s : Sched) (regs : Nat) : Option (Sched × Nat) :=
  let s := saveCurrent s regs
  (pickNext s).map fun picked =>
    match picked with
    | none => (s, regs)
    | some n =>
      if n = s.current then
        let out := (s.task s.current).regs
        (useKstack (s.modify s.current fun t => { t with state := .running }) s.current, out)
      else
        let s := { s with current := n }
        let s := s.modify n fun t => { t with state := .running }
        (useKstack s n, (s.task n).regs)

def addToZombieList (s : Sched) (t : Nat) : Sched :=
  if t = 0 then s
  else { s.modify t (fun r => { r with znext := s.zombieList }) with zombieList := t }

/-- Take `t` out of the ring, where `prev` is the task before it. -/
def unlinkAfter (s : Sched) (t prev : Nat) : Sched :=
  { s.setNext prev (s.next t) with taskRing := if s.taskRing = t then prev else s.taskRing }

/-- Returns 0, or -1 when `t` is not taken out. -/
def unlinkFromRing (s : Sched) (t : Nat) : Option (Sched × Int) :=
  if s.taskRing = 0 ∨ t = 0 then some (s, -1)
  else if s.next s.taskRing = s.taskRing then
    if s.taskRing = t then
      if initTask = t then some (s, -1)
      else
        some ({ s with taskRing := initTask }.setNext initTask initTask, 0)
    else some (s, -1)
  else
    let start := s.next s.taskRing
    (ringPrev s.next t start (2 ^ 64) s.taskRing start).map fun found =>
      match found with
      | none => (s, -1)
      | some prev => (unlinkAfter s t prev, 0)

/-- `f` is what becomes of the task; the heap blocks it frees are its stack and
its record. -/
def freeTaskResources (s : Sched) (t : Nat) (f : Fate) : Sched :=
  let r := s.task t
  let s := { s with freed := ⟨r.uid, decide (t = s.current)⟩ :: s.freed }
  if t = 0 ∨ t = initTask then s
  else
    { s with
      task :=
        if r.userMem ≠ 0 then Function.update s.task t { r with userMem := 0, userMemSize := 0 }
        else s.task
      alloc := (if r.kstack ≠ 0 then s.alloc.erase r.kstack else s.alloc).erase t
      fate := Function.update s.fate r.uid f }

/-- The loop of `reap_zombies_internal`, from the zombie `z` on. -/
def reapLoop : Nat → Sched → Nat → Option Sched
  | 0, _, _ => none
  | k + 1, s, z =>
    if z = 0 then some s
    else
      let nextZ := s.znext z
      (unlinkFromRing s z).bind fun r => reapLoop k (freeTaskResources r.1 z .reaped) nextZ

def reapZombiesInternal (s : Sched) : Option Sched :=
  reapLoop (2 ^ 64) { s with zombieList := 0 } s.zombieList

def reapZombies (s : Sched) : Option Sched := reapZombiesInternal s

/-- The search of `task_stop` and `task_is_alive`. -/
def findPid (s : Sched) (pid : Int) : Option (Option Nat) :=
  let start := s.next s.taskRing
  ringFind s.next (fun a => (s.task a).pid = pid) start (2 ^ 64) start

/-- The current task changes by `g`, which makes it a zombie, and is queued. -/
def endCurrent (s : Sched) (g : Task → Task) (f : Fate) : Sched :=
  addToZombieList ((s.modify s.current g).setFate s.current f) s.current

/-- What `task_stop` does with the current task before it waits for the tick. -/
def stopSelf (s : Sched) : Option Sched :=
  let s := endCurrent s (fun t => { t with state := .zombie }) .selfStopped
  (unlinkFromRing s s.current).map fun r => r.1

def stopOther (s : Sched) (found : Nat) : Option Sched :=
  (unlinkFromRing s found).bind fun r =>
    reapZombiesInternal (freeTaskResources r.1 found .stopped)

/-- Returns the result, or `none` where the call does not come back: a task that
stops itself waits in `hlt` for the tick that switches away from it. -/
def taskStop (s : Sched) (pid : Int) : Option (Sched × Option Int) :=
  if pid = 0 then some (s, some (-1))
  else
    (reapZombiesInternal s).bind fun s =>
      if s.taskRing = 0 then some (s, some (-1))
      else
        (findPid s pid).bind fun found =>
          match found with
          | none => some (s, some (-1))
          | some a =>
            if a = s.current then (stopSelf s).map fun s => (s, none)
            else (stopOther s a).map fun s => (s, some 0)

def taskExit (s : Sched) (exitCode : Int) : Option Sched :=
  (reapZombiesInternal s).map fun s =>
    if s.current = 0 ∨ s.current = initTask then s
    else endCurrent s (fun t => { t with exitCode := exitCode, state := .zombie }) .exited

def taskIsAlive (s : Sched) (pid : Int) : Option (Sched × Int) :=
  if pid ≤ 0 then some (s, if pid = 0 then 1 else 0)
  else
    (reapZombiesInternal s).bind fun s =>
      if s.taskRing = 0 then some (s, 0)
      else
        (findPid s pid).map fun found =>
          match found with
          | none => (s, 0)
          | some a => (s, if (s.task a).state ≠ .zombie then 1 else 0)

/-! ## Runs -/

inductive Op
  | taskCreate (entry stackSize t kstack : Nat)
  | utaskCreate (entry stackSize userMem userMemSize t kstack : Nat)
  | tick (regs : Nat)
  | taskStop (pid : Int)
  | taskExit (exitCode : Int)
  | reapZombies
  | taskIsAlive (pid : Int)

def step (s : Sched) : Op → Option Sched
  | .taskCreate entry size t kstack => some (taskCreate s entry size t kstack)
  | .utaskCreate entry size mem memSize t kstack =>
    some (utaskCreate s entry size mem memSize t kstack).1
  | .tick regs => (scheduleFromIsr s regs).map Prod.fst
  | .taskStop pid => (taskStop s pid).map Prod.fst
  | .taskExit code => taskExit s code
  | .reapZombies => reapZombies s
  | .taskIsAlive pid => (taskIsAlive s pid).map Prod.fst

/-- The scheduler as `scheduler_init` leaves it, over any contents of the
memory. -/
def start (task : Nat → Task) (stack : Nat → Nat) : Sched :=
  schedulerInit
    { task := task, stack := stack, taskRing := 0, current := 0, nextPid := 1, zombieList := 0,
      syscallKstackTop := 0, alloc := ∅, created := 0,
      fate := fun u => if u = 0 then .live else .absent, freed := [] }

/-- The allocator returns NULL or blocks that are not in use. -/
def Fresh (s : Sched) (t kstack : Nat) : Prop :=
  (t ≠ 0 → t ∉ s.alloc ∧ t ≠ initTask ∧ t < 2 ^ 64) ∧
  (kstack ≠ 0 → kstack ∉ s.alloc ∧ kstack ≠ t ∧ kstack < 2 ^ 64)

/-- The current task has ended: it called `task_exit` or stopped itself. -/
def Ended (s : Sched) : Prop := s.current ≠ 0 ∧ (s.task s.current).state = .zombie

end KernelC.Multitask
