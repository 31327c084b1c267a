import KernelC.Multitask.Basic

/-!
# The calls under preemption

`task_stop`, `task_exit`, `task_is_alive` and `reap_zombies` once more, now one
statement after the other. What stands between a `cli()` and the next `sti()` is
one step; everywhere else the interrupt flag is set, and a timer tick may come
before each statement.

The interrupt flag is set in more places than it seems. `task_stop` and
`task_exit` start with `cli()`, but `reap_zombies_internal` ends in `sti()`, so
all that follows it in these two calls can be interrupted. `task_is_alive` calls
`cli()` again.

`Pc` says where a task stands, `stmt` is one statement. Each task has its own
`Pc`; the current task makes the steps, and the boot code counts as `init_task`.
`faults` collects what must not happen: a record that is freed a second time, a
walk that reads one that has been freed.

No task is created meanwhile: the run of the scheduler before says which tasks
there are.
-/

namespace KernelC.Multitask.Preempt

/-- What `task_stop` looks for: it refuses pid 0. -/
abbrev StopPid := { pid : Int // pid ≠ 0 }

/-- What comes after `reap_zombies_internal`. -/
inductive After
  | done
  | search (pid : StopPid)
  | exit (code : Int)
  | alive (pid : Int)

/-- What comes after `free_task_resources`. -/
inductive Rest
  | reap (nextZ : Nat) (k : After)
  | stop

/-- Which call ends the current task. -/
inductive Ending
  | exit | stop

/-- The next statement of a task. In `unlink_from_ring`, `own` says that a task
takes itself out. -/
inductive Pc
  | idle
  | reapStart (k : After)
  | reapLoop (z : Nat) (k : After)
  | reapUnlink (z nextZ : Nat) (k : After)
  | freeStack (t : Nat) (r : Rest)
  | freeUser (t : Nat) (r : Rest)
  | freeRecord (t : Nat) (r : Rest)
  | stopRing (pid : StopPid)
  | stopFirst (pid : StopPid)
  | stopTest (pid : StopPid) (it : Nat)
  | stopNext (pid : StopPid) (it : Nat)
  | stopCompare (pid : StopPid) (it : Nat)
  | stopFound (found : Nat)
  | unlinkStart (t : Nat) (own : Bool)
  | unlinkOne (t : Nat) (own : Bool)
  | unlinkPrev (t : Nat) (own : Bool)
  | unlinkFirst (t prev : Nat) (own : Bool)
  | unlinkTest (t prev it : Nat) (own : Bool)
  | unlinkSet (t prev it : Nat) (own : Bool)
  | unlinkTail (t prev it : Nat) (own : Bool)
  | unlinkNext (t it : Nat) (own : Bool)
  | unlinkCompare (t prev it : Nat) (own : Bool)
  | wait
  | exitCheck (code : Int)
  | exitCode (code : Int)
  | endState (e : Ending)
  | endZnext (e : Ending)
  | endQueue (e : Ending)
  | aliveWalk (pid : Int)

def After.pc : After → Pc
  | .done => .idle
  | .search pid => .stopRing pid
  | .exit code => .exitCheck code
  | .alive pid => .aliveWalk pid

def Rest.pc : Rest → Pc
  | .reap nextZ k => .reapLoop nextZ k
  | .stop => .reapStart .done

def Rest.fate : Rest → Fate
  | .reap .. => .reaped
  | .stop => .stopped

/-- `task_stop` takes the task it has found, or itself, out of the ring. -/
def unlinked (t : Nat) (own : Bool) : Pc := if own then .wait else .freeStack t .stop

def Ending.pc (s : Sched) : Ending → Pc
  | .exit => .idle
  | .stop => .unlinkStart s.current true

def Ending.fate : Ending → Fate
  | .exit => .exited
  | .stop => .selfStopped

/-! ## One statement -/

/-- The records that a walk reads and those that are freed, and the state after
the statement. -/
structure Effect where
  reads : List Nat
  frees : List Nat
  sched : Sched
  pc : Pc

/-- A statement that only moves on. -/
def goes (s : Sched) (reads : List Nat) (pc : Pc) : Effect := ⟨reads, [], s, pc⟩

/-- What `unlink_from_ring` reads. -/
def unlinkReads (s : Sched) (t : Nat) : List Nat :=
  if s.taskRing = 0 ∨ t = 0 then []
  else s.taskRing :: ringWalk s.next (fun a => a = t) (s.next s.taskRing) (2 ^ 64) (s.next s.taskRing)

/-- What the walk of `task_is_alive` reads. -/
def aliveReads (s : Sched) (pid : Int) : List Nat :=
  if s.taskRing = 0 then []
  else
    s.taskRing ::
      ringWalk s.next (fun a => (s.task a).pid = pid) (s.next s.taskRing) (2 ^ 64) (s.next s.taskRing)

/-- The call of `free_task_resources` is recorded. -/
def freeCall (s : Sched) (t : Nat) : Sched :=
  { s with freed := ⟨(s.task t).uid, decide (t = s.current)⟩ :: s.freed }

def freeStack (s : Sched) (t : Nat) : Sched :=
  let k := (s.task t).kstack
  { s with alloc := if k ≠ 0 then s.alloc.erase k else s.alloc }

def freeUser (s : Sched) (t : Nat) : Sched :=
  { s with task :=
      if (s.task t).userMem ≠ 0 then
        Function.update s.task t { s.task t with userMem := 0, userMemSize := 0 }
      else s.task }

def freeRecord (s : Sched) (t : Nat) (f : Fate) : Sched :=
  { s with
    alloc := s.alloc.erase t
    fate := Function.update s.fate (s.task t).uid f }

def stmt (s : Sched) : Pc → Option Effect
  | .idle => none
  -- cli(); z = zombie_list; zombie_list = NULL; sti();
  | .reapStart k => some ⟨[], [], { s with zombieList := 0 }, .reapLoop s.zombieList k⟩
  -- while (z) { next_z = z->znext;
  | .reapLoop z k =>
    if z = 0 then some (goes s [] k.pc) else some (goes s [z] (.reapUnlink z (s.znext z) k))
  -- cli(); unlink_from_ring(z); sti();
  | .reapUnlink z nextZ k =>
    (unlinkFromRing s z).map fun r => ⟨unlinkReads s z, [], r.1, .freeStack z (.reap nextZ k)⟩
  -- free_task_resources(t)
  | .freeStack t r =>
    if t = 0 ∨ t = initTask then some ⟨[], [], freeCall s t, r.pc⟩
    else some ⟨[], [], freeStack (freeCall s t) t, .freeUser t r⟩
  | .freeUser t r => some ⟨[], [], freeUser s t, .freeRecord t r⟩
  | .freeRecord t r => some ⟨[], [t], freeRecord s t r.fate, r.pc⟩
  -- if (!task_ring) { sti(); return -1; }
  | .stopRing pid => some (goes s [] (if s.taskRing = 0 then .idle else .stopFirst pid))
  -- it = task_ring->next;
  | .stopFirst pid => some (goes s [s.taskRing] (.stopTest pid (s.next s.taskRing)))
  -- do { if (it->pid == pid) { found = it; break; }
  | .stopTest pid it =>
    some (goes s [it] (if (s.task it).pid = pid then .stopFound it else .stopNext pid it))
  -- it = it->next;
  | .stopNext pid it => some (goes s [it] (.stopCompare pid (s.next it)))
  -- } while (it != task_ring->next);
  | .stopCompare pid it =>
    some (goes s [s.taskRing] (if it = s.next s.taskRing then .idle else .stopTest pid it))
  -- if (found == current)
  | .stopFound found =>
    some (goes s [] (if found = s.current then .endState .stop else .unlinkStart found false))
  -- unlink_from_ring(t) in task_stop
  | .unlinkStart t own =>
    some (goes s [] (if s.taskRing = 0 ∨ t = 0 then unlinked t own else .unlinkOne t own))
  -- if (task_ring->next == task_ring) ..; such a ring is init_task alone, so its writes are one step
  | .unlinkOne t own =>
    if s.next s.taskRing = s.taskRing then
      if s.taskRing = t ∧ initTask ≠ t then
        some ⟨[s.taskRing], [], { s with taskRing := initTask }.setNext initTask initTask,
          unlinked t own⟩
      else some (goes s [s.taskRing] (unlinked t own))
    else some (goes s [s.taskRing] (.unlinkPrev t own))
  -- prev = task_ring;
  | .unlinkPrev t own => some (goes s [] (.unlinkFirst t s.taskRing own))
  -- it = task_ring->next;
  | .unlinkFirst t prev own => some (goes s [s.taskRing] (.unlinkTest t prev (s.next s.taskRing) own))
  -- do { if (it == t) .. else prev = it;
  | .unlinkTest t prev it own =>
    some (goes s [] (if it = t then .unlinkSet t prev it own else .unlinkNext t it own))
  -- prev->next = it->next;
  | .unlinkSet t prev it own =>
    some ⟨[prev, it], [], s.setNext prev (s.next it), .unlinkTail t prev it own⟩
  -- if (task_ring == it) task_ring = prev; return 0;
  | .unlinkTail t prev it own =>
    some ⟨[], [], { s with taskRing := if s.taskRing = it then prev else s.taskRing },
      unlinked t own⟩
  -- it = it->next;
  | .unlinkNext t it own => some (goes s [it] (.unlinkCompare t it (s.next it) own))
  -- } while (it != task_ring->next);
  | .unlinkCompare t prev it own =>
    some (goes s [s.taskRing]
      (if it = s.next s.taskRing then unlinked t own else .unlinkTest t prev it own))
  -- for (;;) { sti(); hlt; }
  | .wait => some (goes s [] .wait)
  -- if (!current || current == &init_task) return;
  | .exitCheck code =>
    some (goes s [] (if s.current = 0 ∨ s.current = initTask then .idle else .exitCode code))
  -- current->exit_code = exit_code;
  | .exitCode code =>
    some ⟨[], [], s.modify s.current fun t => { t with exitCode := code }, .endState .exit⟩
  -- current->state = TASK_ZOMBIE;
  | .endState e =>
    some ⟨[], [], (s.modify s.current fun t => { t with state := .zombie }).setFate s.current e.fate,
      .endZnext e⟩
  -- add_to_zombie_list(current): t->znext = zombie_list;
  | .endZnext e =>
    if s.current = 0 then some (goes s [] (e.pc s))
    else some ⟨[], [], s.modify s.current fun t => { t with znext := s.zombieList }, .endQueue e⟩
  -- zombie_list = t;
  | .endQueue e => some ⟨[], [], { s with zombieList := s.current }, e.pc s⟩
  -- cli(); .. the walk; sti();
  | .aliveWalk pid => some (goes s (aliveReads s pid) .idle)

/-! ## Interleavings -/

inductive Call
  | taskStop (pid : Int)
  | taskExit (code : Int)
  | reapZombies
  | taskIsAlive (pid : Int)

/-- Where a call starts; some return at once. -/
def Call.entry : Call → Pc
  | .taskStop pid => if h : pid = 0 then .idle else .reapStart (.search ⟨pid, h⟩)
  | .taskExit code => .reapStart (.exit code)
  | .reapZombies => .reapStart .done
  | .taskIsAlive pid => if pid ≤ 0 then .idle else .reapStart (.alive pid)

inductive Fault
  | freedTwice (t : Nat)
  | readFreed (t : Nat)
deriving DecidableEq

structure Conf where
  sched : Sched
  pc : Nat → Pc
  faults : List Fault

/-- There is no record at `a` any more. -/
def gone (s : Sched) (a : Nat) : Bool := a ≠ initTask ∧ a ∉ s.alloc

def faultsOf (s : Sched) (e : Effect) : List Fault :=
  (e.frees.filter (gone s)).map .freedTwice ++ (e.reads.filter (gone s)).map .readFreed

/-- The effect of a statement of the running task. -/
def Conf.apply (c : Conf) (e : Effect) : Conf where
  sched := e.sched
  pc := Function.update c.pc c.sched.running e.pc
  faults := faultsOf c.sched e ++ c.faults

inductive Act
  | tick (regs : Nat)
  | call (o : Call)
  | advance

def step (c : Conf) : Act → Option Conf
  | .tick regs => (scheduleFromIsr c.sched regs).map fun r => { c with sched := r.1 }
  | .call o => some (c.apply (goes c.sched [] o.entry))
  | .advance => (stmt c.sched (c.pc c.sched.running)).map c.apply

/-- No task is inside a call. -/
def begin (s : Sched) : Conf := ⟨s, fun _ => .idle, []⟩

def Pc.isIdle : Pc → Bool
  | .idle => true
  | _ => false

/-- A call is made by a task that is in none and has not ended. -/
def Possible (c : Conf) : Act → Prop
  | .tick _ => True
  | .call _ => (c.pc c.sched.running).isIdle ∧ ¬ Ended c.sched
  | .advance => True

/-- `task_stop` between `it = task_ring->next` and the `sti()` after
`unlink_from_ring`. -/
def Pc.walking : Pc → Bool
  | .stopTest .. => true
  | .stopNext .. => true
  | .stopCompare .. => true
  | .stopFound _ => true
  | .endState .stop => true
  | .endZnext .stop => true
  | .endQueue .stop => true
  | .unlinkStart .. => true
  | .unlinkOne .. => true
  | .unlinkPrev .. => true
  | .unlinkFirst .. => true
  | .unlinkTest .. => true
  | .unlinkSet .. => true
  | .unlinkTail .. => true
  | .unlinkNext .. => true
  | .unlinkCompare .. => true
  | _ => false

/-- `task_stop` has found a zombie. -/
def Pc.zombieFound (s : Sched) : Pc → Bool
  | .stopFound found => (s.task found).state = .zombie
  | _ => false

/-- No tick comes while `task_stop` walks, and the task that it finds is no
zombie. -/
def Protected (c : Conf) : Act → Prop
  | .tick _ => (c.pc c.sched.running).walking = false
  | .call _ => True
  | .advance => (c.pc c.sched.running).zombieFound c.sched = false

end KernelC.Multitask.Preempt
