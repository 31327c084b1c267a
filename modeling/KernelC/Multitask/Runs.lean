import KernelC.Multitask.Ending
import KernelC.Multitask.Creation
import KernelC.Multitask.Ticks

/-!
# Runs of the scheduler

A run starts where `scheduler_init` leaves the scheduler; the current task (at
first the boot code, while `current` is NULL) makes the calls, and the timer
ticks between them.

* `ring_and_zombie_list`: what the two lists hold in every state reached, when
  a task makes no call after its own end.
* `running_task_never_freed`: the same runs free no task twice and never the
  current one. A task that has called `task_exit` and still runs must not reap:
  `reap_zombies` then frees the running task (`running_task_freed`).
-/

namespace KernelC.Multitask

variable {s s' : Sched}

/-! ## The calls that are made -/

def Op.isTick : Op → Bool
  | .tick _ => true
  | _ => false

/-- The call reaps the zombie list. -/
def Op.Reaps : Op → Prop
  | .taskCreate .. => False
  | .utaskCreate .. => False
  | .tick _ => False
  | .taskStop pid => pid ≠ 0
  | .taskExit _ => True
  | .reapZombies => True
  | .taskIsAlive pid => 0 < pid

/-- The blocks of a new task are fresh. -/
def Supplied (s : Sched) : Op → Prop
  | .taskCreate _ _ t kstack => Fresh s t kstack
  | .utaskCreate _ _ _ _ t kstack => Fresh s t kstack
  | _ => True

/-- A task that has exited or stopped itself makes no call. -/
def Permitted (s : Sched) (o : Op) : Prop :=
  Supplied s o ∧ (o.isTick = false → ¬ Ended s)

/-- The current task has stopped itself: it waits in `hlt` and never comes back. -/
def Waiting (s : Sched) : Prop :=
  s.current ≠ 0 ∧ s.fate (s.task s.current).uid = .selfStopped

/-- A task that has exited may still make calls. -/
def Possible (s : Sched) (o : Op) : Prop :=
  Supplied s o ∧ (o.isTick = false → ¬ Waiting s)

instance (o : Op) : Decidable o.Reaps :=
  match o with
  | .taskCreate .. => inferInstanceAs (Decidable False)
  | .utaskCreate .. => inferInstanceAs (Decidable False)
  | .tick _ => inferInstanceAs (Decidable False)
  | .taskStop pid => inferInstanceAs (Decidable (pid ≠ 0))
  | .taskExit _ => inferInstanceAs (Decidable True)
  | .reapZombies => inferInstanceAs (Decidable True)
  | .taskIsAlive pid => inferInstanceAs (Decidable (0 < pid))

instance (s : Sched) (t kstack : Nat) : Decidable (Fresh s t kstack) :=
  inferInstanceAs (Decidable (_ ∧ _))

instance (s : Sched) (o : Op) : Decidable (Supplied s o) :=
  match o with
  | .taskCreate _ _ t kstack => inferInstanceAs (Decidable (Fresh s t kstack))
  | .utaskCreate _ _ _ _ t kstack => inferInstanceAs (Decidable (Fresh s t kstack))
  | .tick _ => inferInstanceAs (Decidable True)
  | .taskStop _ => inferInstanceAs (Decidable True)
  | .taskExit _ => inferInstanceAs (Decidable True)
  | .reapZombies => inferInstanceAs (Decidable True)
  | .taskIsAlive _ => inferInstanceAs (Decidable True)

instance (s : Sched) : Decidable (Ended s) := inferInstanceAs (Decidable (_ ∧ _))

instance (s : Sched) : Decidable (Waiting s) := inferInstanceAs (Decidable (_ ∧ _))

instance (s : Sched) (o : Op) : Decidable (Permitted s o) := inferInstanceAs (Decidable (_ ∧ _))

instance (s : Sched) (o : Op) : Decidable (Possible s o) := inferInstanceAs (Decidable (_ ∧ _))

/-! ## The invariant of a run -/

theorem start_inv (task : Nat → Task) (stack : Nat → Nat) :
    Inv (start task stack) (start task stack).zombieList [initTask] [] := by
  have hnext : (start task stack).next initTask = initTask := by
    simp [start, schedulerInit, Sched.next]
  have huid : ((start task stack).task initTask).uid = 0 := by
    simp [start, schedulerInit]
  have hmem : ∀ {a}, a ∈ [initTask] ++ [] → a = initTask := fun ha => by simpa using ha
  refine ⟨⟨⟨?_, rfl, List.nodup_singleton _⟩, rfl, by simp, by simp, ?_, by simp⟩,
    ⟨?_, ?_, ?_, ?_, ?_, ?_, huid, ?_, ?_⟩, ⟨?_, ?_, ?_, ?_, ?_, ?_⟩, .inl rfl, ?_, ?_⟩
  · exact ⟨hnext, rfl⟩
  · intro a ha _
    rw [List.mem_singleton.mp ha]
    simp [runnable, start, schedulerInit, TaskState.canRun]
  · intro a ha
    rw [hmem ha]
    exact initTask_ne_zero
  · intro a ha
    rw [hmem ha]
    decide
  · exact fun a ha hai => absurd (hmem ha) hai
  · exact fun a ha hai => absurd (hmem ha) hai
  · exact fun a ha hai => absurd (hmem ha) hai
  · exact fun a ha hai => absurd (hmem ha) hai
  · exact fun a ha b hb _ => (hmem ha).trans (hmem hb).symm
  · intro a ha
    rw [hmem ha, huid]
    exact Nat.zero_le _
  · intro a ha
    rw [hmem ha, huid]
    simp [fateOf, start, schedulerInit]
  · intro u hu
    by_cases h0 : u = 0
    · exact ⟨initTask, by simp, by rw [huid, h0]⟩
    · simp [start, schedulerInit, h0, Present] at hu
  · intro u hu
    have h0 : u ≠ 0 := Nat.ne_of_gt hu
    simp [start, schedulerInit, h0]
  · exact fun e he => absurd he (by simp [start, schedulerInit])
  · simp [start, schedulerInit]
  · exact fun e he => absurd he (by simp [start, schedulerInit])
  · intro a ha
    rw [hmem ha, huid]
    simp [start, schedulerInit, int32]
  · simp [start, schedulerInit, int32]

/-- Every call returns and keeps the invariant, as long as no zombie that is
still the current task reaps. -/
theorem step_good (h : Good s) {o : Op} (ho : Supplied s o) (hr : o.Reaps → ¬ Ended s) :
    ∃ s', step s o = some s' ∧ Good s' := by
  obtain ⟨l, z, hinv⟩ := h
  cases o with
  | taskCreate entry size t kstack => exact ⟨_, rfl, createTask_good hinv entry size 0 0 ho⟩
  | utaskCreate entry size mem memSize t kstack =>
    exact ⟨_, rfl, createTask_good hinv entry size mem memSize ho⟩
  | tick regs =>
    obtain ⟨s', out, hs', hgood⟩ := scheduleFromIsr_good hinv regs
    exact ⟨s', by rw [step, hs', Option.map_some], hgood⟩
  | taskStop pid =>
    by_cases hpid : pid = 0
    · exact ⟨s, by rw [step, taskStop, if_pos hpid, Option.map_some], l, z, hinv⟩
    · obtain ⟨u, l', s', r, -, -, hs', hthin, -⟩ := taskStop_spec hinv (hinv.alive (hr hpid)) hpid
      exact ⟨s', by rw [step, hs', Option.map_some], hthin.good⟩
  | taskExit code =>
    obtain ⟨s', hs', hthin, -⟩ := taskExit_good hinv (hinv.alive (hr trivial)) code
    exact ⟨s', hs', hthin.good⟩
  | reapZombies =>
    obtain ⟨s', l', hs', hgood, -⟩ := reapZombiesInternal_spec hinv (hinv.alive (hr trivial))
    exact ⟨s', hs', l', [], hgood⟩
  | taskIsAlive pid =>
    by_cases hpid : pid ≤ 0
    · exact ⟨s, by rw [step, taskIsAlive, if_pos hpid, Option.map_some], l, z, hinv⟩
    · have hpos : 0 < pid := by omega
      obtain ⟨u, l', r, -, -, hu, -, hs', -⟩ := taskIsAlive_spec hinv (hinv.alive (hr hpos)) hpos
      exact ⟨u, by rw [step, hs', Option.map_some], l', [], hu⟩

theorem run_good {task : Nat → Task} {stack : Nat → Nat} {os : List Op}
    (hr : Run step (fun s o => Supplied s o ∧ (o.Reaps → ¬ Ended s)) (start task stack) os s) :
    Good s :=
  hr.keeps (fun _ _ hs ho => step_good hs ho.1 ho.2) ⟨_, _, start_inv task stack⟩

theorem not_isTick_of_reaps {o : Op} (h : o.Reaps) : o.isTick = false := by
  cases o with
  | tick _ => exact h.elim
  | _ => rfl

theorem run_permitted {task : Nat → Task} {stack : Nat → Nat} {os : List Op}
    (hr : Run step Permitted (start task stack) os s) : Good s :=
  run_good (hr.mono fun _ _ ho => ⟨ho.1, fun hreaps => ho.2 (not_isTick_of_reaps hreaps)⟩)

/-! ## What the lists hold -/

theorem int32_of_small {n : Nat} (h : n < 2 ^ 31) : int32 n = n := by
  unfold int32
  omega

def noTask : Task :=
  { pid := 0, state := .ready, regs := 0, kstack := 0, kstackSize := 0, exitCode := 0, next := 0,
    znext := 0, userMem := 0, userMemSize := 0, uid := 0 }

/-- Three tasks: the first stops the second and then itself; the third exits. -/
def schedDemo : List Op :=
  [.taskCreate 0x1000 0 0x200000 0x210000, .utaskCreate 0x2000 64 0x500000 16 0x220000 0x230000,
    .taskCreate 0x3000 0 0x240000 0x250000, .tick 0x300000, .taskStop 2, .taskStop 1,
    .tick 0x300100, .taskExit 7]

/-- As long as no call reaps while the current task is a zombie, the current
task is never freed, no task is freed twice, and every call returns. -/
theorem running_task_never_freed (task : Nat → Task) (stack : Nat → Nat) {os : List Op} {s : Sched}
    (hr : Run step (fun s o => Possible s o ∧ (o.Reaps → ¬ Ended s)) (start task stack) os s) :
    (∀ e ∈ s.freed, e.wasCurrent = false) ∧ (s.freed.map FreeCall.uid).Nodup ∧
    ∀ o, Possible s o → (o.Reaps → ¬ Ended s) → ∃ s', step s o = some s' := by
  have hgood := run_good (hr.mono fun _ _ ho => ⟨ho.1.1, ho.2⟩)
  obtain ⟨l, z, hinv⟩ := hgood
  refine ⟨hinv.fates.notCurrent, hinv.fates.once, fun o ho hreaps => ?_⟩
  obtain ⟨s', hs', -⟩ := step_good ⟨l, z, hinv⟩ ho.1 hreaps
  exact ⟨s', hs'⟩

theorem running_task_never_freed_demo :
    ∃ s, Run step (fun s o => Possible s o ∧ (o.Reaps → ¬ Ended s))
        (start (fun _ => noTask) fun _ => 0) (schedDemo ++ [.tick 0x300200, .reapZombies]) s ∧
      (s.freed.map FreeCall.uid).length = 3 ∧ (∀ e ∈ s.freed, e.wasCurrent = false) ∧
      (s.freed.map FreeCall.uid).Nodup := by
  have hexec : (exec step (fun s o => Possible s o ∧ (o.Reaps → ¬ Ended s))
      (start (fun _ => noTask) fun _ => 0) (schedDemo ++ [.tick 0x300200, .reapZombies])).map
      (fun s => (s.freed.map FreeCall.uid).length) = some 3 := by
    decide +kernel
  obtain ⟨s, hs, hval⟩ := Option.map_eq_some_iff.mp hexec
  obtain ⟨hcurrent, honce, -⟩ := running_task_never_freed (fun _ => noTask) (fun _ => 0)
    (Run.of_exec hs)
  exact ⟨s, Run.of_exec hs, hval, hcurrent, honce⟩

/-- A task exits and calls `reap_zombies` before the tick. -/
def exitThenReap : List Op :=
  [.taskCreate 0x1000 0 0x200000 0x210000, .tick 0x300000, .taskExit 0, .reapZombies]

theorem running_task_freed :
    ¬ ∀ (task : Nat → Task) (stack : Nat → Nat) (os : List Op) (s : Sched),
      Run step Possible (start task stack) os s →
        (∀ e ∈ s.freed, e.wasCurrent = false) ∧ (s.freed.map FreeCall.uid).Nodup := by
  intro hall
  have hexec : (exec step Possible (start (fun _ => noTask) fun _ => 0) exitThenReap).map
      (fun s => s.freed) = some [⟨1, true⟩] := by
    decide +kernel
  obtain ⟨s, hs, hfreed⟩ := Option.map_eq_some_iff.mp hexec
  have hnot := (hall _ _ _ s (Run.of_exec hs)).1 ⟨1, true⟩ (by rw [hfreed]; simp)
  exact absurd hnot (by decide)

end KernelC.Multitask
