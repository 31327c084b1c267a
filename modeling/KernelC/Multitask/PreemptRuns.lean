import KernelC.Multitask.PreemptSteps
import KernelC.Multitask.Runs

/-!
# Interleaved calls

From any state that the scheduler reaches, the tasks make their calls statement
by statement, with ticks in between.

`preempted_calls_free_once`: no record is freed twice and no walk reads a freed
one, as long as no tick comes while `task_stop` walks the ring and the task that
`task_stop` finds is no zombie. Both are needed:

* `zombie_freed_twice`: a reaper has detached a zombie that is still in the ring,
  another task finds it there by its pid and frees it, and the reaper goes on
  with the freed record.
* `stopped_task_freed_twice`: two tasks stop the same third one, and the first is
  interrupted when it has found it.
-/

namespace KernelC.Multitask.Preempt

instance (c : Conf) (o : Act) : Decidable (Possible c o) :=
  match o with
  | .tick _ => inferInstanceAs (Decidable True)
  | .call _ => inferInstanceAs (Decidable (_ ∧ _))
  | .advance => inferInstanceAs (Decidable True)

instance (c : Conf) (o : Act) : Decidable (Protected c o) :=
  match o with
  | .tick _ => inferInstanceAs (Decidable (_ = _))
  | .call _ => inferInstanceAs (Decidable True)
  | .advance => inferInstanceAs (Decidable (_ = _))

variable {s : Sched} {l z : List Nat}

theorem begin_sound (h : Inv s s.zombieList l z) : Sound (l ++ z) (begin s) := by
  have hl : ∀ x ∈ l, x ∈ l ++ z := fun x hx => List.mem_append_left _ hx
  have hz : ∀ x ∈ z, x ∈ l ++ z := fun x hx => List.mem_append_right _ hx
  have hnothing : ∀ a, Held (l ++ z) (fun _ => 0) s l a .idle := fun a => Held.nothing rfl rfl trivial
  have hcur : s.next s.running ∈ l ∧ (s.running ∈ l ∨ Zombie s s.running) := by
    unfold Sched.running
    split
    · exact ⟨h.lists.ring.next_mem h.lists.init, .inl h.lists.init⟩
    · next h0 =>
      rcases h.current with hc | hc | hc
      · exact absurd hc h0
      · exact ⟨h.lists.ring.next_mem hc, .inl hc⟩
      · exact ⟨hc.2, .inr (h.lists.ended _ hc.1)⟩
  refine ⟨l, z, fun _ => 0, ⟨?_, h.lists.ring, hl, fun x hx => h.owned.record x (hl x hx),
    h.lists.init, h.lists.ready _ h.lists.init h.lists.initLive, hcur.1, ?_⟩, hnothing _, hcur.2,
    fun a _ _ _ => ⟨hnothing a, rfl⟩, rfl⟩
  · exact ⟨h.owned.nonnull, h.owned.bounded, h.owned.stackApart, h.init_pid⟩
  · refine ⟨h.lists.zombies, h.lists.zombies_nodup h.owned, fun _ _ => rfl, fun x hx => ?_,
      h.lists.ended⟩
    have hi := h.init_ne_zombie hx
    exact ⟨hz x hx, hi, h.owned.record x (hz x hx) hi⟩

/-- No interleaving frees a record twice or walks over a freed one, if no tick
comes while `task_stop` walks and `task_stop` finds no zombie. -/
theorem preempted_calls_free_once (task : Nat → Task) (stack : Nat → Nat) {os : List Op} {s : Sched}
    (hr : Run Multitask.step Permitted (start task stack) os s) {as : List Act} {c : Conf}
    (hc : Run step (fun c o => Possible c o ∧ Protected c o) (begin s) as c) : c.faults = [] := by
  obtain ⟨l, z, hinv⟩ := run_permitted hr
  obtain ⟨_, _, _, hsafe⟩ := hc.invariant (I := Sound (l ++ z))
    (fun c o c' hs hp hstep => step_sound hs hp hstep) (begin_sound hinv)
  exact hsafe.clean

/-- Three tasks; the first has exited and the second runs. -/
def oneZombie : List Op :=
  [.taskCreate 0x1000 0 0x200000 0x210000, .taskCreate 0x2000 0 0x220000 0x230000,
    .taskCreate 0x3000 0 0x240000 0x250000, .tick 0x300000, .taskExit 0, .tick 0x300100]

/-- The second task detaches the zombie and is interrupted; the third asks for it
meanwhile. -/
def reapAndAsk : List Act :=
  [.call .reapZombies, .advance, .tick 0x300200, .call (.taskIsAlive 1)] ++
    List.replicate 3 .advance ++ [.tick 0x300300, .tick 0x300400] ++ List.replicate 6 .advance

theorem preempted_calls_free_once_demo :
    ∃ s c, Run Multitask.step Permitted (start (fun _ => noTask) fun _ => 0) oneZombie s ∧
      Run step (fun c o => Possible c o ∧ Protected c o) (begin s) reapAndAsk c ∧
      c.sched.freed.map FreeCall.uid = [1] ∧ c.faults = [] := by
  have hexec : ((exec Multitask.step Permitted (start (fun _ => noTask) fun _ => 0) oneZombie).bind
      fun s => (exec step (fun c o => Possible c o ∧ Protected c o) (begin s) reapAndAsk).map
        fun c => c.sched.freed.map FreeCall.uid) = some [1] := by
    decide +kernel
  obtain ⟨s, hs, hrest⟩ := Option.bind_eq_some_iff.mp hexec
  obtain ⟨c, hc, hfreed⟩ := Option.map_eq_some_iff.mp hrest
  exact ⟨s, c, Run.of_exec hs, Run.of_exec hc, hfreed,
    preempted_calls_free_once (fun _ => noTask) (fun _ => 0) (Run.of_exec hs) (Run.of_exec hc)⟩

/-- The third task stops the zombie that the second has detached. -/
def reapAndStop : List Act :=
  [.call .reapZombies, .advance, .tick 0x300200, .call (.taskStop 1)] ++
    List.replicate 24 .advance ++ [.tick 0x300300, .tick 0x300400] ++ List.replicate 5 .advance

theorem zombie_freed_twice :
    ¬ ∀ (task : Nat → Task) (stack : Nat → Nat) (os : List Op) (s : Sched),
      Run Multitask.step Permitted (start task stack) os s →
      ∀ (as : List Act) (c : Conf), Run step Possible (begin s) as c → c.faults = [] := by
  intro hall
  have hexec : ((exec Multitask.step Permitted (start (fun _ => noTask) fun _ => 0) oneZombie).bind
      fun s => (exec step Possible (begin s) reapAndStop).map Conf.faults) =
      some [.freedTwice 0x200000, .readFreed 0x200000] := by
    decide +kernel
  obtain ⟨s, hs, hrest⟩ := Option.bind_eq_some_iff.mp hexec
  obtain ⟨c, hc, hfaults⟩ := Option.map_eq_some_iff.mp hrest
  rw [hall _ _ _ s (Run.of_exec hs) _ c (Run.of_exec hc)] at hfaults
  cases hfaults

/-- The first of three tasks has found the third when the tick comes; the second
then stops the same task. -/
def stopTwice : List Act :=
  [.call (.taskStop 3)] ++ List.replicate 14 .advance ++ [.tick 0x300200, .call (.taskStop 3)] ++
    List.replicate 36 .advance ++ [.tick 0x300300, .tick 0x300400] ++ List.replicate 17 .advance

/-- Without the ban on ticks a task is freed twice, though no zombie is found. -/
theorem stopped_task_freed_twice :
    ∃ s c, Run Multitask.step Permitted (start (fun _ => noTask) fun _ => 0) (oneZombie.take 4) s ∧
      Run step (fun c o => Possible c o ∧ (c.pc c.sched.running).zombieFound c.sched = false)
        (begin s) stopTwice c ∧
      c.faults = [.freedTwice 0x240000] := by
  have hexec : ((exec Multitask.step Permitted (start (fun _ => noTask) fun _ => 0)
      (oneZombie.take 4)).bind fun s =>
        (exec step (fun c o => Possible c o ∧ (c.pc c.sched.running).zombieFound c.sched = false)
          (begin s) stopTwice).map Conf.faults) = some [.freedTwice 0x240000] := by
    decide +kernel
  obtain ⟨s, hs, hrest⟩ := Option.bind_eq_some_iff.mp hexec
  obtain ⟨c, hc, hfaults⟩ := Option.map_eq_some_iff.mp hrest
  exact ⟨s, c, Run.of_exec hs, Run.of_exec hc, hfaults⟩

end KernelC.Multitask.Preempt
