import KernelC.Multitask.Invariant

/-!
# The timer

A tick changes which task runs and nothing that the lists see (`Quiet`). Since
`init_task` is always ready, there is a task to switch to, and the tick returns.
-/

namespace KernelC.Multitask

variable {s s' : Sched} {head t : Nat} {l z l' : List Nat}

/-! ## Ticks -/

/-- A change that the lists do not see: of the states, only which of the tasks
that can run is running. -/
structure Quiet (s s' : Sched) : Prop where
  next : s'.next = s.next
  znext : s'.znext = s.znext
  uid : ∀ a, (s'.task a).uid = (s.task a).uid
  pid : ∀ a, (s'.task a).pid = (s.task a).pid
  kstack : ∀ a, a ≠ initTask → (s'.task a).kstack = (s.task a).kstack
  canRun : ∀ a, (s'.task a).state.canRun = (s.task a).state.canRun
  zombie : ∀ a, (s'.task a).state = .zombie ↔ (s.task a).state = .zombie
  taskRing : s'.taskRing = s.taskRing
  zombieList : s'.zombieList = s.zombieList
  nextPid : s'.nextPid = s.nextPid
  created : s'.created = s.created
  alloc : s'.alloc = s.alloc
  fate : s'.fate = s.fate
  freed : s'.freed = s.freed

theorem Quiet.trans {u : Sched} (h : Quiet s u) (h' : Quiet u s') : Quiet s s' :=
  ⟨h'.next.trans h.next, h'.znext.trans h.znext, fun a => (h'.uid a).trans (h.uid a),
    fun a => (h'.pid a).trans (h.pid a), fun a ha => (h'.kstack a ha).trans (h.kstack a ha),
    fun a => (h'.canRun a).trans (h.canRun a), fun a => (h'.zombie a).trans (h.zombie a),
    h'.taskRing.trans h.taskRing, h'.zombieList.trans h.zombieList, h'.nextPid.trans h.nextPid,
    h'.created.trans h.created, h'.alloc.trans h.alloc, h'.fate.trans h.fate,
    h'.freed.trans h.freed⟩

/-- Which task is current is no matter. -/
theorem Quiet.switch (h : Quiet s s') (n top : Nat) :
    Quiet s { s' with current := n, syscallKstackTop := top } :=
  ⟨h.next, h.znext, h.uid, h.pid, h.kstack, h.canRun, h.zombie, h.taskRing, h.zombieList, h.nextPid,
    h.created, h.alloc, h.fate, h.freed⟩

/-- A change of one record in its other fields. -/
theorem modify_quiet {a : Nat} {g : Task → Task} (hnext : (g (s.task a)).next = (s.task a).next)
    (hznext : (g (s.task a)).znext = (s.task a).znext) (huid : (g (s.task a)).uid = (s.task a).uid)
    (hpid : (g (s.task a)).pid = (s.task a).pid)
    (hk : a ≠ initTask → (g (s.task a)).kstack = (s.task a).kstack)
    (hrun : (g (s.task a)).state.canRun = (s.task a).state.canRun)
    (hz : (g (s.task a)).state = .zombie ↔ (s.task a).state = .zombie) :
    Quiet s (s.modify a g) := by
  refine ⟨funext (modify_field Task.next hnext), funext (modify_field Task.znext hznext),
    modify_field Task.uid huid, modify_field Task.pid hpid, fun b hb => ?_,
    modify_field (fun t => t.state.canRun) hrun, fun b => ?_, rfl, rfl, rfl, rfl, rfl, rfl, rfl⟩
  · by_cases hba : b = a
    · subst hba
      rw [modify_self]
      exact hk hb
    · rw [modify_of_ne s g hba]
  · have hfield := modify_field (fun t => t.state = .zombie) (propext hz) b
    exact Iff.of_eq hfield

theorem Inv.quiet (h : Inv s head l z) (hq : Quiet s s') (hcur : Current s' l z) :
    Inv s' head l z := by
  refine ⟨⟨?_, ?_, h.lists.init, h.lists.initLive, ?_, ?_⟩, ?_, ⟨?_, ?_, ?_, ?_, ?_, ?_⟩, hcur, ?_⟩
  · rw [hq.next, hq.taskRing]
    exact h.lists.ring
  · rw [hq.znext]
    exact h.lists.zombies
  · intro a ha haz
    exact (hq.canRun a).trans (h.lists.ready a ha haz)
  · intro a ha
    exact (hq.zombie a).mpr (h.lists.ended a ha)
  · exact h.owned.congr (fun a ha => ha) hq.uid hq.kstack hq.alloc hq.created
  · intro a ha
    rw [hq.fate, hq.uid]
    exact h.fates.known a ha
  · intro u hu
    rw [hq.fate] at hu
    obtain ⟨a, ha, hau⟩ := h.fates.complete u hu
    exact ⟨a, ha, by rw [hq.uid, hau]⟩
  · rw [hq.fate, hq.created]
    exact h.fates.absent
  · rw [hq.fate, hq.freed]
    exact h.fates.freed
  · rw [hq.freed]
    exact h.fates.once
  · rw [hq.freed]
    exact h.fates.notCurrent
  · refine ⟨fun a ha => ?_, ?_⟩
    · rw [hq.pid, hq.uid]
      exact h.pids.pid a ha
    · rw [hq.nextPid, hq.created]
      exact h.pids.nextPid

theorem saveCurrent_current (s : Sched) (regs : Nat) :
    (saveCurrent s regs).current = s.running := by
  unfold saveCurrent Sched.running
  split <;> rfl

/-- Saving the interrupted task: the boot code becomes `init_task`. -/
theorem saveCurrent_quiet (hinit : runnable s initTask = true) (regs : Nat) :
    Quiet s (saveCurrent s regs) := by
  unfold saveCurrent
  by_cases h0 : s.current = 0
  · rw [if_pos h0]
    unfold runnable at hinit
    have hz : (s.task initTask).state ≠ .zombie := fun he => by
      rw [he] at hinit
      exact absurd hinit (by decide)
    have hq : Quiet s (s.modify initTask fun t =>
        { t with kstack := initTaskStack, kstackSize := 16 * 1024, regs := regs, state := .running }) :=
      modify_quiet rfl rfl rfl rfl (fun he => absurd rfl he) hinit.symm (by simp [hz])
    exact hq.switch _ _
  · rw [if_neg h0]
    refine modify_quiet rfl rfl rfl rfl (fun _ => rfl) ?_ ?_
    · cases (s.task s.current).state <;> rfl
    · cases (s.task s.current).state <;> simp

/-- Making a task that can run the running one. -/
theorem resume_quiet {n : Nat} (hrun : runnable s n = true) :
    Quiet s (s.modify n fun t => { t with state := .running }) := by
  unfold runnable at hrun
  refine modify_quiet rfl rfl rfl rfl (fun _ => rfl) hrun.symm ⟨fun he => ?_, fun he => ?_⟩
  · cases he
  · rw [he] at hrun
    exact absurd hrun (by decide)

theorem runnable_of_pickNext {n : Nat} (h : pickNext s = some (some n)) : runnable s n = true := by
  unfold pickNext at h
  split at h
  · cases h
  · exact (ringFind_sound (P := fun _ => True) (fun _ _ => trivial) trivial h).2

/-- A tick changes nothing that the lists see, and hands over to the task it
picks. -/
theorem scheduleFromIsr_spec (hinit : runnable s initTask = true) {regs out : Nat}
    (h : scheduleFromIsr s regs = some (s', out)) :
    Quiet s s' ∧ ∃ picked, pickNext (saveCurrent s regs) = some picked ∧
      s'.current = picked.getD s.running := by
  have hq := saveCurrent_quiet hinit regs
  have hcur := saveCurrent_current s regs
  unfold scheduleFromIsr at h
  generalize saveCurrent s regs = u at hq hcur h ⊢
  obtain ⟨picked, hpicked, hout⟩ := Option.map_eq_some_iff.mp h
  cases picked with
  | none =>
    obtain ⟨rfl, -⟩ := Prod.mk.inj hout
    exact ⟨hq, none, hpicked, hcur⟩
  | some n =>
    have hr := resume_quiet (runnable_of_pickNext hpicked)
    have hs' : s'.current = n ∧ Quiet u s' := by
      dsimp only at hout
      split at hout
      · next hn =>
        subst hn
        obtain ⟨rfl, -⟩ := Prod.mk.inj hout
        exact ⟨rfl, hr.switch _ _⟩
      · obtain ⟨rfl, -⟩ := Prod.mk.inj hout
        exact ⟨rfl, hr.switch _ _⟩
    exact ⟨hq.trans hs'.2, some n, hpicked, hs'.1⟩

/-- The node behind the current one is in the ring, also behind a current task
that has left it. -/
theorem Inv.next_current_mem (h : Inv s head l z) (h0 : s.current ≠ 0) : s.next s.current ∈ l := by
  rcases h.current with hc | hc | hc
  · exact absurd hc h0
  · exact h.lists.ring.next_mem hc
  · exact hc.2

/-- `pick_next` takes the first task that can run, in the order behind the
current one. -/
theorem pickNext_eq (h : Inv s head l z) (h0 : s.current ≠ 0) {w : List Nat}
    (hw : Cycle s.next (s.next s.current) w) (hperm : w.Perm l) :
    pickNext s = some (w.find? (runnable s)) := by
  have hlen := h.owned.length_le h.lists.ring.nodup
  rw [← hperm.length_eq] at hlen
  unfold pickNext
  rw [if_neg h.taskRing_ne_zero]
  simp only [if_pos h0]
  exact ringFind_cycle hw hlen

/-- There is always a next task: `init_task` can run. -/
theorem pickNext_spec (h : Inv s head l z) (h0 : s.current ≠ 0) :
    ∃ n, pickNext s = some (some n) ∧ n ∈ l := by
  obtain ⟨w, hw, hperm⟩ := h.lists.ring.cycle (h.next_current_mem h0)
  have hrun := h.lists.ready _ h.lists.init h.lists.initLive
  have hsome : (w.find? (runnable s)).isSome :=
    List.find?_isSome.mpr ⟨initTask, hperm.mem_iff.mpr h.lists.init, hrun⟩
  obtain ⟨n, hn⟩ := Option.isSome_iff_exists.mp hsome
  exact ⟨n, by rw [pickNext_eq h h0 hw hperm, hn], hperm.mem_iff.mp (List.mem_of_find?_eq_some hn)⟩

/-- The state in which the tick picks the next task. -/
theorem Inv.saveCurrent (h : Inv s head l z) (regs : Nat) :
    Inv (saveCurrent s regs) head l z ∧ (Multitask.saveCurrent s regs).current ≠ 0 := by
  have hinit := h.lists.ready _ h.lists.init h.lists.initLive
  have hq := saveCurrent_quiet hinit regs
  have hcur := saveCurrent_current s regs
  refine ⟨h.quiet hq ?_, ?_⟩
  · unfold Current
    rw [hcur, hq.next, Sched.running]
    split
    · exact .inr (.inl h.lists.init)
    · exact h.current
  · rw [hcur, Sched.running]
    split
    · exact initTask_ne_zero
    · assumption

/-- A tick returns, changes nothing that the lists see, and hands over to the
task that `pick_next` finds. -/
theorem scheduleFromIsr_picks (h : Inv s head l z) (regs : Nat) :
    ∃ s' out, scheduleFromIsr s regs = some (s', out) ∧ Quiet s s' ∧
      pickNext (saveCurrent s regs) = some (some s'.current) ∧ s'.current ∈ l := by
  have hinit := h.lists.ready _ h.lists.init h.lists.initLive
  obtain ⟨hsaved, hrunning⟩ := h.saveCurrent regs
  obtain ⟨n, hn, hnl⟩ := pickNext_spec hsaved hrunning
  obtain ⟨⟨s', out⟩, hs'⟩ : ∃ r, scheduleFromIsr s regs = some r := by
    unfold scheduleFromIsr
    dsimp only
    rw [hn]
    exact ⟨_, rfl⟩
  obtain ⟨hqs, picked, hp, hc⟩ := scheduleFromIsr_spec hinit hs'
  rw [hn] at hp
  obtain rfl := Option.some.inj hp
  rw [Option.getD_some] at hc
  exact ⟨s', out, hs', hqs, by rw [hn, hc], hc ▸ hnl⟩

theorem scheduleFromIsr_good (h : Inv s s.zombieList l z) (regs : Nat) :
    ∃ s' out, scheduleFromIsr s regs = some (s', out) ∧ Good s' := by
  obtain ⟨s', out, hs', hq, -, hmem⟩ := scheduleFromIsr_picks h regs
  refine ⟨s', out, hs', l, z, ?_⟩
  rw [hq.zombieList]
  exact h.quiet hq (.inr (.inl hmem))

end KernelC.Multitask
