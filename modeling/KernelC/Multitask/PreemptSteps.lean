import KernelC.Multitask.PreemptStop
import KernelC.Multitask.Ticks

/-!
# Every step keeps the invariant

`stmt_sound` puts the statements together, `call_sound` is the start of a call,
`tick_sound` the timer.
-/

namespace KernelC.Multitask.Preempt

variable {D l l' z z' d : List Nat} {owner owner' : Nat → Nat} {s s' : Sched}
  {a b p t w last last' : Nat} {c : Conf} {pc : Pc} {e : Effect}

/-! ## Every step -/

theorem stmt_sound (hs : Safe D c l z owner) (hp : Protected c .advance)
    (he : stmt c.sched (c.pc c.sched.running) = some e) : Sound D (c.apply e) := by
  unfold Protected at hp
  cases hpc : c.pc c.sched.running with
  | idle =>
    rw [hpc] at he
    cases he
  | wait =>
    rw [hpc] at he
    obtain rfl := Option.some.inj he
    exact hs.moves hpc rfl rfl rfl rfl trivial trivial (by simp)
  | stopFound found =>
    rw [hpc] at he hp
    exact hs.stopFound hpc (by simpa [Pc.zombieFound] using hp) he
  | reapStart => exact hs.reapStart hpc (hpc ▸ he)
  | reapLoop => exact hs.reapLoop hpc (hpc ▸ he)
  | reapUnlink => exact hs.reapUnlink hpc (hpc ▸ he)
  | freeStack => exact hs.freeStack hpc (hpc ▸ he)
  | freeUser => exact hs.freeUser hpc (hpc ▸ he)
  | freeRecord => exact hs.freeRecord hpc (hpc ▸ he)
  | stopRing => exact hs.stopRing hpc (hpc ▸ he)
  | stopFirst => exact hs.stopFirst hpc (hpc ▸ he)
  | stopTest => exact hs.stopTest hpc (hpc ▸ he)
  | stopNext => exact hs.stopNext hpc (hpc ▸ he)
  | stopCompare => exact hs.stopCompare hpc (hpc ▸ he)
  | unlinkStart => exact hs.unlinkStart hpc (hpc ▸ he)
  | unlinkOne => exact hs.unlinkOne hpc (hpc ▸ he)
  | unlinkPrev => exact hs.unlinkPrev hpc (hpc ▸ he)
  | unlinkFirst => exact hs.unlinkFirst hpc (hpc ▸ he)
  | unlinkTest => exact hs.unlinkTest hpc (hpc ▸ he)
  | unlinkSet => exact hs.unlinkSet hpc (hpc ▸ he)
  | unlinkTail => exact hs.unlinkTail hpc (hpc ▸ he)
  | unlinkNext => exact hs.unlinkNext hpc (hpc ▸ he)
  | unlinkCompare => exact hs.unlinkCompare hpc (hpc ▸ he)
  | exitCheck => exact hs.exitCheck hpc (hpc ▸ he)
  | exitCode => exact hs.exitCode hpc (hpc ▸ he)
  | endState => exact hs.endState hpc (hpc ▸ he)
  | endZnext => exact hs.endZnext hpc (hpc ▸ he)
  | endQueue => exact hs.endQueue hpc (hpc ▸ he)
  | aliveWalk => exact hs.aliveWalk hpc (hpc ▸ he)

theorem not_zombie_of_runnable (h : runnable s a = true) : ¬ Zombie s a := by
  intro hz
  unfold runnable at h
  rw [show (s.task a).state = .zombie from hz] at h
  exact absurd h (by decide)

/-- A call starts with nothing in hand. The task that makes it is in the ring,
since it has not ended. -/
theorem call_sound (hs : Safe D c l z owner) (o : Call)
    (hp : (c.pc c.sched.running).isIdle ∧ ¬ Ended c.sched) :
    Sound D (c.apply (Preempt.goes c.sched [] o.entry)) := by
  have hpc : c.pc c.sched.running = .idle := by
    cases hpc : c.pc c.sched.running with
    | idle => rfl
    | _ =>
      rw [hpc] at hp
      cases hp.1
  have hhere := hs.here
  rw [hpc] at hhere
  have hup : Up c.sched l c.sched.running := by
    have hz : ¬ Zombie c.sched c.sched.running := by
      intro hz
      by_cases hi : c.sched.running = initTask
      · exact not_zombie_of_runnable hs.core.initRun (hi ▸ hz)
      · obtain ⟨hcur, h0⟩ := current_of_running hi
        exact hp.2 ⟨h0, by rw [hcur]; exact hz⟩
    exact ⟨hhere.resolve_right hz, hz⟩
  cases o with
  | taskStop pid =>
    rw [Call.entry]
    split
    · exact hs.moves hpc rfl rfl rfl rfl trivial (.inl hup.1) (by simp)
    · exact hs.moves hpc rfl rfl rfl rfl trivial hup (by simp)
  | taskExit code => exact hs.moves hpc rfl rfl rfl rfl trivial hup (by simp)
  | reapZombies => exact hs.moves hpc rfl rfl rfl rfl trivial hup (by simp)
  | taskIsAlive pid =>
    rw [Call.entry]
    split
    · exact hs.moves hpc rfl rfl rfl rfl trivial (.inl hup.1) (by simp)
    · exact hs.moves hpc rfl rfl rfl rfl trivial hup (by simp)

/-! ## Ticks -/

theorem Quiet.chain (hq : Quiet s s') {hs : List Nat} (hc : Chain D owner s a p hs d) :
    Chain D owner s' a p hs d := by
  refine ⟨?_, hc.nodup, hc.mine, ?_, fun x hx => (hq.zombie x).mpr (hc.zombie x hx)⟩
  · rw [hq.znext]
    exact hc.path
  · rw [hq.alloc]
    exact hc.task

theorem Quiet.held (hq : Quiet s s') (hh : Held D owner s l a pc) : Held D owner s' l a pc := by
  obtain ⟨hfact, d, hc⟩ := hh
  refine ⟨?_, d, Quiet.chain hq hc⟩
  cases pc with
  | reapUnlink y nextZ k => exact (hq.zombie y).mpr hfact
  | endZnext | endQueue => exact (hq.zombie a).mpr hfact
  | freeStack | freeUser | freeRecord | exitCode | endState => exact hfact
  | _ => trivial

theorem Quiet.up (hq : Quiet s s') (hup : Up s l a) : Up s' l a :=
  ⟨hup.1, fun hz => hup.2 ((hq.zombie a).mp hz)⟩

theorem Quiet.here (hq : Quiet s s') (hw : pc.walking = false) (hh : Here s l a pc) :
    Here s' l a pc := by
  cases pc with
  | idle => exact hh.imp_right (hq.zombie a).mpr
  | wait => trivial
  | endZnext => exact hh
  | endQueue =>
    refine ⟨hh.1, ?_⟩
    rw [hq.znext, hq.zombieList]
    exact hh.2
  | reapStart | reapLoop | reapUnlink | freeStack | freeUser | freeRecord | stopRing | stopFirst
  | exitCheck | exitCode | endState | aliveWalk => exact Quiet.up hq hh
  | stopTest | stopNext | stopCompare | stopFound | unlinkStart | unlinkOne | unlinkPrev | unlinkFirst
  | unlinkTest | unlinkSet | unlinkTail | unlinkNext | unlinkCompare => cases hw

/-- A task that can run and is not inside a walk knows what it needs. -/
theorem here_of_runnable (ha : a ∈ l) (hrun : runnable s a = true) (hw : pc.walking = false)
    (hfact : Fact s l a pc) : Here s l a pc := by
  have hup : Up s l a := ⟨ha, not_zombie_of_runnable hrun⟩
  cases pc with
  | idle => exact .inl ha
  | wait => trivial
  | endZnext | endQueue => exact absurd hfact hup.2
  | reapStart | reapLoop | reapUnlink | freeStack | freeUser | freeRecord | stopRing | stopFirst
  | exitCheck | exitCode | endState | aliveWalk => exact hup
  | stopTest | stopNext | stopCompare | stopFound | unlinkStart | unlinkOne | unlinkPrev | unlinkFirst
  | unlinkTest | unlinkSet | unlinkTail | unlinkNext | unlinkCompare => cases hw

theorem tail_of_not_walking (hw : pc.walking = false) : tail s pc = s.taskRing := by
  cases pc with
  | unlinkTail => cases hw
  | _ => rfl

/-- The tick hands over to a task of the ring that can run. -/
theorem picked_runs (hcur : s.next s.running ∈ l) (hring : ∀ x ∈ l, s.next x ∈ l)
    (hinit : runnable s initTask = true) {regs n : Nat}
    (h : pickNext (saveCurrent s regs) = some (some n)) : n ∈ l ∧ runnable s n = true := by
  have hq := saveCurrent_quiet hinit regs
  have hrun := runnable_of_pickNext h
  refine ⟨?_, (hq.canRun n).symm.trans hrun⟩
  unfold pickNext at h
  split at h
  · cases h
  · simp only [saveCurrent_current, hq.next, if_pos (running_ne_zero s)] at h
    exact (ringFind_sound (P := fun x => x ∈ l) hring hcur h).1

/-- Outside of a walk, a task can be interrupted at any place. -/
theorem tick_sound (hs : Safe D c l z owner) (hw : (c.pc c.sched.running).walking = false)
    {regs out : Nat} (h : scheduleFromIsr c.sched regs = some (s', out)) :
    Sound D { c with sched := s' } := by
  have hcore := hs.core
  rw [tail_of_not_walking hw] at hcore
  obtain ⟨hq, picked, hpick, hcur⟩ := scheduleFromIsr_spec hcore.initRun h
  -- whoever runs now: the same task, or another one that was ready
  have hnext : s'.running = c.sched.running ∨
      (s'.running ∈ l ∧ runnable c.sched s'.running = true) := by
    cases picked with
    | none =>
      refine .inl ?_
      rw [Sched.running, hcur, Option.getD_none, if_neg (running_ne_zero _)]
    | some n =>
      have hn := picked_runs hcore.cur (fun x hx => hcore.ring.next_mem hx) hcore.initRun hpick
      rw [Sched.running, hcur, Option.getD_some, if_neg (hcore.mem_ne_zero hn.1)]
      exact .inr hn
  generalize hm : s'.running = m at hnext
  have hnow : Held D owner c.sched l m (c.pc m) ∧ (c.pc m).walking = false ∧
      Here c.sched l m (c.pc m) ∧ c.sched.next m ∈ l := by
    by_cases hself : m = c.sched.running
    · rw [hself]
      exact ⟨hs.mine, hw, hs.here, hcore.cur⟩
    · obtain ⟨hml, hrun⟩ := hnext.resolve_left hself
      obtain ⟨hheld, hwm⟩ := hs.others m hml hself hrun
      exact ⟨hheld, hwm, here_of_runnable hml hrun hwm hheld.1, hcore.ring.next_mem hml⟩
  obtain ⟨hheld, hwm, hhere, hmn⟩ := hnow
  refine ⟨l, z, owner, ?_, ?_, ?_, ?_, hs.clean⟩
  · show Core D owner s' (tail s' (c.pc s'.running)) l z
    rw [hm, tail_of_not_walking hwm, hq.taskRing]
    refine ⟨hcore.estate.congr hq.kstack (hq.pid _), ?_, hcore.sub, ?_, hcore.init,
      (hq.canRun _).trans hcore.initRun, ?_, ?_⟩
    · rw [hq.next]
      exact hcore.ring
    · rw [hq.alloc]
      exact hcore.live
    · rw [hm, hq.next]
      exact hmn
    · rw [hq.zombieList]
      exact Quiet.chain hq hcore.queue
  · show Held D owner s' l s'.running (c.pc s'.running)
    rw [hm]
    exact Quiet.held hq hheld
  · show Here s' l s'.running (c.pc s'.running)
    rw [hm]
    exact Quiet.here hq hwm hhere
  · intro a ha hne hrun
    have hrun' : runnable c.sched a = true := (hq.canRun a).symm.trans hrun
    by_cases hself : a = c.sched.running
    · rw [hself]
      exact ⟨Quiet.held hq hs.mine, hw⟩
    · obtain ⟨hheld', hw'⟩ := hs.others a ha hself hrun'
      exact ⟨Quiet.held hq hheld', hw'⟩

theorem step_sound (hs : Sound D c) {o : Act} (hp : Possible c o ∧ Protected c o) {c' : Conf}
    (h : step c o = some c') : Sound D c' := by
  obtain ⟨l, z, owner, hs⟩ := hs
  cases o with
  | tick regs =>
    obtain ⟨⟨s', out⟩, hs', rfl⟩ := Option.map_eq_some_iff.mp h
    exact tick_sound hs hp.2 hs'
  | call o =>
    obtain rfl := Option.some.inj h
    exact call_sound hs o hp.1
  | advance =>
    obtain ⟨e, he, rfl⟩ := Option.map_eq_some_iff.mp h
    exact stmt_sound hs hp.2 he

end KernelC.Multitask.Preempt
