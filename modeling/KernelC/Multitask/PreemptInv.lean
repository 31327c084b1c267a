import KernelC.Multitask.Preempt
import KernelC.Multitask.Lists

/-!
# Who frees a task

The invariant of the interleavings. Every task that will be freed has one
`owner`: the zombie list (written 0) or the task that has taken it off the list
or out of the ring. A `Chain` is all that an owner holds: one task that it works
on and the list that follows. Two owners hold different tasks, whatever the
others do meanwhile; that is all a task relies on between two of its statements
(`Held`), as long as it is not inside a walk of `task_stop`.

What the running task knows of the ring inside such a walk (`Here`) holds only
until the next tick.

* `Safe`: the invariant.
* `Frame`: what the others may do; `Held.frame`: a chain survives it.
* `Safe.apply`: the invariant after a statement of the running task.
-/

namespace KernelC.Multitask.Preempt

def Rest.head : Rest → Nat
  | .reap nextZ _ => nextZ
  | .stop => 0

/-- Where the list goes on that a task has detached. -/
def Pc.rest : Pc → Nat
  | .reapLoop z _ => z
  | .reapUnlink _ nextZ _ => nextZ
  | .freeStack _ r => r.head
  | .freeUser _ r => r.head
  | .freeRecord _ r => r.head
  | _ => 0

/-- The task that `a` works on: one to free, or itself before it is queued. -/
def Pc.held (a : Nat) : Pc → List Nat
  | .reapUnlink z _ _ => [z]
  | .freeStack t _ => [t]
  | .freeUser t _ => [t]
  | .freeRecord t _ => [t]
  | .endZnext _ => [a]
  | .endQueue _ => [a]
  | .unlinkStart t own => if own then [] else [t]
  | .unlinkOne t own => if own then [] else [t]
  | .unlinkPrev t own => if own then [] else [t]
  | .unlinkFirst t _ own => if own then [] else [t]
  | .unlinkTest t _ _ own => if own then [] else [t]
  | .unlinkSet t _ _ own => if own then [] else [t]
  | .unlinkTail t _ _ own => if own then [] else [t]
  | .unlinkNext t _ own => if own then [] else [t]
  | .unlinkCompare t _ _ own => if own then [] else [t]
  | _ => []

def Zombie (s : Sched) (a : Nat) : Prop := (s.task a).state = .zombie

/-- `a` holds the tasks `h` and the list `d` that starts at `p`. -/
structure Chain (D : List Nat) (owner : Nat → Nat) (s : Sched) (a p : Nat) (h d : List Nat) :
    Prop where
  path : Path s.znext p d 0
  nodup : (h ++ d).Nodup
  mine : ∀ x ∈ h ++ d, owner x = a
  task : ∀ x ∈ h ++ d, x ∈ D ∧ x ≠ initTask ∧ x ∈ s.alloc
  zombie : ∀ x ∈ d, Zombie s x

/-- What the task `a` knows that no other task changes. -/
def Fact (s : Sched) (l : List Nat) (a : Nat) : Pc → Prop
  | .reapUnlink z _ _ => Zombie s z
  | .freeStack t _ => t ∉ l
  | .freeUser t _ => t ∉ l
  | .freeRecord t _ => t ∉ l
  | .exitCode _ => a ≠ initTask
  | .endState _ => a ≠ initTask
  | .endZnext _ => Zombie s a
  | .endQueue _ => Zombie s a
  | _ => True

def Held (D : List Nat) (owner : Nat → Nat) (s : Sched) (l : List Nat) (a : Nat) (pc : Pc) : Prop :=
  Fact s l a pc ∧ ∃ d, Chain D owner s a pc.rest (pc.held a) d

/-- The task `a` is in the ring and has not ended. -/
def Up (s : Sched) (l : List Nat) (a : Nat) : Prop := a ∈ l ∧ ¬ Zombie s a

/-- `task_stop` in `a` takes `t` out, which is itself if `own`. -/
def Leaving (s : Sched) (l : List Nat) (a t : Nat) (own : Bool) : Prop :=
  t ∈ l ∧ t ≠ initTask ∧ if own then t = a else t ≠ a ∧ Up s l a

/-- What the running task `a` knows until the next tick. In the walk of
`unlink_from_ring` the ring is cut at the place it has reached. -/
def Here (s : Sched) (l : List Nat) (a : Nat) : Pc → Prop
  | .idle => a ∈ l ∨ Zombie s a
  | .wait => True
  | .stopTest _ it => Up s l a ∧ it ∈ l
  | .stopNext _ it => Up s l a ∧ it ∈ l
  | .stopCompare _ it => Up s l a ∧ it ∈ l
  | .stopFound found => Up s l a ∧ found ∈ l ∧ found ≠ initTask
  | .endZnext _ => a ∈ l
  | .endQueue _ => a ∈ l ∧ s.znext a = s.zombieList
  | .unlinkStart t own => Leaving s l a t own
  | .unlinkOne t own => Leaving s l a t own
  | .unlinkPrev t own => Leaving s l a t own
  | .unlinkFirst t prev own => Leaving s l a t own ∧ prev = s.taskRing
  | .unlinkTest t prev it own => Leaving s l a t own ∧
    ∃ x y, l = x ++ it :: y ∧ t ∉ x ∧ prev = prevOf s.taskRing x
  | .unlinkSet t prev it own => Leaving s l a t own ∧ it = t ∧
    ∃ x y, l = x ++ t :: y ∧ prev = prevOf s.taskRing x
  | .unlinkTail t _ it own => it = t ∧ t ∉ l ∧ if own then True else Up s l a
  | .unlinkNext t it own => Leaving s l a t own ∧ ∃ x y, l = x ++ it :: y ∧ t ∉ x ++ [it]
  | .unlinkCompare t prev it own => Leaving s l a t own ∧
    ∃ x y, l = x ++ y ∧ x ≠ [] ∧ t ∉ x ∧ prev = prevOf s.taskRing x ∧
      Path s.next it y (s.next s.taskRing)
  | _ => Up s l a

/-- The last task of the ring: `task_ring`, but for the moment between the two
writes of `unlink_from_ring`. -/
def tail (s : Sched) : Pc → Nat
  | .unlinkTail _ prev it _ => if s.taskRing = it then prev else s.taskRing
  | _ => s.taskRing

/-- The tasks `D` that there are: their records and their stacks are apart. -/
structure Estate (D : List Nat) (s : Sched) : Prop where
  nonnull : ∀ x ∈ D, x ≠ 0
  bounded : ∀ x ∈ D, x < 2 ^ 64
  apart : ∀ x ∈ D, x ≠ initTask → ∀ y ∈ D, y ≠ initTask → (s.task x).kstack ≠ y
  initPid : (s.task initTask).pid = 0

/-- The lists: the ring `l` with the last task `last`, and the zombies `z`. -/
structure Core (D : List Nat) (owner : Nat → Nat) (s : Sched) (last : Nat) (l z : List Nat) :
    Prop where
  estate : Estate D s
  ring : Ring s.next last l
  sub : ∀ x ∈ l, x ∈ D
  live : ∀ x ∈ l, x ≠ initTask → x ∈ s.alloc
  init : initTask ∈ l
  initRun : runnable s initTask = true
  cur : s.next s.running ∈ l
  queue : Chain D owner s 0 s.zombieList [] z

structure Safe (D : List Nat) (c : Conf) (l z : List Nat) (owner : Nat → Nat) : Prop where
  core : Core D owner c.sched (tail c.sched (c.pc c.sched.running)) l z
  mine : Held D owner c.sched l c.sched.running (c.pc c.sched.running)
  here : Here c.sched l c.sched.running (c.pc c.sched.running)
  /-- The other tasks that can run: none of them is inside a walk. -/
  others : ∀ a ∈ l, a ≠ c.sched.running → runnable c.sched a = true →
    Held D owner c.sched l a (c.pc a) ∧ (c.pc a).walking = false
  clean : c.faults = []

/-! ## What the others may do -/

/-- What a step of another task leaves to the owner `b`. -/
structure Frame (D : List Nat) (owner owner' : Nat → Nat) (s s' : Sched) (l l' : List Nat)
    (b : Nat) : Prop where
  sub : ∀ x ∈ l', x ∈ l
  keep : ∀ x ∈ D, x ≠ initTask → owner x = b → x ∈ s.alloc → Zombie s x ∨ x ∉ l →
    owner' x = b ∧ x ∈ s'.alloc ∧ s'.znext x = s.znext x ∧ (Zombie s x → Zombie s' x)

variable {D l l' z z' h d : List Nat} {owner owner' : Nat → Nat} {s s' : Sched} {a b p : Nat}
  {c : Conf} {pc : Pc}

theorem Frame.refl : Frame D owner owner s s l l b :=
  ⟨fun _ hx => hx, fun _ _ _ ho ha _ => ⟨ho, ha, rfl, fun hz => hz⟩⟩

theorem Chain.frame (hc : Chain D owner s a p h d) (hf : Frame D owner owner' s s' l l' a)
    (hspent : ∀ x ∈ h, Zombie s x ∨ x ∉ l) : Chain D owner' s' a p h d := by
  have hkeep : ∀ x ∈ h ++ d, owner' x = a ∧ x ∈ s'.alloc ∧ s'.znext x = s.znext x ∧
      (Zombie s x → Zombie s' x) := by
    intro x hx
    obtain ⟨hD, hi, halloc⟩ := hc.task x hx
    refine hf.keep x hD hi (hc.mine x hx) halloc ?_
    rcases List.mem_append.mp hx with hh | hd
    · exact hspent x hh
    · exact .inl (hc.zombie x hd)
  have hd : ∀ x ∈ d, x ∈ h ++ d := fun x hx => List.mem_append_right _ hx
  refine ⟨hc.path.congr fun x hx => (hkeep x (hd x hx)).2.2.1, hc.nodup,
    fun x hx => (hkeep x hx).1, fun x hx => ?_, fun x hx => (hkeep x (hd x hx)).2.2.2 (hc.zombie x hx)⟩
  exact ⟨(hc.task x hx).1, (hc.task x hx).2.1, (hkeep x hx).2.1⟩

/-- Outside of a walk, a task that is worked on is a zombie or has left the
ring. -/
theorem Fact.spent (hf : Fact s l a pc) (hw : pc.walking = false) :
    ∀ x ∈ pc.held a, Zombie s x ∨ x ∉ l := by
  intro x hx
  cases pc with
  | reapUnlink z nextZ k =>
    rw [List.mem_singleton.mp hx]
    exact .inl hf
  | freeStack t r | freeUser t r | freeRecord t r =>
    rw [List.mem_singleton.mp hx]
    exact .inr hf
  | endZnext e | endQueue e =>
    rw [List.mem_singleton.mp hx]
    exact .inl hf
  | idle | reapStart | reapLoop | stopRing | stopFirst | stopTest | stopNext | stopCompare
  | stopFound | wait | exitCheck | exitCode | endState | aliveWalk => cases hx
  | unlinkStart | unlinkOne | unlinkPrev | unlinkFirst | unlinkTest | unlinkSet | unlinkTail
  | unlinkNext | unlinkCompare => cases hw

theorem Held.frame (hh : Held D owner s l a pc) (hw : pc.walking = false)
    (hf : Frame D owner owner' s s' l l' a) : Held D owner' s' l' a pc := by
  obtain ⟨hfact, d, hc⟩ := hh
  have hspent := hfact.spent hw
  refine ⟨?_, d, hc.frame hf hspent⟩
  have hzombie : ∀ x ∈ pc.held a, Zombie s x → Zombie s' x := by
    intro x hx
    have hmem : x ∈ pc.held a ++ d := List.mem_append_left _ hx
    obtain ⟨hD, hi, halloc⟩ := hc.task x hmem
    exact (hf.keep x hD hi (hc.mine x hmem) halloc (hspent x hx)).2.2.2
  cases pc with
  | reapUnlink z nextZ k => exact hzombie z List.mem_cons_self hfact
  | freeStack t r | freeUser t r | freeRecord t r => exact fun hm => hfact (hf.sub t hm)
  | endZnext e | endQueue e => exact hzombie a List.mem_cons_self hfact
  | exitCode | endState => exact hfact
  | _ => trivial

/-! ## A statement of the running task -/

theorem gone_of_live (h : a ≠ initTask → a ∈ s.alloc) : gone s a = false := by
  unfold gone
  by_cases ha : a = initTask
  · simp [ha]
  · simp [h ha]

theorem Core.not_gone {last : Nat} (h : Core D owner s last l z) (ha : a ∈ l) :
    gone s a = false :=
  gone_of_live (h.live a ha)

theorem faultsOf_eq_nil {e : Effect} (hreads : ∀ x ∈ e.reads, gone s x = false)
    (hfrees : ∀ x ∈ e.frees, gone s x = false) : faultsOf s e = [] := by
  have hr : e.reads.filter (gone s) = [] := List.filter_eq_nil_iff.mpr fun x hx => by
    simp [hreads x hx]
  have hf : e.frees.filter (gone s) = [] := List.filter_eq_nil_iff.mpr fun x hx => by
    simp [hfrees x hx]
  rw [faultsOf, hr, hf]
  rfl

theorem running_congr (h : s'.current = s.current) : s'.running = s.running := by
  unfold Sched.running
  rw [h]

/-- The invariant after a statement: the lists as they are now, what the running
task holds and knows, and what the others are left with. -/
theorem Safe.apply (h : Safe D c l z owner) {e : Effect}
    (hcur : e.sched.current = c.sched.current)
    (hcore : Core D owner' e.sched (tail e.sched e.pc) l' z')
    (hmine : Held D owner' e.sched l' c.sched.running e.pc)
    (hhere : Here e.sched l' c.sched.running e.pc)
    (hframe : ∀ b, b ≠ c.sched.running → b ≠ 0 → Frame D owner owner' c.sched e.sched l l' b)
    (hstate : ∀ a, a ≠ c.sched.running → (e.sched.task a).state = (c.sched.task a).state)
    (hreads : ∀ x ∈ e.reads, gone c.sched x = false)
    (hfrees : ∀ x ∈ e.frees, gone c.sched x = false) : Safe D (c.apply e) l' z' owner' := by
  have hrun : (c.apply e).sched.running = c.sched.running := running_congr hcur
  have hpc : (c.apply e).pc c.sched.running = e.pc := Function.update_self _ _ _
  refine ⟨?_, ?_, ?_, ?_, ?_⟩
  · rw [hrun, hpc]
    exact hcore
  · rw [hrun, hpc]
    exact hmine
  · rw [hrun, hpc]
    exact hhere
  · intro a ha hne hcan
    rw [hrun] at hne
    have hother : (c.apply e).pc a = c.pc a := Function.update_of_ne hne _ _
    have ha0 : a ≠ 0 := hcore.estate.nonnull a (hcore.sub a ha)
    have hframe' := hframe a hne ha0
    have hcan' : runnable c.sched a = true := by
      unfold runnable at hcan ⊢
      rw [← hstate a hne]
      exact hcan
    obtain ⟨hheld, hwalk⟩ := h.others a (hframe'.sub a ha) hne hcan'
    rw [hother]
    exact ⟨hheld.frame hwalk hframe', hwalk⟩
  · show faultsOf c.sched e ++ c.faults = []
    rw [faultsOf_eq_nil hreads hfrees, h.clean]
    rfl

/-- A statement that only moves on. -/
theorem Safe.goes (h : Safe D c l z owner) {reads : List Nat}
    (htail : tail c.sched pc = tail c.sched (c.pc c.sched.running))
    (hmine : Held D owner c.sched l c.sched.running pc)
    (hhere : Here c.sched l c.sched.running pc)
    (hreads : ∀ x ∈ reads, gone c.sched x = false) :
    Safe D (c.apply (goes c.sched reads pc)) l z owner := by
  refine h.apply rfl ?_ hmine hhere (fun b _ _ => Frame.refl) (fun a _ => rfl) hreads
    (fun x hx => by cases hx)
  show Core D owner c.sched (tail c.sched pc) l z
  rw [htail]
  exact h.core

theorem Chain.nil : Chain D owner s a 0 [] [] :=
  ⟨rfl, List.nodup_nil, by simp, by simp, by simp⟩

/-- A task that holds nothing. -/
theorem Held.nothing (hrest : pc.rest = 0) (hheld : pc.held a = []) (hfact : Fact s l a pc) :
    Held D owner s l a pc := by
  refine ⟨hfact, [], ?_⟩
  rw [hrest, hheld]
  exact Chain.nil

theorem Core.tail_ne_zero {last : Nat} (h : Core D owner s last l z) : last ≠ 0 :=
  h.estate.nonnull last (h.sub last h.ring.tail_mem)

theorem Core.mem_ne_zero {last : Nat} (h : Core D owner s last l z) (ha : a ∈ l) : a ≠ 0 :=
  h.estate.nonnull a (h.sub a ha)

theorem Estate.congr (h : Estate D s)
    (hk : ∀ x, x ≠ initTask → (s'.task x).kstack = (s.task x).kstack)
    (hp : (s'.task initTask).pid = (s.task initTask).pid) : Estate D s' :=
  ⟨h.nonnull, h.bounded, fun x hx hi y hy hy' => by
    rw [hk x hi]
    exact h.apart x hx hi y hy hy', hp.trans h.initPid⟩

/-- Some lists and owners make the invariant hold. -/
def Sound (D : List Nat) (c : Conf) : Prop := ∃ l z owner, Safe D c l z owner

/-- A statement of the running task that only moves on, while it holds nothing. -/
theorem Safe.moves (hs : Safe D c l z owner) {reads : List Nat} {old : Pc}
    (hpc : c.pc c.sched.running = old) (hold : tail c.sched old = c.sched.taskRing)
    (htail : tail c.sched pc = c.sched.taskRing) (hrest : pc.rest = 0)
    (hheld : pc.held c.sched.running = []) (hfact : Fact c.sched l c.sched.running pc)
    (hhere : Here c.sched l c.sched.running pc) (hreads : ∀ x ∈ reads, x ∈ l) :
    Sound D (c.apply (Preempt.goes c.sched reads pc)) := by
  refine ⟨l, z, owner, hs.goes ?_ (Held.nothing hrest hheld hfact) hhere
    fun x hx => hs.core.not_gone (hreads x hx)⟩
  rw [hpc, htail, hold]

/-- A statement of a walk: the running task keeps what it holds. -/
theorem Safe.walks (hs : Safe D c l z owner) {reads : List Nat} {old : Pc}
    (hpc : c.pc c.sched.running = old) (hold : tail c.sched old = c.sched.taskRing)
    (htail : tail c.sched pc = c.sched.taskRing) (hrest : pc.rest = old.rest)
    (hheld : pc.held c.sched.running = old.held c.sched.running)
    (hfact : Fact c.sched l c.sched.running pc)
    (hhere : Here c.sched l c.sched.running pc) (hreads : ∀ x ∈ reads, x ∈ l) :
    Sound D (c.apply (Preempt.goes c.sched reads pc)) := by
  obtain ⟨-, d, hc⟩ := hs.mine
  rw [hpc, ← hrest, ← hheld] at hc
  refine ⟨l, z, owner, hs.goes ?_ ⟨hfact, d, hc⟩ hhere fun x hx => hs.core.not_gone (hreads x hx)⟩
  rw [hpc, htail, hold]

end KernelC.Multitask.Preempt
